import Mathlib.Data.List.Perm.Basic

/-!
# Objects addressed by their position

A program's objects of one kind are kept as a list of slots: an object is
addressed by its position, construction appends a slot, and every later
operation overwrites one.  A function `f` selects from each slot the resource
the object holds, if any; `held f slots` lists the resources held now.

**Results.**  `held` is determined up to order by the overwritten slot and the
rest (`held_perm`, `held_set_perm`), so an operation that overwrites one slot
adds or removes exactly the resource of that slot.
-/

namespace RwkvLightning
namespace Slots

universe u v

variable {α : Type u} {β : Type v}

/-- The resources held by the objects in the slots. -/
def held (f : α → Option β) (slots : List α) : List β :=
  slots.filterMap f

variable (f : α → Option β)

@[simp] theorem held_nil : held f [] = [] := rfl

/-- A newly constructed object adds what it holds. -/
theorem held_append_singleton
    (slots : List α) (a : α) :
    held f (slots ++ [a]) = held f slots ++ (f a).toList := by
  cases h : f a <;> simp [held, List.filterMap_append, h]

/-- The resource of one slot and the resources of all the others. -/
theorem held_perm
    {slots : List α} {i : Nat} {a : α}
    (hi : slots[i]? = some a) :
    (held f slots).Perm ((f a).toList ++ held f (slots.eraseIdx i)) := by
  induction slots generalizing i with
  | nil => simp at hi
  | cons b slots ih =>
      cases i with
      | zero =>
          have hb : b = a := by simpa using hi
          subst hb
          cases h : f b <;> simp [held, h]
      | succ i =>
          have htail := ih (i := i) (by simpa using hi)
          cases hb : f b with
          | none => simpa [held, hb] using htail
          | some c =>
              have hcons := htail.cons c
              have hmid :
                  (c :: ((f a).toList ++ held f (slots.eraseIdx i))).Perm
                    ((f a).toList ++ c :: held f (slots.eraseIdx i)) :=
                List.perm_middle.symm
              simpa [held, hb] using hcons.trans hmid

/-- Overwriting a slot leaves the resources of all the others alone. -/
theorem held_set_perm
    {slots : List α} {i : Nat}
    (hi : i < slots.length) (a : α) :
    (held f (slots.set i a)).Perm
      ((f a).toList ++ held f (slots.eraseIdx i)) := by
  have hget : (slots.set i a)[i]? = some a := by
    simp [hi]
  have hperm := held_perm f hget
  rwa [List.eraseIdx_set_eq] at hperm

/-- A slot overwritten without changing what it holds. -/
theorem held_set_same
    {slots : List α} {i : Nat} {a b : α}
    (hi : slots[i]? = some a)
    (hab : f b = f a) :
    (held f (slots.set i b)).Perm (held f slots) := by
  obtain ⟨hlt, -⟩ := List.getElem?_eq_some_iff.mp hi
  have h := held_set_perm f hlt b
  rw [hab] at h
  exact h.trans (held_perm f hi).symm

/-- A slot that held `b` is overwritten by one that holds nothing. -/
theorem held_set_cleared
    {slots : List α} {i : Nat} {a c : α} {b : β}
    (hi : slots[i]? = some a)
    (ha : f a = some b)
    (hc : f c = none) :
    (held f slots).Perm (b :: held f (slots.set i c)) := by
  obtain ⟨hlt, -⟩ := List.getElem?_eq_some_iff.mp hi
  have hset := held_set_perm f hlt c
  have hold := held_perm f hi
  rw [hc] at hset
  rw [ha] at hold
  simpa using hold.trans (hset.symm.cons b)

/-- A slot that held nothing is overwritten by one that holds `b`. -/
theorem held_set_filled
    {slots : List α} {i : Nat} {a c : α} {b : β}
    (hi : slots[i]? = some a)
    (ha : f a = none)
    (hc : f c = some b) :
    (held f (slots.set i c)).Perm (b :: held f slots) := by
  obtain ⟨hlt, -⟩ := List.getElem?_eq_some_iff.mp hi
  have hset := held_set_perm f hlt c
  have hold := held_perm f hi
  rw [hc] at hset
  rw [ha] at hold
  simpa using hset.trans (hold.symm.cons b)

end Slots
end RwkvLightning

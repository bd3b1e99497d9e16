import Mathlib.Data.List.Basic

/-!
# Maps as lists of pairs

What `List.lookup` finds, and what is left of it when the pairs of a key are filtered out.
-/

namespace RwkvLightning
namespace Association

universe u v

variable {κ : Type u} {β : Type v} [BEq κ] {l : List (κ × β)} {key : κ}

theorem lookup_filter_none (p : κ × β → Bool) (h : l.lookup key = none) :
    (l.filter p).lookup key = none := by
  rw [List.lookup_eq_none_iff] at h ⊢
  exact fun x hx => h x (List.mem_filter.mp hx).1

variable [LawfulBEq κ]

theorem mem_of_lookup {b : β} (h : l.lookup key = some b) : (key, b) ∈ l := by
  rw [List.lookup_eq_some_iff] at h
  obtain ⟨front, back, heq, -⟩ := h
  rw [heq]
  simp

theorem ne_of_lookup_none (h : l.lookup key = none) : ∀ x ∈ l, x.1 ≠ key := by
  rw [List.lookup_eq_none_iff] at h
  rintro x hx rfl
  simpa using h x hx

section Erase

variable [DecidableEq κ]

theorem lookup_filter_ne (l : List (κ × β)) (key : κ) :
    (l.filter (fun x => x.1 ≠ key)).lookup key = none := by
  rw [List.lookup_eq_none_iff]
  intro x hx
  have hne : x.1 ≠ key := by simpa using (List.mem_filter.mp hx).2
  simpa using fun h => hne h.symm

theorem lookup_filter_of_ne (l : List (κ × β)) {other : κ} (hne : other ≠ key) :
    (l.filter (fun x => x.1 ≠ key)).lookup other = l.lookup other := by
  induction l with
  | nil => rfl
  | cons x l ih =>
      obtain ⟨first, b⟩ := x
      by_cases hkey : first = key
      · subst hkey
        rw [List.filter_cons_of_neg (by simp), List.lookup_cons, beq_false_of_ne hne]
        exact ih
      · rw [List.filter_cons_of_pos (by simpa using hkey), List.lookup_cons,
          List.lookup_cons, ih]

end Erase

end Association
end RwkvLightning

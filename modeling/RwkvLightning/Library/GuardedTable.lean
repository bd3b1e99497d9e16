import Mathlib.Logic.Function.Basic
import Mathlib.Data.List.Nodup
import Mathlib.Tactic

/-!
# A table whose entries are mutated one at a time

A table maps keys to cells.  A mutation of a key is a long operation: `begin`
puts a new cell under the key and marks it active, `finish` clears the mark or
puts the saved cell back.  A key has at most one mutation in progress.  Every
begin and every finish increases the epoch of the table, so that an observation
of the outside world can tell whether a mutation began or ended since.

Cells have serial numbers, which play the role of addresses: a mutation knows
its cell by the number.

**Results.**
* `Guarded`: the cell under the key of a mutation in progress is its own.
* `guarded_begin`, `guarded_finish`, `guarded_update`: what keeps it so.
-/

namespace RwkvLightning
namespace GuardedTable

universe u v

/-- A cell: its serial number, its mark and what it holds. -/
structure Cell (π : Type v) where
  serial : Nat
  active : Bool
  value : π

structure Table (κ : Type u) (π : Type v) where
  cells : κ → Option (Cell π)
  epoch : Nat
  nextSerial : Nat

/-- A mutation in progress. -/
structure Mutation (κ : Type u) (π : Type v) where
  id : κ
  previous : Option (Cell π)
  current : Nat

section Operations

variable {κ : Type u} {π : Type v}

def Table.empty : Table κ π where
  cells := fun _ => none
  epoch := 0
  nextSerial := 0

variable [DecidableEq κ]

/-- Begin a mutation; `fresh` makes the new value from the old one. -/
def Table.begin (t : Table κ π) (id : κ) (fresh : Option π → π) :
    Option (Table κ π × Mutation κ π) :=
  let old := t.cells id
  if old.any (fun cell => cell.active) then none
  else
    some
      ({ cells := Function.update t.cells id
          (some ⟨t.nextSerial, true, fresh (old.map Cell.value)⟩)
         epoch := t.epoch + 1
         nextSerial := t.nextSerial + 1 },
        ⟨id, old, t.nextSerial⟩)

/-- The cell under a key is the active cell of a mutation. -/
def Table.owns (t : Table κ π) (m : Mutation κ π) : Bool :=
  (t.cells m.id).any (fun cell => cell.serial = m.current && cell.active)

/-- End a mutation; without its own cell in place there is nothing to do. -/
def Table.finish (t : Table κ π) (m : Mutation κ π) (rollback : Bool) : Table κ π :=
  if t.owns m then
    { t with
      epoch := t.epoch + 1
      cells := Function.update t.cells m.id
        (if rollback then m.previous
         else (t.cells m.id).map (fun cell => { cell with active := false })) }
  else t

/-- Change the value under a key in place. -/
def Table.modify (t : Table κ π) (id : κ) (f : π → π) : Table κ π :=
  { t with
    cells := Function.update t.cells id
      ((t.cells id).map (fun cell => { cell with value := f cell.value })) }

/-- Change the value of the cell of a mutation, through the mutation. -/
def Table.modifyOwn (t : Table κ π) (m : Mutation κ π) (f : π → π) : Table κ π :=
  if t.owns m then t.modify m.id f else t

/-- Go through the keys: change values in place, and add cells. -/
def Table.observe (t : Table κ π) (change : κ → Cell π → π) (add : κ → Option π) :
    Table κ π :=
  { t with
    nextSerial := t.nextSerial + 1
    cells := fun id =>
      match t.cells id with
      | some cell => some { cell with value := change id cell }
      | none => (add id).map (fun value => ⟨t.nextSerial, false, value⟩) }

end Operations

section Invariant

variable {κ : Type u} {π : Type v}

/-- The mutations in progress and the active cells belong together. -/
structure Guarded (t : Table κ π) (ms : List (Mutation κ π)) : Prop where
  owned : ∀ m ∈ ms, t.owns m = true
  serials : (ms.map Mutation.current).Nodup
  below : ∀ id cell, t.cells id = some cell → cell.serial < t.nextSerial
  previous :
    ∀ m ∈ ms, ∀ cell, m.previous = some cell →
      cell.active = false ∧ cell.serial < t.nextSerial

variable {t t' : Table κ π} {ms : List (Mutation κ π)} {m m' : Mutation κ π}

theorem owns_iff :
    t.owns m = true ↔
      ∃ cell, t.cells m.id = some cell ∧ cell.serial = m.current ∧ cell.active = true := by
  simp [Table.owns, Option.any_eq_true]

theorem guarded_empty : Guarded (Table.empty : Table κ π) [] where
  owned := by simp
  serials := List.nodup_nil
  below := by simp [Table.empty]
  previous := by simp

/-- Mutations in progress that mutate the same key are the same. -/
theorem Guarded.current_eq (h : Guarded t ms) (hm : m ∈ ms) (hm' : m' ∈ ms)
    (hid : m.id = m'.id) : m.current = m'.current := by
  obtain ⟨cell, hcell, hserial, -⟩ := owns_iff.mp (h.owned m hm)
  obtain ⟨cell', hcell', hserial', -⟩ := owns_iff.mp (h.owned m' hm')
  rw [hid, hcell'] at hcell
  rw [← hserial, ← hserial', Option.some.inj hcell]

theorem Guarded.id_ne (h : Guarded t (m :: ms)) (hm' : m' ∈ ms) : m'.id ≠ m.id := by
  intro hid
  have hcurrent := h.current_eq (List.mem_cons_of_mem m hm') List.mem_cons_self hid
  have hnodup := h.serials
  rw [List.map_cons, List.nodup_cons] at hnodup
  exact hnodup.1 (hcurrent ▸ List.mem_map_of_mem hm')

/-- The order in which mutations are written down does not matter. -/
theorem Guarded.perm (h : Guarded t ms) {ms' : List (Mutation κ π)} (hperm : ms.Perm ms') :
    Guarded t ms' where
  owned := fun m hm => h.owned m (hperm.mem_iff.mpr hm)
  serials := (hperm.map Mutation.current).nodup_iff.mp h.serials
  below := h.below
  previous := fun m hm => h.previous m (hperm.mem_iff.mpr hm)

/-- Changes of values leave serial numbers and marks alone. -/
theorem guarded_update (h : Guarded t ms) (hnext : t.nextSerial ≤ t'.nextSerial)
    (hkeep : ∀ id cell, t.cells id = some cell →
      ∃ value, t'.cells id = some { cell with value := value })
    (hnew : ∀ id cell', t.cells id = none → t'.cells id = some cell' →
      cell'.serial < t'.nextSerial) :
    Guarded t' ms := by
  constructor
  · intro m hm
    obtain ⟨cell, hcell, hserial, hactive⟩ := owns_iff.mp (h.owned m hm)
    obtain ⟨value, hcell'⟩ := hkeep m.id cell hcell
    exact owns_iff.mpr ⟨_, hcell', hserial, hactive⟩
  · exact h.serials
  · intro id cell' hcell'
    cases hcell : t.cells id with
    | none => exact hnew id cell' hcell hcell'
    | some cell =>
        obtain ⟨value, hvalue⟩ := hkeep id cell hcell
        rw [hvalue] at hcell'
        obtain rfl := Option.some.inj hcell'
        exact Nat.lt_of_lt_of_le (h.below id cell hcell) hnext
  · intro m hm cell hcell
    obtain ⟨hactive, hserial⟩ := h.previous m hm cell hcell
    exact ⟨hactive, Nat.lt_of_lt_of_le hserial hnext⟩

theorem guarded_observe (h : Guarded t ms) (change : κ → Cell π → π)
    (add : κ → Option π) : Guarded (t.observe change add) ms := by
  refine guarded_update h (Nat.le_succ _) ?_ ?_
  · intro id cell hcell
    exact ⟨change id cell, by simp [Table.observe, hcell]⟩
  · intro id cell' hnone hcell'
    simp only [Table.observe, hnone, Option.map_eq_some_iff] at hcell'
    obtain ⟨value, -, rfl⟩ := hcell'
    exact Nat.lt_succ_self _

variable [DecidableEq κ]

theorem begin_eq_some {id : κ} {fresh : Option π → π} :
    t.begin id fresh = some (t', m) ↔
      (∀ cell, t.cells id = some cell → cell.active = false) ∧
      m = ⟨id, t.cells id, t.nextSerial⟩ ∧
      t' =
        { cells := Function.update t.cells id
            (some ⟨t.nextSerial, true, fresh ((t.cells id).map Cell.value)⟩)
          epoch := t.epoch + 1
          nextSerial := t.nextSerial + 1 } := by
  unfold Table.begin
  constructor
  · intro h
    dsimp only at h
    split_ifs at h with hactive
    have hpair := Option.some.inj h
    refine ⟨?_, (Prod.mk.inj hpair).2.symm, (Prod.mk.inj hpair).1.symm⟩
    intro cell hcell
    rw [hcell] at hactive
    simpa using hactive
  · rintro ⟨hidle, rfl, rfl⟩
    refine if_neg ?_
    cases hcell : t.cells id with
    | none => simp
    | some cell => simp [hidle cell hcell]

theorem guarded_begin (h : Guarded t ms) {id : κ} {fresh : Option π → π}
    (hbegin : t.begin id fresh = some (t', m)) : Guarded t' (m :: ms) := by
  obtain ⟨hidle, rfl, rfl⟩ := begin_eq_some.mp hbegin
  have hne : ∀ m ∈ ms, m.id ≠ id := by
    intro m hm hid
    obtain ⟨cell, hcell, -, hactive⟩ := owns_iff.mp (h.owned m hm)
    have := hidle cell (hid ▸ hcell)
    rw [this] at hactive
    exact absurd hactive (by simp)
  have hlt : ∀ m ∈ ms, m.current < t.nextSerial := by
    intro m hm
    obtain ⟨cell, hcell, hserial, -⟩ := owns_iff.mp (h.owned m hm)
    exact hserial ▸ h.below _ _ hcell
  constructor
  · intro m hm
    rcases List.mem_cons.mp hm with rfl | hm
    · exact owns_iff.mpr ⟨_, Function.update_self _ _ _, rfl, rfl⟩
    · obtain ⟨cell, hcell, hrest⟩ := owns_iff.mp (h.owned m hm)
      exact owns_iff.mpr ⟨cell, (Function.update_of_ne (hne m hm) _ _).trans hcell, hrest⟩
  · refine List.nodup_cons.mpr ⟨?_, h.serials⟩
    intro hmem
    obtain ⟨m, hm, hcurrent⟩ := List.mem_map.mp hmem
    exact absurd (hlt m hm) (by rw [hcurrent]; exact Nat.lt_irrefl _)
  · intro key cell hcell
    dsimp only at hcell ⊢
    by_cases hkey : key = id
    · subst hkey
      rw [Function.update_self] at hcell
      obtain rfl := Option.some.inj hcell
      exact Nat.lt_succ_self _
    · rw [Function.update_of_ne hkey] at hcell
      exact Nat.lt_succ_of_lt (h.below _ _ hcell)
  · intro m hm cell hcell
    rcases List.mem_cons.mp hm with rfl | hm
    · exact ⟨hidle cell hcell, Nat.lt_succ_of_lt (h.below _ _ hcell)⟩
    · obtain ⟨hactive, hserial⟩ := h.previous m hm cell hcell
      exact ⟨hactive, Nat.lt_succ_of_lt hserial⟩

theorem guarded_finish (h : Guarded t (m :: ms)) (rollback : Bool) :
    Guarded (t.finish m rollback) ms := by
  have howns := h.owned m List.mem_cons_self
  unfold Table.finish
  rw [if_pos howns]
  constructor
  · intro m' hm'
    obtain ⟨cell, hcell, hrest⟩ := owns_iff.mp (h.owned m' (List.mem_cons_of_mem m hm'))
    exact owns_iff.mpr
      ⟨cell, (Function.update_of_ne (h.id_ne hm') _ _).trans hcell, hrest⟩
  · exact (List.nodup_cons.mp h.serials).2
  · intro key cell hcell
    dsimp only at hcell ⊢
    by_cases hkey : key = m.id
    · subst hkey
      rw [Function.update_self] at hcell
      cases rollback with
      | true => exact (h.previous m List.mem_cons_self cell (by simpa using hcell)).2
      | false =>
          simp only [Bool.false_eq_true, if_false, Option.map_eq_some_iff] at hcell
          obtain ⟨cell', hcell', rfl⟩ := hcell
          exact h.below m.id cell' hcell'
    · rw [Function.update_of_ne hkey] at hcell
      exact h.below _ _ hcell
  · intro m' hm' cell hcell
    exact h.previous m' (List.mem_cons_of_mem m hm') cell hcell

/-- What is under a key after a change in place. -/
theorem cells_modify (t : Table κ π) (id : κ) (f : π → π) (key : κ) :
    (t.modify id f).cells key =
      if key = id then (t.cells key).map (fun cell => { cell with value := f cell.value })
      else t.cells key := by
  unfold Table.modify
  by_cases hkey : key = id
  · subst hkey
    rw [if_pos rfl]
    exact Function.update_self _ _ _
  · rw [if_neg hkey]
    exact Function.update_of_ne hkey _ _

theorem modifyOwn_of_owns (h : t.owns m = true) (f : π → π) :
    t.modifyOwn m f = t.modify m.id f := if_pos h

theorem guarded_modify (h : Guarded t ms) (id : κ) (f : π → π) :
    Guarded (t.modify id f) ms := by
  refine guarded_update h (Nat.le_refl _) ?_ ?_
  · intro key cell hcell
    by_cases hkey : key = id
    · subst hkey
      exact ⟨f cell.value, by simp [Table.modify, hcell]⟩
    · exact ⟨cell.value, by simp [Table.modify, hkey, hcell]⟩
  · intro key cell' hnone hcell'
    by_cases hkey : key = id
    · subst hkey
      simp [Table.modify, hnone] at hcell'
    · simp [Table.modify, hkey, hnone] at hcell'

theorem guarded_modifyOwn (h : Guarded t ms) (m : Mutation κ π) (f : π → π) :
    Guarded (t.modifyOwn m f) ms := by
  unfold Table.modifyOwn
  split_ifs
  · exact guarded_modify h m.id f
  · exact h

end Invariant

end GuardedTable
end RwkvLightning

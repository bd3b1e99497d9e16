import Mathlib.Data.List.Basic
import Mathlib.Data.List.Nodup

/-!
# Linked lists with stable positions

A doubly linked list whose elements keep their position (iterator) while other
elements are inserted, erased or moved.  A position is the number of the
insertion that created it, so it is never reused.

**Results.**  `get?_eq_some`: a position denotes the element stored with it.
`cells_moveToFront`: moving an element to the front keeps all the others in
order.
-/

namespace RwkvLightning

universe u

/-- A linked list; the two invariants make every position denote one element. -/
structure StableList (α : Type u) where
  cells : List (Nat × α)
  nextPosition : Nat
  fresh : ∀ cell ∈ cells, cell.1 < nextPosition
  nodup : (cells.map Prod.fst).Nodup

namespace StableList

variable {α : Type u}

/-- The empty list. -/
def empty : StableList α :=
  { cells := [], nextPosition := 0, fresh := by simp, nodup := by simp }

/-- The elements, from front to back. -/
def toList (l : StableList α) : List α :=
  l.cells.map Prod.snd

def size (l : StableList α) : Nat :=
  l.cells.length

/-- The element at a position. -/
def get? (l : StableList α) (position : Nat) : Option α :=
  (l.cells.find? (fun cell => cell.1 == position)).map Prod.snd

/-- A fresh position is not in use. -/
theorem nextPosition_not_mem (l : StableList α) :
    l.nextPosition ∉ l.cells.map Prod.fst := by
  intro hmem
  obtain ⟨cell, hcell, heq⟩ := List.mem_map.mp hmem
  have hlt := l.fresh cell hcell
  omega

/-- Insert at the front; the new position is `l.nextPosition`. -/
def pushFront (l : StableList α) (a : α) : StableList α where
  cells := (l.nextPosition, a) :: l.cells
  nextPosition := l.nextPosition + 1
  fresh := by
    intro cell hcell
    rcases List.mem_cons.mp hcell with rfl | hcell
    · simp
    · have hlt := l.fresh cell hcell
      omega
  nodup := by
    rw [List.map_cons, List.nodup_cons]
    exact ⟨l.nextPosition_not_mem, l.nodup⟩

/-- Insert at the back; the new position is `l.nextPosition`. -/
def pushBack (l : StableList α) (a : α) : StableList α where
  cells := l.cells ++ [(l.nextPosition, a)]
  nextPosition := l.nextPosition + 1
  fresh := by
    intro cell hcell
    rcases List.mem_append.mp hcell with hcell | hcell
    · have hlt := l.fresh cell hcell
      omega
    · rw [List.mem_singleton.mp hcell]
      simp
  nodup := by
    rw [List.map_append, List.nodup_append]
    refine ⟨l.nodup, by simp, ?_⟩
    intro position hposition position' hposition' heq
    have hnext : position' = l.nextPosition := by simpa using hposition'
    subst heq hnext
    exact l.nextPosition_not_mem hposition

/-- Erase the first element. -/
def popFront (l : StableList α) : StableList α where
  cells := l.cells.tail
  nextPosition := l.nextPosition
  fresh := fun cell hcell => l.fresh cell (List.mem_of_mem_tail hcell)
  nodup := l.nodup.sublist ((List.tail_sublist _).map Prod.fst)

/-- Erase the element at a position. -/
def erase (l : StableList α) (position : Nat) : StableList α where
  cells := l.cells.filter (fun cell => cell.1 ≠ position)
  nextPosition := l.nextPosition
  fresh := fun cell hcell => l.fresh cell (List.mem_of_mem_filter hcell)
  nodup := l.nodup.sublist (List.filter_sublist.map Prod.fst)

/-- Move the element at a position to the front, keeping its position. -/
def moveToFront (l : StableList α) (position : Nat) : StableList α where
  cells := l.cells.filter (fun cell => cell.1 = position) ++
    l.cells.filter (fun cell => cell.1 ≠ position)
  nextPosition := l.nextPosition
  fresh := by
    intro cell hcell
    rcases List.mem_append.mp hcell with hcell | hcell
    · exact l.fresh cell (List.mem_of_mem_filter hcell)
    · exact l.fresh cell (List.mem_of_mem_filter hcell)
  nodup := by
    have hperm := (List.filter_append_perm (fun cell => cell.1 = position)
      l.cells).map Prod.fst
    have hnodup := hperm.nodup_iff.mpr l.nodup
    simpa using hnodup

@[simp] theorem cells_empty : (empty : StableList α).cells = [] := rfl

@[simp] theorem cells_pushFront (l : StableList α) (a : α) :
    (l.pushFront a).cells = (l.nextPosition, a) :: l.cells := rfl

@[simp] theorem cells_pushBack (l : StableList α) (a : α) :
    (l.pushBack a).cells = l.cells ++ [(l.nextPosition, a)] := rfl

@[simp] theorem cells_popFront (l : StableList α) :
    l.popFront.cells = l.cells.tail := rfl

@[simp] theorem cells_erase (l : StableList α) (position : Nat) :
    (l.erase position).cells =
      l.cells.filter (fun cell => cell.1 ≠ position) := rfl

/-- Two elements at one position are the same. -/
theorem eq_of_mem
    {l : StableList α} {position : Nat} {a b : α}
    (ha : (position, a) ∈ l.cells)
    (hb : (position, b) ∈ l.cells) :
    a = b := by
  have heq := List.inj_on_of_nodup_map l.nodup ha hb rfl
  exact congrArg Prod.snd heq

theorem get?_eq_some
    {l : StableList α} {position : Nat} {a : α} :
    l.get? position = some a ↔ (position, a) ∈ l.cells := by
  constructor
  · intro h
    obtain ⟨cell, hfind, rfl⟩ := Option.map_eq_some_iff.mp h
    have hmem := List.mem_of_find?_eq_some hfind
    have hpos : cell.1 = position := by simpa using List.find?_some hfind
    exact hpos ▸ hmem
  · intro hmem
    cases hfind : l.cells.find? (fun cell => cell.1 == position) with
    | none =>
        have hnone := List.find?_eq_none.mp hfind _ hmem
        simp at hnone
    | some cell =>
        have hcell := List.mem_of_find?_eq_some hfind
        have hpos : cell.1 = position := by simpa using List.find?_some hfind
        have heq : cell.2 = a := eq_of_mem (hpos ▸ hcell) hmem
        simp [get?, hfind, heq]

/-- The elements found by a position in use. -/
theorem filter_eq_of_mem
    {l : StableList α} {position : Nat} {a : α}
    (hmem : (position, a) ∈ l.cells) :
    l.cells.filter (fun cell => cell.1 = position) = [(position, a)] := by
  have hnodup : l.cells.Nodup := List.Nodup.of_map _ l.nodup
  refine List.perm_singleton.mp ?_
  rw [List.perm_ext_iff_of_nodup (hnodup.filter _) (List.nodup_singleton _)]
  intro cell
  constructor
  · intro hcell
    have hin := List.mem_of_mem_filter hcell
    have hpos : cell.1 = position := by simpa using List.of_mem_filter hcell
    have heq : cell.2 = a := eq_of_mem (hpos ▸ hin) hmem
    simp [← hpos, ← heq]
  · intro hcell
    have heq : cell = (position, a) := by simpa using hcell
    subst heq
    simp [hmem]

/-- One element and all the others. -/
theorem perm_cons_filter
    {l : StableList α} {position : Nat} {a : α}
    (hmem : (position, a) ∈ l.cells) :
    l.cells.Perm
      ((position, a) :: l.cells.filter (fun cell => cell.1 ≠ position)) := by
  have hperm := List.filter_append_perm
    (fun cell => decide (cell.1 = position)) l.cells
  rw [filter_eq_of_mem hmem] at hperm
  simpa using hperm.symm

/-- The first element is the one that `popFront` erases. -/
theorem tail_eq_filter
    {l : StableList α} {position : Nat} {a : α} {rest : List (Nat × α)}
    (hcells : l.cells = (position, a) :: rest) :
    rest = l.cells.filter (fun cell => cell.1 ≠ position) := by
  have hnodup := l.nodup
  rw [hcells, List.map_cons, List.nodup_cons] at hnodup
  rw [hcells, List.filter_cons_of_neg (by simp)]
  refine (List.filter_eq_self.mpr ?_).symm
  intro cell hcell
  simp only [decide_eq_true_eq]
  rintro rfl
  exact hnodup.1 (List.mem_map.mpr ⟨cell, hcell, rfl⟩)

theorem cells_moveToFront
    {l : StableList α} {position : Nat} {a : α}
    (hmem : (position, a) ∈ l.cells) :
    (l.moveToFront position).cells =
      (position, a) :: l.cells.filter (fun cell => cell.1 ≠ position) := by
  simp [moveToFront, filter_eq_of_mem hmem]

end StableList
end RwkvLightning

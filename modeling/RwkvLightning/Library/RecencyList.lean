import Mathlib.Data.List.Nodup

/-!
# A map with a recency list

The abstract state of a cache with least-recently-used eviction: the list of
its items, most recently used first, with pairwise distinct keys.

**Results.**  Each operation changes the item of one key only: `touch_perm`,
`mem_remove`, `mem_insert`.  What `insert` evicts is the end of the list by
definition.
-/

namespace RwkvLightning
namespace RecencyList

universe u v

variable {α : Type u} {κ : Type v} [DecidableEq κ] (key : α → κ)

/-- Remove the item with a key. -/
def remove (k : κ) (l : List α) : List α :=
  l.filter (fun a => key a ≠ k)

/-- Make the item with a key the most recently used one. -/
def touch (k : κ) (l : List α) : List α :=
  l.filter (fun a => key a = k) ++ remove key k l

/-- Replace or add an item and evict the least recently used ones. -/
def insert (capacity : Nat) (a : α) (l : List α) : List α :=
  (a :: remove key (key a) l).take capacity

variable {key}

theorem mem_remove {k : κ} {l : List α} {a : α} :
    a ∈ remove key k l ↔ a ∈ l ∧ key a ≠ k := by
  simp [remove]

theorem touch_perm (k : κ) (l : List α) : (touch key k l).Perm l := by
  have hperm := List.filter_append_perm (fun a => decide (key a = k)) l
  simpa [touch, remove] using hperm

theorem length_insert_le (capacity : Nat) (a : α) (l : List α) :
    (insert key capacity a l).length ≤ capacity :=
  List.length_take_le _ _

theorem mem_insert {capacity : Nat} {a b : α} {l : List α}
    (h : b ∈ insert key capacity a l) :
    b = a ∨ b ∈ l ∧ key b ≠ key a := by
  have hmem := List.mem_of_mem_take h
  rcases List.mem_cons.mp hmem with rfl | hmem
  · exact Or.inl rfl
  · exact Or.inr (mem_remove.mp hmem)

/-- The item of a key that is present. -/
theorem filter_key_eq {l : List α} (h : (l.map key).Nodup) {a : α}
    (hmem : a ∈ l) :
    l.filter (fun b => key b = key a) = [a] := by
  have hnodup : l.Nodup := List.Nodup.of_map _ h
  refine List.perm_singleton.mp ?_
  rw [List.perm_ext_iff_of_nodup (hnodup.filter _) (List.nodup_singleton _)]
  intro b
  constructor
  · intro hb
    have hin := List.mem_of_mem_filter hb
    have hkey : key b = key a := by simpa using List.of_mem_filter hb
    exact List.mem_singleton.mpr (List.inj_on_of_nodup_map h hin hmem hkey)
  · intro hb
    rw [List.mem_singleton.mp hb]
    simp [hmem]

theorem touch_of_mem {l : List α} (h : (l.map key).Nodup) {a : α}
    (hmem : a ∈ l) :
    touch key (key a) l = a :: remove key (key a) l := by
  simp [touch, filter_key_eq h hmem]

end RecencyList
end RwkvLightning

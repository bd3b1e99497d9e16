import RwkvLightning.Library.StableList
import Mathlib.Data.List.AList

/-!
# A map whose keys are linked in a list

The usual representation of a recency list: a map from keys to values, a list of
keys, and with every value the position of its key in the list.  The operations
are the single statements of a program that keeps the two in step, so that a
program interrupted between two of them can be described.

**Results.**  `Linked` says that the map and the list are in bijection;
`LinkedExcept` is the same with one key in the middle of an update.  Erasing and
appending go from one to the other (`Linked.erase`, `LinkedExcept.append`,
`Linked.touch`, `Linked.popFront`), and `Linked.size_eq` counts both sides.
-/

namespace RwkvLightning

universe u v

structure LinkedMap (κ : Type u) (α : Type v) where
  map : AList (fun _ : κ => α × Nat)
  order : StableList κ

namespace LinkedMap

variable {κ : Type u} {α : Type v}

def empty : LinkedMap κ α :=
  { map := ∅, order := StableList.empty }

/-- The number of entries of the map. -/
def size (l : LinkedMap κ α) : Nat :=
  l.map.entries.length

/-- The first key of the list. -/
def front? (l : LinkedMap κ α) : Option κ :=
  l.order.cells.head?.map Prod.snd

/-- Append a key to the list. -/
def pushBack (l : LinkedMap κ α) (key : κ) : LinkedMap κ α :=
  { l with order := l.order.pushBack key }

variable [DecidableEq κ]

/-- The value of a key. -/
def get? (l : LinkedMap κ α) (key : κ) : Option α :=
  (l.map.lookup key).map Prod.fst

/-- Erase the position of a key from the list. -/
def unlink (l : LinkedMap κ α) (key : κ) : LinkedMap κ α :=
  match l.map.lookup key with
  | none => l
  | some entry => { l with order := l.order.erase entry.2 }

/-- Store a value with the position of the last key. -/
def insertBack (l : LinkedMap κ α) (key : κ) (a : α) : LinkedMap κ α :=
  let back := (l.order.cells.getLast?.map Prod.fst).getD 0
  { l with map := l.map.insert key (a, back) }

/-- Erase a key from the map. -/
def eraseEntry (l : LinkedMap κ α) (key : κ) : LinkedMap κ α :=
  { l with map := l.map.erase key }

/-- Erase a key from the list and from the map. -/
def erase (l : LinkedMap κ α) (key : κ) : LinkedMap κ α :=
  (l.unlink key).eraseEntry key

/-- Erase the first key of the list, and a key from the map. -/
def popFront (l : LinkedMap κ α) (key : κ) : LinkedMap κ α :=
  { map := l.map.erase key, order := l.order.popFront }

/-- The map and the list are in bijection. -/
structure Linked (l : LinkedMap κ α) : Prop where
  linked : ∀ key a position, l.map.lookup key = some (a, position) →
    (position, key) ∈ l.order.cells
  listed : ∀ position key, (position, key) ∈ l.order.cells →
    ∃ a, l.map.lookup key = some (a, position)

/-- The same for all keys but one, which is not in the list. -/
structure LinkedExcept (l : LinkedMap κ α) (except : κ) : Prop where
  linked : ∀ key a position, key ≠ except →
    l.map.lookup key = some (a, position) → (position, key) ∈ l.order.cells
  listed : ∀ position key, (position, key) ∈ l.order.cells →
    key ≠ except ∧ ∃ a, l.map.lookup key = some (a, position)

variable {l : LinkedMap κ α} {key : κ}

theorem linked_empty : Linked (empty : LinkedMap κ α) := by
  constructor
  · intro key a position h
    simp [empty] at h
  · intro position key h
    simp [empty] at h

@[simp] theorem get?_empty : (empty : LinkedMap κ α).get? key = none := by
  simp [get?, empty]

@[simp] theorem get?_pushBack (key' : κ) :
    (l.pushBack key').get? key = l.get? key := rfl

@[simp] theorem get?_unlink (key' : κ) :
    (l.unlink key').get? key = l.get? key := by
  unfold unlink get?
  split <;> rfl

theorem get?_insertBack (key' : κ) (a : α) :
    (l.insertBack key' a).get? key = if key = key' then some a else l.get? key := by
  by_cases h : key = key'
  · subst h
    simp [get?, insertBack]
  · simp [get?, insertBack, h, AList.lookup_insert_ne]

theorem get?_eraseEntry (key' : κ) :
    (l.eraseEntry key').get? key = if key = key' then none else l.get? key := by
  by_cases h : key = key'
  · subst h
    simp [get?, eraseEntry]
  · simp [get?, eraseEntry, h, AList.lookup_erase_ne]

@[simp] theorem get?_erase (key' : κ) :
    (l.erase key').get? key = if key = key' then none else l.get? key := by
  rw [erase, get?_eraseEntry, get?_unlink]

theorem get?_popFront (key' : κ) :
    (l.popFront key').get? key = if key = key' then none else l.get? key :=
  get?_eraseEntry (l := l) key'

/-- In a linked map a stored key has one position. -/
theorem Linked.unlink (h : Linked l) (key : κ) :
    LinkedExcept (l.unlink key) key := by
  unfold LinkedMap.unlink
  cases hlookup : l.map.lookup key with
  | none =>
      constructor
      · intro key' a position _ h'
        exact h.linked key' a position h'
      · intro position key' hmem
        obtain ⟨a, ha⟩ := h.listed position key' hmem
        refine ⟨?_, a, ha⟩
        rintro rfl
        simp [hlookup] at ha
  | some entry =>
      obtain ⟨a, position⟩ := entry
      have hkey := h.linked key a position hlookup
      constructor
      · intro key' a' position' hne h'
        have hmem := h.linked key' a' position' h'
        refine List.mem_filter.mpr ⟨hmem, ?_⟩
        simp only [decide_eq_true_eq]
        rintro rfl
        exact hne (StableList.eq_of_mem hmem hkey)
      · intro position' key' hmem
        obtain ⟨hin, hne⟩ := List.mem_filter.mp hmem
        obtain ⟨a', ha'⟩ := h.listed position' key' hin
        refine ⟨?_, a', ha'⟩
        rintro rfl
        rw [hlookup, Option.some.injEq, Prod.mk.injEq] at ha'
        simp [ha'.2] at hne

theorem LinkedExcept.eraseEntry (h : LinkedExcept l key) :
    Linked (l.eraseEntry key) := by
  constructor
  · intro key' a position h'
    by_cases hkey : key' = key
    · subst hkey
      simp [LinkedMap.eraseEntry] at h'
    · simp only [LinkedMap.eraseEntry, AList.lookup_erase_ne hkey] at h'
      exact h.linked key' a position hkey h'
  · intro position key' hmem
    obtain ⟨hkey, a, ha⟩ := h.listed position key' hmem
    exact ⟨a, by simpa [LinkedMap.eraseEntry, AList.lookup_erase_ne hkey] using ha⟩

theorem Linked.erase (h : Linked l) (key : κ) : Linked (l.erase key) :=
  (h.unlink key).eraseEntry

/-- A key that is not stored is not in the list either. -/
theorem Linked.except (h : Linked l) (hnone : l.get? key = none) :
    LinkedExcept l key := by
  constructor
  · intro key' a position _ h'
    exact h.linked key' a position h'
  · intro position key' hmem
    obtain ⟨a, ha⟩ := h.listed position key' hmem
    refine ⟨?_, a, ha⟩
    rintro rfl
    simp [get?, ha] at hnone

/-- Append a key and store its value. -/
theorem LinkedExcept.append (h : LinkedExcept l key) (a : α) :
    Linked ((l.pushBack key).insertBack key a) := by
  have hmap : ((l.pushBack key).insertBack key a).map =
      l.map.insert key (a, l.order.nextPosition) := by
    simp [insertBack, pushBack]
  have horder : ((l.pushBack key).insertBack key a).order.cells =
      l.order.cells ++ [(l.order.nextPosition, key)] := rfl
  constructor
  · intro key' a' position h'
    rw [hmap] at h'
    rw [horder]
    by_cases hkey : key' = key
    · subst hkey
      rw [AList.lookup_insert, Option.some.injEq, Prod.mk.injEq] at h'
      simp [h'.2]
    · rw [AList.lookup_insert_ne hkey] at h'
      exact List.mem_append_left _ (h.linked key' a' position hkey h')
  · intro position key' hmem
    rw [horder] at hmem
    rw [hmap]
    rcases List.mem_append.mp hmem with hmem | hmem
    · obtain ⟨hkey, a', ha'⟩ := h.listed position key' hmem
      exact ⟨a', by rw [AList.lookup_insert_ne hkey]; exact ha'⟩
    · have heq := List.mem_singleton.mp hmem
      simp only [Prod.mk.injEq] at heq
      obtain ⟨rfl, rfl⟩ := heq
      exact ⟨a, by rw [AList.lookup_insert]⟩

theorem get?_append (key' : κ) (a : α) :
    ((l.pushBack key').insertBack key' a).get? key =
      if key = key' then some a else l.get? key := by
  rw [get?_insertBack, get?_pushBack]

/-- The map and the list have the same number of elements. -/
theorem Linked.size_eq (h : Linked l) : l.size = l.order.size := by
  have hcells : (l.order.cells.map Prod.snd).Nodup := by
    have hpositions := l.order.nodup
    unfold List.Nodup at hpositions ⊢
    rw [List.pairwise_map] at hpositions ⊢
    refine hpositions.imp_of_mem ?_
    rintro ⟨position, key⟩ ⟨position', key'⟩ hmem hmem' hne heq
    obtain ⟨a, ha⟩ := h.listed position key hmem
    obtain ⟨a', ha'⟩ := h.listed position' key' hmem'
    simp only at heq hne
    subst heq
    rw [ha, Option.some.injEq, Prod.mk.injEq] at ha'
    exact hne ha'.2
  have hperm : l.map.keys.Perm (l.order.cells.map Prod.snd) := by
    rw [List.perm_ext_iff_of_nodup l.map.keys_nodup hcells]
    intro key
    rw [← AList.mem_keys, ← AList.lookup_isSome]
    constructor
    · intro hsome
      obtain ⟨entry, hentry⟩ := Option.isSome_iff_exists.mp hsome
      exact List.mem_map.mpr ⟨_, h.linked key entry.1 entry.2 hentry, rfl⟩
    · intro hmem
      obtain ⟨cell, hcell, rfl⟩ := List.mem_map.mp hmem
      obtain ⟨a, ha⟩ := h.listed cell.1 cell.2 hcell
      simp [ha]
  have hlength := hperm.length_eq
  simpa [AList.keys, List.keys, size, StableList.size] using hlength

/-- Erasing a stored key makes the map smaller. -/
theorem Linked.size_erase (h : Linked l) {a : α} (hget : l.get? key = some a) :
    (l.erase key).size + 1 = l.size := by
  obtain ⟨⟨a', position⟩, hlookup, -⟩ := Option.map_eq_some_iff.mp hget
  rw [(h.erase key).size_eq, h.size_eq]
  have hmem := h.linked key a' position hlookup
  have hlength := (StableList.perm_cons_filter hmem).length_eq
  simp only [LinkedMap.erase, LinkedMap.unlink, hlookup, LinkedMap.eraseEntry,
    StableList.size, StableList.cells_erase]
  simpa using hlength.symm

theorem size_erase_le (key : κ) : (l.erase key).size ≤ l.size := by
  have hmap : (l.erase key).map = l.map.erase key := by
    unfold LinkedMap.erase LinkedMap.unlink LinkedMap.eraseEntry
    split <;> rfl
  unfold size
  rw [hmap]
  exact (List.kerase_sublist key l.map.entries).length_le

/-- The first key of a linked list is stored, and `popFront` is `erase`. -/
theorem Linked.front
    (h : Linked l) (hfront : l.front? = some key) :
    (∃ a, l.get? key = some a) ∧ Linked (l.popFront key) ∧
      (l.popFront key).size + 1 = l.size := by
  obtain ⟨cell, hhead, rfl⟩ := Option.map_eq_some_iff.mp hfront
  obtain ⟨position, key⟩ := cell
  obtain ⟨rest, hcells⟩ := List.head?_eq_some_iff.mp hhead
  obtain ⟨a, ha⟩ := h.listed position key (by simp [hcells])
  have hget : l.get? key = some a := by simp [get?, ha]
  have herase : (l.popFront key).map = (l.erase key).map ∧
      (l.popFront key).order.cells = (l.erase key).order.cells := by
    simp only [LinkedMap.popFront, LinkedMap.erase, LinkedMap.unlink, ha,
      LinkedMap.eraseEntry, StableList.cells_popFront, StableList.cells_erase,
      true_and]
    rw [← StableList.tail_eq_filter hcells, hcells, List.tail_cons]
  have hlinked := h.erase key
  refine ⟨⟨a, hget⟩, ⟨?_, ?_⟩, ?_⟩
  · intro key' a' position' h'
    rw [herase.2]
    rw [herase.1] at h'
    exact hlinked.linked key' a' position' h'
  · intro position' key' hmem
    rw [herase.2] at hmem
    rw [herase.1]
    exact hlinked.listed position' key' hmem
  · have hsize := h.size_erase hget
    rw [← hsize]
    simp [size, herase.1]

/-- A linked list is empty only when the map is. -/
theorem Linked.front?_isSome (h : Linked l) (hpos : 0 < l.size) :
    ∃ key, l.front? = some key := by
  rw [h.size_eq] at hpos
  cases hcells : l.order.cells with
  | nil => simp [StableList.size, hcells] at hpos
  | cons cell rest => exact ⟨cell.2, by simp [front?, hcells]⟩

/-- Moving a stored key to the back. -/
theorem Linked.touch (h : Linked l) {a : α} (hget : l.get? key = some a) :
    Linked (((l.unlink key).pushBack key).insertBack key a) ∧
      (((l.unlink key).pushBack key).insertBack key a).size = l.size := by
  have hlinked := (h.unlink key).append a
  refine ⟨hlinked, ?_⟩
  obtain ⟨⟨a', position⟩, hlookup, -⟩ := Option.map_eq_some_iff.mp hget
  have hmem := h.linked key a' position hlookup
  have hlength := (StableList.perm_cons_filter hmem).length_eq
  rw [hlinked.size_eq, h.size_eq]
  simp only [LinkedMap.insertBack, LinkedMap.pushBack, LinkedMap.unlink, hlookup,
    StableList.size, StableList.cells_pushBack, StableList.cells_erase]
  simpa using hlength.symm

end LinkedMap
end RwkvLightning

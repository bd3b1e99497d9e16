import RwkvLightning.Inference.PrefixCache

/-!
# The prefix cache refines a map with a recency list

`Cache.items` is the abstract state of a cache.  The invariant ties the recency
list, the heap and the trees together: what a tree stores under a sequence is an
entry with that key, linked from its own position, and every position of the
recency list is reached from a tree.

**Results.**
* `extract_spec`, `put_spec`, `find_spec`: one refinement lemma for each
  operation.
* `run_eq_spec`: every sequence of operations returns what the specification
  returns.
-/

namespace RwkvLightning
namespace PrefixCache

universe u v w

variable {κ : Type u} {τ : Type v} {ν : Type w}

variable [DecidableEq κ] [DecidableEq τ]

/-- The entry that the trees store under a key. -/
def address (roots : AList (fun _ : κ => Node τ)) (identity : κ)
    (tokens : List τ) : Option Nat :=
  (roots.lookup identity).bind (fun root => root.lookup tokens)

/-- The data structure is in order. -/
structure Invariant (c : Cache κ τ ν) : Prop where
  wellFormed : ∀ identity root, c.roots.lookup identity = some root →
    root.WellFormed
  stored : ∀ identity tokens a, address c.roots identity tokens = some a →
    ∃ entry, c.entries[a]? = some entry ∧ entry.identity = identity ∧
      entry.tokens = tokens ∧ tokens ≠ [] ∧
      (entry.position, a) ∈ c.order.cells
  reached : ∀ position a, (position, a) ∈ c.order.cells →
    ∃ entry, c.entries[a]? = some entry ∧ entry.position = position ∧
      address c.roots entry.identity entry.tokens = some a

theorem invariant_new (capacity : Nat) :
    Invariant (Cache.new capacity : Cache κ τ ν) := by
  constructor <;> simp [Cache.new, address]

section Items

variable {c : Cache κ τ ν}

/-- A key leads to one position only. -/
theorem Invariant.position_unique
    (h : Invariant c) {p p' a a' : Nat} {entry entry' : Entry κ τ ν}
    (hcell : (p, a) ∈ c.order.cells) (hentry : c.entries[a]? = some entry)
    (hcell' : (p', a') ∈ c.order.cells) (hentry' : c.entries[a']? = some entry') :
    p = p' ↔ entry.item.key = entry'.item.key := by
  obtain ⟨e, he, hpos, haddr⟩ := h.reached p a hcell
  obtain ⟨e', he', hpos', haddr'⟩ := h.reached p' a' hcell'
  rw [hentry, Option.some.injEq] at he
  rw [hentry', Option.some.injEq] at he'
  subst he he'
  constructor
  · rintro rfl
    have haa : a = a' := StableList.eq_of_mem hcell hcell'
    subst haa
    rw [hentry, Option.some.injEq] at hentry'
    rw [hentry']
  · intro hkey
    simp only [Item.key, Entry.item, Prod.mk.injEq] at hkey
    rw [hkey.1, hkey.2, haddr', Option.some.injEq] at haddr
    subst haddr
    rw [hentry, Option.some.injEq] at hentry'
    rw [← hpos, ← hpos', hentry']

omit [DecidableEq κ] [DecidableEq τ] in
/-- Filtering positions and filtering items is the same. -/
theorem filterMap_filter_cells
    {entries : List (Entry κ τ ν)} {cells : List (Nat × Nat)}
    {P : Nat × Nat → Bool} {Q : Item κ τ ν → Bool}
    (h : ∀ cell ∈ cells, ∀ item, cellItem entries cell = some item →
      P cell = Q item) :
    (cells.filter P).filterMap (cellItem entries) =
      (cells.filterMap (cellItem entries)).filter Q := by
  induction cells with
  | nil => rfl
  | cons cell cells ih =>
      have htail := ih (fun cell' hcell' => h cell' (by simp [hcell']))
      cases hitem : cellItem entries cell with
      | none => cases hP : P cell <;> simp [hP, hitem, htail]
      | some item =>
          have hPQ := h cell (by simp) item hitem
          cases hP : P cell
          · simp [hP, hitem, htail, ← hPQ]
          · simp [hP, hitem, htail, ← hPQ]

/-- Removing a position removes the item of its key. -/
theorem Invariant.items_remove
    (h : Invariant c) {p a : Nat} {entry : Entry κ τ ν}
    (hcell : (p, a) ∈ c.order.cells) (hentry : c.entries[a]? = some entry) :
    (c.order.cells.filter (fun cell => cell.1 ≠ p)).filterMap
        (cellItem c.entries) =
      RecencyList.remove Item.key entry.item.key c.items := by
  refine filterMap_filter_cells ?_
  rintro ⟨p', a'⟩ hcell' item hitem
  obtain ⟨entry', hentry', rfl⟩ := Option.map_eq_some_iff.mp hitem
  have hiff := h.position_unique hcell' hentry' hcell hentry
  simp [hiff]

/-- Every position stands for an item. -/
theorem Invariant.cellItem_isSome
    (h : Invariant c) {cell : Nat × Nat} (hcell : cell ∈ c.order.cells) :
    ∃ entry, c.entries[cell.2]? = some entry ∧ entry.position = cell.1 ∧
      cellItem c.entries cell = some entry.item := by
  obtain ⟨entry, hentry, hpos, -⟩ := h.reached cell.1 cell.2 hcell
  exact ⟨entry, hentry, hpos, by simp [cellItem, hentry]⟩

theorem filterMap_length_eq
    {α β : Type*} {f : α → Option β} {l : List α}
    (h : ∀ a ∈ l, (f a).isSome) :
    (l.filterMap f).length = l.length := by
  induction l with
  | nil => rfl
  | cons a l ih =>
      obtain ⟨b, hb⟩ := Option.isSome_iff_exists.mp (h a (by simp))
      simp [hb, ih (fun a' ha' => h a' (by simp [ha']))]

theorem Invariant.length_items (h : Invariant c) :
    c.items.length = c.order.size := by
  refine filterMap_length_eq ?_
  intro cell hcell
  obtain ⟨entry, -, -, hitem⟩ := h.cellItem_isSome hcell
  simp [hitem]

omit [DecidableEq κ] [DecidableEq τ] in
/-- An item of the abstract state comes from a cell of the recency list. -/
theorem mem_items
    {item : Item κ τ ν} :
    item ∈ c.items ↔
      ∃ p a entry, (p, a) ∈ c.order.cells ∧ c.entries[a]? = some entry ∧
        entry.item = item := by
  unfold Cache.items
  rw [List.mem_filterMap]
  constructor
  · rintro ⟨⟨p, a⟩, hcell, hitem⟩
    obtain ⟨entry, hentry, heq⟩ := Option.map_eq_some_iff.mp hitem
    exact ⟨p, a, entry, hcell, hentry, heq⟩
  · rintro ⟨p, a, entry, hcell, hentry, heq⟩
    exact ⟨(p, a), hcell, by simp [cellItem, hentry, heq]⟩

/-- The trees and the abstract state store the same keys. -/
theorem Invariant.address_eq_some
    (h : Invariant c) {identity : κ} {tokens : List τ} {a : Nat}
    {entry : Entry κ τ ν} (hentry : c.entries[a]? = some entry) :
    address c.roots identity tokens = some a ↔
      entry.item.key = (identity, tokens) ∧ (entry.position, a) ∈ c.order.cells := by
  constructor
  · intro haddr
    obtain ⟨e, he, hid, htok, -, hcell⟩ := h.stored identity tokens a haddr
    rw [hentry, Option.some.injEq] at he
    subst he
    exact ⟨by simp [Item.key, Entry.item, hid, htok], hcell⟩
  · rintro ⟨hkey, hcell⟩
    obtain ⟨e, he, -, haddr⟩ := h.reached _ _ hcell
    rw [hentry, Option.some.injEq] at he
    subst he
    simp only [Item.key, Entry.item, Prod.mk.injEq] at hkey
    rw [← hkey.1, ← hkey.2]
    exact haddr

/-- The keys of the abstract state are distinct. -/
theorem Invariant.nodup_items (h : Invariant c) :
    (c.items.map Item.key).Nodup := by
  unfold List.Nodup Cache.items
  rw [List.pairwise_map, List.pairwise_filterMap]
  have hpositions := c.order.nodup
  unfold List.Nodup at hpositions
  rw [List.pairwise_map] at hpositions
  refine hpositions.imp_of_mem ?_
  rintro ⟨p, a⟩ ⟨p', a'⟩ hcell hcell' hne item hitem item' hitem' hkey
  obtain ⟨entry, hentry, rfl⟩ := Option.map_eq_some_iff.mp hitem
  obtain ⟨entry', hentry', rfl⟩ := Option.map_eq_some_iff.mp hitem'
  exact hne ((h.position_unique hcell hentry hcell' hentry').mpr hkey)

end Items

/-- What the specification finds is the longest stored prefix. -/
theorem longest_spec
    {l : List (Item κ τ ν)} {identity : κ} {tokens : List τ} {item : Item κ τ ν}
    (h : Spec.longest l identity tokens = some item) :
    item ∈ l ∧ item.identity = identity ∧ item.tokens <+: tokens ∧
      ∀ other ∈ l, other.identity = identity → other.tokens <+: tokens →
        other.tokens.length ≤ item.tokens.length := by
  have hmem := List.argmax_mem h
  simp only [List.mem_filter, decide_eq_true_eq] at hmem
  refine ⟨hmem.1, hmem.2.1, hmem.2.2, ?_⟩
  intro other hother hid hpre
  have hin : other ∈ l.filter
      (fun item => item.identity = identity ∧ item.tokens <+: tokens) := by
    simp [hother, hid, hpre]
  exact List.le_of_mem_argmax (f := fun item => item.tokens.length) hin h

/-- The state after an operation, compared with the one before. -/
structure Refines (c c' : Cache κ τ ν) (items : List (Item κ τ ν)) : Prop where
  invariant : Invariant c'
  items_eq : c'.items = items
  capacity_eq : c'.capacity = c.capacity

section Trees

variable {roots : AList (fun _ : κ => Node τ)} {identity : κ} {root : Node τ}

theorem address_insert (id : κ) (tokens : List τ) :
    address (roots.insert identity root) id tokens =
      if id = identity then root.lookup tokens else address roots id tokens := by
  by_cases hid : id = identity
  · subst hid
    simp [address]
  · simp [address, hid, AList.lookup_insert_ne]

theorem lookup_eq_none_of_isEmpty
    (hempty : root.children.isEmpty = true)
    (hnil : root.lookup [] = none) (tokens : List τ) :
    root.lookup tokens = none := by
  match root with
  | .mk edge .nil entry =>
      cases tokens with
      | nil => exact hnil
      | cons t rest => rfl
  | .mk edge (.cons key child more) entry =>
      simp [Children.isEmpty] at hempty

/-- One key leaves the trees; the tree of its identity may go with it. -/
theorem eraseRoot_spec
    {tokens : List τ}
    (hroot : roots.lookup identity = some root)
    (hwf : root.WellFormed)
    (hstored : root.lookup tokens ≠ none)
    (hnil : root.lookup [] = none) :
    (∀ id r, (eraseRoot roots identity root tokens).lookup id = some r →
      r.WellFormed ∨ roots.lookup id = some r) ∧
    ∀ id ts, address (eraseRoot roots identity root tokens) id ts =
      if id = identity ∧ ts = tokens then none else address roots id ts := by
  obtain ⟨hwf', hlookup⟩ := root.erase_spec tokens hwf hstored
  have hnil' : (root.erase tokens).lookup [] = none := by
    rw [hlookup]
    split
    · rfl
    · exact hnil
  have hold : ∀ ts, address roots identity ts = root.lookup ts := by
    simp [address, hroot]
  unfold eraseRoot
  by_cases hempty : (root.erase tokens).children.isEmpty = true
  · simp only [hempty, if_true]
    have hnone := lookup_eq_none_of_isEmpty hempty hnil'
    refine ⟨?_, ?_⟩
    · intro id r hr
      by_cases hid : id = identity
      · subst hid
        simp at hr
      · rw [AList.lookup_erase_ne hid] at hr
        exact Or.inr hr
    · intro id ts
      by_cases hid : id = identity
      · subst hid
        have hlook := hlookup ts
        rw [hnone] at hlook
        by_cases hts : ts = tokens
        · simp [address, hts]
        · rw [if_neg hts] at hlook
          simp [address, hts, hroot, ← hlook]
      · simp [address, hid, AList.lookup_erase_ne]
  · simp only [hempty, Bool.false_eq_true, if_false]
    refine ⟨?_, ?_⟩
    · intro id r hr
      by_cases hid : id = identity
      · subst hid
        rw [AList.lookup_insert, Option.some.injEq] at hr
        exact Or.inl (hr ▸ hwf')
      · rw [AList.lookup_insert_ne hid] at hr
        exact Or.inr hr
    · intro id ts
      rw [address_insert, hlookup]
      by_cases hid : id = identity
      · subst hid
        simp [hold]
      · simp [hid]

end Trees

section Operations

variable {c : Cache κ τ ν}

/-- `extract` removes the item of one position. -/
theorem Invariant.extract_spec
    (h : Invariant c) {p a : Nat} {entry : Entry κ τ ν}
    (hcell : (p, a) ∈ c.order.cells) (hentry : c.entries[a]? = some entry) :
    Refines c (c.extract p).1 (RecencyList.remove Item.key entry.item.key c.items) ∧
      (c.extract p).2 = entry.value ∧
      (c.extract p).1.order.cells = c.order.cells.filter (fun cell => cell.1 ≠ p) ∧
      (c.extract p).1.entries = c.entries := by
  obtain ⟨e, he, hpos, haddr⟩ := h.reached p a hcell
  rw [hentry, Option.some.injEq] at he
  subst he
  obtain ⟨root, hroot, hlookup⟩ := Option.bind_eq_some_iff.mp haddr
  have hextract : c.extract p =
      ({ c with
          roots := eraseRoot c.roots entry.identity root entry.tokens
          order := c.order.erase p }, entry.value) := by
    simp [Cache.extract, StableList.get?_eq_some.mpr hcell, hentry, hroot]
  have hnil : root.lookup [] = none := by
    by_contra hne
    obtain ⟨a', ha'⟩ := Option.ne_none_iff_exists'.mp hne
    obtain ⟨-, -, -, -, hnonempty, -⟩ := h.stored entry.identity [] a'
      (by simp [address, hroot, ha'])
    exact hnonempty rfl
  have hstored : root.lookup entry.tokens ≠ none := by simp [hlookup]
  obtain ⟨hwf, haddress⟩ :=
    eraseRoot_spec hroot (h.wellFormed _ _ hroot) hstored hnil
  rw [hextract]
  refine ⟨⟨⟨?_, ?_, ?_⟩, h.items_remove hcell hentry, rfl⟩, rfl, rfl, rfl⟩
  · intro id r hr
    rcases hwf id r hr with hnew | hold
    · exact hnew
    · exact h.wellFormed id r hold
  · intro id ts a' ha'
    rw [haddress] at ha'
    split at ha'
    · simp at ha'
    · rename_i hother
      obtain ⟨e', he', hid, htok, hne, hcell'⟩ := h.stored id ts a' ha'
      refine ⟨e', he', hid, htok, hne, ?_⟩
      rw [StableList.cells_erase, List.mem_filter]
      refine ⟨hcell', ?_⟩
      have hiff := h.position_unique hcell' he' hcell hentry
      simp only [decide_eq_true_eq]
      intro heq
      have hkey := hiff.mp heq
      simp only [Item.key, Entry.item, Prod.mk.injEq] at hkey
      exact hother ⟨hid ▸ hkey.1, htok ▸ hkey.2⟩
  · intro p' a' hcell'
    rw [StableList.cells_erase, List.mem_filter] at hcell'
    obtain ⟨hin, hne⟩ := hcell'
    obtain ⟨e', he', hpos', haddr'⟩ := h.reached p' a' hin
    refine ⟨e', he', hpos', ?_⟩
    rw [haddress, if_neg ?_]
    · exact haddr'
    · rintro ⟨hid, htok⟩
      have hiff := h.position_unique hin he' hcell hentry
      have heq := hiff.mpr (by simp [Item.key, Entry.item, hid, htok])
      simp [heq] at hne

theorem Invariant.extractLru_spec (h : Invariant c) :
    Refines c c.extractLru.1 (Spec.extractLru c.items).1 ∧
      c.extractLru.2 = (Spec.extractLru c.items).2 := by
  rcases List.eq_nil_or_concat c.order.cells with hcells | ⟨front, last, hcells⟩
  · have hitems : c.items = [] := by simp [Cache.items, hcells]
    have hextract : c.extractLru = (c, none) := by
      simp [Cache.extractLru, hcells]
    rw [hextract, hitems]
    exact ⟨⟨h, hitems, rfl⟩, rfl⟩
  · obtain ⟨p, a⟩ := last
    rw [List.concat_eq_append] at hcells
    have hcell : (p, a) ∈ c.order.cells := by simp [hcells]
    obtain ⟨entry, hentry, -, hitem⟩ := h.cellItem_isSome hcell
    have hextract : c.extractLru = c.extract p := by
      simp [Cache.extractLru, hcells]
    obtain ⟨⟨hinv, hitems, hcap⟩, hvalue, -, -⟩ := h.extract_spec hcell hentry
    have hsplit : c.items =
        front.filterMap (cellItem c.entries) ++ [entry.item] := by
      simp [Cache.items, hcells, hitem]
    have hkeys := h.nodup_items
    rw [hsplit, List.map_append, List.nodup_append] at hkeys
    have hremove : RecencyList.remove Item.key entry.item.key c.items =
        front.filterMap (cellItem c.entries) := by
      rw [hsplit]
      simp only [RecencyList.remove, List.filter_append]
      rw [List.filter_eq_self.mpr]
      · simp
      · intro item hmem
        have hne := hkeys.2.2 _ (List.mem_map_of_mem hmem) entry.item.key (by simp)
        simpa using hne
    rw [hextract]
    refine ⟨⟨hinv, ?_, hcap⟩, ?_⟩
    · rw [hitems, hremove, hsplit]
      simp [Spec.extractLru]
    · rw [hvalue, hsplit]
      simp [Spec.extractLru, Entry.item]

/-- The loop at the end of `put` cuts the recency list to the capacity. -/
theorem evict_spec
    (h : Invariant c) {fuel : Nat} (hfuel : c.order.size ≤ fuel) :
    Refines c (Cache.evict fuel c) (c.items.take c.capacity) := by
  induction fuel generalizing c with
  | zero =>
      have hlen := h.length_items
      have heq : c.items.take c.capacity = c.items :=
        List.take_of_length_le (by omega)
      exact ⟨h, heq.symm, rfl⟩
  | succ fuel ih =>
      have hlen := h.length_items
      by_cases hover : c.capacity < c.order.size
      · obtain ⟨⟨hinv, hitems, hcap⟩, -⟩ := h.extractLru_spec
        have hne : c.items ≠ [] := by
          intro hnil
          rw [hnil, List.length_nil] at hlen
          omega
        have hdrop : c.extractLru.1.items = c.items.dropLast := by
          rw [hitems]
          simp [Spec.extractLru, List.getLast?_eq_some_getLast hne]
        have hsize : c.extractLru.1.order.size ≤ fuel := by
          rw [← hinv.length_items, hdrop, List.length_dropLast]
          omega
        obtain ⟨hinv', hitems', hcap'⟩ := ih hinv hsize
        have hevict : Cache.evict (fuel + 1) c = Cache.evict fuel c.extractLru.1 := by
          simp [Cache.evict, hover]
        rw [hevict]
        refine ⟨hinv', ?_, hcap'.trans hcap⟩
        rw [hitems', hcap, hdrop, List.dropLast_eq_take, List.take_take]
        congr 1
        omega
      · have hevict : Cache.evict (fuel + 1) c = c := by
          simp [Cache.evict, hover]
        have heq : c.items.take c.capacity = c.items :=
          List.take_of_length_le (by omega)
        rw [hevict]
        exact ⟨h, heq.symm, rfl⟩

/-- What the trees find under a query is the longest stored prefix. -/
theorem Invariant.longest_spec
    (h : Invariant c) (identity : κ) (tokens : List τ) :
    let found :=
      (c.roots.lookup identity).bind (fun root => root.longest tokens none)
    (found = none ∧ Spec.longest c.items identity tokens = none) ∨
      ∃ a entry, found = some a ∧ c.entries[a]? = some entry ∧
        (entry.position, a) ∈ c.order.cells ∧
        Spec.longest c.items identity tokens = some entry.item := by
  intro found
  have hlongest : IsLongest (address c.roots identity) tokens none found := by
    cases hroot : c.roots.lookup identity with
    | none =>
        right
        simp [found, address, hroot]
    | some root =>
        simp only [found, hroot, Option.bind_some]
        refine (root.longest_spec tokens none (h.wellFormed _ _ hroot)).congr ?_
        intro p _ _
        simp [address, hroot]
  have hmem : ∀ item, item ∈ c.items.filter
      (fun item => item.identity = identity ∧ item.tokens <+: tokens) →
      ∃ a entry, c.entries[a]? = some entry ∧ entry.item = item ∧
        item.tokens ≠ [] ∧ item.tokens <+: tokens ∧
        address c.roots identity item.tokens = some a := by
    intro item hitem
    obtain ⟨hin, hpred⟩ := List.mem_filter.mp hitem
    obtain ⟨p, a, entry, hcell, hentry, rfl⟩ := mem_items.mp hin
    obtain ⟨e, he, -, haddr⟩ := h.reached p a hcell
    rw [hentry, Option.some.injEq] at he
    subst he
    simp only [decide_eq_true_eq] at hpred
    obtain ⟨-, -, -, -, hne, -⟩ := h.stored _ _ _ haddr
    refine ⟨a, entry, hentry, rfl, hne, hpred.2, ?_⟩
    rw [← hpred.1]
    exact haddr
  rcases hlongest with ⟨p, a, hp, hpre, haddr, hresult, hmax⟩ | ⟨hresult, hnone⟩
  · right
    obtain ⟨entry, hentry, hid, htok, -, hcell⟩ := h.stored _ _ _ haddr
    refine ⟨a, entry, hresult, hentry, hcell, ?_⟩
    have hitem : entry.item ∈ c.items.filter
        (fun item => item.identity = identity ∧ item.tokens <+: tokens) := by
      rw [List.mem_filter]
      refine ⟨mem_items.mpr ⟨_, _, entry, hcell, hentry, rfl⟩, ?_⟩
      simp [Entry.item, hid, htok, hpre]
    unfold Spec.longest
    classical
    rw [List.argmax_eq_some_iff]
    refine ⟨hitem, ?_, ?_⟩
    · intro item hother
      obtain ⟨a', entry', -, -, -, hpre', haddr'⟩ := hmem item hother
      by_contra hlt
      have hlonger : p.length < item.tokens.length := by
        simp only [Entry.item, htok] at hlt
        omega
      have hzero := hmax item.tokens hpre' hlonger
      rw [hzero] at haddr'
      simp at haddr'
    · intro item hother hle
      obtain ⟨a', entry', hentry', rfl, -, hpre', haddr'⟩ := hmem item hother
      have hlen : p.length = entry'.item.tokens.length := by
        by_contra hne
        simp only [Entry.item, htok] at hle hne
        have hzero := hmax entry'.tokens hpre' (by omega)
        simp only [Entry.item] at haddr'
        rw [hzero] at haddr'
        simp at haddr'
      have heq : p = entry'.item.tokens :=
        List.IsPrefix.eq_of_length (List.prefix_of_prefix_length_le hpre hpre'
          (by omega)) hlen
      rw [← heq, haddr, Option.some.injEq] at haddr'
      subst haddr'
      rw [hentry, Option.some.injEq] at hentry'
      rw [hentry']
  · left
    refine ⟨hresult, ?_⟩
    unfold Spec.longest
    rw [List.argmax_eq_none, List.eq_nil_iff_forall_not_mem]
    intro item hitem
    obtain ⟨a, entry, -, -, hne, hpre, haddr⟩ := hmem item hitem
    rw [hnone item.tokens hne hpre] at haddr
    simp at haddr

/-- Moving an entry to the front of the recency list. -/
theorem Invariant.touch_spec
    (h : Invariant c) {a : Nat} {entry : Entry κ τ ν}
    (hcell : (entry.position, a) ∈ c.order.cells)
    (hentry : c.entries[a]? = some entry) :
    Refines c { c with order := c.order.moveToFront entry.position }
      (RecencyList.touch Item.key entry.item.key c.items) := by
  have hcells := StableList.cells_moveToFront hcell
  have hperm : (c.order.moveToFront entry.position).cells.Perm c.order.cells := by
    have hp := List.filter_append_perm
      (fun cell => decide (cell.1 = entry.position)) c.order.cells
    simpa [StableList.moveToFront] using hp
  refine ⟨⟨h.wellFormed, ?_, ?_⟩, ?_, rfl⟩
  · intro id ts a' ha'
    obtain ⟨e, he, hid, htok, hne, hin⟩ := h.stored id ts a' ha'
    exact ⟨e, he, hid, htok, hne, hperm.mem_iff.mpr hin⟩
  · intro p a' hin
    exact h.reached p a' (hperm.mem_iff.mp hin)
  · have hmem : entry.item ∈ c.items :=
      mem_items.mpr ⟨_, _, entry, hcell, hentry, rfl⟩
    rw [RecencyList.touch_of_mem h.nodup_items hmem,
      ← h.items_remove hcell hentry]
    unfold Cache.items
    rw [hcells, List.filterMap_cons]
    simp [cellItem, hentry]

theorem Invariant.find_spec
    (h : Invariant c) (identity : κ) (tokens : List τ) :
    Refines c (c.find identity tokens).1 (Spec.find c.items identity tokens).1 ∧
      (c.find identity tokens).2 = (Spec.find c.items identity tokens).2 := by
  rcases h.longest_spec identity tokens with
    ⟨hnone, hspec⟩ | ⟨a, entry, hsome, hentry, hcell, hspec⟩
  · simp only [Cache.find, Spec.find, hnone, hspec]
    exact ⟨⟨h, rfl, rfl⟩, trivial⟩
  · simp only [Cache.find, Spec.find, hsome, hentry, hspec]
    exact ⟨h.touch_spec hcell hentry, rfl⟩

theorem Invariant.extractExact_spec
    (h : Invariant c) (identity : κ) (tokens : List τ) :
    Refines c (c.extractExact identity tokens).1
        (Spec.extractExact c.items identity tokens).1 ∧
      (c.extractExact identity tokens).2 =
        (Spec.extractExact c.items identity tokens).2 := by
  unfold Cache.extractExact Spec.extractExact
  cases haddr : (c.roots.lookup identity).bind (fun root => root.lookup tokens) with
  | none =>
      have hfind : c.items.find? (fun item => item.key = (identity, tokens)) =
          none := by
        rw [List.find?_eq_none]
        intro item hitem hkey
        obtain ⟨p, a, entry, hcell, hentry, rfl⟩ := mem_items.mp hitem
        obtain ⟨e, he, hpos, -⟩ := h.reached p a hcell
        rw [hentry, Option.some.injEq] at he
        subst he
        simp only [decide_eq_true_eq] at hkey
        have hsome := (h.address_eq_some hentry).mpr ⟨hkey, hpos ▸ hcell⟩
        rw [address, haddr] at hsome
        simp at hsome
      simp only [hfind]
      exact ⟨⟨h, rfl, rfl⟩, trivial⟩
  | some a =>
      obtain ⟨entry, hentry, hid, htok, -, hcell⟩ := h.stored identity tokens a haddr
      have hkey : entry.item.key = (identity, tokens) := by
        simp [Item.key, Entry.item, hid, htok]
      have hmem : entry.item ∈ c.items :=
        mem_items.mpr ⟨_, _, entry, hcell, hentry, rfl⟩
      have hfind : c.items.find? (fun item => item.key = (identity, tokens)) =
          some entry.item := by
        have hfilter := RecencyList.filter_key_eq h.nodup_items hmem
        rw [hkey] at hfilter
        rw [← List.head?_filter, hfilter]
        rfl
      obtain ⟨hrefines, hvalue, -, -⟩ := h.extract_spec hcell hentry
      simp only [hentry, hfind]
      rw [hkey] at hrefines
      exact ⟨hrefines, hvalue⟩

/-- The trees after `insert` in the one of an identity. -/
theorem Invariant.insertRoot_spec
    (h : Invariant c) (identity : κ) (tokens : List τ) (fresh : Nat) :
    let root := (c.roots.lookup identity).getD Node.empty
    let roots := c.roots.insert identity (root.insert tokens fresh)
    root.lookup tokens = address c.roots identity tokens ∧
    (∀ id r, roots.lookup id = some r → r.WellFormed) ∧
    ∀ id ts, address roots id ts =
      if id = identity ∧ ts = tokens then
        (address c.roots identity tokens).or (some fresh)
      else address c.roots id ts := by
  intro root roots
  have hroot : root.WellFormed ∧
      ∀ ts, root.lookup ts = address c.roots identity ts := by
    cases hold : c.roots.lookup identity with
    | none =>
        refine ⟨by simp [root, hold, Node.empty, Children.WellFormed], ?_⟩
        intro ts
        cases ts <;> simp [root, hold, Node.empty, address]
    | some old =>
        refine ⟨by simpa [root, hold] using h.wellFormed _ _ hold, ?_⟩
        intro ts
        simp [root, hold, address]
  obtain ⟨hwf, hlookup⟩ := root.insert_spec tokens fresh hroot.1
  refine ⟨hroot.2 tokens, ?_, ?_⟩
  · intro id r hr
    by_cases hid : id = identity
    · subst hid
      rw [AList.lookup_insert, Option.some.injEq] at hr
      exact hr ▸ hwf
    · rw [AList.lookup_insert_ne hid] at hr
      exact h.wellFormed id r hr
  · intro id ts
    rw [address_insert, hlookup, hroot.2, hroot.2]
    by_cases hid : id = identity
    · subst hid
      simp
    · simp [hid]

/-- `put` under a key that is stored. -/
theorem Invariant.replace_spec
    (h : Invariant c) {identity : κ} {tokens : List τ} {a : Nat}
    {entry : Entry κ τ ν} (value : Option ν)
    (haddr : address c.roots identity tokens = some a)
    (hentry : c.entries[a]? = some entry)
    {roots : AList (fun _ : κ => Node τ)}
    (hwf : ∀ id r, roots.lookup id = some r → r.WellFormed)
    (hroots : ∀ id ts, address roots id ts = address c.roots id ts) :
    Refines c
      { c with
        roots := roots
        entries := c.entries.set a { entry with value := value }
        order := c.order.moveToFront entry.position }
      (⟨identity, tokens, value⟩ ::
        RecencyList.remove Item.key (identity, tokens) c.items) := by
  obtain ⟨hkey, hcell⟩ := (h.address_eq_some hentry).mp haddr
  obtain ⟨⟨-, hstored, hreached⟩, hitems, -⟩ := h.touch_spec hcell hentry
  have hlt : a < c.entries.length := (List.getElem?_eq_some_iff.mp hentry).1
  have hget : ∀ (a' : Nat) (e : Entry κ τ ν), c.entries[a']? = some e →
      ∃ e', (c.entries.set a { entry with value := value })[a']? = some e' ∧
        e'.identity = e.identity ∧ e'.tokens = e.tokens ∧
        e'.position = e.position := by
    intro a' e he
    by_cases haa : a = a'
    · subst haa
      rw [hentry, Option.some.injEq] at he
      subst he
      exact ⟨{ entry with value := value }, by simp [hlt], rfl, rfl, rfl⟩
    · exact ⟨e, by rw [List.getElem?_set_ne haa]; exact he, rfl, rfl, rfl⟩
  refine ⟨⟨hwf, ?_, ?_⟩, ?_, rfl⟩
  · intro id ts a' ha'
    rw [hroots] at ha'
    obtain ⟨e, he, hid, htok, hne, hin⟩ := hstored id ts a' ha'
    obtain ⟨e', he', hid', htok', hpos'⟩ := hget a' e he
    exact ⟨e', he', hid'.trans hid, htok'.trans htok, hne, hpos' ▸ hin⟩
  · intro p a' hin
    obtain ⟨e, he, hpos, haddr'⟩ := hreached p a' hin
    obtain ⟨e', he', hid', htok', hpos'⟩ := hget a' e he
    refine ⟨e', he', hpos'.trans hpos, ?_⟩
    rw [hid', htok', hroots]
    exact haddr'
  · rw [← hkey, ← h.items_remove hcell hentry]
    unfold Cache.items
    have hhead : cellItem (c.entries.set a { entry with value := value })
        (entry.position, a) = some ⟨identity, tokens, value⟩ := by
      simp only [Item.key, Entry.item, Prod.mk.injEq] at hkey
      simp [cellItem, hlt, Entry.item, hkey]
    rw [StableList.cells_moveToFront hcell, List.filterMap_cons_some hhead]
    congr 1
    refine List.filterMap_congr ?_
    rintro ⟨p, a'⟩ hin
    obtain ⟨hin, hne⟩ := List.mem_filter.mp hin
    have haa : a ≠ a' := by
      rintro rfl
      obtain ⟨e, he, hpos, -⟩ := h.reached p a hin
      rw [hentry, Option.some.injEq] at he
      subst he
      simp [hpos] at hne
    simp [cellItem, List.getElem?_set_ne haa]

/-- `put` under a new key, before the eviction. -/
theorem Invariant.push_spec
    (h : Invariant c) (entry : Entry κ τ ν)
    (hne : entry.tokens ≠ [])
    (hpos : entry.position = c.order.nextPosition)
    (haddr : address c.roots entry.identity entry.tokens = none)
    {roots : AList (fun _ : κ => Node τ)}
    (hwf : ∀ id r, roots.lookup id = some r → r.WellFormed)
    (hroots : ∀ id ts, address roots id ts =
      if id = entry.identity ∧ ts = entry.tokens then some c.entries.length
      else address c.roots id ts) :
    Refines c
      { c with
        roots := roots
        order := c.order.pushFront c.entries.length
        entries := c.entries ++ [entry] }
      (entry.item :: RecencyList.remove Item.key entry.item.key c.items) := by
  have hold : ∀ (a' : Nat) (e : Entry κ τ ν), c.entries[a']? = some e →
      (c.entries ++ [entry])[a']? = some e := by
    intro a' e he
    rw [List.getElem?_append_left (List.getElem?_eq_some_iff.mp he).1]
    exact he
  have hnew : (c.entries ++ [entry])[c.entries.length]? = some entry := by simp
  refine ⟨⟨hwf, ?_, ?_⟩, ?_, rfl⟩
  · intro id ts a' ha'
    rw [hroots] at ha'
    split at ha'
    · rename_i heq
      obtain ⟨rfl, rfl⟩ := heq
      rw [Option.some.injEq] at ha'
      subst ha'
      exact ⟨entry, hnew, rfl, rfl, hne, by simp [hpos]⟩
    · obtain ⟨e, he, hid, htok, hne', hin⟩ := h.stored id ts a' ha'
      exact ⟨e, hold a' e he, hid, htok, hne', by simp [hin]⟩
  · intro p a' hin
    rw [StableList.cells_pushFront, List.mem_cons] at hin
    rcases hin with heq | hin
    · cases heq
      exact ⟨entry, hnew, hpos, by rw [hroots, if_pos ⟨rfl, rfl⟩]⟩
    · obtain ⟨e, he, hpos', haddr'⟩ := h.reached p a' hin
      refine ⟨e, hold a' e he, hpos', ?_⟩
      rw [hroots, if_neg ?_]
      · exact haddr'
      · rintro ⟨hid, htok⟩
        rw [hid, htok, haddr] at haddr'
        simp at haddr'
  · have habsent : RecencyList.remove Item.key entry.item.key c.items =
        c.items := by
      refine List.filter_eq_self.mpr ?_
      intro item hitem
      obtain ⟨p, a, e, hcell, he, rfl⟩ := mem_items.mp hitem
      obtain ⟨e', he', hpos', -⟩ := h.reached p a hcell
      rw [he, Option.some.injEq] at he'
      subst he'
      simp only [decide_eq_true_eq]
      intro hkey
      have hsome : address c.roots entry.identity entry.tokens = some a :=
        (h.address_eq_some he).mpr ⟨hkey, hpos' ▸ hcell⟩
      rw [haddr] at hsome
      simp at hsome
    rw [habsent]
    unfold Cache.items
    have hhead : cellItem (c.entries ++ [entry])
        (c.order.nextPosition, c.entries.length) = some entry.item := by
      simp [cellItem]
    rw [StableList.cells_pushFront, List.filterMap_cons_some hhead]
    congr 1
    refine List.filterMap_congr ?_
    rintro ⟨p, a'⟩ hin
    obtain ⟨e, he, -, -⟩ := h.reached p a' hin
    simp [cellItem, hold a' e he, he]

theorem Invariant.put_spec
    (h : Invariant c) (hbound : c.items.length ≤ c.capacity)
    (identity : κ) (tokens : List τ) (value : Option ν) :
    Refines c (c.put identity tokens value)
      (Spec.put c.capacity c.items identity tokens value) := by
  unfold Cache.put Spec.put
  by_cases hskip : c.capacity = 0 ∨ tokens = []
  · rw [if_pos hskip, if_pos hskip]
    exact ⟨h, rfl, rfl⟩
  · rw [if_neg hskip, if_neg hskip]
    obtain ⟨hlookup, hwf, hroots⟩ :=
      h.insertRoot_spec identity tokens c.entries.length
    simp only [hlookup]
    cases haddr : address c.roots identity tokens with
    | some a =>
        obtain ⟨entry, hentry, -, -, -, -⟩ := h.stored identity tokens a haddr
        obtain ⟨hkey, hcell⟩ := (h.address_eq_some hentry).mp haddr
        have hsame : ∀ id ts, address (c.roots.insert identity
            (((c.roots.lookup identity).getD Node.empty).insert tokens
              c.entries.length)) id ts = address c.roots id ts := by
          intro id ts
          rw [hroots]
          split
          · rename_i heq
            rw [heq.1, heq.2, haddr]
            rfl
          · rfl
        obtain ⟨hinv, hitems, hcap⟩ :=
          h.replace_spec value haddr hentry hwf hsame
        simp only [hentry]
        refine ⟨hinv, ?_, hcap⟩
        -- the key was present, so nothing is over the capacity
        have hmem : entry.item ∈ c.items :=
          mem_items.mpr ⟨_, _, entry, hcell, hentry, rfl⟩
        have hlength :
            (RecencyList.touch Item.key entry.item.key c.items).length =
              c.items.length :=
          (RecencyList.touch_perm _ _).length_eq
        rw [RecencyList.touch_of_mem h.nodup_items hmem, hkey] at hlength
        have hfits : RecencyList.insert Item.key c.capacity
            ⟨identity, tokens, value⟩ c.items =
            ⟨identity, tokens, value⟩ ::
              RecencyList.remove Item.key (identity, tokens) c.items := by
          refine List.take_of_length_le ?_
          simp only [List.length_cons, Item.key] at hlength ⊢
          omega
        rw [hitems, hfits]
    | none =>
        let entry : Entry κ τ ν :=
          { identity := identity, tokens := tokens, value := value,
            position := c.order.nextPosition }
        have hnew : ∀ id ts, address (c.roots.insert identity
            (((c.roots.lookup identity).getD Node.empty).insert tokens
              c.entries.length)) id ts =
            if id = identity ∧ ts = tokens then some c.entries.length
            else address c.roots id ts := by
          intro id ts
          rw [hroots, haddr]
          rfl
        obtain ⟨hinv, hitems, hcap⟩ := h.push_spec entry
          (fun hnil => hskip (Or.inr hnil)) rfl haddr hwf hnew
        obtain ⟨hinv', hitems', hcap'⟩ := evict_spec hinv le_rfl
        exact ⟨hinv', hitems'.trans (by rw [hitems]; rfl), hcap'.trans hcap⟩

/-- The loop of `erase_identity`, in the middle of the recency list. -/
theorem Invariant.eraseLoop_spec
    (h : Invariant c) (identity : κ) {kept cells : List (Nat × Nat)}
    (recycled : List (Option ν))
    (hcells : c.order.cells = kept ++ cells)
    (hkept : ∀ item ∈ kept.filterMap (cellItem c.entries),
      item.identity ≠ identity) :
    Refines c (Cache.eraseLoop identity cells c recycled).1
        (c.items.filter (fun item => item.identity ≠ identity)) ∧
      (Cache.eraseLoop identity cells c recycled).2 =
        recycled ++ (((cells.filterMap (cellItem c.entries)).filter
          (fun item => item.identity = identity)).map Item.value) := by
  induction cells generalizing c kept recycled with
  | nil =>
      have hitems : c.items = kept.filterMap (cellItem c.entries) := by
        simp [Cache.items, hcells]
      have hfilter : c.items.filter (fun item => item.identity ≠ identity) =
          c.items := by
        rw [List.filter_eq_self]
        intro item hitem
        rw [hitems] at hitem
        simpa using hkept item hitem
      rw [hfilter]
      exact ⟨⟨h, rfl, rfl⟩, by simp [Cache.eraseLoop]⟩
  | cons cell cells ih =>
      obtain ⟨p, a⟩ := cell
      have hcell : (p, a) ∈ c.order.cells := by simp [hcells]
      obtain ⟨entry, hentry, -, hitem⟩ := h.cellItem_isSome hcell
      simp only [Cache.eraseLoop, hentry]
      by_cases hid : entry.identity = identity
      · obtain ⟨⟨hinv, hitems, hcap⟩, hvalue, hcells', hentries⟩ :=
          h.extract_spec hcell hentry
        have hrest : (c.extract p).1.order.cells = kept ++ cells := by
          have hnodup := c.order.nodup
          rw [hcells, List.map_append, List.map_cons, List.nodup_append,
            List.nodup_cons] at hnodup
          rw [hcells', hcells, List.filter_append, List.filter_cons_of_neg
            (by simp), List.filter_eq_self.mpr, List.filter_eq_self.mpr]
          · intro cell' hin
            simp only [decide_eq_true_eq]
            rintro rfl
            exact hnodup.2.1.1 (List.mem_map.mpr ⟨cell', hin, rfl⟩)
          · intro cell' hin
            simp only [decide_eq_true_eq]
            exact fun heq =>
              hnodup.2.2 _ (List.mem_map.mpr ⟨cell', hin, rfl⟩) p (by simp) heq
        obtain ⟨⟨hinv', hitems', hcap''⟩, hout⟩ :=
          ih hinv (recycled ++ [(c.extract p).2]) hrest (by rwa [hentries])
        rw [if_pos hid]
        refine ⟨⟨hinv', ?_, hcap''.trans hcap⟩, ?_⟩
        · rw [hitems', hitems]
          unfold RecencyList.remove
          rw [List.filter_filter]
          refine List.filter_congr ?_
          intro item _
          by_cases hitem' : item.identity = identity
          · simp [hitem']
          · have hne : item.key ≠ entry.item.key := by
              intro hkey
              simp only [Item.key, Entry.item, Prod.mk.injEq] at hkey
              exact hitem' (hkey.1.trans hid)
            simp [hitem', hne]
        · rw [hout, hvalue, hentries, List.filterMap_cons, hitem]
          simp [Entry.item, hid]
      · rw [if_neg hid]
        have hsplit : c.order.cells = (kept ++ [(p, a)]) ++ cells := by
          simp [hcells]
        obtain ⟨hrefines, hout⟩ := ih h recycled hsplit (by
          intro item hmem
          rw [List.filterMap_append, List.mem_append] at hmem
          rcases hmem with hmem | hmem
          · exact hkept item hmem
          · have heq : item = entry.item := by simpa [hitem] using hmem
            rw [heq]
            exact hid)
        refine ⟨hrefines, ?_⟩
        rw [hout, List.filterMap_cons, hitem]
        simp [Entry.item, hid]

theorem Invariant.eraseIdentity_spec
    (h : Invariant c) (identity : κ) :
    Refines c (c.eraseIdentity identity).1
        (Spec.eraseIdentity c.items identity).1 ∧
      (c.eraseIdentity identity).2 = (Spec.eraseIdentity c.items identity).2 := by
  have hsplit : c.order.cells = [] ++ c.order.cells := rfl
  have hloop := h.eraseLoop_spec identity [] hsplit (by simp)
  simpa [Cache.eraseIdentity, Spec.eraseIdentity, Cache.items] using hloop

theorem clear_spec : Refines c c.clear [] := by
  refine ⟨⟨?_, ?_, ?_⟩, rfl, rfl⟩
  · intro id r hr
    simp [Cache.clear] at hr
  · intro id ts a ha
    simp [Cache.clear, address] at ha
  · intro p a hin
    simp [Cache.clear] at hin

theorem Invariant.sizeOfIdentity_spec
    (h : Invariant c) (identity : κ) :
    c.sizeOfIdentity identity =
      c.items.countP (fun item => item.identity = identity) := by
  unfold Cache.sizeOfIdentity Cache.items StableList.toList
  rw [List.countP_map, List.countP_filterMap]
  refine List.countP_congr ?_
  intro cell hcell
  obtain ⟨entry, hentry, -, hitem⟩ := h.cellItem_isSome hcell
  simp [hentry, hitem, Entry.item]

end Operations

section Runs

variable {capacity : Nat} {l : List (Item κ τ ν)}

/-- The specification never holds more than the capacity. -/
theorem length_step_le
    (h : l.length ≤ capacity)
    (op : Op κ τ ν) :
    (Spec.step capacity l op).1.length ≤ capacity := by
  cases op with
  | put identity tokens value =>
      simp only [Spec.step, Spec.put]
      split
      · exact h
      · exact RecencyList.length_insert_le _ _ _
  | find identity tokens =>
      simp only [Spec.step, Spec.find]
      split
      · exact h
      · rw [(RecencyList.touch_perm _ _).length_eq]
        exact h
  | extractExact identity tokens =>
      simp only [Spec.step, Spec.extractExact]
      split
      · exact h
      · exact (List.length_filter_le _ _).trans h
  | extractLru =>
      simp only [Spec.step, Spec.extractLru]
      split
      · exact h
      · rw [List.length_dropLast]
        omega
  | eraseIdentity identity => exact (List.length_filter_le _ _).trans h
  | clear => simp [Spec.step]
  | size => exact h
  | sizeOfIdentity identity => exact h

/-- One operation of the cache is one operation of the specification. -/
theorem Invariant.step_spec
    {c : Cache κ τ ν} (h : Invariant c) (hbound : c.items.length ≤ c.capacity)
    (op : Op κ τ ν) :
    Refines c (c.step op).1 (Spec.step c.capacity c.items op).1 ∧
      (c.step op).2 = (Spec.step c.capacity c.items op).2 := by
  cases op with
  | put identity tokens value =>
      exact ⟨h.put_spec hbound identity tokens value, rfl⟩
  | find identity tokens =>
      obtain ⟨hrefines, hout⟩ := h.find_spec identity tokens
      exact ⟨hrefines, by simp [Cache.step, Spec.step, hout]⟩
  | extractExact identity tokens =>
      obtain ⟨hrefines, hout⟩ := h.extractExact_spec identity tokens
      exact ⟨hrefines, by simp [Cache.step, Spec.step, hout]⟩
  | extractLru =>
      obtain ⟨hrefines, hout⟩ := h.extractLru_spec
      exact ⟨hrefines, by simp [Cache.step, Spec.step, hout]⟩
  | eraseIdentity identity =>
      obtain ⟨hrefines, hout⟩ := h.eraseIdentity_spec identity
      exact ⟨hrefines, by simp [Cache.step, Spec.step, hout]⟩
  | clear => exact ⟨clear_spec, rfl⟩
  | size =>
      refine ⟨⟨h, rfl, rfl⟩, ?_⟩
      simp [Cache.step, Spec.step, Cache.size, h.length_items]
  | sizeOfIdentity identity =>
      refine ⟨⟨h, rfl, rfl⟩, ?_⟩
      simp [Cache.step, Spec.step, h.sizeOfIdentity_spec]

/-- A run from a state in order. -/
theorem Invariant.run_spec
    {c : Cache κ τ ν} (h : Invariant c) (hbound : c.items.length ≤ c.capacity)
    (ops : List (Op κ τ ν)) :
    Refines c (c.run ops).1 (Spec.run c.capacity c.items ops).1 ∧
      (c.run ops).2 = (Spec.run c.capacity c.items ops).2 := by
  induction ops generalizing c with
  | nil => exact ⟨⟨h, rfl, rfl⟩, rfl⟩
  | cons op ops ih =>
      obtain ⟨⟨hinv, hitems, hcap⟩, hout⟩ := h.step_spec hbound op
      have hbound' : (c.step op).1.items.length ≤ (c.step op).1.capacity := by
        rw [hitems, hcap]
        exact length_step_le hbound op
      obtain ⟨⟨hinv', hitems', hcap'⟩, hout'⟩ := ih hinv hbound'
      rw [hitems, hcap] at hitems' hout'
      exact ⟨⟨hinv', hitems', hcap'.trans hcap⟩, by
        simp only [Cache.run, Spec.run, hout, hout']⟩

/--
Refinement: from the empty cache, every sequence of operations returns what the
map with a recency list returns, and ends with the same items in the same order.
-/
theorem run_eq_spec
    (capacity : Nat) (ops : List (Op κ τ ν)) :
    ((Cache.new capacity).run ops).2 = (Spec.run capacity [] ops).2 ∧
      ((Cache.new capacity).run ops).1.items = (Spec.run capacity [] ops).1 := by
  have hinit : Invariant (Cache.new capacity : Cache κ τ ν) :=
    invariant_new capacity
  have hrun := hinit.run_spec (by simp [Cache.items, Cache.new]) ops
  exact ⟨hrun.2, hrun.1.items_eq⟩

/-- A split, a merge and an eviction. -/
example :
    ((Cache.new 2 : Cache String Nat Nat).run
      [.put "a" [1, 2, 3] (some 3), .put "a" [1, 2] (some 2),
       .find "a" [1, 2, 3, 4], .put "b" [1] (some 1), .find "a" [1, 2],
       .find "a" [1, 2, 3]]).2 =
      [.nothing, .nothing, .found ⟨some 3, 3⟩, .nothing, .found ⟨none, 0⟩,
       .found ⟨some 3, 3⟩] := by
  decide

end Runs

end PrefixCache
end RwkvLightning

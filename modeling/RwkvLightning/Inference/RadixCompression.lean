import RwkvLightning.Inference.RadixTree
import Mathlib.Data.List.Nodup
import Mathlib.Tactic.Common

/-!
# The shape of the radix tree

`Node.descendants` lists the nodes below a node, each with the key it is stored under, and
`Node.held` the entries of a node and of all below it.

**Compression.**  A child is `Kept` when it holds an entry or has at least two children.
`insert` and `erase` keep every child so: a split makes a node with an entry or with two
children, and `tidy` drops or merges what an erasure leaves behind.

**Results.**
* `compressed_insert`, `compressed_erase`: both keep a compressed tree compressed.
* `length_descendants_lt`: a compressed tree has fewer than two nodes for each entry.
* `mem_stored`, `nodup_stored`: the entries of a tree, each once, with their sequences.
-/

namespace RwkvLightning
namespace PrefixCache

universe u

section Definitions

variable {τ : Type u}

mutual

/-- The nodes below a node, with the keys that they are stored under. -/
def Node.descendants : Node τ → List (τ × Node τ)
  | .mk _ children _ => children.descendants

def Children.descendants : Children τ → List (τ × Node τ)
  | .nil => []
  | .cons key child more => (key, child) :: (child.descendants ++ more.descendants)

end

/-- The entries of a node and of the nodes below it. -/
def Node.held (node : Node τ) : List Nat :=
  node.entry.toList ++ node.descendants.filterMap (fun stored => stored.2.entry)

/-- The number of children. -/
def Children.size (children : Children τ) : Nat :=
  children.keys.length

/-- A node that is worth its place below another one. -/
def Node.Kept (node : Node τ) : Prop :=
  node.entry ≠ none ∨ 2 ≤ node.children.size

mutual

/-- Every node below is kept. -/
def Node.Compressed : Node τ → Prop
  | .mk _ children _ => children.Compressed

def Children.Compressed : Children τ → Prop
  | .nil => True
  | .cons _ child more => child.Kept ∧ child.Compressed ∧ more.Compressed

end

mutual

/-- The entries of a tree with the sequences that lead to them. -/
def Node.stored : Node τ → List (List τ × Nat)
  | .mk _ children entry => (entry.map (fun address => ([], address))).toList ++ children.stored

def Children.stored : Children τ → List (List τ × Nat)
  | .nil => []
  | .cons _ child more =>
      child.stored.map (fun found => (child.edge ++ found.1, found.2)) ++ more.stored

end

@[simp] theorem descendants_mk (edge : List τ) (children : Children τ) (entry : Option Nat) :
    (Node.mk edge children entry).descendants = children.descendants := rfl

@[simp] theorem children_descendants_nil : (Children.nil : Children τ).descendants = [] := rfl

@[simp] theorem children_descendants_cons (key : τ) (child : Node τ) (more : Children τ) :
    (Children.cons key child more).descendants =
      (key, child) :: (child.descendants ++ more.descendants) := rfl

@[simp] theorem size_nil : (Children.nil : Children τ).size = 0 := rfl

@[simp] theorem size_cons (key : τ) (child : Node τ) (more : Children τ) :
    (Children.cons key child more).size = more.size + 1 := rfl

@[simp] theorem compressed_mk (edge : List τ) (children : Children τ) (entry : Option Nat) :
    (Node.mk edge children entry).Compressed ↔ children.Compressed := Iff.rfl

@[simp] theorem compressed_nil : (Children.nil : Children τ).Compressed := trivial

@[simp] theorem compressed_cons (key : τ) (child : Node τ) (more : Children τ) :
    (Children.cons key child more).Compressed ↔
      child.Kept ∧ child.Compressed ∧ more.Compressed := Iff.rfl

theorem kept_mk (edge : List τ) (children : Children τ) (entry : Option Nat) :
    (Node.mk edge children entry).Kept ↔ entry ≠ none ∨ 2 ≤ children.size := Iff.rfl

theorem compressed_children {node : Node τ} (h : node.Compressed) :
    node.children.Compressed := by
  cases node with
  | mk edge children entry => exact h

end Definitions

section Nodes

variable {τ : Type u}

mutual

/-- Every node below stands under the first token of its edge. -/
theorem Node.head_of_descendant (node : Node τ) (h : node.WellFormed) :
    ∀ stored ∈ node.descendants, stored.2.edge.head? = some stored.1 := by
  match node with
  | .mk edge children entry => exact Children.head_of_descendant children h

theorem Children.head_of_descendant (children : Children τ) (h : children.WellFormed) :
    ∀ stored ∈ children.descendants, stored.2.edge.head? = some stored.1 := by
  match children with
  | .nil =>
      intro stored hstored
      simp at hstored
  | .cons key child more =>
      obtain ⟨hhead, hchild, -, hmore⟩ := h
      intro stored hstored
      rw [children_descendants_cons, List.mem_cons, List.mem_append] at hstored
      rcases hstored with rfl | hbelow | hbelow
      · exact hhead
      · exact Node.head_of_descendant child hchild stored hbelow
      · exact Children.head_of_descendant more hmore stored hbelow

end

mutual

theorem Node.kept_of_descendant (node : Node τ) (h : node.Compressed) :
    ∀ stored ∈ node.descendants, stored.2.Kept := by
  match node with
  | .mk edge children entry => exact Children.kept_of_descendant children h

theorem Children.kept_of_descendant (children : Children τ) (h : children.Compressed) :
    ∀ stored ∈ children.descendants, stored.2.Kept := by
  match children with
  | .nil =>
      intro stored hstored
      simp at hstored
  | .cons key child more =>
      obtain ⟨hkept, hchild, hmore⟩ := h
      intro stored hstored
      rw [children_descendants_cons, List.mem_cons, List.mem_append] at hstored
      rcases hstored with rfl | hbelow | hbelow
      · exact hkept
      · exact Node.kept_of_descendant child hchild stored hbelow
      · exact Children.kept_of_descendant more hmore stored hbelow

end

/-- The entries below a map of children. -/
def Children.held (children : Children τ) : List Nat :=
  children.descendants.filterMap (fun stored => stored.2.entry)

theorem held_mk (edge : List τ) (children : Children τ) (entry : Option Nat) :
    (Node.mk edge children entry).held = entry.toList ++ children.held := rfl

theorem children_held_cons (key : τ) (child : Node τ) (more : Children τ) :
    (Children.cons key child more).held = child.held ++ more.held := by
  cases child with
  | mk edge children entry =>
      rw [held_mk, Children.held, children_descendants_cons]
      cases entry with
      | none => exact List.filterMap_append
      | some address => simp [Children.held]

mutual

/--
A kept node stands for at least one entry, and the nodes of its tree are fewer than two for
each entry: a node without an entry branches, and each branch ends with one.
-/
theorem Node.length_descendants_lt (node : Node τ) (hkept : node.Kept) (h : node.Compressed) :
    node.descendants.length + 2 ≤ 2 * node.held.length := by
  match node with
  | .mk edge children entry =>
      have hchildren := Children.length_descendants_le children h
      rw [descendants_mk, held_mk, List.length_append]
      cases entry with
      | some address =>
          rw [Option.toList_some, List.length_singleton]
          omega
      | none =>
          have hsize : 2 ≤ children.size := by
            rcases hkept with hentry | hsize
            · exact absurd rfl hentry
            · exact hsize
          rw [Option.toList_none, List.length_nil]
          omega

/-- The nodes below a map of children; each child is one entry ahead. -/
theorem Children.length_descendants_le (children : Children τ) (h : children.Compressed) :
    children.descendants.length + children.size ≤ 2 * children.held.length := by
  match children with
  | .nil => exact Nat.zero_le _
  | .cons key child more =>
      obtain ⟨hkept, hchild, hmore⟩ := h
      have hfirst := Node.length_descendants_lt child hkept hchild
      have hrest := Children.length_descendants_le more hmore
      rw [children_descendants_cons, children_held_cons, size_cons, List.length_cons,
        List.length_append, List.length_append]
      omega

end

mutual

theorem Node.map_stored (node : Node τ) : node.stored.map Prod.snd = node.held := by
  match node with
  | .mk edge children entry =>
      rw [Node.stored, held_mk, List.map_append, Children.map_stored children]
      cases entry <;> rfl

theorem Children.map_stored (children : Children τ) :
    children.stored.map Prod.snd = children.held := by
  match children with
  | .nil => rfl
  | .cons key child more =>
      rw [Children.stored, children_held_cons, List.map_append, Children.map_stored more,
        List.map_map, ← Node.map_stored child]
      rfl

end

theorem kept_leaf (tokens : List τ) (address : Nat) : (leaf tokens address).Kept :=
  Or.inl (by simp [leaf])

end Nodes

section Insert

variable {τ : Type u} [DecidableEq τ]

omit [DecidableEq τ] in
/-- The new node of a split holds the new entry or has two children. -/
theorem compressed_split {child : Node τ} (hkept : child.Kept) (h : child.Compressed)
    (length : Nat) (tokens : List τ) (address : Nat) :
    (child.split length tokens address).Kept ∧
      (child.split length tokens address).Compressed := by
  have hbelow := compressed_children h
  unfold Node.split
  cases child.edge.drop length with
  | nil => exact ⟨hkept, h⟩
  | cons first edge =>
      have htail : (Node.mk (first :: edge) child.children child.entry).Kept := hkept
      cases tokens.drop length with
      | nil => exact ⟨Or.inl (by simp), htail, hbelow, trivial⟩
      | cons t rest =>
          exact ⟨Or.inr (by simp), htail, hbelow, kept_leaf _ _, trivial, trivial⟩

mutual

/-- A node keeps its entry and its children. -/
theorem Node.kept_insert (node : Node τ) (tokens : List τ) (address : Nat) (h : node.Kept) :
    (node.insert tokens address).Kept := by
  match node, tokens with
  | .mk edge children entry, [] =>
      rw [Node.insert, kept_mk]
      left
      cases entry <;> simp
  | .mk edge children entry, t :: rest =>
      have hsize := Children.size_le_insert children t rest address
      rw [Node.insert, kept_mk]
      rcases h with hentry | htwo
      · exact Or.inl hentry
      · exact Or.inr (le_trans htwo hsize)

theorem Children.size_le_insert (children : Children τ) (t : τ) (rest : List τ)
    (address : Nat) : children.size ≤ (children.insert t rest address).size := by
  match children with
  | .nil => exact Nat.zero_le _
  | .cons key child more =>
      have hmore := Children.size_le_insert more t rest address
      rw [Children.insert]
      dsimp only
      split
      · split <;> simp
      · simpa using hmore

end

mutual

/-- `insert` keeps the tree compressed. -/
theorem Node.compressed_insert (node : Node τ) (tokens : List τ) (address : Nat)
    (h : node.Compressed) : (node.insert tokens address).Compressed := by
  match node, tokens with
  | .mk edge children entry, [] => exact h
  | .mk edge children entry, t :: rest =>
      exact Children.compressed_insert children t rest address h

theorem Children.compressed_insert (children : Children τ) (t : τ) (rest : List τ)
    (address : Nat) (h : children.Compressed) :
    (children.insert t rest address).Compressed := by
  match children with
  | .nil => exact ⟨kept_leaf _ _, trivial, trivial⟩
  | .cons key child more =>
      obtain ⟨hkept, hchild, hmore⟩ := h
      rw [Children.insert]
      dsimp only
      split
      · split
        · obtain ⟨hsplit, hbelow⟩ := compressed_split hkept hchild
            (common child.edge (t :: rest)) (t :: rest) address
          exact ⟨hsplit, hbelow, hmore⟩
        · exact ⟨child.kept_insert _ address hkept,
            Node.compressed_insert child _ address hchild, hmore⟩
      · exact ⟨hkept, hchild, Children.compressed_insert more t rest address hmore⟩

end

/-- Something is stored behind an insertion. -/
theorem isEmpty_insert (children : Children τ) (t : τ) (rest : List τ) (address : Nat) :
    (children.insert t rest address).isEmpty = false := by
  cases children with
  | nil => rfl
  | cons key child more =>
      rw [Children.insert]
      dsimp only
      split
      · split <;> rfl
      · rfl

end Insert

section Erase

variable {τ : Type u} [DecidableEq τ]

omit [DecidableEq τ] in
/-- What `tidy` leaves of a child is kept, whatever the child holds. -/
theorem compressed_tidy {key : τ} {child : Node τ} {more : Children τ}
    (hchild : child.Compressed) (hmore : more.Compressed) :
    (Children.tidy key child more).Compressed := by
  match child with
  | .mk edge .nil none => exact hmore
  | .mk edge (.cons key' next .nil) none =>
      obtain ⟨hkept, hnext, -⟩ := hchild
      exact ⟨hkept, compressed_children hnext, hmore⟩
  | .mk edge (.cons key' next (.cons key'' next' more')) none =>
      exact ⟨Or.inr (by simp), hchild, hmore⟩
  | .mk edge children (some address) =>
      have hkept : (Node.mk edge children (some address)).Kept := Or.inl (by simp)
      cases children with
      | nil => exact ⟨hkept, hchild, hmore⟩
      | cons key' next more' => cases more' <;> exact ⟨hkept, hchild, hmore⟩

mutual

/-- `erase` keeps the tree compressed. -/
theorem Node.compressed_erase (node : Node τ) (tokens : List τ) (h : node.Compressed) :
    (node.erase tokens).Compressed := by
  match node, tokens with
  | .mk edge children entry, [] => exact h
  | .mk edge children entry, t :: rest => exact Children.compressed_erase children t rest h

theorem Children.compressed_erase (children : Children τ) (t : τ) (rest : List τ)
    (h : children.Compressed) : (children.erase t rest).Compressed := by
  match children with
  | .nil => trivial
  | .cons key child more =>
      obtain ⟨hkept, hchild, hmore⟩ := h
      rw [Children.erase]
      split
      · exact compressed_tidy (Node.compressed_erase child _ hchild) hmore
      · exact ⟨hkept, hchild, Children.compressed_erase more t rest hmore⟩

end

end Erase

section Stored

variable {τ : Type u}

theorem mem_children_stored_cons {key : τ} {child : Node τ} {more : Children τ}
    {tokens : List τ} {address : Nat} :
    (tokens, address) ∈ (Children.cons key child more).stored ↔
      (∃ rest, (rest, address) ∈ child.stored ∧ tokens = child.edge ++ rest) ∨
        (tokens, address) ∈ more.stored := by
  rw [Children.stored, List.mem_append, List.mem_map]
  constructor
  · rintro (⟨⟨rest, found⟩, hmem, heq⟩ | hmem)
    · rw [Prod.mk.injEq] at heq
      obtain ⟨rfl, rfl⟩ := heq
      exact Or.inl ⟨rest, hmem, rfl⟩
    · exact Or.inr hmem
  · rintro (⟨rest, hmem, rfl⟩ | hmem)
    · exact Or.inl ⟨(rest, address), hmem, rfl⟩
    · exact Or.inr hmem

/-- What is stored in a map of children begins with one of its keys. -/
theorem head_of_stored (children : Children τ) (h : children.WellFormed)
    {tokens : List τ} {address : Nat} (hmem : (tokens, address) ∈ children.stored) :
    ∃ t rest, tokens = t :: rest ∧ t ∈ children.keys := by
  match children with
  | .nil => exact absurd hmem (by simp [Children.stored])
  | .cons key child more =>
      obtain ⟨hhead, -, -, hmore⟩ := h
      rcases mem_children_stored_cons.mp hmem with ⟨rest, -, rfl⟩ | hmem
      · obtain ⟨tail, hedge⟩ := List.head?_eq_some_iff.mp hhead
        exact ⟨key, tail ++ rest, by rw [hedge, List.cons_append], by simp [Children.keys]⟩
      · obtain ⟨t, rest, heq, hkey⟩ := head_of_stored more hmore hmem
        exact ⟨t, rest, heq, by simp [Children.keys, hkey]⟩

mutual

/-- No sequence leads to two entries. -/
theorem Node.nodup_stored (node : Node τ) (h : node.WellFormed) :
    (node.stored.map Prod.fst).Nodup := by
  match node with
  | .mk edge children entry =>
      have hchildren := Children.nodup_stored children h
      rw [Node.stored, List.map_append, List.nodup_append]
      refine ⟨by cases entry <;> simp, hchildren, ?_⟩
      intro own hown other hother heq
      obtain ⟨⟨tokens, address⟩, hmem, rfl⟩ := List.mem_map.mp hother
      obtain ⟨t, rest, htokens, -⟩ := head_of_stored children h hmem
      cases entry with
      | none => simp at hown
      | some address =>
          rw [Option.map_some, Option.toList_some, List.map_singleton,
            List.mem_singleton] at hown
          rw [heq] at hown
          exact absurd (htokens.symm.trans hown) (by simp)

theorem Children.nodup_stored (children : Children τ) (h : children.WellFormed) :
    (children.stored.map Prod.fst).Nodup := by
  match children with
  | .nil => exact List.nodup_nil
  | .cons key child more =>
      obtain ⟨hhead, hchild, hkey, hmore⟩ := h
      have hfirst := Node.nodup_stored child hchild
      have hrest := Children.nodup_stored more hmore
      rw [Children.stored, List.map_append, List.nodup_append]
      refine ⟨?_, hrest, ?_⟩
      · rw [List.map_map]
        have hmap : (Prod.fst ∘ fun found : List τ × Nat => (child.edge ++ found.1, found.2)) =
            (child.edge ++ ·) ∘ Prod.fst := rfl
        rw [hmap, ← List.map_map]
        exact hfirst.map (List.append_right_injective child.edge)
      · intro own hown other hother heq
        obtain ⟨found, hfound, rfl⟩ := List.mem_map.mp hown
        obtain ⟨⟨rest, address⟩, hmem, rfl⟩ := List.mem_map.mp hfound
        obtain ⟨⟨tokens, address'⟩, hmem', rfl⟩ := List.mem_map.mp hother
        obtain ⟨t, tail, htokens, hin⟩ := head_of_stored more hmore hmem'
        obtain ⟨tail', hedge⟩ := List.head?_eq_some_iff.mp hhead
        dsimp only at heq htokens
        rw [htokens, hedge, List.cons_append] at heq
        rw [(List.cons.inj heq).1] at hkey
        exact hkey hin

end

variable [DecidableEq τ]

mutual

/-- The entries with their sequences are what the descent finds. -/
theorem Node.mem_stored (node : Node τ) (h : node.WellFormed) {tokens : List τ}
    {address : Nat} (hmem : (tokens, address) ∈ node.stored) :
    node.lookup tokens = some address := by
  match node with
  | .mk edge children entry =>
      rw [Node.stored, List.mem_append] at hmem
      rcases hmem with hown | hbelow
      · cases entry with
        | none => simp at hown
        | some own =>
            simp only [Option.map_some, Option.toList_some, List.mem_singleton,
              Prod.mk.injEq] at hown
            rw [hown.1, hown.2, lookup_mk_nil]
      · obtain ⟨t, rest, rfl, -⟩ := head_of_stored children h hbelow
        exact Children.mem_stored children h hbelow

theorem Children.mem_stored (children : Children τ) (h : children.WellFormed) {t : τ}
    {rest : List τ} {address : Nat} (hmem : (t :: rest, address) ∈ children.stored) :
    children.lookup t rest = some address := by
  match children with
  | .nil => exact absurd hmem (by simp [Children.stored])
  | .cons key child more =>
      obtain ⟨hhead, hchild, hkey, hmore⟩ := h
      rw [children_lookup_cons]
      rcases mem_children_stored_cons.mp hmem with ⟨found, hfound, heq⟩ | hmem
      · obtain ⟨tail, hedge⟩ := List.head?_eq_some_iff.mp hhead
        have ht : key = t := by
          rw [hedge, List.cons_append] at heq
          exact (List.cons.inj heq).1.symm
        rw [if_pos ht, heq, under_edge_append]
        exact Node.mem_stored child hchild hfound
      · have hne : key ≠ t := by
          rintro rfl
          obtain ⟨t, _, heq, hin⟩ := head_of_stored more hmore hmem
          rw [(List.cons.inj heq).1] at hkey
          exact hkey hin
        rw [if_neg hne]
        exact Children.mem_stored more hmore hmem

end

mutual

/-- What the descent finds is among the entries. -/
theorem Node.stored_of_lookup (node : Node τ) {tokens : List τ} {address : Nat}
    (hlookup : node.lookup tokens = some address) : (tokens, address) ∈ node.stored := by
  match node, tokens with
  | .mk edge children entry, [] =>
      rw [lookup_mk_nil] at hlookup
      simp [Node.stored, hlookup]
  | .mk edge children entry, t :: rest =>
      rw [Node.stored]
      exact List.mem_append_right _ (Children.stored_of_lookup children hlookup)

theorem Children.stored_of_lookup (children : Children τ) {t : τ} {rest : List τ}
    {address : Nat} (hlookup : children.lookup t rest = some address) :
    (t :: rest, address) ∈ children.stored := by
  match children with
  | .nil => exact absurd hlookup (by simp)
  | .cons key child more =>
      rw [mem_children_stored_cons]
      rw [children_lookup_cons] at hlookup
      by_cases hkt : key = t
      · rw [if_pos hkt] at hlookup
        have hprefix : child.edge <+: t :: rest := by
          by_contra hno
          rw [under_eq_none hno] at hlookup
          exact absurd hlookup (by simp)
        obtain ⟨found, hfound⟩ := hprefix
        rw [← hfound, under_edge_append] at hlookup
        exact Or.inl ⟨found, Node.stored_of_lookup child hlookup, hfound.symm⟩
      · rw [if_neg hkt] at hlookup
        exact Or.inr (Children.stored_of_lookup more hlookup)

end

end Stored

end PrefixCache
end RwkvLightning

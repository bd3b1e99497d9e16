import Mathlib.Data.List.Infix

/-!
# The token radix tree

The compressed radix tree inside `PrefixCache`: `Node` with its edge, its
children by first token and the entry stored at it, and the functions `insert`
and `erase` and the descents of `find` and `extract_exact`.

An entry is referred to by its address.  Where the code carries the whole
sequence and an offset `off` into it, the functions here carry the tokens from
`off` on.  A `std::map` is its list of pairs with distinct keys.

**Results.**
* `lookup_insert`, `lookup_erase`: insertion and removal change the entry of
  one sequence and no other, through every split and merge.
* `longest_spec`: the descent of `find` ends with the entry of the longest
  stored prefix.
-/

namespace RwkvLightning
namespace PrefixCache

universe u

mutual

/-- `PrefixCache::Node`. -/
inductive Node (τ : Type u) where
  | mk (edge : List τ) (children : Children τ) (entry : Option Nat)

/-- The `children` map of a node. -/
inductive Children (τ : Type u) where
  | nil
  | cons (key : τ) (child : Node τ) (more : Children τ)

end

section Definitions

variable {τ : Type u}

def Node.edge : Node τ → List τ
  | .mk edge _ _ => edge

def Node.children : Node τ → Children τ
  | .mk _ children _ => children

def Node.entry : Node τ → Option Nat
  | .mk _ _ entry => entry

/-- A default-constructed node. -/
def Node.empty : Node τ := .mk [] .nil none

def Children.isEmpty : Children τ → Bool
  | .nil => true
  | .cons _ _ _ => false

def Children.keys : Children τ → List τ
  | .nil => []
  | .cons key _ more => key :: more.keys

@[simp] theorem Node.edge_mk (edge : List τ) (children : Children τ)
    (entry : Option Nat) : (Node.mk edge children entry).edge = edge := rfl

@[simp] theorem Node.children_mk (edge : List τ) (children : Children τ)
    (entry : Option Nat) :
    (Node.mk edge children entry).children = children := rfl

@[simp] theorem Node.entry_mk (edge : List τ) (children : Children τ)
    (entry : Option Nat) : (Node.mk edge children entry).entry = entry := rfl

mutual

/-- Every child is stored under the first token of its edge, only once. -/
def Node.WellFormed : Node τ → Prop
  | .mk _ children _ => children.WellFormed

def Children.WellFormed : Children τ → Prop
  | .nil => True
  | .cons key child more =>
      child.edge.head? = some key ∧ child.WellFormed ∧
        key ∉ more.keys ∧ more.WellFormed

end

@[simp] theorem node_wellFormed_mk (edge : List τ) (children : Children τ)
    (entry : Option Nat) :
    (Node.mk edge children entry).WellFormed ↔ children.WellFormed := Iff.rfl

@[simp] theorem children_wellFormed_cons (key : τ) (child : Node τ)
    (more : Children τ) :
    (Children.cons key child more).WellFormed ↔
      child.edge.head? = some key ∧ child.WellFormed ∧
        key ∉ more.keys ∧ more.WellFormed := Iff.rfl

theorem children_wellFormed_of_node {child : Node τ} (h : child.WellFormed) :
    child.children.WellFormed := by
  cases child with
  | mk edge children entry => exact h

variable [DecidableEq τ]

/-- The number of leading tokens that an edge and a sequence share. -/
def common : List τ → List τ → Nat
  | a :: as, b :: bs => if a = b then common as bs + 1 else 0
  | _, _ => 0

mutual

/--
The descent of `extract_exact` from a node: the entry stored under exactly
these tokens.
-/
def Node.lookup : Node τ → List τ → Option Nat
  | .mk _ _ entry, [] => entry
  | .mk _ children _, t :: rest => children.lookup t rest

def Children.lookup : Children τ → τ → List τ → Option Nat
  | .nil, _, _ => none
  | .cons key child more, t, rest =>
      if key = t then
        if child.edge.isPrefixOf (t :: rest) then
          child.lookup ((t :: rest).drop child.edge.length)
        else none
      else more.lookup t rest

end

mutual

/-- The descent of `find` from a node, with the best entry met so far. -/
def Node.longest : Node τ → List τ → Option Nat → Option Nat
  | .mk _ _ _, [], best => best
  | .mk _ children _, t :: rest, best => children.longest t rest best

def Children.longest : Children τ → τ → List τ → Option Nat → Option Nat
  | .nil, _, _, best => best
  | .cons key child more, t, rest, best =>
      if key = t then
        if child.edge.isPrefixOf (t :: rest) then
          child.longest ((t :: rest).drop child.edge.length)
            (child.entry.or best)
        else best
      else more.longest t rest best

end

/-- A new leaf; `put` stores the new entry at the node that `insert` returns. -/
def leaf (tokens : List τ) (address : Nat) : Node τ :=
  .mk tokens .nil (some address)

/--
The split of a child whose edge leaves the sequence after `length` tokens, and
the recursive call on the new node.  That call ends there: the new node has one
child, whose first token differs from the next one of the sequence.
-/
def Node.split (child : Node τ) (length : Nat) (tokens : List τ)
    (address : Nat) : Node τ :=
  match child.edge.drop length with
  | [] => child
  | first :: edge =>
      let tail : Node τ := .mk (first :: edge) child.children child.entry
      match tokens.drop length with
      | [] =>
          .mk (child.edge.take length) (.cons first tail .nil) (some address)
      | t :: rest =>
          .mk (child.edge.take length)
            (.cons first tail (.cons t (leaf (t :: rest) address) .nil)) none

mutual

/--
`insert`, with the assignment by `put` to the node it returns: an entry that is
stored there already stays.
-/
def Node.insert : Node τ → List τ → Nat → Node τ
  | .mk edge children entry, [], address =>
      .mk edge children (entry.or (some address))
  | .mk edge children entry, t :: rest, address =>
      .mk edge (children.insert t rest address) entry

def Children.insert : Children τ → τ → List τ → Nat → Children τ
  | .nil, t, rest, address => .cons t (leaf (t :: rest) address) .nil
  | .cons key child more, t, rest, address =>
      if key = t then
        let length := common child.edge (t :: rest)
        if length < child.edge.length then
          .cons key (child.split length (t :: rest) address) more
        else
          .cons key (child.insert ((t :: rest).drop length) address) more
      else .cons key child (more.insert t rest address)

end

/--
What `erase` does with a child after the recursive call: drop it when it holds
nothing, merge it with its only child when it has no entry.
-/
def Children.tidy (key : τ) (child : Node τ) (more : Children τ) : Children τ :=
  match child with
  | .mk _ .nil none => more
  | .mk edge (.cons _ next .nil) none =>
      .cons key (.mk (edge ++ next.edge) next.children next.entry) more
  | child => .cons key child more

mutual

/-- `erase`, for a sequence that is stored. -/
def Node.erase : Node τ → List τ → Node τ
  | .mk edge children _, [] => .mk edge children none
  | .mk edge children entry, t :: rest =>
      .mk edge (children.erase t rest) entry

def Children.erase : Children τ → τ → List τ → Children τ
  | .nil, _, _ => .nil
  | .cons key child more, t, rest =>
      if key = t then
        Children.tidy key (child.erase ((t :: rest).drop child.edge.length)) more
      else .cons key child (more.erase t rest)

end

end Definitions

section Descent

variable {τ : Type u} [DecidableEq τ]

/-- The entry reached through a child, its edge included. -/
def Node.under (child : Node τ) (tokens : List τ) : Option Nat :=
  if child.edge.isPrefixOf tokens then
    child.lookup (tokens.drop child.edge.length)
  else none

@[simp] theorem lookup_mk_nil (edge : List τ) (children : Children τ)
    (entry : Option Nat) : (Node.mk edge children entry).lookup [] = entry := rfl

@[simp] theorem lookup_mk_cons (edge : List τ) (children : Children τ)
    (entry : Option Nat) (t : τ) (rest : List τ) :
    (Node.mk edge children entry).lookup (t :: rest) =
      children.lookup t rest := rfl

@[simp] theorem children_lookup_nil (t : τ) (rest : List τ) :
    (Children.nil : Children τ).lookup t rest = none := rfl

@[simp] theorem children_lookup_cons (key : τ) (child : Node τ)
    (more : Children τ) (t : τ) (rest : List τ) :
    (Children.cons key child more).lookup t rest =
      if key = t then child.under (t :: rest) else more.lookup t rest := rfl

theorem under_edge_append
    (child : Node τ) (tokens : List τ) :
    child.under (child.edge ++ tokens) = child.lookup tokens := by
  simp [Node.under]

theorem under_eq_none
    {child : Node τ} {tokens : List τ}
    (h : ¬ child.edge <+: tokens) :
    child.under tokens = none := by
  simp [Node.under, h]

/-- Entering a long edge is entering its two parts one after the other. -/
theorem under_append
    (p e : List τ) (children : Children τ) (entry : Option Nat)
    (tokens : List τ) :
    (Node.mk (p ++ e) children entry).under (p ++ tokens) =
      (Node.mk e children entry).under tokens := by
  by_cases h : e <+: tokens
  · obtain ⟨rest, rfl⟩ := h
    have hleft := under_edge_append (Node.mk (p ++ e) children entry) rest
    have hright := under_edge_append (Node.mk e children entry) rest
    simp only [Node.edge_mk, List.append_assoc] at hleft hright
    rw [hleft, hright]
    cases rest with
    | nil => rfl
    | cons t rest => rfl
  · rw [under_eq_none (by simpa using h), under_eq_none (by simpa using h)]

theorem under_leaf
    (tokens query : List τ) (address : Nat) :
    (leaf tokens address).under query =
      if query = tokens then some address else none := by
  by_cases h : tokens <+: query
  · obtain ⟨rest, rfl⟩ := h
    have hbelow := under_edge_append (leaf tokens address) rest
    simp only [leaf, Node.edge_mk] at hbelow ⊢
    rw [hbelow]
    cases rest with
    | nil => simp
    | cons t rest => simp
  · have hne : query ≠ tokens := by
      rintro rfl
      exact h List.prefix_rfl
    rw [under_eq_none (by simpa [leaf] using h), if_neg hne]

/-- A child is entered only under the first token of its edge. -/
theorem under_eq_none_of_head
    {child : Node τ} {key t : τ} {rest : List τ}
    (hkey : child.edge.head? = some key)
    (hne : key ≠ t) :
    child.under (t :: rest) = none := by
  apply under_eq_none
  intro hprefix
  obtain ⟨tail, hedge⟩ := List.head?_eq_some_iff.mp hkey
  rw [hedge, List.cons_prefix_cons] at hprefix
  exact hne hprefix.1

theorem under_nil_of_head
    {child : Node τ} {key : τ}
    (hkey : child.edge.head? = some key) :
    child.under [] = none := by
  apply under_eq_none
  intro hprefix
  rw [List.prefix_nil.mp hprefix] at hkey
  simp at hkey

theorem children_lookup_eq_none
    {children : Children τ} {t : τ} (hkey : t ∉ children.keys)
    (rest : List τ) :
    children.lookup t rest = none := by
  match children with
  | .nil => rfl
  | .cons key child more =>
      have hne : key ≠ t := by
        rintro rfl
        simp [Children.keys] at hkey
      have hmore : t ∉ more.keys := by
        intro hmem
        simp [Children.keys, hmem] at hkey
      rw [children_lookup_cons, if_neg hne]
      exact children_lookup_eq_none hmore rest

/-- How far an edge and a sequence run together. -/
theorem common_spec (edge tokens : List τ) :
    ∃ p e r, edge = p ++ e ∧ tokens = p ++ r ∧ common edge tokens = p.length ∧
      ∀ x e' y r', e = x :: e' → r = y :: r' → x ≠ y := by
  induction edge generalizing tokens with
  | nil => exact ⟨[], [], tokens, rfl, rfl, rfl, by simp⟩
  | cons a edge ih =>
      cases tokens with
      | nil => exact ⟨[], a :: edge, [], rfl, rfl, rfl, by simp⟩
      | cons b tokens =>
          by_cases hab : a = b
          · subst hab
            obtain ⟨p, e, r, hedge, htokens, hlen, hdiff⟩ := ih tokens
            refine ⟨a :: p, e, r, ?_, ?_, ?_, hdiff⟩
            · simp [hedge]
            · simp [htokens]
            · simp [common, hlen]
          · refine ⟨[], a :: edge, b :: tokens, rfl, rfl, ?_, ?_⟩
            · simp [common, hab]
            · intro x e' y r' he hr
              cases he
              cases hr
              exact hab

end Descent

section Insert

variable {τ : Type u} [DecidableEq τ]

/-- What `insert` does to the child it enters. -/
structure InsertsBelow (key : τ) (child child' : Node τ) (tokens : List τ)
    (address : Nat) : Prop where
  head : child'.edge.head? = some key
  wellFormed : child'.WellFormed
  under : ∀ query,
    child'.under query =
      if query = tokens then (child.under tokens).or (some address)
      else child.under query

/-- The sequence ends inside the edge of the child. -/
theorem insertsBelow_split_end
    {key : τ} {child : Node τ} {p e : List τ} {x : τ} {tokens : List τ}
    (address : Nat)
    (hhead : p.head? = some key)
    (hchild : child.WellFormed)
    (hedge : child.edge = p ++ x :: e)
    (htokens : tokens = p) :
    InsertsBelow key child
      (.mk p (.cons x (.mk (x :: e) child.children child.entry) .nil)
        (some address)) tokens address := by
  subst htokens
  obtain ⟨edge, children, entry⟩ := child
  simp only [Node.edge_mk] at hedge
  subst hedge
  refine
    { head := hhead
      wellFormed := ?_
      under := ?_ }
  · simpa [Children.keys, Children.WellFormed] using hchild
  · intro query
    by_cases hq : tokens <+: query
    · obtain ⟨q, rfl⟩ := hq
      have hnew := under_edge_append
        (Node.mk tokens (.cons x (.mk (x :: e) children entry) .nil)
          (some address)) q
      have hold := under_append tokens (x :: e) children entry q
      have hnil := under_append tokens (x :: e) children entry []
      simp only [Node.edge_mk, Node.children_mk, Node.entry_mk,
        List.append_nil] at hnew hold hnil ⊢
      rw [hnew, hold, hnil]
      cases q with
      | nil => simp [Node.under]
      | cons y q =>
          by_cases hxy : x = y
          · simp [hxy]
          · simp [hxy, Node.under]
    · have hne : query ≠ tokens := by
        rintro rfl
        exact hq List.prefix_rfl
      have hq' : ¬ tokens ++ x :: e <+: query := by
        intro h
        exact hq ((List.prefix_append _ _).trans h)
      rw [if_neg hne, under_eq_none (by simpa using hq),
        under_eq_none (by simpa using hq')]

/-- The sequence leaves the edge of the child. -/
theorem insertsBelow_split_leave
    {key : τ} {child : Node τ} {p e r : List τ} {x y : τ} {tokens : List τ}
    (address : Nat)
    (hhead : p.head? = some key)
    (hchild : child.WellFormed)
    (hedge : child.edge = p ++ x :: e)
    (htokens : tokens = p ++ y :: r)
    (hxy : x ≠ y) :
    InsertsBelow key child
      (.mk p (.cons x (.mk (x :: e) child.children child.entry)
        (.cons y (leaf (y :: r) address) .nil)) none) tokens address := by
  subst htokens
  obtain ⟨edge, children, entry⟩ := child
  simp only [Node.edge_mk] at hedge
  subst hedge
  refine
    { head := hhead
      wellFormed := ?_
      under := ?_ }
  · simp only [node_wellFormed_mk, Node.edge_mk, List.head?_cons,
      Children.keys, Children.WellFormed, leaf]
    exact ⟨trivial, hchild, by simp [hxy], trivial, trivial, by simp, trivial⟩
  · intro query
    by_cases hq : p <+: query
    · obtain ⟨q, rfl⟩ := hq
      have hnew := under_edge_append
        (Node.mk p (.cons x (.mk (x :: e) children entry)
          (.cons y (leaf (y :: r) address) .nil)) none) q
      have hold := under_append p (x :: e) children entry q
      have hhere := under_append p (x :: e) children entry (y :: r)
      have hnone : (Node.mk (x :: e) children entry).under (y :: r) = none :=
        under_eq_none_of_head rfl hxy
      simp only [Node.edge_mk, Node.children_mk, Node.entry_mk] at hnew hold hhere ⊢
      rw [hnew, hold, hhere, hnone]
      cases q with
      | nil => simp [Node.under]
      | cons z q =>
          simp only [lookup_mk_cons, children_lookup_cons, children_lookup_nil,
            List.append_cancel_left_eq, Option.none_or]
          by_cases hxz : x = z
          · have hzy : z ≠ y := by
              rintro rfl
              exact hxy hxz
            simp [hxz, hzy]
          · have hother : (Node.mk (x :: e) children entry).under (z :: q) =
                none := under_eq_none_of_head rfl hxz
            rw [if_neg hxz, hother]
            by_cases hyz : y = z
            · rw [if_pos hyz, under_leaf]
            · have hzq : z :: q ≠ y :: r := by
                intro h
                exact hyz (by simpa using (List.cons.inj h).1.symm)
              rw [if_neg hyz, if_neg hzq]
    · have hne : query ≠ p ++ y :: r := by
        rintro rfl
        exact hq (List.prefix_append _ _)
      have hq' : ¬ p ++ x :: e <+: query := by
        intro h
        exact hq ((List.prefix_append _ _).trans h)
      rw [if_neg hne, under_eq_none (by simpa using hq),
        under_eq_none (by simpa using hq')]

/-- The keys after an insertion. -/
theorem mem_keys_insert
    {children : Children τ} {t k : τ} {rest : List τ} {address : Nat}
    (h : k ∈ (children.insert t rest address).keys) :
    k = t ∨ k ∈ children.keys := by
  match children with
  | .nil =>
      left
      simpa [Children.insert, Children.keys] using h
  | .cons key child more =>
      unfold Children.insert at h
      split at h
      · right
        dsimp only at h
        split at h <;> simpa [Children.keys] using h
      · rcases List.mem_cons.mp h with rfl | hmem
        · right
          simp [Children.keys]
        · rcases mem_keys_insert hmem with rfl | hold
          · exact Or.inl rfl
          · right
            simp [Children.keys, hold]

@[simp] theorem edge_insert (child : Node τ) (tokens : List τ) (address : Nat) :
    (child.insert tokens address).edge = child.edge := by
  cases child with
  | mk edge children entry => cases tokens <;> rfl

mutual

/-- Insertion stores the entry under its sequence and changes no other. -/
theorem Node.insert_spec
    (node : Node τ) (tokens : List τ) (address : Nat)
    (h : node.WellFormed) :
    (node.insert tokens address).WellFormed ∧
      ∀ query, (node.insert tokens address).lookup query =
        if query = tokens then (node.lookup tokens).or (some address)
        else node.lookup query := by
  match node, tokens with
  | .mk edge children entry, [] =>
      refine ⟨h, ?_⟩
      intro query
      cases query <;> simp [Node.insert]
  | .mk edge children entry, t :: rest =>
      obtain ⟨hwf, hlookup⟩ := Children.insert_spec children t rest address h
      refine ⟨hwf, ?_⟩
      intro query
      cases query with
      | nil => simp [Node.insert]
      | cons u us => exact hlookup u us

theorem Children.insert_spec
    (children : Children τ) (t : τ) (rest : List τ) (address : Nat)
    (h : children.WellFormed) :
    (children.insert t rest address).WellFormed ∧
      ∀ u us, (children.insert t rest address).lookup u us =
        if u :: us = t :: rest then (children.lookup t rest).or (some address)
        else children.lookup u us := by
  match children with
  | .nil =>
      refine ⟨?_, ?_⟩
      · simp [Children.insert, leaf, Children.keys, Children.WellFormed]
      · intro u us
        simp only [Children.insert, children_lookup_cons, children_lookup_nil,
          under_leaf, Option.none_or]
        by_cases hut : t = u
        · simp [hut]
        · have hne : u ≠ t := fun heq => hut heq.symm
          simp [hut, hne]
  | .cons key child more =>
      obtain ⟨hhead, hchild, hkey, hmore⟩ := h
      by_cases hkt : key = t
      · subst hkt
        obtain ⟨child', heq, hbelow⟩ :
            ∃ child', (Children.cons key child more).insert key rest address =
                .cons key child' more ∧
              InsertsBelow key child child' (key :: rest) address := by
          obtain ⟨p, e, r, hedge, htokens, hlen, hdiff⟩ :=
            common_spec child.edge (key :: rest)
          have hp : p.head? = some key := by
            cases p with
            | nil =>
                obtain ⟨e', he'⟩ := List.head?_eq_some_iff.mp hhead
                have hne := hdiff key e' key rest
                  (by rw [← he', hedge, List.nil_append])
                  (by rw [htokens, List.nil_append])
                exact absurd rfl hne
            | cons a p =>
                simp only [List.cons_append, List.cons.injEq] at htokens
                simp [htokens.1]
          simp only [Children.insert, if_true, hlen]
          cases e with
          | nil =>
              rw [List.append_nil] at hedge
              obtain ⟨hwf, hlookup⟩ := Node.insert_spec child r address hchild
              refine ⟨child.insert r address, ?_, ?_⟩
              · rw [if_neg (by simp [hedge]), htokens, List.drop_left]
              · refine
                  { head := by simpa using hhead
                    wellFormed := hwf
                    under := ?_ }
                intro query
                rw [htokens, ← hedge]
                by_cases hq : child.edge <+: query
                · obtain ⟨q, rfl⟩ := hq
                  have hnew := under_edge_append (child.insert r address) q
                  rw [edge_insert] at hnew
                  rw [hnew, hlookup, under_edge_append, under_edge_append]
                  simp
                · have hne : query ≠ child.edge ++ r := by
                    rintro rfl
                    exact hq (List.prefix_append _ _)
                  rw [if_neg hne, under_eq_none hq,
                    under_eq_none (by simpa using hq)]
          | cons x e =>
              rw [if_pos (by simp [hedge])]
              cases r with
              | nil =>
                  rw [List.append_nil] at htokens
                  refine ⟨_, ?_, insertsBelow_split_end address hp hchild hedge
                    htokens⟩
                  simp [Node.split, hedge, htokens]
              | cons y r =>
                  refine ⟨_, ?_, insertsBelow_split_leave address hp hchild
                    hedge htokens (hdiff x e y r rfl rfl)⟩
                  simp [Node.split, hedge, htokens]
        rw [heq]
        refine ⟨⟨hbelow.head, hbelow.wellFormed, hkey, hmore⟩, ?_⟩
        intro u us
        simp only [children_lookup_cons, if_true]
        by_cases hku : key = u
        · subst hku
          rw [if_pos rfl, if_pos rfl, hbelow.under]
        · have hne : u :: us ≠ key :: rest := by
            intro heq
            exact hku (List.cons.inj heq).1.symm
          rw [if_neg hku, if_neg hku, if_neg hne]
      · obtain ⟨hwf, hlookup⟩ := Children.insert_spec more t rest address hmore
        have heq : (Children.cons key child more).insert t rest address =
            .cons key child (more.insert t rest address) := by
          simp [Children.insert, hkt]
        rw [heq]
        refine ⟨⟨hhead, hchild, ?_, hwf⟩, ?_⟩
        · intro hmem
          rcases mem_keys_insert hmem with rfl | hold
          · exact hkt rfl
          · exact hkey hold
        · intro u us
          simp only [children_lookup_cons, if_neg hkt, hlookup]
          by_cases hku : key = u
          · have hne : u :: us ≠ t :: rest := by
              intro heq
              exact hkt (hku.trans (List.cons.inj heq).1)
            rw [if_pos hku, if_neg hne, if_pos hku]
          · rw [if_neg hku, if_neg hku]

end

end Insert

section Erase

variable {τ : Type u} [DecidableEq τ]

/-- Tidying up a child changes no entry. -/
theorem tidy_spec
    {key : τ} {child : Node τ} {more : Children τ}
    (hhead : child.edge.head? = some key)
    (hchild : child.WellFormed)
    (hkey : key ∉ more.keys)
    (hmore : more.WellFormed) :
    (Children.tidy key child more).WellFormed ∧
      (∀ k ∈ (Children.tidy key child more).keys, k = key ∨ k ∈ more.keys) ∧
      ∀ t rest, (Children.tidy key child more).lookup t rest =
        if key = t then child.under (t :: rest) else more.lookup t rest := by
  have hkeep :
      (Children.cons key child more).WellFormed ∧
      (∀ k ∈ (Children.cons key child more).keys, k = key ∨ k ∈ more.keys) ∧
      ∀ t rest, (Children.cons key child more).lookup t rest =
        if key = t then child.under (t :: rest) else more.lookup t rest := by
    refine ⟨⟨hhead, hchild, hkey, hmore⟩, ?_, fun t rest => rfl⟩
    intro k hk
    simpa [Children.keys] using hk
  match child with
  | .mk edge .nil none =>
      refine ⟨hmore, fun k hk => Or.inr hk, ?_⟩
      intro t rest
      by_cases hkt : key = t
      · subst hkt
        have hunder : ∀ q : List τ, (Node.mk edge .nil none).lookup q = none := by
          intro q
          cases q <;> rfl
        simp [Children.tidy, Node.under, hunder,
          children_lookup_eq_none hkey]
      · simp [Children.tidy, hkt]
  | .mk edge (.cons key' next .nil) none =>
      obtain ⟨hnext, hwf, -, -⟩ := hchild
      refine ⟨⟨?_, ?_, hkey, hmore⟩, ?_, ?_⟩
      · obtain ⟨e, he⟩ := List.head?_eq_some_iff.mp hhead
        simp only [Node.edge_mk] at he
        simp [he]
      · exact children_wellFormed_of_node hwf
      · intro k hk
        simpa [Children.tidy, Children.keys] using hk
      · intro t rest
        simp only [Children.tidy, children_lookup_cons]
        by_cases hkt : key = t
        · rw [if_pos hkt, if_pos hkt]
          by_cases hq : edge <+: t :: rest
          · obtain ⟨q, hq⟩ := hq
            rw [← hq, under_append]
            have hold := under_edge_append
              (Node.mk edge (.cons key' next .nil) none) q
            simp only [Node.edge_mk] at hold
            rw [hold]
            obtain ⟨edge', children', entry'⟩ := next
            cases q with
            | nil => exact under_nil_of_head hnext
            | cons u us =>
                simp only [lookup_mk_cons, children_lookup_cons,
                  children_lookup_nil, Node.edge_mk, Node.children_mk,
                  Node.entry_mk]
                by_cases hu : key' = u
                · rw [if_pos hu]
                · rw [if_neg hu]
                  exact under_eq_none_of_head hnext hu
          · have hlong : ¬ edge ++ next.edge <+: t :: rest := by
              intro h
              exact hq ((List.prefix_append _ _).trans h)
            rw [under_eq_none (by simpa using hlong),
              under_eq_none (by simpa using hq)]
        · rw [if_neg hkt, if_neg hkt]
  | .mk edge (.cons key' next (.cons key'' next' more')) none => exact hkeep
  | .mk edge children (some address) =>
      cases children with
      | nil => exact hkeep
      | cons key' next more' =>
          cases more' <;> exact hkeep

@[simp] theorem edge_erase (child : Node τ) (tokens : List τ) :
    (child.erase tokens).edge = child.edge := by
  cases child with
  | mk edge children entry => cases tokens <;> rfl

mutual

/-- Erasing a stored sequence removes its entry and changes no other. -/
theorem Node.erase_spec
    (node : Node τ) (tokens : List τ)
    (h : node.WellFormed)
    (hstored : node.lookup tokens ≠ none) :
    (node.erase tokens).WellFormed ∧
      ∀ query, (node.erase tokens).lookup query =
        if query = tokens then none else node.lookup query := by
  match node, tokens with
  | .mk edge children entry, [] =>
      refine ⟨h, ?_⟩
      intro query
      cases query <;> simp [Node.erase]
  | .mk edge children entry, t :: rest =>
      obtain ⟨hwf, -, hlookup⟩ := Children.erase_spec children t rest h hstored
      refine ⟨hwf, ?_⟩
      intro query
      cases query with
      | nil => simp [Node.erase]
      | cons u us => exact hlookup u us

theorem Children.erase_spec
    (children : Children τ) (t : τ) (rest : List τ)
    (h : children.WellFormed)
    (hstored : children.lookup t rest ≠ none) :
    (children.erase t rest).WellFormed ∧
      (∀ k ∈ (children.erase t rest).keys, k ∈ children.keys) ∧
      ∀ u us, (children.erase t rest).lookup u us =
        if u :: us = t :: rest then none else children.lookup u us := by
  match children with
  | .nil => exact absurd rfl hstored
  | .cons key child more =>
      obtain ⟨hhead, hchild, hkey, hmore⟩ := h
      by_cases hkt : key = t
      · subst hkt
        rw [children_lookup_cons, if_pos rfl] at hstored
        have hprefix : child.edge <+: key :: rest := by
          by_contra hno
          exact hstored (under_eq_none hno)
        obtain ⟨r, hr⟩ := hprefix
        rw [← hr, under_edge_append] at hstored
        obtain ⟨hwf, hlookup⟩ := Node.erase_spec child r hchild hstored
        have hhead' : (child.erase r).edge.head? = some key := by simpa using hhead
        obtain ⟨htidy, hkeys, hunder⟩ := tidy_spec hhead' hwf hkey hmore
        have heq : (Children.cons key child more).erase key rest =
            Children.tidy key (child.erase r) more := by
          simp [Children.erase, ← hr]
        rw [heq]
        refine ⟨htidy, ?_, ?_⟩
        · intro k hk
          rcases hkeys k hk with rfl | hold
          · simp [Children.keys]
          · simp [Children.keys, hold]
        · intro u us
          rw [hunder, children_lookup_cons]
          by_cases hku : key = u
          · subst hku
            rw [if_pos rfl, if_pos rfl, ← hr]
            by_cases hq : child.edge <+: key :: us
            · obtain ⟨q, hq⟩ := hq
              have hnew := under_edge_append (child.erase r) q
              rw [edge_erase] at hnew
              rw [← hq, hnew, hlookup, under_edge_append]
              simp
            · have hne : key :: us ≠ child.edge ++ r := by
                intro heq
                exact hq (heq ▸ List.prefix_append _ _)
              rw [if_neg hne, under_eq_none hq, under_eq_none (by simpa using hq)]
          · have hne : u :: us ≠ key :: rest := by
              intro heq
              exact hku (List.cons.inj heq).1.symm
            rw [if_neg hku, if_neg hku, if_neg hne]
      · rw [children_lookup_cons, if_neg hkt] at hstored
        obtain ⟨hwf, hkeys, hlookup⟩ :=
          Children.erase_spec more t rest hmore hstored
        have heq : (Children.cons key child more).erase t rest =
            .cons key child (more.erase t rest) := by
          simp [Children.erase, hkt]
        rw [heq]
        refine ⟨⟨hhead, hchild, ?_, hwf⟩, ?_, ?_⟩
        · intro hmem
          exact hkey (hkeys key hmem)
        · intro k hk
          rcases List.mem_cons.mp hk with rfl | hmem
          · simp [Children.keys]
          · simp [Children.keys, hkeys k hmem]
        · intro u us
          simp only [children_lookup_cons, hlookup]
          by_cases hku : key = u
          · have hne : u :: us ≠ t :: rest := by
              intro heq
              exact hkt (hku.trans (List.cons.inj heq).1)
            rw [if_pos hku, if_neg hne, if_pos hku]
          · rw [if_neg hku, if_neg hku]

end

end Erase

section Longest

variable {τ : Type u} [DecidableEq τ]

/--
`result` is the entry of the longest stored prefix of the tokens, other than
the empty one, and `best` when there is none.
-/
def IsLongest (lookup : List τ → Option Nat) (tokens : List τ)
    (best result : Option Nat) : Prop :=
  (∃ p address, p ≠ [] ∧ p <+: tokens ∧ lookup p = some address ∧
      result = some address ∧
      ∀ p', p' <+: tokens → p.length < p'.length → lookup p' = none) ∨
    (result = best ∧ ∀ p, p ≠ [] → p <+: tokens → lookup p = none)

/-- The child's own entry and what is found behind it, seen from its parent. -/
theorem isLongest_under
    {child : Node τ} {tokens : List τ} {best result : Option Nat}
    (hedge : child.edge ≠ [])
    (h : IsLongest child.lookup tokens (child.entry.or best) result) :
    IsLongest child.under (child.edge ++ tokens) best result := by
  have hprefix : ∀ p : List τ, p <+: child.edge ++ tokens →
      child.under p ≠ none → ∃ q, p = child.edge ++ q ∧ q <+: tokens := by
    intro p hp hne
    have hin : child.edge <+: p := by
      by_contra hno
      exact hne (under_eq_none hno)
    obtain ⟨q, rfl⟩ := hin
    exact ⟨q, rfl, by simpa using hp⟩
  have hentry : child.lookup [] = child.entry := by
    cases child with
    | mk edge children entry => rfl
  rcases h with ⟨p, address, hp, hpre, hlookup, hresult, hmax⟩ | ⟨hresult, hnone⟩
  · left
    refine ⟨child.edge ++ p, address, by simp [hp], by simpa using hpre, ?_,
      hresult, ?_⟩
    · rw [under_edge_append, hlookup]
    · intro p' hp' hlen
      by_contra hne
      obtain ⟨q, rfl, hq⟩ := hprefix p' hp' hne
      rw [under_edge_append] at hne
      exact hne (hmax q hq (by simpa using hlen))
  · cases hown : child.entry with
    | some address =>
        left
        refine ⟨child.edge, address, hedge, List.prefix_append _ _, ?_, ?_, ?_⟩
        · have hunder := under_edge_append child []
          rw [List.append_nil] at hunder
          rw [hunder, hentry, hown]
        · simpa [hown] using hresult
        · intro p' hp' hlen
          by_contra hne
          obtain ⟨q, rfl, hq⟩ := hprefix p' hp' hne
          rw [under_edge_append] at hne
          refine hne (hnone q ?_ hq)
          rintro rfl
          simp at hlen
    | none =>
        right
        refine ⟨by simpa [hown] using hresult, ?_⟩
        intro p hp hpre
        by_contra hne
        obtain ⟨q, rfl, hq⟩ := hprefix p hpre hne
        rw [under_edge_append] at hne
        cases q with
        | nil => exact hne (hentry.trans hown)
        | cons t q => exact hne (hnone (t :: q) (by simp) hq)

omit [DecidableEq τ] in
/-- Lookups that agree on the prefixes have the same longest one. -/
theorem IsLongest.congr
    {lookup lookup' : List τ → Option Nat} {tokens : List τ}
    {best result : Option Nat}
    (h : IsLongest lookup tokens best result)
    (heq : ∀ p, p ≠ [] → p <+: tokens → lookup' p = lookup p) :
    IsLongest lookup' tokens best result := by
  rcases h with ⟨p, address, hp, hpre, hlookup, hresult, hmax⟩ | ⟨hresult, hnone⟩
  · left
    refine ⟨p, address, hp, hpre, (heq p hp hpre).trans hlookup, hresult, ?_⟩
    intro p' hp' hlen
    have hne : p' ≠ [] := by
      rintro rfl
      simp at hlen
    exact (heq p' hne hp').trans (hmax p' hp' hlen)
  · right
    refine ⟨hresult, ?_⟩
    intro p hp hpre
    exact (heq p hp hpre).trans (hnone p hp hpre)

omit [DecidableEq τ] in
/-- A non-empty prefix starts with the first token. -/
theorem exists_cons_of_prefixOf
    {p : List τ} {t : τ} {rest : List τ}
    (hp : p ≠ []) (hpre : p <+: t :: rest) :
    ∃ q, p = t :: q := by
  cases p with
  | nil => exact absurd rfl hp
  | cons u q =>
      rw [List.cons_prefix_cons] at hpre
      exact ⟨q, by rw [hpre.1]⟩

/-- The lookup of a child map as a function of the whole sequence. -/
def Children.under (children : Children τ) : List τ → Option Nat
  | [] => none
  | t :: rest => children.lookup t rest

mutual

/-- The descent of `find` ends with the entry of the longest stored prefix. -/
theorem Node.longest_spec
    (node : Node τ) (tokens : List τ) (best : Option Nat)
    (h : node.WellFormed) :
    IsLongest node.lookup tokens best (node.longest tokens best) := by
  match node, tokens with
  | .mk edge children entry, [] =>
      right
      refine ⟨rfl, ?_⟩
      intro p hp hpre
      exact absurd (List.prefix_nil.mp hpre) hp
  | .mk edge children entry, t :: rest =>
      refine (Children.longest_spec children t rest best h).congr ?_
      intro p hp hpre
      obtain ⟨q, rfl⟩ := exists_cons_of_prefixOf hp hpre
      rfl

theorem Children.longest_spec
    (children : Children τ) (t : τ) (rest : List τ) (best : Option Nat)
    (h : children.WellFormed) :
    IsLongest children.under (t :: rest) best
      (children.longest t rest best) := by
  match children with
  | .nil =>
      right
      refine ⟨rfl, ?_⟩
      intro p hp hpre
      obtain ⟨q, rfl⟩ := exists_cons_of_prefixOf hp hpre
      rfl
  | .cons key child more =>
      obtain ⟨hhead, hchild, -, hmore⟩ := h
      by_cases hkt : key = t
      · subst hkt
        have hedge : child.edge ≠ [] := by
          intro hnil
          simp [hnil] at hhead
        have hagree : ∀ p, p ≠ [] → p <+: key :: rest →
            (Children.cons key child more).under p = child.under p := by
          intro p hp hpre
          obtain ⟨q, rfl⟩ := exists_cons_of_prefixOf hp hpre
          simp [Children.under]
        by_cases hpre : child.edge <+: key :: rest
        · obtain ⟨r, hr⟩ := hpre
          have hrec := isLongest_under hedge
            (Node.longest_spec child r (child.entry.or best) hchild)
          rw [hr] at hrec
          have heq : (Children.cons key child more).longest key rest best =
              child.longest r (child.entry.or best) := by
            simp [Children.longest, ← hr]
          rw [heq]
          exact hrec.congr hagree
        · right
          refine ⟨by simp [Children.longest, hpre], ?_⟩
          intro p hp hp'
          rw [hagree p hp hp']
          exact under_eq_none (fun hin => hpre (hin.trans hp'))
      · have heq : (Children.cons key child more).longest t rest best =
            more.longest t rest best := by
          simp [Children.longest, hkt]
        rw [heq]
        refine (Children.longest_spec more t rest best hmore).congr ?_
        intro p hp hpre
        obtain ⟨q, rfl⟩ := exists_cons_of_prefixOf hp hpre
        simp [Children.under, hkt]

end

end Longest

end PrefixCache
end RwkvLightning

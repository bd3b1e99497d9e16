import RwkvLightning.Inference.RadixCompression
import RwkvLightning.Inference.PrefixCacheRefinement

/-!
# The shape of the prefix cache

The trees of a cache stay compressed, and the recency list stays in step with them.

`Cache.held` lists the entries of all trees, node by node, and `Cache.nodeCount` counts the
nodes.  `Shaped`: every root has a child, and every node below a root is worth its place.

**Results.**
* `shaped_step`: every operation keeps the trees so.
* `radix_of_run`: the `RadixInvariant` after every sequence of operations.
-/

namespace RwkvLightning
namespace PrefixCache

universe u v w

variable {κ : Type u} {τ : Type v} {ν : Type w}

/-- The entries of all trees. -/
def Cache.held (c : Cache κ τ ν) : List Nat :=
  c.roots.entries.flatMap (fun root => root.2.held)

/-- The number of nodes, the roots included. -/
def Cache.nodeCount (c : Cache κ τ ν) : Nat :=
  (c.roots.entries.map (fun root => root.2.descendants.length + 1)).sum

variable [DecidableEq κ]

/-- The trees, the entries and the recency list fit together. -/
structure RadixInvariant (c : Cache κ τ ν) : Prop where
  /-- An edge is not empty, and its first token is the key of its node. -/
  keyed : ∀ identity root, c.roots.lookup identity = some root → ∀ stored ∈ root.descendants,
    stored.2.edge ≠ [] ∧ stored.2.edge.head? = some stored.1
  /-- A node below a root holds an entry or has at least two children. -/
  kept : ∀ identity root, c.roots.lookup identity = some root → ∀ stored ∈ root.descendants,
    stored.2.entry ≠ none ∨ 2 ≤ stored.2.children.size
  /-- An identity has a root exactly when it has an entry. -/
  rooted : ∀ identity, c.roots.lookup identity ≠ none ↔
    ∃ a ∈ c.held, ∃ entry, c.entries[a]? = some entry ∧ entry.identity = identity
  linear : c.nodeCount ≤ 2 * c.held.length
  /-- The recency list contains each entry once. -/
  once : c.held.Nodup ∧ c.order.toList.Perm c.held
  /-- The saved position of an entry points at it. -/
  positioned : ∀ a ∈ c.held, ∃ entry, c.entries[a]? = some entry ∧
    c.order.get? entry.position = some a

/-- A root with a child, and a compressed tree below it. -/
structure Node.Shaped (root : Node τ) : Prop where
  compressed : root.Compressed
  nonempty : root.children.isEmpty = false

def ShapedRoots (roots : AList (fun _ : κ => Node τ)) : Prop :=
  ∀ identity root, roots.lookup identity = some root → root.Shaped

section Steps

variable {roots : AList (fun _ : κ => Node τ)} {c : Cache κ τ ν}

theorem shapedRoots_empty : ShapedRoots (∅ : AList (fun _ : κ => Node τ)) := by
  intro identity root hroot
  simp at hroot

theorem shapedRoots_insert (h : ShapedRoots roots) {identity : κ} {root : Node τ}
    (hroot : root.Shaped) : ShapedRoots (roots.insert identity root) := by
  intro id r hr
  by_cases hid : id = identity
  · subst hid
    rw [AList.lookup_insert, Option.some.injEq] at hr
    exact hr ▸ hroot
  · rw [AList.lookup_insert_ne hid] at hr
    exact h id r hr

theorem shapedRoots_erase (h : ShapedRoots roots) (identity : κ) :
    ShapedRoots (roots.erase identity) := by
  intro id r hr
  by_cases hid : id = identity
  · subst hid
    simp at hr
  · rw [AList.lookup_erase_ne hid] at hr
    exact h id r hr

variable [DecidableEq τ]

/-- A root that has lost its last child goes. -/
theorem shapedRoots_eraseRoot (h : ShapedRoots roots) {identity : κ} {root : Node τ}
    (hroot : roots.lookup identity = some root) (tokens : List τ) :
    ShapedRoots (eraseRoot roots identity root tokens) := by
  unfold eraseRoot
  dsimp only
  split
  · exact shapedRoots_erase h identity
  · rename_i hnonempty
    refine shapedRoots_insert h ⟨?_, ?_⟩
    · exact root.compressed_erase tokens (h identity root hroot).compressed
    · simpa using hnonempty

theorem shaped_insert {root : Node τ} (h : root.Compressed) {tokens : List τ}
    (htokens : tokens ≠ []) (address : Nat) : (root.insert tokens address).Shaped := by
  cases root with
  | mk edge children entry =>
      cases tokens with
      | nil => exact absurd rfl htokens
      | cons t rest =>
          exact ⟨Children.compressed_insert children t rest address h,
            isEmpty_insert children t rest address⟩

theorem shaped_extract (h : ShapedRoots c.roots) (position : Nat) :
    ShapedRoots (c.extract position).1.roots := by
  unfold Cache.extract
  cases (c.order.get? position).bind (c.entries[·]?) with
  | none => exact h
  | some entry =>
      cases hroot : c.roots.lookup entry.identity with
      | none => simpa only [hroot] using h
      | some root => simpa only [hroot] using shapedRoots_eraseRoot h hroot entry.tokens

theorem shaped_extractLru (h : ShapedRoots c.roots) : ShapedRoots c.extractLru.1.roots := by
  unfold Cache.extractLru
  cases c.order.cells.getLast? with
  | none => exact h
  | some cell => exact shaped_extract h cell.1

theorem shaped_extractExact (h : ShapedRoots c.roots) (identity : κ) (tokens : List τ) :
    ShapedRoots (c.extractExact identity tokens).1.roots := by
  unfold Cache.extractExact
  cases (c.roots.lookup identity).bind (fun root => root.lookup tokens) with
  | none => exact h
  | some address =>
      dsimp only
      cases c.entries[address]? with
      | none => exact h
      | some entry => exact shaped_extract h entry.position

theorem shaped_eraseLoop (h : ShapedRoots c.roots) (identity : κ)
    (cells : List (Nat × Nat)) (recycled : List (Option ν)) :
    ShapedRoots (Cache.eraseLoop identity cells c recycled).1.roots := by
  induction cells generalizing c recycled with
  | nil => exact h
  | cons cell cells ih =>
      unfold Cache.eraseLoop
      cases c.entries[cell.2]? with
      | none => exact ih h recycled
      | some entry =>
          dsimp only
          split
          · exact ih (shaped_extract h cell.1) _
          · exact ih h recycled

theorem roots_find (identity : κ) (tokens : List τ) :
    (c.find identity tokens).1.roots = c.roots := by
  unfold Cache.find
  cases (c.roots.lookup identity).bind (fun root => root.longest tokens none) with
  | none => rfl
  | some address =>
      dsimp only
      cases c.entries[address]? with
      | none => rfl
      | some entry => rfl

theorem shaped_evict (h : ShapedRoots c.roots) (fuel : Nat) :
    ShapedRoots (Cache.evict fuel c).roots := by
  induction fuel generalizing c with
  | zero => exact h
  | succ fuel ih =>
      unfold Cache.evict
      split
      · exact ih (shaped_extractLru h)
      · exact h

theorem shaped_put (h : ShapedRoots c.roots) (identity : κ) (tokens : List τ)
    (value : Option ν) : ShapedRoots (c.put identity tokens value).roots := by
  unfold Cache.put
  split
  · exact h
  · rename_i hused
    have htokens : tokens ≠ [] := fun hnil => hused (Or.inr hnil)
    have hroot : ((c.roots.lookup identity).getD Node.empty).Compressed := by
      cases hlookup : c.roots.lookup identity with
      | none => exact (compressed_nil : (Children.nil : Children τ).Compressed)
      | some root => exact (h identity root hlookup).compressed
    have hinsert : ShapedRoots (c.roots.insert identity _) :=
      shapedRoots_insert h (shaped_insert hroot htokens c.entries.length)
    dsimp only
    split
    · split
      · exact h
      · exact hinsert
    · exact shaped_evict hinsert _

/-- One operation. -/
theorem shaped_step (h : ShapedRoots c.roots) (op : Op κ τ ν) :
    ShapedRoots (c.step op).1.roots := by
  cases op with
  | put identity tokens value => exact shaped_put h identity tokens value
  | find identity tokens =>
      rw [Cache.step, roots_find]
      exact h
  | extractExact identity tokens => exact shaped_extractExact h identity tokens
  | extractLru => exact shaped_extractLru h
  | eraseIdentity identity => exact shaped_eraseLoop h identity c.order.cells []
  | clear => exact shapedRoots_empty
  | size => exact h
  | sizeOfIdentity identity => exact h

/-- A sequence of operations. -/
theorem shaped_run (h : ShapedRoots c.roots) (ops : List (Op κ τ ν)) :
    ShapedRoots (c.run ops).1.roots := by
  induction ops generalizing c with
  | nil => exact h
  | cons op ops ih => exact ih (shaped_step h op)

end Steps

section Shape

variable {c : Cache κ τ ν}

theorem Node.Shaped.size_pos {root : Node τ} (h : root.Shaped) : 0 < root.children.size := by
  have hnonempty := h.nonempty
  cases hchildren : root.children with
  | nil => simp [hchildren, Children.isEmpty] at hnonempty
  | cons key child more => simp

/-- A tree with its root has at most two nodes for each entry. -/
theorem Node.Shaped.length_descendants_lt {root : Node τ} (h : root.Shaped) :
    root.descendants.length + 1 ≤ 2 * root.held.length := by
  have hpos := h.size_pos
  cases root with
  | mk edge children entry =>
      have hbelow := Children.length_descendants_le children h.compressed
      rw [children_mk] at hpos
      rw [descendants_mk, held_mk, List.length_append]
      omega

theorem mem_held {a : Nat} :
    a ∈ c.held ↔ ∃ identity root, c.roots.lookup identity = some root ∧ a ∈ root.held := by
  unfold Cache.held
  rw [List.mem_flatMap]
  constructor
  · rintro ⟨⟨identity, root⟩, hmem, ha⟩
    exact ⟨identity, root, AList.mem_lookup_iff.mpr hmem, ha⟩
  · rintro ⟨identity, root, hroot, ha⟩
    exact ⟨⟨identity, root⟩, AList.mem_lookup_iff.mp hroot, ha⟩

theorem nodeCount_le (hshape : ShapedRoots c.roots) : c.nodeCount ≤ 2 * c.held.length := by
  unfold Cache.nodeCount Cache.held
  rw [List.length_flatMap, ← List.sum_map_mul_left]
  refine List.sum_le_sum ?_
  rintro ⟨identity, root⟩ hmem
  exact (hshape identity root (AList.mem_lookup_iff.mpr hmem)).length_descendants_lt

variable [DecidableEq τ]

/-- What a tree holds is what the address of some sequence leads to. -/
theorem Invariant.mem_root_held (h : Invariant c) {identity : κ} {root : Node τ}
    (hroot : c.roots.lookup identity = some root) {a : Nat} :
    a ∈ root.held ↔ ∃ tokens, address c.roots identity tokens = some a := by
  have hwf := h.wellFormed identity root hroot
  have haddress : ∀ tokens, address c.roots identity tokens = root.lookup tokens := by
    intro tokens
    simp [address, hroot]
  rw [← root.map_stored, List.mem_map]
  constructor
  · rintro ⟨⟨tokens, _⟩, hmem, rfl⟩
    exact ⟨tokens, (haddress tokens).trans (root.mem_stored hwf hmem)⟩
  · rintro ⟨tokens, ha⟩
    rw [haddress] at ha
    exact ⟨(tokens, a), root.stored_of_lookup ha, rfl⟩

theorem Invariant.mem_held_iff (h : Invariant c) {a : Nat} :
    a ∈ c.held ↔ ∃ identity tokens, address c.roots identity tokens = some a := by
  rw [mem_held]
  constructor
  · rintro ⟨identity, root, hroot, ha⟩
    exact ⟨identity, (h.mem_root_held hroot).mp ha⟩
  · rintro ⟨identity, tokens, ha⟩
    obtain ⟨root, hroot, -⟩ := Option.bind_eq_some_iff.mp ha
    exact ⟨identity, root, hroot, (h.mem_root_held hroot).mpr ⟨tokens, ha⟩⟩

/-- An address belongs to one key. -/
theorem Invariant.key_unique (h : Invariant c) {a : Nat} {identity identity' : κ}
    {tokens tokens' : List τ} (ha : address c.roots identity tokens = some a)
    (ha' : address c.roots identity' tokens' = some a) :
    identity = identity' ∧ tokens = tokens' := by
  obtain ⟨entry, hentry, rfl, rfl, -, -⟩ := h.stored identity tokens a ha
  obtain ⟨entry', hentry', rfl, rfl, -, -⟩ := h.stored identity' tokens' a ha'
  rw [hentry, Option.some.injEq] at hentry'
  subst hentry'
  exact ⟨rfl, rfl⟩

theorem Invariant.nodup_root_held (h : Invariant c) {identity : κ} {root : Node τ}
    (hroot : c.roots.lookup identity = some root) : root.held.Nodup := by
  have hwf := h.wellFormed identity root hroot
  rw [← root.map_stored]
  refine List.Nodup.map_on ?_ (List.Nodup.of_map _ (root.nodup_stored hwf))
  rintro ⟨tokens, a⟩ hmem ⟨tokens', a'⟩ hmem' heq
  dsimp only at heq
  subst heq
  have ha : address c.roots identity tokens = some a := by
    simpa [address, hroot] using root.mem_stored hwf hmem
  have ha' : address c.roots identity tokens' = some a := by
    simpa [address, hroot] using root.mem_stored hwf hmem'
  rw [(h.key_unique ha ha').2]

/-- No two nodes hold the same entry. -/
theorem Invariant.nodup_held (h : Invariant c) : c.held.Nodup := by
  unfold Cache.held
  rw [List.nodup_flatMap]
  refine ⟨?_, ?_⟩
  · rintro ⟨identity, root⟩ hmem
    exact h.nodup_root_held (AList.mem_lookup_iff.mpr hmem)
  · refine (List.nodupKeys_iff_pairwise.mp c.roots.nodupKeys).imp_of_mem ?_
    rintro ⟨identity, root⟩ ⟨identity', root'⟩ hmem hmem' hne a ha ha'
    obtain ⟨tokens, hfound⟩ := (h.mem_root_held (AList.mem_lookup_iff.mpr hmem)).mp ha
    obtain ⟨tokens', hfound'⟩ := (h.mem_root_held (AList.mem_lookup_iff.mpr hmem')).mp ha'
    exact hne (h.key_unique hfound hfound').1

theorem Invariant.nodup_order (h : Invariant c) : c.order.toList.Nodup := by
  unfold StableList.toList
  refine List.Nodup.map_on ?_ (List.Nodup.of_map _ c.order.nodup)
  rintro ⟨position, a⟩ hcell ⟨position', a'⟩ hcell' heq
  dsimp only at heq
  subst heq
  obtain ⟨entry, hentry, rfl, -⟩ := h.reached position a hcell
  obtain ⟨entry', hentry', rfl, -⟩ := h.reached position' a hcell'
  rw [hentry, Option.some.injEq] at hentry'
  rw [hentry']

/-- The recency list and the trees have the same entries. -/
theorem Invariant.mem_order_iff (h : Invariant c) {a : Nat} :
    a ∈ c.order.toList ↔ a ∈ c.held := by
  rw [h.mem_held_iff, StableList.toList, List.mem_map]
  constructor
  · rintro ⟨⟨position, _⟩, hcell, rfl⟩
    obtain ⟨entry, -, -, haddress⟩ := h.reached position _ hcell
    exact ⟨entry.identity, entry.tokens, haddress⟩
  · rintro ⟨identity, tokens, haddress⟩
    obtain ⟨entry, -, -, -, -, hcell⟩ := h.stored identity tokens a haddress
    exact ⟨(entry.position, a), hcell, rfl⟩

theorem Invariant.rooted_iff (h : Invariant c) (hshape : ShapedRoots c.roots) (identity : κ) :
    c.roots.lookup identity ≠ none ↔
      ∃ a ∈ c.held, ∃ entry, c.entries[a]? = some entry ∧ entry.identity = identity := by
  constructor
  · intro hroot
    obtain ⟨root, hroot⟩ := Option.ne_none_iff_exists'.mp hroot
    have hlength := (hshape identity root hroot).length_descendants_lt
    obtain ⟨a, ha⟩ := List.exists_mem_of_length_pos
      (show 0 < root.held.length by omega)
    obtain ⟨tokens, haddress⟩ := (h.mem_root_held hroot).mp ha
    obtain ⟨entry, hentry, hidentity, -⟩ := h.stored identity tokens a haddress
    exact ⟨a, mem_held.mpr ⟨identity, root, hroot, ha⟩, entry, hentry, hidentity⟩
  · rintro ⟨a, ha, entry, hentry, rfl⟩ hnone
    obtain ⟨identity, tokens, haddress⟩ := h.mem_held_iff.mp ha
    obtain ⟨found, hfound, rfl, -⟩ := h.stored identity tokens a haddress
    rw [hentry, Option.some.injEq] at hfound
    subst hfound
    simp [address, hnone] at haddress

/-- A cache in order whose trees are shaped. -/
theorem Invariant.radix (h : Invariant c) (hshape : ShapedRoots c.roots) :
    RadixInvariant c where
  keyed := by
    intro identity root hroot stored hstored
    have hhead := root.head_of_descendant (h.wellFormed identity root hroot) stored hstored
    refine ⟨?_, hhead⟩
    intro hnil
    simp [hnil] at hhead
  kept := by
    intro identity root hroot
    exact root.kept_of_descendant (hshape identity root hroot).compressed
  rooted := h.rooted_iff hshape
  linear := nodeCount_le hshape
  once := ⟨h.nodup_held,
    (List.perm_ext_iff_of_nodup h.nodup_order h.nodup_held).mpr fun _ => h.mem_order_iff⟩
  positioned := by
    intro a ha
    obtain ⟨identity, tokens, haddress⟩ := h.mem_held_iff.mp ha
    obtain ⟨entry, hentry, -, -, -, hcell⟩ := h.stored identity tokens a haddress
    exact ⟨entry, hentry, StableList.get?_eq_some.mpr hcell⟩

/-- The radix invariant holds after every sequence of operations on a new cache. -/
theorem radix_of_run (capacity : Nat) (ops : List (Op κ τ ν)) :
    RadixInvariant ((Cache.new capacity : Cache κ τ ν).run ops).1 := by
  have hinit : Invariant (Cache.new capacity : Cache κ τ ν) := invariant_new capacity
  have hrun := hinit.run_spec (by simp [Cache.items, Cache.new]) ops
  exact hrun.1.invariant.radix (shaped_run shapedRoots_empty ops)

end Shape

end PrefixCache
end RwkvLightning

import RwkvLightning.Inference.PrefixCachePool
import RwkvLightning.Inference.PrefixCacheRefinement
import RwkvLightning.Library.Execution

/-!
# The prefix cache pool: ownership of the buffers

`Ownership` is the invariant inside a call: every buffer ever made is in the
index, in the free list or in a local variable, exactly once; the contents of an
indexed buffer are those of the last successful `put` under its key; and no
reader's buffer has been written since it was handed out.

**Results.**
* `owned_reuse`, `owned_acquire`, `owned_publish`: the three parts of `put`.
* `poolSafe_of_run`: the guarantees of the pool in every state reached.
-/

namespace RwkvLightning
namespace PrefixCachePool

open PrefixCache Execution

universe u v w

variable {κ : Type u} {τ : Type v} {V : Type w}
variable [DecidableEq κ] [DecidableEq τ]

/-- The guarantees of the pool. -/
structure PoolSafe (s : System κ τ V) : Prop where
  accounted :
    s.pool.allocated = s.pool.index.size + s.pool.free.length
  all_buffers :
    (indexed s.pool.index ++ s.pool.free).Perm (List.range s.heap.length)
  allocated_eq : s.pool.allocated = s.heap.length
  bounded : s.pool.allocated ≤ s.pool.capacity
  never_filled_pinned :
    ∀ b pinned, Record.filled b pinned ∈ s.log → pinned = false
  readers_stable :
    ∀ handle, some handle ∈ s.readers →
      s.heap[handle.buffer]? = some handle.contents
  find_last :
    ∀ identity tokens,
      (s.find identity tokens).2.value = none ∨
      ∃ b contents, (s.find identity tokens).2.value = some b ∧
        s.heap[b]? = some contents ∧
        0 < (s.find identity tokens).2.length ∧
        (s.find identity tokens).2.length ≤ tokens.length ∧
        lastPut s.log identity
          (tokens.take (s.find identity tokens).2.length) = some contents

/-- The invariant while `locals` are held by local variables. -/
structure Ownership (index : Cache κ τ Nat) (capacity : Nat) (free : List Nat)
    (allocated : Nat) (heap : List V) (readers : List (Option (Handle V)))
    (log : List (Record κ τ V)) (locals : List Nat) : Prop where
  index_inv : PrefixCache.Invariant index
  capacity_eq : index.capacity = capacity
  values : ∀ item ∈ index.items, ∃ b, item.value = some b
  conserved :
    (locals ++ (indexed index ++ free)).Perm (List.range heap.length)
  allocated_eq : allocated = heap.length
  bounded : heap.length ≤ capacity
  contents : ∀ item ∈ index.items, ∀ b, item.value = some b →
    ∃ contents, heap[b]? = some contents ∧
      lastPut log item.identity item.tokens = some contents
  stable : ∀ handle, some handle ∈ readers →
    heap[handle.buffer]? = some handle.contents
  fills : ∀ b pinned, Record.filled b pinned ∈ log → pinned = false

/-- The invariant of a state. -/
abbrev System.Owned (s : System κ τ V) (locals : List Nat) : Prop :=
  Ownership s.pool.index s.pool.capacity s.pool.free s.pool.allocated s.heap
    s.readers s.log locals

section LastPut

variable (log : List (Record κ τ V)) (identity : κ) (tokens : List τ)

@[simp] theorem lastPut_filled (b : Nat) (pinned : Bool) :
    lastPut (log ++ [.filled b pinned]) identity tokens =
      lastPut log identity tokens := by
  simp [lastPut]

theorem lastPut_stored (identity' : κ) (tokens' : List τ) (contents : V) :
    lastPut (log ++ [.stored identity' tokens' contents]) identity tokens =
      if identity' = identity ∧ tokens' = tokens then some contents
      else lastPut log identity tokens := by
  by_cases h : identity' = identity ∧ tokens' = tokens
  · simp [lastPut, List.filterMap_append, h]
  · simp [lastPut, List.filterMap_append, h]

end LastPut

/-- Removing the item of one key removes its buffer. -/
theorem filterMap_value_remove
    {l : List (Item κ τ Nat)} (hnodup : (l.map Item.key).Nodup)
    {item : Item κ τ Nat} (hmem : item ∈ l) {b : Nat}
    (hvalue : item.value = some b) :
    (l.filterMap Item.value).Perm
      (b :: (RecencyList.remove Item.key item.key l).filterMap Item.value) := by
  have hperm : (RecencyList.touch Item.key item.key l).Perm l :=
    RecencyList.touch_perm _ _
  rw [RecencyList.touch_of_mem hnodup hmem] at hperm
  have hmap := hperm.symm.filterMap Item.value
  rwa [List.filterMap_cons_some hvalue] at hmap

/-- What moves to the place of a taken element. -/
theorem takeFree_perm
    {free : List Nat} {i b : Nat} (hget : free[i]? = some b) :
    free.Perm (b :: takeFree free i) := by
  obtain ⟨hlt, hb⟩ := List.getElem?_eq_some_iff.mp hget
  rcases List.eq_nil_or_concat free with rfl | ⟨front, back, hfree⟩
  · simp at hlt
  · rw [List.concat_eq_append] at hfree
    subst hfree
    simp only [List.length_append, List.length_singleton] at hlt
    by_cases hlast : i + 1 = (front ++ [back]).length
    · have hi : i = front.length := by simpa using hlast
      subst hi
      have hbb : b = back := by simpa using hb.symm
      simp [takeFree, hbb]
    · have hi : i < front.length := by
        simp at hlast
        omega
      have hbi : front[i] = b := by
        rw [List.getElem_append_left hi] at hb
        exact hb
      have htake : takeFree (front ++ [back]) i = front.set i back := by
        unfold takeFree
        simp only [List.getLast?_append, List.getLast?_singleton,
          Option.some_or]
        rw [if_neg hlast, List.set_append_left _ _ hi, List.dropLast_concat]
      have hfront : front.Perm (b :: front.eraseIdx i) := by
        have hperm := List.getElem_cons_eraseIdx_perm hi
        rw [hbi] at hperm
        exact hperm.symm
      have hset := List.set_perm_cons_eraseIdx hi back
      rw [htake]
      calc
        (front ++ [back]).Perm (back :: front) :=
          List.perm_append_singleton _ _
        List.Perm _ (back :: b :: front.eraseIdx i) := hfront.cons _
        List.Perm _ (b :: back :: front.eraseIdx i) := List.Perm.swap _ _ _
        List.Perm _ (b :: front.set i back) := hset.symm.cons _

section Parts

variable {index index' : Cache κ τ Nat} {capacity allocated : Nat}
variable {free locals : List Nat} {heap : List V}
variable {readers : List (Option (Handle V))} {log : List (Record κ τ V)}

/-- Some buffers leave the index, and the items left may change their order. -/
theorem Ownership.extract
    (h : Ownership index capacity free allocated heap readers log locals)
    (bs : List Nat) {items : List (Item κ τ Nat)}
    (hrefines : Refines index index' items)
    (hsubset : items ⊆ index.items)
    (hperm : (indexed index).Perm (bs ++ items.filterMap Item.value)) :
    Ownership index' capacity free allocated heap readers log (bs ++ locals) := by
  obtain ⟨hinv, hitems, hcap⟩ := hrefines
  have hsub : ∀ item ∈ index'.items, item ∈ index.items := by
    intro item hitem
    exact hsubset (hitems ▸ hitem)
  refine
    { h with
      index_inv := hinv
      capacity_eq := hcap.trans h.capacity_eq
      values := fun item hitem => h.values item (hsub item hitem)
      conserved := ?_
      contents := fun item hitem => h.contents item (hsub item hitem) }
  have hmove := (hperm.append_right free).append_left locals
  rw [List.append_assoc] at hmove
  have hswap := hmove.trans (List.perm_append_comm_assoc _ _ _)
  rw [indexed, hitems, List.append_assoc]
  exact hswap.symm.trans h.conserved

/-- A local buffer goes to the free list. -/
theorem Ownership.pushFree
    {b : Nat}
    (h : Ownership index capacity free allocated heap readers log (b :: locals)) :
    Ownership index capacity (free ++ [b]) allocated heap readers log locals := by
  refine { h with conserved := ?_ }
  have happend : locals ++ (indexed index ++ (free ++ [b])) =
      (locals ++ (indexed index ++ free)) ++ [b] := by
    simp
  rw [happend]
  exact (List.perm_append_singleton _ _).trans h.conserved

/-- A buffer is taken out of the free list. -/
theorem Ownership.popFree
    (h : Ownership index capacity free allocated heap readers log locals)
    {b i : Nat} (hget : free[i]? = some b) :
    Ownership index capacity (takeFree free i) allocated heap readers log
      (b :: locals) := by
  refine { h with conserved := ?_ }
  have htake := (takeFree_perm hget).append_left (locals ++ indexed index)
  have hmiddle := htake.trans List.perm_middle
  rw [List.append_assoc] at hmiddle
  rw [List.append_assoc] at hmiddle
  exact hmiddle.symm.trans h.conserved

/-- `make` returns a new buffer. -/
theorem Ownership.make
    (h : Ownership index capacity free allocated heap readers log locals)
    (hroom : allocated < capacity) (contents : V) :
    Ownership index capacity free (allocated + 1) (heap ++ [contents]) readers
      log (heap.length :: locals) := by
  have hget : ∀ (b : Nat) (v : V), heap[b]? = some v →
      (heap ++ [contents])[b]? = some v := by
    intro b v hv
    rw [List.getElem?_append_left (List.getElem?_eq_some_iff.mp hv).1]
    exact hv
  refine
    { h with
      conserved := ?_
      allocated_eq := by simp [h.allocated_eq]
      bounded := ?_
      contents := ?_
      stable := fun handle hin => hget _ _ (h.stable handle hin) }
  · rw [List.length_append, List.length_singleton, List.range_succ]
    refine List.Perm.trans ?_ (List.perm_append_singleton _ _).symm
    exact h.conserved.cons _
  · have heq := h.allocated_eq
    simp
    omega
  · intro item hitem b hb
    obtain ⟨v, hv, hlast⟩ := h.contents item hitem b hb
    exact ⟨v, hget b v hv, hlast⟩

/-- A buffer that nobody else refers to is written. -/
theorem Ownership.write
    {b : Nat}
    (h : Ownership index capacity free allocated heap readers log [b])
    (hpinned : ∀ handle, some handle ∈ readers → handle.buffer ≠ b)
    (contents : V) :
    Ownership index capacity free allocated (heap.set b contents) readers
      (log ++ [.filled b false]) [b] := by
  have hnodup : ([b] ++ (indexed index ++ free)).Nodup :=
    h.conserved.nodup_iff.mpr List.nodup_range
  have hother : b ∉ indexed index := by
    rw [List.singleton_append, List.nodup_cons] at hnodup
    intro hin
    exact hnodup.1 (List.mem_append_left _ hin)
  refine
    { h with
      conserved := by simpa using h.conserved
      allocated_eq := by simpa using h.allocated_eq
      bounded := by simpa using h.bounded
      contents := ?_
      stable := ?_
      fills := ?_ }
  · intro item hitem b' hb'
    obtain ⟨v, hv, hlast⟩ := h.contents item hitem b' hb'
    refine ⟨v, ?_, by simpa using hlast⟩
    rw [List.getElem?_set_ne]
    · exact hv
    · rintro rfl
      exact hother (List.mem_filterMap.mpr ⟨item, hitem, hb'⟩)
  · intro handle hin
    rw [List.getElem?_set_ne (hpinned handle hin).symm]
    exact h.stable handle hin
  · intro b' pinned hin
    rcases List.mem_append.mp hin with hin | hin
    · exact h.fills b' pinned hin
    · simp at hin
      exact hin.2

/-- The buffer just written is stored under a key that was absent. -/
theorem Ownership.store
    {b : Nat}
    (h : Ownership index capacity free allocated heap readers log [b])
    {identity : κ} {tokens : List τ} {contents : V}
    (hcapacity : capacity ≠ 0) (htokens : tokens ≠ [])
    (habsent : ∀ item ∈ index.items, item.key ≠ (identity, tokens))
    (hcontents : heap[b]? = some contents) :
    Ownership (index.put identity tokens (some b)) capacity free allocated heap
      readers (log ++ [.stored identity tokens contents]) [] := by
  have hlength := h.conserved.length_eq
  have hindexed : (indexed index).length = index.items.length := by
    refine filterMap_length_eq ?_
    intro item hitem
    obtain ⟨b, hb⟩ := h.values item hitem
    simp [hb]
  have hroom : index.items.length + 1 ≤ index.capacity := by
    have hbounded := h.bounded
    have hcap := h.capacity_eq
    simp only [List.length_append, List.length_singleton, List.length_range]
      at hlength
    omega
  obtain ⟨hinv, hitems, hcap⟩ :=
    h.index_inv.put_spec (by omega) identity tokens (some b)
  have hremove : RecencyList.remove Item.key (identity, tokens) index.items =
      index.items := by
    refine List.filter_eq_self.mpr ?_
    intro item hitem
    simpa using habsent item hitem
  have hput : (index.put identity tokens (some b)).items =
      ⟨identity, tokens, some b⟩ :: index.items := by
    rw [hitems, Spec.put, if_neg (by simp [h.capacity_eq, hcapacity, htokens])]
    simp only [RecencyList.insert, Item.key] at hremove ⊢
    rw [hremove]
    exact List.take_of_length_le (by simpa using hroom)
  refine
    { h with
      index_inv := hinv
      capacity_eq := hcap.trans h.capacity_eq
      values := ?_
      conserved := ?_
      contents := ?_
      fills := ?_ }
  · intro item hitem
    rw [hput] at hitem
    rcases List.mem_cons.mp hitem with rfl | hitem
    · exact ⟨b, rfl⟩
    · exact h.values item hitem
  · have hindexed' : indexed (index.put identity tokens (some b)) =
        b :: indexed index := by
      rw [indexed, hput]
      rfl
    rw [hindexed']
    simpa using h.conserved
  · intro item hitem b' hb'
    rw [hput] at hitem
    rw [lastPut_stored]
    rcases List.mem_cons.mp hitem with rfl | hitem
    · have hbb : b = b' := by simpa using hb'
      subst hbb
      exact ⟨contents, hcontents, by simp⟩
    · have hne : ¬ (identity = item.identity ∧ tokens = item.tokens) := by
        rintro ⟨hid, htok⟩
        exact habsent item hitem (by simp [Item.key, hid, htok])
      rw [if_neg hne]
      exact h.contents item hitem b' hb'
  · intro b' pinned hin
    rcases List.mem_append.mp hin with hin | hin
    · exact h.fills b' pinned hin
    · simp at hin

end Parts

section Calls

variable {s : System κ τ V}

/-- No reader holds the buffer. -/
def Unpinned (readers : List (Option (Handle V))) (b : Nat) : Prop :=
  ∀ handle, some handle ∈ readers → handle.buffer ≠ b

/-- Nothing is indexed under the key. -/
def Absent (index : Cache κ τ Nat) (key : κ × List τ) : Prop :=
  ∀ item ∈ index.items, item.key ≠ key

omit [DecidableEq κ] [DecidableEq τ] in
theorem unpinned_of_count
    {readers : List (Option (Handle V))} {b : Nat}
    (h : (readers.filterMap readerBuffer).count b = 0) :
    Unpinned readers b := by
  intro handle hin heq
  have hmem : b ∈ readers.filterMap readerBuffer :=
    List.mem_filterMap.mpr ⟨some handle, hin, by simp [readerBuffer, heq]⟩
  exact List.count_eq_zero.mp h hmem

omit [DecidableEq κ] [DecidableEq τ] in
theorem unpinned_of_references
    {b : Nat} (h : s.references b = 0) : Unpinned s.readers b := by
  refine unpinned_of_count ?_
  simp only [System.references] at h
  omega

omit [DecidableEq κ] [DecidableEq τ] in
theorem pinned_eq_false
    {b : Nat} (h : Unpinned s.readers b) : s.pinned b = false := by
  unfold System.pinned
  rw [List.contains_eq_mem, decide_eq_false_iff_not]
  intro hmem
  obtain ⟨reader, hin, hb⟩ := List.mem_filterMap.mp hmem
  obtain ⟨handle, rfl, hbuffer⟩ := Option.map_eq_some_iff.mp hb
  exact h handle hin hbuffer

/-- The first part of `put`: the key leaves the index. -/
theorem owned_reuse
    (h : s.Owned []) (identity : κ) (tokens : List τ) :
    match s.reuse identity tokens with
    | (s', none) => s'.Owned [] ∧ Absent s'.pool.index (identity, tokens)
    | (s', some b) => s'.Owned [b] ∧ Absent s'.pool.index (identity, tokens) ∧
        Unpinned s'.readers b := by
  obtain ⟨hrefines, hvalue⟩ := h.index_inv.extractExact_spec identity tokens
  unfold System.reuse
  rcases hextract : s.pool.index.extractExact identity tokens with ⟨index, old⟩
  rw [hextract] at hrefines hvalue
  simp only at hrefines hvalue
  cases hfind : s.pool.index.items.find?
      (fun item => item.key = (identity, tokens)) with
  | none =>
      simp only [Spec.extractExact, hfind] at hrefines hvalue
      subst hvalue
      refine ⟨h.extract [] hrefines (List.Subset.refl _) (List.Perm.refl _), ?_⟩
      intro item hitem
      rw [hrefines.items_eq] at hitem
      simpa using List.find?_eq_none.mp hfind item hitem
  | some item =>
      have hmem := List.mem_of_find?_eq_some hfind
      have hkey : item.key = (identity, tokens) := by
        simpa using List.find?_some hfind
      obtain ⟨b, hb⟩ := h.values item hmem
      simp only [Spec.extractExact, hfind] at hrefines hvalue
      subst hvalue
      have hperm := filterMap_value_remove h.index_inv.nodup_items hmem hb
      rw [hkey] at hperm
      have hlocal := h.extract [b] hrefines
        (fun other hother => (RecencyList.mem_remove.mp hother).1) hperm
      have habsent : Absent index (identity, tokens) := by
        intro other hother
        rw [hrefines.items_eq] at hother
        exact (RecencyList.mem_remove.mp hother).2
      simp only [hb]
      split
      · rename_i s' hs'
        split at hs'
        · simp at hs'
        · simp only [Prod.mk.injEq, and_true] at hs'
          subst hs'
          exact ⟨hlocal.pushFree, habsent⟩
      · rename_i s' b' hs'
        split at hs'
        · rename_i hcount
          simp only [Prod.mk.injEq, Option.some.injEq] at hs'
          obtain ⟨rfl, rfl⟩ := hs'
          exact ⟨hlocal, habsent,
            unpinned_of_references (Nat.add_eq_right.mp hcount)⟩
        · simp at hs'

/-- The eviction loop of `acquire`. -/
theorem owned_evictLoop
    {key : κ × List τ} (h : s.Owned []) (habsent : Absent s.pool.index key)
    (fuel : Nat) :
    match s.evictLoop fuel with
    | (s', none) => s'.Owned []
    | (s', some b) => s'.Owned [b] ∧ Absent s'.pool.index key ∧
        Unpinned s'.readers b := by
  induction fuel generalizing s with
  | zero => exact h
  | succ fuel ih =>
      obtain ⟨hrefines, hvalue⟩ := h.index_inv.extractLru_spec
      unfold System.evictLoop
      rcases hextract : s.pool.index.extractLru with ⟨index, old⟩
      rw [hextract] at hrefines hvalue
      simp only at hrefines hvalue
      rcases List.eq_nil_or_concat s.pool.index.items with hnil | ⟨front, last, hitems⟩
      · simp only [Spec.extractLru, hnil, List.getLast?_nil] at hrefines hvalue
        subst hvalue
        have hperm : (indexed s.pool.index).Perm
            ([] ++ ([] : List (Item κ τ Nat)).filterMap Item.value) := by
          simp [indexed, hnil]
        exact h.extract [] hrefines (List.nil_subset _) hperm
      · rw [List.concat_eq_append] at hitems
        obtain ⟨b, hb⟩ := h.values last (by simp [hitems])
        simp only [Spec.extractLru, hitems, List.getLast?_append,
          List.getLast?_singleton, Option.some_or, List.dropLast_concat]
          at hrefines hvalue
        subst hvalue
        have hperm : (indexed s.pool.index).Perm
            (b :: front.filterMap Item.value) := by
          unfold indexed
          rw [hitems, List.filterMap_append, List.filterMap_cons_some hb]
          exact List.perm_append_singleton _ _
        have hsubset : front ⊆ s.pool.index.items := by
          rw [hitems]
          exact List.subset_append_left _ _
        have hlocal := h.extract [b] hrefines hsubset hperm
        have habsent' : Absent index key := by
          intro other hother
          rw [hrefines.items_eq] at hother
          exact habsent other (hsubset hother)
        simp only [hb]
        by_cases hcount : System.references
            { s with pool := { s.pool with
                index := index, evictions := s.pool.evictions + 1 } } b + 1 = 1
        · rw [if_pos hcount]
          exact ⟨hlocal, habsent',
            unpinned_of_references (Nat.add_eq_right.mp hcount)⟩
        · rw [if_neg hcount]
          exact ih hlocal.pushFree habsent'

/-- The second part of `put`: a buffer that nobody reads. -/
theorem owned_acquire
    {key : κ × List τ} (h : s.Owned []) (habsent : Absent s.pool.index key)
    (make : MakeResult V) :
    match s.acquire make with
    | (s', .buffer b) => s'.Owned [b] ∧ Absent s'.pool.index key ∧
        Unpinned s'.readers b
    | (s', .null) => s'.Owned []
    | (s', .threw) => s'.Owned [] := by
  unfold System.acquire
  cases hfind : s.pool.free.findIdx? (fun b => s.references b = 1) with
  | some i =>
      obtain ⟨hlt, hcount, -⟩ := List.findIdx?_eq_some_iff_getElem.mp hfind
      simp only [decide_eq_true_eq] at hcount
      have hget : s.pool.free[i]? = some s.pool.free[i] := by simp [hlt]
      simp only [hget]
      refine ⟨h.popFree hget, habsent, unpinned_of_count ?_⟩
      have hfree : 0 < s.pool.free.count s.pool.free[i] :=
        List.count_pos_iff.mpr (List.getElem_mem hlt)
      simp only [System.references] at hcount
      omega
  | none =>
      by_cases hroom : s.pool.allocated < s.pool.capacity
      · simp only [hroom, if_true]
        cases make with
        | throws => exact h
        | null => exact h
        | made contents =>
            refine ⟨h.make hroom contents, habsent, ?_⟩
            intro handle hin heq
            have hstable := h.stable handle hin
            rw [heq] at hstable
            simp at hstable
      · simp only [hroom, if_false]
        have hloop := owned_evictLoop h habsent (s.pool.index.size + 1)
        rcases hevict : s.evictLoop (s.pool.index.size + 1) with ⟨s', value⟩
        rw [hevict] at hloop
        cases value with
        | none => exact hloop
        | some b => exact hloop

/-- The last part of `put`: a failing `fill` publishes nothing. -/
theorem owned_publish
    {identity : κ} {tokens : List τ} {b : Nat}
    (h : s.Owned [b]) (habsent : Absent s.pool.index (identity, tokens))
    (hpinned : Unpinned s.readers b)
    (hcapacity : s.pool.capacity ≠ 0) (htokens : tokens ≠ [])
    (fill : FillResult V) :
    (s.publish identity tokens b fill).1.Owned [] := by
  cases fill with
  | throws partialContents =>
      have hwrite := h.write hpinned partialContents
      simp only [System.publish, pinned_eq_false hpinned]
      exact hwrite.pushFree
  | filled contents =>
      have hwrite := h.write hpinned contents
      have hlt : b < s.heap.length := by
        have hmem : b ∈ List.range s.heap.length :=
          h.conserved.mem_iff.mp (by simp)
        exact List.mem_range.mp hmem
      have hget : (s.heap.set b contents)[b]? = some contents := by simp [hlt]
      have hstore := hwrite.store hcapacity htokens habsent hget
      simp only [System.publish, pinned_eq_false hpinned]
      simpa using hstore

/-- The capacity of the pool is a constant. -/
theorem capacity_reuse (identity : κ) (tokens : List τ) :
    (s.reuse identity tokens).1.pool.capacity = s.pool.capacity := by
  unfold System.reuse
  split
  · rfl
  · dsimp only
    split <;> rfl

theorem capacity_evictLoop (fuel : Nat) :
    (s.evictLoop fuel).1.pool.capacity = s.pool.capacity := by
  induction fuel generalizing s with
  | zero => rfl
  | succ fuel ih =>
      unfold System.evictLoop
      split
      · rfl
      · dsimp only
        split
        · rfl
        · exact ih

theorem capacity_acquire (make : MakeResult V) :
    (s.acquire make).1.pool.capacity = s.pool.capacity := by
  unfold System.acquire
  split
  · split <;> rfl
  · split
    · cases make <;> rfl
    · have hloop := capacity_evictLoop (s := s) (s.pool.index.size + 1)
      split
      · rename_i s' heq
        rw [heq] at hloop
        exact hloop
      · rename_i s' b heq
        rw [heq] at hloop
        exact hloop

theorem owned_put
    (h : s.Owned []) (identity : κ) (tokens : List τ) (make : MakeResult V)
    (fill : FillResult V) :
    (s.put identity tokens make fill).1.Owned [] := by
  unfold System.put
  by_cases hskip : s.pool.capacity = 0 ∨ tokens = []
  · rw [if_pos hskip]
    exact h
  · rw [if_neg hskip]
    have hcapacity : s.pool.capacity ≠ 0 := fun heq => hskip (Or.inl heq)
    have htokens : tokens ≠ [] := fun heq => hskip (Or.inr heq)
    have hreuse := owned_reuse h identity tokens
    have hcap := capacity_reuse (s := s) identity tokens
    rcases hr : s.reuse identity tokens with ⟨s₁, value⟩
    rw [hr] at hreuse hcap
    simp only at hcap
    cases value with
    | some b =>
        obtain ⟨howned, habsent, hpinned⟩ := hreuse
        exact owned_publish howned habsent hpinned (hcap ▸ hcapacity) htokens fill
    | none =>
        obtain ⟨howned, habsent⟩ := hreuse
        have hacquire := owned_acquire howned habsent make
        have hcap' := capacity_acquire (s := s₁) make
        rcases ha : s₁.acquire make with ⟨s₂, acquired⟩
        rw [ha] at hacquire hcap'
        simp only at hcap'
        simp only [ha]
        cases acquired with
        | buffer b =>
            obtain ⟨howned', habsent', hpinned⟩ := hacquire
            refine owned_publish howned' habsent' hpinned ?_ htokens fill
            rw [hcap', hcap]
            exact hcapacity
        | null => exact hacquire
        | threw => exact hacquire

/-- The recycled buffers wait in the free list. -/
theorem owned_retire
    {values : List (Option Nat)} (h : s.Owned values.reduceOption) :
    (values.foldl System.retire s).Owned [] := by
  induction values generalizing s with
  | nil => exact h
  | cons value values ih =>
      rw [List.foldl_cons]
      refine ih ?_
      cases value with
      | none => simpa [System.retire] using h
      | some b => exact Ownership.pushFree h

theorem owned_eraseIdentity
    (h : s.Owned []) (identity : κ) : (s.eraseIdentity identity).Owned [] := by
  obtain ⟨hrefines, hvalues⟩ := h.index_inv.eraseIdentity_spec identity
  unfold System.eraseIdentity
  rcases herase : s.pool.index.eraseIdentity identity with ⟨index, recycled⟩
  rw [herase] at hrefines hvalues
  simp only [Spec.eraseIdentity] at hrefines hvalues
  have hperm : (indexed s.pool.index).Perm
      (recycled.reduceOption ++ (s.pool.index.items.filter
        (fun item => item.identity ≠ identity)).filterMap Item.value) := by
    have hsplit := (List.filter_append_perm
      (fun item : Item κ τ Nat => decide (item.identity = identity))
      s.pool.index.items).symm.filterMap Item.value
    rw [List.filterMap_append] at hsplit
    rw [hvalues]
    simpa [indexed, List.reduceOption, List.filterMap_map] using hsplit
  have howned := h.extract _ hrefines (List.filter_subset_self _) hperm
  rw [List.append_nil] at howned
  exact owned_retire howned

theorem find_snd (identity : κ) (tokens : List τ) :
    (s.find identity tokens).2 = (s.pool.index.find identity tokens).2 := by
  unfold System.find
  dsimp only
  split <;> rfl

theorem owned_find
    (h : s.Owned []) (identity : κ) (tokens : List τ) :
    (s.find identity tokens).1.Owned [] := by
  obtain ⟨hrefines, -⟩ := h.index_inv.find_spec identity tokens
  have hperm : (Spec.find s.pool.index.items identity tokens).1.Perm
      s.pool.index.items := by
    unfold Spec.find
    split
    · exact List.Perm.refl _
    · exact RecencyList.touch_perm _ _
  have howned := h.extract [] hrefines hperm.subset
    (hperm.symm.filterMap Item.value)
  unfold System.find
  dsimp only
  split
  · exact howned
  · refine { howned with stable := ?_ }
    intro handle hin
    rcases List.mem_append.mp hin with hin | hin
    · exact howned.stable handle hin
    · have heq := (List.mem_singleton.mp hin).symm
      obtain ⟨contents, hget, rfl⟩ := Option.map_eq_some_iff.mp heq
      exact hget

/-- Every operation keeps the invariant. -/
theorem owned_step
    {s' : System κ τ V} {op : Op κ τ V} (h : s.Owned [])
    (hstep : step s op = some s') :
    s'.Owned [] := by
  cases op with
  | find identity tokens =>
      have heq : (s.find identity tokens).1 = s' := by simpa [step] using hstep
      exact heq ▸ owned_find h identity tokens
  | put identity tokens make fill =>
      have heq : (s.put identity tokens make fill).1 = s' := by
        simpa [step] using hstep
      exact heq ▸ owned_put h identity tokens make fill
  | eraseIdentity identity =>
      have heq : s.eraseIdentity identity = s' := by simpa [step] using hstep
      exact heq ▸ owned_eraseIdentity h identity
  | copyHandle i =>
      simp only [step] at hstep
      split at hstep
      · rename_i handle hget
        rw [Option.some.injEq] at hstep
        subst hstep
        refine { h with stable := ?_ }
        intro handle' hin
        rcases List.mem_append.mp hin with hin | hin
        · exact h.stable handle' hin
        · have heq : handle' = handle := by simpa using hin
          rw [heq]
          exact h.stable handle (List.mem_of_getElem? hget)
      · simp at hstep
  | dropHandle i =>
      simp only [step] at hstep
      split at hstep
      · rw [Option.some.injEq] at hstep
        subst hstep
        refine { h with stable := ?_ }
        intro handle' hin
        rcases List.mem_or_eq_of_mem_set hin with hin | heq
        · exact h.stable handle' hin
        · cases heq
      · simp at hstep

end Calls

section Runs

variable {s : System κ τ V}

theorem owned_init
    {capacity memoryLimit entryBytes : Nat} {pool : Pool κ τ}
    (hcreate : Pool.create capacity memoryLimit entryBytes = some pool) :
    (System.init pool : System κ τ V).Owned [] := by
  unfold Pool.create at hcreate
  split at hcreate
  · simp at hcreate
  · rw [Option.some.injEq] at hcreate
    subst hcreate
    refine
      { index_inv := invariant_new _
        capacity_eq := rfl
        values := ?_
        conserved := ?_
        allocated_eq := rfl
        bounded := ?_
        contents := ?_
        stable := ?_
        fills := ?_ }
    all_goals simp [System.init, Cache.items, Cache.new, indexed]

omit [DecidableEq τ] in
/-- A prefix is determined by its length. -/
theorem take_length_eq {p q : List τ} (h : p <+: q) :
    q.take p.length = p := by
  obtain ⟨r, rfl⟩ := h
  simp

/-- Stored sequences are not empty. -/
theorem tokens_ne_nil
    {index : Cache κ τ Nat} (h : PrefixCache.Invariant index)
    {item : Item κ τ Nat} (hitem : item ∈ index.items) :
    item.tokens ≠ [] := by
  obtain ⟨p, a, entry, hcell, hentry, rfl⟩ := mem_items.mp hitem
  obtain ⟨e, he, -, haddr⟩ := h.reached p a hcell
  rw [hentry, Option.some.injEq] at he
  subst he
  obtain ⟨-, -, -, -, hne, -⟩ := h.stored _ _ _ haddr
  exact hne

/-- A lookup misses, or it finds what was stored last under a prefix. -/
theorem find_cases (h : s.Owned []) (identity : κ) (tokens : List τ) :
    (s.find identity tokens).2 = ⟨none, 0⟩ ∨
    ∃ b contents n, (s.find identity tokens).2 = ⟨some b, n⟩ ∧
      s.heap[b]? = some contents ∧ 0 < n ∧ n ≤ tokens.length ∧
      lastPut s.log identity (tokens.take n) = some contents := by
  obtain ⟨-, hout⟩ := h.index_inv.find_spec identity tokens
  rw [find_snd, hout]
  unfold Spec.find
  cases hlongest : Spec.longest s.pool.index.items identity tokens with
  | none => exact Or.inl rfl
  | some item =>
      right
      obtain ⟨hmem, hid, hpre, -⟩ := longest_spec hlongest
      obtain ⟨b, hb⟩ := h.values item hmem
      obtain ⟨contents, hget, hlast⟩ := h.contents item hmem b hb
      refine ⟨b, contents, item.tokens.length, by simp [hb], hget, ?_, hpre.length_le, ?_⟩
      · exact List.length_pos_iff.mpr (tokens_ne_nil h.index_inv hmem)
      · rw [take_length_eq hpre, ← hid]
        exact hlast

theorem Ownership.safe (h : s.Owned []) : PoolSafe s := by
  have hlength := h.conserved.length_eq
  have hindexed : (indexed s.pool.index).length = s.pool.index.items.length := by
    refine filterMap_length_eq ?_
    intro item hitem
    obtain ⟨b, hb⟩ := h.values item hitem
    simp [hb]
  have hsize := h.index_inv.length_items
  refine
    { accounted := ?_
      all_buffers := h.conserved
      allocated_eq := h.allocated_eq
      bounded := h.allocated_eq ▸ h.bounded
      never_filled_pinned := h.fills
      readers_stable := h.stable
      find_last := ?_ }
  · have hallocated := h.allocated_eq
    simp only [List.nil_append, List.length_append, List.length_range] at hlength
    simp only [Cache.size]
    omega
  · intro identity tokens
    rcases find_cases h identity tokens with
      hmiss | ⟨b, contents, n, hhit, hget, hpos, hle, hlast⟩
    · rw [hmiss]
      exact Or.inl rfl
    · rw [hhit]
      exact Or.inr ⟨b, contents, rfl, hget, hpos, hle, hlast⟩

/--
Safety of the pool: after every sequence of calls and of readers taking and
dropping handles, whatever `make` and `fill` do in each call.
-/
theorem poolSafe_of_run
    {capacity memoryLimit entryBytes : Nat} {pool : Pool κ τ}
    (hcreate : Pool.create capacity memoryLimit entryBytes = some pool)
    {ops : List (Op κ τ V)}
    (hrun : exec step (System.init pool) ops = some s) :
    PoolSafe s :=
  Ownership.safe
    (exec_invariant_all (fun _ _ _ hI hs => owned_step hI hs)
      (owned_init hcreate) hrun)

/-- A reader pins the only buffer, and a later `fill` throws. -/
def pinnedRun : List (Op String Nat Nat) :=
  [.put "a" [1, 2] (.made 0) (.filled 12), .find "a" [1, 2, 3],
   .put "b" [7] .throws (.filled 7), .dropHandle 0,
   .put "b" [7] .throws (.throws 5), .find "b" [7]]

theorem poolSafe_pinnedRun :
    ∃ pool, Pool.create 1 8 8 = some pool ∧
      ∃ s, exec step (System.init pool) pinnedRun = some s ∧ PoolSafe s := by
  obtain ⟨pool, hcreate, hrun⟩ :
      ∃ pool, Pool.create 1 8 8 = some pool ∧
        (exec step (System.init pool) pinnedRun).isSome :=
    ⟨_, rfl, rfl⟩
  obtain ⟨s, hs⟩ := Option.isSome_iff_exists.mp hrun
  exact ⟨pool, hcreate, s, hs, poolSafe_of_run hcreate hs⟩

end Runs

end PrefixCachePool
end RwkvLightning

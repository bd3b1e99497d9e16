import RwkvLightning.Inference.PrefixCachePoolSafety

/-!
# The prefix cache pool: what a call changes

A user of the pool has to know which items a call can add to the index, and
which contents it can store.

**Results.**
* `items_find`, `items_put`, `items_eraseIdentity`: the items after a call.
* `log_find`, `stored_of_put`, `log_eraseIdentity`: the contents stored in a call.
-/

namespace RwkvLightning
namespace PrefixCachePool

open PrefixCache

universe u v w

variable {κ : Type u} {τ : Type v} {V : Type w}
variable [DecidableEq κ] [DecidableEq τ]

/-- What was put last was put. -/
theorem stored_of_lastPut
    {log : List (Record κ τ V)} {identity : κ} {tokens : List τ} {contents : V}
    (h : lastPut log identity tokens = some contents) :
    Record.stored identity tokens contents ∈ log := by
  obtain ⟨r, hr, heq⟩ := List.mem_filterMap.mp (List.mem_of_getLast? h)
  cases r with
  | filled b pinned => simp at heq
  | stored identity' tokens' contents' =>
      simp only [Option.ite_none_right_eq_some, Option.some.injEq] at heq
      obtain ⟨⟨rfl, rfl⟩, rfl⟩ := heq
      exact hr

variable {s : System κ τ V}

theorem items_find (h : s.Owned []) (identity : κ) (tokens : List τ) :
    (s.find identity tokens).1.pool.index.items ⊆ s.pool.index.items := by
  obtain ⟨hrefines, -⟩ := h.index_inv.find_spec identity tokens
  have hindex : (s.find identity tokens).1.pool.index =
      (s.pool.index.find identity tokens).1 := by
    unfold System.find
    dsimp only
    split <;> rfl
  have hperm : (Spec.find s.pool.index.items identity tokens).1.Perm
      s.pool.index.items := by
    unfold Spec.find
    split
    · exact List.Perm.refl _
    · exact RecencyList.touch_perm _ _
  rw [hindex, hrefines.items_eq]
  exact hperm.subset

theorem log_find (identity : κ) (tokens : List τ) :
    (s.find identity tokens).1.log = s.log := by
  unfold System.find
  dsimp only
  split <;> rfl

section Put

theorem index_reuse (identity : κ) (tokens : List τ) :
    (s.reuse identity tokens).1.pool.index =
      (s.pool.index.extractExact identity tokens).1 := by
  unfold System.reuse
  split
  · rename_i index heq
    rw [heq]
  · rename_i index b heq
    dsimp only
    rw [heq]
    split <;> rfl

theorem items_reuse (h : s.Owned []) (identity : κ) (tokens : List τ) :
    (s.reuse identity tokens).1.pool.index.items ⊆ s.pool.index.items := by
  obtain ⟨hrefines, -⟩ := h.index_inv.extractExact_spec identity tokens
  rw [index_reuse, hrefines.items_eq]
  unfold Spec.extractExact
  split
  · exact List.Subset.refl _
  · exact List.filter_subset_self _

theorem items_evictLoop (h : PrefixCache.Invariant s.pool.index) (fuel : Nat) :
    (s.evictLoop fuel).1.pool.index.items ⊆ s.pool.index.items := by
  induction fuel generalizing s with
  | zero => exact List.Subset.refl _
  | succ fuel ih =>
      obtain ⟨hrefines, -⟩ := h.extractLru_spec
      have hlru : (Spec.extractLru s.pool.index.items).1 ⊆ s.pool.index.items := by
        unfold Spec.extractLru
        split
        · exact List.Subset.refl _
        · exact List.dropLast_subset _
      rw [← hrefines.items_eq] at hlru
      unfold System.evictLoop
      rcases hextract : s.pool.index.extractLru with ⟨index, value⟩
      rw [hextract] at hrefines hlru
      cases value with
      | none => exact hlru
      | some b =>
          dsimp only
          split
          · exact hlru
          · exact List.Subset.trans (ih hrefines.invariant) hlru

theorem items_acquire (h : PrefixCache.Invariant s.pool.index) (make : MakeResult V) :
    (s.acquire make).1.pool.index.items ⊆ s.pool.index.items := by
  unfold System.acquire
  split
  · split <;> exact List.Subset.refl _
  · split
    · cases make <;> exact List.Subset.refl _
    · have hloop := items_evictLoop h (s.pool.index.size + 1)
      split
      · rename_i s' heq
        rw [heq] at hloop
        exact hloop
      · rename_i s' b heq
        rw [heq] at hloop
        exact hloop

/-- A published item is the only new one. -/
theorem items_publish
    {b : Nat} (h : s.Owned [b]) (identity : κ) (tokens : List τ) (fill : FillResult V)
    {item : Item κ τ Nat}
    (hitem : item ∈ (s.publish identity tokens b fill).1.pool.index.items) :
    item ∈ s.pool.index.items ∨ item.identity = identity := by
  cases fill with
  | throws partialContents => exact Or.inl hitem
  | filled contents =>
      have hbound : s.pool.index.items.length ≤ s.pool.index.capacity := by
        have hlength := h.conserved.length_eq
        have hindexed : (indexed s.pool.index).length = s.pool.index.items.length := by
          refine filterMap_length_eq ?_
          intro item hitem
          obtain ⟨b, hb⟩ := h.values item hitem
          simp [hb]
        have hbounded := h.bounded
        have hcap := h.capacity_eq
        simp only [List.length_append, List.length_singleton, List.length_range] at hlength
        omega
      obtain ⟨-, hitems, -⟩ := h.index_inv.put_spec hbound identity tokens (some b)
      have hitem' : item ∈ Spec.put s.pool.index.capacity s.pool.index.items identity tokens
          (some b) := hitems ▸ hitem
      unfold Spec.put at hitem'
      split at hitem'
      · exact Or.inl hitem'
      · rcases List.mem_cons.mp (List.mem_of_mem_take hitem') with rfl | hin
        · exact Or.inr rfl
        · exact Or.inl (List.mem_filter.mp hin).1

theorem log_reuse (identity : κ) (tokens : List τ) :
    (s.reuse identity tokens).1.log = s.log := by
  unfold System.reuse
  split
  · rfl
  · dsimp only
    split <;> rfl

theorem log_evictLoop (fuel : Nat) : (s.evictLoop fuel).1.log = s.log := by
  induction fuel generalizing s with
  | zero => rfl
  | succ fuel ih =>
      unfold System.evictLoop
      split
      · rfl
      · dsimp only
        split
        · rfl
        · exact ih

theorem log_acquire (make : MakeResult V) : (s.acquire make).1.log = s.log := by
  unfold System.acquire
  split
  · split <;> rfl
  · split
    · cases make <;> rfl
    · have hloop := log_evictLoop (s := s) (s.pool.index.size + 1)
      split
      · rename_i s' heq
        rw [heq] at hloop
        exact hloop
      · rename_i s' b heq
        rw [heq] at hloop
        exact hloop

/-- What a `put` stores is what its `fill` wrote. -/
theorem stored_of_publish
    {b : Nat} {identity : κ} {tokens : List τ} {fill : FillResult V}
    {identity' : κ} {tokens' : List τ} {contents : V}
    (h : Record.stored identity' tokens' contents ∈
      (s.publish identity tokens b fill).1.log) :
    Record.stored identity' tokens' contents ∈ s.log ∨
      (identity' = identity ∧ tokens' = tokens ∧ fill = .filled contents) := by
  cases fill with
  | throws partialContents => simpa [System.publish] using h
  | filled contents' =>
      have hcases : Record.stored identity' tokens' contents ∈ s.log ∨
          (identity' = identity ∧ tokens' = tokens ∧ contents = contents') := by
        simpa [System.publish] using h
      rcases hcases with hold | ⟨rfl, rfl, rfl⟩
      · exact Or.inl hold
      · exact Or.inr ⟨rfl, rfl, rfl⟩

/--
A `put` either publishes in the system `acquire` or `reuse` ends with, or it
stops there.
-/
theorem put_cases
    (h : s.Owned []) (identity : κ) (tokens : List τ) (make : MakeResult V)
    (fill : FillResult V) :
    ∃ s' : System κ τ V, s'.pool.index.items ⊆ s.pool.index.items ∧ s'.log = s.log ∧
      ((∃ b, s'.Owned [b] ∧
          s.put identity tokens make fill = s'.publish identity tokens b fill) ∨
        ((s.put identity tokens make fill).1.pool.index = s'.pool.index ∧
          (s.put identity tokens make fill).1.log = s'.log)) := by
  unfold System.put
  by_cases hskip : s.pool.capacity = 0 ∨ tokens = []
  · rw [if_pos hskip]
    exact ⟨s, List.Subset.refl _, rfl, Or.inr ⟨rfl, rfl⟩⟩
  · rw [if_neg hskip]
    have hreuse := owned_reuse h identity tokens
    have hitems := items_reuse h identity tokens
    have hlog := log_reuse (s := s) identity tokens
    rcases hr : s.reuse identity tokens with ⟨s₁, value⟩
    rw [hr] at hreuse hitems hlog
    cases value with
    | some b => exact ⟨s₁, hitems, hlog, Or.inl ⟨b, hreuse.1, rfl⟩⟩
    | none =>
        obtain ⟨howned, habsent⟩ := hreuse
        have hacquire := owned_acquire howned habsent make
        have hitems' := items_acquire howned.index_inv make
        have hlog' := log_acquire (s := s₁) make
        rcases ha : s₁.acquire make with ⟨s₂, acquired⟩
        rw [ha] at hacquire hitems' hlog'
        simp only [ha]
        refine ⟨s₂, List.Subset.trans hitems' hitems, hlog'.trans hlog, ?_⟩
        cases acquired with
        | buffer b => exact Or.inl ⟨b, hacquire.1, rfl⟩
        | null => exact Or.inr ⟨rfl, rfl⟩
        | threw => exact Or.inr ⟨rfl, rfl⟩

theorem items_put
    (h : s.Owned []) (identity : κ) (tokens : List τ) (make : MakeResult V)
    (fill : FillResult V) {item : Item κ τ Nat}
    (hitem : item ∈ (s.put identity tokens make fill).1.pool.index.items) :
    item ∈ s.pool.index.items ∨ item.identity = identity := by
  obtain ⟨s', hitems, -, ⟨b, howned, heq⟩ | ⟨hindex, -⟩⟩ :=
    put_cases h identity tokens make fill
  · rw [heq] at hitem
    exact (items_publish howned identity tokens fill hitem).imp_left fun hin => hitems hin
  · rw [hindex] at hitem
    exact Or.inl (hitems hitem)

theorem stored_of_put
    (h : s.Owned []) {identity : κ} {tokens : List τ} {make : MakeResult V}
    {fill : FillResult V} {identity' : κ} {tokens' : List τ} {contents : V}
    (hstored : Record.stored identity' tokens' contents ∈
      (s.put identity tokens make fill).1.log) :
    Record.stored identity' tokens' contents ∈ s.log ∨
      (identity' = identity ∧ tokens' = tokens ∧ fill = .filled contents) := by
  obtain ⟨s', -, hlog, ⟨b, -, heq⟩ | ⟨-, hlog'⟩⟩ := put_cases h identity tokens make fill
  · rw [heq] at hstored
    rw [← hlog]
    exact stored_of_publish hstored
  · rw [hlog', hlog] at hstored
    exact Or.inl hstored

end Put

omit [DecidableEq κ] [DecidableEq τ] in
theorem foldl_retire (values : List (Option Nat)) :
    (values.foldl System.retire s).pool.index = s.pool.index ∧
      (values.foldl System.retire s).log = s.log := by
  induction values generalizing s with
  | nil => exact ⟨rfl, rfl⟩
  | cons value values ih => exact ih

/-- Exactly the items of the other identities stay. -/
theorem items_eraseIdentity (h : s.Owned []) (identity : κ) :
    (s.eraseIdentity identity).pool.index.items =
      s.pool.index.items.filter (fun item => item.identity ≠ identity) := by
  obtain ⟨hrefines, -⟩ := h.index_inv.eraseIdentity_spec identity
  rw [← show _ = s.pool.index.items.filter (fun item => item.identity ≠ identity) from
    hrefines.items_eq]
  unfold System.eraseIdentity
  rw [(foldl_retire _).1]

theorem log_eraseIdentity (identity : κ) :
    (s.eraseIdentity identity).log = s.log := by
  unfold System.eraseIdentity
  exact (foldl_retire _).2

end PrefixCachePool
end RwkvLightning

import RwkvLightning.OnlineRl.PolicyHistory

/-!
# Generation with the cache is generation without

Retained versions share one cache.  It stays truthful in every run: what is
cached under a version is what feeding the tokens to its policy gives.

**Results.**
* `truthful_step`, `truthful_run`: the invariant.
* `generation_exact`: cached entries and returned rows in every state reached.
-/

namespace RwkvLightning
namespace OnlineRl

open PrefixCachePool PrefixCache Command

variable {W L S G R F : Type}

/-- The weights that were published under a version. -/
def Server.weightsOf (s : Server W L S G) (version : String) (weights : W) : Prop :=
  ∃ (i : Nat) (p : Policy W), s.heap[i]? = some p ∧ p.version = version ∧ p.weights = weights

section Runs

variable (c : Config W L S G R F) {s s' : Server W L S G}

theorem History.owner (h : History s) {i : Nat} {p : Policy W} (hp : s.heap[i]? = some p) :
    Owner s.weightsOf p.version p.weights := by
  refine ⟨⟨i, p, hp, rfl, rfl⟩, ?_⟩
  rintro weights ⟨j, q, hq, hversion, rfl⟩
  obtain rfl := h.index_eq hq hp hversion
  rw [hp, Option.some.injEq] at hq
  rw [hq]

/-- A policy that is kept keeps its entries true. -/
theorem Truthful.later {k : Kernels W S G R F}
    (h : Truthful k s.weightsOf s.cache) (hkept : PoliciesKept s s')
    (howned : s'.cache.Owned []) (hlog : s'.cache.log = s.cache.log) :
    Truthful k s'.weightsOf s'.cache := by
  refine ⟨howned, fun version tokens contents hin => ?_⟩
  rw [hlog] at hin
  obtain ⟨weights, ⟨i, p, hp, rfl, rfl⟩, hcontents⟩ := h.stored _ _ _ hin
  obtain ⟨p', hp', hversion, -, hweights⟩ := hkept.kept i p hp
  exact ⟨p.weights, ⟨i, p', hp', hversion, hweights⟩, hcontents⟩

/-- A request on a truthful cache: what it leaves and what it answers. -/
theorem completions_truthful (hlaws : RowLaws c.kernels) (hchunk : 0 < c.options.limits.chunk)
    (h : History s) (htruthful : Truthful c.kernels s.weightsOf s.cache)
    (r : CompletionsRequest F) (faults : List (Fault (CachedState S G))) :
    Truthful c.kernels s.weightsOf (s.completions c r faults).1.cache ∧
      (s.completions c r faults).1.heap = s.heap ∧
      ∀ version rows, (s.completions c r faults).2 = .ok (version, rows) →
        ∃ i p, s.policy r.policyVersion = .ok i ∧ s.heap[i]? = some p ∧ version = p.version ∧
          Answered c.kernels c.options.limits p.weights r rows := by
  unfold Server.completions
  cases hpolicy : s.policy r.policyVersion with
  | error e => exact ⟨htruthful, rfl, fun _ _ h => by cases h⟩
  | ok i =>
      dsimp only
      cases hp : s.heap[i]? with
      | none => exact ⟨htruthful, rfl, fun _ _ h => by cases h⟩
      | some p =>
          have hexact := completions_exact hlaws hchunk (h.owner hp) p.cacheEnabled r
            { cache := s.cache, faults := faults } htruthful
          dsimp only
          rcases hrun : OnlineRl.completions c.kernels c.options.limits p.weights p.version
            p.cacheEnabled r { cache := s.cache, faults := faults } with ⟨result, w⟩
          rw [hrun] at hexact
          cases result with
          | error e => exact ⟨hexact, rfl, fun _ _ h => by cases h⟩
          | ok rows =>
              refine ⟨hexact.2, rfl, fun version rows' heq => ?_⟩
              cases heq
              exact ⟨i, p, rfl, hp, rfl, hexact.1⟩

theorem truthful_step (hvalid : c.options.Valid) (hlaws : RowLaws c.kernels) (h : History s)
    (htruthful : Truthful c.kernels s.weightsOf s.cache) (e : Event F S G) :
    Truthful c.kernels (step c s e).weightsOf (step c s e).cache := by
  obtain ⟨hhistory, hkept, -⟩ := history_step c hvalid.versions_pos h e
  cases e with
  | completions r faults =>
      obtain ⟨htruthful', hheap, -⟩ :=
        completions_truthful c hlaws hvalid.limits.chunk_pos h htruthful r faults
      have hweights : (s.completions c r faults).1.weightsOf = s.weightsOf := by
        unfold Server.weightsOf
        rw [hheap]
      exact hweights ▸ htruthful'
  | logprobs r => exact htruthful
  | train r fault =>
      refine htruthful.later hkept hhistory.cached.owned ?_
      rcases train_cases c s r fault with ⟨e, heq⟩ | ⟨-, learner, step, heq, -⟩
      · simp [OnlineRl.step, heq]
      · simp [OnlineRl.step, heq]
  | publish r faults =>
      refine htruthful.later hkept hhistory.cached.owned ?_
      exact (history_publish c hvalid.versions_pos h r faults).2.2

theorem truthful_run (hvalid : c.options.Valid) (hlaws : RowLaws c.kernels) (h : History s)
    (htruthful : Truthful c.kernels s.weightsOf s.cache) (events : List (Event F S G)) :
    History (run c s events) ∧
      Truthful c.kernels (run c s events).weightsOf (run c s events).cache := by
  induction events generalizing s with
  | nil => exact ⟨h, htruthful⟩
  | cons e events ih =>
      obtain ⟨hhistory, -⟩ := history_step c hvalid.versions_pos h e
      exact ih hhistory (truthful_step c hvalid hlaws h htruthful e)

/-- What the server promises of its cache and of the rows it generates. -/
structure Transparent (s : Server W L S G) : Prop where
  cached : ∀ item ∈ s.cache.pool.index.items,
    ∃ (i : Nat) (p : Policy W) (b : Nat), s.heap[i]? = some p ∧ p.version = item.identity ∧
      item.value = some b ∧
      s.cache.heap[b]? = some (afterTokens c.kernels p.weights item.tokens)
  generated : ∀ (r : CompletionsRequest F) (faults : List (Fault (CachedState S G)))
    (version : String) (rows : List (Rollout R F × Nat)),
    (s.completions c r faults).2 = .ok (version, rows) →
      ∃ (i : Nat) (p : Policy W), s.policy r.policyVersion = .ok i ∧ s.heap[i]? = some p ∧
        version = p.version ∧ Answered c.kernels c.options.limits p.weights r rows

/--
After every history of requests, any of them failing: an entry is the state and
the logits after its tokens, and a row is what its prompt gives by itself.
-/
theorem generation_exact (hvalid : c.options.Valid) (hlaws : RowLaws c.kernels)
    {pool : Pool String Token} {capacity memoryLimit entryBytes : Nat}
    (hcreate : Pool.create capacity memoryLimit entryBytes = some pool) (runId : String)
    (learner : L) (startStep : Nat) (events : List (Event F S G)) :
    Transparent c (run c (Server.init c runId learner startStep pool) events) := by
  have hinit : History (Server.init c runId learner startStep pool (S := S) (G := G)) :=
    history_init c hcreate runId learner startStep
  have hempty : Truthful c.kernels
      (Server.init c runId learner startStep pool (S := S) (G := G)).weightsOf
      (Server.init c runId learner startStep pool).cache :=
    ⟨hinit.cached.owned, fun _ _ _ hin => by cases hin⟩
  obtain ⟨h, htruthful⟩ := truthful_run c hvalid hlaws hinit hempty events
  refine ⟨fun item hitem => ?_, fun r faults version rows heq => ?_⟩
  · obtain ⟨b, hb⟩ := htruthful.owned.values item hitem
    obtain ⟨contents, hget, hlast⟩ := htruthful.owned.contents item hitem b hb
    obtain ⟨weights, ⟨i, p, hp, hversion, rfl⟩, rfl⟩ :=
      htruthful.stored _ _ _ (stored_of_lastPut hlast)
    exact ⟨i, p, b, hp, hversion, hb, hget⟩
  · exact (completions_truthful c hlaws hvalid.limits.chunk_pos h htruthful r faults).2.2
      version rows heq

theorem sumKernels_laws : RowLaws sumKernels := by
  constructor
  · intro weights rows
    simp [sumKernels]
  · intro weights state tokens tokens' _ _
    simp [sumKernels, Nat.mul_add, Nat.add_assoc]

theorem generation_exact_sumEvents :
    Transparent sumConfig
      (run sumConfig (Server.init sumConfig "run" 0 0 sumPool) sumEvents) :=
  generation_exact sumConfig sumConfig_valid sumKernels_laws sumPool_create "run" 0 0 sumEvents

end Runs

end OnlineRl
end RwkvLightning

import RwkvLightning.OnlineRl.Rollout
import RwkvLightning.Inference.PrefixCachePoolEffects

/-!
# Rollouts do not depend on the cache

What a row is without the cache and without the other rows is `soloLoop`: the
logits after all tokens so far are sampled, and the stop rules are applied.  A
request with the cache returns the same rows.

**Results.**
* `completions_cache`: which items a request leaves in the cache.
* `completions_exact`: what it stores is what feeding the tokens gives, and what
  it returns is what every row gives by itself.
-/

namespace RwkvLightning
namespace OnlineRl

open PrefixCachePool PrefixCache Command

variable {W S G R F : Type}

section Items

/-- The cache is sound; items and new contents belong to some of the versions. -/
structure Within (versions : List String) (old : List (Record String Token (CachedState S G)))
    (cache : System String Token (CachedState S G)) : Prop where
  owned : cache.Owned []
  items : ∀ item ∈ cache.pool.index.items, item.identity ∈ versions
  stored : ∀ version tokens contents, Record.stored version tokens contents ∈ cache.log →
    Record.stored version tokens contents ∈ old ∨ version ∈ versions

variable (k : Kernels W S G R F) (o : Limits)
variable {versions : List String} {version : String}
variable {old : List (Record String Token (CachedState S G))}

theorem keeps_attempt {I : Work S G → Prop} (hfaults : ∀ w faults, I w → I { w with faults := faults })
    (what : String) : Keeps I (attempt what) := by
  intro w hw
  unfold attempt
  split
  · exact hw
  · exact hfaults _ _ hw
  · exact hfaults _ _ hw

/-- The reader of a hit is gone at the end. -/
theorem owned_dropReader
    {s : System String Token (CachedState S G)} (h : s.Owned []) (i : Nat) :
    System.Owned { s with readers := s.readers.set i none } [] := by
  refine { h with stable := ?_ }
  intro handle hin
  rcases List.mem_or_eq_of_mem_set hin with hin | heq
  · exact h.stable handle hin
  · cases heq

theorem cacheFind_cache (version : String) (tokens : List Token) (w : Work S G)
    (h : w.cache.Owned []) :
    (cacheFind version tokens w).2.cache.Owned [] ∧
      (cacheFind version tokens w).2.cache.pool = (w.cache.find version tokens).1.pool ∧
      (cacheFind version tokens w).2.cache.log = w.cache.log := by
  have howned := owned_find h version tokens
  have hlog := log_find (s := w.cache) version tokens
  unfold cacheFind
  dsimp only
  split
  · exact ⟨howned, rfl, hlog⟩
  · exact ⟨owned_dropReader howned _, rfl, hlog⟩

theorem cachePut_cache (blank : CachedState S G) (version : String) (tokens : List Token)
    (contents : CachedState S G) (w : Work S G) :
    ∃ make fill, (cachePut blank version tokens contents w).2.cache =
        (w.cache.put version tokens make fill).1 ∧
      ∀ stored, fill = .filled stored → stored = contents := by
  refine ⟨makeOutcome blank (w.faults.headD .none),
    fillOutcome contents (w.faults.tail.headD .none), ?_, ?_⟩
  · unfold cachePut
    dsimp only
    split <;> rfl
  · intro stored hfill
    cases hfault : w.faults.tail.headD Fault.none with
    | none =>
        rw [hfault] at hfill
        exact (FillResult.filled.inj hfill).symm
    | throws =>
        rw [hfault] at hfill
        cases hfill
    | throwsAfter partialContents =>
        rw [hfault] at hfill
        cases hfill

theorem within_cacheFind (tokens : List Token) :
    Keeps (fun w => Within versions old w.cache) (cacheFind version tokens) := by
  refine keeps_of_state fun w hw => ?_
  obtain ⟨howned, hpool, hlog⟩ := cacheFind_cache version tokens w hw.owned
  refine ⟨howned, fun item hitem => hw.items item ?_, ?_⟩
  · rw [hpool] at hitem
    exact items_find hw.owned version tokens hitem
  · rw [hlog]
    exact hw.stored

theorem within_cachePut (hversion : version ∈ versions) (blank : CachedState S G)
    (tokens : List Token) (contents : CachedState S G) :
    Keeps (fun w => Within versions old w.cache) (cachePut blank version tokens contents) := by
  refine keeps_of_state fun w hw => ?_
  obtain ⟨make, fill, hcache, -⟩ := cachePut_cache blank version tokens contents w
  rw [hcache]
  refine ⟨owned_put hw.owned version tokens make fill, ?_, ?_⟩
  · intro item hitem
    rcases items_put hw.owned version tokens make fill hitem with hold | hid
    · exact hw.items item hold
    · exact hid ▸ hversion
  · intro version' tokens' contents' hstored
    rcases stored_of_put hw.owned hstored with hold | ⟨rfl, -, -⟩
    · exact hw.stored _ _ _ hold
    · exact Or.inr hversion

theorem within_attempt (what : String) :
    Keeps (fun w => Within versions old w.cache) (attempt what) :=
  keeps_attempt (fun _ _ hw => hw) what

theorem within_prefillChunks (weights : W) (passes : Nat) (tokens : List Token)
    (state : S) (last : G) :
    Keeps (fun w => Within versions old w.cache) (prefillChunks k o weights passes tokens state last) := by
  induction passes generalizing tokens state last with
  | zero => exact Keeps.pure
  | succ passes ih =>
      unfold prefillChunks
      exact Keeps.ite Keeps.pure (Keeps.bind (within_attempt _) fun _ => ih _ _ _)

theorem within_prefillRow {useCache : Bool} (hversion : useCache = true → version ∈ versions)
    (weights : W) (row : Rollout R F) :
    Keeps (fun w => Within versions old w.cache) (prefillRow k o weights version useCache row) := by
  refine Keeps.bind ?_ fun hit => ?_
  · exact Keeps.ite (within_cacheFind _) Keeps.pure
  refine Keeps.bind (within_attempt _) fun _ => ?_
  refine Keeps.bind (within_prefillChunks k o weights _ _ _ _) fun out => ?_
  refine Keeps.when (fun h => within_cachePut (hversion h.2) k.blank _ _) ?_
  exact Keeps.bind (within_attempt _) fun _ => Keeps.pure

theorem within_prefillRows {useCache : Bool} (hversion : useCache = true → version ∈ versions)
    (weights : W) (rows : List (Rollout R F)) :
    Keeps (fun w => Within versions old w.cache) (prefillRows k o weights version useCache rows) := by
  induction rows with
  | nil => exact Keeps.pure
  | cons row rows ih =>
      refine Keeps.bind (within_prefillRow k o hversion weights row) fun _ => ?_
      exact Keeps.bind ih fun _ => Keeps.pure

theorem within_settleRows {useCache : Bool} (hversion : useCache = true → version ∈ versions)
    (rules : StopRules) (rows : List (Row S G R F)) :
    Keeps (fun w => Within versions old w.cache) (settleRows k version useCache rules rows) := by
  induction rows with
  | nil => exact Keeps.pure
  | cons row rows ih =>
      unfold settleRows
      refine Keeps.ite (Keeps.bind ih fun _ => Keeps.pure) ?_
      exact Keeps.when (fun h => within_cachePut (hversion h.2) k.blank _ _)
        (Keeps.bind ih fun _ => Keeps.pure)

theorem within_decodeLoop {useCache : Bool} (hversion : useCache = true → version ∈ versions)
    (weights : W) (rules : StopRules) (temperature : F) (steps : Nat) (rows : List (Row S G R F)) :
    Keeps (fun w => Within versions old w.cache)
      (decodeLoop k weights version useCache rules temperature steps rows) := by
  induction steps generalizing rows with
  | zero => exact Keeps.pure
  | succ steps ih =>
      unfold decodeLoop
      refine Keeps.ite ?_ Keeps.pure
      cases sampleRows k temperature rows with
      | error e => exact Keeps.fail
      | ok sampled =>
          refine Keeps.bind (within_attempt _) fun _ => ?_
          exact Keeps.bind (within_settleRows k hversion rules _) fun _ => ih _

/-- A request leaves no item of another version than its own, and none when it may not. -/
theorem completions_cache {cacheEnabled : Bool}
    (hversion : cacheEnabled = true → version ∈ versions) (weights : W)
    (r : CompletionsRequest F) :
    Keeps (fun w => Within versions old w.cache) (completions k o weights version cacheEnabled r) := by
  unfold completions
  refine Keeps.ite Keeps.fail (Keeps.ite Keeps.fail (Keeps.ite Keeps.fail ?_))
  refine Keeps.read fun w => Keeps.bind (within_attempt _) fun _ => ?_
  have huse : decide (r.useCache = true ∧ cacheEnabled = true ∧ 0 < w.cache.pool.capacity) =
      true → version ∈ versions := fun h => hversion (of_decide_eq_true h).2.1
  refine Keeps.bind (within_prefillRows k o huse weights _) fun rows => ?_
  exact Keeps.bind (within_decodeLoop k huse weights _ _ _ _) fun _ => Keeps.pure

end Items

section Solo

variable (k : Kernels W S G R F) (o : Limits)

/-- The state and the logits after feeding exactly `tokens`. -/
def afterTokens (weights : W) (tokens : List Token) : CachedState S G :=
  let out := k.forward weights (k.reset weights) tokens
  ⟨out.1, out.2⟩

/-- Take over a sampled token, and apply the stop rules. -/
def soloStep (weights : W) (rules : StopRules) (temperature : F) (r : Rollout R F) :
    Except String (Rollout R F) :=
  match k.sample (afterTokens k weights r.tokens).logits temperature r.rng with
  | .error e => .error e
  | .ok ((token, logprob), rng) =>
      .ok (settle k rules
        { r with
          generated := r.generated ++ [token]
          logprobs := r.logprobs ++ [logprob]
          rng := rng })

/-- A row by itself. -/
def soloLoop (weights : W) (rules : StopRules) (temperature : F) :
    Nat → Rollout R F → Except String (Rollout R F)
  | 0, r => .ok r
  | steps + 1, r =>
      if r.active then
        match soloStep k weights rules temperature r with
        | .error e => .error e
        | .ok r => soloLoop weights rules temperature steps r
      else .ok r

/-- Prompt `index` of a request by itself: without the cache and the other rows. -/
def solo (weights : W) (rules : StopRules) (temperature : F)
    (requested seed index : Nat) (prompt : List Token) : Except String (Rollout R F) :=
  let r : Rollout R F := newRollout k o requested seed index prompt
  soloLoop k weights rules temperature r.limit r

variable {k} {weights : W} {rules : StopRules} {temperature : F} {r r' : Rollout R F}

theorem stopped_frame (k : Kernels W S G R F) (rules : StopRules) (r : Rollout R F) :
    (stopped k rules r).2.prompt = r.prompt ∧
      (stopped k rules r).2.generated = r.generated ∧
      (stopped k rules r).2.limit = r.limit ∧ (stopped k rules r).2.active = r.active := by
  unfold stopped
  dsimp only
  split
  · exact ⟨rfl, rfl, rfl, rfl⟩
  · split
    · exact ⟨rfl, rfl, rfl, rfl⟩
    · split <;> exact ⟨rfl, rfl, rfl, rfl⟩

/-- The stop rules change no token, and they end a row at its limit. -/
theorem settle_frame (k : Kernels W S G R F) (rules : StopRules) (r : Rollout R F) :
    (settle k rules r).prompt = r.prompt ∧ (settle k rules r).generated = r.generated ∧
      (settle k rules r).limit = r.limit ∧
      (r.generated.length = r.limit → (settle k rules r).active = false) := by
  obtain ⟨hprompt, hgenerated, hlimit, -⟩ := stopped_frame k rules r
  unfold settle
  rcases hs : stopped k rules r with ⟨stop, s⟩
  rw [hs] at hprompt hgenerated hlimit
  dsimp only at hprompt hgenerated hlimit ⊢
  cases stop with
  | true => simp [hprompt, hgenerated, hlimit]
  | false =>
      simp only [Bool.false_eq_true, if_false, false_or]
      by_cases hend : s.generated.length = s.limit
      · rw [if_pos hend]
        exact ⟨hprompt, hgenerated, hlimit, fun _ => rfl⟩
      · rw [if_neg hend]
        refine ⟨hprompt, hgenerated, hlimit, fun heq => ?_⟩
        rw [hgenerated, hlimit] at hend
        exact absurd heq hend

theorem settle_tokens (r : Rollout R F) : (settle k rules r).tokens = r.tokens := by
  obtain ⟨hprompt, hgenerated, -⟩ := settle_frame k rules r
  rw [Rollout.tokens, hprompt, hgenerated, Rollout.tokens]

/-- A step adds one token, and ends the row at its limit. -/
theorem soloStep_frame (h : soloStep k weights rules temperature r = .ok r') :
    r'.prompt = r.prompt ∧ r'.generated.length = r.generated.length + 1 ∧
      r'.limit = r.limit ∧ (r'.generated.length = r'.limit → r'.active = false) := by
  unfold soloStep at h
  split at h
  · cases h
  · rename_i token logprob rng hsample
    cases h
    obtain ⟨hprompt, hgenerated, hlimit, hend⟩ := settle_frame k rules
      { r with
        generated := r.generated ++ [token]
        logprobs := r.logprobs ++ [logprob]
        rng := rng }
    refine ⟨hprompt, ?_, hlimit, ?_⟩
    · rw [hgenerated]
      simp
    · rw [hgenerated, hlimit]
      exact hend

/-- A row that has ended stays as it is. -/
theorem soloLoop_inactive (h : r.active = false) (steps : Nat) :
    soloLoop k weights rules temperature steps r = .ok r := by
  cases steps with
  | zero => rfl
  | succ steps => simp [soloLoop, h]

theorem soloLoop_active (h : r.active = true) (steps : Nat) :
    soloLoop k weights rules temperature (steps + 1) r =
      (match soloStep k weights rules temperature r with
        | .error e => .error e
        | .ok r => soloLoop k weights rules temperature steps r) := by
  rw [soloLoop, if_pos h]

/-- The other rows of a request decide how long the loop runs, and it does not matter. -/
theorem soloLoop_enough
    (hlimit : r.active = true → r.generated.length < r.limit) {steps : Nat}
    (hsteps : r.limit ≤ r.generated.length + steps) :
    soloLoop k weights rules temperature steps r =
      soloLoop k weights rules temperature (r.limit - r.generated.length) r := by
  induction steps generalizing r with
  | zero =>
      have hzero : r.limit - r.generated.length = 0 := by omega
      rw [hzero]
  | succ steps ih =>
      cases hactive : r.active with
      | false => rw [soloLoop_inactive hactive, soloLoop_inactive hactive]
      | true =>
          have hlt := hlimit hactive
          obtain ⟨n, hn⟩ : ∃ n, r.limit - r.generated.length = n + 1 :=
            ⟨r.limit - r.generated.length - 1, by omega⟩
          rw [hn, soloLoop_active hactive, soloLoop_active hactive]
          cases hstep : soloStep k weights rules temperature r with
          | error e => rfl
          | ok r' =>
              obtain ⟨-, hgenerated, hlimit', hend⟩ := soloStep_frame hstep
              have hrest : r'.limit - r'.generated.length = n := by omega
              dsimp only
              rw [ih (fun hactive' => ?_) (by omega), hrest]
              have hne : r'.generated.length ≠ r'.limit := by
                intro heq
                rw [hend heq] at hactive'
                cases hactive'
              omega

/-- A row keeps its prompt and stays within its limit. -/
theorem soloLoop_bounds
    (hle : r.generated.length ≤ r.limit)
    (hlimit : r.active = true → r.generated.length < r.limit) {steps : Nat}
    (h : soloLoop k weights rules temperature steps r = .ok r') :
    r'.prompt = r.prompt ∧ r'.limit = r.limit ∧ r'.generated.length ≤ r.limit := by
  induction steps generalizing r with
  | zero =>
      cases h
      exact ⟨rfl, rfl, hle⟩
  | succ steps ih =>
      cases hactive : r.active with
      | false =>
          rw [soloLoop_inactive hactive] at h
          cases h
          exact ⟨rfl, rfl, hle⟩
      | true =>
          rw [soloLoop_active hactive] at h
          cases hstep : soloStep k weights rules temperature r with
          | error e =>
              rw [hstep] at h
              cases h
          | ok next =>
              rw [hstep] at h
              obtain ⟨hprompt, hgenerated, hlimit', hend⟩ := soloStep_frame hstep
              have hlt := hlimit hactive
              have hnext : next.active = true → next.generated.length < next.limit := by
                intro hactive'
                have hne : next.generated.length ≠ next.limit := by
                  intro heq
                  rw [hend heq] at hactive'
                  cases hactive'
                omega
              obtain ⟨hp, hl, hg⟩ := ih (by omega) hnext h
              exact ⟨hp.trans hprompt, hl.trans hlimit', hlimit' ▸ hg⟩

end Solo

section Exact

variable (k : Kernels W S G R F) (o : Limits)

/-- Everything stored is what feeding its tokens to the weights of its version gives. -/
structure Truthful (weightsOf : String → W → Prop)
    (cache : System String Token (CachedState S G)) : Prop where
  owned : cache.Owned []
  stored : ∀ version tokens contents, Record.stored version tokens contents ∈ cache.log →
    ∃ weights, weightsOf version weights ∧ contents = afterTokens k weights tokens

/-- The row is where feeding its tokens leads, as long as it is decoded. -/
structure Row.Exact (weights : W) (row : Row S G R F) : Prop where
  prompt_ne : row.rollout.prompt ≠ []
  exact : row.rollout.active = true →
    CachedState.mk row.state row.logits = afterTokens k weights row.rollout.tokens

variable {k o}
variable {weightsOf : String → W → Prop} {version : String} {weights : W}

/-- A miss, or the state after some tokens of the prompt. -/
def HitExact (k : Kernels W S G R F) (weights : W) (tokens : List Token)
    (hit : Option (CachedState S G) × Nat) : Prop :=
  hit = (none, 0) ∨
    ∃ n, 0 < n ∧ n ≤ tokens.length ∧
      hit = (some (afterTokens k weights (tokens.take n)), n)

/-- The rows that can be found under the version are those of its weights. -/
structure Owner (weightsOf : String → W → Prop) (version : String) (weights : W) : Prop where
  mem : weightsOf version weights
  unique : ∀ weights', weightsOf version weights' → weights' = weights

theorem truthful_attempt (what : String) :
    Keeps (fun w : Work S G => Truthful k weightsOf w.cache) (attempt what) :=
  keeps_attempt (fun _ _ hw => ⟨hw.owned, hw.stored⟩) what

theorem truthful_cacheFind (howner : Owner weightsOf version weights) (tokens : List Token) :
    Triple (fun w => Truthful k weightsOf w.cache) (cacheFind version tokens)
      (fun hit w => HitExact k weights tokens hit ∧ Truthful k weightsOf w.cache)
      (fun _ w => Truthful k weightsOf w.cache) := by
  intro w hw
  obtain ⟨howned, -, hlog⟩ := cacheFind_cache version tokens w hw.owned
  have hkept : Truthful k weightsOf (cacheFind version tokens w).2.cache := by
    refine ⟨howned, ?_⟩
    rw [hlog]
    exact hw.stored
  have hcases := find_cases hw.owned version tokens
  unfold cacheFind at hkept ⊢
  dsimp only at hkept ⊢
  rcases hcases with hmiss | ⟨b, contents, n, hhit, hget, hpos, hle, hlast⟩
  · rw [hmiss] at hkept ⊢
    exact ⟨Or.inl rfl, hkept⟩
  · rw [hhit] at hkept ⊢
    refine ⟨Or.inr ⟨n, hpos, hle, ?_⟩, hkept⟩
    obtain ⟨weights', hweights, rfl⟩ := hw.stored _ _ _ (stored_of_lastPut hlast)
    rw [howner.unique weights' hweights] at hget
    exact Prod.ext hget rfl

theorem truthful_cacheLookup (howner : Owner weightsOf version weights) (useCache : Bool)
    (tokens : List Token) :
    Triple (fun w => Truthful k weightsOf w.cache) (cacheLookup version useCache tokens)
      (fun hit w => HitExact k weights tokens hit ∧ Truthful k weightsOf w.cache)
      (fun _ w => Truthful k weightsOf w.cache) := by
  refine triple_ite (fun _ => truthful_cacheFind howner tokens) (fun _ => ?_)
  exact triple_pure fun w hw => ⟨Or.inl rfl, hw⟩

theorem truthful_cachePut (howner : Owner weightsOf version weights)
    (blank : CachedState S G) {tokens : List Token} {contents : CachedState S G}
    (hcontents : contents = afterTokens k weights tokens) :
    Keeps (fun w : Work S G => Truthful k weightsOf w.cache)
      (cachePut blank version tokens contents) := by
  refine keeps_of_state fun w hw => ?_
  obtain ⟨make, fill, hcache, hfill⟩ := cachePut_cache blank version tokens contents w
  refine ⟨hcache ▸ owned_put hw.owned version tokens make fill, ?_⟩
  intro version' tokens' contents' hstored
  rw [hcache] at hstored
  rcases stored_of_put hw.owned hstored with hold | ⟨rfl, rfl, hnew⟩
  · exact hw.stored _ _ _ hold
  · exact ⟨weights, howner.mem, (hfill _ hnew).trans hcontents⟩

/-- Feeding in chunks is feeding at once. -/
theorem truthful_prefillChunks (hlaws : RowLaws k) (hchunk : 0 < o.chunk)
    {passes : Nat} {tokens : List Token} (hpasses : tokens.length ≤ passes) (state : S)
    (last : G) :
    Triple (fun w => Truthful k weightsOf w.cache)
      (prefillChunks k o weights passes tokens state last)
      (fun out w =>
        out = (if tokens = [] then (state, last) else k.forward weights state tokens) ∧
          Truthful k weightsOf w.cache)
      (fun _ w => Truthful k weightsOf w.cache) := by
  induction passes generalizing tokens state last with
  | zero =>
      have hnil : tokens = [] := List.length_eq_zero_iff.mp (by omega)
      exact triple_pure fun w hw => ⟨by rw [if_pos hnil], hw⟩
  | succ passes ih =>
      unfold prefillChunks
      refine triple_ite (fun hnil => ?_) (fun hne => ?_)
      · exact triple_pure fun w hw => ⟨by rw [if_pos hnil], hw⟩
      · refine triple_bind (truthful_attempt _) fun _ => ?_
        have hpos : 0 < tokens.length := List.length_pos_iff.mpr hne
        have hdrop : (tokens.drop o.chunk).length ≤ passes := by
          rw [List.length_drop]
          omega
        have htake : tokens.take o.chunk ≠ [] := by
          rw [← List.length_pos_iff, List.length_take]
          omega
        refine triple_weaken (ih hdrop _ _) (fun _ hw => hw) ?_ (fun _ _ hw => hw)
        rintro out w ⟨hout, hw⟩
        refine ⟨?_, hw⟩
        rw [hout, if_neg hne]
        by_cases hend : tokens.drop o.chunk = []
        · have hall : tokens.take o.chunk = tokens := by
            rw [List.take_of_length_le (List.drop_eq_nil_iff.mp hend)]
          rw [if_pos hend, hall]
        · rw [if_neg hend, ← hlaws.forward_append _ _ _ _ htake hend,
            List.take_append_drop]

/-- The prefill of a row ends after its prompt, wherever it starts. -/
theorem truthful_prefillRow (hlaws : RowLaws k) (hchunk : 0 < o.chunk)
    (howner : Owner weightsOf version weights) (useCache : Bool) {row : Rollout R F}
    (hprompt : row.prompt ≠ []) :
    Triple (fun w => Truthful k weightsOf w.cache)
      (prefillRow k o weights version useCache row)
      (fun row' w =>
        (row'.rollout = row ∧
          CachedState.mk row'.state row'.logits = afterTokens k weights row.prompt) ∧
          Truthful k weightsOf w.cache)
      (fun _ w => Truthful k weightsOf w.cache) := by
  refine triple_bind (truthful_cacheLookup howner useCache row.prompt) fun hit => ?_
  intro w hw
  obtain ⟨hhit, hw⟩ := hw
  revert w
  refine triple_bind (truthful_attempt _) fun _ => ?_
  have hlength : (row.prompt.drop hit.2).length ≤ row.prompt.length := by
    rw [List.length_drop]
    omega
  refine triple_bind (truthful_prefillChunks hlaws hchunk hlength _ _) fun out => ?_
  intro w hw
  obtain ⟨hout, hw⟩ := hw
  have hexact : CachedState.mk out.1 out.2 = afterTokens k weights row.prompt := by
    rw [hout]
    rcases hhit with rfl | ⟨n, hpos, hle, rfl⟩
    · rw [List.drop_zero, if_neg hprompt]
      rfl
    · by_cases hend : row.prompt.drop n = []
      · have hall : row.prompt.take n = row.prompt := by
          rw [List.take_of_length_le (List.drop_eq_nil_iff.mp hend)]
        rw [if_pos hend, hall]
        rfl
      · have htake : row.prompt.take n ≠ [] := by
          rw [← List.length_pos_iff, List.length_take]
          omega
        have happend := hlaws.forward_append weights (k.reset weights) _ _ htake hend
        rw [List.take_append_drop] at happend
        rw [if_neg hend]
        simp only [afterTokens, Option.map_some, Option.getD_some]
        rw [happend]
  revert w
  refine triple_when (fun _ => truthful_cachePut howner k.blank hexact) (fun _ _ hw => hw) ?_
  refine triple_bind (truthful_attempt _) fun _ => ?_
  exact triple_pure fun w hw => ⟨⟨rfl, hexact⟩, hw⟩

theorem truthful_prefillRows (hlaws : RowLaws k) (hchunk : 0 < o.chunk)
    (howner : Owner weightsOf version weights) (useCache : Bool) {rows : List (Rollout R F)}
    (hprompt : ∀ row ∈ rows, row.prompt ≠ []) :
    Triple (fun w => Truthful k weightsOf w.cache)
      (prefillRows k o weights version useCache rows)
      (fun rows' w =>
        List.Forall₂
          (fun row row' => row'.rollout = row ∧
            CachedState.mk row'.state row'.logits = afterTokens k weights row.prompt)
          rows rows' ∧ Truthful k weightsOf w.cache)
      (fun _ w => Truthful k weightsOf w.cache) := by
  induction rows with
  | nil => exact triple_pure fun w hw => ⟨List.Forall₂.nil, hw⟩
  | cons row rows ih =>
      have hrow := truthful_prefillRow hlaws hchunk howner useCache
        (hprompt row List.mem_cons_self)
      refine triple_bind hrow fun row' => ?_
      rintro w ⟨hhead, hw⟩
      revert w
      have hrest := ih fun row hin => hprompt row (List.mem_cons_of_mem _ hin)
      refine triple_bind hrest fun rows' => ?_
      exact triple_pure fun w hw => ⟨List.Forall₂.cons hhead hw.1, hw.2⟩

/-- What `forward` of the decoder does to a row. -/
def Row.stepped (k : Kernels W S G R F) (weights : W) (row : Row S G R F) : Row S G R F :=
  let out := k.forward weights row.state [row.feed]
  { row with state := out.1, logits := out.2 }

/-- What the end of a decoding step does to a row. -/
def Row.settled (k : Kernels W S G R F) (rules : StopRules) (row : Row S G R F) :
    Row S G R F :=
  if row.rollout.active = false then row
  else { row with rollout := settle k rules row.rollout }

theorem forwardRows_eq (hlaws : RowLaws k) (rows : List (Row S G R F)) :
    forwardRows k weights rows = rows.map (Row.stepped k weights) := by
  unfold forwardRows
  rw [hlaws.decode_eq, List.map_map]
  induction rows with
  | nil => rfl
  | cons row rows ih =>
      rw [List.map_cons, List.zipWith_cons_cons, ih, List.map_cons]
      rfl

theorem sampleRows_forall₂ {temperature : F} {rows sampled : List (Row S G R F)}
    (h : sampleRows k temperature rows = .ok sampled) :
    List.Forall₂ (fun row row' => sampleRow k temperature row = .ok row') rows sampled := by
  induction rows generalizing sampled with
  | nil =>
      cases h
      exact List.Forall₂.nil
  | cons row rows ih =>
      simp only [sampleRows] at h
      cases hrow : sampleRow k temperature row with
      | error e =>
          rw [hrow] at h
          cases h
      | ok row' =>
          cases hrows : sampleRows k temperature rows with
          | error e =>
              rw [hrow, hrows] at h
              cases h
          | ok rows' =>
              rw [hrow, hrows] at h
              cases h
              exact List.Forall₂.cons hrow (ih hrows)

theorem truthful_settleRows (howner : Owner weightsOf version weights) (useCache : Bool)
    (rules : StopRules) {rows : List (Row S G R F)} (hexact : ∀ row ∈ rows, row.Exact k weights) :
    Triple (fun w => Truthful k weightsOf w.cache)
      (settleRows k version useCache rules rows)
      (fun rows' w => rows' = rows.map (Row.settled k rules) ∧ Truthful k weightsOf w.cache)
      (fun _ w => Truthful k weightsOf w.cache) := by
  induction rows with
  | nil => exact triple_pure fun w hw => ⟨rfl, hw⟩
  | cons row rows ih =>
      have hrest := ih fun row hin => hexact row (List.mem_cons_of_mem _ hin)
      have hrow := hexact row List.mem_cons_self
      unfold settleRows
      refine triple_ite (fun hended => ?_) (fun hactive => ?_)
      · refine triple_bind hrest fun rows' => ?_
        refine triple_pure fun w hw => ⟨?_, hw.2⟩
        rw [hw.1, List.map_cons, Row.settled, if_pos hended]
      · have hput : CachedState.mk row.state row.logits =
            afterTokens k weights (settle k rules row.rollout).tokens := by
          rw [settle_tokens]
          exact hrow.exact (by simpa using hactive)
        refine triple_when (fun _ => truthful_cachePut howner k.blank hput)
          (fun _ _ hw => hw) ?_
        refine triple_bind hrest fun rows' => ?_
        refine triple_pure fun w hw => ⟨?_, hw.2⟩
        rw [hw.1, List.map_cons, Row.settled, if_neg hactive]

/-- The stop rules change neither the state nor the tokens. -/
theorem Row.Exact.settled {row : Row S G R F} (h : row.Exact k weights) (rules : StopRules) :
    (row.settled k rules).Exact k weights := by
  unfold Row.settled
  by_cases hended : row.rollout.active = false
  · rw [if_pos hended]
    exact h
  · rw [if_neg hended]
    refine ⟨?_, fun _ => ?_⟩
    · rw [(settle_frame k rules row.rollout).1]
      exact h.prompt_ne
    · rw [settle_tokens]
      exact h.exact (by simpa using hended)

/-- Two relations between lists of rows, one after the other. -/
theorem forall₂_comp {α β γ : Type} {p : α → β → Prop} {q : β → γ → Prop}
    {r : α → γ → Prop} (h : ∀ a b c, p a b → q b c → r a c)
    {l : List α} {m : List β} {n : List γ} (hp : List.Forall₂ p l m)
    (hq : List.Forall₂ q m n) : List.Forall₂ r l n := by
  induction hp generalizing n with
  | nil =>
      cases hq
      exact List.Forall₂.nil
  | cons hhead _ ih =>
      cases hq with
      | cons hhead' htail' => exact List.Forall₂.cons (h _ _ _ hhead hhead') (ih htail')

theorem getElem?_of_forall₂ {α β : Type} {p : α → β → Prop} {l : List α} {m : List β}
    (h : List.Forall₂ p l m) {i : Nat} {a : α} (ha : l[i]? = some a) :
    ∃ b, m[i]? = some b ∧ p a b := by
  induction h generalizing i with
  | nil => simp at ha
  | cons hhead _ ih =>
      cases i with
      | zero =>
          obtain rfl : _ = a := by simpa using ha
          exact ⟨_, rfl, hhead⟩
      | succ i => simpa using ih (by simpa using ha)

theorem forall_of_forall₂ {α β : Type} {p : β → Prop} {l : List α} {m : List β}
    (h : List.Forall₂ (fun _ b => p b) l m) : ∀ b ∈ m, p b := by
  induction h with
  | nil => simp
  | cons hhead _ ih => exact List.forall_mem_cons.mpr ⟨hhead, ih⟩

/-- One pass of the decoding loop for one row. -/
theorem row_advance (hlaws : RowLaws k) {rules : StopRules} {temperature : F}
    {row sampled : Row S G R F} (hexact : row.Exact k weights)
    (hsample : sampleRow k temperature row = .ok sampled) (steps : Nat) :
    (sampled.stepped k weights).Exact k weights ∧
      soloLoop k weights rules temperature (steps + 1) row.rollout =
        soloLoop k weights rules temperature steps
          ((sampled.stepped k weights).settled k rules).rollout := by
  unfold sampleRow at hsample
  cases hactive : row.rollout.active with
  | false =>
      rw [hactive] at hsample
      cases hsample
      have hended : (row.stepped k weights).rollout.active = false := hactive
      refine ⟨⟨hexact.prompt_ne, fun h => absurd h (by rw [hended]; decide)⟩, ?_⟩
      rw [Row.settled, if_pos hended, soloLoop_inactive hactive]
      exact (soloLoop_inactive hactive steps).symm
  | true =>
      have hstate := hexact.exact hactive
      rw [hactive, if_pos rfl] at hsample
      split at hsample
      · cases hsample
      · rename_i token logprob rng hdraw
        cases hsample
        have hne : row.rollout.tokens ≠ [] := by
          simp [Rollout.tokens, hexact.prompt_ne]
        have hsamestate : row.state = (afterTokens k weights row.rollout.tokens).state :=
          congrArg CachedState.state hstate
        have hsamelogits : row.logits = (afterTokens k weights row.rollout.tokens).logits :=
          congrArg CachedState.logits hstate
        have hnext : k.forward weights row.state [token] =
            k.forward weights (k.reset weights) (row.rollout.tokens ++ [token]) := by
          rw [hlaws.forward_append _ _ _ _ hne (by simp), hsamestate]
          rfl
        refine ⟨⟨hexact.prompt_ne, fun _ => ?_⟩, ?_⟩
        · simp only [Row.stepped, hnext, afterTokens, Rollout.tokens, List.append_assoc]
        · rw [soloLoop_active hactive, soloStep, ← hsamelogits, hdraw, Row.settled,
            if_neg (by simpa [Row.stepped] using hactive)]
          rfl

/-- The decoding loop takes every row where it comes by itself. -/
theorem truthful_decodeLoop (hlaws : RowLaws k) (howner : Owner weightsOf version weights)
    (useCache : Bool) (rules : StopRules) (temperature : F) (steps : Nat)
    {rows : List (Row S G R F)} (hexact : ∀ row ∈ rows, row.Exact k weights) :
    Triple (fun w => Truthful k weightsOf w.cache)
      (decodeLoop k weights version useCache rules temperature steps rows)
      (fun rows' w =>
        List.Forall₂
          (fun row row' =>
            soloLoop k weights rules temperature steps row.rollout = .ok row'.rollout)
          rows rows' ∧ Truthful k weightsOf w.cache)
      (fun _ w => Truthful k weightsOf w.cache) := by
  induction steps generalizing rows with
  | zero => exact triple_pure fun w hw => ⟨List.forall₂_same.mpr fun _ _ => rfl, hw⟩
  | succ steps ih =>
      unfold decodeLoop
      refine triple_ite (fun _ => ?_) (fun hended => ?_)
      · cases hsample : sampleRows k temperature rows with
        | error e => exact triple_fail fun w hw => hw
        | ok sampled =>
            have hforall := sampleRows_forall₂ hsample
            have hadvance : List.Forall₂
                (fun row row' => (row'.stepped k weights).Exact k weights ∧
                  soloLoop k weights rules temperature (steps + 1) row.rollout =
                    soloLoop k weights rules temperature steps
                      ((row'.stepped k weights).settled k rules).rollout) rows sampled := by
              refine ((List.forall₂_and_left _ _).mpr ⟨hexact, hforall⟩).imp ?_
              rintro row row' ⟨hrow, hdraw⟩
              exact row_advance hlaws hrow hdraw steps
            have hstepped : ∀ row ∈ forwardRows k weights sampled, row.Exact k weights := by
              rw [forwardRows_eq hlaws]
              intro row hin
              obtain ⟨before, hbefore, rfl⟩ := List.mem_map.mp hin
              exact forall_of_forall₂ (hadvance.imp fun _ _ h => h.1) before hbefore
            refine triple_bind (truthful_attempt _) fun _ => ?_
            refine triple_bind (truthful_settleRows howner useCache rules hstepped)
              fun settled => ?_
            rintro w ⟨rfl, hw⟩
            have hsettled : ∀ row ∈ (forwardRows k weights sampled).map (Row.settled k rules),
                row.Exact k weights := by
              intro row hin
              obtain ⟨before, hbefore, rfl⟩ := List.mem_map.mp hin
              exact (hstepped before hbefore).settled rules
            refine triple_weaken (ih hsettled) (fun _ hw => hw) ?_ (fun _ _ hw => hw) w hw
            rintro rows' w ⟨hrest, hw⟩
            rw [forwardRows_eq hlaws, List.map_map, List.forall₂_map_left_iff] at hrest
            refine ⟨forall₂_comp ?_ hadvance hrest, hw⟩
            rintro row row' out ⟨-, heq⟩ hout
            exact heq.trans hout
      · refine triple_pure fun w hw => ⟨List.forall₂_same.mpr fun row hin => ?_, hw⟩
        have hinactive : row.rollout.active = false := by
          simpa using List.any_eq_false.mp (by simpa using hended) row hin
        exact soloLoop_inactive hinactive _

/-- What a request returns: what every prompt gives by itself, within its limits. -/
def Answered (k : Kernels W S G R F) (o : Limits) (weights : W) (r : CompletionsRequest F)
    (rows : List (Rollout R F × Nat)) : Prop :=
  rows.length = r.prompts.length ∧
    ∀ i prompt, r.prompts[i]? = some prompt →
      ∃ rollout cached, rows[i]? = some (rollout, cached) ∧
        solo k o weights r.rules r.temperature (r.maxTokens.getD o.maxTokens).toNat r.seed i
          prompt = .ok rollout ∧
        rollout.prompt = prompt ∧ rollout.tokens.length ≤ o.ctx ∧
        rollout.generated.length ≤ (r.maxTokens.getD o.maxTokens).toNat

theorem le_foldl_max (l : List Nat) (start : Nat) :
    start ≤ l.foldl max start ∧ ∀ n ∈ l, n ≤ l.foldl max start := by
  induction l generalizing start with
  | nil => simp
  | cons m l ih =>
      obtain ⟨hstart, hall⟩ := ih (max start m)
      rw [List.foldl_cons]
      refine ⟨by omega, List.forall_mem_cons.mpr ⟨by omega, hall⟩⟩

/-- The rollouts that come out of the loop, prompt by prompt. -/
theorem answered_of_soloLoop {r : CompletionsRequest F} {steps : Nat}
    {rows : List (Row S G R F)}
    (hvalid : ∀ prompt ∈ r.prompts, tokensValid o o.ctx prompt = true)
    (hsteps : ∀ rollout ∈ newRollouts k o (r.maxTokens.getD o.maxTokens).toNat r.seed r.prompts,
      Rollout.limit (F := F) rollout ≤ steps)
    (h : List.Forall₂
      (fun rollout row =>
        soloLoop k weights r.rules r.temperature steps rollout = .ok row.rollout)
      (newRollouts k o (r.maxTokens.getD o.maxTokens).toNat r.seed r.prompts) rows) :
    Answered k o weights r (rows.map (fun row => (row.rollout, row.cached))) := by
  have hlength := h.length_eq
  rw [newRollouts, List.length_mapIdx] at hlength
  refine ⟨by rw [List.length_map, hlength], fun i prompt hprompt => ?_⟩
  let start : Rollout R F := newRollout k o (r.maxTokens.getD o.maxTokens).toNat r.seed i prompt
  have hstart : (newRollouts k o (r.maxTokens.getD o.maxTokens).toNat r.seed r.prompts)[i]? =
      some start := by
    rw [newRollouts, List.getElem?_mapIdx, hprompt]
    rfl
  obtain ⟨row, hrow, hloop⟩ := getElem?_of_forall₂ h hstart
  have hle := hsteps start (List.mem_of_getElem? hstart)
  have hactive : start.active = true → start.generated.length < start.limit := by
    intro h
    exact of_decide_eq_true h
  have hsolo : solo k o weights r.rules r.temperature (r.maxTokens.getD o.maxTokens).toNat
      r.seed i prompt = .ok row.rollout := by
    have henough : soloLoop k weights r.rules r.temperature steps start =
        soloLoop k weights r.rules r.temperature start.limit start :=
      soloLoop_enough hactive (by simpa [start, newRollout] using hle)
    exact henough.symm.trans hloop
  obtain ⟨hp, hl, hg⟩ := soloLoop_bounds (Nat.zero_le _) hactive hloop
  have hctx : prompt.length ≤ o.ctx := by
    have hok := hvalid prompt (List.mem_of_getElem? hprompt)
    simp only [tokensValid, decide_eq_true_eq] at hok
    exact hok.2.1
  have hlimit : start.limit = min (r.maxTokens.getD o.maxTokens).toNat
      (o.ctx - prompt.length) := rfl
  have hprompt' : row.rollout.prompt = prompt := hp
  refine ⟨row.rollout, row.cached, by rw [List.getElem?_map, hrow]; rfl, hsolo, hprompt',
    ?_, by omega⟩
  rw [Rollout.tokens, List.length_append, hprompt']
  omega

/--
A request with the cache stores only what feeding the tokens gives, and returns
what every prompt gives by itself.
-/
theorem completions_exact (hlaws : RowLaws k) (hchunk : 0 < o.chunk)
    (howner : Owner weightsOf version weights) (cacheEnabled : Bool)
    (r : CompletionsRequest F) :
    Triple (fun w => Truthful k weightsOf w.cache)
      (completions k o weights version cacheEnabled r)
      (fun rows w => Answered k o weights r rows ∧ Truthful k weightsOf w.cache)
      (fun _ w => Truthful k weightsOf w.cache) := by
  unfold completions
  refine triple_ite (fun _ => triple_fail fun w hw => hw) (fun _ => ?_)
  refine triple_ite (fun _ => triple_fail fun w hw => hw) (fun _ => ?_)
  refine triple_ite (fun _ => triple_fail fun w hw => hw) (fun hvalid => ?_)
  rw [not_not] at hvalid
  refine triple_read fun w₀ hw₀ => ?_
  refine triple_weaken ?_ (fun w hw => hw ▸ hw₀) (fun _ _ hw => hw) (fun _ _ hw => hw)
  refine triple_bind (truthful_attempt _) fun _ => ?_
  have hfresh : ∀ rollout ∈ newRollouts k o (r.maxTokens.getD o.maxTokens).toNat r.seed
      r.prompts, Rollout.prompt (F := F) rollout ≠ [] ∧ rollout.generated = [] := by
    intro rollout hin
    obtain ⟨i, hi, rfl⟩ := List.mem_mapIdx.mp hin
    have hok := hvalid _ (List.getElem_mem hi)
    simp only [tokensValid, decide_eq_true_eq] at hok
    exact ⟨hok.1, rfl⟩
  refine triple_bind (truthful_prefillRows hlaws hchunk howner _
    fun rollout hin => (hfresh rollout hin).1) fun rows => ?_
  rintro w ⟨hrows, hw⟩
  revert w
  have hexact : ∀ row ∈ rows, row.Exact k weights := by
    refine forall_of_forall₂ (((List.forall₂_and_left _ _).mpr ⟨hfresh, hrows⟩).imp ?_)
    rintro rollout row ⟨⟨hne, hempty⟩, rfl, hstate⟩
    refine ⟨hne, fun _ => ?_⟩
    rw [Rollout.tokens, hempty, List.append_nil]
    exact hstate
  refine triple_bind (truthful_decodeLoop hlaws howner _ _ _ _ hexact) fun out => ?_
  refine triple_pure fun w hw => ?_
  have hloop : List.Forall₂
      (fun rollout row => soloLoop k weights r.rules r.temperature
        (((newRollouts k o (r.maxTokens.getD o.maxTokens).toNat r.seed r.prompts).map
          Rollout.limit).foldl max 0) rollout = .ok (Row.rollout row))
      (newRollouts k o (r.maxTokens.getD o.maxTokens).toNat r.seed r.prompts) out := by
    refine forall₂_comp ?_ hrows hw.1
    rintro rollout row row' ⟨rfl, -⟩ hloop
    exact hloop
  refine ⟨answered_of_soloLoop hvalid ?_ hloop, hw.2⟩
  exact fun rollout hin => (le_foldl_max _ 0).2 _ (List.mem_map_of_mem hin)

end Exact

end OnlineRl
end RwkvLightning

import RwkvLightning.OnlineRl.Server
import RwkvLightning.OnlineRl.RolloutExact

/-!
# The history of the policies

Policies are published one after the other and retired in the same order, so the
retained ones are the last ones published.  `History` is the invariant between
two requests.

**Results.**
* `history_step`, `history_run`: the invariant holds in every state reached.
* `policies_kept`: no request changes what was published.
* `policy_history`: the guarantees of the server, for every run.
-/

namespace RwkvLightning
namespace OnlineRl

open PrefixCachePool PrefixCache Command

variable {W L S G R F : Type}

theorem versionName_injective (runId : String) : Function.Injective (versionName runId) := by
  intro m n h
  exact Nat.repr_injective (String.append_right_inj _ |>.mp h)

/-- What is published of a policy; its export may come later. -/
def Policy.published (p : Policy W) : Policy W :=
  { p with directory := none }

/-- The versions of the retained policies. -/
def Server.retained (s : Server W L S G) : List String :=
  s.policies.filterMap (fun i => s.heap[i]?.map Policy.version)

/-- The versions in the order in which they were published. -/
def VersionsBelow (s : Server W L S G) (bound : Nat) : Prop :=
  ∃ ns : List Nat, ns.Pairwise (· < ·) ∧ (∀ n ∈ ns, n < bound) ∧
    s.heap.map Policy.version = ns.map (versionName s.runId)

/-- The policies between two requests. -/
structure History (s : Server W L S G) : Prop where
  versions : VersionsBelow s (s.version + 1)
  retained : ∃ k m, s.heap.length = k + m + 1 ∧ s.policies = List.range' k (m + 1)
  newest_step : ∃ p, s.heap.getLast? = some p ∧ p.step ≤ s.step ∧ s.step ≤ p.step + 1
  enabled : ∀ i p, s.heap[i]? = some p → (p.cacheEnabled = true ↔ i ∈ s.policies)
  cached : Within s.retained s.cache.log s.cache

section Facts

variable {s : Server W L S G}

theorem History.newest_eq (h : History s) : s.newest + 1 = s.heap.length := by
  obtain ⟨k, m, hlength, hpolicies⟩ := h.retained
  simp [Server.newest, hpolicies, List.range'_concat, hlength]

theorem History.newest_mem (h : History s) : s.newest ∈ s.policies := by
  obtain ⟨k, m, hlength, hpolicies⟩ := h.retained
  have hnewest := h.newest_eq
  rw [hpolicies, List.mem_range'_1]
  omega

theorem History.lt_length (h : History s) {i : Nat} (hi : i ∈ s.policies) :
    i < s.heap.length := by
  obtain ⟨k, m, hlength, hpolicies⟩ := h.retained
  rw [hpolicies, List.mem_range'_1] at hi
  omega

theorem History.nodup (h : History s) : (s.heap.map Policy.version).Nodup := by
  obtain ⟨ns, hlt, -, heq⟩ := h.versions
  rw [heq, List.nodup_map_iff (versionName_injective s.runId)]
  exact hlt.imp fun hlt => Nat.ne_of_lt hlt

theorem History.newest_policy (h : History s) :
    ∃ p, s.heap[s.newest]? = some p ∧ p.step ≤ s.step ∧ s.step ≤ p.step + 1 := by
  obtain ⟨p, hlast, hstep⟩ := h.newest_step
  refine ⟨p, ?_, hstep⟩
  rw [List.getLast?_eq_getElem?] at hlast
  rw [← hlast]
  congr 1
  have hnewest := h.newest_eq
  omega

/-- Two policies of one version are one policy. -/
theorem History.index_eq (h : History s) {i j : Nat} {p q : Policy W}
    (hi : s.heap[i]? = some p) (hj : s.heap[j]? = some q) (hversion : p.version = q.version) :
    i = j := by
  have hlt : i < (s.heap.map Policy.version).length := by
    rw [List.length_map]
    exact (List.getElem?_eq_some_iff.mp hi).1
  refine (List.getElem?_inj hlt h.nodup).mp ?_
  simp [hi, hj, hversion]

theorem mem_retained {version : String} :
    version ∈ s.retained ↔ ∃ i ∈ s.policies, ∃ p, s.heap[i]? = some p ∧ p.version = version := by
  simp [Server.retained]

/-- The version of a policy is retained only with the policy. -/
theorem History.mem_retained_iff (h : History s) {i : Nat} {p : Policy W}
    (hp : s.heap[i]? = some p) : p.version ∈ s.retained ↔ i ∈ s.policies := by
  rw [mem_retained]
  constructor
  · rintro ⟨j, hj, q, hq, hversion⟩
    exact h.index_eq hq hp hversion ▸ hj
  · exact fun hi => ⟨i, hi, p, hp, rfl⟩

/-- The policy that a request names. -/
theorem policy_cases {version : Option String} {i : Nat} (h : s.policy version = .ok i) :
    (i ∈ s.policies ∨ i = s.reference ∨ (version = none ∧ i = s.newest)) ∧
      ∀ named, version = some named → s.heap[i]?.map Policy.version = some named := by
  cases version with
  | none =>
      cases h
      exact ⟨Or.inr (Or.inr ⟨rfl, rfl⟩), fun named hnamed => by cases hnamed⟩
  | some named =>
      simp only [Server.policy] at h
      split at h
      · rename_i j hfind
        cases h
        have hprop := List.find?_some hfind
        refine ⟨Or.inl (List.mem_of_find?_eq_some hfind), fun named' hnamed => ?_⟩
        cases hnamed
        simpa using hprop
      · split at h
        · rename_i href
          cases h
          refine ⟨Or.inr (Or.inl rfl), fun named' hnamed => ?_⟩
          cases hnamed
          simpa using href
        · cases h

end Facts

section Steps

variable (c : Config W L S G R F) {s s' : Server W L S G}

/-- Nothing of the history is different; exports may be. -/
structure SameHistory (s s' : Server W L S G) : Prop where
  runId : s'.runId = s.runId
  learner : s'.learner = s.learner
  step : s'.step = s.step
  version : s'.version = s.version
  policies : s'.policies = s.policies
  reference : s'.reference = s.reference
  cache : s'.cache = s.cache
  heap : s'.heap.map Policy.published = s.heap.map Policy.published

theorem SameHistory.refl (s : Server W L S G) : SameHistory s s :=
  ⟨rfl, rfl, rfl, rfl, rfl, rfl, rfl, rfl⟩

theorem SameHistory.trans {s₁ s₂ s₃ : Server W L S G} (h : SameHistory s₁ s₂)
    (h' : SameHistory s₂ s₃) : SameHistory s₁ s₃ :=
  ⟨h'.runId.trans h.runId, h'.learner.trans h.learner, h'.step.trans h.step,
    h'.version.trans h.version, h'.policies.trans h.policies,
    h'.reference.trans h.reference, h'.cache.trans h.cache, h'.heap.trans h.heap⟩

/-- A policy and what it was before. -/
theorem SameHistory.policy (h : SameHistory s s') {i : Nat} {p' : Policy W}
    (hp : s'.heap[i]? = some p') :
    ∃ p, s.heap[i]? = some p ∧ p'.published = p.published := by
  have hget := congrArg (fun l => l[i]?) h.heap
  simp only [List.getElem?_map, hp, Option.map_some] at hget
  obtain ⟨p, hp, heq⟩ := Option.map_eq_some_iff.mp hget.symm
  exact ⟨p, hp, heq.symm⟩

theorem SameHistory.symm (h : SameHistory s s') : SameHistory s' s :=
  ⟨h.runId.symm, h.learner.symm, h.step.symm, h.version.symm, h.policies.symm,
    h.reference.symm, h.cache.symm, h.heap.symm⟩

/-- A function of what is published has the same values. -/
theorem SameHistory.map_heap {α : Type} (h : SameHistory s s') {f : Policy W → α}
    (hf : ∀ p, f p.published = f p) : s'.heap.map f = s.heap.map f := by
  have hcomp : f ∘ Policy.published = f := funext hf
  have heq := congrArg (List.map f) h.heap
  rwa [List.map_map, List.map_map, hcomp] at heq

theorem sameHistory_setSlot (s : Server W L S G) (slot : Slot W L) :
    SameHistory s (s.setSlot slot) :=
  ⟨rfl, rfl, rfl, rfl, rfl, rfl, rfl, rfl⟩

theorem map_modify_eq {α : Type} {f : Policy W → α} {g : Policy W → Policy W}
    (h : ∀ p, f (g p) = f p) (heap : List (Policy W)) (i : Nat) :
    (heap.modify i g).map f = heap.map f := by
  refine List.ext_getElem? fun j => ?_
  rw [List.getElem?_map, List.getElem?_map, List.getElem?_modify]
  cases heap[j]? with
  | none => rfl
  | some p =>
      by_cases hij : i = j
      · simp [hij, h]
      · simp [hij]

/-- What is published by a target. -/
def Target.Same : Target W → Target W → Prop
  | .existing i, .existing j => i = j
  | .fresh p, .fresh q => p.published = q.published
  | _, _ => False

theorem sameHistory_setDirectory (s : Server W L S G) (directory : String) (target : Target W) :
    SameHistory s (s.setDirectory directory target).1 ∧
      Target.Same target (s.setDirectory directory target).2 := by
  cases target with
  | existing i =>
      have hheap : (s.heap.modify i (fun p => { p with directory := some directory })).map
          Policy.published = s.heap.map Policy.published :=
        map_modify_eq (by intro p; rfl) _ _
      exact ⟨⟨rfl, rfl, rfl, rfl, rfl, rfl, rfl, hheap⟩, rfl⟩
  | fresh p => exact ⟨SameHistory.refl s, rfl⟩

theorem Target.same_refl (target : Target W) : Target.Same target target := by
  cases target <;> rfl

/-- An export changes files and a directory. -/
theorem sameHistory_exportPolicy (s : Server W L S G) (target : Target W)
    (faults : List PublishSite) :
    SameHistory s (s.exportPolicy c target faults).1 ∧
      ∀ target', (s.exportPolicy c target faults).2 = .ok target' →
        Target.Same target target' := by
  unfold Server.exportPolicy
  dsimp only
  split
  · exact ⟨SameHistory.refl s, fun _ h => by cases h⟩
  · split
    · exact ⟨SameHistory.refl s, fun _ h => by cases h⟩
    · split
      · exact ⟨sameHistory_setSlot s _, fun _ h => by cases h⟩
      · obtain ⟨hsame, htarget⟩ := sameHistory_setDirectory
          (s.setSlot { s.files s.step with
            exported := some
              { weights := c.learner.snapshot s.learner, version := s.versionOf target,
                step := s.step } })
          (Server.exportDir c (s.setSlot { s.files s.step with
            exported := some
              { weights := c.learner.snapshot s.learner, version := s.versionOf target,
                step := s.step } })) target
        refine ⟨(sameHistory_setSlot s _).trans hsame, fun target' h => ?_⟩
        cases h
        exact htarget

theorem sameHistory_saveTraining (s : Server W L S G) (faults : List PublishSite) :
    SameHistory s (s.saveTraining c faults).1 := by
  unfold Server.saveTraining
  dsimp only
  split
  · exact SameHistory.refl s
  · split
    · exact SameHistory.refl s
    · split
      · exact SameHistory.refl s
      · split
        · exact sameHistory_setSlot s _
        · exact sameHistory_setSlot s _

theorem sameHistory_saveExport (s : Server W L S G) (target : Target W) (r : PublishRequest)
    (faults : List PublishSite) :
    SameHistory s (s.saveExport c target r faults).1 ∧
      ∀ target', (s.saveExport c target r faults).2 = .ok target' →
        Target.Same target target' := by
  unfold Server.saveExport
  split
  · exact sameHistory_exportPolicy c s target faults
  · refine ⟨SameHistory.refl s, fun target' h => ?_⟩
    cases h
    exact target.same_refl

theorem sameHistory_saveCheckpoint (s : Server W L S G) (r : PublishRequest)
    (faults : List PublishSite) : SameHistory s (s.saveCheckpoint c r faults).1 := by
  unfold Server.saveCheckpoint
  split
  · exact sameHistory_saveTraining c s faults
  · exact SameHistory.refl s

/-- The files of a publish are written before anything is published. -/
theorem sameHistory_saveAll (s : Server W L S G) (target : Target W) (r : PublishRequest)
    (faults : List PublishSite) :
    SameHistory s (s.saveAll c target r faults).1 ∧
      ∀ target', (s.saveAll c target r faults).2 = .ok target' →
        Target.Same target target' := by
  obtain ⟨hsame, htarget⟩ := sameHistory_saveExport c s target r faults
  unfold Server.saveAll
  rcases hexport : s.saveExport c target r faults with ⟨s₁, result⟩
  rw [hexport] at hsame htarget
  cases result with
  | error e => exact ⟨hsame, fun _ h => by cases h⟩
  | ok target₁ =>
      have hcheckpoint := sameHistory_saveCheckpoint c s₁ r faults
      dsimp only
      rcases hsaved : s₁.saveCheckpoint c r faults with ⟨s₂, result⟩
      rw [hsaved] at hcheckpoint
      cases result with
      | error e => exact ⟨hsame.trans hcheckpoint, fun _ h => by cases h⟩
      | ok _ =>
          refine ⟨hsame.trans hcheckpoint, fun target' h => ?_⟩
          cases h
          exact htarget _ rfl

theorem VersionsBelow.same {bound : Nat} (h : VersionsBelow s bound) (hs : SameHistory s s') :
    VersionsBelow s' bound := by
  obtain ⟨ns, hlt, hbound, heq⟩ := h
  refine ⟨ns, hlt, hbound, ?_⟩
  rw [hs.map_heap fun _ => rfl, hs.runId, heq]

theorem retained_same (hs : SameHistory s s') : s'.retained = s.retained := by
  have hversions : s'.heap.map Policy.version = s.heap.map Policy.version :=
    hs.map_heap fun _ => rfl
  unfold Server.retained
  rw [hs.policies]
  refine List.filterMap_congr fun i _ => ?_
  rw [← List.getElem?_map, ← List.getElem?_map, hversions]

theorem History.same (h : History s) (hs : SameHistory s s') : History s' := by
  have hlength : s'.heap.length = s.heap.length := by
    simpa using congrArg List.length hs.heap
  refine
    { versions := ?_
      retained := ?_
      newest_step := ?_
      enabled := ?_
      cached := ?_ }
  · rw [hs.version]
    exact h.versions.same hs
  · rw [hlength, hs.policies]
    exact h.retained
  · obtain ⟨p, hlast, hstep⟩ := h.newest_step
    have hsteps : s'.heap.map Policy.step = s.heap.map Policy.step := hs.map_heap fun _ => rfl
    have hget := congrArg List.getLast? hsteps
    rw [List.getLast?_map, List.getLast?_map, hlast] at hget
    obtain ⟨p', hp', heq⟩ := Option.map_eq_some_iff.mp hget
    refine ⟨p', hp', ?_⟩
    rw [heq, hs.step]
    exact hstep
  · intro i p' hp'
    obtain ⟨p, hp, heq⟩ := hs.policy hp'
    have henabled : p'.published.cacheEnabled = p.published.cacheEnabled :=
      congrArg Policy.cacheEnabled heq
    rw [hs.policies, ← h.enabled i p hp]
    exact Bool.eq_iff_iff.mp henabled
  · rw [retained_same hs, hs.cache]
    exact h.cached

/-- A version that is used up, and never published. -/
theorem History.bump (h : History s) : History { s with version := s.version + 1 } := by
  obtain ⟨ns, hlt, hbound, heq⟩ := h.versions
  refine { h with versions := ⟨ns, hlt, fun n hn => ?_, heq⟩ }
  have hlt := hbound n hn
  show n < s.version + 1 + 1
  omega

/-- A new policy behind the others. -/
def Server.push (s : Server W L S G) (policy : Policy W) : Server W L S G :=
  { s with heap := s.heap ++ [policy], policies := s.policies ++ [s.heap.length] }

theorem retained_push (h : History s) (policy : Policy W) :
    (s.push policy).retained = s.retained ++ [policy.version] := by
  unfold Server.retained Server.push
  rw [List.filterMap_append]
  congr 1
  · refine List.filterMap_congr fun i hi => ?_
    dsimp only
    rw [List.getElem?_append_left (h.lt_length hi)]
  · simp

theorem History.push (h : History s) (hversions : VersionsBelow s s.version)
    {policy : Policy W} (hversion : policy.version = versionName s.runId s.version)
    (hstep : policy.step = s.step) (henabled : policy.cacheEnabled = true) :
    History (s.push policy) := by
  refine
    { versions := ?_
      retained := ?_
      newest_step := ?_
      enabled := ?_
      cached := ?_ }
  · obtain ⟨ns, hlt, hbound, heq⟩ := hversions
    refine ⟨ns ++ [s.version], ?_, ?_, ?_⟩
    · rw [List.pairwise_append]
      refine ⟨hlt, List.pairwise_singleton _ _, fun n hn m hm => ?_⟩
      rw [List.mem_singleton] at hm
      exact hm ▸ hbound n hn
    · intro n hn
      show n < s.version + 1
      rcases List.mem_append.mp hn with hn | hn
      · have hlt := hbound n hn
        omega
      · rw [List.mem_singleton] at hn
        omega
    · simp only [Server.push, List.map_append, heq, List.map_singleton, hversion]
  · obtain ⟨k, m, hlength, hpolicies⟩ := h.retained
    refine ⟨k, m + 1, ?_, ?_⟩
    · simp only [Server.push, List.length_append, List.length_singleton]
      omega
    · simp only [Server.push]
      rw [hpolicies, hlength, List.range'_concat (n := m + 1), Nat.one_mul, Nat.add_assoc]
  · refine ⟨policy, by simp [Server.push], ?_⟩
    show policy.step ≤ s.step ∧ s.step ≤ policy.step + 1
    omega
  · intro i p hp
    simp only [Server.push] at hp ⊢
    by_cases hi : i < s.heap.length
    · rw [List.getElem?_append_left hi] at hp
      rw [h.enabled i p hp, List.mem_append, List.mem_singleton]
      constructor
      · exact Or.inl
      · rintro (hin | heq)
        · exact hin
        · omega
    · rw [List.getElem?_append_right (by omega)] at hp
      have heq : i - s.heap.length = 0 := by
        by_contra hne
        rw [List.getElem?_eq_none (by simp; omega)] at hp
        cases hp
      rw [heq] at hp
      obtain rfl : policy = p := by simpa using hp
      rw [henabled]
      simp only [List.mem_append, List.mem_singleton, true_iff]
      right
      omega
  · rw [retained_push h]
    exact
      { owned := h.cached.owned
        items := fun item hitem => List.mem_append_left _ (h.cached.items item hitem)
        stored := fun _ _ _ hin => Or.inl hin }

/-- The oldest policy leaves, and its prefixes. -/
def Server.dropOldest (s : Server W L S G) (i : Nat) (rest : List Nat) : Server W L S G :=
  { s with
    heap := s.heap.modify i (fun p => { p with cacheEnabled := false })
    policies := rest
    cache := s.cache.eraseIdentity ((s.heap[i]?.map Policy.version).getD "") }

theorem History.dropOldest (h : History s) {i : Nat} {rest : List Nat}
    (hpolicies : s.policies = i :: rest) (hrest : rest ≠ []) :
    History (s.dropOldest i rest) := by
  obtain ⟨k, m, hlength, hrange⟩ := h.retained
  obtain ⟨rfl, rfl⟩ : i = k ∧ rest = List.range' (k + 1) m := by
    rw [hpolicies, List.range'_succ] at hrange
    exact List.cons.inj hrange
  obtain ⟨m, rfl⟩ : ∃ n, m = n + 1 := by
    cases m with
    | zero => exact absurd rfl hrest
    | succ n => exact ⟨n, rfl⟩
  obtain ⟨p, hp⟩ : ∃ p, s.heap[i]? = some p :=
    ⟨_, List.getElem?_eq_getElem (by omega)⟩
  have hget : ∀ j, (s.dropOldest i (List.range' (i + 1) (m + 1))).heap[j]? =
      if i = j then some { p with cacheEnabled := false } else s.heap[j]? := by
    intro j
    simp only [Server.dropOldest, List.getElem?_modify]
    by_cases hij : i = j
    · rw [if_pos hij, ← hij, hp]
      simp
    · rw [if_neg hij]
      simp [hij]
  refine
    { versions := ?_
      retained := ?_
      newest_step := ?_
      enabled := ?_
      cached := ?_ }
  · obtain ⟨ns, hlt, hbound, heq⟩ := h.versions
    refine ⟨ns, hlt, hbound, ?_⟩
    simp only [Server.dropOldest]
    rw [map_modify_eq (by intro p; rfl), heq]
  · refine ⟨i + 1, m, ?_, rfl⟩
    simp only [Server.dropOldest, List.length_modify]
    omega
  · obtain ⟨q, hlast, hstep⟩ := h.newest_step
    refine ⟨q, ?_, hstep⟩
    rw [List.getLast?_eq_getElem?] at hlast ⊢
    rw [hget, if_neg (by simp only [Server.dropOldest, List.length_modify]; omega)]
    simpa [Server.dropOldest] using hlast
  · intro j q hq
    rw [hget] at hq
    by_cases hij : i = j
    · rw [if_pos hij] at hq
      cases hq
      simp only [Server.dropOldest, List.mem_range'_1, Bool.false_eq_true, false_iff]
      omega
    · rw [if_neg hij] at hq
      rw [h.enabled j q hq, hpolicies, List.mem_cons]
      constructor
      · rintro (heq | hin)
        · exact absurd heq.symm hij
        · exact hin
      · exact Or.inr
  · refine ⟨owned_eraseIdentity h.cached.owned _, ?_, fun _ _ _ hin => Or.inl hin⟩
    intro item hitem
    simp only [Server.dropOldest] at hitem
    rw [items_eraseIdentity h.cached.owned, hp] at hitem
    obtain ⟨hin, hne⟩ := List.mem_filter.mp hitem
    simp only [Option.map_some, Option.getD_some, ne_eq, decide_not, Bool.not_eq_eq_eq_not,
      Bool.not_true, decide_eq_false_iff_not] at hne
    obtain ⟨j, hj, q, hq, hversion⟩ := mem_retained.mp (h.cached.items item hin)
    have hij : i ≠ j := by
      rintro rfl
      rw [hp, Option.some.injEq] at hq
      exact hne (hq ▸ hversion.symm)
    refine mem_retained.mpr ⟨j, ?_, q, ?_, hversion⟩
    · rw [hpolicies, List.mem_cons] at hj
      exact hj.resolve_left (Ne.symm hij)
    · rw [hget, if_neg hij]
      exact hq

/-- What is kept whenever the oldest policy leaves is kept by the loop. -/
theorem retire_induct {P : Server W L S G → Prop}
    (hdrop : ∀ s i rest, P s → s.policies = i :: rest →
      c.options.versions < s.policies.length → P (s.dropOldest i rest))
    (fuel : Nat) (h : P s) : P (s.retire c fuel) := by
  induction fuel generalizing s with
  | zero => exact h
  | succ fuel ih =>
      unfold Server.retire
      split
      · rename_i hlong
        split
        · exact h
        · rename_i i rest hpolicies
          exact ih (hdrop s i rest h hpolicies hlong)
      · exact h

/-- The loop ends when few enough policies are left. -/
theorem retire_length {fuel : Nat} (hfuel : s.policies.length ≤ c.options.versions + fuel) :
    (s.retire c fuel).policies.length ≤ c.options.versions := by
  induction fuel generalizing s with
  | zero => exact hfuel
  | succ fuel ih =>
      unfold Server.retire
      split
      · rename_i hlong
        split
        · rename_i hnil
          rw [hnil]
          exact Nat.zero_le _
        · rename_i i rest hpolicies
          refine ih ?_
          rw [hpolicies, List.length_cons] at hfuel
          show rest.length ≤ c.options.versions + fuel
          omega
      · omega

theorem History.retire (hversions : 0 < c.options.versions) (h : History s) (fuel : Nat) :
    History (s.retire c fuel) := by
  refine retire_induct c ?_ fuel h
  intro s i rest h hpolicies hlong
  refine h.dropOldest hpolicies ?_
  rintro rfl
  rw [hpolicies, List.length_singleton] at hlong
  omega

/-- What holds between a state and a later one. -/
structure PoliciesKept (s s' : Server W L S G) : Prop where
  kept : ∀ (i : Nat) (p : Policy W), s.heap[i]? = some p →
    ∃ p' : Policy W, s'.heap[i]? = some p' ∧ p'.version = p.version ∧ p'.step = p.step ∧
      p'.weights = p.weights
  retired : ∀ i < s.heap.length, i ∈ s'.policies → i ∈ s.policies

theorem policiesKept_of_eq (hheap : s'.heap = s.heap) (hpolicies : s'.policies = s.policies) :
    PoliciesKept s s' := by
  refine ⟨fun i p hp => ⟨p, ?_, rfl, rfl, rfl⟩, fun i _ hi => ?_⟩
  · rw [hheap, hp]
  · rwa [hpolicies] at hi

theorem PoliciesKept.refl (s : Server W L S G) : PoliciesKept s s :=
  policiesKept_of_eq rfl rfl

theorem PoliciesKept.length_le (h : PoliciesKept s s') : s.heap.length ≤ s'.heap.length := by
  by_contra hlt
  obtain ⟨p', hp', -⟩ := h.kept s'.heap.length _ (List.getElem?_eq_getElem (by omega))
  simp at hp'

theorem PoliciesKept.trans {s₁ s₂ s₃ : Server W L S G} (h : PoliciesKept s₁ s₂)
    (h' : PoliciesKept s₂ s₃) : PoliciesKept s₁ s₃ := by
  refine ⟨?_, fun i hi hin => ?_⟩
  · intro i p hp
    obtain ⟨p', hp', hversion, hstep, hweights⟩ := h.kept i p hp
    obtain ⟨p'', hp'', hversion', hstep', hweights'⟩ := h'.kept i p' hp'
    exact ⟨p'', hp'', hversion'.trans hversion, hstep'.trans hstep,
      hweights'.trans hweights⟩
  · exact h.retired i hi (h'.retired i (lt_of_lt_of_le hi h.length_le) hin)

theorem SameHistory.policiesKept (h : SameHistory s s') : PoliciesKept s s' := by
  refine ⟨?_, fun i _ hin => h.policies ▸ hin⟩
  intro i p hp
  obtain ⟨p', hp', heq⟩ := h.symm.policy hp
  have hversion : p.published.version = p'.published.version := congrArg Policy.version heq
  have hstep : p.published.step = p'.published.step := congrArg Policy.step heq
  have hweights : p.published.weights = p'.published.weights := congrArg Policy.weights heq
  exact ⟨p', hp', hversion.symm, hstep.symm, hweights.symm⟩

theorem policiesKept_push (s : Server W L S G) (policy : Policy W) :
    PoliciesKept s (s.push policy) := by
  refine ⟨?_, fun i hi hin => ?_⟩
  · intro i p hp
    refine ⟨p, ?_, rfl, rfl, rfl⟩
    simp only [Server.push]
    rw [List.getElem?_append_left (List.getElem?_eq_some_iff.mp hp).1, hp]
  · rcases List.mem_append.mp hin with hin | hin
    · exact hin
    · rw [List.mem_singleton] at hin
      omega

theorem policiesKept_dropOldest {i : Nat} {rest : List Nat} (h : s.policies = i :: rest) :
    PoliciesKept s (s.dropOldest i rest) := by
  refine ⟨?_, fun j _ hin => ?_⟩
  · intro j p hp
    by_cases hij : i = j
    · exact ⟨{ p with cacheEnabled := false }, by simp [Server.dropOldest, hij, hp], rfl, rfl,
        rfl⟩
    · exact ⟨p, by simp [Server.dropOldest, hij, hp], rfl, rfl, rfl⟩
  · rw [h]
    exact List.mem_cons_of_mem _ hin

/-- What retiring leaves as it is. -/
theorem retire_frame (s : Server W L S G) (fuel : Nat) :
    PoliciesKept s (s.retire c fuel) ∧ (s.retire c fuel).step = s.step ∧
      (s.retire c fuel).learner = s.learner ∧ (s.retire c fuel).reference = s.reference ∧
      (s.retire c fuel).runId = s.runId ∧ (s.retire c fuel).version = s.version ∧
      (s.retire c fuel).files = s.files ∧ (s.retire c fuel).cache.log = s.cache.log := by
  refine retire_induct c
    (P := fun t => PoliciesKept s t ∧ t.step = s.step ∧ t.learner = s.learner ∧
      t.reference = s.reference ∧ t.runId = s.runId ∧ t.version = s.version ∧
      t.files = s.files ∧ t.cache.log = s.cache.log)
    ?_ fuel ⟨PoliciesKept.refl s, rfl, rfl, rfl, rfl, rfl, rfl, rfl⟩
  rintro t i rest ⟨hkept, hrest⟩ hpolicies -
  refine ⟨hkept.trans (policiesKept_dropOldest hpolicies), ?_⟩
  simpa [Server.dropOldest, log_eraseIdentity] using hrest

/-- The ways a publish can end. -/
theorem publish_cases (s : Server W L S G) (r : PublishRequest) (faults : List PublishSite) :
    (r.expectedStep ≠ s.step ∧
        s.publish c r faults = (s, .error ⟨409, "learner step changed"⟩)) ∨
      (r.expectedStep = s.step ∧ ∃ s₁, SameHistory s.numbered s₁ ∧
        ((∃ e, s.publish c r faults = (s₁, .error e)) ∨
          ∃ target reply, Target.Same (s.numbered.target c s.changed) target ∧
            s.publish c r faults = (s₁.install c target, .ok reply))) := by
  unfold Server.publish
  by_cases hstep : r.expectedStep ≠ s.step
  · rw [if_pos hstep]
    exact Or.inl ⟨hstep, rfl⟩
  · rw [if_neg hstep]
    refine Or.inr ⟨not_not.mp hstep, ?_⟩
    dsimp only
    split
    · exact ⟨_, SameHistory.refl _, Or.inl ⟨_, rfl⟩⟩
    · obtain ⟨hsame, htarget⟩ := sameHistory_saveAll c s.numbered
        (s.numbered.target c s.changed) r faults
      split
      · rename_i s₁ e hsaved
        rw [hsaved] at hsame
        exact ⟨s₁, hsame, Or.inl ⟨e, rfl⟩⟩
      · rename_i s₁ target hsaved
        rw [hsaved] at hsame htarget
        refine ⟨s₁, hsame, ?_⟩
        split
        · exact Or.inl ⟨_, rfl⟩
        · exact Or.inr ⟨target, _, htarget target rfl, rfl⟩

theorem History.numbered (h : History s) : History s.numbered := by
  unfold Server.numbered
  split
  · exact h.bump
  · exact h

/-- The policy of a publish that has something new. -/
theorem fresh_target {p : Policy W} (h : Target.Same (s.numbered.target c s.changed) (.fresh p)) :
    s.changed = true ∧ s.numbered = { s with version := s.version + 1 } ∧
      p.published = s.numbered.snapshot c := by
  cases hchanged : s.changed with
  | false => simp [hchanged, Server.target, Target.Same] at h
  | true =>
      refine ⟨rfl, by simp [Server.numbered, hchanged], ?_⟩
      simp only [hchanged, Server.target, if_true, Target.Same] at h
      exact h.symm

/-- A new policy is pushed; the newest one is only exported. -/
theorem install_eq (s : Server W L S G) (target : Target W) :
    s.install c target =
      match target with
      | .existing _ => s.retire c s.policies.length
      | .fresh p => (s.push p).retire c (s.push p).policies.length := by
  cases target <;> rfl

/-- A publish keeps the history, and changes no policy. -/
theorem history_publish (hversions : 0 < c.options.versions) (h : History s)
    (r : PublishRequest) (faults : List PublishSite) :
    History (s.publish c r faults).1 ∧ PoliciesKept s (s.publish c r faults).1 ∧
      (s.publish c r faults).1.cache.log = s.cache.log := by
  have hframe : PoliciesKept s s.numbered ∧ s.numbered.cache.log = s.cache.log := by
    unfold Server.numbered
    split <;> exact ⟨policiesKept_of_eq rfl rfl, rfl⟩
  rcases publish_cases c s r faults with ⟨-, heq⟩ | ⟨-, s₁, hsame, hend⟩
  · rw [heq]
    exact ⟨h, PoliciesKept.refl _, rfl⟩
  · have h₁ := h.numbered.same hsame
    have hkept₁ := hframe.1.trans hsame.policiesKept
    have hlog₁ : s₁.cache.log = s.cache.log := (congrArg _ hsame.cache).trans hframe.2
    rcases hend with ⟨e, heq⟩ | ⟨target, reply, htarget, heq⟩
    · rw [heq]
      exact ⟨h₁, hkept₁, hlog₁⟩
    · rw [heq, install_eq]
      cases target with
      | existing i =>
          obtain ⟨hkept, -, -, -, -, -, -, hlog⟩ := retire_frame c s₁ s₁.policies.length
          exact ⟨h₁.retire c hversions _, hkept₁.trans hkept, hlog.trans hlog₁⟩
      | fresh p =>
          obtain ⟨hkept, -, -, -, -, -, -, hlog⟩ :=
            retire_frame c (s₁.push p) (s₁.push p).policies.length
          refine ⟨History.retire c hversions ?_ _,
            (hkept₁.trans (policiesKept_push s₁ p)).trans hkept, hlog.trans hlog₁⟩
          obtain ⟨-, hnumbered, hp⟩ := fresh_target c htarget
          have hbelow : VersionsBelow s₁ s₁.version := by
            rw [hsame.version, hnumbered]
            rw [hnumbered] at hsame
            exact VersionsBelow.same h.versions (s := { s with version := s.version + 1 }) hsame
          have hversion : p.published.version = (s.numbered.snapshot c).version :=
            congrArg Policy.version hp
          have hstep : p.published.step = (s.numbered.snapshot c).step := congrArg Policy.step hp
          have henabled : p.published.cacheEnabled = (s.numbered.snapshot c).cacheEnabled :=
            congrArg Policy.cacheEnabled hp
          refine h₁.push hbelow ?_ ?_ henabled
          · rw [hsame.runId, hsame.version]
            exact hversion
          · rw [hsame.step]
            exact hstep

/-- Few enough policies are left after a publish. -/
theorem policies_publish (hbound : s.policies.length ≤ c.options.versions)
    (r : PublishRequest) (faults : List PublishSite) :
    (s.publish c r faults).1.policies.length ≤ c.options.versions := by
  rcases publish_cases c s r faults with ⟨-, heq⟩ | ⟨-, s₁, hsame, hend⟩
  · rw [heq]
    exact hbound
  · have hnumbered : s.numbered.policies = s.policies := by
      unfold Server.numbered
      split <;> rfl
    rcases hend with ⟨e, heq⟩ | ⟨target, reply, -, heq⟩
    · rw [heq, hsame.policies, hnumbered]
      exact hbound
    · rw [heq, install_eq]
      cases target <;> exact retire_length c (Nat.le_add_left _ _)

/-- The named policy is the newest one, and the learner has not moved on. -/
def Current (s : Server W L S G) (version : String) : Prop :=
  ∃ p, s.heap[s.newest]? = some p ∧ p.version = version ∧ p.step = s.step

/-- A train request is refused, or its rollouts are current. -/
theorem train_cases (s : Server W L S G) (r : TrainRequest F) (fault : TrainFault) :
    (∃ e, s.train c r fault = (s, .error e)) ∨
      (Current s r.policyVersion ∧
        ∃ learner step, (s.train c r fault).1 = { s with learner := learner, step := step } ∧
          s.step ≤ step ∧ step ≤ s.step + 1) := by
  unfold Server.train
  cases hpolicy : s.policy (some r.policyVersion) with
  | error e => exact Or.inl ⟨e, rfl⟩
  | ok i =>
      obtain ⟨-, hversion⟩ := policy_cases hpolicy
      dsimp only
      cases hp : s.heap[i]? with
      | none => exact Or.inl ⟨_, rfl⟩
      | some p =>
          dsimp only
          by_cases hstale : i ≠ s.newest ∨ p.step ≠ s.step
          · rw [if_pos hstale]
            exact Or.inl ⟨_, rfl⟩
          · rw [if_neg hstale]
            push Not at hstale
            obtain ⟨rfl, hstep⟩ := hstale
            have hcurrent : Current s r.policyVersion := by
              refine ⟨p, hp, ?_, hstep⟩
              simpa [hp] using hversion _ rfl
            split
            · exact Or.inl ⟨_, rfl⟩
            · split
              · exact Or.inl ⟨_, rfl⟩
              · split
                · exact Or.inl ⟨_, rfl⟩
                · split
                  · exact Or.inr ⟨hcurrent, s.learner, s.step, rfl, le_rfl, Nat.le_succ _⟩
                  · cases fault with
                    | none => exact Or.inr ⟨hcurrent, _, _, rfl, Nat.le_succ _, le_rfl⟩
                    | beforeUpdate => exact Or.inl ⟨_, rfl⟩
                    | afterUpdate =>
                        exact Or.inr ⟨hcurrent, _, _, rfl, le_rfl, Nat.le_succ _⟩

theorem history_train (h : History s) (r : TrainRequest F) (fault : TrainFault) :
    History (s.train c r fault).1 ∧ PoliciesKept s (s.train c r fault).1 := by
  rcases train_cases c s r fault with ⟨e, heq⟩ | ⟨hcurrent, learner, step, heq, hle, hlt⟩
  · rw [heq]
    exact ⟨h, PoliciesKept.refl s⟩
  · rw [heq]
    refine ⟨{ h with newest_step := ?_ }, policiesKept_of_eq rfl rfl⟩
    obtain ⟨p, hp, -, hstep⟩ := hcurrent
    refine ⟨p, ?_, hstep ▸ hle, hstep ▸ hlt⟩
    rw [List.getLast?_eq_getElem?, ← hp]
    congr 1
    have hnewest := h.newest_eq
    show s.heap.length - 1 = s.newest
    omega

/-- A completions request touches the cache only, under a retained version. -/
theorem history_completions (h : History s) (r : CompletionsRequest F)
    (faults : List (Fault (CachedState S G))) :
    History (s.completions c r faults).1 ∧ PoliciesKept s (s.completions c r faults).1 ∧
      (s.completions c r faults).1.policies = s.policies ∧
      Within s.retained s.cache.log (s.completions c r faults).1.cache := by
  have hstart : Within s.retained s.cache.log s.cache := h.cached
  unfold Server.completions
  cases hpolicy : s.policy r.policyVersion with
  | error e => exact ⟨h, PoliciesKept.refl s, rfl, hstart⟩
  | ok i =>
      dsimp only
      cases hp : s.heap[i]? with
      | none => exact ⟨h, PoliciesKept.refl s, rfl, hstart⟩
      | some p =>
          have hversion : p.cacheEnabled = true → p.version ∈ s.retained := fun henabled =>
            (h.mem_retained_iff hp).mpr ((h.enabled i p hp).mp henabled)
          have hkeeps : Keeps (fun w => Within s.retained s.cache.log w.cache)
              (OnlineRl.completions c.kernels c.options.limits p.weights p.version
                p.cacheEnabled r) :=
            completions_cache c.kernels c.options.limits hversion p.weights r
          have hend := hkeeps.state (s := { cache := s.cache, faults := faults }) hstart
          refine ⟨{ h with cached := ?_ }, policiesKept_of_eq rfl rfl, rfl, hend⟩
          exact ⟨hend.owned, hend.items, fun _ _ _ hin => Or.inl hin⟩

/-- Every request keeps the invariant and the policies. -/
theorem history_step (hversions : 0 < c.options.versions) (h : History s)
    (e : Event F S G) :
    History (step c s e) ∧ PoliciesKept s (step c s e) ∧
      ∀ version tokens contents,
        Record.stored version tokens contents ∈ (step c s e).cache.log →
        Record.stored version tokens contents ∈ s.cache.log ∨ version ∈ s.retained := by
  cases e with
  | completions r faults =>
      obtain ⟨hhistory, hkept, -, hwithin⟩ := history_completions c h r faults
      exact ⟨hhistory, hkept, hwithin.stored⟩
  | logprobs r => exact ⟨h, PoliciesKept.refl s, fun _ _ _ hin => Or.inl hin⟩
  | train r fault =>
      obtain ⟨hhistory, hkept⟩ := history_train c h r fault
      refine ⟨hhistory, hkept, fun version tokens contents hin => Or.inl ?_⟩
      rcases train_cases c s r fault with ⟨e, heq⟩ | ⟨-, learner, step, heq, -⟩
      · simpa [OnlineRl.step, heq] using hin
      · simpa [OnlineRl.step, heq] using hin
  | publish r faults =>
      obtain ⟨hhistory, hkept, hlog⟩ := history_publish c hversions h r faults
      refine ⟨hhistory, hkept, fun version tokens contents hin => Or.inl ?_⟩
      rwa [← hlog]

theorem policies_step (h : History s) (hbound : s.policies.length ≤ c.options.versions)
    (e : Event F S G) : (step c s e).policies.length ≤ c.options.versions := by
  cases e with
  | completions r faults =>
      obtain ⟨-, -, hpolicies, -⟩ := history_completions c h r faults
      exact (congrArg List.length hpolicies).trans_le hbound
  | logprobs r => exact hbound
  | train r fault =>
      rcases train_cases c s r fault with ⟨e, heq⟩ | ⟨-, learner, step, heq, -⟩
      · simpa [OnlineRl.step, heq] using hbound
      · simpa [OnlineRl.step, heq] using hbound
  | publish r faults => exact policies_publish c hbound r faults

theorem history_run (hversions : 0 < c.options.versions) (h : History s)
    (hbound : s.policies.length ≤ c.options.versions) (events : List (Event F S G)) :
    History (run c s events) ∧ PoliciesKept s (run c s events) ∧
      (run c s events).policies.length ≤ c.options.versions := by
  induction events generalizing s with
  | nil => exact ⟨h, PoliciesKept.refl s, hbound⟩
  | cons e events ih =>
      obtain ⟨h', hkept, -⟩ := history_step c hversions h e
      obtain ⟨hend, hkept', hbound'⟩ := ih h' (policies_step c h hbound e)
      exact ⟨hend, hkept.trans hkept', hbound'⟩

theorem history_init {pool : Pool String Token} {capacity memoryLimit entryBytes : Nat}
    (hcreate : Pool.create capacity memoryLimit entryBytes = some pool) (runId : String)
    (learner : L) (step : Nat) : History (Server.init c runId learner step pool (S := S) (G := G)) := by
  refine
    { versions := ⟨[0], List.pairwise_singleton _ _, by simp [Server.init], rfl⟩
      retained := ⟨0, 0, rfl, rfl⟩
      newest_step := ⟨_, rfl, le_rfl, Nat.le_succ _⟩
      enabled := ?_
      cached := ⟨owned_init hcreate, ?_, fun _ _ _ hin => Or.inl hin⟩ }
  · intro i p hp
    cases i with
    | zero =>
        cases hp
        simp [Server.init, Server.snapshot]
    | succ i => simp [Server.init] at hp
  · have hinv := (owned_init (V := CachedState S G) hcreate).index_inv
    intro item hitem
    unfold Pool.create at hcreate
    split at hcreate
    · cases hcreate
    · cases hcreate
      simp [Server.init, System.init, Cache.items, Cache.new] at hitem

end Steps

section Guarantees

variable (c : Config W L S G R F) {s : Server W L S G}

/-- What the server promises of its policies in a state. -/
structure PolicyGuarantees (s : Server W L S G) : Prop where
  versions_unique : ∀ (i j : Nat) (p q : Policy W), s.heap[i]? = some p →
    s.heap[j]? = some q → p.version = q.version → i = j
  published_kept : ∀ events : List (Event F S G), PoliciesKept s (run c s events)
  learner_step : ∃ p, s.newest ∈ s.policies ∧ s.heap[s.newest]? = some p ∧
    (s.step = p.step ∨ s.step = p.step + 1)
  train_current : ∀ (r : TrainRequest F) (fault : TrainFault),
    (∃ e, s.train c r fault = (s, .error e)) ∨ Current s r.policyVersion
  bounded : s.policies.length ≤ c.options.versions
  cached_retained : ∀ item ∈ s.cache.pool.index.items,
    ∃ i ∈ s.policies, ∃ p, s.heap[i]? = some p ∧ p.version = item.identity
  stored_retained : ∀ (e : Event F S G) version tokens contents,
    Record.stored version tokens contents ∈ (step c s e).cache.log →
    Record.stored version tokens contents ∈ s.cache.log ∨
      ∃ i ∈ s.policies, ∃ p, s.heap[i]? = some p ∧ p.version = version

/--
For every sequence of requests, any of them failing: versions are unique,
published policies do not change and stay retired, the learner is at most one
step ahead, only current rollouts are trained on, and the cache holds prefixes
of retained policies only.
-/
theorem policy_history (hvalid : c.options.Valid)
    {pool : Pool String Token} {capacity memoryLimit entryBytes : Nat}
    (hcreate : Pool.create capacity memoryLimit entryBytes = some pool) (runId : String)
    (learner : L) (startStep : Nat) (events : List (Event F S G)) :
    PolicyGuarantees c (run c (Server.init c runId learner startStep pool) events) := by
  have hversions := hvalid.versions_pos
  obtain ⟨h, -, hbound⟩ := history_run c hversions
    (history_init c hcreate runId learner startStep) hversions events
  obtain ⟨p, hp, hle, hlt⟩ := h.newest_policy
  exact
    { versions_unique := fun i j p q hi hj heq => h.index_eq hi hj heq
      published_kept := fun events' => (history_run c hversions h hbound events').2.1
      learner_step := ⟨p, h.newest_mem, hp, by omega⟩
      train_current := fun r fault => (train_cases c _ r fault).imp_right And.left
      bounded := hbound
      cached_retained := fun item hitem => mem_retained.mp (h.cached.items item hitem)
      stored_retained := fun e version tokens contents hin =>
        ((history_step c hversions h e).2.2 version tokens contents hin).imp_right
          mem_retained.mp }

/-- A device on numbers: a state is the sum of what was fed. -/
def sumKernels : Kernels Nat Nat Nat Nat Nat where
  reset weights := weights
  forward weights state tokens :=
    (state + weights * tokens.sum, state + weights * tokens.sum)
  decode weights rows := rows.map (fun row => (row.1 + weights * row.2, row.1 + weights * row.2))
  blank := ⟨0, 0⟩
  seedRow seed index := seed + index
  sample logits _ rng := .ok ((logits % 5, 1), rng + 1)
  decodeToken _ := []

/-- A server with two retained policies; training adds one to the learner. -/
def sumConfig : Config Nat Nat Nat Nat Nat Nat where
  options :=
    { limits := { ctx := 16, chunk := 2, batch := 4, maxTokens := 3, vocab := 10 }
      versions := 2
      output := "out" }
  kernels := sumKernels
  learner :=
    { snapshot := id
      update := fun learner _ _ _ _ => learner + 1
      score := fun _ tokens _ => tokens
      zero := 0
      isZero := fun weight => weight == 0
      advantageOk := fun _ => true
      hasTrainer := false }

def sumPool : Pool String Token where
  capacity := 4
  memoryLimit := 1024
  entryBytes := 8
  index := Cache.new 4
  free := []
  allocated := 0
  hits := 0
  misses := 0
  evictions := 0
  retired := 0
  skipped := 0

theorem sumPool_create : Pool.create 4 1024 8 = some sumPool := rfl

theorem sumConfig_valid : sumConfig.options.Valid :=
  ⟨⟨by decide, by decide, by decide⟩, by decide⟩

def trainOn (version : String) : TrainRequest Nat :=
  { policyVersion := version
    samples := [(.single { tokens := [1, 2], lossMask := [true, true],
                           advantages := some (.scalar 1) }, 1)]
    learningRate := 1 }

def completeWith (version : Option String) : CompletionsRequest Nat :=
  { policyVersion := version, prompts := [[1, 2, 3], [1, 2]], maxTokens := none,
    temperature := 1, useCache := true, rules := ⟨[], [], []⟩, seed := 7 }

/-- Rollouts and two published steps; the reference policy is retired by then. -/
def sumEvents : List (Event Nat Nat Nat) :=
  [.completions (completeWith none) [], .train (trainOn "run:0") .none,
   .publish ⟨1, false, false⟩ [], .train (trainOn "run:1") .none, .publish ⟨2, true, false⟩ [],
   .completions (completeWith (some "run:0")) [], .completions (completeWith none) [],
   .completions (completeWith (some "run:1")) [.none, .none, .none, .throws]]

theorem policy_history_sumEvents :
    PolicyGuarantees sumConfig
      (run sumConfig (Server.init sumConfig "run" 0 0 sumPool) sumEvents) :=
  policy_history sumConfig sumConfig_valid sumPool_create "run" 0 0 sumEvents

end Guarantees








end OnlineRl
end RwkvLightning

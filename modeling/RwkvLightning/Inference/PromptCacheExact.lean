import RwkvLightning.Inference.PrefillPasses
import RwkvLightning.Inference.PromptCache
import Mathlib

/-!
# A prompt cache does not change a prefill

The rows of a request start from one state `ρ₀`.  What a lookup returns for a prompt is
nothing, or the state that a prefix of the prompt leads to (`Served`); then `prefill_cached`
leaves every prompt the row and the logits that a prefill without a cache leaves it.

**Loop.**  `PlacedAt` says what the loop over the hits has placed in the rows before
the current one; `prefill_batch_chunked` feeds the rest.
-/

namespace RwkvLightning
namespace PromptCache

open Backend Prefill PrefixCache

variable {α ρ ℓ : Type} {m : Model α ρ ℓ}

/-- A batch as `prefill_cached` is called with it: no row has been fed. -/
structure Fresh (m : Model α ρ ℓ) (job : Job α ρ) (ρ₀ : ρ) : Prop where
  initial : job.state.identity.advanced = false
  wkv32 : job.state.wkv32 = m.wkv32
  rows : job.state.rows = List.replicate job.promptIds.length ρ₀
  originals : job.sortedToOriginal.length = job.promptIds.length
  nonempty : job.promptIds ≠ []
  prompts : ∀ prompt ∈ job.promptIds, prompt ≠ []
  descending : Descending job.promptIds

/-- What the cache keeps for the first `n` tokens of a prompt. -/
def entryOf (laws : RowLaws m) (state : GenerationState α ρ) (ρ₀ : ρ) (prompt : List Token)
    (n : Nat) : Entry α ρ ℓ :=
  { state :=
      { identity := m.advancedIdentity state
        wkv32 := state.wkv32
        row := laws.feed state.identity.adapter ρ₀ (prompt.take n) }
    logits := laws.logits state.identity.adapter ρ₀ (prompt.take n) }

/-- A lookup finds nothing, or what a prefix of the prompt leads to. -/
inductive Served (laws : RowLaws m) (state : GenerationState α ρ) (ρ₀ : ρ) (prompt : List Token) :
    Match (Entry α ρ ℓ) → Prop
  | miss : Served laws state ρ₀ prompt ⟨none, 0⟩
  | hit (n : Nat) (hpos : 0 < n) (hle : n ≤ prompt.length)
      (haccepts : m.Accepts state.identity.adapter) (hrange : m.InRange [prompt.take n]) :
      Served laws state ρ₀ prompt ⟨some (entryOf laws state ρ₀ prompt n), n⟩

section Placing

variable {laws : RowLaws m} {state : GenerationState α ρ} {ρ₀ : ρ}
variable {p : List Token × Match (Entry α ρ ℓ)} {ps : List (List Token × Match (Entry α ρ ℓ))}
variable {s : Placed α ρ ℓ} {n : Nat}

/-- The row that a prompt is fed from. -/
def startRow (laws : RowLaws m) (state : GenerationState α ρ) (ρ₀ : ρ)
    (p : List Token × Match (Entry α ρ ℓ)) : ρ :=
  laws.feed state.identity.adapter ρ₀ (p.1.take p.2.length)

/-- The logits of a prompt of which nothing is left to feed. -/
def startLogits (laws : RowLaws m) (state : GenerationState α ρ) (ρ₀ : ρ)
    (p : List Token × Match (Entry α ρ ℓ)) : Option ℓ :=
  if p.2.length = p.1.length then laws.logits state.identity.adapter ρ₀ p.1 else none

/-- The metadata of the batch after the hits of some rows. -/
def startIdentity (m : Model α ρ ℓ) (state : GenerationState α ρ)
    (ps : List (List Token × Match (Entry α ρ ℓ))) : Identity α :=
  if ∀ p ∈ ps, p.2.length = 0 then state.identity else m.advancedIdentity state

/-- The staging row can take the row of a batch. -/
structure Staged (m : Model α ρ ℓ) (state staging : GenerationState α ρ) : Prop where
  rows : staging.rows.length = 1
  wkv32 : staging.wkv32 = m.wkv32
  identity : staging.identity.advanced = true → staging.identity = m.advancedIdentity state

/-- The rows `ps` are placed, and `n` rows are still to come. -/
structure PlacedAt (laws : RowLaws m) (state : GenerationState α ρ) (ρ₀ : ρ)
    (ps : List (List Token × Match (Entry α ρ ℓ))) (n : Nat) (s : Placed α ρ ℓ) : Prop where
  state_eq : s.state =
    { state with
      identity := startIdentity m state ps
      rows := ps.map (startRow laws state ρ₀) ++ List.replicate n ρ₀ }
  logits_eq : s.logits.rows = ps.map (startLogits laws state ρ₀) ++ List.replicate n none
  staged : Staged m state s.staging

theorem startIdentity_hit (hp : p.2.length ≠ 0) :
    startIdentity m state (ps ++ [p]) = m.advancedIdentity state := by
  refine if_neg fun h => hp ?_
  exact h p (List.mem_append_right ps (List.mem_singleton.mpr rfl))

theorem startIdentity_miss (hp : p.2.length = 0) :
    startIdentity m state (ps ++ [p]) = startIdentity m state ps := by
  refine if_congr ⟨fun h q hq => h q (List.mem_append_left [p] hq), fun h q hq => ?_⟩ rfl rfl
  rcases List.mem_append.mp hq with hq | hq
  · exact h q hq
  · rw [List.mem_singleton.mp hq, hp]

theorem startIdentity_advanced (hinitial : state.identity.advanced = false)
    (h : (startIdentity m state ps).advanced = true) :
    startIdentity m state ps = m.advancedIdentity state := by
  refine if_neg fun hall => ?_
  rw [startIdentity, if_pos hall, hinitial] at h
  exact Bool.false_ne_true h

theorem startIdentity_adapter : (startIdentity m state ps).adapter = state.identity.adapter := by
  unfold startIdentity
  split <;> rfl

/-- The row after those that are placed. -/
theorem copySlice_next {β : Type} (front back : List β) (b x : β) :
    copySlice [x] 0 (front ++ b :: back) front.length 1 = (front ++ [x]) ++ back := by
  simp [copySlice]

/-- One row of the loop over the hits. -/
theorem placeHit_spec (hwkv : state.wkv32 = m.wkv32)
    (hinitial : state.identity.advanced = false) (hserved : Served laws state ρ₀ p.1 p.2)
    (hne : p.1 ≠ []) (h : PlacedAt laws state ρ₀ ps (n + 1) s) :
    ∃ s', placeHit m p.1 p.2 ps.length s = .ok s' ∧
      PlacedAt laws state ρ₀ (ps ++ [p]) n s' := by
  obtain ⟨prompt, hit⟩ := p
  change Served laws state ρ₀ prompt hit at hserved
  cases hserved with
  | miss =>
      have hopen : (0 : Nat) ≠ prompt.length :=
        fun hzero => hne (List.length_eq_zero_iff.mp hzero.symm)
      refine ⟨s, rfl, ?_⟩
      refine
        { state_eq := ?_
          logits_eq := ?_
          staged := h.staged }
      · rw [h.state_eq, startIdentity_miss rfl]
        simp [startRow, List.replicate_succ]
      · rw [h.logits_eq]
        simp [startLogits, hopen, List.replicate_succ]
  | hit k hpos hle haccepts hrange =>
      let entry := entryOf laws state ρ₀ prompt k
      let staging : GenerationState α ρ :=
        { s.staging with identity := entry.state.identity, rows := [entry.state.row] }
      have hupload : uploadPromptState entry.state s.staging = .ok staging := by
        refine if_neg ?_
        rintro (hrows | hkind)
        · exact hrows h.staged.rows
        · exact hkind (h.staged.wkv32.trans hwkv.symm)
      let placed : GenerationState α ρ :=
        { state with
          identity := m.advancedIdentity state
          rows := (ps.map (startRow laws state ρ₀) ++ [entry.state.row]) ++
            List.replicate n ρ₀ }
      have hcopy : m.copyStateSlice staging 0 s.state ps.length 1 = .ok placed := by
        have hnext := copySlice_next (ps.map (startRow laws state ρ₀)) (List.replicate n ρ₀) ρ₀
          entry.state.row
        rw [List.length_map] at hnext
        have hroom : 0 + 1 ≤ staging.rows.length := Nat.le_refl 1
        have hkind : staging.wkv32 = m.wkv32 := h.staged.wkv32
        rw [Model.copyStateSlice_ok Nat.one_pos hroom ?_ hkind ?_ ?_, h.state_eq]
        · simp only [List.replicate_succ, staging, hnext]
          rfl
        · rw [h.state_eq]
          simp
        · rw [h.state_eq]
          exact hwkv
        · rw [h.state_eq]
          intro hadvanced
          have hidentity := startIdentity_advanced hinitial hadvanced
          change (m.advancedIdentity state).effectiveKey =
              (startIdentity m state ps).effectiveKey ∧
            (m.advancedIdentity state).adapterIdentity =
              (startIdentity m state ps).adapterIdentity
          rw [hidentity]
          exact ⟨rfl, rfl⟩
      refine ⟨{ staging := staging
                state := placed
                logits :=
                  if k = prompt.length then { rows := s.logits.rows.set ps.length entry.logits }
                  else s.logits }, ?_, ?_⟩
      · simp only [placeHit]
        rw [hupload]
        simp only [bind, Except.bind]
        rw [hcopy]
      · refine
          { state_eq := ?_
            logits_eq := ?_
            staged := ⟨rfl, h.staged.wkv32, fun _ => rfl⟩ }
        · rw [startIdentity_hit (Nat.pos_iff_ne_zero.mp hpos), List.map_append]
          rfl
        · by_cases hfull : k = prompt.length
          · subst hfull
            simp [h.logits_eq, startLogits, List.replicate_succ, entry, entryOf]
          · simp [h.logits_eq, startLogits, List.replicate_succ, hfull]

/-- The loop over the hits. -/
theorem placeHits_spec (hwkv : state.wkv32 = m.wkv32)
    (hinitial : state.identity.advanced = false)
    {rows : List (List Token × Match (Entry α ρ ℓ))}
    (hserved : ∀ p ∈ rows, Served laws state ρ₀ p.1 p.2) (hne : ∀ p ∈ rows, p.1 ≠ [])
    (h : PlacedAt laws state ρ₀ ps rows.length s) :
    ∃ s', placeHits m rows ps.length s = .ok s' ∧ PlacedAt laws state ρ₀ (ps ++ rows) 0 s' := by
  induction rows generalizing ps s with
  | nil => exact ⟨s, rfl, by rwa [List.append_nil]⟩
  | cons p rows ih =>
      obtain ⟨s', hstep, hnext⟩ := placeHit_spec hwkv hinitial
        (hserved p List.mem_cons_self) (hne p List.mem_cons_self) h
      obtain ⟨s'', hrun, hlast⟩ := ih (fun q hq => hserved q (List.mem_cons_of_mem p hq))
        (fun q hq => hne q (List.mem_cons_of_mem p hq)) hnext
      rw [List.length_append, List.length_singleton] at hrun
      refine ⟨s'', ?_, by rwa [List.append_assoc] at hlast⟩
      rw [placeHits, hstep]
      exact hrun

end Placing

section Exact

variable {laws : RowLaws m} {job : Job α ρ} {hits : List (Match (Entry α ρ ℓ))} {ρ₀ : ρ}
variable {chunkSize : Nat}

/-- The prompts with their hits, in the order in which they are prefilled. -/
def orderedHits (promptIds : List (List Token)) (hits : List (Match (Entry α ρ ℓ))) :
    List (List Token × Match (Entry α ρ ℓ)) :=
  (remainingOrder promptIds hits).map (fun i => (promptIds.getD i [], hits.getD i ⟨none, 0⟩))

/-- What is left to feed. -/
def remaining (p : List Token × Match (Entry α ρ ℓ)) : List Token :=
  p.1.drop p.2.length

theorem remainingOrder_perm {promptIds : List (List Token)}
    (h : hits.length = promptIds.length) :
    (remainingOrder promptIds hits).Perm (List.range promptIds.length) := by
  have hperm := lengthOrder_perm
    (List.zipWith (fun prompt hit => prompt.length - hit.length) promptIds hits)
  rwa [List.length_zipWith, h, Nat.min_self] at hperm

theorem served_orderedHits
    (hserved : List.Forall₂ (Served laws job.state ρ₀) job.promptIds hits) :
    (∀ p ∈ orderedHits job.promptIds hits,
        Served laws job.state ρ₀ p.1 p.2 ∧ p.1 ∈ job.promptIds) ∧
      ∀ prompt ∈ job.promptIds, ∃ p ∈ orderedHits job.promptIds hits, p.1 = prompt := by
  have hperm := remainingOrder_perm hserved.length_eq.symm
  constructor
  · intro p hp
    obtain ⟨i, hi, rfl⟩ := List.mem_map.mp hp
    have hlt : i < job.promptIds.length := List.mem_range.mp (hperm.mem_iff.mp hi)
    have hlt' : i < hits.length := hserved.length_eq ▸ hlt
    rw [List.getD_eq_getElem _ _ hlt, List.getD_eq_getElem _ _ hlt']
    exact ⟨(List.forall₂_iff_get.mp hserved).2 i hlt hlt', List.getElem_mem hlt⟩
  · intro prompt hprompt
    obtain ⟨i, hlt, rfl⟩ := List.mem_iff_getElem.mp hprompt
    refine ⟨_, List.mem_map.mpr ⟨i, hperm.mem_iff.mpr (List.mem_range.mpr hlt), rfl⟩, ?_⟩
    exact List.getD_eq_getElem _ _ hlt

theorem descending_remaining {promptIds : List (List Token)}
    (h : hits.length = promptIds.length) :
    Descending ((orderedHits promptIds hits).map remaining) := by
  have hget : ∀ i,
      (List.zipWith (fun prompt hit => prompt.length - hit.length) promptIds hits).getD i 0 =
        (remaining (promptIds.getD i [], hits.getD i ⟨none, 0⟩)).length := by
    intro i
    rw [remaining, List.length_drop]
    by_cases hi : i < promptIds.length
    · simp [List.getD, List.getElem?_zipWith, List.getElem?_eq_getElem hi,
        List.getElem?_eq_getElem (h.symm ▸ hi)]
    · simp [List.getD, List.getElem?_zipWith, List.getElem?_eq_none (Nat.le_of_not_lt hi)]
  rw [Descending, orderedHits, List.map_map, List.pairwise_map]
  refine (lengthOrder_pairwise _).imp fun hle => ?_
  rw [hget, hget] at hle
  exact hle

/-- A prompt is what its hit stands for, and the rest. -/
theorem Served.length_le {state : GenerationState α ρ} {prompt : List Token}
    {hit : Match (Entry α ρ ℓ)} (h : Served laws state ρ₀ prompt hit) :
    hit.length ≤ prompt.length := by
  cases h with
  | miss => exact Nat.zero_le _
  | hit n hpos hle haccepts hrange => exact hle

/-- What was fed for a hit was accepted. -/
theorem Served.accepted {state : GenerationState α ρ} {prompt : List Token}
    {hit : Match (Entry α ρ ℓ)} (h : Served laws state ρ₀ prompt hit) :
    m.InRange [prompt.take hit.length] ∧
      (hit.length ≠ 0 → m.Accepts state.identity.adapter) := by
  cases h with
  | miss => exact ⟨by simp [Model.InRange], fun hne => absurd rfl hne⟩
  | hit n hpos hle haccepts hrange => exact ⟨hrange, fun _ => haccepts⟩

/-- Feeding the rest is feeding the prompt. -/
theorem feed_remaining (state : GenerationState α ρ) (p : List Token × Match (Entry α ρ ℓ)) :
    laws.feed state.identity.adapter (startRow laws state ρ₀ p) (remaining p) =
      laws.feed state.identity.adapter ρ₀ p.1 := by
  rw [startRow, remaining, ← laws.feed_append, List.take_append_drop]

theorem logits_remaining {state : GenerationState α ρ} {p : List Token × Match (Entry α ρ ℓ)}
    (h : p.2.length ≤ p.1.length) :
    (laws.logits state.identity.adapter (startRow laws state ρ₀ p) (remaining p)).or
        (startLogits laws state ρ₀ p) =
      laws.logits state.identity.adapter ρ₀ p.1 := by
  by_cases hfull : p.2.length = p.1.length
  · have hnil : remaining p = [] := List.drop_eq_nil_of_le (Nat.le_of_eq hfull.symm)
    rw [hnil, laws.logits_nil, startLogits, if_pos hfull, Option.none_or]
  · have hne : remaining p ≠ [] := fun hnil =>
      hfull (Nat.le_antisymm h (List.drop_eq_nil_iff.mp hnil))
    rw [startLogits, if_neg hfull, Option.or_none, startRow, ← laws.logits_append _ _ _ hne,
      remaining, List.take_append_drop]

/-- The rest is refused exactly if the prompts are. -/
theorem feasible_remaining (hfresh : Fresh m job ρ₀)
    (hserved : List.Forall₂ (Served laws job.state ρ₀) job.promptIds hits) :
    Feasible m job.state.identity.adapter ((orderedHits job.promptIds hits).map remaining) 0 ↔
      Feasible m job.state.identity.adapter job.promptIds 0 := by
  obtain ⟨hall, hcover⟩ := served_orderedHits hserved
  constructor
  · rintro ⟨hrange, haccepts⟩
    constructor
    · intro batch hbatch token htoken
      obtain ⟨prompt, hprompt, rfl⟩ := List.mem_map.mp hbatch
      obtain ⟨p, hp, rfl⟩ := hcover prompt hprompt
      rw [List.drop_zero, ← List.take_append_drop p.2.length p.1] at htoken
      rcases List.mem_append.mp htoken with htoken | htoken
      · exact (hall p hp).1.accepted.1 _ (List.mem_singleton.mpr rfl) token htoken
      · refine hrange _ (List.mem_map.mpr ⟨remaining p, List.mem_map.mpr ⟨p, hp, rfl⟩, rfl⟩)
          token ?_
        rwa [List.drop_zero]
    · rintro ⟨prompt, hprompt, hlong⟩
      obtain ⟨p, hp, rfl⟩ := hcover prompt hprompt
      by_cases hmiss : p.2.length = 0
      · refine haccepts ⟨remaining p, List.mem_map.mpr ⟨p, hp, rfl⟩, ?_⟩
        rwa [remaining, hmiss, List.drop_zero]
      · exact (hall p hp).1.accepted.2 hmiss
  · rintro ⟨hrange, haccepts⟩
    constructor
    · intro batch hbatch token htoken
      obtain ⟨rest, hrest, rfl⟩ := List.mem_map.mp hbatch
      obtain ⟨p, hp, rfl⟩ := List.mem_map.mp hrest
      rw [List.drop_zero] at htoken
      refine hrange _ (List.mem_map.mpr ⟨p.1, (hall p hp).2, rfl⟩) token ?_
      rw [List.drop_zero]
      exact List.mem_of_mem_drop htoken
    · intro _
      obtain ⟨prompt, hprompt⟩ := List.exists_mem_of_ne_nil _ hfresh.nonempty
      exact haccepts ⟨prompt, hprompt, List.length_pos_iff.mpr (hfresh.prompts prompt hprompt)⟩

/-- The batch after prompts that were fed from the first token on. -/
def fedBy (laws : RowLaws m) (job : Job α ρ) (ρ₀ : ρ) (promptIds : List (List Token)) :
    GenerationState α ρ :=
  { job.state with
    identity := m.advancedIdentity job.state
    rows := promptIds.map (laws.feed job.state.identity.adapter ρ₀) }

/-- The batch after the loop over the hits, fed with the rest. -/
theorem prefilled_remaining (hfresh : Fresh m job ρ₀)
    (hserved : List.Forall₂ (Served laws job.state ρ₀) job.promptIds hits)
    {s : Placed α ρ ℓ}
    (h : PlacedAt laws job.state ρ₀ (orderedHits job.promptIds hits) 0 s) :
    prefilled laws s.state ((orderedHits job.promptIds hits).map remaining) =
        fedBy laws job ρ₀ ((orderedHits job.promptIds hits).map Prod.fst) ∧
      prefilledLogits laws s.state s.logits.rows
          ((orderedHits job.promptIds hits).map remaining) =
        { rows := ((orderedHits job.promptIds hits).map Prod.fst).map
            (laws.logits job.state.identity.adapter ρ₀) } := by
  obtain ⟨hall, hcover⟩ := served_orderedHits hserved
  have hadapter : s.state.identity.adapter = job.state.identity.adapter := by
    rw [h.state_eq]
    exact startIdentity_adapter
  have hadvanced : m.advancedIdentity s.state = m.advancedIdentity job.state := by
    rw [h.state_eq]
    unfold startIdentity
    split <;> rfl
  have hidentity : (if ∀ rest ∈ (orderedHits job.promptIds hits).map remaining, rest = [] then
      s.state.identity else m.advancedIdentity s.state) = m.advancedIdentity job.state := by
    split
    · rename_i hnil
      obtain ⟨prompt, hprompt⟩ := List.exists_mem_of_ne_nil _ hfresh.nonempty
      obtain ⟨p, hp, rfl⟩ := hcover prompt hprompt
      rw [h.state_eq]
      refine if_neg fun hmiss => hfresh.prompts p.1 hprompt ?_
      have hrest := hnil (remaining p) (List.mem_map.mpr ⟨p, hp, rfl⟩)
      rwa [remaining, hmiss p hp, List.drop_zero] at hrest
    · exact hadvanced
  constructor
  · have hrows : List.zipWith (laws.feed job.state.identity.adapter) s.state.rows
        ((orderedHits job.promptIds hits).map remaining) =
        ((orderedHits job.promptIds hits).map Prod.fst).map
          (laws.feed job.state.identity.adapter ρ₀) := by
      rw [h.state_eq]
      simp only [List.replicate_zero, List.append_nil, List.zipWith_map, List.zipWith_self,
        feed_remaining, List.map_map]
      rfl
    rw [prefilled, hidentity, hadapter, hrows, h.state_eq, fedBy]
  · rw [prefilledLogits, hadapter, h.logits_eq, h.state_eq]
    simp only [List.replicate_zero, List.append_nil, List.zip_map', List.zipWith_map,
      List.zipWith_self, List.map_map]
    congr 1
    refine List.map_congr_left fun p hp => ?_
    exact logits_remaining (hall p hp).1.length_le

/-- Every prompt was fed from the first token on, in some order of the prompts. -/
structure Finished (laws : RowLaws m) (job : Job α ρ) (ρ₀ : ρ) (order : List Nat)
    (result : Prefilled α ρ ℓ) : Prop where
  feasible : Feasible m job.state.identity.adapter job.promptIds 0
  perm : order.Perm (List.range job.promptIds.length)
  prompts : result.promptIds = order.map (fun i => job.promptIds.getD i [])
  originals : result.sortedToOriginal = order.map (fun i => job.sortedToOriginal.getD i 0)
  state : result.state = fedBy laws job ρ₀ result.promptIds
  logits : result.logits.rows =
    result.promptIds.map (laws.logits job.state.identity.adapter ρ₀)

/-- `prefill_cached` between the lookups and the publications. -/
theorem prefillHits_spec (hfresh : Fresh m job ρ₀)
    (hserved : List.Forall₂ (Served laws job.state ρ₀) job.promptIds hits)
    (hchunk : 0 < chunkSize) :
    (∃ result staging, prefillHits m chunkSize job hits = .ok (result, staging) ∧
      Staged m job.state staging ∧
      Finished laws job ρ₀ (remainingOrder job.promptIds hits) result) ∨
    (¬ Feasible m job.state.identity.adapter job.promptIds 0 ∧
      ∃ e, prefillHits m chunkSize job hits = .error e) := by
  obtain ⟨hall, hcover⟩ := served_orderedHits hserved
  have hlength : (orderedHits job.promptIds hits).length = job.promptIds.length := by
    rw [orderedHits, List.length_map, (remainingOrder_perm hserved.length_eq.symm).length_eq,
      List.length_range]
  let start : Placed α ρ ℓ :=
    { staging :=
        { identity := Identity.default
          wkv32 := m.wkv32
          rows := List.replicate 1 m.zeroRow
          textStopTail := [] }
      state := job.state
      logits := { rows := List.replicate job.promptIds.length none } }
  have hstart : PlacedAt laws job.state ρ₀ [] (orderedHits job.promptIds hits).length start := by
    refine
      { state_eq := ?_
        logits_eq := ?_
        staged := ⟨rfl, rfl, fun hadvanced => absurd hadvanced Bool.false_ne_true⟩ }
    · have hidentity : startIdentity m job.state
          ([] : List (List Token × Match (Entry α ρ ℓ))) = job.state.identity :=
        if_pos fun p hp => absurd hp List.not_mem_nil
      rw [hidentity, hlength, List.map_nil, List.nil_append, ← hfresh.rows]
    · rw [hlength, List.map_nil, List.nil_append]
  obtain ⟨s, hplace, hplaced⟩ := placeHits_spec hfresh.wkv32 hfresh.initial
    (fun p hp => (hall p hp).1) (fun p hp => hfresh.prompts p.1 (hall p hp).2) hstart
  rw [List.nil_append] at hplaced
  have hrun : prefillHits m chunkSize job hits =
      (prefillBatchChunked m chunkSize ((orderedHits job.promptIds hits).map remaining) s.state
        s.logits).map (fun r =>
          ({ promptIds :=
              (remainingOrder job.promptIds hits).map (fun i => job.promptIds.getD i [])
             sortedToOriginal :=
              (remainingOrder job.promptIds hits).map (fun i => job.sortedToOriginal.getD i 0)
             state := r.1
             logits := r.2
             cachedPromptTokens := (hits.map Match.length).sum }, s.staging)) := by
    have hrest : ((remainingOrder job.promptIds hits).map
        (fun i => (job.promptIds.getD i [], hits.getD i ⟨none, 0⟩))).map
          (fun row => row.1.drop row.2.length) =
        (orderedHits job.promptIds hits).map remaining := rfl
    simp only [orderedHits, List.length_nil, start] at hplace
    unfold prefillHits
    rw [Model.createState_ok Nat.one_pos]
    simp only [bind, Except.bind]
    rw [hplace]
    simp only [hrest]
    cases prefillBatchChunked m chunkSize ((orderedHits job.promptIds hits).map remaining)
      s.state s.logits <;> rfl
  have hbatch : Batch m ((orderedHits job.promptIds hits).map remaining) s.state
      s.logits.rows := by
    refine
      { consistent := fun hadvanced => ?_
        wkv32 := ?_
        rows := ?_
        logits := ?_ }
    · rw [hplaced.state_eq] at hadvanced ⊢
      have hidentity := startIdentity_advanced hfresh.initial hadvanced
      change startIdentity m job.state _ = _
      rw [hidentity]
      rfl
    · rw [hplaced.state_eq]
      exact hfresh.wkv32
    · rw [hplaced.state_eq]
      simp
    · rw [hplaced.logits_eq]
      simp
  have hne : (orderedHits job.promptIds hits).map remaining ≠ [] := by
    refine fun hnil => hfresh.nonempty (List.length_eq_zero_iff.mp ?_)
    rw [← hlength, List.map_eq_nil_iff.mp hnil, List.length_nil]
  have hadapter : s.state.identity.adapter = job.state.identity.adapter := by
    rw [hplaced.state_eq]
    exact startIdentity_adapter
  have hfed := prefilled_remaining hfresh hserved hplaced
  have hprompts : (orderedHits job.promptIds hits).map Prod.fst =
      (remainingOrder job.promptIds hits).map (fun i => job.promptIds.getD i []) := by
    rw [orderedHits, List.map_map]
    rfl
  have hcases := prefillBatchChunked_spec laws hbatch
    (descending_remaining hserved.length_eq.symm) hchunk hne (Or.inl rfl)
  rw [hadapter, feasible_remaining hfresh hserved] at hcases
  rcases hcases with ⟨hfeasible, hok⟩ | ⟨hnot, e, hfail⟩
  · left
    rw [hok, hfed.1, hfed.2, hprompts] at hrun
    exact ⟨_, _, hrun, hplaced.staged, hfeasible, remainingOrder_perm hserved.length_eq.symm,
      rfl, rfl, rfl, rfl⟩
  · right
    rw [hfail] at hrun
    exact ⟨hnot, e, hrun⟩

/-- `prefill_batch_chunked` of the whole batch. -/
theorem prefillPlain_spec (laws : RowLaws m) (hfresh : Fresh m job ρ₀) (hchunk : 0 < chunkSize) :
    (Feasible m job.state.identity.adapter job.promptIds 0 ∧
      prefillPlain m chunkSize job = .ok (fedBy laws job ρ₀ job.promptIds,
        { rows := job.promptIds.map (laws.logits job.state.identity.adapter ρ₀) })) ∨
    (¬ Feasible m job.state.identity.adapter job.promptIds 0 ∧
      ∃ e, prefillPlain m chunkSize job = .error e) := by
  have hbatch : Batch m job.promptIds job.state
      (List.replicate job.promptIds.length (none : Option ℓ)) :=
    { consistent := fun hadvanced => by
        rw [hfresh.initial] at hadvanced
        exact absurd hadvanced Bool.false_ne_true
      wkv32 := hfresh.wkv32
      rows := by rw [hfresh.rows, List.length_replicate]
      logits := List.length_replicate }
  have hempty : (DeviceLogits.empty : DeviceLogits ℓ).rows.length ≠ job.promptIds.length :=
    fun hzero => hfresh.nonempty (List.length_eq_zero_iff.mp hzero.symm)
  have hsome : ¬ ∀ prompt ∈ job.promptIds, prompt = [] := by
    intro hnil
    obtain ⟨prompt, hprompt⟩ := List.exists_mem_of_ne_nil _ hfresh.nonempty
    exact hfresh.prompts prompt hprompt (hnil prompt hprompt)
  have hreplicate : ∀ {β γ : Type} (f : β → List Token → γ) (b : β) (prompts : List (List Token)),
      List.zipWith f (List.replicate prompts.length b) prompts = prompts.map (f b) := by
    intro β γ f b prompts
    rw [← List.map_const', List.zipWith_map_left, List.zipWith_self]
  rcases prefillBatchChunked_spec laws hbatch hfresh.descending hchunk hfresh.nonempty
    (Or.inr ⟨hempty, hfresh.prompts⟩) with ⟨hfeasible, hok⟩ | hfail
  · refine Or.inl ⟨hfeasible, hok.trans ?_⟩
    rw [prefilled, if_neg hsome, prefilledLogits, hfresh.rows, List.zip_replicate', hreplicate,
      hreplicate, fedBy]
    simp only [Option.or_none]
  · exact Or.inr hfail

/-- A batch in another order. -/
structure Reordered (job : Job α ρ) (order : List Nat) (state : GenerationState α ρ)
    (logits : DeviceLogits ℓ) (result : Prefilled α ρ ℓ) : Prop where
  perm : order.Perm (List.range job.promptIds.length)
  metadata : result.state = { state with rows := result.state.rows }
  rows : ∀ row i : Nat, order[row]? = some i →
    result.promptIds[row]? = job.promptIds[i]? ∧
      result.sortedToOriginal[row]? = job.sortedToOriginal[i]? ∧
      result.state.rows[row]? = state.rows[i]? ∧
      result.logits.rows[row]? = logits.rows[i]?

/-- A finished batch is that of a prefill without a cache. -/
theorem Finished.reordered (hfresh : Fresh m job ρ₀) (hchunk : 0 < chunkSize)
    {order : List Nat} {result : Prefilled α ρ ℓ} (h : Finished laws job ρ₀ order result) :
    ∃ state logits, prefillPlain m chunkSize job = .ok (state, logits) ∧
      Reordered job order state logits result := by
  rcases prefillPlain_spec laws hfresh hchunk with ⟨-, hplain⟩ | ⟨hnot, -⟩
  · refine ⟨_, _, hplain, h.perm, ?_, fun row i hi => ?_⟩
    · rw [h.state]
      rfl
    · have hlt : i < job.promptIds.length :=
        List.mem_range.mp (h.perm.mem_iff.mp (List.mem_of_getElem? hi))
      have hprompt : result.promptIds[row]? = job.promptIds[i]? := by
        rw [h.prompts, List.getElem?_map, hi, Option.map_some, List.getD_eq_getElem _ _ hlt,
          List.getElem?_eq_getElem hlt]
      have hlt' : i < job.sortedToOriginal.length := hfresh.originals ▸ hlt
      refine ⟨hprompt, ?_, ?_, ?_⟩
      · rw [h.originals, List.getElem?_map, hi, Option.map_some, List.getD_eq_getElem _ _ hlt',
          List.getElem?_eq_getElem hlt']
      · rw [h.state, fedBy, fedBy, List.getElem?_map, List.getElem?_map, hprompt]
      · rw [h.logits, List.getElem?_map, List.getElem?_map, hprompt]
  · exact absurd h.feasible hnot

/--
With whatever hits, `prefill_cached` fails exactly if a prefill without a cache does, and else
leaves every prompt the row, the logits and the place in the request that this one leaves it.
-/
theorem prefillHits_exact (hfresh : Fresh m job ρ₀)
    (hserved : List.Forall₂ (Served laws job.state ρ₀) job.promptIds hits)
    (hchunk : 0 < chunkSize) :
    (∃ e e', prefillPlain m chunkSize job = .error e ∧
      prefillHits m chunkSize job hits = .error e') ∨
    ∃ state logits result staging, prefillPlain m chunkSize job = .ok (state, logits) ∧
      prefillHits m chunkSize job hits = .ok (result, staging) ∧
      Reordered job (remainingOrder job.promptIds hits) state logits result := by
  rcases prefillHits_spec hfresh hserved hchunk with
    ⟨result, staging, hrun, -, hfinished⟩ | ⟨hnot, e', hrun⟩
  · obtain ⟨state, logits, hplain, hreordered⟩ := hfinished.reordered hfresh hchunk
    exact Or.inr ⟨state, logits, result, staging, hplain, hrun, hreordered⟩
  · rcases prefillPlain_spec laws hfresh hchunk with ⟨hfeasible, -⟩ | ⟨-, e, hplain⟩
    · exact absurd hfeasible hnot
    · exact Or.inl ⟨e, e', hplain, hrun⟩

/-- Three prompts for the recorder. -/
def threePrompts : Job Unit (List Token) where
  promptIds := [[1, 2, 3], [1, 2], [4]]
  sortedToOriginal := [2, 0, 1]
  state := { recorderState with rows := [[], [], []] }

/-- Two tokens of the first prompt were cached, and all of the second. -/
def threeHits : List (Match (Entry Unit (List Token) (List Token))) :=
  [⟨some (entryOf recorderLaws threePrompts.state [] [1, 2, 3] 2), 2⟩,
    ⟨some (entryOf recorderLaws threePrompts.state [] [1, 2] 2), 2⟩, ⟨none, 0⟩]

theorem prefillHits_exact_three :
    ∃ state logits result staging, prefillPlain recorder 2 threePrompts = .ok (state, logits) ∧
      prefillHits recorder 2 threePrompts threeHits = .ok (result, staging) ∧
      Reordered threePrompts (remainingOrder threePrompts.promptIds threeHits) state logits
        result := by
  have hfresh : Fresh recorder threePrompts [] :=
    { initial := rfl
      wkv32 := rfl
      rows := rfl
      originals := rfl
      nonempty := by decide
      prompts := by decide
      descending := by simp [Descending, threePrompts] }
  have hserved : List.Forall₂ (Served recorderLaws threePrompts.state []) threePrompts.promptIds
      threeHits :=
    .cons (.hit 2 (by decide) (by decide) ⟨rfl, rfl⟩ (by decide))
      (.cons (.hit 2 (by decide) (by decide) ⟨rfl, rfl⟩ (by decide)) (.cons .miss .nil))
  have hok : (prefillPlain recorder 2 threePrompts).isOk = true := by decide
  rcases prefillHits_exact hfresh hserved (by decide : 0 < 2) with ⟨e, e', hplain, -⟩ | h
  · rw [hplain] at hok
    exact absurd hok Bool.false_ne_true
  · exact h

end Exact

end PromptCache
end RwkvLightning

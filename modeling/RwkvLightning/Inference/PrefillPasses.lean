import RwkvLightning.Inference.Prefill
import Mathlib

/-!
# The passes of the chunked prefill

The loop of `prefill_batch_chunked` as the passes that it makes, with the portions that
each forward call gets.

**Results.**
* `exists_passes`: the loop ends, and the bounded loop is this one.
* `Passes.feeds`: what the calls feed to every row.
* `Passes.error_ne`: the logits are there when they are needed.
* `prefillBatchChunked_exact`: the calls, and the state and the logits of every row as if
  it had been prefilled alone.
-/

namespace RwkvLightning
namespace Prefill

open Backend

section Calls

variable {α ρ ℓ : Type}

/-- The error of a pass over some rows without logits to put theirs in. -/
def notInitialized : String :=
  "batched prefill logits were not initialized"

/-- The positions after a pass. -/
def nextPos (chunkSize : Nat) (prompts : List (List Token)) (pos : List Nat) : List Nat :=
  (pos.take (activeCount prompts pos)).map (· + chunkStep chunkSize prompts pos) ++
    pos.drop (activeCount prompts pos)

/-- The loop: the portions of each forward call, and the result. -/
inductive Passes (m : Model α ρ ℓ) (chunkSize : Nat) (prompts : List (List Token)) :
    Progress α ρ ℓ → List (List (List Token)) → Except String (Progress α ρ ℓ) → Prop where
  | done {s : Progress α ρ ℓ} (hactive : activeCount prompts s.pos = 0) :
      Passes m chunkSize prompts s [] (.ok s)
  | failed {s : Progress α ρ ℓ} {e : String} (hactive : activeCount prompts s.pos ≠ 0)
      (hrun : forwardActive m prompts (chunkTokens chunkSize prompts s.pos) s = .error e) :
      Passes m chunkSize prompts s [chunkTokens chunkSize prompts s.pos] (.error e)
  | pass {s s' : Progress α ρ ℓ} {calls : List (List (List Token))}
      {r : Except String (Progress α ρ ℓ)} (hactive : activeCount prompts s.pos ≠ 0)
      (hrun : forwardActive m prompts (chunkTokens chunkSize prompts s.pos) s = .ok s')
      (hrest : Passes m chunkSize prompts
        { s' with pos := nextPos chunkSize prompts s.pos } calls r) :
      Passes m chunkSize prompts s (chunkTokens chunkSize prompts s.pos :: calls) r

/-- What some calls feed to row `i`. -/
def portionsOf (calls : List (List (List Token))) (i : Nat) : List Token :=
  (calls.map (fun call => call.getD i [])).flatten

/--
The calls feed the prompts from position `c` on: in portions of one length that is at most
the chunk size, to the rows that still have tokens, each token once and in order.
-/
structure Feeds (chunkSize : Nat) (prompts : List (List Token)) (c : Nat)
    (calls : List (List (List Token))) (complete : Prop) : Prop where
  portions : ∀ call ∈ calls, call ≠ [] ∧ call.length ≤ prompts.length ∧
    ∃ n, 0 < n ∧ n ≤ chunkSize ∧ ∀ portion ∈ call, portion.length = n
  active : ∀ before call after, calls = before ++ call :: after →
    ∀ i prompt, prompts[i]? = some prompt →
      (i < call.length ↔ (portionsOf before i).length < (prompt.drop c).length)
  fed : ∀ i prompt, prompts[i]? = some prompt →
    portionsOf calls i <+: prompt.drop c ∧ (complete → portionsOf calls i = prompt.drop c)

end Calls

section Loop

variable {α ρ ℓ : Type} {m : Model α ρ ℓ} {prompts active idle : List (List Token)}
variable {chunkSize c n : Nat} {s : Progress α ρ ℓ}

theorem Split.nextPos_eq
    (h : Split prompts active idle c) (hchunk : 0 < chunkSize) :
    nextPos chunkSize prompts (positions prompts c) =
      positions prompts (c + chunkStep chunkSize prompts (positions prompts c)) := by
  obtain ⟨hcount, -⟩ := h.takeActive
  obtain ⟨-, -, hbound⟩ := h.chunkStep_bounds hchunk
  rw [nextPos, hcount]
  exact h.positions_step hbound

/-- The loop ends, and the bounded loop is this one when the bound covers the prompts. -/
theorem exists_passes
    (hdescending : Descending prompts) (hchunk : 0 < chunkSize) {fuel : Nat}
    (hfuel : ∀ prompt ∈ prompts, prompt.length ≤ c + fuel)
    (hpos : s.pos = positions prompts c) :
    ∃ calls, Passes m chunkSize prompts s calls (prefillLoop m chunkSize prompts fuel s) := by
  induction fuel generalizing c s with
  | zero =>
      obtain ⟨active, idle, hsplit⟩ := exists_split hdescending c
      refine ⟨[], Passes.done ?_⟩
      rw [hpos, hsplit.takeActive.1, List.length_eq_zero_iff]
      by_contra hne
      obtain ⟨prompt, hprompt⟩ := List.exists_mem_of_ne_nil active hne
      have hlong := hsplit.longer prompt hprompt
      have hshort := hfuel prompt (by simp [hsplit.append, hprompt])
      omega
  | succ fuel ih =>
      rw [prefillLoop]
      by_cases hactive : activeCount prompts s.pos = 0
      · rw [if_pos hactive]
        exact ⟨[], Passes.done hactive⟩
      rw [if_neg hactive]
      cases hrun : forwardActive m prompts (chunkTokens chunkSize prompts s.pos) s with
      | error e => exact ⟨_, Passes.failed hactive hrun⟩
      | ok s' =>
          obtain ⟨active, idle, hsplit⟩ := exists_split hdescending c
          obtain ⟨hstep, -, -⟩ := hsplit.chunkStep_bounds hchunk
          have hnext : nextPos chunkSize prompts s.pos =
              positions prompts (c + chunkStep chunkSize prompts (positions prompts c)) := by
            rw [hpos]
            exact hsplit.nextPos_eq hchunk
          have hfuel' : ∀ prompt ∈ prompts, prompt.length ≤
              c + chunkStep chunkSize prompts (positions prompts c) + fuel := by
            intro prompt hprompt
            have hle := hfuel prompt hprompt
            omega
          obtain ⟨calls, hcalls⟩ := ih (s := { s' with pos := nextPos chunkSize prompts s.pos })
            hfuel' hnext
          exact ⟨_, Passes.pass hactive hrun hcalls⟩

/-- The portion of a row in a call. -/
theorem Split.portion
    (h : Split prompts active idle c) {i : Nat} {prompt : List Token}
    (hi : prompts[i]? = some prompt) :
    (active.map (fun prompt => (prompt.drop c).take n)).getD i [] = (prompt.drop c).take n ∧
      (i < active.length ↔ c < prompt.length) := by
  rw [h.append] at hi
  by_cases hlt : i < active.length
  · rw [List.getElem?_append_left hlt] at hi
    have hmem := List.mem_of_getElem? hi
    refine ⟨?_, iff_of_true hlt (h.longer prompt hmem)⟩
    rw [List.getD, List.getElem?_map, hi]
    rfl
  · rw [List.getElem?_append_right (by omega)] at hi
    have hshort := h.shorter prompt (List.mem_of_getElem? hi)
    refine ⟨?_, iff_of_false hlt (by omega)⟩
    rw [List.getD, List.getElem?_eq_none (by rw [List.length_map]; omega),
      List.drop_eq_nil_of_le hshort, List.take_nil]
    rfl

theorem portionsOf_cons (call : List (List Token)) (calls : List (List (List Token))) (i : Nat) :
    portionsOf (call :: calls) i = call.getD i [] ++ portionsOf calls i := rfl

/-- One more call in front. -/
theorem Feeds.cons
    {calls : List (List (List Token))} {complete : Prop}
    (hsplit : Split prompts active idle c) (hactive : active ≠ [])
    (hn : 0 < n) (hle : n ≤ chunkSize) (hbound : ∀ prompt ∈ active, c + n ≤ prompt.length)
    (h : Feeds chunkSize prompts (c + n) calls complete) :
    Feeds chunkSize prompts c
      (active.map (fun prompt => (prompt.drop c).take n) :: calls) complete := by
  refine
    { portions := ?_
      active := ?_
      fed := ?_ }
  · intro call hcall
    rcases List.mem_cons.mp hcall with rfl | hcall
    · refine ⟨by simpa using hactive, ?_, n, hn, hle, length_chunk hbound⟩
      rw [List.length_map, hsplit.append, List.length_append]
      omega
    · exact h.portions call hcall
  · intro before call after heq i prompt hi
    obtain ⟨hportion, hlong⟩ := hsplit.portion (n := n) hi
    cases before with
    | nil =>
        rw [List.nil_append, List.cons.injEq] at heq
        rw [← heq.1, List.length_map, hlong, List.length_drop]
        have hzero : (portionsOf [] i).length = 0 := rfl
        omega
    | cons first before =>
        rw [List.cons_append, List.cons.injEq] at heq
        have hrest := h.active before call after heq.2 i prompt hi
        rw [← heq.1, portionsOf_cons, hportion, hrest, List.length_append, List.length_take,
          List.length_drop, List.length_drop]
        omega
  · intro i prompt hi
    obtain ⟨hportion, -⟩ := hsplit.portion (n := n) hi
    obtain ⟨hpre, hcomplete⟩ := h.fed i prompt hi
    have hcut : prompt.drop c = (prompt.drop c).take n ++ prompt.drop (c + n) := by
      rw [← List.drop_drop, List.take_append_drop]
    rw [portionsOf_cons, hportion]
    constructor
    · conv => rhs; rw [hcut]
      exact (List.prefix_append_right_inj _).mpr hpre
    · intro hdone
      rw [hcomplete hdone, ← hcut]

/-- No call is made. -/
theorem Feeds.nil {complete : Prop} (h : complete → ∀ prompt ∈ prompts, prompt.length ≤ c) :
    Feeds chunkSize prompts c [] complete := by
  refine
    { portions := by simp
      active := by simp
      fed := ?_ }
  intro i prompt hi
  refine ⟨List.nil_prefix, fun hdone => ?_⟩
  rw [List.drop_eq_nil_of_le (h hdone prompt (List.mem_of_getElem? hi))]
  rfl

/-- What the calls of the loop feed. -/
theorem Passes.feeds
    {calls : List (List (List Token))} {r : Except String (Progress α ρ ℓ)}
    (h : Passes m chunkSize prompts s calls r) (hdescending : Descending prompts)
    (hchunk : 0 < chunkSize) (hpos : s.pos = positions prompts c) :
    Feeds chunkSize prompts c calls (∃ s', r = .ok s') := by
  induction h generalizing c with
  | done hactive =>
      obtain ⟨active, idle, hsplit⟩ := exists_split hdescending c
      refine Feeds.nil (fun _ => ?_)
      rw [hpos, hsplit.takeActive.1, List.length_eq_zero_iff] at hactive
      rw [hsplit.append, hactive]
      exact hsplit.shorter
  | failed hactive hrun =>
      obtain ⟨active, idle, hsplit⟩ := exists_split hdescending c
      obtain ⟨hstep, hle, hbound⟩ := hsplit.chunkStep_bounds hchunk
      rw [hpos, hsplit.takeActive.1] at hactive
      rw [hpos, hsplit.chunkTokens_eq]
      exact Feeds.cons hsplit (fun hnil => hactive (by rw [hnil]; rfl)) hstep hle hbound
        (Feeds.nil (by simp))
  | pass hactive hrun hrest ih =>
      obtain ⟨active, idle, hsplit⟩ := exists_split hdescending c
      obtain ⟨hstep, hle, hbound⟩ := hsplit.chunkStep_bounds hchunk
      have hpos' := hsplit.nextPos_eq hchunk
      rw [← hpos] at hpos' hstep hle hbound
      have hnext := ih hpos'
      have htokens := hsplit.chunkTokens_eq chunkSize
      have hcount := hsplit.takeActive.1
      rw [← hpos] at htokens hcount
      rw [hcount] at hactive
      rw [htokens]
      exact Feeds.cons hsplit (fun hnil => hactive (by rw [hnil]; rfl)) hstep hle hbound hnext

end Loop

section NotInitialized

variable {α ρ ℓ β γ : Type} {m : Model α ρ ℓ} {prompts : List (List Token)}
variable {chunkSize : Nat} {s s' : Progress α ρ ℓ}

/-- The result is not the error that logits are missing, and a value is as it should be. -/
structure Initialized (r : Except String β) (post : β → Prop) : Prop where
  error : r ≠ .error notInitialized
  value : ∀ b, r = .ok b → post b

theorem Initialized.ok {b : β} {post : β → Prop} (h : post b) :
    Initialized (.ok b : Except String β) post := by
  refine ⟨by simp, ?_⟩
  rintro b ⟨⟩
  exact h

theorem Initialized.bind
    {x : Except String β} {f : β → Except String γ} {post : γ → Prop}
    (hx : x ≠ .error notInitialized) (hf : ∀ b, Initialized (f b) post) :
    Initialized (x >>= f) post := by
  cases x with
  | error e =>
      refine ⟨fun heq => hx (congrArg Except.error (Except.error.inj heq)), ?_⟩
      rintro b ⟨⟩
  | ok b => exact hf b

theorem createState_error (batchSize : Nat) :
    m.createState batchSize ≠ .error notInitialized := by
  unfold Model.createState
  split <;> simp [notInitialized]

theorem copyStateSlice_error
    (src dst : GenerationState α ρ) (srcOffset dstOffset count : Nat) :
    m.copyStateSlice src srcOffset dst dstOffset count ≠ .error notInitialized := by
  unfold Model.copyStateSlice
  repeat' split
  all_goals simp [notInitialized]

theorem copyLogitsSlice_error
    (src dst : DeviceLogits ℓ) (srcOffset dstOffset count : Nat) :
    copyLogitsSlice src srcOffset dst dstOffset count ≠ .error notInitialized := by
  unfold copyLogitsSlice
  repeat' split
  all_goals simp [notInitialized]

theorem forwardPrefill_error
    (tokenBatches : List (List Token)) (state : GenerationState α ρ) :
    m.forwardPrefill tokenBatches state ≠ .error notInitialized := by
  unfold Model.forwardPrefill Model.runBackendForward
  repeat' split
  all_goals simp [notInitialized]

/-- A pass that can put its logits somewhere. -/
theorem forwardActive_initialized
    {tokens : List (List Token)}
    (h : s.initializedLogits = true ∨ tokens.length = prompts.length) :
    Initialized (forwardActive m prompts tokens s) (fun s' => s'.initializedLogits = true) := by
  unfold forwardActive
  by_cases hall : tokens.length = prompts.length
  · rw [if_pos hall]
    have hforward := forwardPrefill_error (m := m) tokens s.state
    cases hrun : m.forwardPrefill tokens s.state with
    | error e =>
        rw [hrun] at hforward
        refine ⟨fun heq => hforward (congrArg Except.error (Except.error.inj heq)), ?_⟩
        rintro s' ⟨⟩
    | ok r => exact Initialized.ok rfl
  · have hinit := h.resolve_right hall
    rw [if_neg hall]
    simp only [hinit, Bool.not_true, Bool.false_eq_true, if_false]
    refine Initialized.bind (createState_error _) (fun sub => ?_)
    refine Initialized.bind (copyStateSlice_error _ _ _ _ _) (fun sub => ?_)
    refine Initialized.bind (forwardPrefill_error _ _) (fun r => ?_)
    refine Initialized.bind (copyStateSlice_error _ _ _ _ _) (fun state => ?_)
    refine Initialized.bind (copyLogitsSlice_error _ _ _ _ _) (fun logits => ?_)
    exact Initialized.ok rfl

theorem length_chunkTokens (chunkSize : Nat) (prompts : List (List Token)) (pos : List Nat) :
    (chunkTokens chunkSize prompts pos).length = activeCount prompts pos := by
  have hle : activeCount prompts pos ≤ (prompts.zip pos).length :=
    (List.takeWhile_sublist _).length_le
  rw [chunkTokens, List.length_map, List.length_take]
  exact Nat.min_eq_left hle

/-- The loop does not end for want of logits. -/
theorem Passes.error_ne
    {calls : List (List (List Token))} {r : Except String (Progress α ρ ℓ)}
    (h : Passes m chunkSize prompts s calls r)
    (hinit : s.initializedLogits = true ∨ activeCount prompts s.pos = prompts.length) :
    r ≠ .error notInitialized := by
  induction h with
  | done _ => simp
  | failed _ hrun =>
      rw [← length_chunkTokens chunkSize] at hinit
      rw [← hrun]
      exact (forwardActive_initialized hinit).error
  | pass _ hrun _ ih =>
      rw [← length_chunkTokens chunkSize] at hinit
      have hnext := (forwardActive_initialized (m := m) hinit).value _ hrun
      exact ih (Or.inl hnext)

end NotInitialized

section Exact

variable {α ρ ℓ : Type} {m : Model α ρ ℓ} {prompts : List (List Token)} {chunkSize : Nat}
variable {state₀ : GenerationState α ρ} {logits₀ : List (Option ℓ)} {logits : DeviceLogits ℓ}

/-- The logits that prefill is called with: those of the rows, or none yet. -/
def LogitsFor (prompts : List (List Token)) (logits₀ : List (Option ℓ))
    (logits : DeviceLogits ℓ) : Prop :=
  logits.rows = logits₀ ∨
    logits.rows.length ≠ prompts.length ∧ ∀ prompt ∈ prompts, prompt ≠ []

/-- The variables before the first pass. -/
def Progress.start (prompts : List (List Token)) (state : GenerationState α ρ)
    (logits : DeviceLogits ℓ) : Progress α ρ ℓ :=
  { pos := prompts.map (fun _ => 0)
    state := state
    logits := logits
    initializedLogits := logits.rows.length = prompts.length }

/-- Row `i` is as if it had been prefilled alone, in chunks of any size. -/
def RowAlone (m : Model α ρ ℓ) (prompts : List (List Token)) (state₀ : GenerationState α ρ)
    (logits₀ : List (Option ℓ)) (state : GenerationState α ρ) (logits : DeviceLogits ℓ)
    (i : Nat) : Prop :=
  ∀ prompt row out, prompts[i]? = some prompt → state₀.rows[i]? = some row →
    logits₀[i]? = some out →
    ∃ row' out', state.rows[i]? = some row' ∧ logits.rows[i]? = some out' ∧
      ∀ chunkSize single, 0 < chunkSize → LogitsFor [prompt] [out] single →
        ∃ alone, prefillBatchChunked m chunkSize [prompt] { state₀ with rows := [row] } single =
            .ok (alone, { rows := [out'] }) ∧ alone.rows = [row'] ∧
          (prompt ≠ [] → alone.identity = state.identity)

theorem feasible_row
    {prompt : List Token} (h : Feasible m state₀.identity.adapter prompts 0)
    (hmem : prompt ∈ prompts) : Feasible m state₀.identity.adapter [prompt] 0 := by
  constructor
  · intro batch hbatch
    rw [List.map_singleton, List.mem_singleton] at hbatch
    exact h.1 batch (List.mem_map.mpr ⟨prompt, hmem, hbatch.symm⟩)
  · rintro ⟨prompt', hmem', hlong⟩
    rw [List.mem_singleton] at hmem'
    exact h.2 ⟨prompt, hmem, hmem' ▸ hlong⟩

/-- The rows of a batch that is prefilled. -/
theorem prefilled_row
    (laws : RowLaws m) (hbatch : Batch m prompts state₀ logits₀)
    (hfeasible : Feasible m state₀.identity.adapter prompts 0) (i : Nat) :
    RowAlone m prompts state₀ logits₀ (prefilled laws state₀ prompts)
      (prefilledLogits laws state₀ logits₀ prompts) i := by
  intro prompt row out hprompt hrow hout
  refine ⟨laws.feed state₀.identity.adapter row prompt,
    (laws.logits state₀.identity.adapter row prompt).or out, ?_, ?_, ?_⟩
  · rw [prefilled, List.getElem?_zipWith, hrow, hprompt]
  · have hzip : (state₀.rows.zip logits₀)[i]? = some (row, out) :=
      List.getElem?_zip_eq_some.mpr ⟨hrow, hout⟩
    rw [prefilledLogits, List.getElem?_zipWith, hzip, hprompt]
  · intro chunkSize single hchunk hsingle
    have hmem := List.mem_of_getElem? hprompt
    let one : GenerationState α ρ := { state₀ with rows := [row] }
    have hone : Batch m [prompt] one [out] :=
      { consistent := hbatch.consistent
        wkv32 := hbatch.wkv32
        rows := rfl
        logits := rfl }
    have hdescending : Descending [prompt] := List.pairwise_singleton _ _
    rcases prefillBatchChunked_spec laws hone hdescending hchunk (by simp) hsingle with
      ⟨-, hrun⟩ | ⟨hnot, -⟩
    · refine ⟨_, hrun, rfl, ?_⟩
      intro hne
      have hsome : ¬ ∀ prompt' ∈ [prompt], prompt' = [] := by simpa using hne
      have hall : ¬ ∀ prompt' ∈ prompts, prompt' = [] := fun h => hne (h prompt hmem)
      simp only [prefilled, if_neg hsome, if_neg hall]
      rfl
    · exact absurd (feasible_row hfeasible hmem) hnot

/--
The loop ends; its calls feed every row its tokens once and in order, in portions within
the chunk size and only while it has tokens; it does not fail for want of logits; and it
ends with every row as if prefilled alone, unless a forward pass refuses the tokens or the
adapter.
-/
theorem prefillBatchChunked_exact
    (laws : RowLaws m) (hbatch : Batch m prompts state₀ logits₀)
    (hdescending : Descending prompts) (hchunk : 0 < chunkSize) (hne : prompts ≠ [])
    (hlogits : LogitsFor prompts logits₀ logits) :
    ∃ calls r,
      Passes m chunkSize prompts (Progress.start prompts state₀ logits) calls r ∧
      prefillBatchChunked m chunkSize prompts state₀ logits =
        r.map (fun s => (s.state, s.logits)) ∧
      Feeds chunkSize prompts 0 calls (∃ s, r = .ok s) ∧
      r ≠ .error notInitialized ∧
      ((∃ s, r = .ok s) ↔ Feasible m state₀.identity.adapter prompts 0) ∧
      ∀ s, r = .ok s → ∀ i, RowAlone m prompts state₀ logits₀ s.state s.logits i := by
  have hpos : (Progress.start prompts state₀ logits).pos = positions prompts 0 := by
    simp [Progress.start, positions]
  have hfuel : ∀ prompt ∈ prompts, prompt.length ≤ 0 + (prompts.map List.length).sum := by
    intro prompt hprompt
    rw [Nat.zero_add]
    exact List.single_le_sum (by simp) _ (List.mem_map.mpr ⟨prompt, hprompt, rfl⟩)
  obtain ⟨calls, hpasses⟩ := exists_passes (m := m) hdescending hchunk hfuel hpos
  have hinit : (Progress.start prompts state₀ logits).initializedLogits = true ∨
      activeCount prompts (Progress.start prompts state₀ logits).pos = prompts.length := by
    rcases hlogits with heq | ⟨-, hall⟩
    · left
      simp [Progress.start, heq, hbatch.logits]
    · right
      obtain ⟨active, idle, hsplit⟩ := exists_split hdescending 0
      have hidle : idle = [] := by
        rw [List.eq_nil_iff_forall_not_mem]
        intro prompt hprompt
        refine hall prompt (by simp [hsplit.append, hprompt]) ?_
        exact List.length_eq_zero_iff.mp (Nat.le_zero.mp (hsplit.shorter prompt hprompt))
      rw [hpos, hsplit.takeActive.1, hsplit.append, hidle, List.append_nil]
  have hrun : prefillBatchChunked m chunkSize prompts state₀ logits =
      (prefillLoop m chunkSize prompts (prompts.map List.length).sum
        (Progress.start prompts state₀ logits)).map (fun s => (s.state, s.logits)) := by
    rw [prefillBatchChunked, if_neg hne, if_neg (not_not.mpr hbatch.rows)]
    unfold Progress.start
    split <;> rename_i heq <;> rw [heq] <;> rfl
  have hfeeds := hpasses.feeds hdescending hchunk hpos
  have herror := hpasses.error_ne hinit
  generalize prefillLoop m chunkSize prompts (prompts.map List.length).sum
    (Progress.start prompts state₀ logits) = r at hpasses hrun hfeeds herror
  refine ⟨calls, r, hpasses, hrun, hfeeds, herror, ?_⟩
  rcases prefillBatchChunked_spec laws hbatch hdescending hchunk hne hlogits with
    ⟨hfeasible, hok⟩ | ⟨hnot, e, hfail⟩
  · rw [hrun] at hok
    cases r with
    | error e => cases hok
    | ok s =>
        refine ⟨iff_of_true ⟨s, rfl⟩ hfeasible, ?_⟩
        rintro s' ⟨⟩ i
        have heq := Except.ok.inj hok
        rw [Prod.mk.injEq] at heq
        rw [heq.1, heq.2]
        exact prefilled_row laws hbatch hfeasible i
  · rw [hrun] at hfail
    cases r with
    | error e => exact ⟨iff_of_false (by simp) hnot, by simp⟩
    | ok s => cases hfail

/-- A model whose rows keep the tokens that they were fed. -/
def recorder : Model Unit (List Token) (List Token) where
  wkv32 := false
  vocabSize := 10
  zeroRow := []
  adapterIdentity := fun _ => []
  baseMatches := fun _ => true
  dimsMatch := fun _ => true
  effectiveModelKey := fun _ _ _ => []
  kernel := fun _ rows => rows.map (fun x => (x.1 ++ x.2, x.1 ++ x.2))

def recorderLaws : RowLaws recorder where
  row := fun _ r tokens => (r ++ tokens, r ++ tokens)
  kernel_eq := fun _ _ => rfl
  row_append := by
    intro adapter r tokens tokens' _ _
    simp [List.append_assoc]

def recorderState : GenerationState Unit (List Token) :=
  { identity := Identity.default
    wkv32 := false
    rows := [[], [7], []]
    textStopTail := [] }

/-- Three prompts, the last of them empty with logits of its own. -/
theorem prefillBatchChunked_exact_three :
    ∃ calls r,
      Passes recorder 2 [[1, 2, 3], [4], []]
        (Progress.start [[1, 2, 3], [4], []] recorderState ⟨[none, none, some [9]]⟩) calls r ∧
      prefillBatchChunked recorder 2 [[1, 2, 3], [4], []] recorderState
          ⟨[none, none, some [9]]⟩ =
        r.map (fun s => (s.state, s.logits)) ∧
      Feeds 2 [[1, 2, 3], [4], []] 0 calls (∃ s, r = .ok s) ∧
      r ≠ .error notInitialized ∧
      ((∃ s, r = .ok s) ↔
        Feasible recorder recorderState.identity.adapter [[1, 2, 3], [4], []] 0) ∧
      ∀ s, r = .ok s → ∀ i, RowAlone recorder [[1, 2, 3], [4], []] recorderState
        [none, none, some [9]] s.state s.logits i :=
  prefillBatchChunked_exact recorderLaws
    { consistent := fun h => Bool.noConfusion h
      wkv32 := rfl
      rows := rfl
      logits := rfl }
    (by simp [Descending]) (by decide) (by decide) (Or.inl rfl)

end Exact

end Prefill
end RwkvLightning

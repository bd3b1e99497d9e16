import RwkvLightning.Inference.Backend
import Mathlib

/-!
# Chunked prefill of a batch

`encode_prompts_sorted` and `prefill_batch_chunked` of
`rwkv_inference_engine.cpp`.  The prompts come in non-increasing order of their
lengths, so the rows that still have tokens are the first ones.

**Results.**  `prefillBatchChunked_spec`: when it succeeds, every row has been
fed its whole prompt and holds the logits after the last token; it fails exactly
when a prompt has a token that the model does not know, or the adapter does not
fit.
-/

namespace RwkvLightning
namespace Prefill

open Backend

variable {α ρ ℓ : Type}

/-- `encode_prompt`. -/
def encodePrompt (encode : String → List Token) (prompt : String) :
    Except String (List Token) :=
  if encode prompt = [] then .error "prompt is empty after tokenization"
  else .ok (encode prompt)

/-- The stable order by length, longest first. -/
def lengthOrder (lengths : List Nat) : List Nat :=
  (List.range lengths.length).mergeSort
    (fun lhs rhs => lengths.getD rhs 0 ≤ lengths.getD lhs 0)

/-- `encode_prompts_sorted`. -/
def encodePromptsSorted (encode : String → List Token) (prompts : List String) :
    Except String (List (List Token) × List Nat) :=
  match prompts.mapM (encodePrompt encode) with
  | .error e => .error e
  | .ok encoded =>
      let sortedToOriginal := lengthOrder (encoded.map List.length)
      .ok (sortedToOriginal.map (fun i => encoded.getD i []), sortedToOriginal)

/-- The variables of the loop of `prefill_batch_chunked`. -/
structure Progress (α ρ ℓ : Type) where
  pos : List Nat
  state : GenerationState α ρ
  logits : DeviceLogits ℓ
  initializedLogits : Bool

section Functions

variable (m : Model α ρ ℓ) (chunkSize : Nat) (prompts : List (List Token))

/-- The number of leading rows that still have tokens. -/
def activeCount (pos : List Nat) : Nat :=
  ((prompts.zip pos).takeWhile (fun row => row.2 < row.1.length)).length

/-- The number of tokens that all active rows are fed. -/
def chunkStep (pos : List Nat) : Nat :=
  (((prompts.zip pos).take (activeCount prompts pos)).map
    (fun row => row.1.length - row.2)).foldl min chunkSize

/-- The portions of the active rows. -/
def chunkTokens (pos : List Nat) : List (List Token) :=
  ((prompts.zip pos).take (activeCount prompts pos)).map
    (fun row => (row.1.drop row.2).take (chunkStep chunkSize prompts pos))

/-- The forward pass over the active rows, in a state of their own if needed. -/
def forwardActive (tokens : List (List Token)) (s : Progress α ρ ℓ) :
    Except String (Progress α ρ ℓ) :=
  if tokens.length = prompts.length then
    match m.forwardPrefill tokens s.state with
    | .error e => .error e
    | .ok (state, logits) =>
        .ok { s with state := state, logits := logits, initializedLogits := true }
  else do
    let sub ← m.createState tokens.length
    let sub ← m.copyStateSlice s.state 0 sub 0 tokens.length
    let (sub, subLogits) ← m.forwardPrefill tokens sub
    let state ← m.copyStateSlice sub 0 s.state 0 tokens.length
    if !s.initializedLogits then
      .error "batched prefill logits were not initialized"
    else
      let logits ← copyLogitsSlice subLogits 0 s.logits 0 tokens.length
      .ok { s with state := state, logits := logits }

/-- The loop; `fuel` bounds the number of passes. -/
def prefillLoop : Nat → Progress α ρ ℓ → Except String (Progress α ρ ℓ)
  | 0, s => .ok s
  | fuel + 1, s =>
      let active := activeCount prompts s.pos
      if active = 0 then .ok s
      else
        match forwardActive m prompts (chunkTokens chunkSize prompts s.pos) s with
        | .error e => .error e
        | .ok s' =>
            let step := chunkStep chunkSize prompts s.pos
            prefillLoop fuel
              { s' with
                pos := (s.pos.take active).map (· + step) ++ s.pos.drop active }

/-- `prefill_batch_chunked`. -/
def prefillBatchChunked (state : GenerationState α ρ) (logits : DeviceLogits ℓ) :
    Except String (GenerationState α ρ × DeviceLogits ℓ) :=
  if prompts = [] then .error "prefill batch must not be empty"
  else if state.rows.length ≠ prompts.length then
    .error "prefill state batch size mismatch"
  else
    match prefillLoop m chunkSize prompts (prompts.map List.length).sum
        { pos := prompts.map (fun _ => 0)
          state := state
          logits := logits
          initializedLogits := logits.rows.length = prompts.length } with
    | .error e => .error e
    | .ok s => .ok (s.state, s.logits)

end Functions

section Order

theorem lengthOrder_perm (lengths : List Nat) :
    (lengthOrder lengths).Perm (List.range lengths.length) :=
  List.mergeSort_perm _ _

/-- The order puts the longest first. -/
theorem lengthOrder_pairwise (lengths : List Nat) :
    (lengthOrder lengths).Pairwise
      (fun lhs rhs => lengths.getD rhs 0 ≤ lengths.getD lhs 0) := by
  have hsorted := @List.pairwise_mergeSort _
    (fun lhs rhs => decide (lengths.getD rhs 0 ≤ lengths.getD lhs 0))
    (fun a b c hab hbc => by
      simp only [decide_eq_true_eq] at hab hbc ⊢
      omega)
    (fun a b => by
      simp only [Bool.or_eq_true, decide_eq_true_eq]
      omega)
    (List.range lengths.length)
  exact hsorted.imp (fun h => of_decide_eq_true h)

/-- Prompts in the order of `encode_prompts_sorted`. -/
def Descending (prompts : List (List Token)) : Prop :=
  prompts.Pairwise (fun a b => b.length ≤ a.length)

end Order

section Active

variable {prompts active idle : List (List Token)} {chunkSize c : Nat}

/-- The positions after `c` tokens have been fed to every row that has them. -/
def positions (prompts : List (List Token)) (c : Nat) : List Nat :=
  prompts.map (fun prompt => min prompt.length c)

/-- The rows split into those with more than `c` tokens and the others. -/
structure Split (prompts active idle : List (List Token)) (c : Nat) : Prop where
  append : prompts = active ++ idle
  longer : ∀ prompt ∈ active, c < prompt.length
  shorter : ∀ prompt ∈ idle, prompt.length ≤ c

theorem exists_split (h : Descending prompts) (c : Nat) :
    ∃ active idle, Split prompts active idle c := by
  induction prompts with
  | nil => exact ⟨[], [], rfl, by simp, by simp⟩
  | cons prompt rest ih =>
      rw [Descending, List.pairwise_cons] at h
      by_cases hlong : c < prompt.length
      · obtain ⟨active, idle, happend, hlonger, hshorter⟩ := ih h.2
        refine ⟨prompt :: active, idle, by simp [happend], ?_, hshorter⟩
        intro prompt' hmem
        rcases List.mem_cons.mp hmem with rfl | hmem
        · exact hlong
        · exact hlonger prompt' hmem
      · refine ⟨[], prompt :: rest, rfl, by simp, ?_⟩
        intro prompt' hmem
        rcases List.mem_cons.mp hmem with rfl | hmem
        · omega
        · exact (h.1 prompt' hmem).trans (by omega)

theorem Split.zip (h : Split prompts active idle c) :
    prompts.zip (positions prompts c) =
      active.map (fun prompt => (prompt, c)) ++
        idle.map (fun prompt => (prompt, prompt.length)) := by
  have hzip : ∀ l : List (List Token),
      l.zip (positions l c) = l.map (fun prompt => (prompt, min prompt.length c)) := by
    intro l
    exact List.map_prod_left_eq_zip.symm
  rw [hzip, h.append, List.map_append]
  congr 1
  · refine List.map_congr_left ?_
    intro prompt hmem
    have hlong := h.longer prompt hmem
    simp only [Prod.mk.injEq, true_and]
    omega
  · refine List.map_congr_left ?_
    intro prompt hmem
    have hshort := h.shorter prompt hmem
    simp only [Prod.mk.injEq, true_and]
    omega

theorem Split.takeActive (h : Split prompts active idle c) :
    activeCount prompts (positions prompts c) = active.length ∧
      (prompts.zip (positions prompts c)).take active.length =
        active.map (fun prompt => (prompt, c)) := by
  constructor
  · unfold activeCount
    rw [h.zip, List.takeWhile_append_of_pos, List.length_append, List.length_map]
    · have hnone : (idle.map (fun prompt => (prompt, prompt.length))).takeWhile
          (fun row => decide (row.2 < row.1.length)) = [] := by
        cases idle with
        | nil => rfl
        | cons prompt rest => simp
      rw [hnone, List.length_nil, Nat.add_zero]
    · intro row hmem
      obtain ⟨prompt, hprompt, rfl⟩ := List.mem_map.mp hmem
      simpa using h.longer prompt hprompt
  · rw [h.zip]
    exact List.take_left' (by simp)

/-- The step is positive and stays within every active row and the chunk size. -/
theorem Split.chunkStep_bounds
    (h : Split prompts active idle c) (hchunk : 0 < chunkSize) :
    0 < chunkStep chunkSize prompts (positions prompts c) ∧
      chunkStep chunkSize prompts (positions prompts c) ≤ chunkSize ∧
      ∀ prompt ∈ active,
        c + chunkStep chunkSize prompts (positions prompts c) ≤ prompt.length := by
  obtain ⟨hcount, htake⟩ := h.takeActive
  unfold chunkStep
  rw [hcount, htake, List.map_map]
  have hfold : ∀ (l : List Nat) (b : Nat), (∀ n ∈ l, 0 < n) → 0 < b →
      0 < l.foldl min b ∧ l.foldl min b ≤ b ∧ ∀ n ∈ l, l.foldl min b ≤ n := by
    intro l
    induction l with
    | nil =>
        intro b _ hb
        exact ⟨hb, le_rfl, by simp⟩
    | cons n l ih =>
        intro b hpos hb
        have hn : 0 < n := hpos n (by simp)
        obtain ⟨h1, h2, h3⟩ := ih (min b n)
          (fun k hk => hpos k (by simp [hk])) (by omega)
        rw [List.foldl_cons]
        refine ⟨h1, by omega, ?_⟩
        intro k hk
        rcases List.mem_cons.mp hk with rfl | hk
        · omega
        · exact h3 k hk
  obtain ⟨hpos, hle, hall⟩ := hfold
    (active.map ((fun row : List Token × Nat => row.1.length - row.2) ∘
      fun prompt => (prompt, c))) chunkSize (by
      intro n hn
      obtain ⟨prompt, hprompt, rfl⟩ := List.mem_map.mp hn
      have hlong := h.longer prompt hprompt
      simp only [Function.comp_apply]
      omega) hchunk
  refine ⟨hpos, hle, ?_⟩
  intro prompt hprompt
  have hlong := h.longer prompt hprompt
  have hbound := hall _ (List.mem_map.mpr ⟨prompt, hprompt, rfl⟩)
  simp only [Function.comp_apply] at hbound
  omega

theorem Split.chunkTokens_eq
    (h : Split prompts active idle c) (chunkSize : Nat) :
    chunkTokens chunkSize prompts (positions prompts c) =
      active.map (fun prompt => (prompt.drop c).take
        (chunkStep chunkSize prompts (positions prompts c))) := by
  obtain ⟨hcount, htake⟩ := h.takeActive
  unfold chunkTokens
  rw [hcount, htake, List.map_map]
  rfl

/-- The positions after one pass. -/
theorem Split.positions_step
    (h : Split prompts active idle c) {step : Nat}
    (hstep : ∀ prompt ∈ active, c + step ≤ prompt.length) :
    ((positions prompts c).take active.length).map (· + step) ++
        (positions prompts c).drop active.length =
      positions prompts (c + step) := by
  have hactive : positions active c = active.map (fun _ => c) := by
    refine List.map_congr_left ?_
    intro prompt hmem
    have hlong := h.longer prompt hmem
    omega
  have hnext : positions active (c + step) = active.map (fun _ => c + step) := by
    refine List.map_congr_left ?_
    intro prompt hmem
    have hlong := hstep prompt hmem
    omega
  have hidle : positions idle (c + step) = positions idle c := by
    refine List.map_congr_left ?_
    intro prompt hmem
    have hshort := h.shorter prompt hmem
    omega
  have happend : ∀ d, positions prompts d = positions active d ++ positions idle d := by
    intro d
    rw [h.append]
    exact List.map_append
  rw [happend c, happend (c + step), hnext, hidle,
    List.take_left' (by simp [positions]), List.drop_left' (by simp [positions]),
    hactive, List.map_map]
  rfl

end Active

section Passes

variable {m : Model α ρ ℓ} {prompts active idle : List (List Token)}
  {chunkSize c n : Nat} {state₀ : GenerationState α ρ} {logits₀ : List (Option ℓ)}
  {s : Progress α ρ ℓ}

/-- The rows after `c` tokens of every prompt that has them. -/
def fedRows (laws : RowLaws m) (adapter : Option α) (rows : List ρ)
    (prompts : List (List Token)) (c : Nat) : List ρ :=
  List.zipWith (fun r prompt => laws.feed adapter r (prompt.take c)) rows prompts

/-- Their logits; a row that has been fed nothing keeps its own. -/
def fedLogits (laws : RowLaws m) (adapter : Option α) (rows : List ρ)
    (logits : List (Option ℓ)) (prompts : List (List Token)) (c : Nat) :
    List (Option ℓ) :=
  List.zipWith (fun row prompt =>
    (laws.logits adapter row.1 (prompt.take c)).or row.2) (rows.zip logits) prompts

/-- The state after `c` tokens. -/
def fedState (laws : RowLaws m) (state₀ : GenerationState α ρ)
    (prompts : List (List Token)) (c : Nat) : GenerationState α ρ :=
  { state₀ with
    identity := if c = 0 then state₀.identity else m.advancedIdentity state₀
    rows := fedRows laws state₀.identity.adapter state₀.rows prompts c }

theorem length_fedRows
    (laws : RowLaws m) (adapter : Option α) {rows : List ρ}
    (h : rows.length = prompts.length) (c : Nat) :
    (fedRows laws adapter rows prompts c).length = prompts.length := by
  simp [fedRows, h]

theorem length_fedLogits
    (laws : RowLaws m) (adapter : Option α) {rows : List ρ}
    {logits : List (Option ℓ)} (h : rows.length = prompts.length)
    (h' : logits.length = prompts.length) (c : Nat) :
    (fedLogits laws adapter rows logits prompts c).length = prompts.length := by
  simp [fedLogits, h, h']

@[simp] theorem fedState_adapter
    (laws : RowLaws m) (state₀ : GenerationState α ρ)
    (prompts : List (List Token)) (c : Nat) :
    (fedState laws state₀ prompts c).identity.adapter = state₀.identity.adapter := by
  unfold fedState
  split <;> rfl

theorem advancedIdentity_fedState (laws : RowLaws m) :
    m.advancedIdentity (fedState laws state₀ prompts c) =
      m.advancedIdentity state₀ := by
  unfold fedState
  split <;> rfl

theorem consistent_fedState
    (laws : RowLaws m) (h : Consistent m state₀) :
    Consistent m (fedState laws state₀ prompts c) := by
  intro hadvanced
  rw [advancedIdentity_fedState]
  by_cases hc : c = 0
  · simp only [fedState, if_pos hc] at hadvanced ⊢
    exact h hadvanced
  · simp [fedState, hc]

/-- Feeding the next portions. -/
theorem feed_chunks
    (laws : RowLaws m) (adapter : Option α) (rows : List ρ)
    (active : List (List Token)) :
    List.zipWith (laws.feed adapter) (fedRows laws adapter rows active c)
        (active.map (fun prompt => (prompt.drop c).take n)) =
      fedRows laws adapter rows active (c + n) := by
  unfold fedRows
  induction active generalizing rows with
  | nil => simp
  | cons prompt rest ih =>
      cases rows with
      | nil => rfl
      | cons r rows =>
          simp only [List.zipWith_cons_cons, List.map_cons, List.cons.injEq]
          refine ⟨?_, ih rows⟩
          rw [List.take_add, laws.feed_append]

/-- The logits of the next portions. -/
theorem logits_chunks
    (laws : RowLaws m) (adapter : Option α) {rows : List ρ}
    {logits : List (Option ℓ)} (hn : 0 < n)
    (hlonger : ∀ prompt ∈ active, c < prompt.length)
    (hlogits : logits.length = rows.length) :
    List.zipWith (laws.logits adapter) (fedRows laws adapter rows active c)
        (active.map (fun prompt => (prompt.drop c).take n)) =
      fedLogits laws adapter rows logits active (c + n) := by
  unfold fedRows fedLogits
  induction active generalizing rows logits with
  | nil => simp
  | cons prompt rest ih =>
      match rows, logits with
      | [], _ => simp
      | r :: rows, [] => simp at hlogits
      | r :: rows, l :: logits =>
          simp only [List.length_cons, Nat.add_right_cancel_iff] at hlogits
          simp only [List.zipWith_cons_cons, List.map_cons, List.zip_cons_cons,
            List.cons.injEq]
          refine ⟨?_, ih (fun p hp => hlonger p (by simp [hp])) hlogits⟩
          have hlong : c < prompt.length := hlonger prompt (by simp)
          have hchunk : (prompt.drop c).take n ≠ [] := by
            rw [← List.length_pos_iff_ne_nil, List.length_take, List.length_drop]
            omega
          rw [List.take_add, laws.logits_append _ _ _ hchunk]
          simp [RowLaws.logits, hchunk]

/-- Rows without further tokens stay as they are. -/
theorem fedRows_idle
    (laws : RowLaws m) (adapter : Option α) (rows : List ρ)
    (hshorter : ∀ prompt ∈ idle, prompt.length ≤ c) :
    fedRows laws adapter rows idle (c + n) = fedRows laws adapter rows idle c := by
  unfold fedRows
  rw [← List.map_uncurry_zip_eq_zipWith, ← List.map_uncurry_zip_eq_zipWith]
  refine List.map_congr_left ?_
  rintro ⟨r, prompt⟩ hmem
  have hshort := hshorter prompt (List.of_mem_zip hmem).2
  simp only [Function.uncurry]
  rw [List.take_of_length_le hshort, List.take_of_length_le (by omega)]

theorem fedLogits_idle
    (laws : RowLaws m) (adapter : Option α) (rows : List ρ)
    (logits : List (Option ℓ)) (hshorter : ∀ prompt ∈ idle, prompt.length ≤ c) :
    fedLogits laws adapter rows logits idle (c + n) =
      fedLogits laws adapter rows logits idle c := by
  unfold fedLogits
  rw [← List.map_uncurry_zip_eq_zipWith, ← List.map_uncurry_zip_eq_zipWith]
  refine List.map_congr_left ?_
  rintro ⟨row, prompt⟩ hmem
  have hshort := hshorter prompt (List.of_mem_zip hmem).2
  simp only [Function.uncurry]
  rw [List.take_of_length_le hshort, List.take_of_length_le (by omega)]

/-- The rows of the active and of the idle prompts. -/
theorem fedRows_append
    (laws : RowLaws m) (adapter : Option α) {rows : List ρ}
    (h : active.length ≤ rows.length) (d : Nat) :
    fedRows laws adapter rows (active ++ idle) d =
      fedRows laws adapter (rows.take active.length) active d ++
        fedRows laws adapter (rows.drop active.length) idle d := by
  unfold fedRows
  rw [← List.zipWith_append (by simpa using h), List.take_append_drop]

theorem fedLogits_append
    (laws : RowLaws m) (adapter : Option α) {rows : List ρ}
    {logits : List (Option ℓ)} (h : active.length ≤ rows.length)
    (h' : active.length ≤ logits.length) (d : Nat) :
    fedLogits laws adapter rows logits (active ++ idle) d =
      fedLogits laws adapter (rows.take active.length) (logits.take active.length)
          active d ++
        fedLogits laws adapter (rows.drop active.length)
          (logits.drop active.length) idle d := by
  unfold fedLogits
  rw [← List.zipWith_append (by simp [h, h']), ← List.zip_append (by simp [h, h']),
    List.take_append_drop, List.take_append_drop]

/-- Nothing has been fed. -/
theorem fedRows_zero
    (laws : RowLaws m) (adapter : Option α) {rows : List ρ}
    (h : rows.length = prompts.length) :
    fedRows laws adapter rows prompts 0 = rows := by
  unfold fedRows
  rw [← List.map_uncurry_zip_eq_zipWith]
  simpa [Function.uncurry_def] using List.map_fst_zip (Nat.le_of_eq h)

theorem fedLogits_zero
    (laws : RowLaws m) (adapter : Option α) {rows : List ρ}
    {logits : List (Option ℓ)} (h : rows.length = prompts.length)
    (h' : logits.length = prompts.length) :
    fedLogits laws adapter rows logits prompts 0 = logits := by
  unfold fedLogits
  rw [← List.map_uncurry_zip_eq_zipWith]
  have hsnd : (rows.zip logits).map Prod.snd = logits :=
    List.map_snd_zip (by omega)
  have hfst : ((rows.zip logits).zip prompts).map Prod.fst = rows.zip logits :=
    List.map_fst_zip (by simp; omega)
  have hcompose : ((rows.zip logits).zip prompts).map (fun p => p.1.2) = logits :=
    calc
      _ = (((rows.zip logits).zip prompts).map Prod.fst).map Prod.snd := by
        rw [List.map_map]
        rfl
      _ = logits := by rw [hfst, hsnd]
  simpa [Function.uncurry_def] using hcompose

/-- Everything has been fed. -/
theorem fedRows_all
    (laws : RowLaws m) (adapter : Option α) (rows : List ρ)
    (h : ∀ prompt ∈ prompts, prompt.length ≤ c) :
    fedRows laws adapter rows prompts c =
      List.zipWith (laws.feed adapter) rows prompts := by
  unfold fedRows
  rw [← List.map_uncurry_zip_eq_zipWith, ← List.map_uncurry_zip_eq_zipWith]
  refine List.map_congr_left ?_
  rintro ⟨r, prompt⟩ hmem
  simp only [Function.uncurry]
  rw [List.take_of_length_le (h prompt (List.of_mem_zip hmem).2)]

theorem fedLogits_all
    (laws : RowLaws m) (adapter : Option α) (rows : List ρ)
    (logits : List (Option ℓ)) (h : ∀ prompt ∈ prompts, prompt.length ≤ c) :
    fedLogits laws adapter rows logits prompts c =
      List.zipWith (fun row prompt => (laws.logits adapter row.1 prompt).or row.2)
        (rows.zip logits) prompts := by
  unfold fedLogits
  rw [← List.map_uncurry_zip_eq_zipWith, ← List.map_uncurry_zip_eq_zipWith]
  refine List.map_congr_left ?_
  rintro ⟨row, prompt⟩ hmem
  simp only [Function.uncurry]
  rw [List.take_of_length_le (h prompt (List.of_mem_zip hmem).2)]

/-- The loop variables after `c` tokens of every prompt that has them. -/
structure Fed (laws : RowLaws m) (prompts : List (List Token))
    (state₀ : GenerationState α ρ) (logits₀ : List (Option ℓ)) (c : Nat)
    (s : Progress α ρ ℓ) : Prop where
  pos : s.pos = positions prompts c
  state : s.state = fedState laws state₀ prompts c
  logits : s.initializedLogits = true → s.logits.rows =
    fedLogits laws state₀.identity.adapter state₀.rows logits₀ prompts c
  uninitialized : s.initializedLogits = false →
    c = 0 ∧ ∀ prompt ∈ prompts, prompt ≠ []

/-- The batch that prefill is called with. -/
structure Batch (m : Model α ρ ℓ) (prompts : List (List Token))
    (state₀ : GenerationState α ρ) (logits₀ : List (Option ℓ)) : Prop where
  consistent : Consistent m state₀
  wkv32 : state₀.wkv32 = m.wkv32
  rows : state₀.rows.length = prompts.length
  logits : logits₀.length = prompts.length

theorem length_chunk
    (hbound : ∀ prompt ∈ active, c + n ≤ prompt.length) :
    ∀ chunk ∈ active.map (fun prompt => (prompt.drop c).take n),
      chunk.length = n := by
  intro chunk hchunk
  obtain ⟨prompt, hprompt, rfl⟩ := List.mem_map.mp hchunk
  have hb := hbound prompt hprompt
  rw [List.length_take, List.length_drop]
  omega

/-- A pass over all rows. -/
theorem forwardActive_all
    (laws : RowLaws m) (hbatch : Batch m prompts state₀ logits₀)
    (h : Split prompts active [] c) (hactive : active ≠ []) (hn : 0 < n)
    (hbound : ∀ prompt ∈ active, c + n ≤ prompt.length)
    (hs : Fed laws prompts state₀ logits₀ c s) :
    (m.Accepts state₀.identity.adapter ∧
      m.InRange (active.map (fun prompt => (prompt.drop c).take n)) ∧
      ∃ s', forwardActive m prompts
          (active.map (fun prompt => (prompt.drop c).take n)) s = .ok s' ∧
        s'.pos = s.pos ∧ s'.initializedLogits = true ∧
        s'.state = fedState laws state₀ prompts (c + n) ∧
        s'.logits.rows =
          fedLogits laws state₀.identity.adapter state₀.rows logits₀ prompts
            (c + n)) ∨
    (¬ (m.Accepts state₀.identity.adapter ∧
        m.InRange (active.map (fun prompt => (prompt.drop c).take n))) ∧
      ∃ e, forwardActive m prompts
        (active.map (fun prompt => (prompt.drop c).take n)) s = .error e) := by
  have hprompts : prompts = active := by
    rw [h.append, List.append_nil]
  subst hprompts
  have hlength : (prompts.map (fun prompt => (prompt.drop c).take n)).length =
      prompts.length := List.length_map _
  have hadapter : s.state.identity.adapter = state₀.identity.adapter := by
    rw [hs.state, fedState_adapter]
  unfold forwardActive
  rw [if_pos hlength]
  rcases Model.forwardPrefill_spec laws
      (hs.state ▸ consistent_fedState laws hbatch.consistent)
      (hs.state ▸ hbatch.wkv32)
      (by rw [hs.state, hlength]
          exact length_fedRows laws _ hbatch.rows c)
      (by simpa using hactive) hn (length_chunk hbound) with
    ⟨haccepts, hrange, hrun⟩ | ⟨hnot, e, hrun⟩
  · left
    rw [hadapter] at haccepts
    refine ⟨haccepts, hrange, ?_⟩
    rw [hrun]
    refine ⟨_, rfl, rfl, rfl, ?_, ?_⟩
    · simp only [hs.state, advancedIdentity_fedState, fedState_adapter]
      simp only [fedState, feed_chunks]
      rw [if_neg (by omega)]
    · simp only [hs.state, fedState_adapter]
      exact logits_chunks laws _ hn (fun prompt hprompt => h.longer prompt hprompt)
        (hbatch.logits.trans hbatch.rows.symm)
  · right
    rw [hadapter] at hnot
    exact ⟨hnot, e, by rw [hrun]⟩

/-- A pass over the first rows in a state of their own. -/
theorem forwardActive_some
    (laws : RowLaws m) (hbatch : Batch m prompts state₀ logits₀)
    (h : Split prompts active idle c) (hidle : idle ≠ []) (hactive : active ≠ [])
    (hn : 0 < n) (hbound : ∀ prompt ∈ active, c + n ≤ prompt.length)
    (hs : Fed laws prompts state₀ logits₀ c s) :
    (m.Accepts state₀.identity.adapter ∧
      m.InRange (active.map (fun prompt => (prompt.drop c).take n)) ∧
      ∃ s', forwardActive m prompts
          (active.map (fun prompt => (prompt.drop c).take n)) s = .ok s' ∧
        s'.pos = s.pos ∧ s'.initializedLogits = true ∧
        s'.state = fedState laws state₀ prompts (c + n) ∧
        s'.logits.rows =
          fedLogits laws state₀.identity.adapter state₀.rows logits₀ prompts
            (c + n)) ∨
    (¬ (m.Accepts state₀.identity.adapter ∧
        m.InRange (active.map (fun prompt => (prompt.drop c).take n))) ∧
      ∃ e, forwardActive m prompts
        (active.map (fun prompt => (prompt.drop c).take n)) s = .error e) := by
  have hinit : s.initializedLogits = true := by
    by_contra hnot
    obtain ⟨rfl, hne⟩ := hs.uninitialized (by simpa using hnot)
    obtain ⟨prompt, hprompt⟩ := List.exists_mem_of_ne_nil idle hidle
    have hshort := h.shorter prompt hprompt
    exact hne prompt (by simp [h.append, hprompt])
      (List.length_eq_zero_iff.mp (by omega))
  have hsplit : active.length ≤ state₀.rows.length ∧
      active.length ≤ logits₀.length := by
    rw [hbatch.rows, hbatch.logits, h.append, List.length_append]
    omega
  let adapter := state₀.identity.adapter
  let k := (active.map (fun prompt => (prompt.drop c).take n)).length
  have hk : k = active.length := List.length_map _
  have hkpos : 0 < k := by
    rw [hk]
    exact List.length_pos_iff_ne_nil.mpr hactive
  have hlt : k < prompts.length := by
    rw [hk, h.append, List.length_append]
    have hpos := List.length_pos_iff_ne_nil.mpr hidle
    omega
  let rowsA := state₀.rows.take active.length
  have hrowsA : rowsA.length = active.length := by
    simpa [rowsA] using hsplit.1
  have hlen : ∀ d, (fedRows laws adapter rowsA active d).length = k := by
    intro d
    rw [length_fedRows laws _ hrowsA, hk]
  have hfedRows : ∀ d, (fedState laws state₀ prompts d).rows =
      fedRows laws adapter rowsA active d ++
        fedRows laws adapter (state₀.rows.drop active.length) idle d := by
    intro d
    rw [← fedRows_append laws adapter hsplit.1, ← h.append]
    rfl
  have hfedLength : ∀ d, (fedState laws state₀ prompts d).rows.length =
      prompts.length := fun d => length_fedRows laws _ hbatch.rows d
  let sub : GenerationState α ρ :=
    { identity := (fedState laws state₀ prompts c).identity
      wkv32 := m.wkv32
      rows := fedRows laws adapter rowsA active c
      textStopTail := [] }
  have hfed : Consistent m (fedState laws state₀ prompts c) :=
    consistent_fedState laws hbatch.consistent
  have hsubIdentity : m.advancedIdentity sub = m.advancedIdentity state₀ := by
    have hsame : m.advancedIdentity sub =
        m.advancedIdentity (fedState laws state₀ prompts c) :=
      Model.advancedIdentity_congr rfl hbatch.wkv32.symm
    rw [hsame, advancedIdentity_fedState]
  have hsubConsistent : Consistent m sub := by
    intro hadvanced
    rw [hsubIdentity]
    exact (hfed hadvanced).trans (advancedIdentity_fedState laws)
  have hsubAdapter : sub.identity.adapter = adapter :=
    fedState_adapter laws state₀ prompts c
  have hfed32 : (fedState laws state₀ prompts c).wkv32 = m.wkv32 := hbatch.wkv32
  -- the active rows move into a state of their own
  have hthere : m.copyStateSlice s.state 0
      { identity := Identity.default, wkv32 := m.wkv32,
        rows := List.replicate k m.zeroRow, textStopTail := [] } 0 k = .ok sub := by
    rw [hs.state, Model.copyStateSlice_ok hkpos (by rw [hfedLength]; omega) (by simp)
      hfed32 rfl (by simp [Identity.default])]
    simp [sub, copySlice, hfedRows, List.take_left' (hlen c)]
  unfold forwardActive
  rw [if_neg hlt.ne, Model.createState_ok hkpos]
  rcases Model.forwardPrefill_spec laws hsubConsistent rfl (hlen c)
      (by simpa using hactive) hn (length_chunk hbound) with
    ⟨haccepts, hrange, hrun⟩ | ⟨hnot, e, hrun⟩
  · left
    rw [hsubAdapter] at haccepts hrun
    refine ⟨haccepts, hrange, ?_⟩
    have hlogitsA : (logits₀.take active.length).length = rowsA.length := by
      simp [rowsA, hsplit]
    rw [feed_chunks, hsubIdentity,
      logits_chunks laws adapter hn h.longer hlogitsA] at hrun
    have hstate : m.copyStateSlice
        { sub with
          identity := m.advancedIdentity state₀
          rows := fedRows laws adapter rowsA active (c + n) } 0 s.state 0 k =
        .ok (fedState laws state₀ prompts (c + n)) := by
      rw [hs.state, Model.copyStateSlice_ok hkpos (by simp [hlen])
        (by rw [hfedLength]; omega) rfl hfed32 ?_]
      · rw [copySlice_front (hlen (c + n)), hfedRows c, List.drop_left' (hlen c),
          ← fedRows_idle laws adapter _ h.shorter, ← hfedRows (c + n)]
        simp only [fedState]
        rw [if_neg (by omega)]
      · intro hadvanced
        rw [hfed hadvanced, advancedIdentity_fedState]
        exact ⟨rfl, rfl⟩
    have hlogits : copyLogitsSlice
        { rows := fedLogits laws adapter rowsA (logits₀.take active.length) active
            (c + n) } 0 s.logits 0 k =
        .ok
          { rows := fedLogits laws adapter state₀.rows logits₀ prompts (c + n) } := by
      have hlenA : ∀ d, (fedLogits laws adapter rowsA
          (logits₀.take active.length) active d).length = k := by
        intro d
        rw [length_fedLogits laws adapter hrowsA (by simp [hsplit]), hk]
      rw [copyLogitsSlice_ok hkpos (by simp [hlenA]) ?_]
      · rw [copySlice_front (hlenA (c + n)), hs.logits hinit, h.append,
          fedLogits_append laws _ hsplit.1 hsplit.2,
          fedLogits_append laws _ hsplit.1 hsplit.2, List.drop_left' (hlenA c),
          fedLogits_idle laws _ _ _ h.shorter]
      · rw [hs.logits hinit, length_fedLogits laws _ hbatch.rows hbatch.logits]
        omega
    refine ⟨{ s with
      state := fedState laws state₀ prompts (c + n)
      logits := { rows := fedLogits laws adapter state₀.rows logits₀ prompts (c + n) } },
      ?_, rfl, hinit, rfl, rfl⟩
    simp only [bind, Except.bind, hthere, hrun, k, hstate, hlogits, hinit]
    rfl
  · right
    rw [hsubAdapter] at hnot
    refine ⟨hnot, e, ?_⟩
    simp only [bind, Except.bind, hthere, hrun, k]

/-- One pass. -/
theorem forwardActive_spec
    (laws : RowLaws m) (hbatch : Batch m prompts state₀ logits₀)
    (h : Split prompts active idle c) (hactive : active ≠ []) (hn : 0 < n)
    (hbound : ∀ prompt ∈ active, c + n ≤ prompt.length)
    (hs : Fed laws prompts state₀ logits₀ c s) :
    (m.Accepts state₀.identity.adapter ∧
      m.InRange (active.map (fun prompt => (prompt.drop c).take n)) ∧
      ∃ s', forwardActive m prompts
          (active.map (fun prompt => (prompt.drop c).take n)) s = .ok s' ∧
        s'.pos = s.pos ∧ s'.initializedLogits = true ∧
        s'.state = fedState laws state₀ prompts (c + n) ∧
        s'.logits.rows =
          fedLogits laws state₀.identity.adapter state₀.rows logits₀ prompts
            (c + n)) ∨
    (¬ (m.Accepts state₀.identity.adapter ∧
        m.InRange (active.map (fun prompt => (prompt.drop c).take n))) ∧
      ∃ e, forwardActive m prompts
        (active.map (fun prompt => (prompt.drop c).take n)) s = .error e) := by
  by_cases hidle : idle = []
  · subst hidle
    exact forwardActive_all laws hbatch h hactive hn hbound hs
  · exact forwardActive_some laws hbatch h hidle hactive hn hbound hs

/-- What the rest of the prompts needs: known tokens, and a fitting adapter. -/
def Feasible (m : Model α ρ ℓ) (adapter : Option α) (prompts : List (List Token))
    (c : Nat) : Prop :=
  m.InRange (prompts.map (List.drop c)) ∧
    ((∃ prompt ∈ prompts, c < prompt.length) → m.Accepts adapter)

/-- The rest after one pass needs what the rest before it did. -/
theorem feasible_step
    {adapter : Option α} (h : Split prompts active idle c)
    (haccepts : m.Accepts adapter)
    (hrange : m.InRange (active.map (fun prompt => (prompt.drop c).take n))) :
    Feasible m adapter prompts (c + n) ↔ Feasible m adapter prompts c := by
  have hdrop : ∀ prompt : List Token,
      prompt.drop c = (prompt.drop c).take n ++ prompt.drop (c + n) := by
    intro prompt
    rw [← List.drop_drop, List.take_append_drop]
  constructor
  · rintro ⟨hrest, -⟩
    refine ⟨?_, fun _ => haccepts⟩
    intro rest hmem token htoken
    obtain ⟨prompt, hprompt, rfl⟩ := List.mem_map.mp hmem
    rw [hdrop, List.mem_append] at htoken
    rcases htoken with htoken | htoken
    · rcases List.mem_append.mp (h.append ▸ hprompt) with hin | hin
      · exact hrange _ (List.mem_map.mpr ⟨prompt, hin, rfl⟩) token htoken
      · rw [List.drop_eq_nil_of_le (h.shorter prompt hin)] at htoken
        simp at htoken
    · exact hrest _ (List.mem_map.mpr ⟨prompt, hprompt, rfl⟩) token htoken
  · rintro ⟨hall, -⟩
    refine ⟨?_, fun _ => haccepts⟩
    intro rest hmem token htoken
    obtain ⟨prompt, hprompt, rfl⟩ := List.mem_map.mp hmem
    refine hall _ (List.mem_map.mpr ⟨prompt, hprompt, rfl⟩) token ?_
    rw [hdrop, List.mem_append]
    exact Or.inr htoken

/-- The loop. -/
theorem prefillLoop_spec
    (laws : RowLaws m) (hbatch : Batch m prompts state₀ logits₀)
    (hdescending : Descending prompts) (hchunk : 0 < chunkSize) {fuel : Nat}
    (hfuel : ∀ prompt ∈ prompts, prompt.length ≤ c + fuel)
    (hs : Fed laws prompts state₀ logits₀ c s) :
    (Feasible m state₀.identity.adapter prompts c ∧
      ∃ s' d, prefillLoop m chunkSize prompts fuel s = .ok s' ∧
        Fed laws prompts state₀ logits₀ d s' ∧
        (∀ prompt ∈ prompts, prompt.length ≤ d) ∧
        ((∀ prompt ∈ prompts, prompt.length ≤ c) → d = c)) ∨
    (¬ Feasible m state₀.identity.adapter prompts c ∧
      ∃ e, prefillLoop m chunkSize prompts fuel s = .error e) := by
  have hfinished : ∀ {c : Nat}, (∀ prompt ∈ prompts, prompt.length ≤ c) →
      Feasible m state₀.identity.adapter prompts c := by
    intro c hall
    constructor
    · intro rest hmem token htoken
      obtain ⟨prompt, hprompt, rfl⟩ := List.mem_map.mp hmem
      rw [List.drop_eq_nil_of_le (hall prompt hprompt)] at htoken
      simp at htoken
    · rintro ⟨prompt, hprompt, hlong⟩
      have hshort := hall prompt hprompt
      omega
  induction fuel generalizing c s with
  | zero =>
      left
      have hall : ∀ prompt ∈ prompts, prompt.length ≤ c := by simpa using hfuel
      exact ⟨hfinished hall, s, c, rfl, hs, hall, fun _ => rfl⟩
  | succ fuel ih =>
      obtain ⟨active, idle, hsplit⟩ := exists_split hdescending c
      obtain ⟨hcount, -⟩ := hsplit.takeActive
      by_cases hactive : active = []
      · left
        have hall : ∀ prompt ∈ prompts, prompt.length ≤ c := by
          rw [hsplit.append, hactive, List.nil_append]
          exact hsplit.shorter
        refine ⟨hfinished hall, s, c, ?_, hs, hall, fun _ => rfl⟩
        simp [prefillLoop, hs.pos, hcount, hactive]
      · have hlong : ∃ prompt ∈ prompts, c < prompt.length := by
          obtain ⟨prompt, hprompt⟩ := List.exists_mem_of_ne_nil active hactive
          exact ⟨prompt, by simp [hsplit.append, hprompt], hsplit.longer prompt hprompt⟩
        obtain ⟨hstep, -, hbound⟩ := hsplit.chunkStep_bounds hchunk
        have htokens := hsplit.chunkTokens_eq chunkSize
        have hpositions := hsplit.positions_step hbound
        have hne : active.length ≠ 0 :=
          fun hzero => hactive (List.length_eq_zero_iff.mp hzero)
        simp only [prefillLoop, hs.pos, hcount, htokens, if_neg hne]
        generalize chunkStep chunkSize prompts (positions prompts c) = n at *
        rcases forwardActive_spec laws hbatch hsplit hactive hstep hbound hs with
          ⟨haccepts, hrange, s', hrun, hpos', hinit', hstate', hlogits'⟩ |
          ⟨hnot, e, hrun⟩
        · rw [hrun]
          have hs' : Fed laws prompts state₀ logits₀ (c + n)
              { s' with
                pos := ((positions prompts c).take active.length).map (· + n) ++
                  (positions prompts c).drop active.length } :=
            { pos := hpositions
              state := hstate'
              logits := fun _ => hlogits'
              uninitialized := by simp [hinit'] }
          have hfuel' : ∀ prompt ∈ prompts, prompt.length ≤ c + n + fuel := by
            intro prompt hprompt
            have hbound' := hfuel prompt hprompt
            omega
          rw [← feasible_step hsplit haccepts hrange]
          rcases ih hfuel' hs' with ⟨hfeasible, s'', d, hloop, hs'', hall, -⟩ |
            ⟨hfeasible, e, hloop⟩
          · left
            refine ⟨hfeasible, s'', d, hloop, hs'', hall, ?_⟩
            intro hshort
            obtain ⟨prompt, hprompt, hlong'⟩ := hlong
            have hshort' := hshort prompt hprompt
            omega
          · right
            exact ⟨hfeasible, e, hloop⟩
        · right
          rw [hrun]
          refine ⟨?_, e, rfl⟩
          rintro ⟨hrange, haccepts⟩
          refine hnot ⟨haccepts hlong, ?_⟩
          intro chunk hmem token htoken
          obtain ⟨prompt, hprompt, rfl⟩ := List.mem_map.mp hmem
          exact hrange _ (List.mem_map.mpr
            ⟨prompt, by simp [hsplit.append, hprompt], rfl⟩) token
            (List.mem_of_mem_take htoken)

/-- The state after all prompts. -/
def prefilled (laws : RowLaws m) (state₀ : GenerationState α ρ)
    (prompts : List (List Token)) : GenerationState α ρ :=
  { state₀ with
    identity :=
      if ∀ prompt ∈ prompts, prompt = [] then state₀.identity
      else m.advancedIdentity state₀
    rows := List.zipWith (laws.feed state₀.identity.adapter) state₀.rows prompts }

/-- The logits after all prompts; a row without a prompt keeps its own. -/
def prefilledLogits (laws : RowLaws m) (state₀ : GenerationState α ρ)
    (logits₀ : List (Option ℓ)) (prompts : List (List Token)) : DeviceLogits ℓ :=
  { rows := List.zipWith (fun row prompt =>
      (laws.logits state₀.identity.adapter row.1 prompt).or row.2)
      (state₀.rows.zip logits₀) prompts }

/-- `prefill_batch_chunked`. -/
theorem prefillBatchChunked_spec
    (laws : RowLaws m) (hbatch : Batch m prompts state₀ logits₀)
    (hdescending : Descending prompts) (hchunk : 0 < chunkSize) (hne : prompts ≠ [])
    {logits : DeviceLogits ℓ}
    (hlogits : logits.rows = logits₀ ∨
      logits.rows.length ≠ prompts.length ∧ ∀ prompt ∈ prompts, prompt ≠ []) :
    (Feasible m state₀.identity.adapter prompts 0 ∧
      prefillBatchChunked m chunkSize prompts state₀ logits =
        .ok (prefilled laws state₀ prompts,
          prefilledLogits laws state₀ logits₀ prompts)) ∨
    (¬ Feasible m state₀.identity.adapter prompts 0 ∧
      ∃ e, prefillBatchChunked m chunkSize prompts state₀ logits = .error e) := by
  let start : Progress α ρ ℓ :=
    { pos := prompts.map (fun _ => 0)
      state := state₀
      logits := logits
      initializedLogits := logits.rows.length = prompts.length }
  have hstart : Fed laws prompts state₀ logits₀ 0 start := by
    refine
      { pos := by simp [start, positions]
        state := ?_
        logits := ?_
        uninitialized := ?_ }
    · simp [start, fedState, fedRows_zero laws _ hbatch.rows]
    · intro hinit
      have hlength : logits.rows.length = prompts.length := by
        simpa [start] using hinit
      rcases hlogits with heq | ⟨hnot, -⟩
      · rw [fedLogits_zero laws _ hbatch.rows hbatch.logits]
        exact heq
      · exact absurd hlength hnot
    · intro hinit
      have hnot : logits.rows.length ≠ prompts.length := by
        simpa [start] using hinit
      rcases hlogits with heq | ⟨-, hall⟩
      · exact absurd (heq ▸ hbatch.logits) hnot
      · exact ⟨rfl, hall⟩
  have hfuel : ∀ prompt ∈ prompts,
      prompt.length ≤ 0 + (prompts.map List.length).sum := by
    intro prompt hprompt
    rw [Nat.zero_add]
    exact List.single_le_sum (by simp) _ (List.mem_map.mpr ⟨prompt, hprompt, rfl⟩)
  unfold prefillBatchChunked
  rw [if_neg hne, if_neg (not_not.mpr hbatch.rows)]
  rcases prefillLoop_spec laws hbatch hdescending hchunk hfuel hstart with
    ⟨hfeasible, s', d, hloop, hs', hall, hd⟩ | ⟨hfeasible, e, hloop⟩
  · left
    refine ⟨hfeasible, ?_⟩
    simp only [start] at hloop
    rw [hloop]
    have hstate : s'.state = prefilled laws state₀ prompts := by
      have hidentity : d = 0 ↔ ∀ prompt ∈ prompts, prompt = [] := by
        constructor
        · rintro rfl prompt hprompt
          exact List.length_eq_zero_iff.mp (Nat.le_zero.mp (hall prompt hprompt))
        · intro hempty
          exact hd (fun prompt hprompt => by rw [hempty prompt hprompt]; rfl)
      rw [hs'.state, fedState, prefilled, fedRows_all laws _ _ hall]
      simp only [hidentity]
    have hinit : s'.initializedLogits = true := by
      by_contra hnot
      obtain ⟨rfl, hempty⟩ := hs'.uninitialized (by simpa using hnot)
      obtain ⟨prompt, hprompt⟩ := List.exists_mem_of_ne_nil prompts hne
      exact hempty prompt hprompt
        (List.length_eq_zero_iff.mp (Nat.le_zero.mp (hall prompt hprompt)))
    have hlogits' : s'.logits = prefilledLogits laws state₀ logits₀ prompts := by
      rw [prefilledLogits, ← fedLogits_all laws _ _ _ hall, ← hs'.logits hinit]
    simp only [hstate, hlogits']
  · right
    simp only [start] at hloop
    exact ⟨hfeasible, e, by rw [hloop]⟩

end Passes

end Prefill
end RwkvLightning

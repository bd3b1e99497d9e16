import RwkvLightning.Inference.DecodeRow
import RwkvLightning.Inference.TextExact
import Mathlib

/-!
# What a row has decoded

The row of the scheduler against the tokens that were sampled for it: the text that is
emitted, the stop strings, the number of tokens.

**Results.**
* `Progress`, `Live`: what the counted tokens say about a row, and about one that goes
  on.
* `tick_spec`, `decodeRow_spec`: one step, and a run.
* `stopStrings_exact`: the row stops at the first token whose text ends with a stop.
-/

namespace RwkvLightning
namespace DecodeRow

open Backend Text

section Progress

variable (decode : Token → Bytes) (o : Options) (text₀ : Bytes)

/-- The text of some tokens. -/
def textOf (tokens : List Token) : Bytes :=
  (tokens.map decode).flatten

/-- The text that has been handed out. -/
def Row.emitted (row : Row) : Bytes :=
  (row.events.map Event.text).flatten

/-- The stop that ends the text after these tokens; `text₀` is the text before them. -/
def stopAfter (tokens : List Token) : Bytes :=
  match o.stop with
  | none => []
  | some stops => if tokens = [] then [] else firstStop stops (text₀ ++ textOf decode tokens)

/-- A cancellation during a step. -/
def Tick.cancels (t : Tick) : Bool :=
  t.cancelledBefore || t.cancelledSampled || t.cancelledForwarded

/-- What the counted tokens say about a row. -/
structure Progress (tokens : List Token) (row : Row) : Prop where
  step : row.step = tokens.length
  generated : row.generatedTokens = tokens.length
  matched : row.matchedStop = stopAfter decode o text₀ tokens
  earlier : ∀ k < tokens.length, stopAfter decode o text₀ (tokens.take k) = []
  text : (takeUtf8 (textOf decode tokens)).1 = row.emitted ++ (takeUtf8 row.pending).1

/-- A row after a token was counted. -/
structure Counted (tokens : List Token) (row : Row) : Prop extends
    Progress decode o text₀ tokens row where
  finished : row.finished = false
  completed : row.completed = false
  stopToken : row.stopToken = false
  finishReason : row.finishReason = if row.matchedStop = [] then .length else .stop
  tail : ∀ stops, o.stop = some stops → row.matchedStop = [] →
    row.stopTail = tailOf stops (text₀ ++ textOf decode tokens)
  rest : takeUtf8 (textOf decode tokens) = emit row.emitted (takeUtf8 row.pending)
  within : (tokens.length : Int) ≤ o.maxTokens

/-- A row that goes on. -/
structure Live (tokens : List Token) (row : Row) : Prop extends
    Counted decode o text₀ tokens row where
  unmatched : row.matchedStop = []
  below : (tokens.length : Int) < o.maxTokens

/-- A row that has ended: everything is handed out, and there is a cause. -/
structure Ended (tokens : List Token) (cancelled : Bool) (row : Row) : Prop extends
    Progress decode o text₀ tokens row where
  completed : row.completed = true
  flushed : row.pending = []
  reason : row.matchedStop ≠ [] → row.finishReason = .stop
  cause : cancelled = true ∨ o.maxTokens ≤ tokens.length ∨ row.matchedStop ≠ [] ∨
    row.stopToken = true ∧ o.stop = none
  within : tokens.length + (if row.stopToken then 1 else 0) ≤ o.maxTokens.toNat

end Progress

section Rows

variable {decode : Token → Bytes} {o : Options} {text₀ : Bytes}
variable {tokens : List Token} {row : Row} {cancelled notify : Bool}

@[simp] theorem emitted_flush (final : Bool) :
    (row.flush final).emitted = row.emitted ++ (takeUtf8 row.pending).1 := by
  unfold Row.flush Row.emitted takeCompleteUtf8
  by_cases hempty : (takeUtf8 row.pending).1 = []
  · simp [hempty]
  · simp [hempty]

@[simp] theorem pending_flush (final : Bool) :
    (row.flush final).pending = if final then [] else (takeUtf8 row.pending).2 := rfl

/-- What `complete` changes. -/
theorem complete_spec (h : row.completed = false) :
    (row.complete cancelled notify).completed = true ∧
      (row.complete cancelled notify).pending = [] ∧
      (row.complete cancelled notify).emitted =
        row.emitted ++ (takeUtf8 row.pending).1 ∧
      (row.complete cancelled notify).step = row.step ∧
      (row.complete cancelled notify).generatedTokens = row.generatedTokens ∧
      (row.complete cancelled notify).matchedStop = row.matchedStop ∧
      (row.complete cancelled notify).stopToken = row.stopToken ∧
      (row.complete cancelled notify).finishReason =
        if cancelled then .stop else row.finishReason := by
  have hemitted := @emitted_flush { row with completed := true } true
  have hmarked := @emitted_flush ({ row with completed := true }).markInterrupted true
  unfold Row.complete
  rw [if_neg (by rw [h]; exact Bool.false_ne_true)]
  cases cancelled with
  | true => exact ⟨rfl, rfl, hmarked, rfl, rfl, rfl, rfl, rfl⟩
  | false =>
      simp only [Bool.false_eq_true, if_false]
      split
      · refine ⟨rfl, rfl, ?_, rfl, rfl, rfl, rfl, rfl⟩
        -- The event of a stop has no text.
        refine Eq.trans ?_ hemitted
        simp [Row.emitted]
      · exact ⟨rfl, rfl, hemitted, rfl, rfl, rfl, rfl, rfl⟩

/-- A row that completes has ended. -/
theorem Progress.complete
    (h : Progress decode o text₀ tokens row) (hcompleted : row.completed = false)
    (hreason : row.matchedStop ≠ [] → row.finishReason = .stop)
    (hcause : cancelled = true ∨ o.maxTokens ≤ tokens.length ∨ row.matchedStop ≠ [] ∨
      row.stopToken = true ∧ o.stop = none)
    (hwithin : tokens.length + (if row.stopToken then 1 else 0) ≤ o.maxTokens.toNat) :
    Ended decode o text₀ tokens cancelled (row.complete cancelled notify) := by
  obtain ⟨hdone, hpending, hemitted, hstep, hgenerated, hmatched, htoken, hfinish⟩ :=
    @complete_spec row cancelled notify hcompleted
  refine
    { step := hstep.trans h.step
      generated := hgenerated.trans h.generated
      matched := hmatched.trans h.matched
      earlier := h.earlier
      text := ?_
      completed := hdone
      flushed := hpending
      reason := ?_
      cause := by rw [hmatched, htoken]; exact hcause
      within := by rw [htoken]; exact hwithin }
  · rw [hemitted, hpending, takeUtf8_nil, List.append_nil]
    exact h.text
  · intro hne
    rw [hmatched] at hne
    rw [hfinish, hreason hne]
    split <;> rfl

end Rows

section Steps

variable {decode : Token → Bytes} {o : Options} {text₀ : Bytes}
variable {tokens : List Token} {row : Row} (cancelled notify : Bool)

/-- `rebuild` of a row that is not finished. -/
theorem Counted.rebuild
    (h : Counted decode o text₀ tokens row) :
    Ended decode o text₀ tokens cancelled (row.rebuild cancelled notify) ∧ cancelled = true ∨
      row.rebuild cancelled notify = row ∧ cancelled = false := by
  cases cancelled with
  | false =>
      right
      simp [Row.rebuild, h.finished]
  | true =>
      left
      refine ⟨?_, rfl⟩
      have hprogress : Progress decode o text₀ tokens { row with finished := true } :=
        ⟨h.step, h.generated, h.matched, h.earlier, h.text⟩
      refine hprogress.complete h.completed ?_ (Or.inl rfl) ?_
      · intro hne
        exact h.finishReason.trans (if_neg hne)
      · have hwithin := h.within
        simp only [h.stopToken, Bool.false_eq_true, if_false]
        omega

theorem textOf_append (tokens : List Token) (token : Token) :
    textOf decode (tokens ++ [token]) = textOf decode tokens ++ decode token := by
  simp [textOf]

/-- A stop token ends the row. -/
theorem Live.sample_stop
    (h : Live decode o text₀ tokens row) {token : Token} (htoken : isStopToken o token = true)
    (chunkSize : Int) :
    Ended decode o text₀ tokens cancelled
      ((row.sample decode o chunkSize token).rebuild cancelled notify) := by
  let sampled : Row :=
    { row with token := token, stopToken := true, finishReason := .stop, finished := true }
  have hsample : row.sample decode o chunkSize token = sampled := by
    simp [Row.sample, htoken, sampled]
  have hrebuild : sampled.rebuild cancelled notify = sampled.complete cancelled notify := by
    cases cancelled <;> rfl
  have hprogress : Progress decode o text₀ tokens sampled :=
    ⟨h.step, h.generated, h.matched, h.earlier, h.text⟩
  have hnone : o.stop = none := by
    rw [isStopToken, Bool.and_eq_true, Option.isNone_iff_eq_none] at htoken
    exact htoken.1
  have hbelow := h.below
  rw [hsample, hrebuild]
  refine hprogress.complete h.completed (fun _ => rfl)
    (Or.inr (Or.inr (Or.inr ⟨rfl, hnone⟩))) ?_
  simp only [sampled, if_true]
  omega

/-- The stop strings after a token. -/
theorem checkStops_spec
    {r : Row} {token : Token} (hunmatched : r.matchedStop = [])
    (htail : ∀ stops, o.stop = some stops →
      r.stopTail = tailOf stops (text₀ ++ textOf decode tokens))
    (hreason : r.finishReason = .length) :
    ∃ tail,
      r.checkStops o (decode token) =
        { r with
          stopTail := tail
          matchedStop := stopAfter decode o text₀ (tokens ++ [token])
          finishReason :=
            if stopAfter decode o text₀ (tokens ++ [token]) = [] then .length else .stop } ∧
      ∀ stops, o.stop = some stops → stopAfter decode o text₀ (tokens ++ [token]) = [] →
        tail = tailOf stops (text₀ ++ textOf decode (tokens ++ [token])) := by
  unfold Row.checkStops stopAfter
  cases hstop : o.stop with
  | none =>
      refine ⟨r.stopTail, ?_, fun stops hnone => nomatch hnone⟩
      cases r
      simp_all
  | some stops =>
      have hmatch := matchStop_eq stops (text₀ ++ textOf decode tokens) (decode token)
      rw [← htail stops hstop, List.append_assoc, ← textOf_append] at hmatch
      have hne : tokens ++ [token] ≠ [] := by simp
      simp only [hmatch, if_neg hne]
      by_cases hnone : firstStop stops (text₀ ++ textOf decode (tokens ++ [token])) = []
      · refine ⟨tailOf stops (text₀ ++ textOf decode (tokens ++ [token])), ?_, ?_⟩
        · rw [if_pos hnone, if_pos hnone, hnone, ← hunmatched, ← hreason]
        · intro stops' hsome _
          rw [← Option.some.inj hsome]
      · rw [if_neg hnone, if_neg hnone]
        exact ⟨[], rfl, fun _ _ habs => absurd habs hnone⟩

theorem Counted.flush
    (h : Counted decode o text₀ tokens row) :
    Counted decode o text₀ tokens (row.flush false) := by
  -- What is complete moves from the pending bytes to the events.
  have hpending : takeUtf8 (row.flush false).pending = ([], (row.flush false).pending) := by
    rw [pending_flush]
    exact takeUtf8_rest row.pending
  refine
    { step := h.step
      generated := h.generated
      matched := h.matched
      earlier := h.earlier
      text := ?_
      finished := h.finished
      completed := h.completed
      stopToken := h.stopToken
      finishReason := h.finishReason
      tail := h.tail
      rest := ?_
      within := h.within }
  · rw [h.text, hpending, emitted_flush, List.append_nil]
  · rw [h.rest, hpending, emitted_flush, pending_flush]
    simp [emit]

theorem Counted.flush_of
    (h : Counted decode o text₀ tokens row) (full : Prop) [Decidable full] :
    Counted decode o text₀ tokens (if full then row.flush false else row) := by
  by_cases hfull : full
  · rw [if_pos hfull]
    exact h.flush
  · rw [if_neg hfull]
    exact h

/-- A token that is counted. -/
theorem Live.sample_counted
    (h : Live decode o text₀ tokens row) {token : Token} (htoken : isStopToken o token = false)
    (chunkSize : Int) :
    Counted decode o text₀ (tokens ++ [token]) (row.sample decode o chunkSize token) := by
  let pending : Bytes := row.pending ++ decode token
  obtain ⟨tail, hcheck, htail⟩ := @checkStops_spec decode o text₀ tokens
    { row with
      token := token
      step := row.step + 1
      generatedTokens := row.generatedTokens + 1
      pending := pending
      bufferedTokens := row.bufferedTokens + 1 } token h.unmatched
    (fun stops hstops => h.tail stops hstops h.unmatched)
    (by rw [h.finishReason, if_pos h.unmatched])
  have hrest : takeUtf8 (textOf decode (tokens ++ [token])) =
      emit row.emitted (takeUtf8 pending) := by
    rw [textOf_append, takeUtf8_append, h.rest, takeUtf8_append row.pending, emit_emit]
    rfl
  have hbelow := h.below
  have hcounted : Counted decode o text₀ (tokens ++ [token])
      { row with
        token := token
        step := row.step + 1
        generatedTokens := row.generatedTokens + 1
        pending := pending
        bufferedTokens := row.bufferedTokens + 1
        stopTail := tail
        matchedStop := stopAfter decode o text₀ (tokens ++ [token])
        finishReason :=
          if stopAfter decode o text₀ (tokens ++ [token]) = [] then .length else .stop } :=
    { step := by simp [h.step]
      generated := by simp [h.generated]
      matched := rfl
      earlier := by
        intro k hk
        rw [List.length_append, List.length_singleton] at hk
        by_cases hlast : k = tokens.length
        · rw [hlast, List.take_left' rfl, ← h.matched]
          exact h.unmatched
        · rw [List.take_append_of_le_length (by omega)]
          exact h.earlier k (by omega)
      text := by rw [hrest]; rfl
      finished := h.finished
      completed := h.completed
      stopToken := h.stopToken
      finishReason := rfl
      tail := htail
      rest := hrest
      within := by rw [List.length_append, List.length_singleton]; omega }
  unfold Row.sample
  rw [htoken]
  simp only [Bool.false_eq_true, if_false]
  rw [hcheck]
  exact hcounted.flush_of _

/-- What follows the forward pass. -/
theorem Counted.forwarded
    (h : Counted decode o text₀ tokens row) :
    Live decode o text₀ tokens ((row.forwarded o).rebuild cancelled notify) ∨
      Ended decode o text₀ tokens cancelled ((row.forwarded o).rebuild cancelled notify) := by
  have hprogress : Progress decode o text₀ tokens { row with finished := true } :=
    ⟨h.step, h.generated, h.matched, h.earlier, h.text⟩
  have hwithin : tokens.length + (if row.stopToken then 1 else 0) ≤ o.maxTokens.toNat := by
    have hle := h.within
    simp only [h.stopToken, Bool.false_eq_true, if_false]
    omega
  have hstop : row.finishReason = .stop ↔ row.matchedStop ≠ [] := by
    rw [h.finishReason]
    by_cases hunmatched : row.matchedStop = [] <;> simp [hunmatched]
  by_cases hend : o.maxTokens ≤ row.step ∨ row.finishReason = .stop
  · right
    have hrebuild : (row.forwarded o).rebuild cancelled notify =
        ({ row with finished := true }).complete cancelled notify := by
      rw [Row.forwarded, if_pos hend]
      cases cancelled <;> rfl
    rw [hrebuild]
    refine hprogress.complete h.completed hstop.mpr ?_ hwithin
    rcases hend with hmax | hreason
    · exact Or.inr (Or.inl (h.step ▸ hmax))
    · exact Or.inr (Or.inr (Or.inl (hstop.mp hreason)))
  · have hunmatched : row.matchedStop = [] := by
      by_contra hne
      exact hend (Or.inr (hstop.mpr hne))
    have hbelow : (tokens.length : Int) < o.maxTokens := by
      by_contra hle
      exact hend (Or.inl (h.step ▸ Int.not_lt.mp hle))
    rw [Row.forwarded, if_neg hend]
    rcases h.rebuild cancelled notify with ⟨hended, -⟩ | ⟨heq, -⟩
    · exact Or.inr hended
    · rw [heq]
      exact Or.inl { h with unmatched := hunmatched, below := hbelow }

theorem Ended.mono
    {c cancelled' : Bool} (h : Ended decode o text₀ tokens c row)
    (hmono : c = true → cancelled' = true) :
    Ended decode o text₀ tokens cancelled' row :=
  { h with cause := h.cause.imp_left hmono }

theorem tick_completed {chunkSize : Int} {t : Tick} (h : row.completed = true) :
    row.tick decode o chunkSize notify t = row := by
  rw [Row.tick, if_pos h]

/-- One step: the token is counted and the row goes on, or the row ends. -/
theorem tick_spec (h : Live decode o text₀ tokens row) (chunkSize : Int) (t : Tick) :
    Live decode o text₀ (tokens ++ [t.token]) (row.tick decode o chunkSize notify t) ∨
      Ended decode o text₀ (tokens ++ [t.token]) t.cancels
        (row.tick decode o chunkSize notify t) ∨
      Ended decode o text₀ tokens t.cancels (row.tick decode o chunkSize notify t) := by
  rw [Row.tick, if_neg (by rw [h.completed]; exact Bool.false_ne_true)]
  rcases h.toCounted.rebuild t.cancelledBefore notify with
    ⟨hended, hcancelled⟩ | ⟨heq, -⟩
  · right
    right
    simp only [hended.completed, if_true]
    exact hended.mono (fun _ => by simp [Tick.cancels, hcancelled])
  simp only [heq, h.completed, Bool.false_eq_true, if_false]
  cases htoken : isStopToken o t.token with
  | true =>
      right
      right
      have hended := h.sample_stop t.cancelledSampled notify htoken chunkSize
      simp only [hended.completed, if_true]
      exact hended.mono (fun hsampled => by simp [Tick.cancels, hsampled])
  | false =>
      have hcounted := h.sample_counted htoken chunkSize
      rcases hcounted.rebuild t.cancelledSampled notify with
        ⟨hended, hcancelled⟩ | ⟨heq, -⟩
      · right
        left
        simp only [hended.completed, if_true]
        exact hended.mono (fun _ => by simp [Tick.cancels, hcancelled])
      · simp only [heq, hcounted.completed, Bool.false_eq_true, if_false]
        rcases hcounted.forwarded t.cancelledForwarded notify with
          hlive | hended
        · exact Or.inl hlive
        · right
          left
          exact hended.mono (fun hforwarded => by simp [Tick.cancels, hforwarded])

theorem decodeRow_completed
    {chunkSize : Int} (h : row.completed = true) (ticks : List Tick) :
    decodeRow decode o chunkSize notify row ticks = row := by
  induction ticks with
  | nil => rfl
  | cons t ticks ih =>
      rw [decodeRow, List.foldl_cons, tick_completed notify h]
      exact ih

/-- A run from a row that goes on. -/
theorem decodeRow_spec
    (h : Live decode o text₀ tokens row) (chunkSize : Int) (ticks : List Tick) :
    Live decode o text₀ (tokens ++ ticks.map Tick.token)
        (decodeRow decode o chunkSize notify row ticks) ∨
      ∃ n ≤ ticks.length,
        Ended decode o text₀ (tokens ++ (ticks.map Tick.token).take n)
          (ticks.any Tick.cancels) (decodeRow decode o chunkSize notify row ticks) := by
  induction ticks generalizing tokens row with
  | nil =>
      left
      rw [List.map_nil, List.append_nil]
      exact h
  | cons t ticks ih =>
      rw [decodeRow, List.foldl_cons]
      rcases tick_spec notify h chunkSize t with hlive | hended | hended
      · rcases ih hlive with hgoes | ⟨n, hn, hends⟩
        · left
          rw [List.map_cons, List.append_cons]
          exact hgoes
        · right
          refine ⟨n + 1, Nat.succ_le_succ hn, ?_⟩
          rw [List.map_cons, List.take_succ_cons, List.append_cons]
          exact hends.mono (fun hany => by rw [List.any_cons, hany, Bool.or_true])
      · right
        refine ⟨1, by simp, ?_⟩
        rw [List.map_cons, List.take_succ_cons, List.take_zero]
        rw [← decodeRow, decodeRow_completed notify hended.completed]
        exact hended.mono (fun ht => by rw [List.any_cons, ht, Bool.true_or])
      · right
        refine ⟨0, Nat.zero_le _, ?_⟩
        rw [List.take_zero, List.append_nil]
        rw [← decodeRow, decodeRow_completed notify hended.completed]
        exact hended.mono (fun ht => by rw [List.any_cons, ht, Bool.true_or])

/-- The row that `admitRow` makes. -/
theorem admit_spec
    {textStopTail : Bytes}
    (htail : ∀ stops, o.stop = some stops → textStopTail = tailOf stops text₀) :
    Live decode o text₀ [] (admitRow o cancelled notify textStopTail) ∨
      Ended decode o text₀ [] cancelled (admitRow o cancelled notify textStopTail) := by
  have hnone : stopAfter decode o text₀ [] = [] := by
    unfold stopAfter
    cases o.stop <;> rfl
  have hempty : (takeUtf8 (textOf decode ([] : List Token))).1 = [] := rfl
  have hprogress : ∀ row : Row, row.step = 0 → row.generatedTokens = 0 →
      row.matchedStop = [] → row.events = [] → row.pending = [] →
      Progress decode o text₀ [] row := by
    intro row hstep hgenerated hmatched hevents hpending
    refine ⟨hstep, hgenerated, hmatched.trans hnone.symm, by simp, ?_⟩
    rw [hpending, hempty, Row.emitted, hevents]
    rfl
  unfold admitRow
  dsimp only
  split
  · rename_i hend
    right
    refine (hprogress _ rfl rfl rfl rfl rfl).complete rfl (fun hne => absurd rfl hne) ?_
      (Nat.zero_le _)
    exact hend.imp_right Or.inl
  · rename_i hgoes
    left
    have hpositive : 0 < o.maxTokens := by
      by_contra hle
      exact hgoes (Or.inr (Int.not_lt.mp hle))
    refine
      { hprogress _ rfl rfl rfl rfl rfl with
        finished := rfl
        completed := rfl
        stopToken := rfl
        finishReason := rfl
        tail := ?_
        rest := rfl
        within := hpositive.le
        unmatched := rfl
        below := hpositive }
    intro stops hstops _
    rw [textOf, List.map_nil, List.flatten_nil, List.append_nil]
    exact htail stops hstops

/-- A run from `admitRow`: the tokens that were counted, and how the row stands. -/
theorem decodeRow_admitRow
    {textStopTail : Bytes}
    (htail : ∀ stops, o.stop = some stops → textStopTail = tailOf stops text₀)
    (chunkSize : Int) (ticks : List Tick) :
    let row := decodeRow decode o chunkSize notify (admitRow o cancelled notify textStopTail) ticks
    Live decode o text₀ (ticks.map Tick.token) row ∨
      ∃ n ≤ ticks.length,
        Ended decode o text₀ ((ticks.map Tick.token).take n)
          (cancelled || ticks.any Tick.cancels) row := by
  rcases @admit_spec decode o text₀ cancelled notify textStopTail htail with
    hlive | hended
  · rcases decodeRow_spec notify hlive chunkSize ticks with hgoes | ⟨n, hn, hends⟩
    · exact Or.inl hgoes
    · exact Or.inr ⟨n, hn, hends.mono (fun hany => by rw [hany, Bool.or_true])⟩
  · right
    refine ⟨0, Nat.zero_le _, ?_⟩
    rw [List.take_zero, decodeRow_completed notify hended.completed]
    exact hended.mono (fun hcancelled => by rw [hcancelled, Bool.true_or])

end Steps

section Stops

variable {decode : Token → Bytes} {o : Options} {text₀ : Bytes} {stops : List Bytes}
variable {tokens : List Token} {row : Row}

theorem stopAfter_eq (hstops : o.stop = some stops) (hne : tokens ≠ []) :
    stopAfter decode o text₀ tokens = firstStop stops (text₀ ++ textOf decode tokens) := by
  rw [stopAfter, hstops]
  exact if_neg hne

/-- No stop ends the text before the last counted token. -/
theorem Progress.no_stop
    (h : Progress decode o text₀ tokens row) (hstops : o.stop = some stops) {k : Nat}
    (hpositive : 0 < k) (hk : k < row.step) :
    ∀ stop ∈ stops, stop ≠ [] → ¬ stop <:+ text₀ ++ textOf decode (tokens.take k) := by
  have hk' : k < tokens.length := h.step ▸ hk
  have hne : tokens.take k ≠ [] := by
    intro hnil
    have hlength := congrArg List.length hnil
    rw [List.length_take, List.length_nil] at hlength
    omega
  have hnone := h.earlier k hk'
  rw [stopAfter_eq hstops hne] at hnone
  exact firstStop_eq_nil_iff.mp hnone

theorem Progress.matchedStop_eq
    (h : Progress decode o text₀ tokens row) (hstops : o.stop = some stops) :
    row.matchedStop =
      if row.step = 0 then [] else firstStop stops (text₀ ++ textOf decode tokens) := by
  rw [h.matched, h.step]
  by_cases hnil : tokens = []
  · rw [hnil, stopAfter, hstops]
    rfl
  · rw [stopAfter_eq hstops hnil, if_neg (fun hzero => hnil (List.length_eq_zero_iff.mp hzero))]

/--
The row stops at the first token whose text ends with a stop; `text k` is the text after
`k` tokens, of which `count` were sampled.
-/
structure StopsAtFirst (stops : List Bytes) (text : Nat → Bytes) (maxTokens : Int)
    (cancelled : Bool) (count : Nat) (row : Row) : Prop where
  counted : row.step ≤ count
  goes : row.completed = false → row.step = count
  earlier : ∀ k, 0 < k → k < row.step → ∀ stop ∈ stops, stop ≠ [] → ¬ stop <:+ text k
  matched : row.matchedStop = if row.step = 0 then [] else firstStop stops (text row.step)
  stops : row.matchedStop ≠ [] → row.completed = true ∧ row.finishReason = .stop
  cause : row.completed = true →
    cancelled = true ∨ maxTokens ≤ row.step ∨ row.matchedStop ≠ []

theorem decodeRow_stopsAtFirst
    {cancelled notify : Bool} {textStopTail : Bytes} (hstops : o.stop = some stops)
    (htail : textStopTail = tailOf stops text₀) (chunkSize : Int) (ticks : List Tick) :
    StopsAtFirst stops
      (fun k => text₀ ++ textOf decode ((ticks.map Tick.token).take k)) o.maxTokens
      (cancelled || ticks.any Tick.cancels) ticks.length
      (decodeRow decode o chunkSize notify (admitRow o cancelled notify textStopTail) ticks) := by
  have htail' : ∀ stops', o.stop = some stops' → textStopTail = tailOf stops' text₀ := by
    intro stops' hsome
    rw [htail, Option.some.inj (hstops.symm.trans hsome)]
  have hrun := @decodeRow_admitRow decode o text₀ cancelled notify _ htail' chunkSize ticks
  dsimp only at hrun
  generalize decodeRow decode o chunkSize notify _ ticks = row at hrun
  rcases hrun with hlive | ⟨n, hn, hended⟩
  · have hstep : row.step = ticks.length := hlive.step.trans (List.length_map _)
    have hwhole : (ticks.map Tick.token).take row.step = ticks.map Tick.token := by
      rw [hlive.step, List.take_length]
    refine
      { counted := hstep.le
        goes := fun _ => hstep
        earlier := fun k hpositive hk => hlive.no_stop hstops hpositive hk
        matched := ?_
        stops := fun hne => absurd hlive.unmatched hne
        cause := fun hcompleted => Bool.noConfusion (hlive.completed.symm.trans hcompleted) }
    rw [hwhole]
    exact hlive.matchedStop_eq hstops
  · have hstep : row.step = n := by
      rw [hended.step, List.length_take, List.length_map]
      exact Nat.min_eq_left hn
    refine
      { counted := hstep.le.trans hn
        goes := fun hgoes => Bool.noConfusion (hended.completed.symm.trans hgoes)
        earlier := ?_
        matched := ?_
        stops := fun hne => ⟨hended.completed, hended.reason hne⟩
        cause := ?_ }
    · intro k hpositive hk
      have hnone := hended.no_stop hstops hpositive hk
      rw [List.take_take, Nat.min_eq_left (hstep ▸ hk.le)] at hnone
      exact hnone
    · have hmatched := hended.matchedStop_eq hstops
      rw [← hstep] at hmatched
      exact hmatched
    · intro _
      rcases hended.cause with hcancelled | hmax | hmatched | ⟨-, hnone⟩
      · exact Or.inl hcancelled
      · rw [← hended.step] at hmax
        exact Or.inr (Or.inl hmax)
      · exact Or.inr (Or.inr hmatched)
      · exact absurd (hstops.symm.trans hnone) (by simp)

/--
The matcher with its bounded tail reports after each token the first stop that ends the
text since the last reset, and a row stops at the first token after which there is one.
-/
theorem stopStrings_exact (stops : List Bytes) (ops : List TailOp) :
    (appendAll stops [] ops).1 = (appendWhole stops [] ops).1 ∧
    ∀ (decode : Token → Bytes) (maxTokens chunkSize : Int) (stopTokens : List Token)
      (cancelled notify : Bool) (ticks : List Tick),
      let text (k : Nat) : Bytes :=
        (appendWhole stops [] ops).2 ++ textOf decode ((ticks.map Tick.token).take k)
      let o : Options := ⟨maxTokens, stopTokens, some stops⟩
      StopsAtFirst stops text maxTokens (cancelled || ticks.any Tick.cancels) ticks.length
        (decodeRow decode o chunkSize notify
          (admitRow o cancelled notify (appendAll stops [] ops).2) ticks) := by
  have hall := appendAll_eq stops [] ops
  rw [tailOf_nil] at hall
  constructor
  · rw [hall]
  · intro decode maxTokens chunkSize stopTokens cancelled notify ticks text o
    have htail : (appendAll stops [] ops).2 = tailOf stops (appendWhole stops [] ops).2 := by
      rw [hall]
    have hstops : o.stop = some stops := rfl
    exact decodeRow_stopsAtFirst hstops htail chunkSize ticks

end Stops

end DecodeRow
end RwkvLightning

import RwkvLightning.Inference.DecodeRow
import RwkvLightning.Inference.Tokenizer
import Mathlib

/-!
# What a row has sampled, and the chunks it hands out

The number of tokens that the scheduler samples for a row, and how `flush` cuts their text
into chunks.

**Results.**
* `Tally`: the tokens that were generated and sampled, against the counters of the row, the
  limit and the chunks.
* `tally_admitRow`, `tally_tick`: it holds at the admission, and one step keeps it.
-/

namespace RwkvLightning
namespace DecodeRow

open Backend Text Tokenizer

section Chunks

/-- `count_tokens`. -/
def countTokens (order : SetOrder) (tokenizer : OptimizedTrieTokenizer) (text : Bytes) : Nat :=
  (tokenizer.encodeBytes order text).length

/-- `decode` of one token. -/
def decodeToken (tokenizer : OptimizedTrieTokenizer) (token : Token) : Bytes :=
  (tokenizer.decodeBytes [token]).getD []

/-- An event is made for a text that is not empty. -/
def shown (text : Bytes) : List Bytes :=
  if text = [] then [] else [text]

/--
The chunks of some tokens: the text is cut after every `chunkSize` tokens, at the end of the
last complete character, and once more at the end.
-/
def chunks (decode : Token → Bytes) (chunkSize : Int) : Bytes → Nat → List Token → List Bytes
  | pending, _, [] => shown (takeUtf8 pending).1
  | pending, buffered, token :: tokens =>
      let pending := pending ++ decode token
      if 0 < chunkSize ∧ chunkSize ≤ (buffered + 1 : Nat) then
        shown (takeUtf8 pending).1 ++ chunks decode chunkSize (takeUtf8 pending).2 0 tokens
      else chunks decode chunkSize pending (buffered + 1) tokens

/-- The texts of the events. -/
def Row.texts (row : Row) : List Bytes :=
  row.events.map Event.text

/-- The token that a step samples for the row. -/
def Row.draw (row : Row) (notify : Bool) (t : Tick) : Option Token :=
  if row.completed then none
  else if (row.rebuild t.cancelledBefore notify).completed then none
  else some t.token

end Chunks

section Texts

variable {row : Row} {cancelled notify : Bool}

@[simp] theorem texts_flush (final : Bool) :
    (row.flush final).texts = row.texts ++ shown (takeUtf8 row.pending).1 := by
  simp only [Row.flush, Row.texts, takeCompleteUtf8, shown]
  by_cases hempty : (takeUtf8 row.pending).1 = []
  · simp [hempty]
  · simp [hempty]

/-- What `complete` keeps, and the chunk it makes; the event of a stop has no text. -/
theorem complete_texts (h : row.completed = false) :
    (row.complete cancelled notify).completed = true ∧
      (row.complete cancelled notify).step = row.step ∧
      (row.complete cancelled notify).generatedTokens = row.generatedTokens ∧
      (row.complete cancelled notify).stopToken = row.stopToken ∧
      ((row.complete cancelled notify).texts = row.texts ++ shown (takeUtf8 row.pending).1 ∨
        (row.complete cancelled notify).texts =
          row.texts ++ shown (takeUtf8 row.pending).1 ++ [[]]) := by
  have hflush := @texts_flush { row with completed := true } true
  have hmarked := @texts_flush ({ row with completed := true }).markInterrupted true
  rw [Row.complete, if_neg (by rw [h]; exact Bool.false_ne_true)]
  cases cancelled with
  | true => exact ⟨rfl, rfl, rfl, rfl, Or.inl hmarked⟩
  | false =>
      simp only [Bool.false_eq_true, if_false]
      split
      · refine ⟨rfl, rfl, rfl, rfl, Or.inr ?_⟩
        refine Eq.trans ?_ (congrArg (· ++ [[]]) hflush)
        simp [Row.texts]
      · exact ⟨rfl, rfl, rfl, rfl, Or.inl hflush⟩

/-- Events are only added. -/
theorem texts_complete : row.texts <+: (row.complete cancelled notify).texts := by
  cases h : row.completed with
  | true => rw [Row.complete, if_pos h]
  | false =>
      obtain ⟨-, -, -, -, htexts | htexts⟩ := @complete_texts row cancelled notify h
      · exact ⟨_, htexts.symm⟩
      · exact ⟨_, (htexts.trans (List.append_assoc ..)).symm⟩

theorem texts_rebuild : row.texts <+: (row.rebuild cancelled notify).texts := by
  have hcomplete : ∀ r : Row, r.texts = row.texts →
      row.texts <+: (if r.finished then r.complete cancelled notify else r).texts := by
    intro r hr
    split
    · exact hr ▸ texts_complete
    · rw [hr]
  rw [Row.rebuild]
  cases cancelled with
  | true => exact hcomplete { row with finished := true } rfl
  | false => exact hcomplete row rfl

end Texts

section Tally

variable (decode : Token → Bytes) (o : Options) (chunkSize : Int)

/-- The tokens that were generated and the number of those sampled, against a row. -/
structure Tally (tokens : List Token) (sampled : Nat) (row : Row) : Prop where
  step : row.step = tokens.length
  generated : row.generatedTokens = tokens.length
  drawn : sampled = tokens.length + if row.stopToken then 1 else 0
  within : sampled ≤ o.maxTokens.toNat

/-- A row that is not finished: what follows is chunked from where it stands. -/
structure Going (tokens : List Token) (sampled : Nat) (row : Row) : Prop extends
    Tally o tokens sampled row where
  completed : row.completed = false
  finished : row.finished = false
  stopToken : row.stopToken = false
  chunked : ∀ rest, chunks decode chunkSize [] 0 (tokens ++ rest) =
    row.texts ++ chunks decode chunkSize row.pending row.bufferedTokens rest

/-- A row whose next token is within the limit. -/
structure Short (tokens : List Token) (sampled : Nat) (row : Row) : Prop extends
    Going decode o chunkSize tokens sampled row where
  below : (tokens.length : Int) < o.maxTokens

/-- A completed row: all chunks are made. -/
structure Gone (tokens : List Token) (sampled : Nat) (row : Row) : Prop extends
    Tally o tokens sampled row where
  completed : row.completed = true
  chunked : row.texts = chunks decode chunkSize [] 0 tokens ∨
    row.texts = chunks decode chunkSize [] 0 tokens ++ [[]]

end Tally

section Steps

variable {decode : Token → Bytes} {o : Options} {chunkSize : Int}
variable {tokens : List Token} {sampled : Nat} {row : Row} (cancelled notify : Bool)

/-- A row that completes has made all its chunks. -/
theorem Tally.complete (h : Tally o tokens sampled row) (hcompleted : row.completed = false)
    (hchunked : chunks decode chunkSize [] 0 tokens =
      row.texts ++ shown (takeUtf8 row.pending).1) :
    Gone decode o chunkSize tokens sampled (row.complete cancelled notify) := by
  obtain ⟨hdone, hstep, hgenerated, htoken, htexts⟩ :=
    @complete_texts row cancelled notify hcompleted
  exact
    { step := hstep.trans h.step
      generated := hgenerated.trans h.generated
      drawn := by rw [htoken]; exact h.drawn
      within := h.within
      completed := hdone
      chunked := by rw [hchunked]; exact htexts }

theorem Going.last (h : Going decode o chunkSize tokens sampled row) :
    chunks decode chunkSize [] 0 tokens = row.texts ++ shown (takeUtf8 row.pending).1 := by
  have hrest := h.chunked []
  rw [List.append_nil, chunks] at hrest
  exact hrest

/-- A row that is finished and then rebuilt. -/
theorem Going.finish (h : Going decode o chunkSize tokens sampled row) :
    Gone decode o chunkSize tokens sampled
      (({ row with finished := true }).rebuild cancelled notify) := by
  have hrebuild : ({ row with finished := true }).rebuild cancelled notify =
      ({ row with finished := true }).complete cancelled notify := by
    cases cancelled <;> rfl
  have htally : Tally o tokens sampled { row with finished := true } :=
    ⟨h.step, h.generated, h.drawn, h.within⟩
  rw [hrebuild]
  exact htally.complete cancelled notify h.completed h.last

/-- `rebuild` of a row that is not finished. -/
theorem Going.rebuild (h : Going decode o chunkSize tokens sampled row) :
    Gone decode o chunkSize tokens sampled (row.rebuild cancelled notify) ∨
      row.rebuild cancelled notify = row := by
  cases cancelled with
  | false =>
      right
      simp [Row.rebuild, h.finished]
  | true =>
      left
      exact h.finish true notify

/-- A stop token is sampled, but not counted. -/
theorem Short.sample_stop (h : Short decode o chunkSize tokens sampled row) {token : Token}
    (htoken : isStopToken o token = true) :
    Gone decode o chunkSize tokens (sampled + 1)
      ((row.sample decode o chunkSize token).rebuild cancelled notify) := by
  let stopped : Row :=
    { row with token := token, stopToken := true, finishReason := .stop, finished := true }
  have hsample : row.sample decode o chunkSize token = stopped := by
    simp [Row.sample, htoken, stopped]
  have hrebuild : stopped.rebuild cancelled notify = stopped.complete cancelled notify := by
    cases cancelled <;> rfl
  have hdrawn : sampled = tokens.length := by
    have hsampled := h.drawn
    rw [h.stopToken] at hsampled
    exact hsampled
  have hbelow := h.below
  have htally : Tally o tokens (sampled + 1) stopped :=
    { step := h.step
      generated := h.generated
      drawn := by rw [hdrawn]; rfl
      within := by omega }
  rw [hsample, hrebuild]
  exact htally.complete cancelled notify h.completed h.last

/-- The stop strings change neither the counters nor the chunks. -/
theorem checkStops_keeps (decoded : Bytes) :
    ∃ tail matched reason, row.checkStops o decoded =
      { row with stopTail := tail, matchedStop := matched, finishReason := reason } := by
  rw [Row.checkStops]
  split
  · exact ⟨row.stopTail, row.matchedStop, row.finishReason, rfl⟩
  · dsimp only
    split
    · exact ⟨_, row.matchedStop, row.finishReason, rfl⟩
    · exact ⟨_, _, _, rfl⟩

theorem texts_sample (token : Token) :
    row.texts <+: (row.sample decode o chunkSize token).texts := by
  rw [Row.sample]
  dsimp only
  split
  · exact List.prefix_rfl
  · obtain ⟨tail, matched, reason, hstops⟩ := @checkStops_keeps o
      { row with
        token := token
        step := row.step + 1
        generatedTokens := row.generatedTokens + 1
        pending := row.pending ++ decode token
        bufferedTokens := row.bufferedTokens + 1 } (decode token)
    rw [hstops]
    split
    · rw [texts_flush]
      exact List.prefix_append _ _
    · exact List.prefix_rfl

/-- A step only adds events. -/
theorem texts_tick (t : Tick) : row.texts <+: (row.tick decode o chunkSize notify t).texts := by
  let before := row.rebuild t.cancelledBefore notify
  let after := (before.sample decode o chunkSize t.token).rebuild t.cancelledSampled notify
  have hbefore : row.texts <+: before.texts := texts_rebuild
  have hafter : row.texts <+: after.texts := hbefore.trans ((texts_sample _).trans texts_rebuild)
  have hforwarded : after.texts <+: (after.forwarded o).texts := by
    rw [Row.forwarded]
    split <;> exact List.prefix_rfl
  rw [Row.tick]
  split
  · exact List.prefix_rfl
  · show row.texts <+: (if before.completed then before
        else if after.completed then after
        else (after.forwarded o).rebuild t.cancelledForwarded notify).texts
    split
    · exact hbefore
    · split
      · exact hafter
      · exact hafter.trans (hforwarded.trans texts_rebuild)

/-- A token is counted. -/
theorem Short.sample_counted (h : Short decode o chunkSize tokens sampled row) {token : Token}
    (htoken : isStopToken o token = false) :
    Going decode o chunkSize (tokens ++ [token]) (sampled + 1)
      (row.sample decode o chunkSize token) := by
  let counted : Row :=
    { row with
      token := token
      step := row.step + 1
      generatedTokens := row.generatedTokens + 1
      pending := row.pending ++ decode token
      bufferedTokens := row.bufferedTokens + 1 }
  obtain ⟨tail, matched, reason, hstops⟩ := @checkStops_keeps o counted (decode token)
  have hsample : row.sample decode o chunkSize token =
      if 0 < chunkSize ∧ chunkSize ≤ (row.bufferedTokens + 1 : Nat) then
        Row.flush { counted with stopTail := tail, matchedStop := matched, finishReason := reason }
          false
      else { counted with stopTail := tail, matchedStop := matched, finishReason := reason } := by
    rw [Row.sample, if_neg (by rw [htoken]; exact Bool.false_ne_true)]
    dsimp only
    rw [show ({ row with
        token := token
        step := row.step + 1
        generatedTokens := row.generatedTokens + 1
        pending := row.pending ++ decode token
        bufferedTokens := row.bufferedTokens + 1 } : Row) = counted from rfl, hstops]
  have hdrawn : sampled = tokens.length := by
    have hsampled := h.drawn
    rw [h.stopToken] at hsampled
    exact hsampled
  have hbelow := h.below
  have htally : ∀ r : Row, r.step = row.step + 1 → r.generatedTokens = row.generatedTokens + 1 →
      r.stopToken = false → Tally o (tokens ++ [token]) (sampled + 1) r := by
    intro r hstep hgenerated hstop
    exact
      { step := by rw [hstep, h.step, List.length_append]; rfl
        generated := by rw [hgenerated, h.generated, List.length_append]; rfl
        drawn := by rw [hstop, hdrawn, List.length_append]; rfl
        within := by omega }
  have hchunked : ∀ rest, chunks decode chunkSize [] 0 (tokens ++ [token] ++ rest) =
      row.texts ++ chunks decode chunkSize row.pending row.bufferedTokens (token :: rest) := by
    intro rest
    rw [List.append_assoc]
    exact h.chunked (token :: rest)
  rw [hsample]
  by_cases hfull : 0 < chunkSize ∧ chunkSize ≤ (row.bufferedTokens + 1 : Nat)
  · rw [if_pos hfull]
    refine
      { toTally := htally _ rfl rfl h.stopToken
        completed := h.completed
        finished := h.finished
        stopToken := h.stopToken
        chunked := fun rest => ?_ }
    rw [hchunked, chunks, texts_flush, List.append_assoc]
    dsimp only
    rw [if_pos hfull]
    rfl
  · rw [if_neg hfull]
    refine
      { toTally := htally _ rfl rfl h.stopToken
        completed := h.completed
        finished := h.finished
        stopToken := h.stopToken
        chunked := fun rest => ?_ }
    rw [hchunked, chunks]
    dsimp only
    rw [if_neg hfull]
    rfl

/-- What follows the forward pass. -/
theorem Going.forwarded (h : Going decode o chunkSize tokens sampled row) :
    Short decode o chunkSize tokens sampled ((row.forwarded o).rebuild cancelled notify) ∨
      Gone decode o chunkSize tokens sampled ((row.forwarded o).rebuild cancelled notify) := by
  by_cases hend : o.maxTokens ≤ row.step ∨ row.finishReason = .stop
  · right
    rw [Row.forwarded, if_pos hend]
    exact h.finish cancelled notify
  · have hbelow : (tokens.length : Int) < o.maxTokens := by
      by_contra hle
      exact hend (Or.inl (h.step ▸ Int.not_lt.mp hle))
    rw [Row.forwarded, if_neg hend]
    rcases h.rebuild cancelled notify with hgone | heq
    · exact Or.inr hgone
    · rw [heq]
      exact Or.inl { h with below := hbelow }

/-- One step: what it samples is counted, and the row goes on or is completed. -/
theorem tally_tick (h : Short decode o chunkSize tokens sampled row) (t : Tick) :
    let drawn := (row.draw notify t).toList
    let tokens' := tokens ++ drawn.filter (fun token => isStopToken o token = false)
    Short decode o chunkSize tokens' (sampled + drawn.length)
        (row.tick decode o chunkSize notify t) ∨
      Gone decode o chunkSize tokens' (sampled + drawn.length)
        (row.tick decode o chunkSize notify t) := by
  intro drawn tokens'
  have hdraw : row.draw notify t =
      if (row.rebuild t.cancelledBefore notify).completed then none else some t.token := by
    rw [Row.draw, h.completed]
    rfl
  rw [Row.tick, if_neg (by rw [h.completed]; exact Bool.false_ne_true)]
  rcases h.toGoing.rebuild t.cancelledBefore notify with hgone | heq
  · right
    have hnone : drawn = [] := by simp only [drawn, hdraw, hgone.completed, if_true, Option.toList]
    simp only [tokens', hnone, hgone.completed, if_true, List.filter_nil, List.append_nil,
      List.length_nil, Nat.add_zero]
    exact hgone
  have hsome : drawn = [t.token] := by
    simp only [drawn, hdraw, heq, h.completed, Bool.false_eq_true, if_false, Option.toList]
  simp only [heq, h.completed, Bool.false_eq_true, if_false]
  cases htoken : isStopToken o t.token with
  | true =>
      right
      have hgone := h.sample_stop t.cancelledSampled notify htoken
      have htokens : tokens' = tokens := by simp [tokens', hsome, htoken]
      simp only [htokens, hsome, List.length_singleton, hgone.completed, if_true]
      exact hgone
  | false =>
      have hgoing := h.sample_counted htoken
      have htokens : tokens' = tokens ++ [t.token] := by simp [tokens', hsome, htoken]
      rw [htokens, hsome, List.length_singleton]
      rcases hgoing.rebuild t.cancelledSampled notify with hgone | heq
      · right
        simp only [hgone.completed, if_true]
        exact hgone
      · simp only [heq, hgoing.completed, Bool.false_eq_true, if_false]
        exact hgoing.forwarded t.cancelledForwarded notify

/-- A completed row samples nothing. -/
theorem draw_completed (h : row.completed = true) (t : Tick) : row.draw notify t = none := by
  rw [Row.draw, if_pos h]

/-- The row that `admitRow` makes. -/
theorem tally_admitRow (textStopTail : Bytes) :
    Short decode o chunkSize [] 0 (admitRow o cancelled notify textStopTail) ∨
      Gone decode o chunkSize [] 0 (admitRow o cancelled notify textStopTail) := by
  unfold admitRow
  dsimp only
  split
  · rename_i hend
    right
    refine Tally.complete cancelled notify ⟨rfl, rfl, rfl, Nat.zero_le _⟩ rfl ?_
    rfl
  · rename_i hgoes
    left
    have hpositive : 0 < o.maxTokens := by
      by_contra hle
      exact hgoes (Or.inr (Int.not_lt.mp hle))
    exact
      { step := rfl
        generated := rfl
        drawn := rfl
        within := Nat.zero_le _
        completed := rfl
        finished := rfl
        stopToken := rfl
        chunked := fun _ => rfl
        below := hpositive }

end Steps

end DecodeRow
end RwkvLightning

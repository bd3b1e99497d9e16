import RwkvLightning.Inference.Text
import Mathlib

/-!
# One row in the decode scheduler

What `Scheduler::admit`, `step`, `rebuild` and `complete` of
`rwkv_inference_engine.cpp` do with one row of a request and with the statistics that
belong to it.

**Steps.**  A `Tick` is one `step` of the group of the row: the token that was sampled
for the row, and what `rebuild` reads of `cancelled` before the sampling, after it and
after the forward pass.  `fail` sets `cancelled` and completes the row, so a failure of
the group is a cancellation at that place.  While a row waits for its client nothing
happens to it.

**Not modelled.**  The recurrent state, the logits and the sampler, which the texts do
not depend on.
-/

namespace RwkvLightning
namespace DecodeRow

open Backend Text

/-- The entries of `finish_reasons`. -/
inductive FinishReason where
  | length | stop
deriving DecidableEq, Repr

/-- The options that the decode loop reads. -/
structure Options where
  maxTokens : Int
  stopTokens : List Token
  stop : Option (List Bytes)
deriving DecidableEq, Repr

/-- `Event`; `stop` says whether it has statistics. -/
structure Event where
  text : Bytes
  stop : Bool
deriving DecidableEq, Repr

/-- `Row`, and what `GenerationStats` has for it. -/
structure Row where
  step : Nat
  token : Token
  finished : Bool
  completed : Bool
  pending : Bytes
  stopTail : Bytes
  bufferedTokens : Nat
  generatedTokens : Nat
  stopped : Bool
  stopToken : Bool
  finishReason : FinishReason
  matchedStop : Bytes
  events : List Event
deriving DecidableEq, Repr

/-- One `step` of the scheduler, as far as the row is concerned. -/
structure Tick where
  token : Token
  cancelledBefore : Bool
  cancelledSampled : Bool
  cancelledForwarded : Bool
deriving DecidableEq, Repr

section Functions

/-- `flush`. -/
def Row.flush (row : Row) (final : Bool) : Row :=
  let r := takeCompleteUtf8 row.pending final
  { row with
    pending := r.2
    bufferedTokens := 0
    events := if r.1 = [] then row.events else row.events ++ [⟨r.1, false⟩] }

/-- `mark_interrupted`. -/
def Row.markInterrupted (row : Row) : Row :=
  { row with stopped := true, finishReason := .stop }

/-- `complete`; `notify` is `notify_text_stop`. -/
def Row.complete (row : Row) (cancelled notify : Bool) : Row :=
  if row.completed then row
  else
    let row := { row with completed := true }
    let row := if cancelled then row.markInterrupted else row
    let row := row.flush true
    if row.finishReason = .stop ∧ cancelled = false ∧ (notify ∨ row.matchedStop = []) then
      { row with events := row.events ++ [⟨[], true⟩] }
    else row

/-- `rebuild`. -/
def Row.rebuild (row : Row) (cancelled notify : Bool) : Row :=
  let row := if cancelled then { row with finished := true } else row
  if row.finished then row.complete cancelled notify else row

/-- The stop check, which text matching replaces. -/
def isStopToken (o : Options) (token : Token) : Bool :=
  o.stop.isNone && o.stopTokens.contains token

/-- The stop strings after a token. -/
def Row.checkStops (row : Row) (o : Options) (decoded : Bytes) : Row :=
  match o.stop with
  | none => row
  | some stops =>
      let r := matchStop stops row.stopTail decoded
      if r.1 = [] then { row with stopTail := r.2 }
      else { row with matchedStop := r.1, finishReason := .stop, stopTail := [] }

/-- The loop over the sampled tokens. -/
def Row.sample (row : Row) (decode : Token → Bytes) (o : Options) (chunkSize : Int)
    (token : Token) : Row :=
  let row := { row with token := token }
  if isStopToken o token then
    { row with stopToken := true, finishReason := .stop, finished := true }
  else
    let decoded := decode token
    let row :=
      { row with
        step := row.step + 1
        generatedTokens := row.generatedTokens + 1
        pending := row.pending ++ decoded
        bufferedTokens := row.bufferedTokens + 1 }
    let row := row.checkStops o decoded
    if 0 < chunkSize ∧ chunkSize ≤ row.bufferedTokens then row.flush false else row

/-- What follows the forward pass. -/
def Row.forwarded (row : Row) (o : Options) : Row :=
  if o.maxTokens ≤ row.step ∨ row.finishReason = .stop then { row with finished := true }
  else row

/-- `step`. -/
def Row.tick (decode : Token → Bytes) (o : Options) (chunkSize : Int) (notify : Bool)
    (row : Row) (t : Tick) : Row :=
  if row.completed then row
  else
    let row := row.rebuild t.cancelledBefore notify
    if row.completed then row
    else
      let row := (row.sample decode o chunkSize t.token).rebuild t.cancelledSampled notify
      if row.completed then row
      else (row.forwarded o).rebuild t.cancelledForwarded notify

/-- `admit` and `admit_pending`. -/
def admitRow (o : Options) (cancelled notify : Bool) (textStopTail : Bytes) : Row :=
  let row : Row :=
    { step := 0
      token := 0
      finished := false
      completed := false
      pending := []
      stopTail := textStopTail
      bufferedTokens := 0
      generatedTokens := 0
      stopped := false
      stopToken := false
      finishReason := .length
      matchedStop := []
      events := [] }
  if cancelled ∨ o.maxTokens ≤ 0 then row.complete cancelled notify else row

/-- The row after these steps of the scheduler. -/
def decodeRow (decode : Token → Bytes) (o : Options) (chunkSize : Int) (notify : Bool)
    (row : Row) (ticks : List Tick) : Row :=
  ticks.foldl (Row.tick decode o chunkSize notify) row

end Functions

end DecodeRow
end RwkvLightning

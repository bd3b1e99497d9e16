import RwkvLightning.Inference.DecodeChunks
import RwkvLightning.Server.RequestRegistry
import Mathlib

/-!
# The token budget of a chat

One request from `/v1/chat/completions` through its pauses and resumes: the handlers of
`chat_routes.cpp` and `server_routes.cpp` over one row of the scheduler.

**Counts.**  The chunks that a handler gets are counted with `count_tokens`.  `sampled` and
`generated` are the tokens that the scheduler really samples for the request, with and
without the stop tokens; no code reads them.

**Arguments.**  What the sampler, the client, the admission and the flags of pause and stop
answer is an argument of the event.
-/

namespace RwkvLightning
namespace TokenBudget

open Backend DecodeRow Tokenizer RequestRegistry

/-- The stops of `GenerateOptions`. -/
structure Settings where
  stopTokens : List Token
  stop : Option (List Bytes)

variable {α ρ ℓ : Type}

/-- What the scheduler reads of the options. -/
def rowOptions (o : GenerateOptions α Settings) : DecodeRow.Options where
  maxTokens := o.maxTokens
  stopTokens := o.settings.stopTokens
  stop := o.settings.stop

/-- A generation; `tokens` are those it has generated, which nothing reads. -/
structure Generation (α ρ ℓ : Type) where
  task : Task α Settings ρ ℓ
  request : ActiveRequest
  row : Row
  /-- The events that the handler has got. -/
  handed : Nat
  accepting : Bool
  chunkTokens : Nat
  tokens : List Token

/-- Who has the request. -/
inductive Life (α ρ ℓ : Type) where
  | queued (t : Task α Settings ρ ℓ) (r : ActiveRequest) (textStopTail : Bytes)
  | generating (g : Generation α ρ ℓ)
  | paused (p : PausedRequest α Settings ρ ℓ)
  | ended

structure System (α ρ ℓ : Type) where
  life : Life α ρ ℓ
  sampled : Nat
  generated : Nat

inductive Event (α ρ ℓ : Type) where
  | admitted (cancelled : Bool)
  /-- The request is stopped or paused before it is admitted. -/
  | denied
  /-- An exception. -/
  | failed
  | tick (t : Tick)
  /-- The handler gets the next event; `accepted` is the answer of `emit`. -/
  | handed (accepted : Bool)
  /-- `generate_from_logits_stream` returns; `pause` is the flag that is read then. -/
  | returned (state : GenerationState α ρ) (logits : DeviceLogits ℓ) (pause : Bool)
  | resume (body : ResumeBody α Settings)

namespace System

/-- The chat handler after `RequestRegistry::start`. -/
def start (endpoint : Endpoint) (id model : String) (options : GenerateOptions α Settings)
    (chunkSize : Int) : System α ρ ℓ where
  life := .queued ⟨endpoint, id, none, options, chunkSize, 0, .queued⟩
    ⟨id, model, options.maxTokens, 0, false, false⟩ []
  sampled := 0
  generated := 0

variable (s : System α ρ ℓ)

/-- The generation starts; no row stop is reported. -/
def admitted (t : Task α Settings ρ ℓ) (r : ActiveRequest) (textStopTail : Bytes)
    (cancelled : Bool) : System α ρ ℓ :=
  { s with
    life := .generating
      { task := t
        request := r
        row := admitRow (rowOptions t.options) cancelled false textStopTail
        handed := 0
        accepting := true
        chunkTokens := 0
        tokens := [] } }

/-- One step of the scheduler. -/
def tick (tokenizer : OptimizedTrieTokenizer) (g : Generation α ρ ℓ) (t : Tick) : System α ρ ℓ :=
  let o := rowOptions g.task.options
  let drawn := (g.row.draw false t).toList
  let tokens := drawn.filter (fun token => isStopToken o token = false)
  { life := .generating
      { g with
        row := g.row.tick (decodeToken tokenizer) o g.task.chunkSize false t
        tokens := g.tokens ++ tokens }
    sampled := s.sampled + drawn.length
    generated := s.generated + tokens.length }

/-- The callback of the handler: the tokens are counted before the chunk is sent. -/
def handed (order : SetOrder) (tokenizer : OptimizedTrieTokenizer) (g : Generation α ρ ℓ)
    (text : Bytes) (accepted : Bool) : System α ρ ℓ :=
  { s with
    life := .generating
      { g with
        handed := g.handed + 1
        accepting := accepted
        chunkTokens := g.chunkTokens + countTokens order tokenizer text } }

/-- The end of a generation, and `put_paused` where the pause flag is set. -/
def returned (g : Generation α ρ ℓ) (state : GenerationState α ρ) (logits : DeviceLogits ℓ)
    (pause : Bool) : System α ρ ℓ :=
  let result : Generated α ρ ℓ :=
    { state := { state with textStopTail := g.row.stopTail }
      logits := logits
      chunkTokens := g.chunkTokens
      generatedTokens := g.row.generatedTokens
      completed := !g.row.stopped }
  let request :=
    { g.request with
      generatedTokens := int32 (g.task.saved + RequestRegistry.System.counted g.task result) }
  { s with
    life :=
      if pause then .paused (RequestRegistry.System.contextOf g.task request result) else .ended }

/-- The resume handler. -/
def resume (m : Model α ρ ℓ) (p : PausedRequest α Settings ρ ℓ) (body : ResumeBody α Settings) :
    System α ρ ℓ :=
  match p.state, p.logits with
  | some state, some _ =>
      let options := RequestRegistry.System.resumeOptions p body
      if body.optionsParse = false then s
      else
        match m.bindAdapter state options.adapter with
        | .error _ => s
        | .ok bound =>
            match body.chunkSize.getD (some p.chunkSize), body.model.getD (some p.model) with
            | some chunkSize, some model =>
                { s with
                  life := .queued
                    ⟨.resume, p.id, none, options, max 1 chunkSize, p.generatedTokens, .queued⟩
                    ⟨p.id, model, options.maxTokens, p.generatedTokens, false, false⟩
                    (if body.stop then [] else bound.textStopTail) }
            -- The context was taken and is lost.
            | _, _ => { s with life := .ended }
  | _, _ => { s with life := .ended }

end System

/-- One step; `none` where it cannot be taken. -/
def step (m : Model α ρ ℓ) (order : SetOrder) (tokenizer : OptimizedTrieTokenizer)
    (s : System α ρ ℓ) (e : Event α ρ ℓ) : Option (System α ρ ℓ) :=
  match e, s.life with
  | .admitted cancelled, .queued t r textStopTail => some (s.admitted t r textStopTail cancelled)
  | .denied, .queued _ _ _ => some { s with life := .ended }
  | .failed, .queued _ _ _ => some { s with life := .ended }
  | .failed, .generating _ => some { s with life := .ended }
  | .tick t, .generating g => some (s.tick tokenizer g t)
  | .handed accepted, .generating g =>
      if g.accepting then
        (g.row.texts[g.handed]?).map (fun text => s.handed order tokenizer g text accepted)
      else none
  | .returned state logits pause, .generating g =>
      if g.row.completed ∧ (g.accepting → g.row.texts.length ≤ g.handed) then
        some (s.returned g state logits pause)
      else none
  | .resume body, .paused p => some (s.resume m p body)
  | _, _ => none

end TokenBudget
end RwkvLightning

import RwkvLightning.Library.Execution
import RwkvLightning.Inference.Backend
import Mathlib

/-!
# The request registry

`RequestRegistry` of `request_registry.hpp` and what the handlers of
`server_routes.cpp`, `chat_routes.cpp`, `batch_routes.cpp` and `session_routes.cpp`
do with it: requests start, are paused, stopped and resumed.

**Tasks.**  Every request is served by a task of its own, which goes through the
phases below.  What the admission, the generation and the parser of the options
answer is an argument of the event.

**Not modelled.**  The progress counters of `ActiveRequest`, `last_` and the times,
which only the status response shows.
-/

namespace RwkvLightning
namespace RequestRegistry

open Backend

/-- What an `int` holds after an arithmetic operation. -/
def int32 (x : Int) : Int :=
  Int.bmod x (2 ^ 32)

/-- The handler that serves a request. -/
inductive Endpoint where
  | chatStream | chat | batchStream | batch | sessionStream | session | resume
deriving DecidableEq, Repr

/-- The handlers with a `put_paused`. -/
def Endpoint.pauses : Endpoint → Bool
  | .chatStream | .chat | .resume => true
  | .batchStream | .batch | .sessionStream | .session => false

/-- What a task throws: `PrefillBatchLimitExceeded`, an error of
`create_request_state`, or something else. -/
inductive Thrown where
  | prefillLimit | requestState | other
deriving DecidableEq, Repr

/-- Whether `finish` is called after an exception.  `start_streaming_task` catches
everything; the other handlers catch what they expect. -/
def Endpoint.finishes (queued : Bool) (thrown : Thrown) : Endpoint → Bool
  | .chatStream | .batchStream | .sessionStream | .resume => true
  | .chat | .session =>
      if queued then thrown = .prefillLimit else thrown = .requestState
  | .batch => if queued then thrown = .prefillLimit else true

variable {α ω ρ ℓ : Type}

/-- `GenerateOptions`; `settings` are the sampling and stop options. -/
structure GenerateOptions (α ω : Type) where
  maxTokens : Int
  adapter : Option α
  forceReasoningTokenOffset : Int
  settings : ω

structure ActiveRequest where
  id : String
  model : String
  maxTokens : Int
  generatedTokens : Int
  stopRequested : Bool
  pauseRequested : Bool
deriving DecidableEq, Repr

structure PausedRequest (α ω ρ ℓ : Type) where
  id : String
  model : String
  generatedTokens : Int
  chunkSize : Int
  options : GenerateOptions α ω
  state : Option (GenerationState α ρ)
  logits : Option (DeviceLogits ℓ)

/-- The body of a resume: `none` is an absent field, and `some none` one that
jsoncpp refuses to convert. -/
structure ResumeBody (α ω : Type) where
  requestId : String
  optionsParse : Bool
  maxTokens : Option Int
  adapter : Option (Option α)
  settings : Option ω
  stop : Bool
  chunkSize : Option (Option Int)
  model : Option (Option String)

/-- What `generate_from_logits_stream` leaves behind.  `chunkTokens` is the sum of
`count_tokens` over the chunks; a generation that is not `completed` was told to
stop, or its client is gone. -/
structure Generated (α ρ ℓ : Type) where
  state : GenerationState α ρ
  logits : DeviceLogits ℓ
  chunkTokens : Nat
  generatedTokens : Nat
  completed : Bool

inductive Phase (α ω ρ ℓ : Type) where
  /-- `take_paused` gave the context to a resume handler. -/
  | taken (paused : PausedRequest α ω ρ ℓ) (body : ResumeBody α ω)
  | parsed (paused : PausedRequest α ω ρ ℓ) (body : ResumeBody α ω)
  | queued
  | generating
  | returned (result : Generated α ρ ℓ)
  /-- The pause flag was read. -/
  | saving (result : Generated α ρ ℓ)
  /-- Nothing is done for the request any more, but for `finish`. -/
  | left (dropped finishing : Bool)

def Phase.running : Phase α ω ρ ℓ → Bool
  | .left _ _ => false
  | _ => true

/-- A task; `active` is the address of its `ActiveRequest`. -/
structure Task (α ω ρ ℓ : Type) where
  endpoint : Endpoint
  id : String
  active : Option Nat
  options : GenerateOptions α ω
  chunkSize : Int
  /-- `saved_generated_tokens`. -/
  saved : Int
  phase : Phase α ω ρ ℓ

/-- What a generation was paused with. -/
structure Snapshot (α ρ ℓ : Type) where
  state : GenerationState α ρ
  logits : DeviceLogits ℓ
  remaining : Int

structure System (α ω ρ ℓ : Type) where
  /-- Every `ActiveRequest` that was made, at its address. -/
  requests : List ActiveRequest
  active : List Nat
  paused : List (String × PausedRequest α ω ρ ℓ)
  nextId : Nat
  /-- What the handlers of pause and stop have found and not yet set. -/
  pausing : List Nat
  stopping : List Nat
  tasks : List (Task α ω ρ ℓ)
  /-- The requests that were reported paused; nothing reads this and what follows. -/
  reported : List String
  completed : List String
  cancelled : List String
  pausedWith : String → Option (Snapshot α ρ ℓ)

namespace System

def new : System α ω ρ ℓ where
  requests := []
  active := []
  paused := []
  nextId := 0
  pausing := []
  stopping := []
  tasks := []
  reported := []
  completed := []
  cancelled := []
  pausedWith := fun _ => none

variable (s : System α ω ρ ℓ)

/-- `make_id_locked`. -/
def makeId (seconds : Int) (n : Nat) : String :=
  "req-" ++ toString seconds ++ "-" ++ Nat.repr n

/-- `active`: the latest active request with this id, or the latest at all. -/
def activeRequest (id : String) : Option Nat :=
  if id = "" then s.active.getLast?
  else s.active.reverse.find? (fun a => (s.requests[a]?).any (fun r => r.id = id))

/-- `put_paused`. -/
def putPaused (p : PausedRequest α ω ρ ℓ) : System α ω ρ ℓ :=
  { s with paused := (p.id, p) :: s.paused.filter (fun x => x.1 ≠ p.id) }

/-- Change one task. -/
def setTask (k : Nat) (t : Task α ω ρ ℓ) : System α ω ρ ℓ :=
  { s with tasks := s.tasks.set k t }

def setPhase (k : Nat) (t : Task α ω ρ ℓ) (phase : Phase α ω ρ ℓ) : System α ω ρ ℓ :=
  s.setTask k { t with phase := phase }

/-- The request of a task. -/
def requestOf (t : Task α ω ρ ℓ) : Option ActiveRequest :=
  t.active.bind (fun a => s.requests[a]?)

/-- `RequestRegistry::start` by one of the generation endpoints. -/
def start (endpoint : Endpoint) (model : String) (options : GenerateOptions α ω)
    (chunkSize seconds : Int) : System α ω ρ ℓ :=
  let id := makeId seconds (s.nextId + 1)
  { s with
    requests := s.requests ++ [⟨id, model, options.maxTokens, 0, false, false⟩]
    active := s.active ++ [s.requests.length]
    nextId := s.nextId + 1
    tasks := s.tasks ++
      [⟨endpoint, id, some s.requests.length, options, chunkSize, 0, .queued⟩] }

/-- `pause_active` up to the lock it takes: a handler has found its request. -/
def findPause (id : String) : System α ω ρ ℓ :=
  { s with pausing := s.pausing ++ (s.activeRequest id).toList }

/-- The rest of `pause_active`, which needs no lock. -/
def setPause (a : Nat) (r : ActiveRequest) : System α ω ρ ℓ :=
  { s with
    requests := s.requests.set a { r with pauseRequested := true }
    reported := r.id :: s.reported }

/-- Set the stop flag of a request. -/
def setStop (a : Nat) (r : ActiveRequest) : System α ω ρ ℓ :=
  { s with
    requests := s.requests.set a { r with stopRequested := true }
    cancelled := r.id :: s.cancelled }

/-- `stop_active` up to the lock of `active`; without an id it holds the lock and
stops them all. -/
def findStop (id : String) : System α ω ρ ℓ :=
  if id = "" then
    s.active.foldl
      (fun s a => ((s.requests[a]?).map (fun r => s.setStop a r)).getD s) s
  else { s with stopping := s.stopping ++ (s.activeRequest id).toList }

/-- The tokens that a generation counts for its request. -/
def counted (t : Task α ω ρ ℓ) (result : Generated α ρ ℓ) : Int :=
  if t.endpoint ≠ .resume ∧ 0 < result.generatedTokens then result.generatedTokens
  else result.chunkTokens

/-- `generate_from_logits_stream` returns, and the tokens are counted. -/
def generated (k : Nat) (t : Task α ω ρ ℓ) (result : Generated α ρ ℓ) : System α ω ρ ℓ :=
  { s.setPhase k t (.returned result) with
    requests := t.active.elim s.requests (fun a => s.requests.modify a (fun r =>
      { r with generatedTokens := int32 (t.saved + counted t result) }))
    completed := if result.completed then t.id :: s.completed else s.completed }

/-- `if (active->pause_requested.load())`. -/
def look (k : Nat) (t : Task α ω ρ ℓ) (result : Generated α ρ ℓ) : System α ω ρ ℓ :=
  if t.endpoint.pauses ∧ (s.requestOf t).any (fun r => r.pauseRequested) then
    s.setPhase k t (.saving result)
  else s.setPhase k t (.left (!result.completed) true)

/-- The context that goes into the registry. -/
def contextOf (t : Task α ω ρ ℓ) (r : ActiveRequest) (result : Generated α ρ ℓ) :
    PausedRequest α ω ρ ℓ where
  id := r.id
  model := r.model
  generatedTokens := r.generatedTokens
  chunkSize := t.chunkSize
  options :=
    if t.endpoint = .resume then
      { t.options with maxTokens := int32 (t.options.maxTokens + t.saved) }
    else t.options
  state := some result.state
  logits := some result.logits

/-- `put_paused` at the end of a task. -/
def put (k : Nat) (t : Task α ω ρ ℓ) (result : Generated α ρ ℓ) : System α ω ρ ℓ :=
  match s.requestOf t with
  | none => s
  | some r =>
      { (s.setPhase k t (.left false true)).putPaused (contextOf t r result) with
        pausedWith := Function.update s.pausedWith t.id
          (some ⟨result.state, result.logits, t.options.maxTokens - counted t result⟩) }

/-- `take_paused` by a resume handler. -/
def resume (body : ResumeBody α ω) : System α ω ρ ℓ :=
  if body.requestId = "" then s
  else
    match s.paused.lookup body.requestId with
    | none => s
    | some p =>
        { s with
          paused := s.paused.filter (fun x => x.1 ≠ body.requestId)
          tasks := s.tasks ++
            [⟨.resume, body.requestId, none, p.options, p.chunkSize, p.generatedTokens,
              .taken p body⟩] }

/-- The options of a resume: those of the pause, and what the body overrides. -/
def resumeOptions (p : PausedRequest α ω ρ ℓ) (body : ResumeBody α ω) : GenerateOptions α ω where
  maxTokens :=
    body.maxTokens.getD (max 0 (int32 (p.options.maxTokens - p.generatedTokens)))
  adapter := body.adapter.getD p.options.adapter
  forceReasoningTokenOffset := p.generatedTokens
  settings := body.settings.getD p.options.settings

/-- The resume handler up to the end of its `try`. -/
def parse (m : Model α ρ ℓ) (k : Nat) (t : Task α ω ρ ℓ) (p : PausedRequest α ω ρ ℓ)
    (body : ResumeBody α ω) : System α ω ρ ℓ :=
  match p.state, p.logits with
  | some state, some _ =>
      let options := resumeOptions p body
      if body.optionsParse = false then (s.setPhase k t (.left false false)).putPaused p
      else
        match m.bindAdapter state options.adapter with
        | .error _ => (s.setPhase k t (.left false false)).putPaused p
        | .ok bound =>
            let bound := if body.stop then { bound with textStopTail := [] } else bound
            s.setTask k
              { t with options := options, phase := .parsed { p with state := some bound } body }
  -- "Paused request state is incomplete"
  | _, _ => s.setPhase k t (.left true false)

/-- The rest of the resume handler: the chunk size and the model are read outside of
the `try`. -/
def restart (k : Nat) (t : Task α ω ρ ℓ) (p : PausedRequest α ω ρ ℓ) (body : ResumeBody α ω) :
    System α ω ρ ℓ :=
  match body.chunkSize.getD (some p.chunkSize), body.model.getD (some p.model) with
  | some chunkSize, some model =>
      { s.setTask k
          { t with
            active := some s.requests.length
            chunkSize := max 1 chunkSize
            saved := p.generatedTokens
            phase := .queued } with
        requests := s.requests ++
          [⟨t.id, model, t.options.maxTokens, p.generatedTokens, false, false⟩]
        active := s.active ++ [s.requests.length] }
  | _, _ => s.setPhase k t (.left true false)

end System

inductive Event (α ω ρ ℓ : Type) where
  | start (endpoint : Endpoint) (model : String) (options : GenerateOptions α ω)
      (chunkSize seconds : Int)
  | admitted (k : Nat)
  /-- `acquire` returns nothing, for one of the two flags is set. -/
  | denied (k : Nat)
  | failed (k : Nat) (thrown : Thrown)
  | generated (k : Nat) (result : Generated α ρ ℓ)
  | look (k : Nat)
  | put (k : Nat)
  | finish (k : Nat)
  | findPause (id : String)
  | setPause (i : Nat)
  | findStop (id : String)
  | setStop (i : Nat)
  | resume (body : ResumeBody α ω)
  | parse (k : Nat)
  | restart (k : Nat)

/-- One step of the server on a task; `none` where the task is not there. -/
def taskStep (m : Model α ρ ℓ) (s : System α ω ρ ℓ) (k : Nat) (t : Task α ω ρ ℓ) :
    Event α ω ρ ℓ → Phase α ω ρ ℓ → Option (System α ω ρ ℓ)
  | .admitted _, .queued => some (s.setPhase k t .generating)
  | .denied _, .queued =>
      if (s.requestOf t).any (fun r => r.stopRequested || r.pauseRequested) then
        some (s.setPhase k t (.left true true))
      else none
  | .failed _ thrown, .queued =>
      some (s.setPhase k t (.left true (t.endpoint.finishes true thrown)))
  | .failed _ thrown, .generating =>
      some (s.setPhase k t (.left true (t.endpoint.finishes false thrown)))
  | .failed _ thrown, .returned result =>
      some (s.setPhase k t (.left (!result.completed) (t.endpoint.finishes false thrown)))
  | .failed _ thrown, .saving result =>
      some (s.setPhase k t (.left (!result.completed) (t.endpoint.finishes false thrown)))
  | .generated _ result, .generating => some (s.generated k t result)
  | .look _, .returned result => some (s.look k t result)
  | .put _, .saving result => some (s.put k t result)
  | .finish _, .left dropped true =>
      some { s.setPhase k t (.left dropped false) with
        active := s.active.filter (fun a => some a ≠ t.active) }
  | .parse _, .taken p body => some (s.parse m k t p body)
  | .restart _, .parsed p body => some (s.restart k t p body)
  | _, _ => none

/-- One step of the server. -/
def step (m : Model α ρ ℓ) (s : System α ω ρ ℓ) (e : Event α ω ρ ℓ) : Option (System α ω ρ ℓ) :=
  match e with
  | .start .resume _ _ _ _ => none
  | .start endpoint model options chunkSize seconds =>
      some (s.start endpoint model options chunkSize seconds)
  | .findPause id => some (s.findPause id)
  | .setPause i =>
      (s.pausing[i]?).bind (fun a => (s.requests[a]?).map (fun r =>
        { s.setPause a r with pausing := s.pausing.eraseIdx i }))
  | .findStop id => some (s.findStop id)
  | .setStop i =>
      (s.stopping[i]?).bind (fun a => (s.requests[a]?).map (fun r =>
        { s.setStop a r with stopping := s.stopping.eraseIdx i }))
  | .resume body => some (s.resume body)
  | .admitted k | .denied k | .failed k _ | .generated k _ | .look k | .put k | .finish k
  | .parse k | .restart k =>
      (s.tasks[k]?).bind (fun t => taskStep m s k t e t.phase)

end RequestRegistry
end RwkvLightning

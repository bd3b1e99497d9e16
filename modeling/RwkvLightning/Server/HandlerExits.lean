import RwkvLightning.Library.Command
import Mathlib

/-!
# How the generation handlers end

The handlers of `chat_routes.cpp`, `session_routes.cpp`, `batch_routes.cpp` and of the
resume in `server_routes.cpp`, with `asynchronous_generation` and `start_streaming_task` of
`generation_helpers.cpp`: which calls they make in which order, what they catch, and what
they do with the registry.

**Requests.**  `Fate` says what happens to a request: which call throws what, whether it is
denied or paused, and whether the framework asks for the body of a streamed response.  A
call that is made twice with the same arguments answers the same.

**Not modelled.**  The replies; what is computed, stored and counted.
-/

namespace RwkvLightning
namespace HandlerExits

open Command

/-- What is thrown: `PrefillBatchLimitExceeded`, another `std::exception`, anything else. -/
inductive Thrown where
  | prefillLimit | standard | other
deriving DecidableEq, Repr

/-- The calls of the handlers that can throw. -/
inductive Call where
  /-- Everything before `RequestRegistry::start`. -/
  | beforeStart
  /-- `get("stream", false).asBool()`. -/
  | stream
  /-- `parse_chunk_size`. -/
  | chunkSize
  /-- `cudaSetDevice` of the streaming job. -/
  | selectDevice
  | acquire
  /-- `create_request_state`, `get_state`, `create_state`. -/
  | requestState
  | bindAdapter
  /-- `prefill_prompt`. -/
  | prefill
  /-- The generation of the engine. -/
  | generate
  /-- `put_state`, and `trim` before it. -/
  | save
  /-- `build_choices`. -/
  | choices
  /-- The check of the finish reasons. -/
  | finishReasons
deriving DecidableEq, Repr

/-- What a handler does. -/
inductive Action where
  /-- `RequestRegistry::start`. -/
  | start
  | call (c : Call)
  /-- `RequestRegistry::put_paused`. -/
  | putPaused
  /-- `RequestRegistry::finish`. -/
  | finish
deriving DecidableEq, Repr

structure Fate where
  thrown : Call → Option Thrown
  streams : Bool
  /-- The framework calls the producer of the streamed response. -/
  produced : Bool
  /-- `acquire` returns nothing. -/
  denied : Bool
  pauseRequested : Bool

/-- A piece of a handler, with what was done so far. -/
abbrev Code (β : Type) : Type :=
  Command (List Action) Thrown β

section Pieces

/-- Do something. -/
def act (a : Action) : Code PUnit :=
  modify (fun log => log ++ [a])

/-- `catch (const PrefillBatchLimitExceeded&)`. -/
def catchLimit {β : Type} (c h : Code β) : Code β :=
  rescue c (fun e => if e = .prefillLimit then h else fail e)

/-- `catch (const std::exception&)`. -/
def catchStandard {β : Type} (c h : Code β) : Code β :=
  rescue c (fun e => if e = .other then fail e else h)

/-- `asynchronous_generation`. -/
def asynchronousGeneration (handler : Code PUnit) : Code PUnit :=
  catchStandard handler (pure ⟨⟩)

end Pieces

namespace Fate

variable (f : Fate)

/-- Make a call. -/
def call (c : Call) : Code PUnit := do
  act (.call c)
  match f.thrown c with
  | none => pure ⟨⟩
  | some e => fail e

/-- `start_streaming_task`; the packaged task keeps what its job throws. -/
def startStreamingTask (task : Code PUnit) : Code PUnit :=
  if f.produced then
    rescue
      (do
        catchStandard
          (do
            f.call .selectDevice
            task
            f.call .finishReasons)
          (pure ⟨⟩)
        act .finish)
      (fun _ => pure ⟨⟩)
  else pure ⟨⟩

/-- `if (active->pause_requested.load())`. -/
def pause : Code PUnit :=
  if f.pauseRequested then do
    f.call .save
    act .putPaused
  else pure ⟨⟩

/-- The task of a streamed chat. -/
def chatTask : Code PUnit := do
  f.call .acquire
  if f.denied then pure ⟨⟩
  else do
    f.call .requestState
    f.call .bindAdapter
    f.call .prefill
    f.call .generate
    f.pause

/-- `acquire` where nothing is streamed: whether the handler goes on. -/
def acquirePermit : Code Bool := do
  let answered ← catchLimit
    (do
      f.call .acquire
      pure true)
    (do
      act .finish
      pure false)
  if answered ∧ f.denied then do
    act .finish
    pure false
  else pure answered

/-- The state of the request where nothing is streamed. -/
def requestState : Code Bool :=
  catchStandard
    (do
      f.call .requestState
      pure true)
    (do
      act .finish
      pure false)

/-- A chat that is not streamed. -/
def chatPlain : Code PUnit := do
  if ← f.acquirePermit then
    if ← f.requestState then
      f.call .bindAdapter
      f.call .prefill
      f.call .chunkSize
      f.call .generate
      f.pause
      act .finish

/-- `/v1/chat/completions`. -/
def chat : Code PUnit :=
  asynchronousGeneration do
    f.call .beforeStart
    act .start
    f.call .stream
    if f.streams then do
      f.call .chunkSize
      f.startStreamingTask f.chatTask
    else f.chatPlain

/-- The task of a streamed session. -/
def sessionTask : Code PUnit := do
  f.call .acquire
  if f.denied then pure ⟨⟩
  else do
    f.call .requestState
    f.call .generate
    f.call .save

/-- A session that is not streamed. -/
def sessionPlain : Code PUnit := do
  if ← f.acquirePermit then
    if ← f.requestState then
      f.call .generate
      f.call .save
      f.call .choices
      act .finish

/-- `/state/chat/completions`. -/
def session : Code PUnit :=
  asynchronousGeneration do
    f.call .beforeStart
    act .start
    f.call .stream
    if f.streams then do
      f.call .chunkSize
      f.startStreamingTask f.sessionTask
    else f.sessionPlain

/-- The task of a streamed batch. -/
def batchTask : Code PUnit := do
  f.call .acquire
  if f.denied then pure ⟨⟩
  else do
    f.call .requestState
    f.call .generate

/-- The generation of a batch that is not streamed. -/
def batchGenerate : Code Bool :=
  catchStandard
    (do
      f.call .requestState
      f.call .chunkSize
      f.call .generate
      pure true)
    (do
      act .finish
      pure false)

/-- A batch that is not streamed. -/
def batchPlain : Code PUnit := do
  if ← f.acquirePermit then
    if ← f.batchGenerate then
      f.call .choices
      act .finish

/-- `/v1/batch/completions`. -/
def batch : Code PUnit :=
  asynchronousGeneration do
    f.call .beforeStart
    act .start
    f.call .stream
    if f.streams then do
      f.call .chunkSize
      f.startStreamingTask f.batchTask
    else f.batchPlain

/-- The task of a resumed chat. -/
def resumeTask : Code PUnit := do
  f.call .acquire
  if f.denied then pure ⟨⟩
  else do
    f.call .generate
    f.pause

/-- `/v1/server/resume`, which is always streamed and has no wrapper. -/
def resume : Code PUnit := do
  f.call .beforeStart
  act .start
  f.startStreamingTask f.resumeTask

end Fate

/-- The handlers that start a request. -/
inductive Route where
  | chat | session | batch | resume
deriving DecidableEq, Repr

def Route.code (f : Fate) : Route → Code PUnit
  | .chat => f.chat
  | .session => f.session
  | .batch => f.batch
  | .resume => f.resume

/-- Everything that is done for a request, in its order. -/
def Fate.actions (f : Fate) (route : Route) : List Action :=
  (route.code f []).2

section Server

/-- A request: what is still to be done, and the address of its `ActiveRequest`. -/
structure Served where
  rest : List Action
  address : Option Nat
deriving DecidableEq, Repr

/-- The registry and the requests. -/
structure System where
  /-- `active_`. -/
  active : List Nat
  next : Nat
  served : List Served
  /-- The arguments of `finish`; nothing reads them. -/
  finished : List Nat
deriving DecidableEq, Repr

namespace System

def new : System where
  active := []
  next := 0
  served := []
  finished := []

variable (s : System)

/-- A request arrives. -/
def arrive (route : Route) (f : Fate) : System :=
  { s with served := s.served ++ [⟨f.actions route, none⟩] }

/-- The request at this place does what is next. -/
def perform (k : Nat) (r : Served) (rest : List Action) : Action → System
  | .start =>
      { s with
        active := s.active ++ [s.next]
        next := s.next + 1
        served := s.served.set k ⟨rest, some s.next⟩ }
  | .finish =>
      { s with
        active := s.active.filter (fun a => some a ≠ r.address)
        served := s.served.set k ⟨rest, r.address⟩
        finished := s.finished ++ r.address.toList }
  | .call _ | .putPaused => { s with served := s.served.set k ⟨rest, r.address⟩ }

end System

inductive Event where
  | arrive (route : Route) (f : Fate)
  | advance (k : Nat)

/-- One step of the server: the requests take turns in any order. -/
def step (s : System) : Event → Option System
  | .arrive route f => some (s.arrive route f)
  | .advance k =>
      match s.served[k]? with
      | none => none
      | some r =>
          match r.rest with
          | [] => none
          | a :: rest => some (s.perform k r rest a)

end Server

end HandlerExits
end RwkvLightning

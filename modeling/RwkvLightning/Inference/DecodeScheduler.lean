import RwkvLightning.Inference.Backend
import RwkvLightning.Inference.DecodeRow
import RwkvLightning.Library.Command
import Mathlib

/-!
# The decode scheduler

`InferenceEngine::Scheduler` of `rwkv_inference_engine.cpp`: the one thread that decodes the
rows of all requests in groups, and its clients, the calls of `generate`.

**State.**  Requests and rows are numbered in the order in which they are made; a number
stands for the shared pointer.  `Shared` is everything that does not belong to one group.

**Clients.**  A client takes events and cancels its request while the scheduler works.
`Interference` is what the clients do before one access of the scheduler to data that they
share: a read of `cancelled`, and whatever is done under the mutex of a request.

**Device.**  Every call that reaches the device may fail; `faults` says which ones do.  The
seeds of the sampler are random, so `fresh` of a `Sampler` may be any function of the call.

**Not modelled.**  The prefill tasks, which work on states that are not yet submitted; the
metrics; the workspaces and the diagnostics of the backend; a copy that fails halfway leaves
the row as it was.
-/

namespace RwkvLightning
namespace DecodeScheduler

open Backend Text
open DecodeRow (FinishReason Options isStopToken)

/-- What ends a step early. -/
inductive Failure where
  | device
  | refused (message : String)
  | callback
deriving DecidableEq, Repr

/-- `GenerateOptions`; `sampling` is what only the sampler reads. -/
structure GenerateOptions (κ : Type) extends Options where
  sampling : κ
deriving DecidableEq

/-- The sampler.  A row of a `SamplerPenaltyState` has its penalties and its random state. -/
structure Sampler (ℓ κ σ : Type) where
  temperatureValid : κ → Bool
  fresh : Nat → Nat → σ
  kernel : List ((Option ℓ × σ) × (κ × Nat)) → List (Token × σ)

/-- What the scheduler is made with.  `unwritten` is what a slot holds before it is filled. -/
structure Engine (α ρ ℓ κ σ : Type) where
  model : Model α ρ ℓ
  sampler : Sampler ℓ κ σ
  decode : Token → Bytes
  maxRows : Nat
  unwritten : ρ
  deviceError : Bool

/-- The part of `GenerationStats` that the scheduler writes. -/
structure GenerationStats where
  generatedTokens : Nat
  stopped : Bool
  stopToken : Bool
  finishReasons : List FinishReason
  matchedStops : List Bytes
deriving DecidableEq, Repr

/-- `Event`. -/
structure Event where
  row : Nat
  text : Bytes
  stopStats : Option GenerationStats
deriving DecidableEq, Repr

/-- What a client hands over to `generate`. -/
structure Submission (α ρ ℓ κ : Type) where
  state : GenerationState α ρ
  logits : DeviceLogits ℓ
  options : GenerateOptions κ
  chunkSize : Int
  notifyTextStop : Bool

/--
`Request`.  `delivered` are the events that the client has taken, and `answered` says that it
found `done` when it took the last ones.
-/
structure Request (α ρ ℓ κ : Type) extends Submission α ρ ℓ κ where
  stats : GenerationStats
  events : List Event
  cancelled : Bool
  done : Bool
  error : Option Failure
  remaining : Nat
  delivered : List Event
  answered : Bool
  submission : Submission α ρ ℓ κ

/-- `Row`. -/
structure Row (σ : Type) where
  request : Nat
  index : Nat
  step : Nat
  token : Token
  finished : Bool
  completed : Bool
  pending : Bytes
  stopTail : Bytes
  bufferedTokens : Nat
  savedSampler : Option σ

/-- `Group`. -/
structure Group (α ρ ℓ κ σ : Type) where
  rows : List Nat
  incoming : List Nat
  state : GenerationState α ρ
  spareState : GenerationState α ρ
  logits : DeviceLogits ℓ
  sampler : List σ
  options : List (GenerateOptions κ)
  adapter : Bytes
  wkv32 : Bool

/-- The requests that the clients cancel, and those whose events they take. -/
structure Interference where
  cancels : List Nat
  takes : List Nat

/-- What does not belong to one group. -/
structure Shared (α ρ ℓ κ σ : Type) where
  requests : Nat → Request α ρ ℓ κ
  requestCount : Nat
  rows : Nat → Row σ
  rowCount : Nat
  incoming : List Nat
  pendingRows : List Nat
  schedule : List Interference
  faults : List Bool
  seeds : Nat

variable {α ρ ℓ κ σ : Type}

/-- `GenerationState{}`. -/
def emptyState : GenerationState α ρ :=
  { identity := Identity.default
    wkv32 := false
    rows := []
    textStopTail := [] }

section Tables

/-- Change a request. -/
def Shared.updateRequest (s : Shared α ρ ℓ κ σ) (q : Nat)
    (f : Request α ρ ℓ κ → Request α ρ ℓ κ) : Shared α ρ ℓ κ σ :=
  { s with requests := Function.update s.requests q (f (s.requests q)) }

/-- Change a row. -/
def Shared.updateRow (s : Shared α ρ ℓ κ σ) (r : Nat) (f : Row σ → Row σ) :
    Shared α ρ ℓ κ σ :=
  { s with rows := Function.update s.rows r (f (s.rows r)) }

/-- The request of a row. -/
def Shared.requestOf (s : Shared α ρ ℓ κ σ) (r : Nat) : Nat :=
  (s.rows r).request

/-- What clients do to a request. -/
def Request.interfered (i : Interference) (q : Nat) (req : Request α ρ ℓ κ) :
    Request α ρ ℓ κ :=
  let taken := i.takes.contains q
  { req with
    cancelled := req.cancelled || i.cancels.contains q
    delivered := if taken then req.delivered ++ req.events else req.delivered
    events := if taken then [] else req.events
    answered := req.answered || taken && req.done }

/-- The clients go first at an access to data that they share. -/
def Shared.interfere (s : Shared α ρ ℓ κ σ) : Shared α ρ ℓ κ σ :=
  { s with
    requests := fun q => (s.requests q).interfered (s.schedule.headD ⟨[], []⟩) q
    schedule := s.schedule.tail }

end Tables

section Completion

/-- `mark_interrupted`. -/
def markInterrupted (stats : GenerationStats) : GenerationStats :=
  { stats with
    stopped := true
    finishReasons := stats.finishReasons.map
      (fun reason => if reason = .length then .stop else reason) }

/-- `event`. -/
def event (s : Shared α ρ ℓ κ σ) (r : Nat) (text : Bytes) (stop : Bool) : Shared α ρ ℓ κ σ :=
  let s := s.interfere
  s.updateRequest (s.requestOf r) fun req =>
    { req with
      events := req.events ++
        [{ row := (s.rows r).index
           text := text
           stopStats := if stop then some req.stats else none }] }

/-- `flush`. -/
def flush (s : Shared α ρ ℓ κ σ) (r : Nat) (final : Bool) : Shared α ρ ℓ κ σ :=
  let taken := takeCompleteUtf8 (s.rows r).pending final
  let s := s.updateRow r fun row => { row with pending := taken.2, bufferedTokens := 0 }
  if taken.1 = [] then s else event s r taken.1 false

/-- The event that `complete` sends for a stop. -/
def stopEvent (s : Shared α ρ ℓ κ σ) (r : Nat) : Shared α ρ ℓ κ σ :=
  let index := (s.rows r).index
  let req := s.requests (s.requestOf r)
  if req.stats.finishReasons[index]? = some .stop then
    let s := s.interfere
    if (s.requests (s.requestOf r)).cancelled = false ∧
        (req.notifyTextStop ∨ req.stats.matchedStops[index]? = some []) then
      event s r [] true
    else s
  else s

/-- The row leaves the count of its request; `done` is set under the mutex. -/
def countDown (s : Shared α ρ ℓ κ σ) (q : Nat) : Shared α ρ ℓ κ σ :=
  let s := s.updateRequest q fun req => { req with remaining := req.remaining - 1 }
  if (s.requests q).remaining = 0 then
    s.interfere.updateRequest q fun req => { req with done := true }
  else s

/-- The interruption that `complete` notes. -/
def noteInterrupted (s : Shared α ρ ℓ κ σ) (q : Nat) : Shared α ρ ℓ κ σ :=
  let s := s.interfere
  if (s.requests q).cancelled then
    s.updateRequest q fun req => { req with stats := markInterrupted req.stats }
  else s

/-- `complete`. -/
def complete (s : Shared α ρ ℓ κ σ) (r : Nat) : Shared α ρ ℓ κ σ :=
  if (s.rows r).completed then s
  else
    let q := s.requestOf r
    let s := s.updateRow r fun row => { row with completed := true }
    let s := noteInterrupted s q
    let s := flush s r true
    let s := stopEvent s r
    countDown s q

end Completion

section Calls

/-- A command of the scheduler. -/
abbrev Task (α ρ ℓ κ σ β : Type) : Type :=
  Command (Shared α ρ ℓ κ σ) Failure β

/-- A call that the device may fail. -/
def device : Task α ρ ℓ κ σ PUnit := fun s =>
  match s.faults with
  | [] => (.ok ⟨⟩, s)
  | fault :: rest => (if fault then .error .device else .ok ⟨⟩, { s with faults := rest })

/-- A call that may refuse its arguments. -/
def attempt {β : Type} : Except String β → Task α ρ ℓ κ σ β
  | .ok b => pure b
  | .error message => Command.fail (.refused message)

/-- `make_sampler_penalties`. -/
def makeSampler (e : Engine α ρ ℓ κ σ) (batchSize : Nat) : Task α ρ ℓ κ σ (List σ) := do
  device
  let s ← Command.read
  Command.modify fun s => { s with seeds := s.seeds + 1 }
  pure ((List.range batchSize).map (e.sampler.fresh s.seeds))

/-- `copy_sampler_row`. -/
def copySamplerRow (src : List σ) (srcRow : Nat) (dst : List σ) (dstRow : Nat) :
    Except String (List σ) :=
  match src[srcRow]? with
  | none => .error "invalid sampler row copy"
  | some saved =>
      if dst.length ≤ dstRow then .error "invalid sampler row copy"
      else .ok (dst.set dstRow saved)

end Calls

section Rebuild

variable (e : Engine α ρ ℓ κ σ)

/-- The state of a request before a row is packed into it. -/
def unadvanced (state : GenerationState α ρ) : GenerationState α ρ :=
  { state with identity := { state.identity with advanced := false } }

/-- The metadata of a request, which an export puts back. -/
def restored (own : Identity α) (state : GenerationState α ρ) : GenerationState α ρ :=
  { state with
    identity :=
      { state.identity with
        effectiveKey := own.effectiveKey
        initialStateIdentity := own.initialStateIdentity
        adapterIdentity := own.adapterIdentity
        adapter := own.adapter } }

/-- `export_row`.  The copy takes over the metadata before it copies the row. -/
def exportRow (g : Group α ρ ℓ κ σ) (slot r : Nat) : Task α ρ ℓ κ σ PUnit := do
  let s ← Command.read
  let row := s.rows r
  let q := row.request
  let own := (s.requests q).state
  Command.modify fun s => s.updateRequest q fun req =>
    { req with state := unadvanced req.state }
  let packed ← attempt (e.model.copyStateSlice g.state slot (unadvanced own) row.index 1)
  Command.modify fun s => s.updateRequest q fun req =>
    { req with state := { req.state with identity := packed.identity } }
  device
  Command.modify fun s => s.updateRequest q fun req =>
    { req with state := restored own.identity packed }
  let logits ← attempt (copyLogitsSlice g.logits slot (s.requests q).logits row.index 1)
  device
  Command.modify fun s => s.updateRequest q fun req =>
    { req with
      logits := logits
      state :=
        { req.state with
          textStopTail :=
            if own.rows.length = 1 then row.stopTail else req.state.textStopTail } }

/-- The sampler of a row that is paused. -/
def saveSampler (g : Group α ρ ℓ κ σ) (slot r : Nat) : Task α ρ ℓ κ σ PUnit := do
  let made ← makeSampler e 1
  Command.modify fun s => s.updateRow r fun row => { row with savedSampler := made[0]? }
  let saved ← attempt (copySamplerRow g.sampler slot made 0)
  device
  Command.modify fun s => s.updateRow r fun row => { row with savedSampler := saved[0]? }

/-- A row whose request is cancelled is finished. -/
def noteCancelled (s : Shared α ρ ℓ κ σ) (r : Nat) : Shared α ρ ℓ κ σ :=
  let s := s.interfere
  if (s.requests (s.requestOf r)).cancelled then
    s.updateRow r fun row => { row with finished := true }
  else s

/-- `backpressured`. -/
def backpressured (req : Request α ρ ℓ κ) : Bool :=
  decide (128 ≤ req.events.length)

/-- Pause a row. -/
def pause (g : Group α ρ ℓ κ σ) (slot r : Nat) : Task α ρ ℓ κ σ PUnit := do
  exportRow e g slot r
  saveSampler e g slot r
  Command.modify fun s => { s with pendingRows := s.pendingRows ++ [r] }

/-- A row of the group in `rebuild`; the result says whether it stays. -/
def sweepRow (allowPause : Bool) (g : Group α ρ ℓ κ σ) (slot r : Nat) :
    Task α ρ ℓ κ σ Bool := do
  let s ← Command.read
  if (s.rows r).completed then pure false
  else
    Command.modify fun s => noteCancelled s r
    let s ← Command.read
    if (s.rows r).finished then
      exportRow e g slot r
      Command.modify fun s => complete s r
      pure false
    else if allowPause then
      Command.modify Shared.interfere
      let s ← Command.read
      if backpressured (s.requests (s.requestOf r)) then
        pause e g slot r
        pure false
      else pure true
    else pure true

/-- The loop over the rows of the group: the rows that stay, with their slots. -/
def sweep (allowPause : Bool) (g : Group α ρ ℓ κ σ) :
    Nat → List Nat → Task α ρ ℓ κ σ (List (Nat × Option Nat))
  | _, [] => pure []
  | slot, r :: rest => do
      let stays ← sweepRow e allowPause g slot r
      let live ← sweep allowPause g (slot + 1) rest
      pure (if stays then (r, some slot) :: live else live)

/-- The loop over the rows that come in: those that need no decoding are completed. -/
def enter : List Nat → Shared α ρ ℓ κ σ → List Nat × Shared α ρ ℓ κ σ
  | [], s => ([], s)
  | r :: rest, s =>
      let s := s.interfere
      let req := s.requests (s.requestOf r)
      if req.cancelled ∨ req.options.maxTokens ≤ 0 then enter rest (complete s r)
      else
        let entered := enter rest s
        (r :: entered.1, entered.2)

/-- The slots of a group while they are filled. -/
structure Slots (α ρ ℓ σ : Type) where
  state : GenerationState α ρ
  logits : DeviceLogits ℓ
  sampler : List σ

/-- `pack` and the copies of the logits. -/
def packRow (src : GenerationState α ρ) (logits : DeviceLogits ℓ) (srcRow : Nat)
    (b : Slots α ρ ℓ σ) (i : Nat) : Task α ρ ℓ κ σ (Slots α ρ ℓ σ) := do
  let state ← attempt (e.model.copyStateSlice src srcRow (unadvanced b.state) i 1)
  device
  let logits ← attempt (copyLogitsSlice logits srcRow b.logits i 1)
  device
  pure { b with state := state, logits := logits }

/-- Move the sampler of a row. -/
def moveSampler (src : List σ) (srcRow : Nat) (b : Slots α ρ ℓ σ) (i : Nat) :
    Task α ρ ℓ κ σ (Slots α ρ ℓ σ) := do
  let sampler ← attempt (copySamplerRow src srcRow b.sampler i)
  device
  pure { b with sampler := sampler }

/-- Fill a slot, from an old slot or from the request of the row. -/
def fillSlot (g : Group α ρ ℓ κ σ) (i : Nat) (b : Slots α ρ ℓ σ) :
    Nat × Option Nat → Task α ρ ℓ κ σ (Slots α ρ ℓ σ)
  | (_, some slot) => do
      let b ← packRow e g.state g.logits slot b i
      moveSampler g.sampler slot b i
  | (r, none) => do
      let s ← Command.read
      let row := s.rows r
      let req := s.requests row.request
      let b ← packRow e req.state req.logits row.index b i
      match row.savedSampler with
      | none => pure b
      | some saved => do
          let b ← moveSampler [saved] 0 b i
          Command.modify fun s => s.updateRow r fun row => { row with savedSampler := none }
          pure b

/-- The loop over the slots. -/
def fillSlots (g : Group α ρ ℓ κ σ) :
    Nat → List (Nat × Option Nat) → Slots α ρ ℓ σ → Task α ρ ℓ κ σ (Slots α ρ ℓ σ)
  | _, [], b => pure b
  | i, l :: live, b => do
      let b ← fillSlot e g i b l
      fillSlots g (i + 1) live b

/-- The state of the new slots: the first is made, later ones reuse the spare buffers. -/
def newState (g : Group α ρ ℓ κ σ) (count : Nat) :
    Task α ρ ℓ κ σ (GenerationState α ρ) := do
  device
  if g.state.rows = [] then attempt (e.model.createState count)
  else
    pure
      { g.spareState with
        wkv32 := g.wkv32
        rows := List.replicate count e.unwritten }

/-- A group without rows. -/
def Group.cleared (g : Group α ρ ℓ κ σ) : Group α ρ ℓ κ σ :=
  { g with
    rows := []
    incoming := []
    state := emptyState
    logits := DeviceLogits.empty
    sampler := [] }

/-- The new slots of a group. -/
def regroup (g : Group α ρ ℓ κ σ) (live : List (Nat × Option Nat)) :
    Task α ρ ℓ κ σ (Group α ρ ℓ κ σ) := do
  let state ← newState e g live.length
  device
  let sampler ← makeSampler e live.length
  let b ← fillSlots e g 0 live
    { state := state
      logits := { rows := List.replicate live.length none }
      sampler := sampler }
  let s ← Command.read
  pure
    { g with
      rows := live.map Prod.fst
      incoming := []
      state := b.state
      spareState := g.state
      logits := b.logits
      sampler := b.sampler
      options := live.map fun l => (s.requests (s.requestOf l.1)).options }

/-- `rebuild`. -/
def rebuild (allowPause : Bool) (g : Group α ρ ℓ κ σ) :
    Task α ρ ℓ κ σ (Group α ρ ℓ κ σ) := do
  let kept ← sweep e allowPause g 0 g.rows
  let s ← Command.read
  let entered := enter g.incoming s
  Command.modify fun _ => entered.2
  let live := kept ++ entered.1.map fun r => (r, none)
  if live.map Prod.fst = g.rows then pure { g with incoming := [] }
  else if live = [] then pure g.cleared
  else regroup e g live

end Rebuild

section Step

variable (e : Engine α ρ ℓ κ σ)

/-- `sample_rows`. -/
def sampleRows (g : Group α ρ ℓ κ σ) (steps : List Nat) : Except String (List (Token × σ)) :=
  if g.logits.rows.length ≠ g.sampler.length ∨ g.options.length ≠ g.logits.rows.length ∨
      steps.length ≠ g.options.length then
    .error "row sampler shape mismatch"
  else if g.options.any (fun o => !e.sampler.temperatureValid o.sampling) then
    .error "temperature must be in [0.001, 1000]"
  else if g.logits.rows = [] ∨ e.model.vocabSize = 0 ∨ e.model.vocabSize % 4 ≠ 0 ∨
      1048576 < e.model.vocabSize then
    .error "invalid row sampler shape"
  else
    .ok (e.sampler.kernel ((g.logits.rows.zip g.sampler).zip
      ((g.options.map GenerateOptions.sampling).zip steps)))

/-- The stop strings after a token. -/
def checkStops (s : Shared α ρ ℓ κ σ) (r : Nat) (decoded : Bytes) : Shared α ρ ℓ κ σ :=
  let q := s.requestOf r
  match (s.requests q).options.stop with
  | none => s
  | some stops =>
      let matched := matchStop stops (s.rows r).stopTail decoded
      if matched.1 = [] then s.updateRow r fun row => { row with stopTail := matched.2 }
      else
        let index := (s.rows r).index
        let s := s.updateRequest q fun req =>
          { req with
            stats :=
              { req.stats with
                matchedStops := req.stats.matchedStops.set index matched.1
                finishReasons := req.stats.finishReasons.set index .stop } }
        s.updateRow r fun row => { row with stopTail := [] }

/-- A token that ends its row; it is not counted. -/
def stopAtToken (s : Shared α ρ ℓ κ σ) (r : Nat) : Shared α ρ ℓ κ σ :=
  let index := (s.rows r).index
  let s := s.updateRequest (s.requestOf r) fun req =>
    { req with
      stats :=
        { req.stats with
          stopToken := true
          finishReasons := req.stats.finishReasons.set index .stop } }
  s.updateRow r fun row => { row with finished := true }

/-- A token that is counted. -/
def countToken (s : Shared α ρ ℓ κ σ) (r : Nat) : Shared α ρ ℓ κ σ :=
  let decoded := e.decode (s.rows r).token
  let s := s.updateRow r fun row =>
    { row with
      step := row.step + 1
      pending := row.pending ++ decoded
      bufferedTokens := row.bufferedTokens + 1 }
  let s := s.updateRequest (s.requestOf r) fun req =>
    { req with stats := { req.stats with generatedTokens := req.stats.generatedTokens + 1 } }
  let s := checkStops s r decoded
  let chunkSize := (s.requests (s.requestOf r)).chunkSize
  if 0 < chunkSize ∧ chunkSize ≤ (s.rows r).bufferedTokens then flush s r false else s

/-- The loop over the sampled tokens. -/
def takeToken (s : Shared α ρ ℓ κ σ) (drawn : Nat × Token) : Shared α ρ ℓ κ σ :=
  let r := drawn.1
  let s := s.updateRow r fun row => { row with token := drawn.2 }
  if isStopToken (s.requests (s.requestOf r)).options.toOptions drawn.2 then stopAtToken s r
  else countToken e s r

/-- The sampling part of `step`. -/
def sample (g : Group α ρ ℓ κ σ) : Task α ρ ℓ κ σ (Group α ρ ℓ κ σ) := do
  let s ← Command.read
  let out ← attempt (sampleRows e g (g.rows.map fun r => (s.rows r).step))
  device
  Command.modify fun s => (g.rows.zip (out.map Prod.fst)).foldl (takeToken e) s
  pure { g with sampler := out.map Prod.snd }

/-- What follows the forward pass. -/
def finishRow (s : Shared α ρ ℓ κ σ) (r : Nat) : Shared α ρ ℓ κ σ :=
  let row := s.rows r
  let req := s.requests row.request
  if req.options.maxTokens ≤ row.step ∨
      req.stats.finishReasons[row.index]? = some .stop then
    s.updateRow r fun row => { row with finished := true }
  else s

/-- The forward pass of `step`. -/
def forward (g : Group α ρ ℓ κ σ) : Task α ρ ℓ κ σ (Group α ρ ℓ κ σ) := do
  let s ← Command.read
  let out ← attempt (e.model.forwardDecode (g.rows.map fun r => (s.rows r).token) g.state)
  device
  Command.modify fun s => g.rows.foldl finishRow s
  pure { g with state := out.1, logits := out.2 }

/-- The state of the scheduler while it works on a group. -/
abbrev Focus (α ρ ℓ κ σ : Type) : Type :=
  Shared α ρ ℓ κ σ × Group α ρ ℓ κ σ

/-- A part of `step`; where it fails, the group is as before it. -/
def onGroup (f : Group α ρ ℓ κ σ → Task α ρ ℓ κ σ (Group α ρ ℓ κ σ)) :
    Command (Focus α ρ ℓ κ σ) Failure PUnit := fun x =>
  match f x.2 x.1 with
  | (.ok g, s) => (.ok ⟨⟩, (s, g))
  | (.error err, s) => (.error err, (s, x.2))

/-- `step`. -/
def step : Command (Focus α ρ ℓ κ σ) Failure PUnit := do
  onGroup (rebuild e true)
  let x ← Command.read
  if x.2.rows = [] then pure ⟨⟩
  else
    onGroup (sample e)
    onGroup (rebuild e false)
    let x ← Command.read
    if x.2.rows = [] then pure ⟨⟩
    else
      onGroup (forward e)
      onGroup (rebuild e false)

end Step

section Loop

variable (e : Engine α ρ ℓ κ σ)

/-- A row of a group that fails. -/
def failRow (err : Failure) (s : Shared α ρ ℓ κ σ) (r : Nat) : Shared α ρ ℓ κ σ :=
  if (s.rows r).completed then s
  else
    complete
      (s.updateRequest (s.requestOf r) fun req =>
        { req with error := some err, cancelled := true }) r

/-- The rows of a group. -/
def Group.members (g : Group α ρ ℓ κ σ) : List Nat :=
  g.rows ++ g.incoming

/-- `fail`. -/
def fail (err : Failure) (x : Focus α ρ ℓ κ σ) : Focus α ρ ℓ κ σ :=
  (x.2.members.foldl (failRow err) x.1, x.2.cleared)

/-- Cancel the requests of some rows. -/
def cancelRows (s : Shared α ρ ℓ κ σ) (rows : List Nat) : Shared α ρ ℓ κ σ :=
  rows.foldl
    (fun s r => s.updateRequest (s.requestOf r) fun req => { req with cancelled := true }) s

/-- A step of a group in the loop. -/
def stepGroup (shutdown : Bool) : Command (Focus α ρ ℓ κ σ) Failure PUnit := do
  if e.deviceError then Command.fail .device
  else
    Command.modify fun x => (if shutdown then cancelRows x.1 x.2.members else x.1, x.2)
    step e

/-- `step`, and `fail` where it throws. -/
def serveGroup (shutdown : Bool) (x : Focus α ρ ℓ κ σ) : Focus α ρ ℓ κ σ :=
  match stepGroup e shutdown x with
  | (.ok _, y) => y
  | (.error err, y) => fail err y

/-- The loop over the groups. -/
def serveGroups (shutdown : Bool) :
    List (Group α ρ ℓ κ σ) → Shared α ρ ℓ κ σ → List (Group α ρ ℓ κ σ) × Shared α ρ ℓ κ σ
  | [], s => ([], s)
  | g :: groups, s =>
      let x := serveGroup e shutdown (s, g)
      let rest := serveGroups shutdown groups x.1
      (x.2 :: rest.1, rest.2)

/-- A new row, for `admit`. -/
def newRow (q index : Nat) (stopTail : Bytes) : Row σ :=
  { request := q
    index := index
    step := 0
    token := 0
    finished := false
    completed := false
    pending := []
    stopTail := stopTail
    bufferedTokens := 0
    savedSampler := none }

/-- A row of `admit`. -/
def admitRow (q : Nat) (s : Shared α ρ ℓ κ σ) (index : Nat) : Shared α ρ ℓ κ σ :=
  let state := (s.requests q).state
  let stopTail := if state.rows.length = 1 then state.textStopTail else []
  { s with
    rows := Function.update s.rows s.rowCount (newRow q index stopTail)
    rowCount := s.rowCount + 1
    pendingRows := s.pendingRows ++ [s.rowCount] }

/-- `admit`. -/
def admitRequest (s : Shared α ρ ℓ κ σ) (q : Nat) : Shared α ρ ℓ κ σ :=
  (List.range (s.requests q).state.rows.length).foldl (admitRow q) s

/-- The group that a request belongs to. -/
def Group.takes (g : Group α ρ ℓ κ σ) (state : GenerationState α ρ) : Bool :=
  g.adapter = state.identity.adapterIdentity && g.wkv32 = state.wkv32

/-- Put a row into the first group that takes it, or a new one. -/
def joinGroup (state : GenerationState α ρ) (r : Nat) :
    List (Group α ρ ℓ κ σ) → List (Group α ρ ℓ κ σ)
  | [] =>
      [{ rows := []
         incoming := [r]
         state := emptyState
         spareState := emptyState
         logits := DeviceLogits.empty
         sampler := []
         options := []
         adapter := state.identity.adapterIdentity
         wkv32 := state.wkv32 }]
  | g :: groups =>
      if g.takes state then { g with incoming := g.incoming ++ [r] } :: groups
      else g :: joinGroup state r groups

/-- The number of rows in the groups. -/
def occupied (groups : List (Group α ρ ℓ κ σ)) : Nat :=
  (groups.map fun g => g.members.length).sum

/-- The state of the loop over the pending rows: the groups, the rows that wait on, and the
rest. -/
structure Admission (α ρ ℓ κ σ : Type) where
  groups : List (Group α ρ ℓ κ σ)
  waiting : List Nat
  shared : Shared α ρ ℓ κ σ

/-- A row in `admit_pending`. -/
def admitPendingRow (a : Admission α ρ ℓ κ σ) (r : Nat) : Admission α ρ ℓ κ σ :=
  let s := a.shared.interfere
  let q := s.requestOf r
  if (s.requests q).cancelled ∨ (s.requests q).options.maxTokens ≤ 0 then
    { a with shared := complete s r }
  else if e.maxRows ≤ occupied a.groups then { a with waiting := a.waiting ++ [r], shared := s }
  else
    let s := s.interfere
    if backpressured (s.requests q) then { a with waiting := a.waiting ++ [r], shared := s }
    else { a with groups := joinGroup (s.requests q).state r a.groups, shared := s }

/-- `admit_pending`. -/
def admitPending (groups : List (Group α ρ ℓ κ σ)) (s : Shared α ρ ℓ κ σ) :
    List (Group α ρ ℓ κ σ) × Shared α ρ ℓ κ σ :=
  let a := s.pendingRows.foldl (admitPendingRow e) ⟨groups, [], s⟩
  (a.groups, { a.shared with pendingRows := a.waiting })

/-- What the control callback of a request does. -/
inductive Poll where
  | goOn | stop | throw
deriving DecidableEq, Repr

/-- A row in the loop over the control callbacks; `checked` are the requests that were asked. -/
def pollRow (polls : Nat → Poll) (x : List Nat × Shared α ρ ℓ κ σ) (r : Nat) :
    List Nat × Shared α ρ ℓ κ σ :=
  let q := x.2.requestOf r
  if (x.2.rows r).completed ∨ q ∈ x.1 then x
  else
    let s := x.2.interfere
    if (s.requests q).cancelled then (q :: x.1, s)
    else
      match polls q with
      | .goOn => (q :: x.1, s)
      | .stop => (q :: x.1, s.updateRequest q fun req => { req with cancelled := true })
      | .throw =>
          (q :: x.1,
            s.updateRequest q fun req => { req with error := some .callback, cancelled := true })

/-- The control callbacks of all requests. -/
def pollAll (polls : Nat → Poll) (groups : List (Group α ρ ℓ κ σ)) (s : Shared α ρ ℓ κ σ) :
    Shared α ρ ℓ κ σ :=
  ((groups.flatMap Group.members ++ s.pendingRows).foldl (pollRow polls) ([], s)).2

/-- The scheduler, and its clients. -/
structure System (α ρ ℓ κ σ : Type) where
  shared : Shared α ρ ℓ κ σ
  groups : List (Group α ρ ℓ κ σ)
  stopping : Bool

/-- What the clients, the device and the callbacks do during one pass of the loop. -/
structure Surroundings where
  schedule : List Interference
  faults : List Bool
  polls : Nat → Poll

/-- One pass of `loop`. -/
def pass (w : System α ρ ℓ κ σ) (o : Surroundings) : System α ρ ℓ κ σ :=
  let s := { w.shared with schedule := o.schedule, faults := o.faults, incoming := [] }
  let s := w.shared.incoming.foldl admitRequest s
  let s := if w.stopping then cancelRows s s.pendingRows else s
  let admitted := admitPending e w.groups s
  let s := pollAll o.polls admitted.1 admitted.2
  let served := serveGroups e w.stopping admitted.1 s
  { w with
    shared := served.2
    groups := served.1.filter fun g => !(g.rows.isEmpty && g.incoming.isEmpty) }

/-- The request that `generate` makes. -/
def newRequest (sub : Submission α ρ ℓ κ) : Request α ρ ℓ κ :=
  { sub with
    stats :=
      { generatedTokens := 0
        stopped := false
        stopToken := false
        finishReasons := List.replicate sub.logits.rows.length .length
        matchedStops := List.replicate sub.logits.rows.length [] }
    events := []
    cancelled := false
    done := false
    error := none
    remaining := sub.logits.rows.length
    delivered := []
    answered := false
    submission := sub }

/-- The checks of `generate`. -/
def admissible (w : System α ρ ℓ κ σ) (sub : Submission α ρ ℓ κ) : Bool :=
  sub.state.rows.length = sub.logits.rows.length && sub.logits.rows.length ≠ 0 &&
    e.sampler.temperatureValid sub.options.sampling && !w.stopping

/-- What happens: a client calls `generate`, the clients act while the loop rests, a pass of
the loop, the destructor. -/
inductive Occurrence (α ρ ℓ κ : Type) where
  | submit (sub : Submission α ρ ℓ κ)
  | clients (i : Interference)
  | pass (o : Surroundings)
  | stop

/-- The next state.  A call of `generate` that is refused throws. -/
def next (w : System α ρ ℓ κ σ) : Occurrence α ρ ℓ κ → System α ρ ℓ κ σ
  | .submit sub =>
      if admissible e w sub then
        { w with
          shared :=
            { w.shared with
              requests :=
                Function.update w.shared.requests w.shared.requestCount (newRequest sub)
              requestCount := w.shared.requestCount + 1
              incoming := w.shared.incoming ++ [w.shared.requestCount] } }
      else w
  | .clients i => { w with shared := { w.shared with schedule := [i] }.interfere }
  | .pass o => pass e w o
  | .stop => { w with stopping := true }

end Loop

end DecodeScheduler
end RwkvLightning

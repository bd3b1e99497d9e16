import RwkvLightning.Library.Binary64
import RwkvLightning.Library.GuardedTable
import RwkvLightning.Router.ResourceSync
import Mathlib

/-!
# The scheduler of the router and its placement tables

`scheduler.go`, `state_placement.go` and `adapter_placement.go`.  Every function
here runs under the mutex of the scheduler.

The maps `states` and `adapters` with their epochs are tables of the library of
guarded tables.  The flags `active` and `busy` are the marks of their cells, and
serial numbers stand for the pointers that `finishStateMutation` and
`finishAdapterMutation` compare.  The epochs count without a bound, where the
code has 64 bits.

A backend is its position.  Time is a number.  The counts of requests in flight wrap at 64
bits, and loads are doubles; a weight is the number that its double stands for.
-/

namespace RwkvLightning
namespace Router

open GuardedTable

/-- `backend`. -/
structure Backend where
  name : String
  weight : ℚ
  inflight : Int
  unhealthy : Nat

/-- `statePlacement`, without the flag `active`. -/
structure StatePlacement where
  ready : Nat → Bool
  deleted : Bool
  signature : Option ListedState

/-- `adapterPlacement`, without the flag `busy`. -/
structure AdapterPlacement where
  /-- One entry per version. -/
  ready : List (String × (Nat → Bool))
  current : String
  deleted : Bool
  deletedVersions : String → Bool

abbrev StateMutation := Mutation String StatePlacement

abbrev AdapterMutation := Mutation String AdapterPlacement

/-- `scheduler`. -/
structure Scheduler where
  backends : List Backend
  next : Nat
  sessions : String → Option Nat
  cooldown : Nat
  states : Table String StatePlacement
  adapters : Table String AdapterPlacement

/-- No backend is ready. -/
def noBackend : Nat → Bool := fun _ => false

namespace AdapterPlacement

/-- `e.ready[version]`. -/
def nodes (e : AdapterPlacement) (version : String) :
    Option (Nat → Bool) :=
  e.ready.lookup version

/-- `e.ready[version][b] = value`, for a version that has an entry. -/
def setReady (e : AdapterPlacement) (version : String) (b : Nat)
    (value : Bool) : AdapterPlacement :=
  { e with
    ready := e.ready.map (fun x =>
      if x.1 = version then (x.1, Function.update x.2 b value) else x) }

/-- Make sure that a version has an entry. -/
def addVersion (e : AdapterPlacement) (version : String) :
    AdapterPlacement :=
  if (e.nodes version).isSome then e
  else { e with ready := e.ready ++ [(version, noBackend)] }

/-- A placement that knows nothing. -/
def blank : AdapterPlacement :=
  ⟨[], "", false, fun _ => false⟩

end AdapterPlacement

namespace Scheduler

section Backends

variable (s : Scheduler)

/-- A number in 64 bits with a sign. -/
def int64 (x : Int) : Int :=
  Int.bmod x (2 ^ 64)

/-- Change the record of one backend. -/
def modifyBackend (b : Nat) (f : Backend → Backend) : Scheduler :=
  { s with backends := s.backends.modify b f }

/-- `failed`. -/
def failed (b now : Nat) : Scheduler :=
  if 0 < s.cooldown then
    s.modifyBackend b (fun x => { x with unhealthy := now + s.cooldown })
  else s

/-- A release function: the reservation of `bsz` on a backend ends. -/
def release (b : Nat) (bsz : Int) : Scheduler :=
  s.modifyBackend b (fun x => { x with inflight := int64 (x.inflight - bsz) })

/-- `acquireAll`, and its release with `amount = -1`. -/
def reserveAll (amount : Int) : Scheduler :=
  { s with
    backends := s.backends.map (fun x => { x with inflight := int64 (x.inflight + amount) }) }

end Backends

section States

variable (s : Scheduler)

/-- `stateReadyLocked`. -/
def stateReady (id : String) (b : Nat) : Bool :=
  if id = "" then true
  else
    match s.states.cells id with
    | none => false
    | some entry => !entry.active && !entry.value.deleted && entry.value.ready b

/-- `needsStateRefresh`. -/
def needsStateRefresh (id : String) : Bool :=
  match s.states.cells id with
  | none => true
  | some entry =>
      if entry.active || entry.value.deleted then false
      else !(List.range s.backends.length).any entry.value.ready

/-- `beginStateMutation`. -/
def beginStateMutation (id : String) (deleted : Bool) :
    Except String (Scheduler × StateMutation) :=
  if id = "" then .error "missing state_id"
  else
    match s.states.begin id (fun _ => ⟨noBackend, deleted, none⟩) with
    | none => .error "state synchronization already in progress"
    | some (states, mutation) => .ok ({ s with states := states }, mutation)

/-- `finishStateMutation`. -/
def finishStateMutation (mutation : StateMutation) (rollback : Bool) : Scheduler :=
  if mutation.id = "" then s
  else { s with states := s.states.finish mutation rollback }

/-- `confirmState`. -/
def confirmState (b : Nat) (info : ListedState) : Scheduler × Bool :=
  match s.states.cells info.id with
  | none => (s, false)
  | some entry =>
      if entry.value.deleted then (s, false)
      else if entry.value.signature ≠ none ∧ entry.value.signature ≠ some info then
        (s, false)
      else
        ({ s.modifyBackend b (fun x => { x with unhealthy := 0 }) with
            states := s.states.modify info.id (fun entry =>
              { entry with
                signature := some info
                ready := Function.update entry.ready b true }) },
          true)

/-- `stateUnavailable`. -/
def stateUnavailable (id : String) (b : Nat) : Scheduler :=
  { s with
    states := s.states.modify id (fun entry =>
      { entry with ready := Function.update entry.ready b false }) }

/-- The first loop of `observeStateList`, on one entry. -/
def refreshKnown (b : Nat) (info : Option ListedState) (entry : Cell StatePlacement) :
    StatePlacement :=
  if entry.active || entry.value.deleted then entry.value
  else
    { entry.value with
      ready := Function.update entry.value.ready b
        (match info with
         | none => false
         | some info => entry.value.signature = none ∨ entry.value.signature = some info) }

/-- The second loop of `observeStateList`, on one entry. -/
def refreshListed (b : Nat) (info : Option ListedState) (active : Bool)
    (value : StatePlacement) : StatePlacement :=
  match info with
  | none => value
  | some info =>
      if !active && !value.deleted &&
          (value.signature = none ∨ value.signature = some info) then
        { value with ready := Function.update value.ready b true }
      else value

/-- `observeStateList`. -/
def observeStateList (b : Nat) (response : Response) (epoch : Nat) : Scheduler :=
  match response.failure, decodeStateList response.body with
  | none, .ok items =>
      if s.states.epoch ≠ epoch then s
      else
        let info (id : String) := items.find? (fun item => item.id = id)
        { s with
          states := s.states.observe
            (fun id entry =>
              refreshListed b (info id) entry.active (refreshKnown b (info id) entry))
            (fun id => (info id).map (fun item =>
              refreshListed b (some item) false ⟨noBackend, false, some item⟩)) }
  | _, _ => s

end States

section Adapters

variable (s : Scheduler)

/-- `adapterReadyLocked`. -/
def adapterReady (id version : String) (b : Nat) : Bool :=
  if id = "" then true
  else
    match s.adapters.cells id with
    | none => false
    | some entry =>
        !entry.active && !entry.value.deleted &&
          ((entry.value.nodes version).getD noBackend) b

/-- `beginAdapterMutation`: the copy leaves out the flag `deleted`. -/
def beginAdapterMutation (id : String) : Except String (Scheduler × AdapterMutation) :=
  match s.adapters.begin id (fun old =>
      match old with
      | none => AdapterPlacement.blank
      | some old => ⟨old.ready, old.current, false, old.deletedVersions⟩) with
  | none => .error "adapter synchronization already in progress"
  | some (adapters, mutation) => .ok ({ s with adapters := adapters }, mutation)

/-- `finishAdapterMutation`. -/
def finishAdapterMutation (m : AdapterMutation) (rollback : Bool) : Scheduler :=
  { s with adapters := s.adapters.finish m rollback }

/-- `adapterUnavailable`. -/
def adapterUnavailable (id version : String) (b : Nat) : Scheduler :=
  { s with adapters := s.adapters.modify id (fun e => e.setReady version b false) }

/-- The deletion that `serveSynchronizedAdapters` enters before it broadcasts. -/
def deleteAdapter (m : AdapterMutation) (version : String) : Scheduler :=
  { s with
    adapters := s.adapters.modifyOwn m (fun e =>
      if version = "" then { e with ready := [], current := "", deleted := true }
      else
        { e with
          ready := e.ready.filter (fun x => x.1 ≠ version)
          deletedVersions := Function.update e.deletedVersions version true
          current := if e.current = version then "" else e.current }) }

/-- The registration of an acknowledged upload in `serveSynchronizedAdapters`. -/
def confirmAdapter (m : AdapterMutation) (version : String) (b : Nat) : Scheduler :=
  { s.modifyBackend b (fun x => { x with unhealthy := 0 }) with
    adapters := s.adapters.modifyOwn m (fun e =>
      { (e.addVersion version).setReady version b true with
        current := version
        deletedVersions := Function.update e.deletedVersions version false }) }

/-- `resolveAdapterVersion`. -/
def resolveAdapterVersion (id version : String) : String × Bool :=
  match s.adapters.cells id with
  | none => (version, true)
  | some entry =>
      let e := entry.value
      if entry.active || e.deleted || e.deletedVersions version then (version, false)
      else
        let version := if version = "" then e.current else version
        let version :=
          match e.ready with
          | [(only, _)] => if version = "" then only else version
          | _ => version
        (version,
          !(List.range s.backends.length).any ((e.nodes version).getD noBackend))

/-- The first loop of `observeAdapterList`, on one entry. -/
def refreshVersions (b : Nat) (versions : List String) (entry : Cell AdapterPlacement) :
    AdapterPlacement :=
  if entry.active || entry.value.deleted then entry.value
  else
    { entry.value with
      ready := entry.value.ready.map (fun x =>
        (x.1, Function.update x.2 b (versions.contains x.1))) }

/-- The second loop of `observeAdapterList`, on one entry. -/
def addVersions (b : Nat) (versions : List String) (active : Bool)
    (value : AdapterPlacement) : AdapterPlacement :=
  versions.foldl (fun e version =>
    if active || e.deleted || e.deletedVersions version then e
    else (e.addVersion version).setReady version b true) value

/-- `observeAdapterList`. -/
def observeAdapterList (b : Nat) (response : Response) (epoch : Nat) : Scheduler :=
  match response.failure, decodeAdapterList response.body with
  | none, .ok items =>
      if s.adapters.epoch ≠ epoch then s
      else
        let versions (id : String) :=
          (items.filter (fun item => item.id = id)).map ListedAdapter.version
        { s with
          adapters := s.adapters.observe
            (fun id entry =>
              addVersions b (versions id) entry.active
                (refreshVersions b (versions id) entry))
            (fun id =>
              if versions id = [] then none
              else some (addVersions b (versions id) false AdapterPlacement.blank)) }
  | _, _ => s

end Adapters

section Acquire

variable (s : Scheduler)

/-- A backend may serve the request. -/
def eligible (now : Nat) (stateId adapterId adapterVersion : String) (b : Nat) : Bool :=
  match s.backends[b]? with
  | none => false
  | some x =>
      x.unhealthy ≤ now && s.stateReady stateId b &&
        s.adapterReady adapterId adapterVersion b

/-- The load of a backend. -/
def load (b : Nat) : Binary64.Value :=
  match s.backends[b]? with
  | none => 0
  | some x => Binary64.quotient x.inflight x.weight

/-- The loop over the backends, with `best` and `chosen`. -/
def choose (now : Nat) (stateId adapterId adapterVersion : String) :
    List Nat → Binary64.Value → Option Nat → Option Nat
  | [], _, chosen => chosen
  | b :: bs, best, chosen =>
      if s.eligible now stateId adapterId adapterVersion b = false then
        choose now stateId adapterId adapterVersion bs best chosen
      else if s.load b < best then
        choose now stateId adapterId adapterVersion bs (s.load b) (some b)
      else choose now stateId adapterId adapterVersion bs best chosen

/-- `acquireWithAdapter`. -/
def acquireWithAdapter (now : Nat) (bsz : Int) (session stateId adapterId
    adapterVersion : String) : Except String (Nat × Scheduler) :=
  let bsz := if bsz < 1 then 1 else bsz
  let reserve (s : Scheduler) (b : Nat) : Scheduler :=
    s.modifyBackend b (fun x => { x with inflight := int64 (x.inflight + bsz) })
  let kept :=
    if session = "" then none
    else (s.sessions session).filter (s.eligible now stateId adapterId adapterVersion)
  match kept with
  | some b => .ok (b, reserve s b)
  | none =>
      let order := (List.range s.backends.length).map
        (fun offset => (s.next + offset) % s.backends.length)
      match s.choose now stateId adapterId adapterVersion order ⊤ none with
      | none =>
          if adapterId ≠ "" then
            .error "no healthy upstream backend has the requested adapter/version and State ready; specify adapter_version when multiple versions are registered"
          else if stateId = "" then
            .error "all upstream backends are temporarily unavailable"
          else .error "no healthy upstream backend has the requested State ready"
      | some b =>
          let s := { s with next := (s.next + 1) % s.backends.length }
          let s := reserve s b
          .ok (b, if session = "" then s
            else { s with sessions := Function.update s.sessions session (some b) })

variable {s}

theorem choose_eligible {now : Nat} {stateId adapterId adapterVersion : String}
    {bs : List Nat} {best : Binary64.Value} {chosen : Option Nat}
    (hchosen : ∀ c, chosen = some c →
      s.eligible now stateId adapterId adapterVersion c = true) {b : Nat}
    (h : s.choose now stateId adapterId adapterVersion bs best chosen = some b) :
    s.eligible now stateId adapterId adapterVersion b = true := by
  induction bs generalizing best chosen with
  | nil => exact hchosen b h
  | cons x bs ih =>
      rw [choose] at h
      split_ifs at h with hx hload
      · exact ih hchosen h
      · refine ih (fun c hc => ?_) h
        rw [← Option.some.inj hc]
        simpa using hx
      · exact ih hchosen h

/-- Where a request is routed to. -/
theorem exists_of_map_fst {r : Except String (Nat × Scheduler)} {b : Nat}
    (h : r.map Prod.fst = .ok b) : ∃ scheduler, r = .ok (b, scheduler) := by
  cases r with
  | error e => cases h
  | ok x =>
      obtain rfl := Except.ok.inj h
      exact ⟨x.2, rfl⟩

/-- A request is routed only where the state and the adapter are ready. -/
theorem acquireWithAdapter_ready {now : Nat} {bsz : Int}
    {session stateId adapterId adapterVersion : String} {b : Nat} {s' : Scheduler}
    (h : s.acquireWithAdapter now bsz session stateId adapterId adapterVersion =
      .ok (b, s')) :
    s.stateReady stateId b = true ∧ s.adapterReady adapterId adapterVersion b = true := by
  have heligible : s.eligible now stateId adapterId adapterVersion b = true := by
    unfold acquireWithAdapter at h
    dsimp only at h
    split at h
    · rename_i c hkept
      obtain ⟨rfl, -⟩ := Prod.mk.inj (Except.ok.inj h)
      split_ifs at hkept
      exact (Option.filter_eq_some_iff.mp hkept).2
    · split at h
      · split_ifs at h
      · rename_i c hchoose
        obtain ⟨rfl, -⟩ := Prod.mk.inj (Except.ok.inj h)
        exact choose_eligible (by simp) hchoose
  unfold eligible at heligible
  split at heligible
  · exact absurd heligible (by simp)
  · simp only [Bool.and_eq_true] at heligible
    exact ⟨heligible.1.2, heligible.2⟩

end Acquire

end Scheduler

end Router
end RwkvLightning

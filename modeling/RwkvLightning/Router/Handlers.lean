import RwkvLightning.Router.Placement
import Mathlib

/-!
# The handlers of resource operations

`serveStateUpload`, `serveSynchronizedState` and `serveSynchronizedAdapters`
from the beginning of the mutation to the answer, with the answers of the
backends as an argument.  Refusals that contact no backend are errors.
-/

namespace RwkvLightning
namespace Router

open GuardedTable

/-- The operations on states and adapters that go to all backends. -/
inductive Operation where
  | uploadState (id : String)
  | deleteState (id : String)
  | listStates
  | uploadAdapter (id : String)
  | deleteAdapter (id version : String)
  | listAdapters
deriving DecidableEq, Repr

section Validators

/-- `validate` of `serveStateUpload`. -/
def validateStateUpload (id : String) (s : Scheduler) (r : ResourceResponse) :
    Scheduler × Option String :=
  let inconsistent :=
    some "backend returned inconsistent uploaded State identity or structure"
  match r.response.body.state with
  | none => (s, inconsistent)
  | some info =>
      if info.id ≠ id then (s, inconsistent)
      else
        let (s, confirmed) := s.confirmState r.backend info
        (s, if confirmed then none else inconsistent)

/-- `validate` of a deletion. -/
def validateDeletion (s : Scheduler) (r : ResourceResponse) : Scheduler × Option String :=
  (s, confirmDeletion r.response.body)

/-- The first decoded list, and the name of its backend. -/
abbrev Baseline (ι : Type) := Option (List ι × String)

/-- `validate` of a list: `reflect.DeepEqual` of maps ignores the order. -/
def validateList {ι : Type} [DecidableEq ι] (decode : Body → Except String (List ι))
    (differ : List ι → List ι → String → String)
    (s : Scheduler × Baseline ι) (r : ResourceResponse) :
    (Scheduler × Baseline ι) × Option String :=
  match decode r.response.body with
  | .error e => (s, some e)
  | .ok items =>
      match s.2 with
      | none => ((s.1, some (items, r.name)), none)
      | some (baseline, name) =>
          if baseline.isPerm items then (s, none)
          else (s, some (differ baseline items name))

/-- `validate` of `serveSynchronizedState` for a list. -/
def validateStateList :=
  validateList decodeStateList
    (fun _ _ name => s!"state lists differ from backend {name.quote}")

/-- `adapterListDifference`. -/
def adapterListDifference (expected actual : List ListedAdapter) : String :=
  let label (a : ListedAdapter) : String := a.id ++ "@" ++ a.version
  let quote (labels : List String) : String :=
    "[" ++ " ".intercalate ((labels.mergeSort (fun a b => a ≤ b)).map String.quote) ++ "]"
  let counterpart (items : List ListedAdapter) (a : ListedAdapter) :=
    items.find? (fun x => x.key = a.key)
  let missing := expected.filter (fun a => (counterpart actual a).isNone)
  let changed := expected.filter (fun a => (counterpart actual a).any (· ≠ a))
  let extra := actual.filter (fun a => (counterpart expected a).isNone)
  "missing=" ++ quote (missing.map label) ++ " extra=" ++ quote (extra.map label) ++
    " manifest_mismatch=" ++ quote (changed.map label)

/-- `validate` of `serveSynchronizedAdapters` for a list. -/
def validateAdapterList :=
  validateList decodeAdapterList
    (fun baseline items name =>
      s!"adapter lists differ from backend {name.quote}: " ++
        adapterListDifference baseline items)

/-- `validate` of `serveSynchronizedAdapters` for an upload, with `canonicalVersion`. -/
def validateAdapterUpload (m : AdapterMutation) (s : Scheduler × String)
    (r : ResourceResponse) : (Scheduler × String) × Option String :=
  match r.response.body.adapter with
  | none => (s, some "invalid adapter upload identity")
  | some (id, version) =>
      if id ≠ m.id ∨ version = "" then (s, some "invalid adapter upload identity")
      else if s.2 ≠ "" ∧ s.2 ≠ version then
        (s, some "adapter versions differ across backends")
      else ((s.1.confirmAdapter m version r.backend, version), none)

end Validators

section Serve

/-- `broadcastResource`: reservations, and the backends that failed meanwhile. -/
def broadcastResource (s : Scheduler) (failures : List (Nat × Nat)) : Scheduler :=
  (failures.foldl (fun s x => s.failed x.1 x.2) (s.reserveAll 1)).reserveAll (-1)

/-- The answers, under the names of the backends. -/
def Scheduler.responses (s : Scheduler) (results : List Response) :
    List ResourceResponse :=
  resourceResponses (s.backends.map Backend.name) results

/-- `observeStateList` on the answers of all backends. -/
def observeStates (s : Scheduler) (epoch : Nat) (responses : List ResourceResponse) :
    Scheduler :=
  responses.foldl (fun s r => s.observeStateList r.backend r.response epoch) s

/-- `observeAdapterList` on the answers of all backends. -/
def observeAdapters (s : Scheduler) (epoch : Nat) (responses : List ResourceResponse) :
    Scheduler :=
  responses.foldl (fun s r => s.observeAdapterList r.backend r.response epoch) s

/-- `serveStateUpload`. -/
def serveStateUpload (s : Scheduler) (id : String) (failures : List (Nat × Nat))
    (results : List Response) : Except String (Scheduler × SyncOutcome) :=
  match s.beginStateMutation id false with
  | .error e => .error e
  | .ok (s, mutation) =>
      let s := broadcastResource s failures
      .ok (finishResourceSync (validateStateUpload id)
        (fun s => s.finishStateMutation mutation false) s (s.responses results))

/-- `serveSynchronizedState` for a deletion. -/
def serveStateDelete (s : Scheduler) (id : String) (failures : List (Nat × Nat))
    (results : List Response) : Except String (Scheduler × SyncOutcome) :=
  match s.beginStateMutation id true with
  | .error e => .error e
  | .ok (s, mutation) =>
      let s := broadcastResource s failures
      let responses := s.responses results
      .ok (finishResourceSync validateDeletion
        (fun s => s.finishStateMutation mutation (rejectedMutation responses)) s responses)

/-- `serveSynchronizedState` for a list. -/
def serveStateList (s : Scheduler) (failures : List (Nat × Nat))
    (results : List Response) : Scheduler × SyncOutcome :=
  let epoch := s.states.epoch
  let s := broadcastResource s failures
  let responses := s.responses results
  let s := observeStates s epoch responses
  let (s, outcome) := finishResourceSync validateStateList id (s, none) responses
  (s.1, outcome)

/-- `serveSynchronizedAdapters` for an upload. -/
def serveAdapterUpload (s : Scheduler) (id : String) (failures : List (Nat × Nat))
    (results : List Response) : Except String (Scheduler × SyncOutcome) :=
  match s.beginAdapterMutation id with
  | .error e => .error e
  | .ok (s, mutation) =>
      let s := broadcastResource s failures
      let responses := s.responses results
      let (s, outcome) := finishResourceSync (validateAdapterUpload mutation)
        (fun s => (s.1.finishAdapterMutation mutation (rejectedMutation responses), s.2))
        (s, "") responses
      .ok (s.1, outcome)

/-- `serveSynchronizedAdapters` for a deletion. -/
def serveAdapterDelete (s : Scheduler) (id version : String)
    (failures : List (Nat × Nat)) (results : List Response) :
    Except String (Scheduler × SyncOutcome) :=
  match s.beginAdapterMutation id with
  | .error e => .error e
  | .ok (s, mutation) =>
      let s := broadcastResource (s.deleteAdapter mutation version) failures
      let responses := s.responses results
      .ok (finishResourceSync validateDeletion
        (fun s => s.finishAdapterMutation mutation (rejectedMutation responses))
        s responses)

/-- `serveSynchronizedAdapters` for a list. -/
def serveAdapterList (s : Scheduler) (failures : List (Nat × Nat))
    (results : List Response) : Scheduler × SyncOutcome :=
  let epoch := s.adapters.epoch
  let s := broadcastResource s failures
  let responses := s.responses results
  let s := observeAdapters s epoch responses
  let (s, outcome) := finishResourceSync validateAdapterList id (s, none) responses
  (s.1, outcome)

/-- Serve an operation. -/
def serve (op : Operation) (s : Scheduler) (failures : List (Nat × Nat))
    (results : List Response) : Except String (Scheduler × SyncOutcome) :=
  match op with
  | .uploadState id => serveStateUpload s id failures results
  | .deleteState id => serveStateDelete s id failures results
  | .listStates => .ok (serveStateList s failures results)
  | .uploadAdapter id => serveAdapterUpload s id failures results
  | .deleteAdapter id version => serveAdapterDelete s id version failures results
  | .listAdapters => .ok (serveAdapterList s failures results)

end Serve

end Router
end RwkvLightning

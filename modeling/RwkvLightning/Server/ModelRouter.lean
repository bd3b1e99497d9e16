import RwkvLightning.Library.Execution
import RwkvLightning.Library.Slots
import Mathlib.Data.List.Pairwise
import Mathlib.Algebra.Ring.Int.Defs

/-!
# The model router

`ModelRouter` owns the resident engine.  A `Lease` pins it for a request;
`load` waits for its turn in a ticket queue and for the last lease, drops the
resident engine and builds the next one outside the mutex.

**State.**  `Router` holds the fields behind the mutex, `System` adds the lease
objects (by address), the threads inside `load`, and the history of the run.
Engines are numbered as they are built.

**Steps.**  Everything under one hold of the mutex is one event.  A thread in
`load` passes the wait (`loadPass`), begins to build (`constructBegin`), is done
or fails, and commits; `commitThrows` is a copy of the model id that runs out of
memory after the engine was stored.  `Lease::release` is two events, because it
gives its count back under the mutex (`releaseCount`) and drops its reference to
the engine afterwards (`releaseEngine`); a destructor and a move assignment run
`release` first, so `destroy` and `moveAssign` find an empty lease.

Tickets and counts are unbounded numbers here; the code's 64-bit counters would
have to wrap around to differ.
-/

namespace RwkvLightning
namespace ModelRouter

/-- The fields of `ModelRouter` that `load` and `acquire` use. -/
structure Router where
  dynamic : Bool
  modelPaths : List String
  currentEngine : Option Nat
  currentId : String
  activeLeases : Int
  loading : Bool
  loadQueue : List Nat
  nextLoadTicket : Nat
deriving DecidableEq, Repr

/-- The constructor for one fixed engine, numbered 0. -/
def Router.fixed (modelName : String) : Router :=
  { dynamic := false, modelPaths := [], currentEngine := some 0,
    currentId := modelName, activeLeases := 0, loading := false,
    loadQueue := [], nextLoadTicket := 0 }

/-- The constructor for a directory of models; nothing is loaded yet. -/
def Router.directory (modelPaths : List String) : Router :=
  { dynamic := true, modelPaths := modelPaths, currentEngine := none,
    currentId := "", activeLeases := 0, loading := false, loadQueue := [],
    nextLoadTicket := 0 }

/-- `resolve_id_or_throw`; `none` when it throws. -/
def resolveIdOrThrow (r : Router) (requestedModel : String) : Option String :=
  if !r.dynamic then some r.currentId
  else if requestedModel = "" then none
  else if requestedModel ∈ r.modelPaths then some requestedModel
  else none

/-- Where a thread inside `load` is. -/
inductive LoadPc where
  | waiting
  | cleared
  | constructing
  | built (engine : Nat)
deriving DecidableEq, Repr

/-- A thread inside `load`. -/
structure Loader where
  ticket : Nat
  id : String
  pc : LoadPc
deriving DecidableEq, Repr

/--
A lease object: `router` says that `router_` is not null, `releasing` that
`release_lease()` has returned while `engine_` is still set.  `number` counts
the calls of `acquire` and follows the lease through its moves.
-/
structure Lease where
  router : Bool
  engine : Option Nat
  releasing : Bool
  number : Nat
deriving DecidableEq, Repr

/-- The history of a run. -/
inductive Record where
  | acquired (number engine : Nat)
  | released (number : Nat)
  | started (ticket : Nat)
  | constructing (ticket : Nat) (othersAlive : List Nat) (activeLeases : Int)
  | failed (ticket : Nat)
  | loaded (ticket engine : Nat)
deriving DecidableEq, Repr

structure System where
  router : Router
  leases : List (Option Lease)
  loaders : List Loader
  nextEngine : Nat
  log : List Record
deriving DecidableEq, Repr

/-- A router just constructed. -/
def System.init (router : Router) : System :=
  { router := router, leases := [], loaders := [], nextEngine := 1, log := [] }

/-- The engine a lease object refers to. -/
def leaseEngine : Option Lease → Option Nat
  | none => none
  | some lease => lease.engine

/-- The acquisition that a lease object is counted for. -/
def leaseCounted : Option Lease → Option Nat
  | none => none
  | some lease =>
      if lease.router && !lease.releasing then some lease.number else none

/-- The engine held by a thread inside `load`. -/
def loaderEngine (l : Loader) : Option Nat :=
  match l.pc with
  | .built engine => some engine
  | _ => none

/-- Engines that some reference keeps alive. -/
def System.aliveEngines (s : System) : List Nat :=
  s.router.currentEngine.toList ++ Slots.held leaseEngine s.leases ++
    s.loaders.filterMap loaderEngine

/-- The lease object at an address, if it is alive. -/
def System.leaseAt (s : System) (address : Nat) : Option Lease :=
  s.leases[address]?.join

def emptyLease (number : Nat) : Lease :=
  { router := false, engine := none, releasing := false, number := number }

/-- The loader with a ticket. -/
def System.loaderOf (s : System) (ticket : Nat) : Option Loader :=
  s.loaders.find? (fun l => l.ticket == ticket)

/-- Advance the loader with a ticket. -/
def setPc (loaders : List Loader) (ticket : Nat) (pc : LoadPc) : List Loader :=
  loaders.map (fun l => if l.ticket = ticket then { l with pc := pc } else l)

/-- The thread with a ticket returns from `load`. -/
def leave (loaders : List Loader) (ticket : Nat) : List Loader :=
  loaders.eraseP (fun l => l.ticket == ticket)

/-- Number of calls of `acquire` that returned a lease. -/
def acquiredNumbers : List Record → List Nat
  | [] => []
  | .acquired number _ :: rest => number :: acquiredNumbers rest
  | _ :: rest => acquiredNumbers rest

/-- Leases whose count was given back, once for each time. -/
def releasedNumbers : List Record → List Nat
  | [] => []
  | .released number :: rest => number :: releasedNumbers rest
  | _ :: rest => releasedNumbers rest

/-- Tickets served, in order. -/
def startedTickets : List Record → List Nat
  | [] => []
  | .started ticket :: rest => ticket :: startedTickets rest
  | _ :: rest => startedTickets rest

/-- The engine of the last load that completed, after an initial one. -/
def latestEngine : Option Nat → List Record → Option Nat
  | engine, [] => engine
  | _, .loaded _ engine :: rest => latestEngine (some engine) rest
  | engine, _ :: rest => latestEngine engine rest

inductive Event where
  | acquire
  | releaseCount (lease : Nat)
  | releaseEngine (lease : Nat)
  | destroy (lease : Nat)
  | moveConstruct (source : Nat)
  | moveAssign (target source : Nat)
  | load (requestedModel : String)
  | loadPass (ticket : Nat)
  | constructBegin (ticket : Nat)
  | constructFail (ticket : Nat)
  | constructDone (ticket : Nat)
  | commit (ticket : Nat)
  | commitThrows (ticket : Nat)
deriving DecidableEq, Repr

/-- `acquire` once it is not waiting for a load any more. -/
def System.acquire (s : System) : Option System :=
  if s.router.loading then none
  else
    match s.router.currentEngine with
    | none => some s
    | some engine =>
        let number := (acquiredNumbers s.log).length
        some { s with
          router := { s.router with activeLeases := s.router.activeLeases + 1 }
          leases := s.leases ++
            [some { router := true, engine := some engine, releasing := false,
                    number := number }]
          log := s.log ++ [.acquired number engine] }

/-- The first half of `Lease::release`: `release_lease()`, if there is a router. -/
def System.releaseCount (s : System) (address : Nat) (lease : Lease) :
    Option System :=
  if lease.releasing then none
  else if lease.router then
    some { s with
      router := { s.router with activeLeases := s.router.activeLeases - 1 }
      leases := s.leases.set address (some { lease with releasing := true })
      log := s.log ++ [.released lease.number] }
  else
    some { s with
      leases := s.leases.set address (some { lease with releasing := true }) }

/-- The second half of `Lease::release`: both pointers are reset. -/
def System.releaseEngine (s : System) (address : Nat) (lease : Lease) :
    Option System :=
  if lease.releasing then
    some { s with leases := s.leases.set address (some (emptyLease lease.number)) }
  else none

/-- The end of `~Lease`, after `release`. -/
def System.destroy (s : System) (address : Nat) (lease : Lease) : Option System :=
  if lease = emptyLease lease.number then
    some { s with leases := s.leases.set address none }
  else none

/-- Move construction. -/
def System.moveConstruct (s : System) (source : Nat) (lease : Lease) :
    Option System :=
  if lease.releasing then none
  else
    some { s with
      leases := s.leases.set source (some (emptyLease lease.number)) ++
        [some lease] }

/-- Move assignment; for another object the target was released just before. -/
def System.moveAssign (s : System) (target source : Nat) (old lease : Lease) :
    Option System :=
  if target = source then some s
  else if old = emptyLease old.number ∧ lease.releasing = false then
    let moved := s.leases.set source (some (emptyLease lease.number))
    some { s with leases := moved.set target (some lease) }
  else none

/-- The beginning of `load`, up to the wait. -/
def System.load (s : System) (requestedModel : String) : System :=
  match resolveIdOrThrow s.router requestedModel with
  | none => s
  | some id =>
      if !s.router.dynamic then s
      else
        let ticket := s.router.nextLoadTicket
        { s with
          router := { s.router with
            nextLoadTicket := ticket + 1
            loadQueue := s.router.loadQueue ++ [ticket] }
          loaders := s.loaders ++ [⟨ticket, id, .waiting⟩] }

/-- The wait is over: return if the model is resident, else drop the old one. -/
def System.loadPass (s : System) (l : Loader) : Option System :=
  if l.pc = .waiting ∧ s.router.loadQueue.head? = some l.ticket ∧
      s.router.loading = false ∧ s.router.activeLeases = 0 then
    if s.router.currentEngine.isSome ∧ s.router.currentId = l.id then
      some { s with
        router := { s.router with loadQueue := s.router.loadQueue.tail }
        loaders := leave s.loaders l.ticket
        log := s.log ++ [.started l.ticket] }
    else
      some { s with
        router := { s.router with
          loading := true, currentEngine := none, currentId := "" }
        loaders := setPc s.loaders l.ticket .cleared
        log := s.log ++ [.started l.ticket] }
  else none

/-- The construction of the new model backend begins. -/
def System.constructBegin (s : System) (l : Loader) : Option System :=
  if l.pc = .cleared then
    some { s with
      loaders := setPc s.loaders l.ticket .constructing
      log := s.log ++
        [.constructing l.ticket s.aliveEngines s.router.activeLeases] }
  else none

/-- The construction throws: the handler makes room for the next loader. -/
def System.constructFail (s : System) (l : Loader) : Option System :=
  if l.pc = .constructing then
    some { s with
      router := { s.router with
        loading := false, loadQueue := s.router.loadQueue.tail }
      loaders := leave s.loaders l.ticket
      log := s.log ++ [.failed l.ticket] }
  else none

/-- The engine is built; only the loader's local variable refers to it. -/
def System.constructDone (s : System) (l : Loader) : Option System :=
  if l.pc = .constructing then
    some { s with
      loaders := setPc s.loaders l.ticket (.built s.nextEngine)
      nextEngine := s.nextEngine + 1 }
  else none

/-- The new engine becomes the resident one. -/
def System.commit (s : System) (l : Loader) : Option System :=
  match l.pc with
  | .built engine =>
      some { s with
        router := { s.router with
          currentEngine := some engine, currentId := l.id, loading := false
          loadQueue := s.router.loadQueue.tail }
        loaders := leave s.loaders l.ticket
        log := s.log ++ [.loaded l.ticket engine] }
  | _ => none

/-- The copy of the id throws: nothing behind it in `load` is executed. -/
def System.commitThrows (s : System) (l : Loader) : Option System :=
  match l.pc with
  | .built engine =>
      some { s with
        router := { s.router with currentEngine := some engine }
        loaders := leave s.loaders l.ticket
        log := s.log ++ [.failed l.ticket] }
  | _ => none

/-- One event; `none` when it cannot happen in this state. -/
def step (s : System) : Event → Option System
  | .acquire => s.acquire
  | .releaseCount i => (s.leaseAt i).bind (s.releaseCount i)
  | .releaseEngine i => (s.leaseAt i).bind (s.releaseEngine i)
  | .destroy i => (s.leaseAt i).bind (s.destroy i)
  | .moveConstruct i => (s.leaseAt i).bind (s.moveConstruct i)
  | .moveAssign i j =>
      (s.leaseAt i).bind (fun old => (s.leaseAt j).bind (s.moveAssign i j old))
  | .load requestedModel => some (s.load requestedModel)
  | .loadPass t => (s.loaderOf t).bind s.loadPass
  | .constructBegin t => (s.loaderOf t).bind s.constructBegin
  | .constructFail t => (s.loaderOf t).bind s.constructFail
  | .constructDone t => (s.loaderOf t).bind s.constructDone
  | .commit t => (s.loaderOf t).bind s.commit
  | .commitThrows t => (s.loaderOf t).bind s.commitThrows

section Logs

variable (l m : List Record)

@[simp] theorem acquiredNumbers_append :
    acquiredNumbers (l ++ m) = acquiredNumbers l ++ acquiredNumbers m := by
  induction l with
  | nil => rfl
  | cons r l ih => cases r <;> simp [acquiredNumbers, ih]

@[simp] theorem releasedNumbers_append :
    releasedNumbers (l ++ m) = releasedNumbers l ++ releasedNumbers m := by
  induction l with
  | nil => rfl
  | cons r l ih => cases r <;> simp [releasedNumbers, ih]

@[simp] theorem startedTickets_append :
    startedTickets (l ++ m) = startedTickets l ++ startedTickets m := by
  induction l with
  | nil => rfl
  | cons r l ih => cases r <;> simp [startedTickets, ih]

@[simp] theorem latestEngine_append (engine : Option Nat) :
    latestEngine engine (l ++ m) = latestEngine (latestEngine engine l) m := by
  induction l generalizing engine with
  | nil => rfl
  | cons r l ih => cases r <;> simp [latestEngine, ih]

end Logs

end ModelRouter
end RwkvLightning

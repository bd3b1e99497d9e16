import RwkvLightning.Library.Execution
import RwkvLightning.Library.Slots
import Mathlib

/-!
# Prefill admission

The controller of `rwkv_prefill_admission.cpp`: a first-come first-served
ticket queue in front of a counter of reserved batch rows, whose limit is asked
from a capacity provider every time the head of the queue is examined.

**State.**  `Controller` holds the fields behind the mutex.  `System` adds what
lives outside it: the callers blocked in `acquire`, the `Permit` objects (by
address), and the lines of the log.  The mutex makes one entry into `acquire`,
one wake-up of a waiting caller and one `release` atomic; these are the events.

**Callbacks.**  The capacity provider answers `none` when it throws and
`some n` when it reports `n` as `max_batch_size`; `should_cancel` answers
`none` when it throws.  Both answers are part of the event, so a run contains
every behaviour of both callbacks.

A permit's destructor and its move assignment are `noexcept`: a provider that
throws inside them terminates the process, which is the end of the run.  An
explicit `Permit::release` lets the exception out, and there the permit keeps
its controller although the rows were already given back.

Tickets and row counts are unbounded numbers here; the code's 64-bit ticket
counter and its `int` row counts would have to wrap around to differ.
-/

namespace RwkvLightning
namespace PrefillAdmission

/-- `QueueEntry`: a request waiting for its turn. -/
structure QueueEntry where
  ticket : Nat
  batchSize : Int
  label : String
deriving DecidableEq, Repr

/-- The fields of `PrefillAdmissionController` that its mutex protects. -/
structure Controller where
  queue : List QueueEntry
  hardMaxBatchSize : Int
  hardLimitInitialized : Bool
  dynamicMaxBatchSize : Int
  reservedBatchSize : Int
  nextTicket : Nat
deriving DecidableEq, Repr

/-- `refresh_capacity_locked`; `none` when the provider throws. -/
def refreshCapacityLocked (c : Controller) : Option Int → Option Controller
  | none => none
  | some capacity =>
      let dynamic := max 0 capacity
      some { c with
        dynamicMaxBatchSize :=
          if c.hardLimitInitialized then min dynamic c.hardMaxBatchSize
          else dynamic }

/-- The constructor: the first reported capacity becomes the hard maximum. -/
def Controller.create (capacity : Option Int) : Option Controller :=
  let blank : Controller :=
    { queue := [], hardMaxBatchSize := 0, hardLimitInitialized := false,
      dynamicMaxBatchSize := 0, reservedBatchSize := 0, nextTicket := 0 }
  match refreshCapacityLocked blank capacity with
  | none => none
  | some c =>
      some { c with
        hardMaxBatchSize := c.dynamicMaxBatchSize
        hardLimitInitialized := true }

/-- `remove_ticket_locked`: drop the first entry with this ticket. -/
def removeTicketLocked (c : Controller) (ticket : Nat) : Controller :=
  { c with queue := c.queue.eraseP (fun entry => entry.ticket == ticket) }

/-- What one pass of the loop in `acquire` ends with. -/
inductive Turn where
  | cancelled
  | failed
  | admitted
  | waiting
deriving DecidableEq, Repr

/-- One pass of the loop in `acquire` for a ticket that is in the queue. -/
def pollOnce (c : Controller) (ticket : Nat) (requestBatchSize : Int)
    (shouldCancel : Option Bool) (capacity : Option Int) : Controller × Turn :=
  match shouldCancel with
  | none => (removeTicketLocked c ticket, .failed)
  | some true => (removeTicketLocked c ticket, .cancelled)
  | some false =>
      if c.queue.head?.map QueueEntry.ticket = some ticket then
        match refreshCapacityLocked c capacity with
        | none => (removeTicketLocked c ticket, .failed)
        | some c =>
            let available := max 0 (c.dynamicMaxBatchSize - c.reservedBatchSize)
            if requestBatchSize ≤ available then
              ({ c with
                  reservedBatchSize := c.reservedBatchSize + requestBatchSize
                  queue := c.queue.tail }, .admitted)
            else (c, .waiting)
      else (c, .waiting)

/--
The beginning of `acquire`: clamp the size, refuse what the hard maximum can
never admit (`none`), and queue the rest under a new ticket.
-/
def enqueue (c : Controller) (requestBatchSize : Int) (label : String) :
    Option (Controller × QueueEntry) :=
  let requestBatchSize := max 1 requestBatchSize
  if c.hardMaxBatchSize < requestBatchSize then none
  else
    let entry : QueueEntry := ⟨c.nextTicket, requestBatchSize, label⟩
    some ({ c with queue := c.queue ++ [entry], nextTicket := c.nextTicket + 1 },
      entry)

/-- `PrefillAdmissionController::release`; the flag says that it threw. -/
def Controller.release (c : Controller) (batchSize : Int) (capacity : Option Int) :
    Controller × Bool :=
  let c := { c with reservedBatchSize := max 0 (c.reservedBatchSize - batchSize) }
  match refreshCapacityLocked c capacity with
  | none => (c, true)
  | some c => (c, false)

/-- A `Permit` object; `controller` says that `controller_` is not null. -/
structure Permit where
  controller : Bool
  batchSize : Int
  ticket : Nat
deriving DecidableEq, Repr

/-- The reservation a permit object stands for; `none` is a destroyed object. -/
def reservation : Option Permit → Option Permit
  | none => none
  | some p => if p.controller then some p else none

/-- The history of a run, in the order of the log lines. -/
inductive Record where
  | admitted (ticket : Nat) (batchSize reservedBefore capacity : Int)
  | cancelled (ticket : Nat)
  | failed (ticket : Nat)
  | returned (ticket : Nat)
deriving DecidableEq, Repr

/-- The controller with its callers and the permits it has handed out. -/
structure System where
  ctl : Controller
  waiters : List QueueEntry
  permits : List (Option Permit)
  terminated : Bool
  log : List Record
deriving DecidableEq, Repr

/-- A controller just constructed, nothing acquired yet. -/
def System.init (ctl : Controller) : System :=
  { ctl := ctl, waiters := [], permits := [], terminated := false, log := [] }

/-- Permits that hold a reservation now. -/
def System.outstanding (s : System) : List Permit :=
  Slots.held reservation s.permits

inductive Event where
  | acquire (requestBatchSize : Int) (label : String)
      (shouldCancel : Option Bool) (capacity : Option Int)
  | wake (ticket : Nat) (shouldCancel : Option Bool) (capacity : Option Int)
  | release (permit : Nat) (capacity : Option Int)
  | destroy (permit : Nat) (capacity : Option Int)
  | moveConstruct (source : Nat)
  | moveAssign (target source : Nat) (capacity : Option Int)
deriving DecidableEq, Repr

/--
The rest of an entry into `acquire` once `entry` is queued: one pass of the
loop, and what the caller is left with.
-/
def System.poll (s : System) (entry : QueueEntry)
    (shouldCancel : Option Bool) (capacity : Option Int) : System :=
  let others := s.waiters.eraseP (fun w => w.ticket == entry.ticket)
  match pollOnce s.ctl entry.ticket entry.batchSize shouldCancel capacity with
  | (ctl, .cancelled) =>
      { s with ctl := ctl, waiters := others
               log := s.log ++ [.cancelled entry.ticket] }
  | (ctl, .failed) =>
      { s with ctl := ctl, waiters := others
               log := s.log ++ [.failed entry.ticket] }
  | (ctl, .admitted) =>
      { s with
        ctl := ctl, waiters := others
        permits := s.permits ++ [some ⟨true, entry.batchSize, entry.ticket⟩]
        log := s.log ++
          [.admitted entry.ticket entry.batchSize s.ctl.reservedBatchSize
            (capacity.getD 0)] }
  | (ctl, .waiting) => { s with ctl := ctl }

/--
`Permit::release` on the object at `address`: the reservation goes back, and
the permit forgets its controller unless the call threw.  The flag says that
an exception leaves the call.
-/
def System.releaseAt (s : System) (address : Nat) (p : Permit)
    (capacity : Option Int) : System × Bool :=
  if p.controller then
    let (ctl, threw) := s.ctl.release p.batchSize capacity
    ({ s with
        ctl := ctl
        permits := s.permits.set address (some { p with controller := threw })
        log := s.log ++ [.returned p.ticket] }, threw)
  else (s, false)

/-- Move construction: the new object takes the reservation of the source. -/
def System.moveTo (s : System) (source : Nat) (p : Permit) : System :=
  { s with permits :=
      s.permits.set source (some { p with controller := false }) ++ [some p] }

/-- `acquire` up to its return or its first wait. -/
def System.acquire (s : System) (requestBatchSize : Int) (label : String)
    (shouldCancel : Option Bool) (capacity : Option Int) : System :=
  match enqueue s.ctl requestBatchSize label with
  | none => s
  | some (ctl, entry) =>
      System.poll { s with ctl := ctl, waiters := s.waiters ++ [entry] }
        entry shouldCancel capacity

/-- `~Permit`: an exception that leaves the destructor ends the process. -/
def System.destroyAt (s : System) (address : Nat) (p : Permit)
    (capacity : Option Int) : System :=
  let (s, threw) := s.releaseAt address p capacity
  if threw then { s with terminated := true }
  else { s with permits := s.permits.set address none }

/-- Move assignment, which is `noexcept` and releases the target first. -/
def System.assign (s : System) (target source : Nat) (p q : Permit)
    (capacity : Option Int) : System :=
  if target = source then s
  else
    let (s, threw) := s.releaseAt target p capacity
    if threw then { s with terminated := true }
    else
      let moved := s.permits.set source (some { q with controller := false })
      { s with permits := moved.set target (some q) }

/-- The permit object at an address, if it is alive. -/
def System.permitAt (s : System) (address : Nat) : Option Permit :=
  s.permits[address]?.join

/-- One event; `none` when it cannot happen in this state. -/
def step (s : System) (e : Event) : Option System :=
  if s.terminated then none
  else
    match e with
    | .acquire requestBatchSize label shouldCancel capacity =>
        some (s.acquire requestBatchSize label shouldCancel capacity)
    | .wake ticket shouldCancel capacity =>
        match s.waiters.find? (fun w => w.ticket == ticket) with
        | none => none
        | some entry => some (s.poll entry shouldCancel capacity)
    | .release permit capacity =>
        match s.permitAt permit with
        | none => none
        | some p => some (s.releaseAt permit p capacity).1
    | .destroy permit capacity =>
        match s.permitAt permit with
        | none => none
        | some p => some (s.destroyAt permit p capacity)
    | .moveConstruct source =>
        match s.permitAt source with
        | none => none
        | some p => some (s.moveTo source p)
    | .moveAssign target source capacity =>
        match s.permitAt target, s.permitAt source with
        | some p, some q => some (s.assign target source p q capacity)
        | _, _ => none

/-- Tickets admitted so far, in the order of their admission. -/
def admittedTickets : List Record → List Nat
  | [] => []
  | .admitted ticket _ _ _ :: rest => ticket :: admittedTickets rest
  | _ :: rest => admittedTickets rest

/-- Tickets whose reservation was given back, once for each time. -/
def returnedTickets : List Record → List Nat
  | [] => []
  | .returned ticket :: rest => ticket :: returnedTickets rest
  | _ :: rest => returnedTickets rest

/-- Tickets whose `acquire` was cancelled or left by an exception. -/
def droppedTickets : List Record → List Nat
  | [] => []
  | .cancelled ticket :: rest => ticket :: droppedTickets rest
  | .failed ticket :: rest => ticket :: droppedTickets rest
  | _ :: rest => droppedTickets rest

section Logs

variable (l m : List Record)

@[simp] theorem admittedTickets_append :
    admittedTickets (l ++ m) = admittedTickets l ++ admittedTickets m := by
  induction l with
  | nil => rfl
  | cons r l ih => cases r <;> simp [admittedTickets, ih]

@[simp] theorem returnedTickets_append :
    returnedTickets (l ++ m) = returnedTickets l ++ returnedTickets m := by
  induction l with
  | nil => rfl
  | cons r l ih => cases r <;> simp [returnedTickets, ih]

@[simp] theorem droppedTickets_append :
    droppedTickets (l ++ m) = droppedTickets l ++ droppedTickets m := by
  induction l with
  | nil => rfl
  | cons r l ih => cases r <;> simp [droppedTickets, ih]

end Logs

end PrefillAdmission
end RwkvLightning

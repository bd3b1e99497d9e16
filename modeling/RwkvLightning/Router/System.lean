import RwkvLightning.Library.Execution
import RwkvLightning.Router.Handlers
import Mathlib

/-!
# The router as a system

All requests of the router at once.  A handler takes the mutex of the scheduler
for one critical section at a time, and any other handler may run in between: an
event is one critical section, or the arrival of the answers of a broadcast.

The number of the events so far is the clock of the specifications; the code
does not have it.

**Results.**
* `act_after`: what an event does to the two tables and to the mutations in
  progress.
* `guarded_step`: each mutation in progress owns the entry under its id.
-/

namespace RwkvLightning
namespace Router

open GuardedTable Execution

/-- How far a handler is with its broadcast. -/
inductive Phase where
  /-- A deletion of adapters, before it is entered into the placement. -/
  | prepared
  | entered
  | sent
  /-- `rejectedMutation` of the answers, and the answers still to be read. -/
  | answered (rejected : Bool) (todo : List ResourceResponse)
deriving DecidableEq, Repr

/-- What a handler of resources does. -/
inductive Job where
  | mutateState (mutation : StateMutation) (deletes : Bool)
  /-- An upload, or the deletion of a version (of all versions for `""`), with
  `canonicalVersion`. -/
  | mutateAdapter (mutation : AdapterMutation) (deletes : Option String) (canonical : String)
  /-- A list or a refresh: the snapshot of the epoch, and when it was taken. -/
  | listStates (epoch began : Nat)
  | listAdapters (epoch began : Nat)

structure Handler where
  job : Job
  phase : Phase

/-- An inference request on its way. -/
structure Request where
  backend : Nat
  bsz : Int
  stateId : String
  adapterId : String
  adapterVersion : String
deriving DecidableEq, Repr

/-- How a backend answers an inference request. -/
inductive Reply where
  | served
  /-- The transport fails, or the body breaks off, at a time. -/
  | failed (now : Nat)
  /-- Status 400 or 404: the body says that the state or the adapter is unknown. -/
  | refused (stateGone adapterGone : Bool)
deriving DecidableEq, Repr

structure System where
  scheduler : Scheduler
  handlers : List Handler
  requests : List Request
  clock : Nat

inductive Event where
  | beginState (id : String) (deletes : Bool)
  | beginAdapter (id : String) (deletes : Option String)
  | enterDeletion (k : Nat)
  | listStates
  | listAdapters
  | send (k : Nat)
  | answer (k : Nat) (results : List Response)
  | next (k : Nat)
  | finish (k : Nat)
  | acquire (now : Nat) (bsz : Int) (session stateId adapterId adapterVersion : String)
  | respond (k : Nat) (reply : Reply)
  | fail (b now : Nat)
deriving DecidableEq, Repr

/-- The router at its start. -/
def System.start (backends : List Backend) (cooldown : Nat) : System where
  scheduler := ⟨backends, 0, fun _ => none, cooldown, Table.empty, Table.empty⟩
  handlers := []
  requests := []
  clock := 0

/-- A handler reads its next answer. -/
def Job.read (job : Job) (s : Scheduler) (r : ResourceResponse) : Scheduler × Job :=
  match job with
  | .mutateState m deletes =>
      if deletes = false ∧ r.failure = none then ((validateStateUpload m.id s r).1, job)
      else (s, job)
  | .mutateAdapter m deletes canonical =>
      if deletes = none ∧ r.failure = none then
        let (s, canonical) := (validateAdapterUpload m (s, canonical) r).1
        (s, .mutateAdapter m deletes canonical)
      else (s, job)
  | .listStates epoch _ => (s.observeStateList r.backend r.response epoch, job)
  | .listAdapters epoch _ => (s.observeAdapterList r.backend r.response epoch, job)

/-- `complete`. -/
def Job.complete (job : Job) (s : Scheduler) (rejected : Bool) : Scheduler :=
  match job with
  | .mutateState m deletes => s.finishStateMutation m (deletes && rejected)
  | .mutateAdapter m _ _ => s.finishAdapterMutation m rejected
  | .listStates _ _ => s
  | .listAdapters _ _ => s

/-- The rest of `ServeHTTP` once the backend has answered. -/
def Request.settle (q : Request) (s : Scheduler) (reply : Reply) : Scheduler :=
  let s :=
    match reply with
    | .served => s
    | .failed now => s.failed q.backend now
    | .refused stateGone adapterGone =>
        if q.stateId ≠ "" ∨ q.adapterId ≠ "" then
          let s := if stateGone then s.stateUnavailable q.stateId q.backend else s
          if adapterGone then s.adapterUnavailable q.adapterId q.adapterVersion q.backend
          else s
        else s
  s.release q.backend q.bsz

namespace System

variable (s : System)

/-- One event; `none` where it cannot happen or is refused without an effect. -/
def act : Event → Option System
  | .beginState id deletes =>
      match s.scheduler.beginStateMutation id deletes with
      | .error _ => none
      | .ok (scheduler, m) =>
          some { s with
            scheduler := scheduler
            handlers := ⟨.mutateState m deletes, .entered⟩ :: s.handlers }
  | .beginAdapter id deletes =>
      if id = "" then none
      else
        match s.scheduler.beginAdapterMutation id with
        | .error _ => none
        | .ok (scheduler, m) =>
            some { s with
              scheduler := scheduler
              handlers :=
                ⟨.mutateAdapter m deletes "",
                  if deletes = none then .entered else .prepared⟩ :: s.handlers }
  | .enterDeletion k =>
      match s.handlers[k]? with
      | some ⟨.mutateAdapter m (some version) canonical, .prepared⟩ =>
          some { s with
            scheduler := s.scheduler.deleteAdapter m version
            handlers :=
              s.handlers.set k ⟨.mutateAdapter m (some version) canonical, .entered⟩ }
      | _ => none
  | .listStates =>
      some { s with
        handlers := ⟨.listStates s.scheduler.states.epoch s.clock, .entered⟩ :: s.handlers }
  | .listAdapters =>
      some { s with
        handlers :=
          ⟨.listAdapters s.scheduler.adapters.epoch s.clock, .entered⟩ :: s.handlers }
  | .send k =>
      match s.handlers[k]? with
      | some ⟨job, .entered⟩ =>
          some { s with
            scheduler := s.scheduler.reserveAll 1
            handlers := s.handlers.set k ⟨job, .sent⟩ }
      | _ => none
  | .answer k results =>
      match s.handlers[k]? with
      | some ⟨job, .sent⟩ =>
          if results.length = s.scheduler.backends.length then
            let responses := s.scheduler.responses results
            some { s with
              scheduler := s.scheduler.reserveAll (-1)
              handlers :=
                s.handlers.set k ⟨job, .answered (rejectedMutation responses) responses⟩ }
          else none
      | _ => none
  | .next k =>
      match s.handlers[k]? with
      | some ⟨job, .answered rejected (r :: todo)⟩ =>
          let (scheduler, job) := job.read s.scheduler r
          some { s with
            scheduler := scheduler
            handlers := s.handlers.set k ⟨job, .answered rejected todo⟩ }
      | _ => none
  | .finish k =>
      match s.handlers[k]? with
      | some ⟨job, .answered rejected []⟩ =>
          some { s with
            scheduler := job.complete s.scheduler rejected
            handlers := s.handlers.eraseIdx k }
      | _ => none
  | .acquire now bsz session stateId adapterId adapterVersion =>
      match s.scheduler.acquireWithAdapter now bsz session stateId adapterId
          adapterVersion with
      | .error _ => none
      | .ok (b, scheduler) =>
          some { s with
            scheduler := scheduler
            requests :=
              ⟨b, if bsz < 1 then 1 else bsz, stateId, adapterId, adapterVersion⟩ ::
                s.requests }
  | .respond k reply =>
      match s.requests[k]? with
      | none => none
      | some q =>
          some { s with
            scheduler := q.settle s.scheduler reply
            requests := s.requests.eraseIdx k }
  | .fail b now =>
      if s.handlers.any (fun h => h.phase = .sent) then
        some { s with scheduler := s.scheduler.failed b now }
      else none

/-- One event, with the clock. -/
def step (e : Event) : Option System :=
  (s.act e).map (fun t => { t with clock := s.clock + 1 })

/-- The mutation of a state that a handler has in progress. -/
def stateMutation (h : Handler) : Option StateMutation :=
  match h.job with
  | .mutateState m _ => some m
  | _ => none

/-- The mutation of an adapter that a handler has in progress. -/
def adapterMutation (h : Handler) : Option AdapterMutation :=
  match h.job with
  | .mutateAdapter m _ _ => some m
  | _ => none

def stateMutations : List StateMutation :=
  s.handlers.filterMap stateMutation

def adapterMutations : List AdapterMutation :=
  s.handlers.filterMap adapterMutation

end System

section Occurrences

/-- What an event means for the states. -/
inductive StateOccurrence where
  | nothing
  | begun (id : String) (deletes : Bool)
  | acknowledged (m : StateMutation) (r : ResourceResponse)
  | observed (epoch began : Nat) (r : ResourceResponse)
  | finished (m : StateMutation) (rollback : Bool)
  | notFound (id : String) (b : Nat)

/-- What an event means for the adapters. -/
inductive AdapterOccurrence where
  | nothing
  | begun (id : String)
  | entered (m : AdapterMutation) (version : String)
  | acknowledged (m : AdapterMutation) (canonical : String) (r : ResourceResponse)
  | observed (epoch began : Nat) (r : ResourceResponse)
  | finished (m : AdapterMutation) (deletes : Option String) (rollback : Bool)
  | notFound (id version : String) (b : Nat)

/-- What an event means for the states. -/
def System.stateOccurrence (s : System) : Event → StateOccurrence
  | .beginState id deletes => .begun id deletes
  | .next k =>
      match s.handlers[k]? with
      | some ⟨.mutateState m false, .answered _ (r :: _)⟩ =>
          if r.failure = none then .acknowledged m r else .nothing
      | some ⟨.listStates epoch began, .answered _ (r :: _)⟩ => .observed epoch began r
      | _ => .nothing
  | .finish k =>
      match s.handlers[k]? with
      | some ⟨.mutateState m deletes, .answered rejected []⟩ =>
          .finished m (deletes && rejected)
      | _ => .nothing
  | .respond k (.refused true _) =>
      match s.requests[k]? with
      | some q =>
          if q.stateId ≠ "" ∨ q.adapterId ≠ "" then .notFound q.stateId q.backend
          else .nothing
      | none => .nothing
  | _ => .nothing

/-- What an event means for the adapters. -/
def System.adapterOccurrence (s : System) : Event → AdapterOccurrence
  | .beginAdapter id _ => .begun id
  | .enterDeletion k =>
      match s.handlers[k]? with
      | some ⟨.mutateAdapter m (some version) _, .prepared⟩ => .entered m version
      | _ => .nothing
  | .next k =>
      match s.handlers[k]? with
      | some ⟨.mutateAdapter m none canonical, .answered _ (r :: _)⟩ =>
          if r.failure = none then .acknowledged m canonical r else .nothing
      | some ⟨.listAdapters epoch began, .answered _ (r :: _)⟩ => .observed epoch began r
      | _ => .nothing
  | .finish k =>
      match s.handlers[k]? with
      | some ⟨.mutateAdapter m deletes _, .answered rejected []⟩ =>
          .finished m deletes rejected
      | _ => .nothing
  | .respond k (.refused _ true) =>
      match s.requests[k]? with
      | some q =>
          if q.stateId ≠ "" ∨ q.adapterId ≠ "" then
            .notFound q.adapterId q.adapterVersion q.backend
          else .nothing
      | none => .nothing
  | _ => .nothing

end Occurrences

section Frames

variable {s s' : Scheduler}

theorem failed_frame (s : Scheduler) (b now : Nat) :
    (s.failed b now).states = s.states ∧ (s.failed b now).adapters = s.adapters := by
  unfold Scheduler.failed
  split_ifs <;> exact ⟨rfl, rfl⟩

theorem beginAdapterMutation_ok {id : String} {m : AdapterMutation}
    (h : s.beginAdapterMutation id = .ok (s', m)) :
    s'.states = s.states ∧
      s.adapters.begin id (fun old =>
        match old with
        | none => AdapterPlacement.blank
        | some old => ⟨old.ready, old.current, false, old.deletedVersions⟩) =
        some (s'.adapters, m) := by
  unfold Scheduler.beginAdapterMutation at h
  split at h
  · exact absurd h (by simp)
  · rename_i adapters m' hbegin
    obtain ⟨rfl, rfl⟩ := Prod.mk.inj (Except.ok.inj h)
    exact ⟨rfl, hbegin⟩

theorem beginStateMutation_ok {id : String} {deletes : Bool} {m : StateMutation}
    (h : s.beginStateMutation id deletes = .ok (s', m)) :
    id ≠ "" ∧ s'.adapters = s.adapters ∧
      s.states.begin id (fun _ => ⟨noBackend, deletes, none⟩) = some (s'.states, m) := by
  unfold Scheduler.beginStateMutation at h
  by_cases hid : id = ""
  · rw [if_pos hid] at h
    exact absurd h (by simp)
  rw [if_neg hid] at h
  split at h
  · exact absurd h (by simp)
  · rename_i states m' hbegin
    obtain ⟨rfl, rfl⟩ := Prod.mk.inj (Except.ok.inj h)
    exact ⟨hid, rfl, hbegin⟩

theorem validateStateUpload_adapters (id : String) (s : Scheduler) (r : ResourceResponse) :
    (validateStateUpload id s r).1.adapters = s.adapters := by
  have hconfirm : ∀ info : ListedState,
      (s.confirmState r.backend info).1.adapters = s.adapters := by
    intro info
    unfold Scheduler.confirmState
    split
    · rfl
    · split_ifs <;> rfl
  unfold validateStateUpload
  split
  · rfl
  · split_ifs
    · rfl
    · exact hconfirm _

theorem validateAdapterUpload_states (m : AdapterMutation) (p : Scheduler × String)
    (r : ResourceResponse) : (validateAdapterUpload m p r).1.1.states = p.1.states := by
  unfold validateAdapterUpload
  split
  · rfl
  · split_ifs <;> rfl

theorem observeStateList_adapters (s : Scheduler) (b : Nat) (response : Response)
    (epoch : Nat) : (s.observeStateList b response epoch).adapters = s.adapters := by
  unfold Scheduler.observeStateList
  split
  · split_ifs <;> rfl
  · rfl

theorem observeAdapterList_states (s : Scheduler) (b : Nat) (response : Response)
    (epoch : Nat) : (s.observeAdapterList b response epoch).states = s.states := by
  unfold Scheduler.observeAdapterList
  split
  · split_ifs <;> rfl
  · rfl

theorem finishStateMutation_adapters (s : Scheduler) (m : StateMutation)
    (rollback : Bool) : (s.finishStateMutation m rollback).adapters = s.adapters := by
  unfold Scheduler.finishStateMutation
  split_ifs <;> rfl

theorem acquireWithAdapter_frame {now : Nat} {bsz : Int}
    {session stateId adapterId adapterVersion : String} {b : Nat}
    (h : s.acquireWithAdapter now bsz session stateId adapterId adapterVersion =
      .ok (b, s')) :
    s'.states = s.states ∧ s'.adapters = s.adapters := by
  unfold Scheduler.acquireWithAdapter at h
  dsimp only at h
  split at h
  · obtain ⟨-, rfl⟩ := Prod.mk.inj (Except.ok.inj h)
    exact ⟨rfl, rfl⟩
  · split at h
    · split_ifs at h
    · obtain ⟨-, rfl⟩ := Prod.mk.inj (Except.ok.inj h)
      split_ifs <;> exact ⟨rfl, rfl⟩

end Frames

section Handlers

variable {ι : Type}

/-- A handler that goes on with its work keeps its mutation. -/
theorem filterMap_set {β : Type} {f : ι → Option β} {l : List ι} {k : Nat} {x y : ι}
    (hx : l[k]? = some x) (hxy : f y = f x) :
    (l.set k y).filterMap f = l.filterMap f := by
  induction l generalizing k with
  | nil => rfl
  | cons a l ih =>
      cases k with
      | zero =>
          obtain rfl : a = x := by simpa using hx
          simp [List.filterMap_cons, hxy]
      | succ k =>
          rw [List.set_cons_succ, List.filterMap_cons, List.filterMap_cons,
            ih (by simpa using hx)]

/-- A handler that goes away takes its mutation along. -/
theorem filterMap_eraseIdx {β : Type} {f : ι → Option β} {l : List ι} {k : Nat} {x : ι}
    (hx : l[k]? = some x) :
    (l.filterMap f).Perm ((f x).toList ++ (l.eraseIdx k).filterMap f) := by
  have hperm : l.Perm (x :: l.eraseIdx k) := by
    obtain ⟨hk, rfl⟩ := List.getElem?_eq_some_iff.mp hx
    exact (List.getElem_cons_eraseIdx_perm hk).symm
  refine (hperm.filterMap f).trans ?_
  rw [List.filterMap_cons]
  cases f x <;> exact List.Perm.refl _

/-- A handler without a mutation takes none along. -/
theorem filterMap_eraseIdx_none {β : Type} {f : ι → Option β} {l : List ι} {k : Nat}
    {x : ι} (hx : l[k]? = some x) (hnone : f x = none) :
    (l.eraseIdx k).filterMap f = l.filterMap f := by
  induction l generalizing k with
  | nil => rfl
  | cons a l ih =>
      cases k with
      | zero =>
          obtain rfl : a = x := by simpa using hx
          simp [hnone]
      | succ k =>
          rw [List.eraseIdx_cons_succ, List.filterMap_cons, List.filterMap_cons,
            ih (by simpa using hx)]

end Handlers

section Steps

variable {s s' : System} {e : Event}

/-- What the states and their mutations are after an occurrence. -/
def StatesAfter (s s' : System) : StateOccurrence → Prop
  | .nothing =>
      s'.scheduler.states = s.scheduler.states ∧ s'.stateMutations = s.stateMutations
  | .begun id deletes =>
      ∃ m, id ≠ "" ∧
        s.scheduler.states.begin id (fun _ => ⟨noBackend, deletes, none⟩) =
          some (s'.scheduler.states, m) ∧
        s'.stateMutations = m :: s.stateMutations
  | .acknowledged m r =>
      m ∈ s.stateMutations ∧ r.failure = none ∧
        s'.scheduler.states = (validateStateUpload m.id s.scheduler r).1.states ∧
        s'.stateMutations = s.stateMutations
  | .observed epoch _ r =>
      s'.scheduler.states =
          (s.scheduler.observeStateList r.backend r.response epoch).states ∧
        s'.stateMutations = s.stateMutations
  | .finished m rollback =>
      s'.scheduler.states = (s.scheduler.finishStateMutation m rollback).states ∧
        s.stateMutations.Perm (m :: s'.stateMutations)
  | .notFound id b =>
      s'.scheduler.states = (s.scheduler.stateUnavailable id b).states ∧
        s'.stateMutations = s.stateMutations

/-- What the adapters and their mutations are after an occurrence. -/
def AdaptersAfter (s s' : System) : AdapterOccurrence → Prop
  | .nothing =>
      s'.scheduler.adapters = s.scheduler.adapters ∧ s'.adapterMutations = s.adapterMutations
  | .begun id =>
      ∃ m, id ≠ "" ∧
        s.scheduler.adapters.begin id (fun old =>
          match old with
          | none => AdapterPlacement.blank
          | some old => ⟨old.ready, old.current, false, old.deletedVersions⟩) =
          some (s'.scheduler.adapters, m) ∧
        s'.adapterMutations = m :: s.adapterMutations
  | .entered m version =>
      m ∈ s.adapterMutations ∧
        s'.scheduler.adapters = (s.scheduler.deleteAdapter m version).adapters ∧
        s'.adapterMutations = s.adapterMutations
  | .acknowledged m canonical r =>
      m ∈ s.adapterMutations ∧ r.failure = none ∧
        s'.scheduler.adapters =
          (validateAdapterUpload m (s.scheduler, canonical) r).1.1.adapters ∧
        s'.adapterMutations = s.adapterMutations
  | .observed epoch _ r =>
      s'.scheduler.adapters =
          (s.scheduler.observeAdapterList r.backend r.response epoch).adapters ∧
        s'.adapterMutations = s.adapterMutations
  | .finished m _ rollback =>
      s'.scheduler.adapters = (s.scheduler.finishAdapterMutation m rollback).adapters ∧
        s.adapterMutations.Perm (m :: s'.adapterMutations)
  | .notFound id version b =>
      s'.scheduler.adapters = (s.scheduler.adapterUnavailable id version b).adapters ∧
        s'.adapterMutations = s.adapterMutations

/-- The handler of an event that goes on with a handler. -/
theorem mem_mutations {β : Type} {f : Handler → Option β} {k : Nat} {h : Handler} {m : β}
    (hk : s.handlers[k]? = some h) (hm : f h = some m) : m ∈ s.handlers.filterMap f :=
  List.mem_filterMap.mpr ⟨h, List.mem_of_getElem? hk, hm⟩

theorem settle_frame (q : Request) (s : Scheduler) (reply : Reply) :
    (q.settle s reply).states =
        (if (∃ gone, reply = .refused true gone) ∧ (q.stateId ≠ "" ∨ q.adapterId ≠ "") then
          (s.stateUnavailable q.stateId q.backend).states
        else s.states) ∧
      (q.settle s reply).adapters =
        (if (∃ gone, reply = .refused gone true) ∧ (q.stateId ≠ "" ∨ q.adapterId ≠ "") then
          (s.adapterUnavailable q.adapterId q.adapterVersion q.backend).adapters
        else s.adapters) := by
  cases reply with
  | served => simp [Request.settle, Scheduler.release, Scheduler.modifyBackend]
  | failed now =>
      obtain ⟨hstates, hadapters⟩ := failed_frame s q.backend now
      simp [Request.settle, Scheduler.release, Scheduler.modifyBackend, hstates, hadapters]
  | refused stateGone adapterGone =>
      by_cases hnamed : q.stateId ≠ "" ∨ q.adapterId ≠ ""
      · cases stateGone <;> cases adapterGone <;>
          simp [Request.settle, Scheduler.release, Scheduler.modifyBackend, hnamed,
            Scheduler.stateUnavailable, Scheduler.adapterUnavailable]
      · simp [Request.settle, Scheduler.release, Scheduler.modifyBackend, hnamed]

/-- The occurrences of an event describe what it does to the two tables. -/
theorem act_after (h : s.act e = some s') :
    StatesAfter s s' (s.stateOccurrence e) ∧ AdaptersAfter s s' (s.adapterOccurrence e) := by
  cases e with
  | beginState id deletes =>
      simp only [System.act] at h
      split at h
      · exact absurd h (by simp)
      · rename_i scheduler m hbegin
        obtain rfl := Option.some.inj h
        obtain ⟨hid, hadapters, hbegin⟩ := beginStateMutation_ok hbegin
        exact ⟨⟨m, hid, hbegin, rfl⟩, hadapters, rfl⟩
  | beginAdapter id deletes =>
      simp only [System.act] at h
      by_cases hid : id = ""
      · rw [if_pos hid] at h
        exact absurd h (by simp)
      rw [if_neg hid] at h
      split at h
      · exact absurd h (by simp)
      · rename_i scheduler m hbegin
        obtain rfl := Option.some.inj h
        obtain ⟨hstates, hbegin⟩ := beginAdapterMutation_ok hbegin
        exact ⟨⟨hstates, rfl⟩, m, hid, hbegin, rfl⟩
  | enterDeletion k =>
      simp only [System.act] at h
      split at h
      · rename_i m version canonical hk
        obtain rfl := Option.some.inj h
        simp only [System.stateOccurrence, System.adapterOccurrence, hk]
        exact ⟨⟨rfl, filterMap_set hk rfl⟩, mem_mutations hk rfl, rfl, filterMap_set hk rfl⟩
      · exact absurd h (by simp)
  | listStates =>
      obtain rfl := Option.some.inj h
      exact ⟨⟨rfl, rfl⟩, rfl, rfl⟩
  | listAdapters =>
      obtain rfl := Option.some.inj h
      exact ⟨⟨rfl, rfl⟩, rfl, rfl⟩
  | send k =>
      simp only [System.act] at h
      split at h
      · rename_i job hk
        obtain rfl := Option.some.inj h
        exact ⟨⟨rfl, filterMap_set hk rfl⟩, rfl, filterMap_set hk rfl⟩
      · exact absurd h (by simp)
  | answer k results =>
      simp only [System.act] at h
      split at h
      · rename_i job hk
        split_ifs at h
        obtain rfl := Option.some.inj h
        exact ⟨⟨rfl, filterMap_set hk rfl⟩, rfl, filterMap_set hk rfl⟩
      · exact absurd h (by simp)
  | next k =>
      simp only [System.act] at h
      split at h
      · rename_i job rejected r todo hk
        obtain rfl := Option.some.inj h
        simp only [System.stateOccurrence, System.adapterOccurrence, hk]
        cases job with
        | mutateState m deletes =>
            cases deletes with
            | true =>
                exact ⟨⟨rfl, filterMap_set hk rfl⟩, rfl, filterMap_set hk rfl⟩
            | false =>
                by_cases hr : r.failure = none
                · simp only [Job.read, hr, true_and, if_true]
                  exact ⟨⟨mem_mutations hk rfl, hr, rfl, filterMap_set hk rfl⟩,
                    validateStateUpload_adapters _ _ _, filterMap_set hk rfl⟩
                · simp only [Job.read, hr, and_false, if_false]
                  exact ⟨⟨rfl, filterMap_set hk rfl⟩, rfl, filterMap_set hk rfl⟩
        | mutateAdapter m deletes canonical =>
            cases deletes with
            | some version =>
                exact ⟨⟨rfl, filterMap_set hk rfl⟩, rfl, filterMap_set hk rfl⟩
            | none =>
                by_cases hr : r.failure = none
                · simp only [Job.read, hr, true_and, if_true]
                  exact ⟨⟨validateAdapterUpload_states _ _ _, filterMap_set hk rfl⟩,
                    mem_mutations hk rfl, hr, rfl, filterMap_set hk rfl⟩
                · simp only [Job.read, hr, and_false, if_false]
                  exact ⟨⟨rfl, filterMap_set hk rfl⟩, rfl, filterMap_set hk rfl⟩
        | listStates epoch began =>
            exact ⟨⟨rfl, filterMap_set hk rfl⟩, observeStateList_adapters _ _ _ _,
              filterMap_set hk rfl⟩
        | listAdapters epoch began =>
            exact ⟨⟨observeAdapterList_states _ _ _ _, filterMap_set hk rfl⟩, rfl,
              filterMap_set hk rfl⟩
      · exact absurd h (by simp)
  | finish k =>
      simp only [System.act] at h
      split at h
      · rename_i job rejected hk
        obtain rfl := Option.some.inj h
        simp only [System.stateOccurrence, System.adapterOccurrence, hk]
        cases job with
        | mutateState m deletes =>
            exact ⟨⟨rfl, filterMap_eraseIdx hk⟩, finishStateMutation_adapters _ _ _,
              filterMap_eraseIdx_none hk rfl⟩
        | mutateAdapter m deletes canonical =>
            exact ⟨⟨rfl, filterMap_eraseIdx_none hk rfl⟩, rfl, filterMap_eraseIdx hk⟩
        | listStates epoch began =>
            exact ⟨⟨rfl, filterMap_eraseIdx_none hk rfl⟩, rfl, filterMap_eraseIdx_none hk rfl⟩
        | listAdapters epoch began =>
            exact ⟨⟨rfl, filterMap_eraseIdx_none hk rfl⟩, rfl, filterMap_eraseIdx_none hk rfl⟩
      · exact absurd h (by simp)
  | acquire now bsz session stateId adapterId adapterVersion =>
      simp only [System.act] at h
      split at h
      · exact absurd h (by simp)
      · rename_i b scheduler hacquire
        obtain rfl := Option.some.inj h
        obtain ⟨hstates, hadapters⟩ := acquireWithAdapter_frame hacquire
        exact ⟨⟨hstates, rfl⟩, hadapters, rfl⟩
  | respond k reply =>
      simp only [System.act] at h
      split at h
      · exact absurd h (by simp)
      · rename_i q hk
        obtain rfl := Option.some.inj h
        obtain ⟨hstates, hadapters⟩ := settle_frame q s.scheduler reply
        by_cases hnamed : q.stateId ≠ "" ∨ q.adapterId ≠ ""
        · rcases reply with - | now | ⟨stateGone, adapterGone⟩
          · exact ⟨⟨hstates.trans (by simp), rfl⟩, hadapters.trans (by simp), rfl⟩
          · exact ⟨⟨hstates.trans (by simp), rfl⟩, hadapters.trans (by simp), rfl⟩
          · cases stateGone <;> cases adapterGone <;>
              simp only [System.stateOccurrence, System.adapterOccurrence, hk, hnamed,
                if_true] <;>
              exact ⟨⟨hstates.trans (by simp [hnamed]), rfl⟩,
                hadapters.trans (by simp [hnamed]), rfl⟩
        · rcases reply with - | now | ⟨stateGone, adapterGone⟩
          · exact ⟨⟨hstates.trans (by simp), rfl⟩, hadapters.trans (by simp), rfl⟩
          · exact ⟨⟨hstates.trans (by simp), rfl⟩, hadapters.trans (by simp), rfl⟩
          · cases stateGone <;> cases adapterGone <;>
              simp only [System.stateOccurrence, System.adapterOccurrence, hk, hnamed,
                if_false] <;>
              exact ⟨⟨hstates.trans (by simp [hnamed]), rfl⟩,
                hadapters.trans (by simp [hnamed]), rfl⟩
  | fail b now =>
      simp only [System.act] at h
      split_ifs at h
      obtain rfl := Option.some.inj h
      obtain ⟨hstates, hadapters⟩ := failed_frame s.scheduler b now
      exact ⟨⟨hstates, rfl⟩, hadapters, rfl⟩

theorem step_act (h : s.step e = some s') :
    ∃ t, s.act e = some t ∧ s' = { t with clock := s.clock + 1 } := by
  obtain ⟨t, hact, rfl⟩ := Option.map_eq_some_iff.mp h
  exact ⟨t, hact, rfl⟩

theorem step_clock (h : s.step e = some s') : s'.clock = s.clock + 1 := by
  obtain ⟨t, -, rfl⟩ := step_act h
  rfl

theorem step_states (h : s.step e = some s') : StatesAfter s s' (s.stateOccurrence e) := by
  obtain ⟨t, hact, rfl⟩ := step_act h
  have hafter := (act_after hact).1
  cases hoccurrence : s.stateOccurrence e <;> rw [hoccurrence] at hafter <;> exact hafter

theorem step_adapters (h : s.step e = some s') :
    AdaptersAfter s s' (s.adapterOccurrence e) := by
  obtain ⟨t, hact, rfl⟩ := step_act h
  have hafter := (act_after hact).2
  cases hoccurrence : s.adapterOccurrence e <;> rw [hoccurrence] at hafter <;> exact hafter

end Steps

section Evidence

variable {s s' : System} {e : Event}

/-- The states that a valid list names: `validObservation`. -/
def validStates (r : ResourceResponse) : Option (List ListedState) :=
  match r.failure, decodeStateList r.response.body with
  | none, .ok items => some items
  | _, _ => none

/-- The adapters that a valid list names: `validObservation`. -/
def validAdapters (r : ResourceResponse) : Option (List ListedAdapter) :=
  match r.failure, decodeAdapterList r.response.body with
  | none, .ok items => some items
  | _, _ => none

/-- The information of a list about an id. -/
def listedInfo (items : List ListedState) (id : String) : Option ListedState :=
  items.find? (fun item => item.id = id)

/-- The versions of an id in a list. -/
def listedVersions (items : List ListedAdapter) (id : String) : List String :=
  (items.filter (fun item => item.id = id)).map ListedAdapter.version

/-- A list changes the states when it is valid and the epoch is that of its snapshot. -/
theorem observeStateList_states (s : Scheduler) (epoch : Nat) (r : ResourceResponse) :
    (s.observeStateList r.backend r.response epoch).states =
      match validStates r with
      | none => s.states
      | some items =>
          if s.states.epoch ≠ epoch then s.states
          else
            s.states.observe
              (fun id entry =>
                Scheduler.refreshListed r.backend (listedInfo items id) entry.active
                  (Scheduler.refreshKnown r.backend (listedInfo items id) entry))
              (fun id => (listedInfo items id).map (fun item =>
                Scheduler.refreshListed r.backend (some item) false
                  ⟨noBackend, false, some item⟩)) := by
  unfold Scheduler.observeStateList validStates ResourceResponse.failure
  cases r.response.failure with
  | some e => rfl
  | none =>
      cases decodeStateList r.response.body with
      | error e => rfl
      | ok items =>
          dsimp only
          split_ifs <;> rfl

theorem observeAdapterList_adapters (s : Scheduler) (epoch : Nat) (r : ResourceResponse) :
    (s.observeAdapterList r.backend r.response epoch).adapters =
      match validAdapters r with
      | none => s.adapters
      | some items =>
          if s.adapters.epoch ≠ epoch then s.adapters
          else
            s.adapters.observe
              (fun id entry =>
                Scheduler.addVersions r.backend (listedVersions items id) entry.active
                  (Scheduler.refreshVersions r.backend (listedVersions items id) entry))
              (fun id =>
                if listedVersions items id = [] then none
                else
                  some (Scheduler.addVersions r.backend (listedVersions items id) false
                    AdapterPlacement.blank)) := by
  unfold Scheduler.observeAdapterList validAdapters ResourceResponse.failure
  cases r.response.failure with
  | some e => rfl
  | none =>
      cases decodeAdapterList r.response.body with
      | error e => rfl
      | ok items =>
          dsimp only
          split_ifs <;> rfl

theorem confirmState_spec (s : Scheduler) (b : Nat) (info : ListedState) :
    s.confirmState b info = (s, false) ∨
      ∃ cell, s.states.cells info.id = some cell ∧ cell.value.deleted = false ∧
        (cell.value.signature = none ∨ cell.value.signature = some info) ∧
        (s.confirmState b info).2 = true ∧
        (s.confirmState b info).1.states =
          s.states.modify info.id (fun entry =>
            { entry with
              signature := some info
              ready := Function.update entry.ready b true }) := by
  unfold Scheduler.confirmState
  cases hcell : s.states.cells info.id with
  | none => exact Or.inl rfl
  | some cell =>
      dsimp only
      by_cases hdeleted : cell.value.deleted = true
      · rw [if_pos hdeleted]
        exact Or.inl rfl
      rw [if_neg hdeleted]
      by_cases hsignature : cell.value.signature ≠ none ∧ cell.value.signature ≠ some info
      · rw [if_pos hsignature]
        exact Or.inl rfl
      rw [if_neg hsignature]
      refine Or.inr ⟨cell, rfl, by simpa using hdeleted, ?_, rfl, rfl⟩
      by_contra hnot
      exact hsignature (not_or.mp hnot)

/-- An answer to the upload of a state is refused, or entered. -/
theorem validateStateUpload_spec (id : String) (s : Scheduler) (r : ResourceResponse) :
    ((validateStateUpload id s r).2 ≠ none ∧ (validateStateUpload id s r).1 = s) ∨
      ∃ info cell, r.response.body.state = some info ∧ info.id = id ∧
        s.states.cells id = some cell ∧ cell.value.deleted = false ∧
        (cell.value.signature = none ∨ cell.value.signature = some info) ∧
        (validateStateUpload id s r).2 = none ∧
        (validateStateUpload id s r).1.states =
          s.states.modify id (fun entry =>
            { entry with
              signature := some info
              ready := Function.update entry.ready r.backend true }) := by
  unfold validateStateUpload
  cases r.response.body.state with
  | none => exact Or.inl ⟨by simp, rfl⟩
  | some info =>
      dsimp only
      by_cases hid : info.id = id
      · subst hid
        rw [if_neg (fun h => h rfl)]
        rcases confirmState_spec s r.backend info with
          hrefused | ⟨cell, hcell, hdeleted, hsignature, hconfirmed, hstates⟩
        · rw [hrefused]
          exact Or.inl ⟨by simp, rfl⟩
        · refine Or.inr ⟨info, cell, rfl, rfl, hcell, hdeleted, hsignature, ?_, hstates⟩
          exact if_pos hconfirmed
      · rw [if_pos hid]
        exact Or.inl ⟨by simp, rfl⟩

/-- What the upload of a version makes of the placement. -/
def confirmedVersion (version : String) (b : Nat) (e : AdapterPlacement) : AdapterPlacement :=
  { (e.addVersion version).setReady version b true with
    current := version
    deletedVersions := Function.update e.deletedVersions version false }

/-- An answer to the upload of an adapter is refused, or entered. -/
theorem validateAdapterUpload_spec (m : AdapterMutation) (p : Scheduler × String)
    (r : ResourceResponse) :
    ((validateAdapterUpload m p r).2 ≠ none ∧ (validateAdapterUpload m p r).1.1 = p.1) ∨
      ∃ version, version ≠ "" ∧ r.response.body.adapter = some (m.id, version) ∧
        (validateAdapterUpload m p r).2 = none ∧
        (validateAdapterUpload m p r).1.1.adapters =
          p.1.adapters.modifyOwn m (confirmedVersion version r.backend) := by
  unfold validateAdapterUpload
  cases hadapter : r.response.body.adapter with
  | none => exact Or.inl ⟨by simp, rfl⟩
  | some identity =>
      obtain ⟨id, version⟩ := identity
      dsimp only
      by_cases hidentity : id ≠ m.id ∨ version = ""
      · rw [if_pos hidentity]
        exact Or.inl ⟨by simp, rfl⟩
      rw [if_neg hidentity]
      obtain ⟨hid, hversion⟩ := not_or.mp hidentity
      obtain rfl := Classical.not_not.mp hid
      by_cases hdiffers : p.2 ≠ "" ∧ p.2 ≠ version
      · rw [if_pos hdiffers]
        exact Or.inl ⟨by simp, rfl⟩
      · rw [if_neg hdiffers]
        exact Or.inr ⟨version, hversion, rfl, rfl, rfl⟩

end Evidence

section Invariant

variable {s s' : System} {e : Event}

/-- Each mutation in progress owns the entry under its id. -/
structure GuardedSystem (s : System) : Prop where
  states : Guarded s.scheduler.states s.stateMutations
  adapters : Guarded s.scheduler.adapters s.adapterMutations
  named : ∀ m ∈ s.stateMutations, m.id ≠ ""

theorem guarded_start (backends : List Backend) (cooldown : Nat) :
    GuardedSystem (System.start backends cooldown) :=
  ⟨guarded_empty, guarded_empty, by simp [System.start, System.stateMutations]⟩

theorem guarded_statesAfter {o : StateOccurrence} (hs : GuardedSystem s)
    (h : StatesAfter s s' o) :
    Guarded s'.scheduler.states s'.stateMutations ∧ ∀ m ∈ s'.stateMutations, m.id ≠ "" := by
  cases o with
  | nothing =>
      obtain ⟨hstates, hmutations⟩ := h
      rw [hstates, hmutations]
      exact ⟨hs.states, hs.named⟩
  | begun id deletes =>
      obtain ⟨m, hid, hbegin, hmutations⟩ := h
      rw [hmutations]
      refine ⟨guarded_begin hs.states hbegin, ?_⟩
      obtain ⟨-, rfl, -⟩ := begin_eq_some.mp hbegin
      exact List.forall_mem_cons.mpr ⟨hid, hs.named⟩
  | acknowledged m r =>
      obtain ⟨-, -, hstates, hmutations⟩ := h
      rw [hstates, hmutations]
      refine ⟨?_, hs.named⟩
      rcases validateStateUpload_spec m.id s.scheduler r with
        ⟨-, hsame⟩ | ⟨info, cell, -, -, -, -, -, -, hmodify⟩
      · rw [hsame]
        exact hs.states
      · rw [hmodify]
        exact guarded_modify hs.states _ _
  | observed epoch began r =>
      obtain ⟨hstates, hmutations⟩ := h
      rw [hstates, hmutations, observeStateList_states]
      refine ⟨?_, hs.named⟩
      split
      · exact hs.states
      · split_ifs
        · exact hs.states
        · exact guarded_observe hs.states _ _
  | finished m rollback =>
      obtain ⟨hstates, hperm⟩ := h
      have hid : m.id ≠ "" := hs.named m (hperm.mem_iff.mpr List.mem_cons_self)
      rw [hstates]
      unfold Scheduler.finishStateMutation
      rw [if_neg hid]
      refine ⟨guarded_finish (hs.states.perm hperm) rollback, fun m' hm' => ?_⟩
      exact hs.named m' (hperm.mem_iff.mpr (List.mem_cons_of_mem m hm'))
  | notFound id b =>
      obtain ⟨hstates, hmutations⟩ := h
      rw [hstates, hmutations]
      dsimp only [Scheduler.stateUnavailable]
      exact ⟨guarded_modify hs.states _ _, hs.named⟩

theorem guarded_adaptersAfter {o : AdapterOccurrence} (hs : GuardedSystem s)
    (h : AdaptersAfter s s' o) : Guarded s'.scheduler.adapters s'.adapterMutations := by
  cases o with
  | nothing =>
      obtain ⟨hadapters, hmutations⟩ := h
      rw [hadapters, hmutations]
      exact hs.adapters
  | begun id =>
      obtain ⟨m, -, hbegin, hmutations⟩ := h
      rw [hmutations]
      exact guarded_begin hs.adapters hbegin
  | entered m version =>
      obtain ⟨-, hadapters, hmutations⟩ := h
      rw [hadapters, hmutations]
      exact guarded_modifyOwn hs.adapters _ _
  | acknowledged m canonical r =>
      obtain ⟨-, -, hadapters, hmutations⟩ := h
      rw [hadapters, hmutations]
      rcases validateAdapterUpload_spec m (s.scheduler, canonical) r with
        ⟨-, hsame⟩ | ⟨version, -, -, -, hmodify⟩
      · rw [hsame]
        exact hs.adapters
      · rw [hmodify]
        exact guarded_modifyOwn hs.adapters _ _
  | observed epoch began r =>
      obtain ⟨hadapters, hmutations⟩ := h
      rw [hadapters, hmutations, observeAdapterList_adapters]
      split
      · exact hs.adapters
      · split_ifs
        · exact hs.adapters
        · exact guarded_observe hs.adapters _ _
  | finished m deletes rollback =>
      obtain ⟨hadapters, hperm⟩ := h
      rw [hadapters]
      exact guarded_finish (hs.adapters.perm hperm) rollback
  | notFound id version b =>
      obtain ⟨hadapters, hmutations⟩ := h
      rw [hadapters, hmutations]
      dsimp only [Scheduler.adapterUnavailable]
      exact guarded_modify hs.adapters _ _

theorem guarded_step (hs : GuardedSystem s) (h : s.step e = some s') : GuardedSystem s' := by
  obtain ⟨hguarded, hnamed⟩ := guarded_statesAfter hs (step_states h)
  exact ⟨hguarded, guarded_adaptersAfter hs (step_adapters h), hnamed⟩

end Invariant

section Unique

/-- Members with the same image under an injective partial map are the same. -/
theorem eq_of_nodup_filterMap {α β : Type} {f : α → Option β} {l : List α}
    (hnodup : (l.filterMap f).Nodup) {x y : α} (hx : x ∈ l) (hy : y ∈ l) {b : β}
    (hfx : f x = some b) (hfy : f y = some b) : x = y := by
  induction l with
  | nil => exact absurd hx (by simp)
  | cons a l ih =>
      have hmem : ∀ z ∈ l, f z = some b → b ∈ l.filterMap f :=
        fun z hz hfz => List.mem_filterMap.mpr ⟨z, hz, hfz⟩
      rcases List.mem_cons.mp hx with rfl | hx'
      · rcases List.mem_cons.mp hy with rfl | hy'
        · rfl
        · rw [List.filterMap_cons_some hfx, List.nodup_cons] at hnodup
          exact absurd (hmem y hy' hfy) hnodup.1
      · rcases List.mem_cons.mp hy with rfl | hy'
        · rw [List.filterMap_cons_some hfy, List.nodup_cons] at hnodup
          exact absurd (hmem x hx' hfx) hnodup.1
        · refine ih (hnodup.sublist ?_) hx' hy'
          exact (List.sublist_cons_self a l).filterMap f

/-- Two handlers that mutate one adapter are the same. -/
theorem adapterHandler_unique {s : System} (hs : GuardedSystem s) {x y : Handler}
    (hx : x ∈ s.handlers) (hy : y ∈ s.handlers) {m m' : AdapterMutation}
    (hm : System.adapterMutation x = some m) (hm' : System.adapterMutation y = some m')
    (hid : m.id = m'.id) : x = y := by
  have hmem : m ∈ s.adapterMutations := List.mem_filterMap.mpr ⟨x, hx, hm⟩
  have hmem' : m' ∈ s.adapterMutations := List.mem_filterMap.mpr ⟨y, hy, hm'⟩
  have hcurrent := hs.adapters.current_eq hmem hmem' hid
  have hnodup := hs.adapters.serials
  unfold System.adapterMutations at hnodup
  rw [List.map_filterMap] at hnodup
  refine eq_of_nodup_filterMap hnodup hx hy (b := m.current) ?_ ?_
  · rw [hm, Option.map_some]
  · rw [hm', Option.map_some, hcurrent]

end Unique

section Lists

variable {s s' : System} {e : Event}

/-- Where a handler comes from that is there after an event. -/
inductive HandlerStep (s : System) (e : Event) (x : Handler) : Prop
  | kept (hx : x ∈ s.handlers)
  | mutatesState (m : StateMutation) (deletes : Bool)
      (hx : x = ⟨.mutateState m deletes, .entered⟩)
  | mutatesAdapter (m : AdapterMutation) (deletes : Option String)
      (hx : x = ⟨.mutateAdapter m deletes "", if deletes = none then .entered else .prepared⟩)
  | listsStates (he : e = .listStates)
      (hx : x = ⟨.listStates s.scheduler.states.epoch s.clock, .entered⟩)
  | listsAdapters (he : e = .listAdapters)
      (hx : x = ⟨.listAdapters s.scheduler.adapters.epoch s.clock, .entered⟩)
  | enters (k : Nat) (m : AdapterMutation) (version canonical : String)
      (he : e = .enterDeletion k)
      (hk : s.handlers[k]? = some ⟨.mutateAdapter m (some version) canonical, .prepared⟩)
      (hx : x = ⟨.mutateAdapter m (some version) canonical, .entered⟩)
  | moves (y : Handler) (hy : y ∈ s.handlers) (hphase : y.phase ≠ .prepared)
      (hx : x.job = y.job)
  | reads (k : Nat) (job : Job) (rejected : Bool) (r : ResourceResponse)
      (todo : List ResourceResponse) (he : e = .next k)
      (hk : s.handlers[k]? = some ⟨job, .answered rejected (r :: todo)⟩)
      (hx : x = ⟨(job.read s.scheduler r).2, .answered rejected todo⟩)

theorem handler_act (h : s.act e = some s') {x : Handler} (hx : x ∈ s'.handlers) :
    HandlerStep s e x := by
  cases e with
  | beginState id deletes =>
      simp only [System.act] at h
      split at h
      · exact absurd h (by simp)
      · rename_i scheduler m hbegin
        obtain rfl := Option.some.inj h
        rcases List.mem_cons.mp hx with hnew | hmem
        · exact .mutatesState m deletes hnew
        · exact .kept hmem
  | beginAdapter id deletes =>
      simp only [System.act] at h
      by_cases hid : id = ""
      · rw [if_pos hid] at h
        exact absurd h (by simp)
      rw [if_neg hid] at h
      split at h
      · exact absurd h (by simp)
      · rename_i scheduler m hbegin
        obtain rfl := Option.some.inj h
        rcases List.mem_cons.mp hx with hnew | hmem
        · exact .mutatesAdapter m deletes hnew
        · exact .kept hmem
  | enterDeletion k =>
      simp only [System.act] at h
      split at h
      · rename_i m version canonical hk
        obtain rfl := Option.some.inj h
        rcases List.mem_or_eq_of_mem_set hx with hmem | hnew
        · exact .kept hmem
        · exact .enters k m version canonical rfl hk hnew
      · exact absurd h (by simp)
  | listStates =>
      obtain rfl := Option.some.inj h
      rcases List.mem_cons.mp hx with hnew | hmem
      · exact .listsStates rfl hnew
      · exact .kept hmem
  | listAdapters =>
      obtain rfl := Option.some.inj h
      rcases List.mem_cons.mp hx with hnew | hmem
      · exact .listsAdapters rfl hnew
      · exact .kept hmem
  | send k =>
      simp only [System.act] at h
      split at h
      · rename_i job hk
        obtain rfl := Option.some.inj h
        rcases List.mem_or_eq_of_mem_set hx with hmem | rfl
        · exact .kept hmem
        · exact .moves _ (List.mem_of_getElem? hk) (by simp) rfl
      · exact absurd h (by simp)
  | answer k results =>
      simp only [System.act] at h
      split at h
      · rename_i job hk
        split_ifs at h
        obtain rfl := Option.some.inj h
        rcases List.mem_or_eq_of_mem_set hx with hmem | rfl
        · exact .kept hmem
        · exact .moves _ (List.mem_of_getElem? hk) (by simp) rfl
      · exact absurd h (by simp)
  | next k =>
      simp only [System.act] at h
      split at h
      · rename_i job rejected r todo hk
        obtain rfl := Option.some.inj h
        rcases List.mem_or_eq_of_mem_set hx with hmem | hnew
        · exact .kept hmem
        · exact .reads k job rejected r todo rfl hk hnew
      · exact absurd h (by simp)
  | finish k =>
      simp only [System.act] at h
      split at h
      · obtain rfl := Option.some.inj h
        exact .kept (List.mem_of_mem_eraseIdx hx)
      · exact absurd h (by simp)
  | acquire now bsz session stateId adapterId adapterVersion =>
      simp only [System.act] at h
      split at h
      · exact absurd h (by simp)
      · obtain rfl := Option.some.inj h
        exact .kept hx
  | respond k reply =>
      simp only [System.act] at h
      split at h
      · exact absurd h (by simp)
      · obtain rfl := Option.some.inj h
        exact .kept hx
  | fail b now =>
      simp only [System.act] at h
      split_ifs at h
      obtain rfl := Option.some.inj h
      exact .kept hx

theorem handler_step (h : s.step e = some s') {x : Handler} (hx : x ∈ s'.handlers) :
    HandlerStep s e x := by
  obtain ⟨t, hact, rfl⟩ := step_act h
  exact handler_act hact hx

/-- A list in progress: the epoch of its snapshot, and when it was taken. -/
inductive Listing where
  | states (epoch began : Nat)
  | adapters (epoch began : Nat)

/-- The list that a job makes. -/
def Job.listing : Job → Option Listing
  | .listStates epoch began => some (.states epoch began)
  | .listAdapters epoch began => some (.adapters epoch began)
  | _ => none

theorem listing_read (job : Job) (s : Scheduler) (r : ResourceResponse) :
    (job.read s r).2.listing = job.listing := by
  cases job <;> simp only [Job.read] <;> split_ifs <;> rfl

/-- A list in progress was in progress before, or its snapshot is taken now. -/
theorem listing_step (h : s.step e = some s') {x : Handler} (hx : x ∈ s'.handlers)
    {l : Listing} (hl : x.job.listing = some l) :
    (∃ y ∈ s.handlers, y.job.listing = some l) ∨
      (e = .listStates ∧ l = .states s.scheduler.states.epoch s.clock) ∨
      (e = .listAdapters ∧ l = .adapters s.scheduler.adapters.epoch s.clock) := by
  rcases handler_step h hx with hmem | ⟨m, deletes, rfl⟩ | ⟨m, deletes, rfl⟩ |
    ⟨rfl, rfl⟩ | ⟨rfl, rfl⟩ | ⟨k, m, version, canonical, -, -, rfl⟩ | ⟨y, hy, -, hjob⟩ |
    ⟨k, job, rejected, r, todo, -, hk, rfl⟩
  · exact Or.inl ⟨x, hmem, hl⟩
  · exact absurd hl (by simp [Job.listing])
  · exact absurd hl (by simp [Job.listing])
  · exact Or.inr (Or.inl ⟨rfl, (Option.some.inj hl).symm⟩)
  · exact Or.inr (Or.inr ⟨rfl, (Option.some.inj hl).symm⟩)
  · exact absurd hl (by simp [Job.listing])
  · exact Or.inl ⟨y, hy, hjob ▸ hl⟩
  · exact Or.inl ⟨_, List.mem_of_getElem? hk, (listing_read _ _ _).symm.trans hl⟩

/-- An observation is made by a list in progress. -/
theorem listing_of_observed_states {epoch began : Nat} {r : ResourceResponse}
    (h : s.stateOccurrence e = .observed epoch began r) :
    ∃ y ∈ s.handlers, y.job.listing = some (.states epoch began) := by
  cases e with
  | next k =>
      simp only [System.stateOccurrence] at h
      split at h
      · split_ifs at h
      · rename_i hk
        obtain ⟨rfl, rfl, -⟩ := StateOccurrence.observed.inj h
        exact ⟨_, List.mem_of_getElem? hk, rfl⟩
      · exact absurd h (by simp)
  | finish k =>
      simp only [System.stateOccurrence] at h
      split at h <;> exact absurd h (by simp)
  | respond k reply =>
      rcases reply with - | now | ⟨stateGone, adapterGone⟩
      · exact absurd h (by simp [System.stateOccurrence])
      · exact absurd h (by simp [System.stateOccurrence])
      · cases stateGone with
        | false => exact absurd h (by simp [System.stateOccurrence])
        | true =>
            simp only [System.stateOccurrence] at h
            split at h
            · split_ifs at h
            · exact absurd h (by simp)
  | _ => exact absurd h (by simp [System.stateOccurrence])

/-- The handler behind an occurrence. -/
def AdapterOrigin (s : System) : AdapterOccurrence → Prop
  | .entered m version =>
      ∃ x ∈ s.handlers, ∃ canonical,
        x.job = .mutateAdapter m (some version) canonical ∧ x.phase = .prepared
  | .acknowledged m canonical _ => ∃ x ∈ s.handlers, x.job = .mutateAdapter m none canonical
  | .observed epoch began _ =>
      ∃ x ∈ s.handlers, x.job.listing = some (.adapters epoch began)
  | .finished m deletes _ =>
      ∃ x ∈ s.handlers, ∃ canonical,
        x.job = .mutateAdapter m deletes canonical ∧ x.phase ≠ .prepared
  | _ => True

theorem adapterOrigin (s : System) (e : Event) : AdapterOrigin s (s.adapterOccurrence e) := by
  cases e with
  | enterDeletion k =>
      simp only [System.adapterOccurrence]
      split
      · rename_i m version canonical hk
        exact ⟨_, List.mem_of_getElem? hk, canonical, rfl, rfl⟩
      · trivial
  | next k =>
      simp only [System.adapterOccurrence]
      split
      · rename_i hk
        split_ifs
        · exact ⟨_, List.mem_of_getElem? hk, rfl⟩
        · trivial
      · rename_i hk
        exact ⟨_, List.mem_of_getElem? hk, rfl⟩
      · trivial
  | finish k =>
      simp only [System.adapterOccurrence]
      split
      · rename_i m deletes canonical rejected hk
        exact ⟨_, List.mem_of_getElem? hk, canonical, rfl, by simp⟩
      · trivial
  | respond k reply =>
      rcases reply with - | now | ⟨stateGone, adapterGone⟩
      · trivial
      · trivial
      · cases adapterGone with
        | false => trivial
        | true =>
            simp only [System.adapterOccurrence]
            split
            · split_ifs <;> trivial
            · trivial
  | _ => trivial

end Lists

end Router
end RwkvLightning

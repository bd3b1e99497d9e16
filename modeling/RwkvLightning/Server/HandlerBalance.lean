import RwkvLightning.Library.Slots
import RwkvLightning.Library.Execution
import RwkvLightning.Server.HandlerExits
import Mathlib

/-!
# Every started request is finished

Which requests call `finish` once after `start` and as their last action, and what the list
of active requests is when all of them do.

**Results.**
* `Fate.Guarded`: no exception leaves the handler past its `finish`.
* `settled_code`: a handler ends with `finish` exactly for a guarded request.
* `registry_exact_iff`: the list of active requests is right in every run of some requests
  exactly when they are all guarded.
* `temperature_leaks`: a chat that is not streamed and whose generation throws.
-/

namespace RwkvLightning
namespace HandlerExits

open Command Execution Slots

section Status

/-- Where the registry stands with a request. -/
inductive Status where
  | idle | started | finished | broken
deriving DecidableEq, Repr

def Status.next : Status → Action → Status
  | .idle, .call _ => .idle
  | .idle, .start => .started
  | .started, .call _ | .started, .putPaused => .started
  | .started, .finish => .finished
  | _, _ => .broken

def Status.run (status : Status) (log : List Action) : Status :=
  log.foldl Status.next status

/-- What was done leaves this status. -/
def At (status : Status) (log : List Action) : Prop :=
  Status.idle.run log = status

/-- `start` is followed by one `finish`, which is the last action. -/
def Balanced (log : List Action) : Prop :=
  At .idle log ∨ At .finished log

/-- The request is finished where `g` holds, and stays active elsewhere. -/
def Settled (g : Prop) (log : List Action) : Prop :=
  (g → At .finished log) ∧ (¬g → At .started log)

end Status

section Conditions

variable (f : Fate)

/-- What the first failing call of these throws. -/
def Fate.first (calls : List Call) : Option Thrown :=
  calls.findSome? f.thrown

/-- The calls of `pause`. -/
def Fate.pauseCalls : List Call :=
  if f.pauseRequested then [.save] else []

/-- The calls of a streamed generation that is admitted. -/
def Fate.taskCalls : Route → List Call
  | .chat => [.requestState, .bindAdapter, .prefill, .generate] ++ f.pauseCalls
  | .session => [.requestState, .generate, .save]
  | .batch => [.requestState, .generate]
  | .resume => .generate :: f.pauseCalls

/-- The calls of a streaming job. -/
def Fate.jobCalls (route : Route) : List Call :=
  .selectDevice :: .acquire :: (if f.denied then [] else f.taskCalls route) ++ [.finishReasons]

/-- A job runs, and throws nothing but a `std::exception`. -/
def Fate.StreamGuarded (route : Route) : Prop :=
  f.produced = true ∧ f.first (f.jobCalls route) ≠ some .other

/--
Where nothing is streamed, `acquire` throws nothing but `PrefillBatchLimitExceeded`, the
guarded calls nothing but a `std::exception`, and the calls after them nothing.
-/
def Fate.PlainGuarded (guarded rest : List Call) : Prop :=
  match f.thrown .acquire with
  | some e => e = .prefillLimit
  | none =>
      f.denied = true ∨
        match f.first guarded with
        | some e => e ≠ .other
        | none => f.first rest = none

/-- What is read of the body after `start` can be read, and what follows is guarded. -/
def Fate.BodyGuarded (route : Route) (plain : Prop) : Prop :=
  f.thrown .stream = none ∧
    if f.streams then f.thrown .chunkSize = none ∧ f.StreamGuarded route else plain

/-- No exception leaves the handler between `start` and `finish`. -/
def Fate.Guarded : Route → Prop
  | .chat => f.thrown .beforeStart ≠ none ∨ f.BodyGuarded .chat
      (f.PlainGuarded [.requestState] ([.bindAdapter, .prefill, .chunkSize, .generate] ++
        f.pauseCalls))
  | .session => f.thrown .beforeStart ≠ none ∨ f.BodyGuarded .session
      (f.PlainGuarded [.requestState] [.generate, .save, .choices])
  | .batch => f.thrown .beforeStart ≠ none ∨ f.BodyGuarded .batch
      (f.PlainGuarded [.requestState, .chunkSize, .generate] [.choices])
  | .resume => f.thrown .beforeStart ≠ none ∨ f.StreamGuarded .resume

end Conditions

section Quiet

variable {f : Fate} {β γ : Type}

theorem at_append {status : Status} {log : List Action} (h : At status log) (a : Action) :
    At (status.next a) (log ++ [a]) := by
  unfold At Status.run at *
  rw [List.foldl_append, h]
  rfl

theorem first_append (calls calls' : List Call) :
    f.first (calls ++ calls') = (f.first calls).or (f.first calls') := by
  rw [Fate.first, List.findSome?_append]
  rfl

/-- Code that leaves a started request as it is, makes these calls and gives `b`. -/
def Quiet (f : Fate) (c : Code β) (calls : List Call) (b : β) : Prop :=
  Triple (At .started) c (fun b' log => f.first calls = none ∧ b' = b ∧ At .started log)
    (fun e log => f.first calls = some e ∧ At .started log)

theorem quiet_pure (b : β) : Quiet f (pure b) [] b :=
  triple_pure fun _ hlog => ⟨rfl, rfl, hlog⟩

theorem quiet_act {a : Action} (ha : Status.started.next a = .started) :
    Quiet f (act a) [] ⟨⟩ :=
  triple_modify fun _ hlog => ⟨rfl, rfl, ha ▸ at_append hlog a⟩

theorem quiet_bind {c : Code β} {k : β → Code γ} {calls calls' : List Call} {b : β} {b' : γ}
    (hc : Quiet f c calls b) (hk : Quiet f (k b) calls' b') :
    Quiet f (c >>= k) (calls ++ calls') b' := by
  refine triple_bind (triple_weaken hc (fun _ h => h) (fun _ _ h => h) ?_) (fun v => ?_)
  · rintro e log ⟨hfirst, hlog⟩
    exact ⟨by rw [first_append, hfirst]; rfl, hlog⟩
  · rintro log ⟨hfirst, rfl, hlog⟩
    have hsame : f.first (calls ++ calls') = f.first calls' := by
      rw [first_append, hfirst, Option.none_or]
    rw [hsame]
    exact hk log hlog

theorem first_singleton (c : Call) : f.first [c] = f.thrown c := by
  simp [Fate.first]

theorem quiet_call (c : Call) : Quiet f (f.call c) [c] ⟨⟩ := by
  have hfirst := @first_singleton f c
  refine triple_bind (Q := fun _ => At .started)
    (triple_modify fun log hlog => at_append hlog (.call c)) (fun _ => ?_)
  cases hthrown : f.thrown c with
  | none => exact triple_pure fun log hlog => ⟨hfirst.trans hthrown, rfl, hlog⟩
  | some e => exact triple_fail fun log hlog => ⟨hfirst.trans hthrown, hlog⟩

theorem quiet_seq {c : Code PUnit} {k : Code β} {calls calls' : List Call} {b : β}
    (hc : Quiet f c calls ⟨⟩) (hk : Quiet f k calls' b) :
    Quiet f (c >>= fun _ => k) (calls ++ calls') b :=
  quiet_bind hc hk

/-- A call, and what follows it. -/
theorem quiet_then (c : Call) {k : Code β} {calls : List Call} {b : β} (hk : Quiet f k calls b) :
    Quiet f (f.call c >>= fun _ => k) (c :: calls) b :=
  quiet_seq (quiet_call c) hk

theorem quiet_ite {c : Prop} [Decidable c] {x y : Code β} {calls calls' : List Call} {b : β}
    (hx : Quiet f x calls b) (hy : Quiet f y calls' b) :
    Quiet f (if c then x else y) (if c then calls else calls') b := by
  by_cases hc : c
  · simp only [if_pos hc]
    exact hx
  · simp only [if_neg hc]
    exact hy

theorem quiet_pause : Quiet f f.pause f.pauseCalls PUnit.unit :=
  quiet_ite (quiet_then .save (quiet_act rfl)) (quiet_pure PUnit.unit)

/-- The tasks of the streaming jobs. -/
def Route.task (f : Fate) : Route → Code PUnit
  | .chat => f.chatTask
  | .session => f.sessionTask
  | .batch => f.batchTask
  | .resume => f.resumeTask

theorem quiet_task (route : Route) :
    Quiet f (route.task f) (.acquire :: if f.denied then [] else f.taskCalls route)
      PUnit.unit := by
  have hadmitted : ∀ {c : Code PUnit}, Quiet f c (f.taskCalls route) PUnit.unit →
      Quiet f (f.call .acquire >>= fun _ => if f.denied then pure PUnit.unit else c)
        (.acquire :: if f.denied then [] else f.taskCalls route) PUnit.unit := fun hc =>
    quiet_then .acquire (quiet_ite (quiet_pure PUnit.unit) hc)
  cases route with
  | chat =>
      exact hadmitted (quiet_then .requestState (quiet_then .bindAdapter
        (quiet_then .prefill (quiet_then .generate quiet_pause))))
  | session =>
      exact hadmitted (quiet_then .requestState (quiet_then .generate (quiet_call .save)))
  | batch => exact hadmitted (quiet_then .requestState (quiet_call .generate))
  | resume => exact hadmitted (quiet_then .generate quiet_pause)

end Quiet

section Settling

variable {f : Fate} {g : Prop} {β : Type}

/-- A started request is settled by this code. -/
def Settles (g : Prop) (c : Code β) : Prop :=
  Triple (At .started) c (fun _ => Settled g) (fun _ => Settled g)

theorem settled_finished {log : List Action} (hg : g) (h : At .finished log) : Settled g log :=
  ⟨fun _ => h, fun hnot => absurd hg hnot⟩

theorem settled_started {log : List Action} (hg : ¬g) (h : At .started log) : Settled g log :=
  ⟨fun hyes => absurd hyes hg, fun _ => h⟩

theorem settles_congr {g' : Prop} {c : Code β} (hg : g ↔ g') (h : Settles g c) :
    Settles g' c := by
  rw [← propext hg]
  exact h

/-- A job of `start_streaming_task` that these calls belong to. -/
theorem settles_streaming {task : Code PUnit} {calls : List Call} (htask : Quiet f task calls ⟨⟩) :
    Settles (f.produced = true ∧
        f.first (.selectDevice :: calls ++ [.finishReasons]) ≠ some .other)
      (f.startStreamingTask task) := by
  have hjob : Quiet f (f.call .selectDevice >>= fun _ => task >>= fun _ => f.call .finishReasons)
      (.selectDevice :: calls ++ [.finishReasons]) ⟨⟩ :=
    quiet_then .selectDevice (quiet_seq htask (quiet_call .finishReasons))
  unfold Fate.startStreamingTask
  refine triple_ite (fun hproduced => ?_) (fun hproduced => ?_)
  · refine triple_rescue (?_ : Triple _ _ _ fun _ log =>
      f.first (.selectDevice :: calls ++ [.finishReasons]) = some .other ∧ At .started log) ?_
    · refine triple_bind (Q := fun _ log => f.first (.selectDevice :: calls ++ [.finishReasons]) ≠
        some .other ∧ At .started log) ?_ ?_
      · refine triple_rescue (triple_weaken hjob (fun _ h => h) ?_ (fun _ _ h => h)) (fun e => ?_)
        · rintro - log ⟨hfirst, -, hlog⟩
          exact ⟨fun hother => absurd (hfirst.symm.trans hother) (by simp), hlog⟩
        · refine triple_ite (fun he => ?_) (fun he => ?_)
          · exact triple_fail fun log hlog => ⟨he ▸ hlog.1, hlog.2⟩
          · refine triple_pure fun log hlog => ⟨fun hother => he ?_, hlog.2⟩
            exact Option.some.inj (hlog.1.symm.trans hother)
      · rintro -
        exact triple_modify fun log hlog =>
          settled_finished ⟨hproduced, hlog.1⟩ (at_append hlog.2 .finish)
    · rintro -
      exact triple_pure fun log hlog => settled_started (fun hg => hg.2 hlog.1) hlog.2
  · exact triple_pure fun log hlog => settled_started (fun hg => hproduced hg.1) hlog

theorem settles_finish : Settles (f.first [] = none) (act .finish) :=
  triple_modify fun _ hlog => settled_finished rfl (at_append hlog .finish)

/-- Unguarded calls before what settles the request. -/
theorem settles_bind {c : Code PUnit} {k : Code β} {calls : List Call} (hc : Quiet f c calls ⟨⟩)
    (hk : Settles g k) : Settles (f.first calls = none ∧ g) (c >>= fun _ => k) := by
  refine triple_bind (triple_weaken hc (fun _ h => h) (fun _ _ h => h) ?_) (fun _ => ?_)
  · rintro e log ⟨hfirst, hlog⟩
    exact settled_started (fun hg => absurd (hfirst.symm.trans hg.1) (by simp)) hlog
  · rintro log ⟨hfirst, -, hlog⟩
    exact settles_congr (by rw [and_iff_right hfirst]) hk log hlog

theorem settles_seq {c : Code PUnit} {k : Code β} {calls calls' : List Call}
    (hc : Quiet f c calls ⟨⟩) (hk : Settles (f.first calls' = none) k) :
    Settles (f.first (calls ++ calls') = none) (c >>= fun _ => k) :=
  settles_congr (by rw [first_append, Option.or_eq_none_iff]) (settles_bind hc hk)

theorem settles_then (c : Call) {k : Code β} {calls : List Call}
    (hk : Settles (f.first calls = none) k) :
    Settles (f.first (c :: calls) = none) (f.call c >>= fun _ => k) :=
  settles_seq (quiet_call c) hk

/-- The request is finished and `g` holds, or the handler goes on and has to meet `rest`. -/
def Offers (g rest : Prop) (c : Code Bool) : Prop :=
  Triple (At .started) c
    (fun goes log => if goes then At .started log ∧ (g ↔ rest) else At .finished log ∧ g)
    (fun _ log => At .started log ∧ ¬g)

theorem settles_offer {rest : Prop} {c : Code Bool} {k : Code PUnit} (hc : Offers g rest c)
    (hk : Settles rest k) : Settles g (c >>= fun goes => if goes then k else pure ⟨⟩) := by
  refine triple_bind (triple_weaken hc (fun _ h => h) (fun _ _ h => h) ?_) (fun goes => ?_)
  · exact fun _ log h => settled_started h.2 h.1
  · cases goes with
    | true => exact fun log h => settles_congr h.2.symm hk log h.1
    | false => exact triple_pure fun log h => settled_finished h.2 h.1

/-- A `try` whose handler finishes the request, for the exceptions that it catches. -/
theorem offers_attempt {c : Code Bool} {calls : List Call} (caught : Thrown → Prop)
    (handler : Thrown → Code Bool) (rest : Prop) (hc : Quiet f c calls true)
    (hcaught : ∀ e, caught e → handler e = act .finish >>= fun _ => pure false)
    (hpassed : ∀ e, ¬caught e → handler e = fail e) :
    Offers (match f.first calls with | some e => caught e | none => rest) rest
      (rescue c handler) := by
  refine triple_rescue (triple_weaken hc (fun _ h => h) ?_ (fun _ _ h => h)) (fun e => ?_)
  · rintro goes log ⟨hfirst, rfl, hlog⟩
    simp only [if_true, hfirst]
    exact ⟨hlog, trivial⟩
  · by_cases he : caught e
    · rw [hcaught e he]
      refine triple_bind (Q := fun _ log => f.first calls = some e ∧ At .finished log)
        (triple_modify fun log hlog => ⟨hlog.1, at_append hlog.2 .finish⟩) (fun _ => ?_)
      refine triple_pure fun log hlog => ?_
      simp only [Bool.false_eq_true, if_false, hlog.1]
      exact ⟨hlog.2, he⟩
    · rw [hpassed e he]
      refine triple_fail fun log hlog => ?_
      simp only [hlog.1]
      exact ⟨hlog.2, he⟩

/-- A `try` around these calls that catches every `std::exception`. -/
theorem offers_catchStandard {c : Code Bool} {calls : List Call} (rest : Prop)
    (hc : Quiet f c calls true) :
    Offers (match f.first calls with | some e => e ≠ .other | none => rest) rest
      (catchStandard c (act .finish >>= fun _ => pure false)) :=
  offers_attempt (· ≠ .other) _ rest hc (fun _ he => if_neg he)
    (fun _ he => if_pos (not_not.mp he))

/-- `acquire` and its two answers. -/
theorem offers_acquirePermit (rest : Prop) :
    Offers (match f.thrown .acquire with
      | some e => e = .prefillLimit
      | none => f.denied = true ∨ rest) rest f.acquirePermit := by
  have hquiet : Quiet f (f.call .acquire >>= fun _ => pure true) [.acquire] true :=
    quiet_then .acquire (quiet_pure true)
  have hattempt := offers_attempt (· = Thrown.prefillLimit)
    (fun e => if e = .prefillLimit then act .finish >>= fun _ => pure false else fail e)
    (f.denied = true ∨ rest) hquiet (fun _ he => if_pos he) (fun _ he => if_neg he)
  rw [first_singleton] at hattempt
  refine triple_bind hattempt (fun answered => ?_)
  cases answered with
  | false => exact triple_pure fun log hlog => hlog
  | true =>
      refine triple_ite (fun hdenied => ?_) (fun hdenied => ?_)
      · refine triple_bind (Q := fun _ log => At .finished log ∧
          (match f.thrown .acquire with
            | some e => e = .prefillLimit
            | none => f.denied = true ∨ rest))
          (triple_modify fun log hlog => ?_) (fun _ => triple_pure fun log hlog => hlog)
        exact ⟨at_append hlog.1 .finish, hlog.2.mpr (Or.inl hdenied.2)⟩
      · refine triple_pure fun log hlog => ⟨hlog.1, hlog.2.trans ?_⟩
        exact or_iff_right (fun h => hdenied ⟨rfl, h⟩)

end Settling

section Handlers

variable {f : Fate}

theorem settles_streamed (route : Route) :
    Settles (f.StreamGuarded route) (f.startStreamingTask (route.task f)) :=
  settles_streaming (quiet_task route)

/-- Where nothing is streamed: `acquire`, the guarded calls and the others. -/
theorem settles_plain {c : Code Bool} {k : Code PUnit} {guarded rest : List Call}
    (hc : Quiet f c guarded true) (hk : Settles (f.first rest = none) k) :
    Settles (f.PlainGuarded guarded rest)
      (f.acquirePermit >>= fun admitted => if admitted then
        catchStandard c (act .finish >>= fun _ => pure false) >>= fun ready =>
          if ready then k else pure ⟨⟩
        else pure ⟨⟩) :=
  settles_offer (offers_acquirePermit _) (settles_offer (offers_catchStandard _ hc) hk)

theorem quiet_requestState :
    Quiet f (f.call .requestState >>= fun _ => pure true) [.requestState] true :=
  quiet_then .requestState (quiet_pure true)

theorem settles_chatPlain :
    Settles (f.PlainGuarded [.requestState]
      ([.bindAdapter, .prefill, .chunkSize, .generate] ++ f.pauseCalls)) f.chatPlain := by
  have hpause : Settles (f.first (f.pauseCalls ++ []) = none)
      (f.pause >>= fun _ => act .finish) := settles_seq quiet_pause settles_finish
  rw [List.append_nil] at hpause
  exact settles_plain quiet_requestState (settles_then .bindAdapter (settles_then .prefill
    (settles_then .chunkSize (settles_then .generate hpause))))

theorem settles_sessionPlain :
    Settles (f.PlainGuarded [.requestState] [.generate, .save, .choices]) f.sessionPlain :=
  settles_plain quiet_requestState (settles_then .generate (settles_then .save
    (settles_then .choices settles_finish)))

theorem settles_batchPlain :
    Settles (f.PlainGuarded [.requestState, .chunkSize, .generate] [.choices]) f.batchPlain :=
  settles_plain
    (quiet_then .requestState (quiet_then .chunkSize (quiet_then .generate (quiet_pure true))))
    (settles_then .choices settles_finish)

/-- What a handler does after `start`. -/
theorem settles_body {route : Route} {k : Code PUnit} {plain : Prop} (hk : Settles plain k) :
    Settles (f.BodyGuarded route plain)
      (f.call .stream >>= fun _ =>
        if f.streams then f.call .chunkSize >>= fun _ => f.startStreamingTask (route.task f)
        else k) := by
  have hstreamed : Settles (f.first [.chunkSize] = none ∧ f.StreamGuarded route)
      (f.call .chunkSize >>= fun _ => f.startStreamingTask (route.task f)) :=
    settles_bind (quiet_call .chunkSize) (settles_streamed route)
  rw [first_singleton] at hstreamed
  refine settles_congr (by rw [first_singleton]; rfl) (settles_bind (quiet_call .stream) ?_)
  refine triple_ite (fun hstreams => ?_) (fun hstreams => ?_)
  · exact settles_congr (by rw [if_pos hstreams]) hstreamed
  · exact settles_congr (by rw [if_neg hstreams]) hk

/-- What was done for a request whose handler has ended. -/
def Ended (g : Prop) (log : List Action) : Prop :=
  (g → Balanced log) ∧ (¬g → At .started log)

theorem Settled.ended {g : Prop} {log : List Action} (h : Settled g log) : Ended g log :=
  ⟨fun hg => Or.inr (h.1 hg), h.2⟩

/-- A handler from its beginning. -/
theorem ended_handler {g : Prop} {body : Code PUnit} (h : Settles g body) :
    Triple (At .idle) (f.call .beforeStart >>= fun _ => act .start >>= fun _ => body)
      (fun _ => Ended (f.thrown .beforeStart ≠ none ∨ g))
      (fun _ => Ended (f.thrown .beforeStart ≠ none ∨ g)) := by
  refine triple_bind (Q := fun _ log => f.thrown .beforeStart = none ∧ At .idle log) ?_ ?_
  · refine triple_bind (Q := fun _ => At .idle)
      (triple_modify fun log hlog => at_append hlog (.call .beforeStart)) (fun _ => ?_)
    cases hthrown : f.thrown .beforeStart with
    | none => exact triple_pure fun log hlog => ⟨rfl, hlog⟩
    | some e =>
        exact triple_fail fun log hlog =>
          ⟨fun _ => Or.inl hlog, fun hnot => absurd (Or.inl (by simp)) hnot⟩
  · intro _
    refine triple_bind (Q := fun _ log => f.thrown .beforeStart = none ∧ At .started log)
      (triple_modify fun log hlog => ⟨hlog.1, at_append hlog.2 .start⟩) (fun _ => ?_)
    rintro log ⟨hnone, hlog⟩
    have hsame : g ↔ (f.thrown .beforeStart ≠ none ∨ g) :=
      (or_iff_right (not_not.mpr hnone)).symm
    exact triple_weaken (settles_congr hsame h) (fun _ h => h) (fun _ _ h => h.ended)
      (fun _ _ h => h.ended) log hlog

theorem triple_asynchronousGeneration {R : List Action → Prop} {c : Code PUnit}
    (h : Triple (At .idle) c (fun _ => R) (fun _ => R)) :
    Triple (At .idle) (asynchronousGeneration c) (fun _ => R) (fun _ => R) :=
  triple_rescue h fun _ => triple_ite (fun _ => triple_fail fun _ hlog => hlog)
    (fun _ => triple_pure fun _ hlog => hlog)

/-- A handler ends with `finish` exactly for a guarded request. -/
theorem ended_code (f : Fate) (route : Route) :
    Triple (At .idle) (route.code f) (fun _ => Ended (f.Guarded route))
      (fun _ => Ended (f.Guarded route)) := by
  cases route with
  | chat => exact triple_asynchronousGeneration (ended_handler (settles_body settles_chatPlain))
  | session =>
      exact triple_asynchronousGeneration (ended_handler (settles_body settles_sessionPlain))
  | batch => exact triple_asynchronousGeneration (ended_handler (settles_body settles_batchPlain))
  | resume => exact ended_handler (settles_streamed .resume)

theorem actions_ended (f : Fate) (route : Route) : Ended (f.Guarded route) (f.actions route) := by
  have hend := ended_code f route [] rfl
  rw [Fate.actions]
  cases hcode : route.code f [] with
  | mk r log =>
      rw [hcode] at hend
      cases r with
      | ok _ => exact hend
      | error _ => exact hend

end Handlers

section Registry

/-- The address of a request that has started and has not ended. -/
def Served.inProgress (r : Served) : Option Nat :=
  if r.rest = [] then none else r.address

/-- The address of a request that has ended. -/
def Served.over (r : Served) : Option Nat :=
  if r.rest = [] then r.address else none

/--
The active requests are those in progress, and `finish` was called once for each request
that has started and ended, and for no other.
-/
structure Exact (s : System) : Prop where
  active : s.active.Perm (held Served.inProgress s.served)
  finished : s.finished.Perm (held Served.over s.served)
  distinct : (held Served.address s.served).Nodup

/-- What is still to be done for a request leaves it balanced. -/
def Served.Balanced (r : Served) : Prop :=
  match r.address with
  | none => Status.idle.run r.rest = .idle ∨ Status.idle.run r.rest = .finished
  | some _ => r.rest = [] ∨ Status.started.run r.rest = .finished

structure Inv (s : System) : Prop extends Exact s where
  fresh : ∀ a ∈ held Served.address s.served, a < s.next
  balanced : ∀ r ∈ s.served, r.Balanced

theorem run_broken (log : List Action) : Status.broken.run log = .broken := by
  induction log with
  | nil => rfl
  | cons a log ih =>
      rw [Status.run, List.foldl_cons]
      exact ih

theorem run_finished {log : List Action} (h : Status.finished.run log = .finished) : log = [] := by
  cases log with
  | nil => rfl
  | cons a log =>
      rw [Status.run, List.foldl_cons] at h
      exact nomatch (run_broken log).symm.trans h

theorem run_started (log : List Action) : Status.started.run log ≠ .idle := by
  induction log with
  | nil => exact fun h => nomatch h
  | cons a log ih =>
      rw [Status.run, List.foldl_cons]
      cases a with
      | call | putPaused => exact ih
      | start => exact fun h => nomatch (run_broken log).symm.trans h
      | finish =>
          intro h
          cases log with
          | nil => exact nomatch h
          | cons b log => exact nomatch (run_broken log).symm.trans h

variable {s s' : System} {k : Nat} {r : Served} {rest : List Action}

theorem inv_new : Inv .new where
  active := List.Perm.refl _
  finished := List.Perm.refl _
  distinct := List.nodup_nil
  fresh := fun _ ha => nomatch ha
  balanced := fun _ hr => nomatch hr

theorem inv_arrive (hs : Inv s) {route : Route} {f : Fate} (hguarded : f.Guarded route) :
    Inv (s.arrive route f) := by
  have hkept : ∀ get : Served → Option Nat, get ⟨f.actions route, none⟩ = none →
      held get (s.arrive route f).served = held get s.served := by
    intro get hget
    show held get (s.served ++ [_]) = _
    rw [held_append_singleton, hget, Option.toList_none, List.append_nil]
  have hbalanced := (actions_ended f route).1 hguarded
  refine
    { active := by rw [hkept _ (by simp [Served.inProgress])]; exact hs.active
      finished := by rw [hkept _ (by simp [Served.over])]; exact hs.finished
      distinct := by rw [hkept _ rfl]; exact hs.distinct
      fresh := by rw [hkept _ rfl]; exact hs.fresh
      balanced := fun r hr => ?_ }
  rcases List.mem_append.mp hr with hold | hnew
  · exact hs.balanced r hold
  · rw [List.mem_singleton.mp hnew]
    exact hbalanced

/-- What every action does to the requests. -/
theorem balanced_set (hs : Inv s) {r' : Served} (hr' : r'.Balanced) :
    ∀ u ∈ s.served.set k r', u.Balanced := by
  intro u hu
  rcases List.mem_or_eq_of_mem_set hu with hold | rfl
  · exact hs.balanced u hold
  · exact hr'

/-- A request that stays as it is for the registry. -/
theorem inv_quiet (hs : Inv s) (hk : s.served[k]? = some r)
    (hprogress : Served.inProgress ⟨rest, r.address⟩ = r.inProgress)
    (hover : Served.over ⟨rest, r.address⟩ = r.over)
    (hbalanced : Served.Balanced ⟨rest, r.address⟩) :
    Inv { s with served := s.served.set k ⟨rest, r.address⟩ } := by
  have hsame : (held Served.address (s.served.set k ⟨rest, r.address⟩)).Perm
      (held Served.address s.served) := held_set_same _ hk rfl
  exact
    { active := hs.active.trans (held_set_same _ hk hprogress).symm
      finished := hs.finished.trans (held_set_same _ hk hover).symm
      distinct := hsame.nodup_iff.mpr hs.distinct
      fresh := fun a ha => hs.fresh a (hsame.mem_iff.mp ha)
      balanced := balanced_set hs hbalanced }

theorem inv_start (hs : Inv s) (hk : s.served[k]? = some r) (haddress : r.address = none)
    (hrest : Status.started.run rest = .finished) : Inv (s.perform k r rest .start) := by
  have hne : rest ≠ [] := by
    rintro rfl
    exact nomatch hrest
  have hfilled : (held Served.address (s.served.set k ⟨rest, some s.next⟩)).Perm
      (s.next :: held Served.address s.served) := held_set_filled _ hk haddress rfl
  refine
    { active := ?_
      finished := ?_
      distinct := ?_
      fresh := fun a ha => ?_
      balanced := balanced_set hs (Or.inr hrest) }
  · have hprogress : (held Served.inProgress (s.served.set k ⟨rest, some s.next⟩)).Perm
        (s.next :: held Served.inProgress s.served) :=
      held_set_filled _ hk (by simp [Served.inProgress, haddress])
        (by simp [Served.inProgress, hne])
    exact (List.perm_append_singleton _ _).trans ((hs.active.cons _).trans hprogress.symm)
  · refine hs.finished.trans (held_set_same _ hk ?_).symm
    simp [Served.over, haddress, hne]
  · refine hfilled.nodup_iff.mpr (List.nodup_cons.mpr ⟨fun hmem => ?_, hs.distinct⟩)
    exact Nat.lt_irrefl _ (hs.fresh _ hmem)
  · rcases List.mem_cons.mp (hfilled.mem_iff.mp ha) with rfl | hold
    · exact Nat.lt_succ_self _
    · exact Nat.lt_succ_of_lt (hs.fresh a hold)

theorem inv_finish (hs : Inv s) (hk : s.served[k]? = some r) {a : Nat}
    (haddress : r.address = some a) (hne : r.rest ≠ []) :
    Inv (s.perform k r [] .finish) := by
  have hsame : (held Served.address (s.served.set k ⟨[], r.address⟩)).Perm
      (held Served.address s.served) := held_set_same _ hk rfl
  have hcleared : (held Served.inProgress s.served).Perm
      (a :: held Served.inProgress (s.served.set k ⟨[], r.address⟩)) :=
    held_set_cleared _ hk (by simp [Served.inProgress, hne, haddress]) rfl
  have hfilled : (held Served.over (s.served.set k ⟨[], r.address⟩)).Perm
      (a :: held Served.over s.served) :=
    held_set_filled _ hk (by simp [Served.over, hne]) (by simp [Served.over, haddress])
  -- No other request in progress has this address.
  have hothers : a ∉ held Served.inProgress (s.served.set k ⟨[], r.address⟩) := by
    have hperm := held_set_perm Served.inProgress (List.getElem?_eq_some_iff.mp hk).1
      ⟨[], r.address⟩
    have haddresses := (held_perm Served.address hk).nodup_iff.mp hs.distinct
    rw [haddress] at haddresses
    intro hmem
    have hother : a ∈ held Served.inProgress (s.served.eraseIdx k) := by
      rw [hperm.mem_iff] at hmem
      exact (List.mem_append.mp hmem).resolve_left (by simp [Served.inProgress])
    obtain ⟨u, hu, hprogress⟩ := List.mem_filterMap.mp hother
    have huaddress : u.address = some a := by
      unfold Served.inProgress at hprogress
      split at hprogress
      · exact nomatch hprogress
      · exact hprogress
    exact (List.nodup_cons.mp haddresses).1 (List.mem_filterMap.mpr ⟨u, hu, huaddress⟩)
  refine
    { active := ?_
      finished := ?_
      distinct := hsame.nodup_iff.mpr hs.distinct
      fresh := fun b hb => hs.fresh b (hsame.mem_iff.mp hb)
      balanced := balanced_set hs ?_ }
  · have hfilter := (hs.active.trans hcleared).filter (fun b => some b ≠ r.address)
    have hkept : ∀ b ∈ held Served.inProgress (s.served.set k ⟨[], r.address⟩),
        decide (some b ≠ r.address) = true := by
      intro b hb
      rw [haddress]
      exact decide_eq_true (fun heq => hothers (Option.some.inj heq ▸ hb))
    rw [List.filter_cons_of_neg (by simp [haddress]), List.filter_eq_self.mpr hkept] at hfilter
    exact hfilter
  · show (s.finished ++ r.address.toList).Perm _
    rw [haddress, Option.toList_some]
    exact (List.perm_append_singleton _ _).trans ((hs.finished.cons a).trans hfilled.symm)
  · rw [Served.Balanced, haddress]
    exact Or.inl rfl

/-- A request does what is next. -/
theorem inv_perform (hs : Inv s) (hk : s.served[k]? = some r) {a : Action}
    (hrest : r.rest = a :: rest) : Inv (s.perform k r rest a) := by
  have hbalanced := hs.balanced r (List.mem_of_getElem? hk)
  rw [Served.Balanced, hrest] at hbalanced
  have hne : r.rest ≠ [] := by simp [hrest]
  cases haddress : r.address with
  | none =>
      simp only [haddress, Status.run, List.foldl_cons] at hbalanced
      have hbroken : ¬(Status.broken.run rest = .idle ∨ Status.broken.run rest = .finished) := by
        rw [run_broken]
        decide
      have hquiet : ∀ b : Action, Status.idle.next b = .idle → b = a →
          Inv { s with served := s.served.set k ⟨rest, r.address⟩ } := by
        rintro b hb rfl
        rw [hb] at hbalanced
        refine inv_quiet hs hk ?_ ?_ ?_
        · simp [Served.inProgress, haddress]
        · simp [Served.over, haddress]
        · rw [Served.Balanced, haddress]
          exact hbalanced
      cases a with
      | call c => exact hquiet (.call c) rfl rfl
      | start => exact inv_start hs hk haddress (hbalanced.resolve_left (run_started rest))
      | putPaused | finish => exact absurd hbalanced hbroken
  | some b =>
      simp only [haddress, Status.run, List.foldl_cons, reduceCtorEq, false_or] at hbalanced
      have hquiet : ∀ c : Action, Status.started.next c = .started → c = a →
          Inv { s with served := s.served.set k ⟨rest, r.address⟩ } := by
        rintro c hc rfl
        rw [hc] at hbalanced
        have hrestne : rest ≠ [] := by
          rintro rfl
          exact nomatch hbalanced
        refine inv_quiet hs hk ?_ ?_ ?_
        · simp [Served.inProgress, hrestne, hne]
        · simp [Served.over, hrestne, hne]
        · rw [Served.Balanced, haddress]
          exact Or.inr hbalanced
      cases a with
      | call c => exact hquiet (.call c) rfl rfl
      | putPaused => exact hquiet .putPaused rfl rfl
      | start => exact nomatch (run_broken rest).symm.trans hbalanced
      | finish =>
          rw [run_finished hbalanced]
          exact inv_finish hs hk haddress hne

/-- One step. -/
theorem inv_step (hs : Inv s) {e : Event}
    (hguarded : ∀ route f, e = .arrive route f → f.Guarded route) (hstep : step s e = some s') :
    Inv s' := by
  cases e with
  | arrive route f => exact Option.some.inj hstep ▸ inv_arrive hs (hguarded route f rfl)
  | advance k =>
      simp only [step] at hstep
      split at hstep
      · exact nomatch hstep
      · rename_i r hk
        split at hstep
        · exact nomatch hstep
        · rename_i a rest hrest
          exact Option.some.inj hstep ▸ inv_perform hs hk hrest

/-- A run of guarded requests. -/
theorem inv_of_run {events : List Event} (hs : Inv s)
    (hguarded : ∀ route f, .arrive route f ∈ events → f.Guarded route)
    (hrun : exec step s events = some s') : Inv s' := by
  induction events generalizing s with
  | nil =>
      rw [exec_nil] at hrun
      exact Option.some.inj hrun ▸ hs
  | cons e events ih =>
      obtain ⟨t, hstep, hrest⟩ := exec_cons_some hrun
      refine ih (inv_step hs (fun route f he => hguarded route f (he ▸ List.mem_cons_self)) hstep)
        (fun route f hmem => hguarded route f (List.mem_cons_of_mem e hmem)) hrest

/-- A request that is alone and is left active. -/
theorem exec_alone (log : List Action) :
    (Status.idle.run log = .started →
      exec step ⟨[], 0, [⟨log, none⟩], []⟩ (log.map fun _ => .advance 0) =
        some ⟨[0], 1, [⟨[], some 0⟩], []⟩) ∧
    (Status.started.run log = .started →
      exec step ⟨[0], 1, [⟨log, some 0⟩], []⟩ (log.map fun _ => .advance 0) =
        some ⟨[0], 1, [⟨[], some 0⟩], []⟩) := by
  induction log with
  | nil => exact ⟨fun h => Status.noConfusion h, fun _ => rfl⟩
  | cons a log ih =>
      have hbroken : Status.broken.run log ≠ .started := by
        rw [run_broken]
        decide
      constructor
      · intro h
        rw [Status.run, List.foldl_cons] at h
        cases a with
        | call c => exact ih.1 h
        | start => exact ih.2 h
        | putPaused | finish => exact absurd h hbroken
      · intro h
        rw [Status.run, List.foldl_cons] at h
        cases a with
        | call c => exact ih.2 h
        | putPaused => exact ih.2 h
        | start => exact absurd h hbroken
        | finish =>
            cases log with
            | nil => exact nomatch h
            | cons b log => exact nomatch (run_broken log).symm.trans h

/-- A request that is not guarded stays active when it has ended. -/
theorem leaks_of_not_guarded {route : Route} {f : Fate} (h : ¬f.Guarded route) :
    ∃ events s, (∀ route' f', .arrive route' f' ∈ events → route' = route ∧ f' = f) ∧
      exec step .new events = some s ∧ ¬Exact s := by
  have hrun := (exec_alone (f.actions route)).1 ((actions_ended f route).2 h)
  refine ⟨.arrive route f :: (f.actions route).map fun _ => .advance 0, _, ?_, hrun, ?_⟩
  · intro route' f' hmem
    rcases List.mem_cons.mp hmem with heq | hmem
    · injection heq with hroute hf
      exact ⟨hroute, hf⟩
    · obtain ⟨_, -, hadvance⟩ := List.mem_map.mp hmem
      exact nomatch hadvance
  · intro hexact
    have hlength := hexact.active.length_eq
    simp [held, Served.inProgress] at hlength

/--
For any set of requests: in every run of them the active requests are those in progress, and
`finish` is called once for each that has ended, exactly when all of them are guarded.
-/
theorem registry_exact_iff (allowed : Route → Fate → Prop) :
    (∀ events s, (∀ route f, .arrive route f ∈ events → allowed route f) →
      exec step .new events = some s → Exact s) ↔
    ∀ route f, allowed route f → f.Guarded route := by
  constructor
  · intro hexact route f hallowed
    by_contra hnot
    obtain ⟨events, s, hevents, hrun, hleaks⟩ := leaks_of_not_guarded hnot
    refine hleaks (hexact events s (fun route' f' hmem => ?_) hrun)
    obtain ⟨rfl, rfl⟩ := hevents route' f' hmem
    exact hallowed
  · intro hguarded events s hevents hrun
    have hinv := inv_of_run inv_new
      (fun route f hmem => hguarded route f (hevents route f hmem)) hrun
    exact hinv.toExact

/-- A chat that is not streamed, and whose temperature the engine refuses. -/
def badTemperature : Fate where
  thrown c := if c = .generate then some .standard else none
  streams := false
  produced := true
  denied := false
  pauseRequested := false

/-- It is served alone. -/
def badTemperatureRun : List Event :=
  .arrive .chat badTemperature :: List.replicate 9 (.advance 0)

theorem temperature_leaks :
    ∃ s, exec step .new badTemperatureRun = some s ∧ s.served.all (fun r => r.rest = []) ∧
      s.active = [0] ∧ s.finished = [] ∧ ¬Exact s := by
  refine ⟨⟨[0], 1, [⟨[], some 0⟩], []⟩, by decide +kernel, by decide, rfl, rfl, fun hexact => ?_⟩
  have hlength := hexact.active.length_eq
  simp [held, Served.inProgress] at hlength

end Registry

end HandlerExits
end RwkvLightning

import RwkvLightning.Inference.DecodeScheduler
import Mathlib

/-!
# What an operation on one row leaves as it is

Every operation of the decode scheduler works on one row and on its request, while the
clients cancel and take events.

**Results.**
* `Later`: a request that only its client has touched.
* `Elsewhere`: a request of which one row was worked on.
* `Acts`: an operation on a row; `acts_flush`, `acts_complete` and so on say which ones are.
-/

namespace RwkvLightning
namespace DecodeScheduler

open Backend Text
open DecodeRow (FinishReason)

variable {α ρ ℓ κ σ : Type}

section Requests

variable {a b c : Request α ρ ℓ κ}

/-- All events that were sent so far. -/
def Request.log (req : Request α ρ ℓ κ) : List Event :=
  req.delivered ++ req.events

/-- The events of one row. -/
def Request.eventsOf (req : Request α ρ ℓ κ) (i : Nat) : List Event :=
  req.log.filter fun event => event.row = i

/-- Only the client has touched the request. -/
structure Later (a b : Request α ρ ℓ κ) : Prop where
  same : b.toSubmission = a.toSubmission
  stats : b.stats = a.stats
  done : b.done = a.done
  error : b.error = a.error
  remaining : b.remaining = a.remaining
  submission : b.submission = a.submission
  log : b.log = a.log
  cancelled : a.cancelled = true → b.cancelled = true

theorem Later.refl (a : Request α ρ ℓ κ) : Later a a :=
  ⟨rfl, rfl, rfl, rfl, rfl, rfl, rfl, id⟩

theorem Later.trans (hab : Later a b) (hbc : Later b c) : Later a c where
  same := hbc.same.trans hab.same
  stats := hbc.stats.trans hab.stats
  done := hbc.done.trans hab.done
  error := hbc.error.trans hab.error
  remaining := hbc.remaining.trans hab.remaining
  submission := hbc.submission.trans hab.submission
  log := hbc.log.trans hab.log
  cancelled := fun h => hbc.cancelled (hab.cancelled h)

theorem later_interfered (i : Interference) (q : Nat) (req : Request α ρ ℓ κ) :
    Later req (req.interfered i q) where
  same := rfl
  stats := rfl
  done := rfl
  error := rfl
  remaining := rfl
  submission := rfl
  log := by
    unfold Request.log Request.interfered
    dsimp only
    cases i.takes.contains q with
    | true => exact List.append_nil _
    | false => rfl
  cancelled := fun h => by
    unfold Request.interfered
    dsimp only
    rw [h]
    rfl

/-- The finish reason of a row is kept, or an interruption has made it `stop`. -/
def KeepsReason (a b : Request α ρ ℓ κ) (j : Nat) : Prop :=
  b.stats.finishReasons[j]? = a.stats.finishReasons[j]? ∨
    b.cancelled = true ∧ b.stats.finishReasons[j]? = some .stop

/-- What work on the row `i` leaves as it is. -/
structure Elsewhere (i : Nat) (a b : Request α ρ ℓ κ) : Prop where
  options : b.options = a.options
  chunkSize : b.chunkSize = a.chunkSize
  notifyTextStop : b.notifyTextStop = a.notifyTextStop
  submission : b.submission = a.submission
  cancelled : a.cancelled = true → b.cancelled = true
  wkv32 : b.state.wkv32 = a.state.wkv32
  width : b.state.rows.length = a.state.rows.length
  lane : ∀ j ≠ i, b.state.rows[j]? = a.state.rows[j]?
  logitsWidth : b.logits.rows.length = a.logits.rows.length
  logits : ∀ j ≠ i, b.logits.rows[j]? = a.logits.rows[j]?
  reasons : b.stats.finishReasons.length = a.stats.finishReasons.length
  reason : ∀ j ≠ i, KeepsReason a b j
  matchedStops : b.stats.matchedStops.length = a.stats.matchedStops.length
  matched : ∀ j ≠ i, b.stats.matchedStops[j]? = a.stats.matchedStops[j]?
  events : ∀ j ≠ i, b.eventsOf j = a.eventsOf j

variable {i : Nat}

theorem Later.elsewhere (h : Later a b) (i : Nat) : Elsewhere i a b where
  options := congrArg Submission.options h.same
  chunkSize := congrArg Submission.chunkSize h.same
  notifyTextStop := congrArg Submission.notifyTextStop h.same
  submission := h.submission
  cancelled := h.cancelled
  wkv32 := congrArg (fun sub => sub.state.wkv32) h.same
  width := congrArg (fun sub => sub.state.rows.length) h.same
  lane := fun j _ => congrArg (fun sub => sub.state.rows[j]?) h.same
  logitsWidth := congrArg (fun sub => sub.logits.rows.length) h.same
  logits := fun j _ => congrArg (fun sub => sub.logits.rows[j]?) h.same
  reasons := congrArg (fun stats => stats.finishReasons.length) h.stats
  reason := fun j _ => Or.inl (congrArg (fun stats => stats.finishReasons[j]?) h.stats)
  matchedStops := congrArg (fun stats => stats.matchedStops.length) h.stats
  matched := fun j _ => congrArg (fun stats => stats.matchedStops[j]?) h.stats
  events := fun j _ => by rw [Request.eventsOf, Request.eventsOf, h.log]

theorem KeepsReason.trans {j : Nat} (hab : KeepsReason a b j) (hbc : KeepsReason b c j)
    (hcancelled : b.cancelled = true → c.cancelled = true) : KeepsReason a c j := by
  rcases hbc with hsame | hstop
  · rcases hab with hkept | ⟨hcancel, hreason⟩
    · exact Or.inl (hsame.trans hkept)
    · exact Or.inr ⟨hcancelled hcancel, hsame.trans hreason⟩
  · exact Or.inr hstop

theorem Elsewhere.refl (i : Nat) (a : Request α ρ ℓ κ) : Elsewhere i a a :=
  (Later.refl a).elsewhere i

theorem Elsewhere.trans (hab : Elsewhere i a b) (hbc : Elsewhere i b c) : Elsewhere i a c where
  options := hbc.options.trans hab.options
  chunkSize := hbc.chunkSize.trans hab.chunkSize
  notifyTextStop := hbc.notifyTextStop.trans hab.notifyTextStop
  submission := hbc.submission.trans hab.submission
  cancelled := fun h => hbc.cancelled (hab.cancelled h)
  wkv32 := hbc.wkv32.trans hab.wkv32
  width := hbc.width.trans hab.width
  lane := fun j hj => (hbc.lane j hj).trans (hab.lane j hj)
  logitsWidth := hbc.logitsWidth.trans hab.logitsWidth
  logits := fun j hj => (hbc.logits j hj).trans (hab.logits j hj)
  reasons := hbc.reasons.trans hab.reasons
  reason := fun j hj => (hab.reason j hj).trans (hbc.reason j hj) hbc.cancelled
  matchedStops := hbc.matchedStops.trans hab.matchedStops
  matched := fun j hj => (hbc.matched j hj).trans (hab.matched j hj)
  events := fun j hj => (hbc.events j hj).trans (hab.events j hj)

/-- A change of a request that only concerns its flags and counters. -/
theorem elsewhere_of_flags (h : b.toSubmission = a.toSubmission)
    (hsubmission : b.submission = a.submission)
    (hreasons : b.stats.finishReasons = a.stats.finishReasons)
    (hmatched : b.stats.matchedStops = a.stats.matchedStops) (hlog : b.log = a.log)
    (hcancelled : a.cancelled = true → b.cancelled = true) : Elsewhere i a b where
  options := congrArg Submission.options h
  chunkSize := congrArg Submission.chunkSize h
  notifyTextStop := congrArg Submission.notifyTextStop h
  submission := hsubmission
  cancelled := hcancelled
  wkv32 := congrArg (fun sub => sub.state.wkv32) h
  width := congrArg (fun sub => sub.state.rows.length) h
  lane := fun j _ => congrArg (fun sub => sub.state.rows[j]?) h
  logitsWidth := congrArg (fun sub => sub.logits.rows.length) h
  logits := fun j _ => congrArg (fun sub => sub.logits.rows[j]?) h
  reasons := by rw [hreasons]
  reason := fun j _ => Or.inl (by rw [hreasons])
  matchedStops := by rw [hmatched]
  matched := fun j _ => by rw [hmatched]
  events := fun j _ => by rw [Request.eventsOf, Request.eventsOf, hlog]

end Requests

section Tables

variable {s t u : Shared α ρ ℓ κ σ} {r q : Nat}

@[simp] theorem updateRequest_self (f : Request α ρ ℓ κ → Request α ρ ℓ κ) :
    (s.updateRequest q f).requests q = f (s.requests q) :=
  Function.update_self ..

@[simp] theorem updateRequest_ne {q' : Nat} (h : q' ≠ q)
    (f : Request α ρ ℓ κ → Request α ρ ℓ κ) :
    (s.updateRequest q f).requests q' = s.requests q' :=
  Function.update_of_ne h ..

@[simp] theorem updateRow_self (f : Row σ → Row σ) : (s.updateRow r f).rows r = f (s.rows r) :=
  Function.update_self ..

@[simp] theorem updateRow_ne {r' : Nat} (h : r' ≠ r) (f : Row σ → Row σ) :
    (s.updateRow r f).rows r' = s.rows r' :=
  Function.update_of_ne h ..

@[simp] theorem updateRequest_rows (f : Request α ρ ℓ κ → Request α ρ ℓ κ) :
    (s.updateRequest q f).rows = s.rows := rfl

@[simp] theorem updateRow_requests (f : Row σ → Row σ) :
    (s.updateRow r f).requests = s.requests := rfl

@[simp] theorem interfere_rows : s.interfere.rows = s.rows := rfl

theorem later_interfere (s : Shared α ρ ℓ κ σ) (q : Nat) :
    Later (s.requests q) (s.interfere.requests q) :=
  later_interfered _ q _

/-- An operation on the row `r` and its request. -/
structure Acts (r : Nat) (s t : Shared α ρ ℓ κ σ) : Prop where
  requestCount : t.requestCount = s.requestCount
  rowCount : t.rowCount = s.rowCount
  incoming : t.incoming = s.incoming
  rows : ∀ r' ≠ r, t.rows r' = s.rows r'
  request : t.requestOf r = s.requestOf r
  index : (t.rows r).index = (s.rows r).index
  completed : (s.rows r).completed = true → (t.rows r).completed = true
  others : ∀ q ≠ s.requestOf r, Later (s.requests q) (t.requests q)
  own : Elsewhere (s.rows r).index (s.requests (s.requestOf r)) (t.requests (s.requestOf r))

theorem Acts.refl (r : Nat) (s : Shared α ρ ℓ κ σ) : Acts r s s where
  requestCount := rfl
  rowCount := rfl
  incoming := rfl
  rows := fun _ _ => rfl
  request := rfl
  index := rfl
  completed := id
  others := fun _ _ => Later.refl _
  own := Elsewhere.refl _ _

theorem Acts.trans (hst : Acts r s t) (htu : Acts r t u) : Acts r s u where
  requestCount := htu.requestCount.trans hst.requestCount
  rowCount := htu.rowCount.trans hst.rowCount
  incoming := htu.incoming.trans hst.incoming
  rows := fun r' hr => (htu.rows r' hr).trans (hst.rows r' hr)
  request := htu.request.trans hst.request
  index := htu.index.trans hst.index
  completed := fun h => htu.completed (hst.completed h)
  others := fun q hq => (hst.others q hq).trans (htu.others q (hst.request ▸ hq))
  own := by
    have hown := htu.own
    rw [hst.request, hst.index] at hown
    exact hst.own.trans hown

/-- An operation that completes no row. -/
structure Works (r : Nat) (s t : Shared α ρ ℓ κ σ) : Prop extends Acts r s t where
  pendingRows : t.pendingRows = s.pendingRows
  unchanged : (t.rows r).completed = (s.rows r).completed
  remaining : (t.requests (s.requestOf r)).remaining = (s.requests (s.requestOf r)).remaining
  done : (t.requests (s.requestOf r)).done = (s.requests (s.requestOf r)).done
  error : (t.requests (s.requestOf r)).error = (s.requests (s.requestOf r)).error

theorem Works.refl (r : Nat) (s : Shared α ρ ℓ κ σ) : Works r s s :=
  { Acts.refl r s with
    pendingRows := rfl
    unchanged := rfl
    remaining := rfl
    done := rfl
    error := rfl }

theorem Works.trans (hst : Works r s t) (htu : Works r t u) : Works r s u := by
  have hremaining := htu.remaining
  have hdone := htu.done
  have herror := htu.error
  rw [hst.request] at hremaining hdone herror
  exact
    { hst.toActs.trans htu.toActs with
      pendingRows := htu.pendingRows.trans hst.pendingRows
      unchanged := htu.unchanged.trans hst.unchanged
      remaining := hremaining.trans hst.remaining
      done := hdone.trans hst.done
      error := herror.trans hst.error }

theorem works_interfere (r : Nat) (s : Shared α ρ ℓ κ σ) : Works r s s.interfere where
  pendingRows := rfl
  unchanged := rfl
  remaining := rfl
  done := rfl
  error := rfl
  requestCount := rfl
  rowCount := rfl
  incoming := rfl
  rows := fun _ _ => rfl
  request := rfl
  index := rfl
  completed := id
  others := fun q _ => later_interfere s q
  own := (later_interfere s _).elsewhere _

theorem acts_updateRow {f : Row σ → Row σ} (hrequest : (f (s.rows r)).request = (s.rows r).request)
    (hindex : (f (s.rows r)).index = (s.rows r).index)
    (hcompleted : (s.rows r).completed = true → (f (s.rows r)).completed = true) :
    Acts r s (s.updateRow r f) where
  requestCount := rfl
  rowCount := rfl
  incoming := rfl
  rows := fun r' hr => updateRow_ne hr f
  request := by rw [Shared.requestOf, updateRow_self]; exact hrequest
  index := by rw [updateRow_self]; exact hindex
  completed := by rw [updateRow_self]; exact hcompleted
  others := fun _ _ => Later.refl _
  own := Elsewhere.refl _ _

theorem acts_updateRequest {f : Request α ρ ℓ κ → Request α ρ ℓ κ} (hq : q = s.requestOf r)
    (h : Elsewhere (s.rows r).index (s.requests q) (f (s.requests q))) :
    Acts r s (s.updateRequest q f) := by
  subst hq
  exact
    { requestCount := rfl
      rowCount := rfl
      incoming := rfl
      rows := fun _ _ => rfl
      request := rfl
      index := rfl
      completed := id
      others := fun q hq => by rw [updateRequest_ne hq]; exact Later.refl _
      own := by rw [updateRequest_self]; exact h }

theorem works_updateRow {f : Row σ → Row σ}
    (hrequest : (f (s.rows r)).request = (s.rows r).request)
    (hindex : (f (s.rows r)).index = (s.rows r).index)
    (hcompleted : (f (s.rows r)).completed = (s.rows r).completed) :
    Works r s (s.updateRow r f) :=
  { acts_updateRow hrequest hindex fun h => hcompleted.trans h with
    pendingRows := rfl
    unchanged := by rw [updateRow_self]; exact hcompleted
    remaining := rfl
    done := rfl
    error := rfl }

theorem works_updateRequest {f : Request α ρ ℓ κ → Request α ρ ℓ κ} (hq : q = s.requestOf r)
    (h : Elsewhere (s.rows r).index (s.requests q) (f (s.requests q)))
    (hremaining : (f (s.requests q)).remaining = (s.requests q).remaining)
    (hdone : (f (s.requests q)).done = (s.requests q).done)
    (herror : (f (s.requests q)).error = (s.requests q).error) :
    Works r s (s.updateRequest q f) := by
  subst hq
  exact
    { acts_updateRequest rfl h with
      pendingRows := rfl
      unchanged := rfl
      remaining := by rw [updateRequest_self]; exact hremaining
      done := by rw [updateRequest_self]; exact hdone
      error := by rw [updateRequest_self]; exact herror }

end Tables

section Completion

variable (s : Shared α ρ ℓ κ σ) (r : Nat)

theorem works_event (text : Bytes) (stop : Bool) : Works r s (event s r text stop) := by
  unfold event
  refine (works_interfere r s).trans (works_updateRequest rfl ?_ rfl rfl rfl)
  refine
    { Elsewhere.refl _ _ with
      reason := fun _ _ => Or.inl rfl
      events := fun j hj => ?_ }
  unfold Request.eventsOf Request.log
  dsimp only
  rw [← List.append_assoc, List.filter_append, List.filter_singleton, decide_eq_false hj.symm]
  exact List.append_nil _

theorem works_flush (final : Bool) : Works r s (flush s r final) := by
  unfold flush
  dsimp only
  have hrow : Works r s (s.updateRow r fun row =>
      { row with
        pending := (takeCompleteUtf8 (s.rows r).pending final).2
        bufferedTokens := 0 }) :=
    works_updateRow rfl rfl rfl
  split
  · exact hrow
  · exact hrow.trans (works_event _ r _ _)

theorem works_stopEvent : Works r s (stopEvent s r) := by
  unfold stopEvent
  dsimp only
  split
  · split
    · exact (works_interfere r s).trans (works_event _ r _ _)
    · exact works_interfere r s
  · exact Works.refl r s

theorem elsewhere_markInterrupted {i : Nat} {req : Request α ρ ℓ κ}
    (h : req.cancelled = true) :
    Elsewhere i req { req with stats := markInterrupted req.stats } := by
  refine
    { Elsewhere.refl _ _ with
      reasons := List.length_map _
      reason := fun j _ => ?_ }
  unfold KeepsReason markInterrupted
  dsimp only
  rw [List.getElem?_map]
  cases hreason : req.stats.finishReasons[j]? with
  | none => exact Or.inl rfl
  | some reason =>
      refine Or.inr ⟨h, ?_⟩
      cases reason <;> rfl

variable {s r}

theorem works_noteInterrupted {q : Nat} (hq : q = s.requestOf r) :
    Works r s (noteInterrupted s q) := by
  subst hq
  unfold noteInterrupted
  dsimp only
  split
  · next hcancelled =>
      exact (works_interfere r s).trans
        (works_updateRequest rfl (elsewhere_markInterrupted hcancelled) rfl rfl rfl)
  · exact works_interfere r s

theorem acts_countDown {q : Nat} (hq : q = s.requestOf r) : Acts r s (countDown s q) := by
  subst hq
  unfold countDown
  dsimp only
  have hcount : Acts r s (s.updateRequest (s.requestOf r) fun req =>
      { req with remaining := req.remaining - 1 }) :=
    acts_updateRequest rfl (elsewhere_of_flags rfl rfl rfl rfl rfl id)
  split
  · exact (hcount.trans (works_interfere r _).toActs).trans
      (acts_updateRequest rfl (elsewhere_of_flags rfl rfl rfl rfl rfl id))
  · exact hcount

/-- The part of `complete` between the mark on the row and the count. -/
theorem works_complete (s : Shared α ρ ℓ κ σ) (r : Nat) :
    Works r s (stopEvent (flush (noteInterrupted s (s.requestOf r)) r true) r) :=
  ((works_noteInterrupted rfl).trans (works_flush _ r true)).trans (works_stopEvent _ r)

theorem acts_complete (s : Shared α ρ ℓ κ σ) (r : Nat) : Acts r s (complete s r) := by
  unfold complete
  dsimp only
  split
  · exact Acts.refl r s
  · have hrow : Acts r s (s.updateRow r fun row => { row with completed := true }) :=
      acts_updateRow rfl rfl fun _ => rfl
    have hworked := works_complete (s.updateRow r fun row => { row with completed := true }) r
    rw [hrow.request] at hworked
    have hall := hrow.trans hworked.toActs
    exact hall.trans (acts_countDown hall.request.symm)

end Completion

section Calls

variable {s₀ : Shared α ρ ℓ κ σ} {r : Nat}

theorem works_faults (r : Nat) (s : Shared α ρ ℓ κ σ) (faults : List Bool) (seeds : Nat) :
    Works r s { s with faults := faults, seeds := seeds } :=
  { Works.refl r s with
    others := fun _ _ => Later.refl _
    own := Elsewhere.refl _ _ }

/-- A change of the state that is work on the row. -/
theorem keeps_modify {f : Shared α ρ ℓ κ σ → Shared α ρ ℓ κ σ}
    (h : ∀ s, Works r s₀ s → Works r s (f s)) :
    Command.Keeps (Works r s₀) (Command.modify f : Task α ρ ℓ κ σ PUnit) :=
  Command.Keeps.modify fun s hs => hs.trans (h s hs)

theorem keeps_device : Command.Keeps (Works r s₀) (device : Task α ρ ℓ κ σ PUnit) := by
  refine Command.keeps_of_state fun s hs => ?_
  unfold device
  split
  · exact hs
  · exact hs.trans (works_faults r s _ s.seeds)

/-- Where the arguments are refused, nothing follows. -/
theorem keeps_attempt {β γ : Type} {I : Shared α ρ ℓ κ σ → Prop} {x : Except String β}
    {f : β → Task α ρ ℓ κ σ γ} (h : ∀ b, x = .ok b → Command.Keeps I (f b)) :
    Command.Keeps I (attempt x >>= f) := by
  cases x with
  | ok b => exact h b rfl
  | error message => exact fun s hs => hs

theorem keeps_makeSampler (e : Engine α ρ ℓ κ σ) (batchSize : Nat) :
    Command.Keeps (Works r s₀) (makeSampler e batchSize) := by
  refine Command.Keeps.bind keeps_device fun _ => Command.Keeps.read fun s => ?_
  exact Command.Keeps.bind (keeps_modify fun s _ => works_faults r s s.faults _)
    fun _ => Command.Keeps.pure

variable (e : Engine α ρ ℓ κ σ) (g : Group α ρ ℓ κ σ) (slot : Nat)

/-- Two states of a request with as many rows of one precision. -/
theorem elsewhere_state {i : Nat} {req : Request α ρ ℓ κ} {state : GenerationState α ρ}
    (hwkv : state.wkv32 = req.state.wkv32) (hwidth : state.rows.length = req.state.rows.length)
    (hlane : ∀ j ≠ i, state.rows[j]? = req.state.rows[j]?) :
    Elsewhere i req { req with state := state } :=
  { Elsewhere.refl i req with
    wkv32 := hwkv
    width := hwidth
    lane := hlane
    reason := fun _ _ => Or.inl rfl
    events := fun _ _ => rfl }

/-- Copying one element. -/
theorem copySlice_one {β : Type} {src dst : List β} {i j : Nat} (hi : i < src.length)
    (hj : j < dst.length) : copySlice src i dst j 1 = dst.set j src[i] := by
  rw [copySlice, List.take_one, List.head?_drop, List.getElem?_eq_getElem hi,
    List.set_eq_take_append_cons_drop, if_pos hj]
  simp

/-- What a copy of one row leaves as it is. -/
theorem copyStateSlice_lanes {src dst packed : GenerationState α ρ} {i j : Nat}
    {m : Model α ρ ℓ} (h : m.copyStateSlice src i dst j 1 = .ok packed) :
    packed.identity = src.identity ∧ packed.wkv32 = dst.wkv32 ∧
      packed.textStopTail = dst.textStopTail ∧
      ∃ row, src.rows[i]? = some row ∧ packed.rows = dst.rows.set j row ∧
        j < dst.rows.length := by
  unfold Model.copyStateSlice at h
  split at h
  · cases h
  split at h
  · cases h
  split at h
  · cases h
  split at h
  · cases h
  next hrange =>
  split at h
  · cases h
  simp only [not_or, Nat.not_lt] at hrange
  cases h
  exact ⟨rfl, rfl, rfl, src.rows[i], List.getElem?_eq_getElem hrange.1,
    copySlice_one hrange.1 hrange.2, hrange.2⟩

theorem copyLogitsSlice_lanes {src dst copied : DeviceLogits ℓ} {i j : Nat}
    (h : copyLogitsSlice src i dst j 1 = .ok copied) :
    ∃ row, src.rows[i]? = some row ∧ copied.rows = dst.rows.set j row ∧ j < dst.rows.length := by
  unfold copyLogitsSlice at h
  split at h
  · cases h
  split at h
  · cases h
  split at h
  · cases h
  split at h
  · cases h
  next hrange =>
  simp only [not_or, Nat.not_lt] at hrange
  cases h
  exact ⟨src.rows[i], List.getElem?_eq_getElem hrange.1, copySlice_one hrange.1 hrange.2, hrange.2⟩

/-- A request that was read while the row was worked on has the other rows as they were. -/
theorem Works.state_elsewhere {s t : Shared α ρ ℓ κ σ} (hs : Works r s₀ s) (ht : Works r s₀ t)
    {packed : GenerationState α ρ}
    (hwkv : packed.wkv32 = (s.requests (s.requestOf r)).state.wkv32)
    (hwidth : packed.rows.length = (s.requests (s.requestOf r)).state.rows.length)
    (hlane : ∀ j ≠ (s.rows r).index,
      packed.rows[j]? = (s.requests (s.requestOf r)).state.rows[j]?) :
    Elsewhere (t.rows r).index (t.requests (s.requestOf r))
      { t.requests (s.requestOf r) with state := packed } := by
  have howns := hs.own
  have hownt := ht.own
  rw [hs.request] at hwkv hwidth hlane ⊢
  refine elsewhere_state ?_ ?_ fun j hj => ?_
  · rw [hwkv, howns.wkv32, hownt.wkv32]
  · rw [hwidth, howns.width, hownt.width]
  · rw [ht.index] at hj
    rw [hlane j (hs.index ▸ hj), howns.lane j hj, hownt.lane j hj]

theorem keeps_exportRow : Command.Keeps (Works r s₀) (exportRow e g slot r) := by
  refine Command.Keeps.reading fun s hs => ?_
  have hrequest : ∀ t, Works r s₀ t → (s.rows r).request = t.requestOf r :=
    fun t ht => hs.request.trans ht.request.symm
  refine Command.Keeps.bind (keeps_modify fun t ht => works_updateRequest (hrequest t ht)
    (elsewhere_state rfl rfl fun _ _ => rfl) rfl rfl rfl) fun _ => ?_
  refine keeps_attempt fun packed hpacked => ?_
  obtain ⟨-, hwkv, -, row, -, hrows, -⟩ := copyStateSlice_lanes hpacked
  refine Command.Keeps.bind (keeps_modify fun t ht => works_updateRequest (hrequest t ht)
    (elsewhere_state rfl rfl fun _ _ => rfl) rfl rfl rfl) fun _ =>
    Command.Keeps.bind keeps_device fun _ => ?_
  refine Command.Keeps.bind (keeps_modify fun t ht => works_updateRequest (hrequest t ht)
    (hs.state_elsewhere ht hwkv ?_ fun j hj => ?_) rfl rfl rfl) fun _ => ?_
  · show packed.rows.length = _
    rw [hrows, List.length_set]
    rfl
  · show packed.rows[j]? = _
    rw [hrows, List.getElem?_set_ne hj.symm]
    rfl
  refine keeps_attempt fun logits hlogits => Command.Keeps.bind keeps_device fun _ => ?_
  obtain ⟨lane, -, hset, -⟩ := copyLogitsSlice_lanes hlogits
  refine keeps_modify fun t ht => works_updateRequest (hrequest t ht) ?_ rfl rfl rfl
  have howns := hs.own
  have hownt := ht.own
  have hlogitsWidth : logits.rows.length = (t.requests (s.rows r).request).logits.rows.length := by
    rw [hset, List.length_set, ← Shared.requestOf, hs.request, howns.logitsWidth,
      hownt.logitsWidth]
  have hlanes : ∀ j ≠ (t.rows r).index,
      logits.rows[j]? = (t.requests (s.rows r).request).logits.rows[j]? := by
    intro j hj
    rw [ht.index] at hj
    rw [hset, hs.index, List.getElem?_set_ne hj.symm, ← Shared.requestOf, hs.request,
      howns.logits j hj, hownt.logits j hj]
  exact
    { Elsewhere.refl _ _ with
      logitsWidth := hlogitsWidth
      logits := hlanes
      reason := fun _ _ => Or.inl rfl
      events := fun _ _ => rfl }

theorem keeps_saveSampler : Command.Keeps (Works r s₀) (saveSampler e g slot r) := by
  refine Command.Keeps.bind (keeps_makeSampler e 1) fun made => ?_
  refine Command.Keeps.bind (keeps_modify fun _ _ => works_updateRow rfl rfl rfl) fun _ => ?_
  refine keeps_attempt fun saved _ => Command.Keeps.bind keeps_device fun _ => ?_
  exact keeps_modify fun _ _ => works_updateRow rfl rfl rfl

theorem works_noteCancelled (s : Shared α ρ ℓ κ σ) (r : Nat) : Works r s (noteCancelled s r) := by
  unfold noteCancelled
  dsimp only
  split
  · exact (works_interfere r s).trans (works_updateRow rfl rfl rfl)
  · exact works_interfere r s

end Calls

section Tokens

variable (s : Shared α ρ ℓ κ σ) (r : Nat)

/-- A row of the statistics. -/
theorem elsewhere_stats {i : Nat} {req : Request α ρ ℓ κ} {stats : GenerationStats}
    (hreasons : stats.finishReasons.length = req.stats.finishReasons.length)
    (hreason : ∀ j ≠ i, stats.finishReasons[j]? = req.stats.finishReasons[j]?)
    (hmatches : stats.matchedStops.length = req.stats.matchedStops.length)
    (hmatched : ∀ j ≠ i, stats.matchedStops[j]? = req.stats.matchedStops[j]?) :
    Elsewhere i req { req with stats := stats } :=
  { Elsewhere.refl i req with
    reasons := hreasons
    reason := fun j hj => Or.inl (hreason j hj)
    matchedStops := hmatches
    matched := hmatched
    events := fun _ _ => rfl }

theorem works_stopAtToken : Works r s (stopAtToken s r) := by
  unfold stopAtToken
  refine Works.trans (works_updateRequest rfl ?_ rfl rfl rfl) (works_updateRow rfl rfl rfl)
  refine elsewhere_stats ?_ ?_ rfl fun _ _ => rfl
  · exact List.length_set
  · exact fun j hj => List.getElem?_set_ne hj.symm

theorem works_checkStops (decoded : Bytes) : Works r s (checkStops s r decoded) := by
  unfold checkStops
  dsimp only
  split
  · exact Works.refl r s
  · split
    · exact works_updateRow rfl rfl rfl
    · refine Works.trans (works_updateRequest rfl ?_ rfl rfl rfl) (works_updateRow rfl rfl rfl)
      refine elsewhere_stats ?_ ?_ ?_ ?_
      · exact List.length_set
      · exact fun j hj => List.getElem?_set_ne hj.symm
      · exact List.length_set
      · exact fun j hj => List.getElem?_set_ne hj.symm

theorem works_flush_of {t : Shared α ρ ℓ κ σ} (h : Works r s t) (full : Prop)
    [Decidable full] : Works r s (if full then flush t r false else t) := by
  split
  · exact h.trans (works_flush t r false)
  · exact h

theorem works_countToken (e : Engine α ρ ℓ κ σ) : Works r s (countToken e s r) := by
  unfold countToken
  refine works_flush_of s r (Works.trans ?_ (works_checkStops _ r _)) _
  refine Works.trans (works_updateRow rfl rfl rfl) (works_updateRequest rfl ?_ rfl rfl rfl)
  exact elsewhere_stats rfl (fun _ _ => rfl) rfl fun _ _ => rfl

theorem works_takeToken (e : Engine α ρ ℓ κ σ) (drawn : Nat × Token) :
    Works drawn.1 s (takeToken e s drawn) := by
  unfold takeToken
  dsimp only
  have hrow : Works drawn.1 s (s.updateRow drawn.1 fun row => { row with token := drawn.2 }) :=
    works_updateRow rfl rfl rfl
  split
  · exact hrow.trans (works_stopAtToken _ _)
  · exact hrow.trans (works_countToken _ _ e)

theorem works_finishRow : Works r s (finishRow s r) := by
  unfold finishRow
  dsimp only
  split
  · exact works_updateRow rfl rfl rfl
  · exact Works.refl r s

end Tokens

end DecodeScheduler
end RwkvLightning

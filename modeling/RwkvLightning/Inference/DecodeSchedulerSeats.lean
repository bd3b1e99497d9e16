import RwkvLightning.Inference.DecodeSchedulerConservation
import RwkvLightning.Inference.DecodeSchedulerStream
import Mathlib

/-!
# Where a row is, it has what it would have alone

A row moves between the slots of a group and the state of its request.  Wherever it is, it has
the recurrent state, the logits and the sampler that it would have after as many tokens if it
were alone.

**Results.**
* `Laws.Waiting`, `Laws.Seat`, `Laws.Left`: a row that waits, one in a slot, one that is
  completed.
* `Healthy`: what holds of the requests.
* `triple_exportRow`, `triple_pause`: a row leaves its slot.
-/

namespace RwkvLightning
namespace DecodeScheduler

open Backend Text Command
open DecodeRow (Progress Counted Live Ended)

variable {α ρ ℓ κ σ : Type} {s t u : Shared α ρ ℓ κ σ} {r : Nat}

section Requests

/-- The metadata that a forward pass has left, and an adapter that the model takes. -/
structure Ready (m : Model α ρ ℓ) (state : GenerationState α ρ) : Prop where
  identity : state.identity = m.advancedIdentity state
  wkv32 : state.wkv32 = m.wkv32
  accepts : m.Accepts state.identity.adapter

theorem Ready.congr {m : Model α ρ ℓ} {state state' : GenerationState α ρ} (h : Ready m state)
    (hidentity : state'.identity = state.identity) (hwkv : state'.wkv32 = state.wkv32) :
    Ready m state' where
  identity := by
    rw [Model.advancedIdentity_congr hidentity hwkv, hidentity]
    exact h.identity
  wkv32 := hwkv.trans h.wkv32
  accepts := hidentity.symm ▸ h.accepts

theorem Ready.advanced {m : Model α ρ ℓ} {state : GenerationState α ρ} (h : Ready m state) :
    state.identity.advanced = true := by
  rw [h.identity]
  rfl

/-- What a client hands over: a state after a forward pass, and the end of the text before it. -/
structure Prefilled (e : Engine α ρ ℓ κ σ) (sub : Submission α ρ ℓ κ) : Prop where
  ready : Ready e.model sub.state
  width : sub.state.rows.length = sub.logits.rows.length
  temperature : e.sampler.temperatureValid sub.options.sampling = true
  tail : ∀ stops, sub.options.stop = some stops →
    startTail sub.state = tailOf stops (startTail sub.state)

/-- A request against what its client handed over. -/
structure Bound (req : Request α ρ ℓ κ) : Prop where
  options : req.options = req.submission.options
  wkv32 : req.state.wkv32 = req.submission.state.wkv32
  width : req.state.rows.length = req.submission.state.rows.length
  logitsWidth : req.logits.rows.length = req.submission.state.rows.length

theorem Bound.elsewhere {i : Nat} {a b : Request α ρ ℓ κ} (h : Bound a)
    (hb : Elsewhere i a b) : Bound b where
  options := by rw [hb.options, hb.submission, h.options]
  wkv32 := by rw [hb.wkv32, hb.submission, h.wkv32]
  width := by rw [hb.width, hb.submission, h.width]
  logitsWidth := by rw [hb.logitsWidth, hb.submission, h.logitsWidth]

/-- What the client of a row handed over. -/
def Shared.subOf (s : Shared α ρ ℓ κ σ) (r : Nat) : Submission α ρ ℓ κ :=
  (s.requests (s.requestOf r)).submission

theorem Follows.subOf (h : Follows r s t) : t.subOf r = s.subOf r := by
  rw [Shared.subOf, h.request]
  exact h.texts.submission

end Requests

section Places

variable {e : Engine α ρ ℓ κ σ} (laws : Laws e)

/-- A new sampler. -/
def IsFresh (e : Engine α ρ ℓ κ σ) (sampler : σ) : Prop :=
  ∃ seed slot, sampler = e.sampler.fresh seed slot

/-- Where the row `i` of a submission starts; its sampler is a new one. -/
structure IsOrigin (e : Engine α ρ ℓ κ σ) (sub : Submission α ρ ℓ κ) (i : Nat)
    (x : Origin α ρ ℓ κ σ) : Prop where
  adapter : x.adapter = sub.state.identity.adapter
  sampling : x.sampling = sub.options.sampling
  state : sub.state.rows[i]? = some x.start.state
  logits : sub.logits.rows[i]? = some x.start.logits
  sampler : IsFresh e x.start.sampler

/-- A row of the tables, as a row of its own that started at `x`. -/
structure Traces (e : Engine α ρ ℓ κ σ) (s : Shared α ρ ℓ κ σ) (r : Nat)
    (x : Origin α ρ ℓ κ σ) (row : DecodeRow.Row) : Prop where
  views : Views s r row
  origin : IsOrigin e (s.subOf r) (s.rows r).index x

/-- The tokens of a row lead to its texts. -/
def Laws.IsLive (sub : Submission α ρ ℓ κ) (x : Origin α ρ ℓ κ σ) (row : DecodeRow.Row) : Prop :=
  Live e.decode sub.options.toOptions (startTail sub.state) (laws.tokens x row.step) row

def Laws.IsCounted (sub : Submission α ρ ℓ κ) (x : Origin α ρ ℓ κ σ) (row : DecodeRow.Row) :
    Prop :=
  Counted e.decode sub.options.toOptions (startTail sub.state) (laws.tokens x row.step) row

def Laws.IsClosable (sub : Submission α ρ ℓ κ) (x : Origin α ρ ℓ κ σ) (row : DecodeRow.Row) :
    Prop :=
  Closable e.decode sub.options.toOptions (startTail sub.state) (laws.tokens x row.step) row

def Laws.IsEnded (sub : Submission α ρ ℓ κ) (x : Origin α ρ ℓ κ σ) (cancelled : Bool)
    (row : DecodeRow.Row) : Prop :=
  Ended e.decode sub.options.toOptions (startTail sub.state) (laws.tokens x row.step) cancelled
    row

def Laws.HasCause (sub : Submission α ρ ℓ κ) (x : Origin α ρ ℓ κ σ) (cancelled : Bool)
    (row : DecodeRow.Row) : Prop :=
  Cause sub.options.toOptions (laws.tokens x row.step) cancelled row

/-- The number of tokens that the state of a row has taken up.  A cancelled row may have one
more token than its state. -/
def TakenUp (step : Nat) (cancelled : Bool) (n : Nat) : Prop :=
  n = step ∨ cancelled = true ∧ step = n + 1

/-- The state and the logits of a row are with its request. -/
structure Stored (s : Shared α ρ ℓ κ σ) (r : Nat) (state : ρ) (logits : Option ℓ) : Prop where
  state : (s.requests (s.requestOf r)).state.rows[(s.rows r).index]? = some state
  logits : (s.requests (s.requestOf r)).logits.rows[(s.rows r).index]? = some logits

/-- A row that waits; before it had a slot it has no sampler. -/
def Laws.Waiting (s : Shared α ρ ℓ κ σ) (r : Nat) : Prop :=
  ∃ x row, Traces e s r x row ∧
    Stored s r (laws.cellAt x row.step).state (laws.cellAt x row.step).logits ∧
    ((s.rows r).savedSampler = some (laws.cellAt x row.step).sampler ∨
      (s.rows r).savedSampler = none ∧ row.step = 0) ∧
    (laws.IsLive (s.subOf r) x row ∨
      (s.subOf r).options.maxTokens ≤ 0 ∧ laws.IsClosable (s.subOf r) x row)

/-- A row that leaves its slot with the cell `c`. -/
def Laws.Leaves (s : Shared α ρ ℓ κ σ) (x : Origin α ρ ℓ κ σ) (row : DecodeRow.Row)
    (r : Nat) (c : Cell ρ ℓ σ) : Prop :=
  laws.IsClosable (s.subOf r) x row ∧
    laws.HasCause (s.subOf r) x (s.isCancelled r) row ∧
    ∃ n, TakenUp row.step (s.isCancelled r) n ∧ c.state = (laws.cellAt x n).state ∧
      c.logits = (laws.cellAt x n).logits

/-- A row that goes on in its slot with the cell `c`.  Between the sampling and the forward
pass, its sampler and its tokens are ahead of its state. -/
def Laws.GoesOn (sampled : Bool) (sub : Submission α ρ ℓ κ) (x : Origin α ρ ℓ κ σ)
    (row : DecodeRow.Row) (c : Cell ρ ℓ σ) : Prop :=
  if sampled then
    laws.IsCounted sub x row ∧ ∃ n, row.step = n + 1 ∧ row.token = laws.tokenAt x n ∧
      c = { laws.cellAt x n with sampler := (laws.cellAt x (n + 1)).sampler }
  else laws.IsLive sub x row ∧ c = laws.cellAt x row.step

/-- A row in a slot. -/
def Laws.Seat (sampled : Bool) (s : Shared α ρ ℓ κ σ) (r : Nat) (c : Cell ρ ℓ σ) : Prop :=
  ∃ x row, Traces e s r x row ∧
    (row.finished = true ∧ laws.Leaves s x row r c ∨
      row.finished = false ∧ laws.GoesOn sampled (s.subOf r) x row c)

/-- A completed row; its state is with its request, unless that has failed. -/
def Laws.Left (s : Shared α ρ ℓ κ σ) (r : Nat) : Prop :=
  ∃ x row, Traces e s r x row ∧ laws.IsEnded (s.subOf r) x (s.isCancelled r) row ∧
    ((s.requests (s.requestOf r)).error = none →
      ∃ n, TakenUp row.step (s.isCancelled r) n ∧
        Stored s r (laws.cellAt x n).state (laws.cellAt x n).logits)

/-- An open row, wherever it is. -/
def Laws.Textual (s : Shared α ρ ℓ κ σ) (r : Nat) : Prop :=
  ∃ x row, Traces e s r x row ∧ laws.IsClosable (s.subOf r) x row

variable {laws} {x : Origin α ρ ℓ κ σ} {row : DecodeRow.Row} {c : Cell ρ ℓ σ} {sampled : Bool}

theorem Follows.isCancelled (h : Follows r s t) (hcancelled : s.isCancelled r = true) :
    t.isCancelled r = true := by
  rw [Shared.isCancelled, h.request]
  exact h.texts.cancelled hcancelled

theorem Traces.follows (h : Traces e s r x row) (hfollows : Follows r s t) :
    Traces e t r x row where
  views := h.views.follows hfollows
  origin := by
    rw [hfollows.subOf, hfollows.index]
    exact h.origin

theorem TakenUp.mono {step n : Nat} {cancelled cancelled' : Bool} (h : TakenUp step cancelled n)
    (hmono : cancelled = true → cancelled' = true) : TakenUp step cancelled' n :=
  h.imp_right fun hlate => ⟨hmono hlate.1, hlate.2⟩

theorem Laws.Leaves.mono (h : laws.Leaves s x row r c) (hsub : t.subOf r = s.subOf r)
    (hcancelled : s.isCancelled r = true → t.isCancelled r = true) :
    laws.Leaves t x row r c := by
  obtain ⟨hclosable, hcause, n, hn, hstate, hlogits⟩ := h
  rw [Laws.Leaves, hsub]
  exact ⟨hclosable, hcause.imp_left hcancelled, n, hn.mono hcancelled, hstate, hlogits⟩

theorem Laws.Seat.follows (h : laws.Seat sampled s r c) (hfollows : Follows r s t) :
    laws.Seat sampled t r c := by
  obtain ⟨x, row, htraces, hrow⟩ := h
  refine ⟨x, row, htraces.follows hfollows, hrow.imp (fun hleaves => ?_) fun hgoes => ?_⟩
  · exact ⟨hleaves.1, hleaves.2.mono hfollows.subOf hfollows.isCancelled⟩
  · rw [hfollows.subOf]
    exact hgoes

theorem Laws.Textual.follows (h : laws.Textual s r) (hfollows : Follows r s t) :
    laws.Textual t r := by
  obtain ⟨x, row, htraces, hclosable⟩ := h
  refine ⟨x, row, htraces.follows hfollows, ?_⟩
  rw [hfollows.subOf]
  exact hclosable

theorem Stored.preserves {state : ρ} {logits : Option ℓ} (h : Stored s r state logits)
    (hpreserves : Preserves r s t) : Stored t r state logits where
  state := by
    rw [hpreserves.follows.request, hpreserves.row, hpreserves.lanes.lane]
    exact h.state
  logits := by
    rw [hpreserves.follows.request, hpreserves.row, hpreserves.lanes.logits]
    exact h.logits

theorem Laws.Waiting.preserves (h : laws.Waiting s r) (hpreserves : Preserves r s t) :
    laws.Waiting t r := by
  obtain ⟨x, row, htraces, hstored, hsaved, hrow⟩ := h
  refine ⟨x, row, htraces.follows hpreserves.follows, hstored.preserves hpreserves, ?_, ?_⟩
  · rw [hpreserves.row]
    exact hsaved
  · rw [hpreserves.follows.subOf]
    exact hrow

theorem Laws.Left.preserves (h : laws.Left s r) (hpreserves : Preserves r s t) :
    laws.Left t r := by
  obtain ⟨x, row, htraces, hended, hstored⟩ := h
  have hfollows := hpreserves.follows
  refine ⟨x, row, htraces.follows hfollows, ?_, fun herror => ?_⟩
  · rw [hfollows.subOf]
    exact hended.mono hfollows.isCancelled
  · have hfine : (s.requests (s.requestOf r)).error = none := by
      by_contra hfailed
      rw [hfollows.request] at herror
      exact hfollows.texts.failed hfailed herror
    obtain ⟨n, hn, hstored⟩ := hstored hfine
    exact ⟨n, hn.mono hfollows.isCancelled, hstored.preserves hpreserves⟩

theorem closable_of_goesOn {sub : Submission α ρ ℓ κ} (h : laws.GoesOn sampled sub x row c) :
    laws.IsClosable sub x row := by
  cases sampled with
  | false => exact closable_counted h.1.toCounted
  | true => exact closable_counted h.1

theorem Laws.Seat.textual (h : laws.Seat sampled s r c) : laws.Textual s r := by
  obtain ⟨x, row, htraces, ⟨-, hleaves⟩ | ⟨-, hgoes⟩⟩ := h
  · exact ⟨x, row, htraces, hleaves.1⟩
  · exact ⟨x, row, htraces, closable_of_goesOn hgoes⟩

theorem Laws.Waiting.textual (h : laws.Waiting s r) : laws.Textual s r := by
  obtain ⟨x, row, htraces, -, -, hlive | ⟨-, hclosable⟩⟩ := h
  · exact ⟨x, row, htraces, closable_counted hlive.toCounted⟩
  · exact ⟨x, row, htraces, hclosable⟩

/-- A cancelled row may leave at any time. -/
theorem leaves_of_goesOn (h : laws.GoesOn sampled (s.subOf r) x row c)
    (hcancelled : s.isCancelled r = true) : laws.Leaves s x row r c := by
  refine ⟨closable_of_goesOn h, Or.inl hcancelled, ?_⟩
  cases sampled with
  | false =>
      obtain ⟨-, rfl⟩ := h
      exact ⟨row.step, Or.inl rfl, rfl, rfl⟩
  | true =>
      obtain ⟨-, n, hstep, -, rfl⟩ := h
      exact ⟨n, Or.inr ⟨hcancelled, hstep⟩, rfl, rfl⟩

theorem Laws.Leaves.finish (h : laws.Leaves s x row r c) :
    laws.Leaves s x { row with finished := true } r c :=
  ⟨Closable.finish h.1, h.2.1, h.2.2⟩

end Places

section Health

variable {e : Engine α ρ ℓ κ σ} {laws : Laws e} {broken : Nat → Prop}

/-- What holds of every request; a broken one may have lost its metadata. -/
structure Sound (e : Engine α ρ ℓ κ σ) (broken : Prop) (req : Request α ρ ℓ κ) : Prop where
  prefilled : Prefilled e req.submission
  bound : Bound req
  cancelled : req.error ≠ none → req.cancelled = true
  refused : ∀ message, req.error ≠ some (.refused message)
  identity : req.error = none → ¬broken → req.state.identity = req.submission.state.identity

theorem Sound.elsewhere {i : Nat} {a b : Request α ρ ℓ κ} {p : Prop} (h : Sound e p a)
    (hb : Elsewhere i a b) (herror : b.error = a.error)
    (hidentity : ¬p → a.error = none → b.state.identity = a.state.identity) : Sound e p b where
  prefilled := hb.submission.symm ▸ h.prefilled
  bound := h.bound.elsewhere hb
  cancelled := fun hfailed => hb.cancelled (h.cancelled (herror ▸ hfailed))
  refused := herror.symm ▸ h.refused
  identity := fun hfine hwhole => by
    rw [herror] at hfine
    rw [hidentity hwhole hfine, hb.submission]
    exact h.identity hfine hwhole

/-- The requests are sound, and the completed rows have what they should. -/
structure Healthy (laws : Laws e) (broken : Nat → Prop) (s : Shared α ρ ℓ κ σ) : Prop where
  requests : ∀ q < s.requestCount, Sound e (broken q) (s.requests q)
  left : ∀ r < s.rowCount, s.isOpen r = false → laws.Left s r

theorem Acts.elsewhere (h : Acts r s t) (q : Nat) :
    ∃ i, Elsewhere i (s.requests q) (t.requests q) := by
  by_cases hq : q = s.requestOf r
  · exact ⟨_, hq ▸ h.own⟩
  · exact ⟨0, (h.others q hq).elsewhere 0⟩

/-- An operation on an open row. -/
theorem Healthy.acts (h : Healthy laws broken s) (hacts : Acts r s t) (hs : Tallied s)
    (hr : r < s.rowCount) (herror : ∀ q, (t.requests q).error = (s.requests q).error)
    (hidentity : ∀ q, ¬broken q → (s.requests q).error = none →
      (t.requests q).state.identity = (s.requests q).state.identity)
    (hclosed : t.isOpen r = false → laws.Left t r) : Healthy laws broken t where
  requests := fun q hq => by
    obtain ⟨i, hown⟩ := hacts.elsewhere q
    exact (h.requests q (hacts.requestCount ▸ hq)).elsewhere hown (herror q) (hidentity q)
  left := fun r' hr' hopen => by
    by_cases hne : r' = r
    · exact hne ▸ hclosed (hne ▸ hopen)
    · rw [isOpen_congr (hacts.rows r' hne)] at hopen
      have hlt : r' < s.rowCount := hacts.rowCount ▸ hr'
      refine (h.left r' hlt hopen).preserves (hacts.preserves hs hlt hr hne fun q => ?_)
      rw [herror q]
      exact id

/-- Rows and requests are the same. -/
structure SameTables (s t : Shared α ρ ℓ κ σ) : Prop where
  rows : t.rows = s.rows
  rowCount : t.rowCount = s.rowCount
  requests : t.requests = s.requests
  requestCount : t.requestCount = s.requestCount

theorem SameTables.preserves (h : SameTables s t) (r : Nat) : Preserves r s t :=
  preserves_later (congrFun h.rows r) fun q => by rw [h.requests]; exact Later.refl _

theorem Healthy.same (h : Healthy laws broken s) (hsame : SameTables s t) :
    Healthy laws broken t where
  requests := fun q hq => by
    rw [hsame.requests]
    exact h.requests q (hsame.requestCount ▸ hq)
  left := fun r hr hclosed => by
    rw [isOpen_congr (congrFun hsame.rows r)] at hclosed
    exact (h.left r (hsame.rowCount ▸ hr) hclosed).preserves (hsame.preserves r)

/-- The states and the logits of the requests stay. -/
structure SameStore (s t : Shared α ρ ℓ κ σ) : Prop where
  state : ∀ q, (t.requests q).state = (s.requests q).state
  logits : ∀ q, (t.requests q).logits = (s.requests q).logits

theorem SameStore.refl (s : Shared α ρ ℓ κ σ) : SameStore s s :=
  ⟨fun _ => rfl, fun _ => rfl⟩

theorem SameStore.trans (hst : SameStore s t) (htu : SameStore t u) : SameStore s u :=
  ⟨fun q => (htu.state q).trans (hst.state q), fun q => (htu.logits q).trans (hst.logits q)⟩

theorem store_interfere (s : Shared α ρ ℓ κ σ) : SameStore s s.interfere :=
  ⟨fun _ => rfl, fun _ => rfl⟩

theorem store_updateRow (s : Shared α ρ ℓ κ σ) (r : Nat) (f : Row σ → Row σ) :
    SameStore s (s.updateRow r f) :=
  ⟨fun _ => rfl, fun _ => rfl⟩

theorem store_updateRequest (s : Shared α ρ ℓ κ σ) (q : Nat)
    {f : Request α ρ ℓ κ → Request α ρ ℓ κ} (hstate : ∀ req, (f req).state = req.state)
    (hlogits : ∀ req, (f req).logits = req.logits) : SameStore s (s.updateRequest q f) := by
  refine ⟨fun q' => ?_, fun q' => ?_⟩
  · by_cases hq : q' = q
    · rw [hq, updateRequest_self, hstate]
    · rw [updateRequest_ne hq]
  · by_cases hq : q' = q
    · rw [hq, updateRequest_self, hlogits]
    · rw [updateRequest_ne hq]

theorem store_event (s : Shared α ρ ℓ κ σ) (r : Nat) (text : Bytes) (stop : Bool) :
    SameStore s (event s r text stop) := by
  unfold event
  exact (store_interfere s).trans (store_updateRequest _ _ (fun _ => rfl) fun _ => rfl)

theorem store_flush (s : Shared α ρ ℓ κ σ) (r : Nat) (final : Bool) :
    SameStore s (flush s r final) := by
  unfold flush
  dsimp only
  split
  · exact store_updateRow s r _
  · exact (store_updateRow s r _).trans (store_event _ r _ _)

theorem store_complete (s : Shared α ρ ℓ κ σ) (r : Nat) : SameStore s (complete s r) := by
  have hnote : ∀ (s : Shared α ρ ℓ κ σ) q, SameStore s (noteInterrupted s q) := fun s q => by
    unfold noteInterrupted
    dsimp only
    split
    · exact (store_interfere s).trans (store_updateRequest _ _ (fun _ => rfl) fun _ => rfl)
    · exact store_interfere s
  have hstop : ∀ s : Shared α ρ ℓ κ σ, SameStore s (stopEvent s r) := fun s => by
    unfold stopEvent
    dsimp only
    split
    · split
      · exact (store_interfere s).trans (store_event _ r _ _)
      · exact store_interfere s
    · exact SameStore.refl s
  have hcount : ∀ (s : Shared α ρ ℓ κ σ) q, SameStore s (countDown s q) := fun s q => by
    have hone : SameStore s
        (s.updateRequest q fun req => { req with remaining := req.remaining - 1 }) :=
      store_updateRequest _ _ (fun _ => rfl) fun _ => rfl
    unfold countDown
    dsimp only
    split
    · exact (hone.trans (store_interfere _)).trans
        (store_updateRequest _ _ (fun _ => rfl) fun _ => rfl)
    · exact hone
  unfold complete
  dsimp only
  split
  · exact SameStore.refl s
  · exact ((((store_updateRow s r _).trans (hnote _ _)).trans (store_flush _ r true)).trans
      (hstop _)).trans (hcount _ _)

theorem Stored.same {state : ρ} {logits : Option ℓ} (h : Stored s r state logits)
    (hstore : SameStore s t) (hrequest : t.requestOf r = s.requestOf r)
    (hindex : (t.rows r).index = (s.rows r).index) : Stored t r state logits where
  state := by
    rw [hrequest, hindex, hstore.state]
    exact h.state
  logits := by
    rw [hrequest, hindex, hstore.logits]
    exact h.logits

/-- A row that is completed with its state in place. -/
theorem left_complete {x : Origin α ρ ℓ κ σ} {row : DecodeRow.Row} (htraces : Traces e s r x row)
    (hclosable : laws.IsClosable (s.subOf r) x row)
    (hcause : laws.HasCause (s.subOf r) x (s.isCancelled r) row)
    (hstored : (s.requests (s.requestOf r)).error = none →
      ∃ n, TakenUp row.step (s.isCancelled r) n ∧
        Stored s r (laws.cellAt x n).state (laws.cellAt x n).logits) :
    laws.Left (complete s r) r := by
  obtain ⟨row', hviews, hended⟩ := htraces.views.complete hclosable hcause
  have hacts := acts_complete s r
  have hopen : s.isOpen r = true := by
    rw [isOpen_iff, ← htraces.views.same.completed]
    exact hclosable.completed
  have herror := (completes_complete hopen).error
  have hsub : (complete s r).subOf r = s.subOf r := by
    rw [Shared.subOf, hacts.request]
    exact hacts.own.submission
  have hstep : row'.step = row.step := hended.step.trans (laws.length_tokens x _)
  have hcancelled : s.isCancelled r = true → (complete s r).isCancelled r = true := by
    rw [Shared.isCancelled, Shared.isCancelled, hacts.request]
    exact hacts.cancelled_mono _
  refine ⟨x, row', ⟨hviews, ?_⟩, ?_, fun hfine => ?_⟩
  · rw [hsub, hacts.index]
    exact htraces.origin
  · rw [Laws.IsEnded, hsub, hstep]
    exact hended
  · rw [hacts.request, herror] at hfine
    obtain ⟨n, hn, hstored⟩ := hstored hfine
    rw [hstep]
    exact ⟨n, hn.mono hcancelled, hstored.same (store_complete s r) hacts.request hacts.index⟩

end Health

section Export

variable {e : Engine α ρ ℓ κ σ} {laws : Laws e} {q : Nat}

/-- The state and the logits of a request are written, and nothing else. -/
structure Writes (q : Nat) (state : GenerationState α ρ) (logits : DeviceLogits ℓ)
    (s t : Shared α ρ ℓ κ σ) : Prop where
  rows : t.rows = s.rows
  requests : t.requests =
    Function.update s.requests q { s.requests q with state := state, logits := logits }

variable {state state' : GenerationState α ρ} {logits logits' : DeviceLogits ℓ}

theorem Writes.refl (q : Nat) (s : Shared α ρ ℓ κ σ) :
    Writes q (s.requests q).state (s.requests q).logits s s :=
  ⟨rfl, (Function.update_eq_self q s.requests).symm⟩

theorem Writes.own (h : Writes q state logits s t) :
    t.requests q = { s.requests q with state := state, logits := logits } := by
  rw [h.requests, Function.update_self]

theorem Writes.write (h : Writes q state logits s t) {f : Request α ρ ℓ κ → Request α ρ ℓ κ}
    (hf : f { s.requests q with state := state, logits := logits } =
      { s.requests q with state := state', logits := logits' }) :
    Writes q state' logits' s (t.updateRequest q f) where
  rows := h.rows
  requests := by
    show Function.update t.requests q (f (t.requests q)) = _
    rw [h.own, h.requests, Function.update_idem, hf]

theorem Writes.follows (h : Writes q state logits s t) (r : Nat) : Follows r s t where
  row := ⟨(s.rows r).savedSampler, congrFun h.rows r⟩
  texts := by
    rw [h.requests]
    by_cases hq : s.requestOf r = q
    · rw [hq, Function.update_self]
      exact ⟨rfl, id, id, Or.inl rfl, rfl, rfl⟩
    · rw [Function.update_of_ne hq]
      exact ((Later.refl _).keepsLane _).toKeepsText

theorem Writes.other (h : Writes q state logits s t) {q' : Nat} (hq : q' ≠ q) :
    t.requests q' = s.requests q' := by
  rw [h.requests, Function.update_of_ne hq]

/-- What a group has in a slot. -/
structure Holds (g : Group α ρ ℓ κ σ) (slot : Nat) (c : Cell ρ ℓ σ) : Prop where
  state : g.state.rows[slot]? = some c.state
  logits : g.logits.rows[slot]? = some c.logits
  sampler : g.sampler[slot]? = some c.sampler

variable {g : Group α ρ ℓ κ σ} {slot : Nat} {c : Cell ρ ℓ σ}

/-- No request has lost its metadata. -/
abbrev Whole (laws : Laws e) (s : Shared α ρ ℓ κ σ) : Prop :=
  Healthy laws (fun _ => False) s

theorem Whole.sound (h : Whole laws s) (hs : Tallied s) (hr : r < s.rowCount) :
    Sound e False (s.requests (s.requestOf r)) :=
  h.requests _ (hs.owned r hr).1

theorem Works.isOpen (h : Works r s t) (hopen : s.isOpen r = true) : ¬t.isOpen r = false := by
  rw [h.isOpen_eq r, hopen]
  exact fun h => nomatch h

end Export

section Sweep

variable {e : Engine α ρ ℓ κ σ} {laws : Laws e} {broken : Nat → Prop}
variable {g : Group α ρ ℓ κ σ} {slot : Nat} {c : Cell ρ ℓ σ} {sampled allowPause : Bool}

/-- A row that is completed; its state is in place. -/
theorem Healthy.complete (h : Healthy laws broken s) (hs : Tallied s) (hr : r < s.rowCount)
    (hleft : laws.Left (complete s r) r) : Healthy laws broken (complete s r) :=
  h.acts (acts_complete s r) hs hr (steps_complete hs hr).error
    (fun q _ _ => by rw [(store_complete s r).state]) fun _ => hleft

/-- A row in its slot whose request is cancelled is ready to leave. -/
theorem Laws.Seat.noteCancelled (h : laws.Seat sampled s r c) :
    laws.Seat sampled (noteCancelled s r) r c := by
  have hi := h.follows (preserves_interfere r s).follows
  unfold DecodeScheduler.noteCancelled
  dsimp only
  split
  · next hcancelled =>
      obtain ⟨x, row, htraces, hrow⟩ := hi
      have hleaves : laws.Leaves s.interfere x row r c :=
        hrow.elim (fun hleaves => hleaves.2) fun hgoes => leaves_of_goesOn hgoes.2 hcancelled
      have hviews := htraces.views.finish
      have hrequest :
          (s.interfere.updateRow r fun row => { row with finished := true }).requestOf r =
          s.interfere.requestOf r := by
        rw [Shared.requestOf, updateRow_self]
        rfl
      refine ⟨x, _, ⟨hviews, ?_⟩, Or.inl ⟨rfl, hleaves.finish.mono ?_ ?_⟩⟩
      · rw [Shared.subOf, hrequest, updateRow_self]
        exact htraces.origin
      · rw [Shared.subOf, hrequest]
        rfl
      · rw [Shared.isCancelled, Shared.isCancelled, hrequest]
        exact id
  · exact hi

/-- A row that leaves its slot is completed with its state in place. -/
theorem Laws.Leaves.left {x : Origin α ρ ℓ κ σ} {row : DecodeRow.Row}
    (htraces : Traces e s r x row) (h : laws.Leaves s x row r c) (hfollows : Follows r s t)
    (hstored : Stored t r c.state c.logits) : laws.Left (complete t r) r := by
  obtain ⟨hclosable, hcause, n, hn, hstate, hlogits⟩ :=
    h.mono hfollows.subOf hfollows.isCancelled
  exact left_complete (htraces.follows hfollows) hclosable hcause
    fun _ => ⟨n, hn, hstate ▸ hlogits ▸ hstored⟩

theorem follows_requests (hrequests : t.requests = s.requests)
    (hrow : ∃ saved, t.rows r = { s.rows r with savedSampler := saved }) : Follows r s t := by
  refine ⟨hrow, ?_⟩
  rw [hrequests]
  exact ((Later.refl _).keepsLane _).toKeepsText

end Sweep

end DecodeScheduler
end RwkvLightning

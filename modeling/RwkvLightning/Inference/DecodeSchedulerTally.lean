import RwkvLightning.Inference.DecodeSchedulerFrame
import Mathlib

/-!
# The count of the rows of a request

`remaining` of a request of the decode scheduler is the number of its rows that are not
completed, and `done` is set when there are none.

**Results.**
* `Tallied`: the counts agree with the rows.
* `Advances`: what happens to the tables while the scheduler works; a request that is done is
  left alone.
* `advances_works`, `advances_complete`: every operation on an open row is of this kind.
-/

namespace RwkvLightning
namespace DecodeScheduler

open Backend Text

variable {α ρ ℓ κ σ : Type} {s t u : Shared α ρ ℓ κ σ} {r : Nat}

section Same

theorem Acts.request_eq (h : Acts r s t) (r' : Nat) : t.requestOf r' = s.requestOf r' := by
  by_cases hr : r' = r
  · rw [hr, h.request]
  · rw [Shared.requestOf, h.rows r' hr, Shared.requestOf]

theorem Acts.index_eq (h : Acts r s t) (r' : Nat) : (t.rows r').index = (s.rows r').index := by
  by_cases hr : r' = r
  · rw [hr, h.index]
  · rw [h.rows r' hr]

theorem Acts.completed_mono (h : Acts r s t) (r' : Nat) (hdone : (s.rows r').completed = true) :
    (t.rows r').completed = true := by
  by_cases hr : r' = r
  · subst hr
    exact h.completed hdone
  · rw [h.rows r' hr]
    exact hdone

theorem Acts.cancelled_mono (h : Acts r s t) (q : Nat)
    (hcancelled : (s.requests q).cancelled = true) : (t.requests q).cancelled = true := by
  by_cases hq : q = s.requestOf r
  · subst hq
    exact h.own.cancelled hcancelled
  · exact (h.others q hq).cancelled hcancelled

theorem Acts.width_eq (h : Acts r s t) (q : Nat) :
    (t.requests q).state.rows.length = (s.requests q).state.rows.length := by
  by_cases hq : q = s.requestOf r
  · subst hq
    exact h.own.width
  · rw [(h.others q hq).same]

theorem Works.completed_eq (h : Works r s t) (r' : Nat) :
    (t.rows r').completed = (s.rows r').completed := by
  by_cases hr : r' = r
  · rw [hr, h.unchanged]
  · rw [h.rows r' hr]

theorem Works.remaining_eq (h : Works r s t) (q : Nat) :
    (t.requests q).remaining = (s.requests q).remaining := by
  by_cases hq : q = s.requestOf r
  · rw [hq, h.remaining]
  · exact (h.others q hq).remaining

theorem Works.done_eq (h : Works r s t) (q : Nat) :
    (t.requests q).done = (s.requests q).done := by
  by_cases hq : q = s.requestOf r
  · rw [hq, h.done]
  · exact (h.others q hq).done

theorem Works.error_eq (h : Works r s t) (q : Nat) :
    (t.requests q).error = (s.requests q).error := by
  by_cases hq : q = s.requestOf r
  · rw [hq, h.error]
  · exact (h.others q hq).error

end Same

section Counts

/-- The row is not completed. -/
def Shared.isOpen (s : Shared α ρ ℓ κ σ) (r : Nat) : Bool :=
  !(s.rows r).completed

/-- The open rows of a request. -/
def Shared.openOf (s : Shared α ρ ℓ κ σ) (q : Nat) : List Nat :=
  (List.range s.rowCount).filter fun r => s.isOpen r && s.requestOf r == q

/-- The counts of the requests agree with their rows; requests that wait have none yet. -/
structure Tallied (s : Shared α ρ ℓ κ σ) : Prop where
  owned : ∀ r < s.rowCount, s.requestOf r < s.requestCount ∧ s.requestOf r ∉ s.incoming
  distinct : ∀ r < s.rowCount, ∀ r' < s.rowCount, s.requestOf r = s.requestOf r' →
    (s.rows r).index = (s.rows r').index → r = r'
  waiting : ∀ q ∈ s.incoming, q < s.requestCount ∧ 0 < (s.requests q).remaining ∧
    (s.requests q).remaining = (s.requests q).state.rows.length
  once : s.incoming.Nodup
  remaining : ∀ q < s.requestCount, q ∉ s.incoming →
    (s.requests q).remaining = (s.openOf q).length
  done : ∀ q < s.requestCount, (s.requests q).done = true ↔ (s.requests q).remaining = 0

theorem isOpen_iff : s.isOpen r = true ↔ (s.rows r).completed = false := by
  rw [Shared.isOpen, Bool.not_eq_true']

theorem mem_openOf {q : Nat} :
    r ∈ s.openOf q ↔ r < s.rowCount ∧ s.isOpen r = true ∧ s.requestOf r = q := by
  rw [Shared.openOf, List.mem_filter, List.mem_range, Bool.and_eq_true, beq_iff_eq]

theorem nodup_openOf (s : Shared α ρ ℓ κ σ) (q : Nat) : (s.openOf q).Nodup :=
  List.nodup_range.filter _

/-- The request of an open row is not done. -/
theorem Tallied.not_done (h : Tallied s) (hr : r < s.rowCount) (hopen : s.isOpen r = true) :
    (s.requests (s.requestOf r)).done = false := by
  obtain ⟨hq, hadmitted⟩ := h.owned r hr
  rw [← Bool.not_eq_true, h.done _ hq, h.remaining _ hq hadmitted]
  exact Nat.ne_of_gt (List.length_pos_of_mem (mem_openOf.mpr ⟨hr, hopen, rfl⟩))

/-- What happens to the tables while the scheduler works: nothing is forgotten, and a request
that is done is left to its client. -/
structure Advances (s t : Shared α ρ ℓ κ σ) : Prop where
  requestCount : t.requestCount = s.requestCount
  rowCount : t.rowCount = s.rowCount
  incoming : t.incoming = s.incoming
  request : ∀ r, t.requestOf r = s.requestOf r
  completed : ∀ r, (s.rows r).completed = true → (t.rows r).completed = true
  cancelled : ∀ q, (s.requests q).cancelled = true → (t.requests q).cancelled = true
  frozen : ∀ q, (s.requests q).done = true → Later (s.requests q) (t.requests q)
  tallied : Tallied t

theorem Advances.refl (h : Tallied s) : Advances s s where
  requestCount := rfl
  rowCount := rfl
  incoming := rfl
  request := fun _ => rfl
  completed := fun _ => id
  cancelled := fun _ => id
  frozen := fun _ _ => Later.refl _
  tallied := h

theorem Advances.trans (hst : Advances s t) (htu : Advances t u) : Advances s u where
  requestCount := htu.requestCount.trans hst.requestCount
  rowCount := htu.rowCount.trans hst.rowCount
  incoming := htu.incoming.trans hst.incoming
  request := fun r => (htu.request r).trans (hst.request r)
  completed := fun r h => htu.completed r (hst.completed r h)
  cancelled := fun q h => htu.cancelled q (hst.cancelled q h)
  frozen := fun q h => (hst.frozen q h).trans (htu.frozen q ((hst.frozen q h).done.trans h))
  tallied := htu.tallied

theorem Advances.open_of_open (h : Advances s t) (hopen : t.isOpen r = true) :
    s.isOpen r = true := by
  rw [isOpen_iff] at hopen ⊢
  by_contra hdone
  rw [h.completed r (Bool.eq_true_of_not_eq_false hdone)] at hopen
  cases hopen

/-- An operation on an open row leaves the requests that are done to their clients. -/
theorem Acts.frozen (h : Acts r s t) (hs : Tallied s) (hr : r < s.rowCount)
    (hopen : s.isOpen r = true) (q : Nat) (hdone : (s.requests q).done = true) :
    Later (s.requests q) (t.requests q) := by
  refine h.others q fun hq => ?_
  rw [hq, hs.not_done hr hopen] at hdone
  cases hdone

/-- Tables with the same rows and the same counts. -/
theorem Tallied.congr (h : Tallied s) (hrequestCount : t.requestCount = s.requestCount)
    (hrowCount : t.rowCount = s.rowCount) (hincoming : t.incoming = s.incoming)
    (hrequest : ∀ r, t.requestOf r = s.requestOf r)
    (hindex : ∀ r, (t.rows r).index = (s.rows r).index)
    (hcompleted : ∀ r, (t.rows r).completed = (s.rows r).completed)
    (hremaining : ∀ q, (t.requests q).remaining = (s.requests q).remaining)
    (hdone : ∀ q, (t.requests q).done = (s.requests q).done)
    (hwidth : ∀ q, (t.requests q).state.rows.length = (s.requests q).state.rows.length) :
    Tallied t := by
  have hopenOf : ∀ q, t.openOf q = s.openOf q := by
    intro q
    simp only [Shared.openOf, Shared.isOpen, hrowCount, hrequest, hcompleted]
  refine ⟨?_, ?_, ?_, ?_, ?_, ?_⟩
  · intro r hr
    rw [hrequest, hrequestCount, hincoming]
    exact h.owned r (hrowCount ▸ hr)
  · intro r hr r' hr' hsame hindices
    rw [hrequest, hrequest] at hsame
    rw [hindex, hindex] at hindices
    exact h.distinct r (hrowCount ▸ hr) r' (hrowCount ▸ hr') hsame hindices
  · intro q hq
    rw [hremaining, hwidth, hrequestCount]
    exact h.waiting q (hincoming ▸ hq)
  · exact hincoming ▸ h.once
  · intro q hq hadmitted
    rw [hremaining, hopenOf]
    exact h.remaining q (hrequestCount ▸ hq) (hincoming ▸ hadmitted)
  · intro q hq
    rw [hdone, hremaining]
    exact h.done q (hrequestCount ▸ hq)

theorem Works.tallied (h : Works r s t) (hs : Tallied s) : Tallied t :=
  hs.congr h.requestCount h.rowCount h.incoming h.request_eq h.index_eq h.completed_eq
    h.remaining_eq h.done_eq h.width_eq

theorem advances_works (h : Works r s t) (hs : Tallied s) (hr : r < s.rowCount)
    (hopen : s.isOpen r = true) : Advances s t where
  requestCount := h.requestCount
  rowCount := h.rowCount
  incoming := h.incoming
  request := h.request_eq
  completed := h.completed_mono
  cancelled := h.cancelled_mono
  frozen := h.toActs.frozen hs hr hopen
  tallied := h.tallied hs

end Counts

section Completion

variable {q : Nat}

/-- What `countDown` does to the counts. -/
theorem countDown_spec (s : Shared α ρ ℓ κ σ) (q : Nat) :
    (countDown s q).rows = s.rows ∧ (countDown s q).pendingRows = s.pendingRows ∧
      (∀ q', ((countDown s q).requests q').error = (s.requests q').error) ∧
      (∀ q' ≠ q, ((countDown s q).requests q').remaining = (s.requests q').remaining ∧
        ((countDown s q).requests q').done = (s.requests q').done) ∧
      ((countDown s q).requests q).remaining = (s.requests q).remaining - 1 ∧
      ((countDown s q).requests q).done =
        ((s.requests q).done || decide ((s.requests q).remaining - 1 = 0)) := by
  let counted := s.updateRequest q fun req => { req with remaining := req.remaining - 1 }
  have hself : counted.requests q =
      { s.requests q with remaining := (s.requests q).remaining - 1 } := updateRequest_self _
  have hne : ∀ q' ≠ q, counted.requests q' = s.requests q' := fun q' hq => updateRequest_ne hq _
  have herror : ∀ q', (counted.requests q').error = (s.requests q').error := by
    intro q'
    by_cases hq : q' = q
    · rw [hq, hself]
    · rw [hne q' hq]
  have hzero : (counted.requests q).remaining = (s.requests q).remaining - 1 := by rw [hself]
  by_cases hlast : (counted.requests q).remaining = 0
  · have hdown : countDown s q =
        counted.interfere.updateRequest q fun req => { req with done := true } := if_pos hlast
    rw [hdown]
    refine ⟨rfl, rfl, fun q' => ?_, fun q' hq => ?_, ?_, ?_⟩
    · rw [← herror, ← (later_interfere counted q').error]
      by_cases hq : q' = q
      · rw [hq, updateRequest_self]
      · rw [updateRequest_ne hq]
    · rw [updateRequest_ne hq, (later_interfere _ q').remaining, (later_interfere _ q').done,
        hne q' hq]
      exact ⟨rfl, rfl⟩
    · rw [updateRequest_self, ← hzero]
      exact (later_interfere counted q).remaining
    · rw [updateRequest_self, ← hzero, hlast]
      exact (Bool.or_true _).symm
  · have hdown : countDown s q = counted := if_neg hlast
    rw [hdown]
    refine ⟨rfl, rfl, herror, fun q' hq => ?_, hzero, ?_⟩
    · rw [hne q' hq]
      exact ⟨rfl, rfl⟩
    · rw [← hzero, decide_eq_false hlast, hself]
      exact (Bool.or_false _).symm

/-- What `complete` does to the counts. -/
structure Completes (r : Nat) (s t : Shared α ρ ℓ κ σ) : Prop extends Acts r s t where
  closed : (t.rows r).completed = true
  pendingRows : t.pendingRows = s.pendingRows
  error : ∀ q, (t.requests q).error = (s.requests q).error
  remaining : (t.requests (s.requestOf r)).remaining =
    (s.requests (s.requestOf r)).remaining - 1
  done : (t.requests (s.requestOf r)).done = ((s.requests (s.requestOf r)).done ||
    decide ((s.requests (s.requestOf r)).remaining - 1 = 0))

theorem completes_complete (hopen : s.isOpen r = true) : Completes r s (complete s r) := by
  have hcompleted : ¬(s.rows r).completed = true := by
    rw [isOpen_iff.mp hopen]
    exact Bool.false_ne_true
  have hmarked := works_complete (s.updateRow r fun row => { row with completed := true }) r
  have hrequest : (s.updateRow r fun row => { row with completed := true }).requestOf r =
      s.requestOf r := by
    rw [Shared.requestOf, updateRow_self]
    rfl
  refine
    { acts_complete s r with
      closed := ?_
      pendingRows := ?_
      error := ?_
      remaining := ?_
      done := ?_ }
  all_goals
    unfold complete
    dsimp only
    rw [if_neg hcompleted]
    rw [hrequest] at hmarked
    obtain ⟨hrows, hpending, herror, -, hremaining, hdone⟩ := countDown_spec
      (stopEvent (flush (noteInterrupted
        (s.updateRow r fun row => { row with completed := true }) (s.requestOf r)) r true) r)
      (s.requestOf r)
  · rw [hrows, hmarked.unchanged, updateRow_self]
  · rw [hpending, hmarked.pendingRows]
    rfl
  · intro q
    rw [herror, hmarked.error_eq]
    rfl
  · rw [hremaining, hmarked.remaining_eq]
    rfl
  · rw [hdone, hmarked.done_eq, hmarked.remaining_eq]
    rfl

theorem Completes.isOpen_eq (h : Completes r s t) (r' : Nat) :
    t.isOpen r' = (s.isOpen r' && r' != r) := by
  by_cases hr : r' = r
  · subst hr
    rw [Shared.isOpen, h.closed, bne_self_eq_false, Bool.and_false]
    rfl
  · rw [Shared.isOpen, h.rows r' hr, bne_iff_ne.mpr hr, Bool.and_true]
    rfl

theorem Completes.openOf_eq (h : Completes r s t) (q : Nat) :
    t.openOf q = (s.openOf q).filter fun r' => r' != r := by
  rw [Shared.openOf, Shared.openOf, List.filter_filter, h.rowCount]
  refine List.filter_congr fun r' _ => ?_
  rw [h.isOpen_eq, h.request_eq, Bool.and_comm (r' != r), Bool.and_right_comm]

theorem Completes.tallied (h : Completes r s t) (hs : Tallied s) (hr : r < s.rowCount)
    (hopen : s.isOpen r = true) : Tallied t := by
  obtain ⟨hown, hadmitted⟩ := hs.owned r hr
  have hmem : r ∈ s.openOf (s.requestOf r) := mem_openOf.mpr ⟨hr, hopen, rfl⟩
  have hwidth := h.width_eq
  refine ⟨?_, ?_, ?_, ?_, ?_, ?_⟩
  · intro r' hr'
    rw [h.request_eq, h.requestCount, h.incoming]
    exact hs.owned r' (h.rowCount ▸ hr')
  · intro r' hr' r'' hr'' hsame hindices
    rw [h.request_eq, h.request_eq] at hsame
    rw [h.index_eq, h.index_eq] at hindices
    exact hs.distinct r' (h.rowCount ▸ hr') r'' (h.rowCount ▸ hr'') hsame hindices
  · intro q hq
    rw [h.incoming] at hq
    have hne : q ≠ s.requestOf r := fun heq => hadmitted (heq ▸ hq)
    rw [(h.others q hne).remaining, hwidth, h.requestCount]
    exact hs.waiting q hq
  · exact h.incoming ▸ hs.once
  · intro q hq hq'
    rw [h.incoming] at hq'
    rw [h.requestCount] at hq
    rw [h.openOf_eq]
    by_cases hne : q = s.requestOf r
    · subst hne
      rw [h.remaining, hs.remaining _ hq hq', ← (nodup_openOf s _).erase_eq_filter,
        List.length_erase_of_mem hmem]
    · rw [(h.others q hne).remaining, hs.remaining q hq hq', List.filter_eq_self.mpr]
      intro r' hr'
      rw [bne_iff_ne]
      rintro rfl
      exact hne (mem_openOf.mp hr').2.2.symm
  · intro q hq
    rw [h.requestCount] at hq
    by_cases hne : q = s.requestOf r
    · subst hne
      rw [h.done, h.remaining, hs.not_done hr hopen, Bool.false_or, decide_eq_true_iff]
    · rw [(h.others q hne).remaining, (h.others q hne).done]
      exact hs.done q hq

theorem advances_complete (h : Completes r s t) (hs : Tallied s) (hr : r < s.rowCount)
    (hopen : s.isOpen r = true) : Advances s t where
  requestCount := h.requestCount
  rowCount := h.rowCount
  incoming := h.incoming
  request := h.request_eq
  completed := h.completed_mono
  cancelled := h.cancelled_mono
  frozen := h.toActs.frozen hs hr hopen
  tallied := h.tallied hs hr hopen

end Completion

end DecodeScheduler
end RwkvLightning

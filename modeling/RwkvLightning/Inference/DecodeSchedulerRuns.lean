import RwkvLightning.Inference.DecodeSchedulerConservation
import Mathlib

/-!
# The decode scheduler loses no row

**Results.**
* `Conserved`, `conserved_run`: the invariant, and that every run keeps it.
* `later_of_done`: a request that is done is left to its client in every run.
* `drained_of_stopping`: one pass after the destructor was called nothing is left.
-/

namespace RwkvLightning
namespace DecodeScheduler

open Backend Text Command

variable {α ρ ℓ κ σ : Type} {s t u : Shared α ρ ℓ κ σ}

section Onward

/-- What happens to the tables in a run: nothing is forgotten, and a request that is done is
left to its client. -/
structure Onward (s t : Shared α ρ ℓ κ σ) : Prop where
  requestCount : s.requestCount ≤ t.requestCount
  rowCount : s.rowCount ≤ t.rowCount
  request : ∀ r < s.rowCount, t.requestOf r = s.requestOf r
  completed : ∀ r < s.rowCount, (s.rows r).completed = true → (t.rows r).completed = true
  cancelled : ∀ q < s.requestCount,
    (s.requests q).cancelled = true → (t.requests q).cancelled = true
  frozen : ∀ q < s.requestCount, (s.requests q).done = true → Later (s.requests q) (t.requests q)

theorem Onward.refl (s : Shared α ρ ℓ κ σ) : Onward s s where
  requestCount := Nat.le_refl _
  rowCount := Nat.le_refl _
  request := fun _ _ => rfl
  completed := fun _ _ => id
  cancelled := fun _ _ => id
  frozen := fun _ _ _ => Later.refl _

theorem Onward.trans (hst : Onward s t) (htu : Onward t u) : Onward s u where
  requestCount := hst.requestCount.trans htu.requestCount
  rowCount := hst.rowCount.trans htu.rowCount
  request := fun r hr =>
    (htu.request r (Nat.lt_of_lt_of_le hr hst.rowCount)).trans (hst.request r hr)
  completed := fun r hr h =>
    htu.completed r (Nat.lt_of_lt_of_le hr hst.rowCount) (hst.completed r hr h)
  cancelled := fun q hq h =>
    htu.cancelled q (Nat.lt_of_lt_of_le hq hst.requestCount) (hst.cancelled q hq h)
  frozen := fun q hq h => by
    have hfirst := hst.frozen q hq h
    exact hfirst.trans
      (htu.frozen q (Nat.lt_of_lt_of_le hq hst.requestCount) (hfirst.done.trans h))

theorem Advances.onward (h : Advances s t) : Onward s t where
  requestCount := h.requestCount.ge
  rowCount := h.rowCount.ge
  request := fun r _ => h.request r
  completed := fun r _ => h.completed r
  cancelled := fun q _ => h.cancelled q
  frozen := fun q _ => h.frozen q

end Onward

section Polls

variable {others members : List Nat} {r : Nat}

/-- The control callbacks touch only requests of open rows. -/
structure Polls (s t : Shared α ρ ℓ κ σ) : Prop extends Advances s t where
  same : t.rows = s.rows
  pendingRows : t.pendingRows = s.pendingRows

theorem Polls.refl (h : Tallied s) : Polls s s :=
  { Advances.refl h with
    same := rfl
    pendingRows := rfl }

theorem Polls.trans (hst : Polls s t) (htu : Polls t u) : Polls s u :=
  { hst.toAdvances.trans htu.toAdvances with
    same := htu.same.trans hst.same
    pendingRows := htu.pendingRows.trans hst.pendingRows }

theorem Polls.isOpen (h : Polls s t) : t.isOpen = s.isOpen :=
  funext fun r => isOpen_congr (congrFun h.same r)

theorem polls_interfere (hs : Tallied s) : Polls s s.interfere :=
  { steps_interfere hs with
    same := rfl
    pendingRows := rfl }

theorem polls_cancelled (hs : Tallied s) (q : Nat) :
    Polls s (s.updateRequest q fun req => { req with cancelled := true }) := by
  have hsteps : Steps s (s.updateRequest q fun req => { req with cancelled := true }) :=
    steps_later hs rfl rfl rfl rfl (later_updateRequest (later_cancelled _))
  exact
    { hsteps with
      same := rfl
      pendingRows := rfl }

theorem polls_failed (err : Failure) (hs : Tallied s) (hr : r < s.rowCount)
    (hopen : s.isOpen r = true) :
    Polls s (s.updateRequest (s.requestOf r) (failed err)) :=
  { requestCount := rfl
    rowCount := rfl
    incoming := rfl
    request := fun _ => rfl
    completed := fun _ => id
    cancelled := (acts_failed err s r).cancelled_mono
    frozen := (acts_failed err s r).frozen hs hr hopen
    tallied := tallied_failed hs _
    same := rfl
    pendingRows := rfl }

theorem polls_pollRow (polls : Nat → Poll) (x : List Nat × Shared α ρ ℓ κ σ)
    (hx : Tallied x.2) (hr : r < x.2.rowCount) : Polls x.2 (pollRow polls x r).2 := by
  unfold pollRow
  dsimp only
  split
  · exact Polls.refl hx
  next hrow =>
  have hopen : x.2.isOpen r = true :=
    isOpen_iff.mpr (Bool.eq_false_of_not_eq_true fun h => hrow (Or.inl h))
  have hi := polls_interfere hx
  split
  · exact hi
  · cases polls (x.2.requestOf r) with
    | goOn => exact hi
    | stop => exact hi.trans (polls_cancelled hi.tallied _)
    | throw => exact hi.trans (polls_failed .callback hi.tallied hr hopen)

/-- A control callback that throws is the only one that leaves an error. -/
theorem pollRow_error (polls : Nat → Poll) (x : List Nat × Shared α ρ ℓ κ σ) (r q : Nat) :
    ((pollRow polls x r).2.requests q).error = (x.2.requests q).error ∨
      polls q = .throw ∧ ((pollRow polls x r).2.requests q).error = some .callback := by
  unfold pollRow
  dsimp only
  split
  · exact Or.inl rfl
  split
  · exact Or.inl rfl
  by_cases hq : q = x.2.requestOf r
  · subst hq
    cases hpoll : polls (x.2.requestOf r) with
    | goOn => exact Or.inl rfl
    | stop =>
        left
        dsimp only
        rw [updateRequest_self]
        rfl
    | throw =>
        right
        dsimp only
        rw [updateRequest_self]
        exact ⟨rfl, rfl⟩
  · left
    cases polls (x.2.requestOf r) with
    | goOn => rfl
    | stop =>
        dsimp only
        rw [updateRequest_ne hq]
        rfl
    | throw =>
        dsimp only
        rw [updateRequest_ne hq]
        rfl

theorem pollRows_error (polls : Nat → Poll) (rows : List Nat)
    (x : List Nat × Shared α ρ ℓ κ σ) (q : Nat) :
    ((rows.foldl (pollRow polls) x).2.requests q).error = (x.2.requests q).error ∨
      polls q = .throw ∧
        ((rows.foldl (pollRow polls) x).2.requests q).error = some .callback := by
  induction rows generalizing x with
  | nil => exact Or.inl rfl
  | cons r rows ih =>
      rw [List.foldl_cons]
      rcases ih (pollRow polls x r) with hsame | hthrown
      · rw [hsame]
        exact pollRow_error polls x r q
      · exact Or.inr hthrown

theorem polls_foldl (polls : Nat → Poll) (rows : List Nat) (x : List Nat × Shared α ρ ℓ κ σ)
    (hx : Tallied x.2) (hrows : ∀ r ∈ rows, r < x.2.rowCount) :
    Polls x.2 (rows.foldl (pollRow polls) x).2 := by
  induction rows generalizing x with
  | nil => exact Polls.refl hx
  | cons r rows ih =>
      have hone := polls_pollRow polls x hx (hrows r List.mem_cons_self)
      refine hone.trans (ih _ hone.tallied fun r' hr' => ?_)
      exact hone.rowCount ▸ hrows r' (List.mem_cons_of_mem _ hr')

theorem polls_pollAll (polls : Nat → Poll) {groups : List (Group α ρ ℓ κ σ)}
    (h : Quiet others s (groups.flatMap Group.members)) : Polls s (pollAll polls groups s) := by
  refine polls_foldl polls _ ([], s) h.tallied fun r hr => ?_
  rcases List.mem_append.mp hr with hr | hr
  · exact h.lt hr
  · exact (h.answerable r hr).1

end Polls

section Passes

variable (e : Engine α ρ ℓ κ σ) {w w' : System α ρ ℓ κ σ}

/-- Every open row is in one place: in one of the groups, or among the rows that wait.  The
groups have rows, stay within their limit and do not share keys. -/
structure Conserved (w : System α ρ ℓ κ σ) : Prop where
  quiet : Quiet [] w.shared (w.groups.flatMap Group.members)
  fits : Fits e w.groups
  settled : ∀ g ∈ w.groups, g.rows ≠ [] ∧ g.incoming = []

/-- Cancelling what waits, in a shutdown. -/
theorem cancels_pendingRows (shutdown : Bool) (hs : Tallied s) :
    Polls s (if shutdown then cancelRows s s.pendingRows else s) ∧
      (∀ q, ((if shutdown then cancelRows s s.pendingRows else s).requests q).error =
        (s.requests q).error) ∧
      (shutdown = true →
        ∀ r ∈ (if shutdown then cancelRows s s.pendingRows else s).pendingRows,
          (if shutdown then cancelRows s s.pendingRows else s).isCancelled r = true) := by
  cases shutdown with
  | false => exact ⟨Polls.refl hs, fun _ => rfl, fun h => nomatch h⟩
  | true =>
      have hcancels := cancelRows_spec s.pendingRows s hs
      refine ⟨{ hcancels.toAdvances with
          same := hcancels.same
          pendingRows := hcancels.pendingRows }, hcancels.error, fun _ r hr => ?_⟩
      exact hcancels.asked r (hcancels.pendingRows ▸ hr)

/-- The groups and the tables when the loop over the groups starts. -/
def arranged (w : System α ρ ℓ κ σ) (o : Surroundings) :
    List (Group α ρ ℓ κ σ) × Shared α ρ ℓ κ σ :=
  let s := w.shared.incoming.foldl admitRequest
    { w.shared with schedule := o.schedule, faults := o.faults, incoming := [] }
  let s := if w.stopping then cancelRows s s.pendingRows else s
  let admitted := admitPending e w.groups s
  (admitted.1, pollAll o.polls admitted.1 admitted.2)

/-- What happens before the loop over the groups. -/
structure Arranges (w : System α ρ ℓ κ σ) (o : Surroundings)
    (x : List (Group α ρ ℓ κ σ) × Shared α ρ ℓ κ σ) : Prop where
  quiet : Quiet [] x.2 (x.1.flatMap Group.members)
  fits : Fits e x.1
  onward : Onward w.shared x.2
  incoming : x.2.incoming = []
  drained : w.stopping = true → x.2.pendingRows = []
  error : ∀ q, (x.2.requests q).error = (w.shared.requests q).error ∨
    o.polls q = .throw ∧ (x.2.requests q).error = some .callback

theorem arranged_spec (hw : Conserved e w) (o : Surroundings) :
    Arranges e w o (arranged e w o) := by
  unfold arranged
  dsimp only
  have hstart : Quiet [] { w.shared with schedule := o.schedule, faults := o.faults }
      (w.groups.flatMap Group.members) := by
    refine hw.quiet.idle (steps_later hw.quiet.tallied ?_ ?_ ?_ ?_ fun _ => ?_).toAdvances ?_ ?_
    all_goals first | rfl | exact Later.refl _
  obtain ⟨hquiet₁, hrequests, hcount, hincoming, hrows, hold⟩ :=
    quiet_arrivals w.shared.incoming
      { w.shared with schedule := o.schedule, faults := o.faults, incoming := [] } hstart rfl
  generalize w.shared.incoming.foldl admitRequest
    { w.shared with schedule := o.schedule, faults := o.faults, incoming := [] } = s₁ at *
  have honward₁ : Onward w.shared s₁ :=
    { requestCount := hcount.ge
      rowCount := hrows
      request := fun r hr => by rw [Shared.requestOf, hold r hr]; rfl
      completed := fun r hr h => by rw [hold r hr]; exact h
      cancelled := fun q _ h => by rw [hrequests]; exact h
      frozen := fun q _ _ => by rw [hrequests]; exact Later.refl _ }
  obtain ⟨hcancels, herror, hcancelled⟩ := cancels_pendingRows w.stopping hquiet₁.tallied
  generalize (if w.stopping = true then cancelRows s₁ s₁.pendingRows else s₁) = s₂ at *
  have hquiet₂ := hquiet₁.idle hcancels.toAdvances hcancels.isOpen hcancels.pendingRows
  have hadmits := admitPending_spec e hquiet₂ hw.fits
  generalize admitPending e w.groups s₂ = admitted at *
  have hpolls := polls_pollAll o.polls hadmits.quiet
  have hadvances := (hcancels.toAdvances.trans hadmits.steps.toAdvances).trans hpolls.toAdvances
  exact
    { quiet := hadmits.quiet.idle hpolls.toAdvances hpolls.isOpen hpolls.pendingRows
      fits := hadmits.fits
      onward := honward₁.trans hadvances.onward
      incoming := hadvances.incoming.trans hincoming
      drained := fun hstopping =>
        hpolls.pendingRows.trans (hadmits.cancelled (hcancelled hstopping)).2
      error := fun q => by
        have hbefore : (admitted.2.requests q).error = (w.shared.requests q).error := by
          rw [hadmits.steps.error, herror, hrequests]
        rw [← hbefore]
        exact pollRows_error o.polls _ ([], admitted.2) q }

/-- What a pass does. -/
structure Passes (w w' : System α ρ ℓ κ σ) : Prop where
  conserved : Conserved e w'
  onward : Onward w.shared w'.shared
  incoming : w'.shared.incoming = []
  drained : w.stopping = true → w'.groups = [] ∧ w'.shared.pendingRows = []

theorem fits_filter {groups groups' : List (Group α ρ ℓ κ σ)} (h : Fits e groups)
    (hshrinks : List.Forall₂ Shrinks groups groups') :
    Fits e (groups'.filter fun g => !g.isEmpty) where
  bounded := by
    refine Nat.le_trans ?_ ((occupied_le hshrinks).trans h.bounded)
    rw [occupied_eq, members_filter, ← occupied_eq]
  keys := by
    have hkeys := h.keys
    rw [← keys_eq hshrinks] at hkeys
    exact hkeys.sublist (List.filter_sublist.map _)

theorem incoming_nil {groups groups' : List (Group α ρ ℓ κ σ)}
    (h : List.Forall₂ Shrinks groups groups') : ∀ g ∈ groups', g.incoming = [] := by
  induction h with
  | nil => exact fun g hg => absurd hg List.not_mem_nil
  | cons hg _ ih =>
      intro g' hg'
      rcases List.mem_cons.mp hg' with rfl | hg'
      · exact hg.incoming
      · exact ih g' hg'

theorem pass_eq (w : System α ρ ℓ κ σ) (o : Surroundings) :
    pass e w o =
      { w with
        shared := (serveGroups e w.stopping (arranged e w o).1 (arranged e w o).2).2
        groups := (serveGroups e w.stopping (arranged e w o).1 (arranged e w o).2).1.filter
          fun g => !g.isEmpty } :=
  rfl

theorem pass_spec (hw : Conserved e w) (o : Surroundings) : Passes e w (pass e w o) := by
  have harranges := arranged_spec e hw o
  rw [pass_eq]
  generalize arranged e w o = x at harranges
  obtain ⟨hserved, hdrained⟩ := serveGroups_spec e w.stopping x.1 [] x.2 harranges.quiet
  generalize serveGroups e w.stopping x.1 x.2 = served at *
  refine
    { conserved := ⟨?_, fits_filter e harranges.fits hserved.shrinks, fun g hg => ?_⟩
      onward := harranges.onward.trans hserved.advances.onward
      incoming := hserved.advances.incoming.trans harranges.incoming
      drained := fun hstopping => ⟨?_, ?_⟩ }
  · rw [members_filter]
    exact hserved.quiet
  · obtain ⟨hg, hempty⟩ := List.mem_filter.mp hg
    have hnone := incoming_nil hserved.shrinks g hg
    refine ⟨fun hrows => ?_, hnone⟩
    rw [Group.isEmpty, hrows, hnone] at hempty
    cases hempty
  · refine List.filter_eq_nil_iff.mpr fun g hg => ?_
    rw [Group.isEmpty, (hdrained hstopping).rows g hg, incoming_nil hserved.shrinks g hg]
    exact Bool.false_ne_true
  · rw [(hdrained hstopping).pendingRows]
    exact harranges.drained hstopping

end Passes

section Example

/-- A model whose rows keep their tokens; its logits are the next token. -/
def countingModel : Model Unit (List Token) Token where
  wkv32 := false
  vocabSize := 4
  zeroRow := []
  adapterIdentity := fun _ => []
  baseMatches := fun _ => true
  dimsMatch := fun _ => true
  effectiveModelKey := fun _ _ _ => []
  kernel := fun _ rows => rows.map fun x => (x.1 ++ x.2, ((x.1 ++ x.2).length % 4 : Nat))

/-- A token that the logits name. -/
def countingDraw (x : Option Token × Unit) (_ : Unit × Nat) : Token × Unit :=
  (((x.1.getD 0).toNat % 4 : Nat), ())

/-- An engine with room for two rows. -/
def countingEngine : Engine Unit (List Token) Token Unit Unit where
  model := countingModel
  sampler :=
    { temperatureValid := fun _ => true
      fresh := fun _ _ => ()
      kernel := fun l => l.map fun x => countingDraw x.1 x.2 }
  decode := fun token => [UInt8.ofNat (97 + token.toNat)]
  maxRows := 2
  unwritten := []
  deviceError := false

/-- A prompt of one token. -/
def countingPrompt (maxTokens : Int) : Submission Unit (List Token) Token Unit where
  state :=
    { identity := countingModel.advancedIdentity ⟨Identity.default, false, [], []⟩
      wkv32 := false
      rows := [[2]]
      textStopTail := [] }
  logits := ⟨[some 1]⟩
  options :=
    { maxTokens := maxTokens
      stopTokens := []
      stop := none
      sampling := () }
  chunkSize := 1
  notifyTextStop := false

/-- A pass during which nothing happens. -/
def calm : Surroundings where
  schedule := []
  faults := []
  polls := fun _ => .goOn

end Example

section Runs

variable (e : Engine α ρ ℓ κ σ) {w w' : System α ρ ℓ κ σ}

/-- A call of `generate`. -/
def Shared.submit (s : Shared α ρ ℓ κ σ) (sub : Submission α ρ ℓ κ) : Shared α ρ ℓ κ σ :=
  { s with
    requests := Function.update s.requests s.requestCount (newRequest sub)
    requestCount := s.requestCount + 1
    incoming := s.incoming ++ [s.requestCount] }

theorem submit_old {sub : Submission α ρ ℓ κ} {q : Nat} (hq : q < s.requestCount) :
    (s.submit sub).requests q = s.requests q :=
  Function.update_of_ne (Nat.ne_of_lt hq) ..

theorem submit_new (sub : Submission α ρ ℓ κ) :
    (s.submit sub).requests s.requestCount = newRequest sub :=
  Function.update_self ..

theorem tallied_submit (hs : Tallied s) {sub : Submission α ρ ℓ κ}
    (hwidth : sub.state.rows.length = sub.logits.rows.length)
    (hrows : sub.logits.rows.length ≠ 0) : Tallied (s.submit sub) := by
  have hremaining : ((s.submit sub).requests s.requestCount).remaining =
      sub.logits.rows.length := by
    rw [submit_new]
    rfl
  refine ⟨fun r hr => ?_, hs.distinct, fun q hq => ?_, ?_, fun q hq hnot => ?_, fun q hq => ?_⟩
  · obtain ⟨hlt, hnot⟩ := hs.owned r hr
    refine ⟨Nat.lt_succ_of_lt hlt, fun hmem => ?_⟩
    rcases List.mem_append.mp hmem with hmem | hmem
    · exact hnot hmem
    · exact Nat.ne_of_lt hlt (List.mem_singleton.mp hmem)
  · rcases List.mem_append.mp hq with hq | hq
    · obtain ⟨hlt, hwaits⟩ := hs.waiting q hq
      rw [submit_old hlt]
      exact ⟨Nat.lt_succ_of_lt hlt, hwaits⟩
    · rw [List.mem_singleton.mp hq, hremaining, submit_new]
      exact ⟨Nat.lt_succ_self _, Nat.pos_of_ne_zero hrows, hwidth.symm⟩
  · refine List.nodup_append.mpr ⟨hs.once, List.nodup_singleton _, fun q hq q' hq' => ?_⟩
    rw [List.mem_singleton.mp hq']
    exact Nat.ne_of_lt (hs.waiting q hq).1
  · have hnew : q ≠ s.requestCount := fun heq =>
      hnot (List.mem_append_right _ (heq ▸ List.mem_singleton_self _))
    have hlt : q < s.requestCount := Nat.lt_of_le_of_ne (Nat.le_of_lt_succ hq) hnew
    rw [submit_old hlt]
    exact hs.remaining q hlt fun hmem => hnot (List.mem_append_left _ hmem)
  · by_cases hnew : q = s.requestCount
    · subst hnew
      rw [hremaining, submit_new]
      refine ⟨fun hdone => ?_, fun hzero => absurd hzero hrows⟩
      cases hdone
    · have hlt : q < s.requestCount := Nat.lt_of_le_of_ne (Nat.le_of_lt_succ hq) hnew
      rw [submit_old hlt]
      exact hs.done q hlt

theorem quiet_submit {members : List Nat} (h : Quiet [] s members) {sub : Submission α ρ ℓ κ}
    (hwidth : sub.state.rows.length = sub.logits.rows.length)
    (hrows : sub.logits.rows.length ≠ 0) : Quiet [] (s.submit sub) members where
  tallied := tallied_submit h.tallied hwidth hrows
  held := h.held
  opens := h.opens
  answerable := fun r hr => by
    obtain ⟨hlt, hrow⟩ := h.answerable r hr
    refine ⟨hlt, ?_⟩
    show s.isOpen r = true ∨ ((s.submit sub).requests (s.requestOf r)).cancelled = true
    rw [submit_old (h.tallied.owned r hlt).1]
    exact hrow

theorem onward_submit (sub : Submission α ρ ℓ κ) : Onward s (s.submit sub) where
  requestCount := Nat.le_succ _
  rowCount := Nat.le_refl _
  request := fun _ _ => rfl
  completed := fun _ _ => id
  cancelled := fun q hq h => by rw [submit_old hq]; exact h
  frozen := fun q hq _ => by rw [submit_old hq]; exact Later.refl _

theorem admissible_iff {sub : Submission α ρ ℓ κ} :
    admissible e w sub = true ↔ sub.state.rows.length = sub.logits.rows.length ∧
      sub.logits.rows.length ≠ 0 ∧ e.sampler.temperatureValid sub.options.sampling = true ∧
      w.stopping = false := by
  rw [admissible, Bool.and_eq_true, Bool.and_eq_true, Bool.and_eq_true, decide_eq_true_iff,
    decide_eq_true_iff, Bool.not_eq_true', and_assoc, and_assoc]

/-- Whatever happens keeps every open row in one place. -/
theorem conserved_next (hw : Conserved e w) (o : Occurrence α ρ ℓ κ) :
    Conserved e (next e w o) ∧ Onward w.shared (next e w o).shared := by
  cases o with
  | submit sub =>
      by_cases hadmissible : admissible e w sub = true
      · have hnext : next e w (.submit sub) = { w with shared := w.shared.submit sub } :=
          if_pos hadmissible
        obtain ⟨hwidth, hrows, -⟩ := (admissible_iff e).mp hadmissible
        rw [hnext]
        exact ⟨⟨quiet_submit hw.quiet hwidth hrows, hw.fits, hw.settled⟩, onward_submit sub⟩
      · have hnext : next e w (.submit sub) = w := if_neg hadmissible
        rw [hnext]
        exact ⟨hw, Onward.refl _⟩
  | clients i =>
      have hsteps : Steps w.shared { w.shared with schedule := [i] }.interfere :=
        steps_later hw.quiet.tallied rfl rfl rfl rfl fun q => later_interfered i q _
      exact ⟨⟨hw.quiet.idle hsteps.toAdvances rfl rfl, hw.fits, hw.settled⟩,
        hsteps.toAdvances.onward⟩
  | pass o =>
      have hpass := pass_spec e hw o
      exact ⟨hpass.conserved, hpass.onward⟩
  | stop => exact ⟨⟨hw.quiet, hw.fits, hw.settled⟩, Onward.refl _⟩

/-- A scheduler without requests; `filler` stands where the table has none. -/
def initial (filler : Submission α ρ ℓ κ) : System α ρ ℓ κ σ where
  shared :=
    { requests := fun _ => newRequest filler
      requestCount := 0
      rows := fun _ => newRow 0 0 []
      rowCount := 0
      incoming := []
      pendingRows := []
      schedule := []
      faults := []
      seeds := 0 }
  groups := []
  stopping := false

/-- A run. -/
def run (w : System α ρ ℓ κ σ) (os : List (Occurrence α ρ ℓ κ)) : System α ρ ℓ κ σ :=
  os.foldl (next e) w

theorem conserved_initial (filler : Submission α ρ ℓ κ) : Conserved e (initial filler) where
  quiet :=
    { tallied :=
        { owned := fun _ hr => absurd hr (Nat.not_lt_zero _)
          distinct := fun _ hr => absurd hr (Nat.not_lt_zero _)
          waiting := fun _ hq => absurd hq List.not_mem_nil
          once := List.nodup_nil
          remaining := fun _ hq => absurd hq (Nat.not_lt_zero _)
          done := fun _ hq => absurd hq (Nat.not_lt_zero _) }
      held := List.Perm.refl _
      opens := fun _ hr => absurd hr List.not_mem_nil
      answerable := fun _ hr => absurd hr List.not_mem_nil }
  fits := ⟨Nat.zero_le _, List.nodup_nil⟩
  settled := fun _ hg => absurd hg List.not_mem_nil

theorem onward_run (hw : Conserved e w) (os : List (Occurrence α ρ ℓ κ)) :
    Conserved e (run e w os) ∧ Onward w.shared (run e w os).shared := by
  induction os generalizing w with
  | nil => exact ⟨hw, Onward.refl _⟩
  | cons o os ih =>
      obtain ⟨hnext, honward⟩ := conserved_next e hw o
      obtain ⟨hrun, hrest⟩ := ih hnext
      exact ⟨hrun, honward.trans hrest⟩

/-- Every run keeps every open row in one place, and every count right. -/
theorem conserved_run (filler : Submission α ρ ℓ κ) (os : List (Occurrence α ρ ℓ κ)) :
    Conserved e (run e (initial filler) os) :=
  (onward_run e (conserved_initial e filler) os).1

/-- In every run each open row is in one group or waits, and nowhere else besides, and a request
is done exactly if it has been admitted and none of its rows is open. -/
theorem rows_of_run (filler : Submission α ρ ℓ κ) (os : List (Occurrence α ρ ℓ κ)) :
    let w := run e (initial filler) os
    (∀ r < w.shared.rowCount, (w.shared.rows r).completed = false →
        (w.groups.flatMap Group.members ++ w.shared.pendingRows).count r = 1) ∧
      (∀ q < w.shared.requestCount, (w.shared.requests q).done = true ↔
        q ∉ w.shared.incoming ∧ w.shared.openOf q = []) ∧
      Fits e w.groups ∧ ∀ g ∈ w.groups, g.rows ≠ [] ∧ g.incoming = [] := by
  intro w
  have hw : Conserved e w := conserved_run e filler os
  have htallied := hw.quiet.tallied
  refine ⟨fun r hr hcompleted => ?_, fun q hq => ?_, hw.fits, hw.settled⟩
  · have hopen : w.shared.isOpen r = true := isOpen_iff.mpr hcompleted
    have hcount := hw.quiet.held.count_eq r
    rw [List.count_filter hopen, List.count_filter hopen, List.nil_append,
      List.count_eq_one_of_mem List.nodup_range (List.mem_range.mpr hr)] at hcount
    exact hcount
  · rw [htallied.done q hq]
    by_cases hwaiting : q ∈ w.shared.incoming
    · have hpositive := (htallied.waiting q hwaiting).2.1
      exact iff_of_false (Nat.ne_of_gt hpositive) fun h => h.1 hwaiting
    · rw [htallied.remaining q hq hwaiting, List.length_eq_zero_iff]
      exact (and_iff_right hwaiting).symm

/-- In the rest of a run nothing is written to a request that is done: its client cancels it
or takes the last events, and that is all. -/
theorem later_of_done (filler : Submission α ρ ℓ κ) (os os' : List (Occurrence α ρ ℓ κ)) (q : Nat)
    (hq : q < (run e (initial filler) os).shared.requestCount)
    (hdone : ((run e (initial filler) os).shared.requests q).done = true) :
    Later ((run e (initial filler) os).shared.requests q)
      ((run e (run e (initial filler) os) os').shared.requests q) :=
  (onward_run e (conserved_run e filler os) os').2.frozen q hq hdone

theorem later_of_done_counting :
    let w := run countingEngine (initial (countingPrompt 0))
      [.submit (countingPrompt 0), .pass calm]
    (w.shared.requests 0).done = true ∧
      Later (w.shared.requests 0)
        ((run countingEngine w [.clients ⟨[0], [0]⟩, .pass calm]).shared.requests 0) :=
  ⟨by decide, later_of_done countingEngine (countingPrompt 0)
    [.submit (countingPrompt 0), .pass calm] [.clients ⟨[0], [0]⟩, .pass calm] 0 (by decide)
    (by decide)⟩

theorem closed_of_empty (hw : Conserved e w) (hgroups : w.groups = [])
    (hpending : w.shared.pendingRows = []) {r : Nat} (hr : r < w.shared.rowCount) :
    w.shared.isOpen r = false := by
  have hheld := hw.quiet.held
  rw [hgroups, hpending] at hheld
  by_contra hopen
  have hmem : r ∈ (List.range w.shared.rowCount).filter w.shared.isOpen :=
    List.mem_filter.mpr ⟨List.mem_range.mpr hr, Bool.eq_true_of_not_eq_false hopen⟩
  exact absurd (hheld.mem_iff.mpr hmem) List.not_mem_nil

/-- One pass after the destructor was called every row is completed and every request is
done, whatever the device and the clients do. -/
theorem drained_of_stopping (filler : Submission α ρ ℓ κ) (os : List (Occurrence α ρ ℓ κ))
    (o : Surroundings) (hstopping : (run e (initial filler) os).stopping = true) :
    let w := pass e (run e (initial filler) os) o
    w.groups = [] ∧ w.shared.pendingRows = [] ∧ w.shared.incoming = [] ∧
      (∀ r < w.shared.rowCount, (w.shared.rows r).completed = true) ∧
      ∀ q < w.shared.requestCount, (w.shared.requests q).done = true := by
  intro w
  have hpass := pass_spec e (conserved_run e filler os) o
  obtain ⟨hgroups, hpending⟩ := hpass.drained hstopping
  have hclosed : ∀ r < w.shared.rowCount, w.shared.isOpen r = false := fun r hr =>
    closed_of_empty e hpass.conserved hgroups hpending hr
  refine ⟨hgroups, hpending, hpass.incoming, fun r hr => ?_, fun q hq => ?_⟩
  · have hrow := hclosed r hr
    rwa [Shared.isOpen, Bool.not_eq_false'] at hrow
  · rw [hpass.conserved.quiet.tallied.done q hq, hpass.conserved.quiet.tallied.remaining q hq
      (by rw [hpass.incoming]; exact List.not_mem_nil)]
    refine List.length_eq_zero_iff.mpr (List.eq_nil_iff_forall_not_mem.mpr fun r hr => ?_)
    obtain ⟨hlt, hopen, -⟩ := mem_openOf.mp hr
    rw [hclosed r hlt] at hopen
    cases hopen

theorem drained_of_stopping_counting :
    let w := pass countingEngine (run countingEngine (initial (countingPrompt 5))
      [.submit (countingPrompt 5), .pass calm, .stop]) calm
    w.groups = [] ∧ w.shared.pendingRows = [] ∧ w.shared.incoming = [] ∧
      (∀ r < w.shared.rowCount, (w.shared.rows r).completed = true) ∧
      ∀ q < w.shared.requestCount, (w.shared.requests q).done = true :=
  drained_of_stopping countingEngine (countingPrompt 5)
    [.submit (countingPrompt 5), .pass calm, .stop] calm rfl

end Runs

section Failures

variable (e : Engine α ρ ℓ κ σ) (shutdown : Bool) {x : Focus α ρ ℓ κ σ} {others : List Nat}

/-- What the step of a group throws. -/
def outcome (x : Focus α ρ ℓ κ σ) : Option Failure :=
  match (stepGroup e shutdown x).1 with
  | .ok _ => none
  | .error err => some err

/-- What the steps of all groups throw. -/
def outcomes : List (Group α ρ ℓ κ σ) → Shared α ρ ℓ κ σ →
    List (Group α ρ ℓ κ σ × Option Failure)
  | [], _ => []
  | g :: groups, s =>
      (g, outcome e shutdown (s, g)) :: outcomes groups (serveGroup e shutdown (s, g)).1

/-- The step of a group reports a failure to requests with rows in the group only. -/
theorem serveGroup_error (hx : Quiet others x.1 x.2.members) (q : Nat) :
    ((serveGroup e shutdown x).1.requests q).error = (x.1.requests q).error ∨
      (∃ r ∈ x.2.members, x.1.requestOf r = q) ∧
        outcome e shutdown x = ((serveGroup e shutdown x).1.requests q).error := by
  have hout := triple_stepGroup e shutdown hx x rfl
  unfold serveGroup outcome
  cases hrun : stepGroup e shutdown x with
  | mk result y =>
      rw [hrun] at hout
      cases result with
      | ok _ => exact Or.inl (hout.1.reaches.error q)
      | error err =>
          have hthrown := hout.1
          have hfails := fails_foldl err y.2.members y.1 hthrown.torn.tallied
            fun r => hthrown.torn.lt
          by_cases hrow : ∃ r ∈ y.2.members, y.1.isOpen r = true ∧ y.1.requestOf r = q
          · obtain ⟨r, hr, hopen, hsame⟩ := hrow
            refine Or.inr ⟨⟨r, hthrown.subset hr, ?_⟩, ?_⟩
            · rw [← hthrown.reaches.request]
              exact hsame
            · exact hsame ▸ (hfails.reported r hr hopen).1.symm
          · left
            refine (hfails.spared q fun r hr hopen hsame => hrow ⟨r, hr, hopen, hsame⟩).trans ?_
            exact hthrown.reaches.error q

/-- After the step of a group has thrown, its open rows wait. -/
theorem serveGroup_fails {err : Failure} (hx : Quiet others x.1 x.2.members)
    (h : outcome e shutdown x = some err) {r : Nat} (hr : r ∈ x.2.members)
    (hopen : (serveGroup e shutdown x).1.isOpen r = true) :
    r ∈ (serveGroup e shutdown x).1.pendingRows := by
  have hnone : (serveGroup e shutdown x).2.members = [] := by
    unfold outcome at h
    unfold serveGroup
    cases hrun : stepGroup e shutdown x with
    | mk result y =>
        rw [hrun] at h
        cases result with
        | ok _ => cases h
        | error err' => rfl
  obtain ⟨hserved, -⟩ := serveGroup_spec e shutdown hx
  have hlt : r < (serveGroup e shutdown x).1.rowCount := hserved.advances.rowCount ▸ hx.lt hr
  have hmem := hserved.quiet.held.mem_iff.mpr (List.mem_filter.mpr ⟨List.mem_range.mpr hlt, hopen⟩)
  rw [hnone, List.append_nil] at hmem
  rcases List.mem_append.mp (List.mem_filter.mp hmem).1 with hmem | hmem
  · exact absurd hmem (hx.disjoint hr)
  · exact hmem

theorem serveGroups_error (groups : List (Group α ρ ℓ κ σ)) (others : List Nat)
    (s : Shared α ρ ℓ κ σ) (hs : Quiet others s (groups.flatMap Group.members)) (q : Nat) :
    ((serveGroups e shutdown groups s).2.requests q).error = (s.requests q).error ∨
      ∃ g ∈ groups, (∃ r ∈ g.members, s.requestOf r = q) ∧
        (g, ((serveGroups e shutdown groups s).2.requests q).error) ∈
          outcomes e shutdown groups s := by
  induction groups generalizing others s with
  | nil => exact Or.inl rfl
  | cons g groups ih =>
      obtain ⟨hfirst, hserved, hquiet⟩ := quiet_cons e shutdown hs
      have hone := serveGroup_error e shutdown (x := (s, g)) hfirst q
      have hrest := ih _ _ hquiet
      unfold serveGroups outcomes
      dsimp only
      rcases hrest with hsame | ⟨g', hg, ⟨r, hr, howns⟩, hout⟩
      · rcases hone with hsame' | ⟨hrow, hout⟩
        · exact Or.inl (hsame.trans hsame')
        · refine Or.inr ⟨g, List.mem_cons_self, hrow, ?_⟩
          rw [hsame, ← hout]
          exact List.mem_cons_self
      · refine Or.inr ⟨g', List.mem_cons_of_mem _ hg, ⟨r, hr, ?_⟩, List.mem_cons_of_mem _ hout⟩
        rw [← hserved.advances.request]
        exact howns

/-- An open row of a group that failed waits. -/
theorem serveGroups_fails (groups : List (Group α ρ ℓ κ σ)) (others : List Nat)
    (s : Shared α ρ ℓ κ σ) (hs : Quiet others s (groups.flatMap Group.members))
    {g : Group α ρ ℓ κ σ} {err : Failure} (hg : (g, some err) ∈ outcomes e shutdown groups s)
    {r : Nat} (hr : r ∈ g.members)
    (hopen : (serveGroups e shutdown groups s).2.isOpen r = true) :
    r ∈ (serveGroups e shutdown groups s).2.pendingRows := by
  induction groups generalizing others s with
  | nil => exact absurd hg List.not_mem_nil
  | cons g' groups ih =>
      obtain ⟨hfirst, hserved, hquiet⟩ := quiet_cons e shutdown hs
      unfold serveGroups at hopen ⊢
      dsimp only at hopen ⊢
      unfold outcomes at hg
      obtain ⟨hall, -⟩ := serveGroups_spec e shutdown groups _ _ hquiet
      rcases List.mem_cons.mp hg with hg | hg
      · obtain ⟨rfl, hout⟩ := Prod.mk.inj hg
        have hmem := serveGroup_fails e shutdown (x := (s, g)) hfirst hout.symm hr
          (hall.advances.open_of_open hopen)
        exact hall.waits hmem
      · exact ih _ _ hquiet hg hopen

/-- Errors stay where they arise: in a pass a request gets one from its own control callback,
or from the step of a group that has a row of it; and a group whose step throws loses all its
rows, but for those that wait. -/
theorem failures_stay (filler : Submission α ρ ℓ κ) (os : List (Occurrence α ρ ℓ κ))
    (o : Surroundings) :
    let w := run e (initial filler) os
    let x := arranged e w o
    let w' := pass e w o
    (∀ q, (w'.shared.requests q).error = (w.shared.requests q).error ∨
        o.polls q = .throw ∧ (w'.shared.requests q).error = some .callback ∨
        ∃ g ∈ x.1, (∃ r ∈ g.members, x.2.requestOf r = q) ∧
          (g, (w'.shared.requests q).error) ∈ outcomes e w.stopping x.1 x.2) ∧
      ∀ g err, (g, some err) ∈ outcomes e w.stopping x.1 x.2 → ∀ r ∈ g.members,
        (w'.shared.rows r).completed = true ∨ r ∈ w'.shared.pendingRows := by
  intro w x w'
  have harranges := arranged_spec e (conserved_run e filler os) o
  refine ⟨fun q => ?_, fun g err hg r hr => ?_⟩
  · rcases serveGroups_error e w.stopping x.1 [] x.2 harranges.quiet q with hsame | hfailed
    · have hpass : (w'.shared.requests q).error = (x.2.requests q).error := hsame
      rw [hpass]
      exact (harranges.error q).imp_right Or.inl
    · exact Or.inr (Or.inr hfailed)
  · cases hopen : w'.shared.isOpen r with
    | true => exact Or.inr (serveGroups_fails e w.stopping x.1 [] x.2 harranges.quiet hg hr hopen)
    | false =>
        rw [Shared.isOpen, Bool.not_eq_false'] at hopen
        exact Or.inl hopen

end Failures

end DecodeScheduler
end RwkvLightning

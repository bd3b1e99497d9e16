import RwkvLightning.Inference.DecodeSchedulerTally
import Mathlib

/-!
# A step of the decode scheduler keeps every row

**Results.**
* `Held`: the open rows are in the given places, each once.
* `triple_sweep`, `enter_spec`, `triple_rebuild`: what `rebuild` does with the rows of a group.
* `serveGroup_spec`: a step of a group, whether it throws or not.
-/

namespace RwkvLightning
namespace DecodeScheduler

open Backend Text Command

variable {α ρ ℓ κ σ : Type} {s t u : Shared α ρ ℓ κ σ} {r : Nat}

section Places

/-- The open rows are in these places, each of them once. -/
def Shared.Held (s : Shared α ρ ℓ κ σ) (places : List Nat) : Prop :=
  (places.filter s.isOpen).Perm ((List.range s.rowCount).filter s.isOpen)

/-- The rows exist, and they are open or their requests are cancelled. -/
def Shared.Answerable (s : Shared α ρ ℓ κ σ) (rows : List Nat) : Prop :=
  ∀ r ∈ rows, r < s.rowCount ∧
    (s.isOpen r = true ∨ (s.requests (s.requestOf r)).cancelled = true)

variable {places places' : List Nat}

theorem Shared.Held.nodup (h : s.Held places) : (places.filter s.isOpen).Nodup :=
  h.nodup_iff.mpr (List.nodup_range.filter _)

theorem Shared.Held.lt (h : s.Held places) (hr : r ∈ places) (hopen : s.isOpen r = true) :
    r < s.rowCount := by
  have hmem := h.mem_iff.mp (List.mem_filter.mpr ⟨hr, hopen⟩)
  exact List.mem_range.mp (List.mem_filter.mp hmem).1

theorem Shared.Held.perm (h : s.Held places)
    (hplaces : (places.filter s.isOpen).Perm (places'.filter s.isOpen)) : s.Held places' :=
  hplaces.symm.trans h

theorem filter_open (h : ∀ r, t.isOpen r = true → s.isOpen r = true) (l : List Nat) :
    l.filter t.isOpen = (l.filter s.isOpen).filter t.isOpen := by
  rw [List.filter_filter]
  refine List.filter_congr fun r _ => ?_
  cases hopen : t.isOpen r with
  | true => rw [h r hopen]; rfl
  | false => rfl

/-- Rows may be completed where they are. -/
theorem Shared.Held.advance (h : s.Held places) (hrowCount : t.rowCount = s.rowCount)
    (hopen : ∀ r, t.isOpen r = true → s.isOpen r = true) : t.Held places := by
  rw [Shared.Held, filter_open hopen places, hrowCount, filter_open hopen (List.range _)]
  exact List.Perm.filter _ h

/-- Open rows in two places are different. -/
theorem Shared.Held.disjoint {a b c d : List Nat} (h : s.Held (a ++ b ++ c ++ d)) :
    (∀ r ∈ b, s.isOpen r = true → r ∉ a ∧ r ∉ c ∧ r ∉ d) ∧
      ∀ r ∈ a, s.isOpen r = true → r ∉ b := by
  have hnodup := h.nodup
  simp only [List.filter_append] at hnodup
  have hbd := (List.nodup_append.mp hnodup).2.2
  have habc := (List.nodup_append.mp hnodup).1
  have hbc := (List.nodup_append.mp habc).2.2
  have hab := (List.nodup_append.mp (List.nodup_append.mp habc).1).2.2
  have hin : ∀ {l : List Nat} {r : Nat}, r ∈ l → s.isOpen r = true → r ∈ l.filter s.isOpen :=
    fun hr hopen => List.mem_filter.mpr ⟨hr, hopen⟩
  refine ⟨fun r hr hopen => ⟨fun ha => ?_, fun hc => ?_, fun hd => ?_⟩, fun r hr hopen hb => ?_⟩
  · exact hab r (hin ha hopen) r (hin hr hopen) rfl
  · exact hbc r (List.mem_append_right _ (hin hr hopen)) r (hin hc hopen) rfl
  · exact hbd r (List.mem_append_left _ (List.mem_append_right _ (hin hr hopen))) r
      (hin hd hopen) rfl
  · exact hab r (hin hr hopen) r (hin hb hopen) rfl

theorem Shared.Answerable.mono {rows : List Nat} (h : s.Answerable rows)
    (hopen : ∀ r ∈ rows, s.isOpen r = true →
      t.isOpen r = true ∨ (t.requests (t.requestOf r)).cancelled = true)
    (hrowCount : t.rowCount = s.rowCount) (hrequest : ∀ r, t.requestOf r = s.requestOf r)
    (hcancelled : ∀ q, (s.requests q).cancelled = true → (t.requests q).cancelled = true) :
    t.Answerable rows := by
  intro r hr
  obtain ⟨hlt, hrow⟩ := h r hr
  refine ⟨hrowCount ▸ hlt, ?_⟩
  rcases hrow with hrow | hcancel
  · exact hopen r hr hrow
  · right
    rw [hrequest]
    exact hcancelled _ hcancel

end Places

section Steps

/-- What happens to the tables in a step; errors are only set where it fails. -/
structure Steps (s t : Shared α ρ ℓ κ σ) : Prop extends Advances s t where
  error : ∀ q, (t.requests q).error = (s.requests q).error

theorem Steps.refl (h : Tallied s) : Steps s s :=
  { Advances.refl h with error := fun _ => rfl }

theorem Steps.trans (hst : Steps s t) (htu : Steps t u) : Steps s u :=
  { hst.toAdvances.trans htu.toAdvances with
    error := fun q => (htu.error q).trans (hst.error q) }

theorem steps_works (h : Works r s t) (hs : Tallied s) (hr : r < s.rowCount)
    (hopen : s.isOpen r = true) : Steps s t :=
  { advances_works h hs hr hopen with error := h.error_eq }

theorem steps_complete (hs : Tallied s) (hr : r < s.rowCount) : Steps s (complete s r) := by
  by_cases hopen : s.isOpen r = true
  · have hcompletes := completes_complete hopen
    exact
      { advances_complete hcompletes hs hr hopen with error := hcompletes.error }
  · have hclosed : (s.rows r).completed = true := by
      rw [isOpen_iff] at hopen
      exact Bool.eq_true_of_not_eq_false hopen
    rw [complete, if_pos hclosed]
    exact Steps.refl hs

theorem complete_closed (s : Shared α ρ ℓ κ σ) (r : Nat) : (complete s r).isOpen r = false := by
  by_cases hopen : s.isOpen r = true
  · rw [(completes_complete hopen).isOpen_eq, bne_self_eq_false, Bool.and_false]
  · have hclosed : (s.rows r).completed = true := by
      rw [isOpen_iff] at hopen
      exact Bool.eq_true_of_not_eq_false hopen
    rw [complete, if_pos hclosed]
    exact Bool.eq_false_of_not_eq_true hopen

theorem complete_pendingRows (s : Shared α ρ ℓ κ σ) (r : Nat) :
    (complete s r).pendingRows = s.pendingRows := by
  by_cases hopen : s.isOpen r = true
  · exact (completes_complete hopen).pendingRows
  · have hclosed : (s.rows r).completed = true := by
      rw [isOpen_iff] at hopen
      exact Bool.eq_true_of_not_eq_false hopen
    rw [complete, if_pos hclosed]

theorem steps_interfere (hs : Tallied s) : Steps s s.interfere where
  requestCount := rfl
  rowCount := rfl
  incoming := rfl
  request := fun _ => rfl
  completed := fun _ => id
  cancelled := fun q => (later_interfere s q).cancelled
  frozen := fun q _ => later_interfere s q
  tallied := hs.congr rfl rfl rfl (fun _ => rfl) (fun _ => rfl) (fun _ => rfl)
    (fun q => (later_interfere s q).remaining) (fun q => (later_interfere s q).done)
    fun q => congrArg (fun sub => sub.state.rows.length) (later_interfere s q).same
  error := fun q => (later_interfere s q).error

/-- The list of the rows that wait is not part of the counts. -/
theorem Steps.pendingRows (h : Steps s t) (rows : List Nat) :
    Steps s { t with pendingRows := rows } :=
  { h with
    tallied := h.tallied.congr rfl rfl rfl (fun _ => rfl) (fun _ => rfl) (fun _ => rfl)
      (fun _ => rfl) (fun _ => rfl) fun _ => rfl }

theorem Steps.open_mono (h : Steps s t) (r : Nat) (hopen : t.isOpen r = true) :
    s.isOpen r = true :=
  h.toAdvances.open_of_open hopen

end Steps

section Sweep

variable (e : Engine α ρ ℓ κ σ) (g : Group α ρ ℓ κ σ) (allowPause : Bool) (slot : Nat)

/-- The request of a row is cancelled. -/
def Shared.isCancelled (s : Shared α ρ ℓ κ σ) (r : Nat) : Bool :=
  (s.requests (s.requestOf r)).cancelled

/-- What becomes of a row in the sweep; a row whose request was cancelled leaves. -/
inductive Fate (r : Nat) (s t : Shared α ρ ℓ κ σ) : Bool → Prop where
  | stays (hopen : t.isOpen r = true) (hgoes : s.isCancelled r = false)
      (hpending : t.pendingRows = s.pendingRows) : Fate r s t true
  | leaves (hclosed : t.isOpen r = false) (hpending : t.pendingRows = s.pendingRows) :
      Fate r s t false
  | pauses (hopen : t.isOpen r = true) (hgoes : s.isCancelled r = false)
      (hpending : t.pendingRows = s.pendingRows ++ [r]) : Fate r s t false

/-- What an operation on one row does to the others. -/
structure Alone (r : Nat) (s t : Shared α ρ ℓ κ σ) : Prop extends Steps s t where
  rows : ∀ r' ≠ r, t.rows r' = s.rows r'

theorem Works.alone (h : Works r s t) (hs : Tallied s) (hr : r < s.rowCount)
    (hopen : s.isOpen r = true) : Alone r s t :=
  { steps_works h hs hr hopen with rows := h.rows }

theorem Works.isOpen_eq (h : Works r s t) (r' : Nat) : t.isOpen r' = s.isOpen r' := by
  rw [Shared.isOpen, h.completed_eq]
  rfl

/-- A row that is not finished after `cancelled` was read. -/
theorem goes_of_noteCancelled (h : ((noteCancelled s r).rows r).finished = false) :
    s.isCancelled r = false := by
  by_contra hcancelled
  have hlater := (later_interfere s (s.requestOf r)).cancelled
    (Bool.eq_true_of_not_eq_false hcancelled)
  have hnoted : noteCancelled s r =
      s.interfere.updateRow r fun row => { row with finished := true } := if_pos hlater
  rw [hnoted, updateRow_self] at h
  cases h

theorem triple_sweepRow (hs : Tallied s) (hr : r < s.rowCount) :
    Triple (fun t => t = s) (sweepRow e allowPause g slot r)
      (fun stays t => Alone r s t ∧ Fate r s t stays)
      (fun _ t => Alone r s t ∧ t.pendingRows = s.pendingRows) := by
  refine triple_read fun s' hs' => ?_
  subst hs'
  refine triple_ite (fun hclosed => triple_pure fun t ht => ?_) fun hrow => ?_
  · subst ht
    refine ⟨{ Steps.refl hs with rows := fun _ _ => rfl }, Fate.leaves ?_ rfl⟩
    rw [Shared.isOpen, hclosed]
    rfl
  have hopen : s'.isOpen r = true := isOpen_iff.mpr (Bool.eq_false_of_not_eq_true hrow)
  have hstay : ∀ t, Works r s' t → Alone r s' t ∧ t.pendingRows = s'.pendingRows :=
    fun t ht => ⟨ht.alone hs hr hopen, ht.pendingRows⟩
  have hkeep : s'.isCancelled r = false →
      ∀ t, Works r s' t → Alone r s' t ∧ Fate r s' t true := fun hgoes t ht =>
    ⟨ht.alone hs hr hopen, Fate.stays ((ht.isOpen_eq r).trans hopen) hgoes ht.pendingRows⟩
  have hfails : ∀ {β : Type} {c : Task α ρ ℓ κ σ β}, Keeps (Works r s') c →
      Triple (Works r s') c (fun _ => Works r s')
        (fun _ t => Alone r s' t ∧ t.pendingRows = s'.pendingRows) :=
    fun hc => triple_weaken hc (fun _ => id) (fun _ _ => id) fun _ t ht => hstay t ht
  refine triple_bind (triple_modify (R := fun _ t => t = noteCancelled s' r)
    fun t ht => congrArg (noteCancelled · r) ht) fun _ => ?_
  refine triple_read fun t₁ ht₁ => ?_
  subst ht₁
  refine triple_at (works_noteCancelled s' r) ?_
  refine triple_ite (fun hfinished => ?_) fun hunfinished => ?_
  · refine triple_bind (hfails (keeps_exportRow e g slot)) fun _ => ?_
    refine triple_bind (triple_modify (R := fun _ t =>
      Alone r s' t ∧ t.pendingRows = s'.pendingRows ∧ t.isOpen r = false) fun t ht => ?_)
      fun _ => triple_pure fun t ht => ⟨ht.1, Fate.leaves ht.2.2 ht.2.1⟩
    have hsteps := steps_complete (ht.tallied hs) (ht.rowCount ▸ hr)
    refine ⟨{ (steps_works ht hs hr hopen).trans hsteps with rows := fun r' hne => ?_ }, ?_,
      complete_closed t r⟩
    · rw [(acts_complete t r).rows r' hne, ht.rows r' hne]
    · rw [complete_pendingRows, ht.pendingRows]
  · have hgoes := goes_of_noteCancelled (Bool.eq_false_of_not_eq_true hunfinished)
    refine triple_ite (fun hallow => ?_) fun _ => triple_pure fun t ht => hkeep hgoes t ht
    refine triple_bind (hfails (keeps_modify fun t _ => works_interfere r t)) fun _ => ?_
    refine triple_read fun t₂ ht₂ => ?_
    refine triple_at ht₂ ?_
    refine triple_ite (fun hfull => ?_) fun _ => triple_pure fun t ht => hkeep hgoes t ht
    refine triple_bind (Q := fun _ t => Alone r s' t ∧ Fate r s' t false) ?_
      fun _ => triple_pure fun t ht => ht
    refine triple_bind (hfails (keeps_exportRow e g slot)) fun _ => ?_
    refine triple_bind (hfails (keeps_saveSampler e g slot)) fun _ => ?_
    refine triple_modify fun t ht => ?_
    refine ⟨{ (steps_works ht hs hr hopen).pendingRows _ with rows := ht.rows }, ?_⟩
    refine Fate.pauses ((ht.isOpen_eq r).trans hopen) hgoes ?_
    rw [ht.pendingRows]

/-- What the sweep over some rows does: `paused` are the rows that it puts aside. -/
structure Swept (rows paused : List Nat) (s t : Shared α ρ ℓ κ σ) : Prop extends Steps s t where
  outside : ∀ r ∉ rows, t.rows r = s.rows r
  pendingRows : t.pendingRows = s.pendingRows ++ paused
  subset : paused ⊆ rows
  opens : rows.Nodup → ∀ r ∈ paused, t.isOpen r = true
  goes : ∀ r ∈ paused, s.isCancelled r = false

/-- The rows that stay after the sweep. -/
structure Kept (rows live paused : List Nat) (s t : Shared α ρ ℓ κ σ) : Prop where
  sublist : live.Sublist rows
  goes : ∀ r ∈ live, s.isCancelled r = false
  perm : (rows.filter t.isOpen).Perm ((live ++ paused).filter t.isOpen)
  opens : rows.Nodup → ∀ r ∈ live, t.isOpen r = true

variable {rows paused live : List Nat}

/-- A request that is not cancelled was not cancelled before. -/
theorem Advances.goes (h : Advances s t) {r : Nat} (hgoes : t.isCancelled r = false) :
    s.isCancelled r = false := by
  by_contra hcancelled
  have hlater := h.cancelled _ (Bool.eq_true_of_not_eq_false hcancelled)
  rw [Shared.isCancelled, h.request, hlater] at hgoes
  cases hgoes

theorem isOpen_congr (h : t.rows r = s.rows r) : t.isOpen r = s.isOpen r := by
  rw [Shared.isOpen, h]
  rfl

/-- One row, and the rest of the sweep. -/
theorem Swept.cons (hrow : Alone r s t) (hpending : t.pendingRows = s.pendingRows)
    (h : Swept rows paused t u) : Swept (r :: rows) paused s u :=
  { hrow.toSteps.trans h.toSteps with
    outside := fun r' hr => by
      rw [h.outside r' (List.not_mem_of_not_mem_cons hr),
        hrow.rows r' (List.ne_of_not_mem_cons hr)]
    pendingRows := by rw [h.pendingRows, hpending]
    subset := List.subset_cons_of_subset _ h.subset
    opens := fun hnodup => h.opens (List.nodup_cons.mp hnodup).2
    goes := fun r' hr => hrow.goes (h.goes r' hr) }

theorem Swept.cons_paused (hrow : Alone r s t) (hopen : t.isOpen r = true)
    (hgoes : s.isCancelled r = false)
    (hpending : t.pendingRows = s.pendingRows ++ [r]) (h : Swept rows paused t u) :
    Swept (r :: rows) (r :: paused) s u :=
  { hrow.toSteps.trans h.toSteps with
    outside := fun r' hr => by
      rw [h.outside r' (List.not_mem_of_not_mem_cons hr),
        hrow.rows r' (List.ne_of_not_mem_cons hr)]
    pendingRows := by rw [h.pendingRows, hpending, List.append_assoc, List.singleton_append]
    subset := List.cons_subset_cons _ h.subset
    opens := fun hnodup r' hr => by
      obtain ⟨hnot, hrest⟩ := List.nodup_cons.mp hnodup
      rcases List.mem_cons.mp hr with rfl | hr
      · rw [isOpen_congr (h.outside _ hnot)]
        exact hopen
      · exact h.opens hrest r' hr
    goes := fun r' hr => by
      rcases List.mem_cons.mp hr with rfl | hr
      · exact hgoes
      · exact hrow.goes (h.goes r' hr) }

theorem Kept.cons_stays (hrow : Advances s t) (hopen : t.isOpen r = true)
    (hgoes : s.isCancelled r = false) (hswept : Swept rows paused t u)
    (h : Kept rows live paused t u) : Kept (r :: rows) (r :: live) paused s u where
  sublist := h.sublist.cons_cons r
  goes := fun r' hr => by
    rcases List.mem_cons.mp hr with rfl | hr
    · exact hgoes
    · exact hrow.goes (h.goes r' hr)
  perm := by
    rw [List.cons_append, List.filter_cons, List.filter_cons]
    split
    · exact h.perm.cons r
    · exact h.perm
  opens := fun hnodup r' hr => by
    obtain ⟨hnot, hrest⟩ := List.nodup_cons.mp hnodup
    rcases List.mem_cons.mp hr with rfl | hr
    · rw [isOpen_congr (hswept.outside _ hnot)]
      exact hopen
    · exact h.opens hrest r' hr

theorem Kept.cons_leaves (hrow : Advances s t) (hclosed : t.isOpen r = false)
    (hsteps : Steps t u) (h : Kept rows live paused t u) :
    Kept (r :: rows) live paused s u where
  sublist := h.sublist.cons r
  goes := fun r' hr => hrow.goes (h.goes r' hr)
  perm := by
    have hgone : ¬u.isOpen r = true := fun hopen => by
      rw [hsteps.open_mono r hopen] at hclosed
      cases hclosed
    rw [List.filter_cons_of_neg hgone]
    exact h.perm
  opens := fun hnodup => h.opens (List.nodup_cons.mp hnodup).2

theorem Kept.cons_pauses (hrow : Advances s t) (h : Kept rows live paused t u) :
    Kept (r :: rows) live (r :: paused) s u where
  sublist := h.sublist.cons r
  goes := fun r' hr => hrow.goes (h.goes r' hr)
  perm := by
    have hmiddle : ((live ++ r :: paused).filter u.isOpen).Perm
        ((r :: (live ++ paused)).filter u.isOpen) := List.Perm.filter _ List.perm_middle
    refine List.Perm.trans ?_ hmiddle.symm
    rw [List.filter_cons, List.filter_cons]
    split
    · exact h.perm.cons r
    · exact h.perm
  opens := fun hnodup => h.opens (List.nodup_cons.mp hnodup).2

theorem triple_sweep (rows : List Nat) (slot : Nat) (s : Shared α ρ ℓ κ σ) (hs : Tallied s)
    (hrows : ∀ r ∈ rows, r < s.rowCount) :
    Triple (fun t => t = s) (sweep e allowPause g slot rows)
      (fun live t => ∃ paused, Swept rows paused s t ∧ Kept rows (live.map Prod.fst) paused s t)
      (fun _ t => ∃ paused, Swept rows paused s t) := by
  induction rows generalizing slot s with
  | nil =>
      refine triple_pure fun t ht => ⟨[], ?_, ?_⟩
      · subst ht
        exact
          { Steps.refl hs with
            outside := fun _ _ => rfl
            pendingRows := (List.append_nil _).symm
            subset := List.Subset.refl _
            opens := fun _ r hr => absurd hr List.not_mem_nil
            goes := fun r hr => absurd hr List.not_mem_nil }
      · exact ⟨List.Sublist.slnil, fun r hr => absurd hr List.not_mem_nil, List.Perm.refl _,
          fun _ r hr => absurd hr List.not_mem_nil⟩
  | cons r rows ih =>
      have hr : r < s.rowCount := hrows r List.mem_cons_self
      refine triple_bind (triple_weaken (triple_sweepRow e g allowPause slot hs hr)
        (fun _ => id) (fun _ _ => id) fun _ t ht => ⟨[], ?_⟩) fun stays => ?_
      · have hrow := ht.1
        exact
          { hrow.toSteps with
            outside := fun r' hne => hrow.rows r' (List.ne_of_not_mem_cons hne)
            pendingRows := by rw [ht.2, List.append_nil]
            subset := List.nil_subset _
            opens := fun _ r hr => absurd hr List.not_mem_nil
            goes := fun r hr => absurd hr List.not_mem_nil }
      intro t ht
      obtain ⟨hrow, hfate⟩ := ht
      have hrest := ih (slot + 1) t hrow.tallied fun r' hr' =>
        hrow.rowCount ▸ hrows r' (List.mem_cons_of_mem _ hr')
      refine triple_bind (triple_weaken hrest (fun _ => id) (fun _ _ => id) ?_) (fun live => ?_)
        t rfl
      · rintro _ u ⟨paused, hswept⟩
        cases hfate with
        | stays _ _ hpending => exact ⟨paused, hswept.cons hrow hpending⟩
        | leaves _ hpending => exact ⟨paused, hswept.cons hrow hpending⟩
        | pauses hopen hgoes hpending =>
            exact ⟨r :: paused, hswept.cons_paused hrow hopen hgoes hpending⟩
      · refine triple_pure ?_
        rintro u ⟨paused, hswept, hkept⟩
        cases hfate with
        | stays hopen hgoes hpending =>
            exact ⟨paused, hswept.cons hrow hpending,
              hkept.cons_stays hrow.toAdvances hopen hgoes hswept⟩
        | leaves hclosed hpending =>
            exact ⟨paused, hswept.cons hrow hpending,
              hkept.cons_leaves hrow.toAdvances hclosed hswept.toSteps⟩
        | pauses hopen hgoes hpending =>
            exact ⟨r :: paused, hswept.cons_paused hrow hopen hgoes hpending,
              hkept.cons_pauses hrow.toAdvances⟩

end Sweep

section Enter

/-- What the loop over the incoming rows does. -/
structure Entered (rows live : List Nat) (s t : Shared α ρ ℓ κ σ) : Prop extends
    Swept rows [] s t where
  kept : Kept rows live [] s t

theorem enter_spec (rows : List Nat) (s : Shared α ρ ℓ κ σ) (hs : Tallied s)
    (hrows : ∀ r ∈ rows, r < s.rowCount) (hopens : ∀ r ∈ rows, s.isOpen r = true)
    (hnodup : rows.Nodup) : Entered rows (enter rows s).1 s (enter rows s).2 := by
  induction rows generalizing s with
  | nil =>
      exact
        { Steps.refl hs with
          outside := fun _ _ => rfl
          pendingRows := (List.append_nil _).symm
          subset := List.Subset.refl _
          opens := fun _ r hr => absurd hr List.not_mem_nil
          goes := fun r hr => absurd hr List.not_mem_nil
          kept := ⟨List.Sublist.slnil, fun r hr => absurd hr List.not_mem_nil,
            List.Perm.refl _, fun _ r hr => absurd hr List.not_mem_nil⟩ }
  | cons r rows ih =>
      obtain ⟨hnot, hrest⟩ := List.nodup_cons.mp hnodup
      have hi := steps_interfere hs
      have hr : r < s.rowCount := hrows r List.mem_cons_self
      have hlt : ∀ r' ∈ rows, r' < s.rowCount := fun r' hr' => hrows r' (List.mem_cons_of_mem _ hr')
      have hlater : ∀ r' ∈ rows, s.isOpen r' = true :=
        fun r' hr' => hopens r' (List.mem_cons_of_mem _ hr')
      unfold enter
      dsimp only
      split
      · have hsteps := hi.trans (steps_complete hi.tallied hr)
        have hrow : Alone r s (complete s.interfere r) :=
          { hsteps with rows := (acts_complete s.interfere r).rows }
        have hentered := ih (complete s.interfere r) hsteps.tallied
          (fun r' hr' => hsteps.rowCount ▸ hlt r' hr')
          (fun r' hr' => by
            rw [isOpen_congr (hrow.rows r' fun heq => hnot (heq ▸ hr'))]
            exact hlater r' hr')
          hrest
        exact
          { hentered.toSwept.cons hrow (complete_pendingRows _ r) with
            kept := hentered.kept.cons_leaves hrow.toAdvances (complete_closed _ r)
              hentered.toSteps }
      · next hgoes =>
        have hentered := ih s.interfere hi.tallied hlt hlater hrest
        have hrow : Alone r s s.interfere := { hi with rows := fun _ _ => rfl }
        have hopen : s.interfere.isOpen r = true := hopens r List.mem_cons_self
        exact
          { hentered.toSwept.cons hrow rfl with
            kept := Kept.cons_stays hi.toAdvances hopen
              (hi.goes (Bool.eq_false_of_not_eq_true fun h => hgoes (Or.inl h)))
              hentered.toSwept hentered.kept }

end Enter

section Regroup

variable (e : Engine α ρ ℓ κ σ) (g : Group α ρ ℓ κ σ)

variable {rows : List Nat}

/-- At most the saved samplers of some rows, the faults and the seeds change. -/
structure Idles (rows : List Nat) (s t : Shared α ρ ℓ κ σ) : Prop where
  requests : t.requests = s.requests
  requestCount : t.requestCount = s.requestCount
  rowCount : t.rowCount = s.rowCount
  incoming : t.incoming = s.incoming
  pendingRows : t.pendingRows = s.pendingRows
  row : ∀ r, ∃ saved, t.rows r = { s.rows r with savedSampler := saved }
  outside : ∀ r ∉ rows, t.rows r = s.rows r

theorem Idles.refl (rows : List Nat) (s : Shared α ρ ℓ κ σ) : Idles rows s s :=
  ⟨rfl, rfl, rfl, rfl, rfl, fun r => ⟨(s.rows r).savedSampler, rfl⟩, fun _ _ => rfl⟩

theorem Idles.trans (hst : Idles rows s t) (htu : Idles rows t u) : Idles rows s u where
  requests := htu.requests.trans hst.requests
  requestCount := htu.requestCount.trans hst.requestCount
  rowCount := htu.rowCount.trans hst.rowCount
  incoming := htu.incoming.trans hst.incoming
  pendingRows := htu.pendingRows.trans hst.pendingRows
  row := fun r => by
    obtain ⟨_, hst'⟩ := hst.row r
    obtain ⟨saved, htu'⟩ := htu.row r
    exact ⟨saved, by rw [htu', hst']⟩
  outside := fun r hr => (htu.outside r hr).trans (hst.outside r hr)

theorem Idles.completed_eq (h : Idles rows s t) (r : Nat) :
    (t.rows r).completed = (s.rows r).completed := by
  obtain ⟨_, hrow⟩ := h.row r
  rw [hrow]

theorem Idles.request_eq (h : Idles rows s t) (r : Nat) : t.requestOf r = s.requestOf r := by
  obtain ⟨_, hrow⟩ := h.row r
  rw [Shared.requestOf, hrow]
  rfl

theorem Idles.isOpen_eq (h : Idles rows s t) : t.isOpen = s.isOpen := by
  funext r
  rw [Shared.isOpen, h.completed_eq]
  rfl

theorem Idles.steps (h : Idles rows s t) (hs : Tallied s) : Steps s t where
  requestCount := h.requestCount
  rowCount := h.rowCount
  incoming := h.incoming
  request := h.request_eq
  completed := fun r hr => (h.completed_eq r).trans hr
  cancelled := fun q hq => by rw [h.requests]; exact hq
  frozen := fun q _ => by rw [h.requests]; exact Later.refl _
  error := fun q => by rw [h.requests]
  tallied := by
    refine hs.congr h.requestCount h.rowCount h.incoming h.request_eq (fun r => ?_)
      h.completed_eq (fun q => ?_) (fun q => ?_) fun q => ?_
    · obtain ⟨_, hrow⟩ := h.row r
      rw [hrow]
    all_goals rw [h.requests]

theorem idles_faults (s : Shared α ρ ℓ κ σ) (faults : List Bool) (seeds : Nat) :
    Idles rows s { s with faults := faults, seeds := seeds } :=
  ⟨rfl, rfl, rfl, rfl, rfl, fun r => ⟨(s.rows r).savedSampler, rfl⟩, fun _ _ => rfl⟩

theorem idles_device : Keeps (Idles rows s) (device : Task α ρ ℓ κ σ PUnit) := by
  refine keeps_of_state fun t ht => ?_
  unfold device
  split
  · exact ht
  · exact ht.trans (idles_faults t _ t.seeds)

theorem idles_makeSampler (batchSize : Nat) : Keeps (Idles rows s) (makeSampler e batchSize) := by
  refine Keeps.bind idles_device fun _ => Keeps.read fun _ => ?_
  exact Keeps.bind (Keeps.modify fun t ht => ht.trans (idles_faults t t.faults _))
    fun _ => Keeps.pure

theorem idles_packRow (src : GenerationState α ρ) (logits : DeviceLogits ℓ) (srcRow : Nat)
    (b : Slots α ρ ℓ σ) (i : Nat) :
    Keeps (Idles rows s) (packRow (κ := κ) e src logits srcRow b i) := by
  refine keeps_attempt fun _ _ => Keeps.bind idles_device fun _ => ?_
  exact keeps_attempt fun _ _ => Keeps.bind idles_device fun _ => Keeps.pure

theorem idles_moveSampler (src : List σ) (srcRow : Nat) (b : Slots α ρ ℓ σ) (i : Nat) :
    Keeps (Idles rows s) (moveSampler (κ := κ) src srcRow b i) :=
  keeps_attempt fun _ _ => Keeps.bind idles_device fun _ => Keeps.pure

theorem idles_fillSlot (i : Nat) (b : Slots α ρ ℓ σ) (l : Nat × Option Nat) (hl : l.1 ∈ rows) :
    Keeps (Idles rows s) (fillSlot e g i b l) := by
  obtain ⟨r, old⟩ := l
  cases old with
  | some slot =>
      exact Keeps.bind (idles_packRow e _ _ _ _ _) fun _ => idles_moveSampler _ _ _ _
  | none =>
      refine Keeps.read fun t => Keeps.bind (idles_packRow e _ _ _ _ _) fun b => ?_
      cases (t.rows r).savedSampler with
      | none => exact Keeps.pure
      | some saved =>
          refine Keeps.bind (idles_moveSampler _ _ _ _) fun b =>
            Keeps.bind (Keeps.modify fun u hu => hu.trans ?_) fun _ => Keeps.pure
          refine ⟨rfl, rfl, rfl, rfl, rfl, fun r' => ?_, fun r' hr => ?_⟩
          · by_cases hr : r' = r
            · subst hr
              exact ⟨none, updateRow_self _⟩
            · exact ⟨(u.rows r').savedSampler, updateRow_ne hr _⟩
          · have hne : r' ≠ r := fun heq => hr (heq.symm ▸ hl)
            exact updateRow_ne hne _

theorem idles_fillSlots (live : List (Nat × Option Nat)) (hlive : live.map Prod.fst ⊆ rows)
    (i : Nat) (b : Slots α ρ ℓ σ) : Keeps (Idles rows s) (fillSlots e g i live b) := by
  induction live generalizing i b with
  | nil => exact Keeps.pure
  | cons l live ih =>
      rw [List.map_cons, List.cons_subset] at hlive
      exact Keeps.bind (idles_fillSlot e g i b l hlive.1) fun b => ih hlive.2 (i + 1) b

theorem idles_newState (count : Nat) : Keeps (Idles rows s) (newState e g count) := by
  refine Keeps.bind idles_device fun _ => Keeps.ite ?_ Keeps.pure
  cases e.model.createState count with
  | ok state => exact Keeps.pure
  | error message => exact Keeps.fail

/-- The new slots belong to the rows that live. -/
structure Regrouped (g g' : Group α ρ ℓ κ σ) (live : List Nat) : Prop where
  rows : g'.rows = live
  incoming : g'.incoming = []
  adapter : g'.adapter = g.adapter
  wkv32 : g'.wkv32 = g.wkv32

theorem triple_regroup (live : List (Nat × Option Nat)) (hlive : live.map Prod.fst ⊆ rows) :
    Triple (Idles rows s) (regroup e g live)
      (fun g' t => Idles rows s t ∧ Regrouped g g' (live.map Prod.fst))
      (fun _ => Idles rows s) := by
  refine triple_bind (idles_newState e g _) fun _ => triple_bind idles_device fun _ => ?_
  refine triple_bind (idles_makeSampler e _) fun _ => ?_
  refine triple_bind (idles_fillSlots e g live hlive 0 _) fun b => triple_read fun t ht => ?_
  exact triple_pure fun u hu => ⟨hu ▸ ht, rfl, rfl, rfl, rfl⟩

end Regroup

section Rebuild

variable (e : Engine α ρ ℓ κ σ) (g : Group α ρ ℓ κ σ) (allowPause : Bool)
variable {others members : List Nat}

/-- Between the parts of a step: every open row is in one place, the rows of the group are
open, and so are the rows that wait, or their requests are cancelled. -/
structure Quiet (others : List Nat) (s : Shared α ρ ℓ κ σ) (members : List Nat) : Prop where
  tallied : Tallied s
  held : s.Held (others ++ members ++ s.pendingRows)
  opens : ∀ r ∈ members, s.isOpen r = true
  answerable : s.Answerable s.pendingRows

/-- Where a step throws, some rows of the group may have been paused already. -/
structure Torn (others : List Nat) (s : Shared α ρ ℓ κ σ) (members : List Nat) : Prop where
  tallied : Tallied s
  held : ∃ pending paused, s.pendingRows = pending ++ paused ∧ paused ⊆ members ∧
    s.Held (others ++ members ++ pending)
  answerable : s.Answerable s.pendingRows

/-- Some rows of the group now wait too; their requests were not cancelled. -/
def Waits (members : List Nat) (s t : Shared α ρ ℓ κ σ) : Prop :=
  ∃ paused, t.pendingRows = s.pendingRows ++ paused ∧ paused ⊆ members ∧
    ∀ r ∈ paused, s.isCancelled r = false

/-- What the work on a group does to the tables. -/
structure Reaches (members : List Nat) (s t : Shared α ρ ℓ κ σ) : Prop extends Steps s t where
  outside : ∀ r ∉ members, t.rows r = s.rows r
  waits : Waits members s t

/-- The rows of a group after some work on it. -/
structure Shrinks (g g' : Group α ρ ℓ κ σ) : Prop where
  incoming : g'.incoming = []
  length : g'.rows.length ≤ g.members.length
  subset : g'.rows ⊆ g.members
  adapter : g'.adapter = g.adapter
  wkv32 : g'.wkv32 = g.wkv32

theorem Quiet.torn (h : Quiet others s members) : Torn others s members :=
  ⟨h.tallied, ⟨s.pendingRows, [], (List.append_nil _).symm, List.nil_subset _, h.held⟩,
    h.answerable⟩

theorem Quiet.lt (h : Quiet others s members) (hr : r ∈ members) : r < s.rowCount :=
  h.held.lt (List.mem_append_left _ (List.mem_append_right _ hr)) (h.opens r hr)

theorem Quiet.nodup (h : Quiet others s members) : members.Nodup := by
  have hnodup := h.held.nodup
  simp only [List.filter_append] at hnodup
  have hmembers := (List.nodup_append.mp (List.nodup_append.mp hnodup).1).2.1
  rwa [List.filter_eq_self.mpr h.opens] at hmembers

theorem Quiet.not_pending (h : Quiet others s members) (hr : r ∈ s.pendingRows)
    (hopen : s.isOpen r = true) : r ∉ members := by
  have hheld : s.Held (others ++ members ++ s.pendingRows ++ []) :=
    (List.append_nil _).symm ▸ h.held
  exact fun hmem => (hheld.disjoint.1 r hmem hopen).2.1 hr

theorem waits_of_eq (h : t.pendingRows = s.pendingRows) : Waits members s t :=
  ⟨[], by rw [h, List.append_nil], List.nil_subset _, fun _ hr => absurd hr List.not_mem_nil⟩

theorem Waits.subset (h : Waits members s t) : s.pendingRows ⊆ t.pendingRows := by
  obtain ⟨paused, hpending, -, -⟩ := h
  rw [hpending]
  exact List.subset_append_left _ _

theorem Waits.trans {members' : List Nat} (hst : Waits members s t) (htu : Waits members' t u)
    (h : Advances s t) (hsub : members' ⊆ members) : Waits members s u := by
  obtain ⟨paused, hpending, hpaused, hgoes⟩ := hst
  obtain ⟨paused', hpending', hpaused', hgoes'⟩ := htu
  refine ⟨paused ++ paused', by rw [hpending', hpending, List.append_assoc],
    List.append_subset.mpr ⟨hpaused, List.Subset.trans hpaused' hsub⟩, fun r hr => ?_⟩
  rcases List.mem_append.mp hr with hr | hr
  · exact hgoes r hr
  · exact h.goes (hgoes' r hr)

/-- Nothing waits of a group whose requests are cancelled. -/
theorem Waits.cancelled (h : Waits members s t)
    (hcancelled : ∀ r ∈ members, s.isCancelled r = true) : t.pendingRows = s.pendingRows := by
  obtain ⟨paused, hpending, hsub, hgoes⟩ := h
  cases paused with
  | nil => rw [hpending, List.append_nil]
  | cons r paused =>
      have hr := hgoes r List.mem_cons_self
      rw [hcancelled r (hsub List.mem_cons_self)] at hr
      cases hr

theorem Reaches.refl (h : Tallied s) : Reaches members s s :=
  { Steps.refl h with
    outside := fun _ _ => rfl
    waits := waits_of_eq rfl }

theorem Reaches.trans {members' : List Nat} (hst : Reaches members s t)
    (htu : Reaches members' t u) (hsub : members' ⊆ members) : Reaches members s u :=
  { hst.toSteps.trans htu.toSteps with
    outside := fun r hr => (htu.outside r fun hmem => hr (hsub hmem)).trans (hst.outside r hr)
    waits := hst.waits.trans htu.waits hst.toAdvances hsub }

/-- Work that completes no row and lets none wait. -/
theorem Quiet.idle (h : Quiet others s members) (hsteps : Advances s t)
    (hopen : t.isOpen = s.isOpen) (hpending : t.pendingRows = s.pendingRows) :
    Quiet others t members where
  tallied := hsteps.tallied
  held := by
    rw [hpending]
    exact h.held.advance hsteps.rowCount fun r => by rw [hopen]; exact id
  opens := hopen ▸ h.opens
  answerable := by
    rw [hpending]
    exact h.answerable.mono (fun r _ hr => Or.inl (hopen ▸ hr)) hsteps.rowCount hsteps.request
      hsteps.cancelled

/-- The loops of `rebuild` over the rows of a group. -/
structure Looped (g : Group α ρ ℓ κ σ) (kept entered paused : List Nat)
    (s t : Shared α ρ ℓ κ σ) : Prop extends Reaches g.members s t where
  pendingRows : t.pendingRows = s.pendingRows ++ paused
  subset : paused ⊆ g.rows
  keptRows : kept.Sublist g.rows
  enteredRows : entered.Sublist g.incoming
  perm : (g.members.filter t.isOpen).Perm ((kept ++ entered ++ paused).filter t.isOpen)
  opens : ∀ r ∈ kept ++ entered ++ paused, t.isOpen r = true
  goes : ∀ r ∈ kept ++ entered ++ paused, s.isCancelled r = false

theorem looped {kept paused : List Nat} (h : Quiet others s g.members)
    (hswept : Swept g.rows paused s t) (hkept : Kept g.rows kept paused s t) :
    Looped g kept (enter g.incoming t).1 paused s (enter g.incoming t).2 := by
  obtain ⟨hrows, hincoming, hdisjoint⟩ := List.nodup_append.mp h.nodup
  have hnot : ∀ r ∈ g.incoming, r ∉ g.rows :=
    fun r hr hmem => hdisjoint r hmem r hr rfl
  have hentered := enter_spec g.incoming t hswept.tallied
    (fun r hr => hswept.rowCount ▸ h.lt (List.mem_append_right _ hr))
    (fun r hr => by
      rw [isOpen_congr (hswept.outside r (hnot r hr))]
      exact h.opens r (List.mem_append_right _ hr))
    hincoming
  have hstill : ∀ r ∈ g.rows, (enter g.incoming t).2.isOpen r = t.isOpen r :=
    fun r hr => isOpen_congr (hentered.outside r fun hmem => hnot r hmem hr)
  refine
    { hswept.toSteps.trans hentered.toSteps with
      outside := fun r hr => ?_
      waits := ⟨paused, by rw [hentered.pendingRows, hswept.pendingRows, List.append_nil],
        fun _ hr => List.mem_append_left _ (hswept.subset hr), hswept.goes⟩
      pendingRows := by rw [hentered.pendingRows, hswept.pendingRows, List.append_nil]
      subset := hswept.subset
      keptRows := hkept.sublist
      enteredRows := hentered.kept.sublist
      perm := ?_
      opens := fun r hr => ?_
      goes := fun r hr => ?_ }
  · rw [Group.members, List.mem_append, not_or] at hr
    rw [hentered.outside r hr.2, hswept.outside r hr.1]
  · have hold := List.Perm.filter (enter g.incoming t).2.isOpen hkept.perm
    rw [← filter_open hentered.open_mono, ← filter_open hentered.open_mono] at hold
    have hnew := hentered.kept.perm
    rw [List.append_nil] at hnew
    simp only [Group.members, List.filter_append] at hold ⊢
    refine (hold.append hnew).trans ?_
    rw [List.append_assoc, List.append_assoc]
    exact (List.perm_append_comm).append_left _
  · rcases List.mem_append.mp hr with hr | hr
    · rcases List.mem_append.mp hr with hr | hr
      · rw [hstill r (hkept.sublist.subset hr)]
        exact hkept.opens hrows r hr
      · exact hentered.kept.opens hincoming r hr
    · rw [hstill r (hswept.subset hr)]
      exact hswept.opens hrows r hr
  · rcases List.mem_append.mp hr with hr | hr
    · rcases List.mem_append.mp hr with hr | hr
      · exact hkept.goes r hr
      · exact hswept.toAdvances.goes (hentered.kept.goes r hr)
    · exact hswept.goes r hr

variable {g} {kept entered paused : List Nat}

theorem Looped.answerable (h : Looped g kept entered paused s t)
    (hs : Quiet others s g.members) : t.Answerable t.pendingRows := by
  rw [h.pendingRows]
  intro r hr
  rcases List.mem_append.mp hr with hr | hr
  · refine hs.answerable.mono (fun r hr hopen => Or.inl ?_) h.rowCount h.request h.cancelled r hr
    rw [isOpen_congr (h.outside r (hs.not_pending hr hopen))]
    exact hopen
  · exact ⟨h.rowCount ▸ hs.lt (List.mem_append_left _ (h.subset hr)),
      Or.inl (h.opens r (List.mem_append_right _ hr))⟩

theorem Looped.quiet (h : Looped g kept entered paused s t) (hs : Quiet others s g.members) :
    Quiet others t (kept ++ entered) where
  tallied := h.tallied
  held := by
    refine (hs.held.advance h.rowCount h.open_mono).perm ?_
    rw [h.pendingRows]
    have hperm := h.perm
    simp only [List.filter_append, List.append_assoc] at hperm ⊢
    refine List.Perm.append_left _ ((hperm.append_right _).trans ?_)
    simp only [List.append_assoc]
    refine List.Perm.append_left _ (List.Perm.append_left _ List.perm_append_comm)
  opens := fun r hr => h.opens r (List.mem_append_left _ hr)
  answerable := h.answerable hs

theorem Looped.torn (h : Looped g kept entered paused s t) (hs : Quiet others s g.members) :
    Torn others t g.members where
  tallied := h.tallied
  held := ⟨s.pendingRows, paused, h.pendingRows,
    fun _ hr => List.mem_append_left _ (h.subset hr), hs.held.advance h.rowCount h.open_mono⟩
  answerable := h.answerable hs

theorem Torn.idle (h : Torn others s members) (hidle : Idles members s t) :
    Torn others t members where
  tallied := (hidle.steps h.tallied).tallied
  held := by
    obtain ⟨pending, paused, hpending, hsub, hheld⟩ := h.held
    refine ⟨pending, paused, hidle.pendingRows.trans hpending, hsub, ?_⟩
    exact hheld.advance hidle.rowCount fun r => by rw [hidle.isOpen_eq]; exact id
  answerable := by
    rw [hidle.pendingRows]
    refine h.answerable.mono (fun r _ hr => Or.inl (hidle.isOpen_eq ▸ hr)) hidle.rowCount
      hidle.request_eq ?_
    exact fun q hq => by rw [hidle.requests]; exact hq

/-- The sweep throws: the rows that come in are still there. -/
theorem Swept.torn (h : Swept g.rows paused s t) (hs : Quiet others s g.members) :
    Reaches g.members s t ∧ Torn others t g.members := by
  have hnodup : g.rows.Nodup := (List.nodup_append.mp hs.nodup).1
  have houtside : ∀ r ∉ g.members, t.rows r = s.rows r := fun r hr =>
    h.outside r fun hmem => hr (List.mem_append_left _ hmem)
  have hwaits : Waits g.members s t :=
    ⟨paused, h.pendingRows, fun _ hr => List.mem_append_left _ (h.subset hr), h.goes⟩
  refine ⟨{ h.toSteps with outside := houtside, waits := hwaits }, h.tallied, ?_, ?_⟩
  · exact ⟨s.pendingRows, paused, h.pendingRows,
      fun _ hr => List.mem_append_left _ (h.subset hr), hs.held.advance h.rowCount h.open_mono⟩
  · rw [h.pendingRows]
    intro r hr
    rcases List.mem_append.mp hr with hr | hr
    · refine hs.answerable.mono (fun r hr hopen => Or.inl ?_) h.rowCount h.request h.cancelled
        r hr
      rw [isOpen_congr (houtside r (hs.not_pending hr hopen))]
      exact hopen
    · exact ⟨h.rowCount ▸ hs.lt (List.mem_append_left _ (h.subset hr)),
        Or.inl (h.opens hnodup r hr)⟩

variable (g)

theorem triple_rebuild (hs : Quiet others s g.members) :
    Triple (fun t => t = s) (rebuild e allowPause g)
      (fun g' t => Reaches g.members s t ∧ Quiet others t g'.rows ∧ Shrinks g g' ∧
        ∀ r ∈ g'.rows, s.isCancelled r = false)
      (fun _ t => Reaches g.members s t ∧ Torn others t g.members) := by
  refine triple_bind (triple_weaken (triple_sweep e g allowPause g.rows 0 s hs.tallied
    fun r hr => hs.lt (List.mem_append_left _ hr)) (fun _ => id) (fun _ _ => id) ?_)
    fun kept => triple_read ?_
  · rintro _ t ⟨paused, hswept⟩
    exact hswept.torn hs
  rintro t ⟨paused, hswept, hkept⟩
  have hloops := looped g hs hswept hkept
  refine triple_bind (triple_modify (R := fun _ u => u = (enter g.incoming t).2)
    fun _ _ => rfl) fun _ => ?_
  generalize enter g.incoming t = entered at hloops
  have hlive : (kept ++ entered.1.map fun r => (r, (none : Option Nat))).map Prod.fst =
      kept.map Prod.fst ++ entered.1 := by
    rw [List.map_append, List.map_map]
    exact congrArg _ (List.map_id _)
  have hlength : (kept.map Prod.fst ++ entered.1).length ≤ g.members.length := by
    rw [List.length_append, Group.members, List.length_append]
    exact Nat.add_le_add hloops.keptRows.length_le hloops.enteredRows.length_le
  have hsub : kept.map Prod.fst ++ entered.1 ⊆ g.members := fun r hr =>
    (List.mem_append.mp hr).elim
      (fun hr => List.mem_append_left _ (hloops.keptRows.subset hr))
      fun hr => List.mem_append_right _ (hloops.enteredRows.subset hr)
  have hgoes : ∀ r ∈ kept.map Prod.fst ++ entered.1, s.isCancelled r = false := fun r hr =>
    hloops.goes r (List.mem_append_left _ hr)
  refine triple_ite (fun hsame => triple_pure fun u hu => ?_) fun _ => ?_
  · subst hu
    rw [hlive] at hsame
    refine ⟨hloops.toReaches, ?_, ⟨rfl, ?_, ?_, rfl, rfl⟩, hsame ▸ hgoes⟩
    · show Quiet others entered.2 g.rows
      rw [← hsame]
      exact hloops.quiet hs
    · exact (List.length_append ▸ Nat.le_add_right _ _)
    · exact List.subset_append_left _ _
  refine triple_ite (fun hnone => triple_pure fun u hu => ?_) fun _ => ?_
  · subst hu
    refine ⟨hloops.toReaches, ?_, ⟨rfl, Nat.zero_le _, List.nil_subset _, rfl, rfl⟩,
      fun _ hr => absurd hr List.not_mem_nil⟩
    have hquiet := hloops.quiet hs
    rw [← hlive, hnone] at hquiet
    exact hquiet
  · have hidles : ∀ u, Idles g.members entered.2 u → Reaches g.members s u := fun u hidle =>
      hloops.toReaches.trans
        { hidle.steps hloops.tallied with
          outside := hidle.outside
          waits := waits_of_eq hidle.pendingRows } (List.Subset.refl _)
    refine triple_at (Idles.refl g.members entered.2) ?_
    refine triple_weaken (triple_regroup e g _ (hlive ▸ hsub)) (fun _ => id) ?_ ?_
    · rintro g' u ⟨hidle, hregrouped⟩
      have hsteps := hidle.steps hloops.tallied
      have hrows : g'.rows = kept.map Prod.fst ++ entered.1 := hregrouped.rows.trans hlive
      refine ⟨hidles u hidle, ?_, ⟨hregrouped.incoming, ?_, ?_, hregrouped.adapter,
        hregrouped.wkv32⟩, hrows ▸ hgoes⟩
      · rw [hrows]
        exact (hloops.quiet hs).idle hsteps.toAdvances hidle.isOpen_eq hidle.pendingRows
      · exact hrows ▸ hlength
      · exact hrows ▸ hsub
    · intro _ u hidle
      exact ⟨hidles u hidle, (hloops.torn hs).idle hidle⟩

end Rebuild

section Step

variable (e : Engine α ρ ℓ κ σ) {g : Group α ρ ℓ κ σ} {others members : List Nat}

/-- Work on a group that completes no row and lets none wait. -/
structure Labours (members : List Nat) (s t : Shared α ρ ℓ κ σ) : Prop extends
    Reaches members s t where
  isOpen : t.isOpen = s.isOpen
  pendingRows : t.pendingRows = s.pendingRows

theorem Labours.refl (hs : Tallied s) : Labours members s s :=
  { Reaches.refl hs with
    isOpen := rfl
    pendingRows := rfl }

theorem Labours.trans (hst : Labours members s t) (htu : Labours members t u) :
    Labours members s u :=
  { hst.toReaches.trans htu.toReaches (List.Subset.refl _) with
    isOpen := htu.isOpen.trans hst.isOpen
    pendingRows := htu.pendingRows.trans hst.pendingRows }

theorem Works.labours (h : Works r s t) (hs : Tallied s) (hr : r < s.rowCount)
    (hopen : s.isOpen r = true) (hmem : r ∈ members) : Labours members s t :=
  { steps_works h hs hr hopen with
    outside := fun r' hr' => h.rows r' fun heq => hr' (heq.symm ▸ hmem)
    waits := waits_of_eq h.pendingRows
    isOpen := funext h.isOpen_eq
    pendingRows := h.pendingRows }

/-- A loop over open rows of a group. -/
theorem labours_foldl {β : Type} (f : Shared α ρ ℓ κ σ → β → Shared α ρ ℓ κ σ) (row : β → Nat)
    (hf : ∀ s b, Works (row b) s (f s b)) (l : List β) (s : Shared α ρ ℓ κ σ) (hs : Tallied s)
    (hl : ∀ b ∈ l, row b ∈ members ∧ row b < s.rowCount ∧ s.isOpen (row b) = true) :
    Labours members s (l.foldl f s) := by
  induction l generalizing s with
  | nil => exact Labours.refl hs
  | cons b l ih =>
      obtain ⟨hmem, hlt, hopen⟩ := hl b List.mem_cons_self
      have hworks := hf s b
      have hfirst : Labours members s (f s b) := hworks.labours hs hlt hopen hmem
      refine hfirst.trans (ih (f s b) hfirst.tallied fun b' hb' => ?_)
      obtain ⟨hmem', hlt', hopen'⟩ := hl b' (List.mem_cons_of_mem _ hb')
      exact ⟨hmem', hworks.rowCount ▸ hlt', (congrFun hfirst.isOpen _).trans hopen'⟩

theorem labours_device : Keeps (Labours members s) (device : Task α ρ ℓ κ σ PUnit) := by
  refine keeps_of_state fun t ht => ?_
  have hidle : Idles members t (device t).2 := idles_device.state (Idles.refl members t)
  exact ht.trans
    { hidle.steps ht.tallied with
      outside := hidle.outside
      waits := waits_of_eq hidle.pendingRows
      isOpen := hidle.isOpen_eq
      pendingRows := hidle.pendingRows }

/-- A part of a step that changes neither the rows of the group nor where rows are. -/
def Steady (members : List Nat) (f : Group α ρ ℓ κ σ → Task α ρ ℓ κ σ (Group α ρ ℓ κ σ)) :
    Prop :=
  ∀ g s, Tallied s → (∀ r ∈ g.rows, r ∈ members ∧ r < s.rowCount ∧ s.isOpen r = true) →
    Triple (fun t => t = s) (f g)
      (fun g' t => Labours members s t ∧ g'.rows = g.rows ∧ g'.incoming = g.incoming ∧
        g'.adapter = g.adapter ∧ g'.wkv32 = g.wkv32)
      (fun _ => Labours members s)

theorem triple_attempt {β γ : Type} {P : Shared α ρ ℓ κ σ → Prop}
    {Q : γ → Shared α ρ ℓ κ σ → Prop} {E : Failure → Shared α ρ ℓ κ σ → Prop}
    {x : Except String β} {f : β → Task α ρ ℓ κ σ γ} (hfails : ∀ err s, P s → E err s)
    (h : ∀ b, x = .ok b → Triple P (f b) Q E) : Triple P (attempt x >>= f) Q E := by
  cases x with
  | ok b => exact h b rfl
  | error message => exact fun s hs => hfails _ s hs

theorem steady_sample : Steady members (sample e) := by
  intro g s hs hrows
  refine triple_read fun t ht => ?_
  subst ht
  refine triple_at (Labours.refl hs) (triple_attempt (fun _ _ => id) fun out _ => ?_)
  refine triple_bind labours_device fun _ => ?_
  refine triple_bind (triple_modify (R := fun _ => Labours members t) fun u hu => ?_)
    fun _ => triple_pure fun u hu => ⟨hu, rfl, rfl, rfl, rfl⟩
  refine hu.trans (labours_foldl (takeToken e) Prod.fst (fun s b => works_takeToken s e b) _ u
    hu.tallied fun b hb => ?_)
  obtain ⟨hmem, hlt, hopen⟩ := hrows b.1 (List.of_mem_zip hb).1
  exact ⟨hmem, hu.rowCount ▸ hlt, (congrFun hu.isOpen _).trans hopen⟩

theorem steady_forward : Steady members (forward e) := by
  intro g s hs hrows
  refine triple_read fun t ht => ?_
  subst ht
  refine triple_at (Labours.refl hs) (triple_attempt (fun _ _ => id) fun out _ => ?_)
  refine triple_bind labours_device fun _ => ?_
  refine triple_bind (triple_modify (R := fun _ => Labours members t) fun u hu => ?_)
    fun _ => triple_pure fun u hu => ⟨hu, rfl, rfl, rfl, rfl⟩
  refine hu.trans (labours_foldl finishRow id works_finishRow _ u hu.tallied fun r hr => ?_)
  obtain ⟨hmem, hlt, hopen⟩ := hrows r hr
  exact ⟨hmem, hu.rowCount ▸ hlt, (congrFun hu.isOpen _).trans hopen⟩

/-- Between the parts of a step that started at `x`. -/
structure Stage (others : List Nat) (x y : Focus α ρ ℓ κ σ) : Prop where
  reaches : Reaches x.2.members x.1 y.1
  quiet : Quiet others y.1 y.2.rows
  shrinks : Shrinks x.2 y.2
  goes : ∀ r ∈ y.2.rows, x.1.isCancelled r = false

/-- Where a step that started at `x` throws. -/
structure Thrown (others : List Nat) (x y : Focus α ρ ℓ κ σ) : Prop where
  reaches : Reaches x.2.members x.1 y.1
  torn : Torn others y.1 y.2.members
  subset : y.2.members ⊆ x.2.members
  adapter : y.2.adapter = x.2.adapter
  wkv32 : y.2.wkv32 = x.2.wkv32

variable {x : Focus α ρ ℓ κ σ}

theorem triple_onGroup {P Q : Focus α ρ ℓ κ σ → Prop} {E : Failure → Focus α ρ ℓ κ σ → Prop}
    {f : Group α ρ ℓ κ σ → Task α ρ ℓ κ σ (Group α ρ ℓ κ σ)}
    (h : ∀ s g, P (s, g) →
      Triple (fun t => t = s) (f g) (fun g' t => Q (t, g')) (fun err t => E err (t, g))) :
    Triple P (onGroup f) (fun _ => Q) E := by
  intro y hy
  have hout := h y.1 y.2 hy y.1 rfl
  unfold onGroup
  cases hrun : f y.2 y.1 with
  | mk result t =>
      rw [hrun] at hout
      cases result with
      | ok g' => exact hout
      | error err => exact hout

theorem Shrinks.members_eq {g g' : Group α ρ ℓ κ σ} (h : Shrinks g g') :
    g'.members = g'.rows := by
  rw [Group.members, h.incoming, List.append_nil]

theorem Stage.rebuild (allowPause : Bool) :
    Triple (Stage others x) (onGroup (rebuild e allowPause)) (fun _ => Stage others x)
      (fun _ => Thrown others x) := by
  refine triple_onGroup fun s g hstage => ?_
  have hmembers : g.members = g.rows := hstage.shrinks.members_eq
  have hsub : g.members ⊆ x.2.members := hmembers ▸ hstage.shrinks.subset
  have hquiet : Quiet others s g.members := hmembers.symm ▸ hstage.quiet
  refine triple_weaken (triple_rebuild e g allowPause hquiet) (fun _ => id) ?_ ?_
  · rintro g' t ⟨hreaches, hquiet', hshrinks, hgoes⟩
    refine ⟨hstage.reaches.trans hreaches hsub, hquiet', ⟨hshrinks.incoming, ?_,
      fun r hr => hsub (hshrinks.subset hr), hshrinks.adapter.trans hstage.shrinks.adapter,
      hshrinks.wkv32.trans hstage.shrinks.wkv32⟩,
      fun r hr => hstage.reaches.toAdvances.goes (hgoes r hr)⟩
    have hlength := hshrinks.length
    rw [hmembers] at hlength
    exact hlength.trans hstage.shrinks.length
  · rintro _ t ⟨hreaches, htorn⟩
    exact ⟨hstage.reaches.trans hreaches hsub, htorn, hsub, hstage.shrinks.adapter,
      hstage.shrinks.wkv32⟩

theorem Stage.steady {f : Group α ρ ℓ κ σ → Task α ρ ℓ κ σ (Group α ρ ℓ κ σ)}
    (hf : Steady x.2.members f) :
    Triple (Stage others x) (onGroup f) (fun _ => Stage others x) (fun _ => Thrown others x) := by
  refine triple_onGroup fun s g hstage => ?_
  have hmembers : g.members = g.rows := hstage.shrinks.members_eq
  have hrows : ∀ r ∈ g.rows, r ∈ x.2.members ∧ r < s.rowCount ∧ s.isOpen r = true :=
    fun r hr => ⟨hstage.shrinks.subset hr, hstage.quiet.lt hr, hstage.quiet.opens r hr⟩
  have hquiet : ∀ t, Labours x.2.members s t → Quiet others t g.rows := fun t ht =>
    hstage.quiet.idle ht.toAdvances ht.isOpen ht.pendingRows
  refine triple_weaken (hf g s hstage.quiet.tallied hrows) (fun _ => id) ?_ ?_
  · rintro g' t ⟨hlabours, hsame, hincoming, hadapter, hwkv⟩
    refine ⟨hstage.reaches.trans hlabours.toReaches (List.Subset.refl _), ?_,
      ⟨hincoming.trans hstage.shrinks.incoming, ?_, ?_, hadapter.trans hstage.shrinks.adapter,
      hwkv.trans hstage.shrinks.wkv32⟩, hsame ▸ hstage.goes⟩
    · rw [hsame]
      exact hquiet t hlabours
    · rw [hsame]
      exact hstage.shrinks.length
    · rw [hsame]
      exact hstage.shrinks.subset
  · intro _ t hlabours
    refine ⟨hstage.reaches.trans hlabours.toReaches (List.Subset.refl _), ?_,
      hmembers ▸ hstage.shrinks.subset, hstage.shrinks.adapter, hstage.shrinks.wkv32⟩
    rw [hmembers]
    exact (hquiet t hlabours).torn

/-- The first part of a step. -/
theorem Stage.first (hx : Quiet others x.1 x.2.members) :
    Triple (fun y => y = x) (onGroup (DecodeScheduler.rebuild e true)) (fun _ => Stage others x)
      (fun _ => Thrown others x) := by
  refine triple_onGroup fun s g heq => ?_
  subst heq
  refine triple_weaken (triple_rebuild e g true hx) (fun _ => id) ?_ ?_
  · rintro g' t ⟨hreaches, hquiet, hshrinks, hgoes⟩
    exact ⟨hreaches, hquiet, hshrinks, hgoes⟩
  · rintro _ t ⟨hreaches, htorn⟩
    exact ⟨hreaches, htorn, List.Subset.refl _, rfl, rfl⟩

/-- A step keeps every row, and where it throws the rows of the group are still known. -/
theorem triple_step (hx : Quiet others x.1 x.2.members) :
    Triple (fun y => y = x) (step e) (fun _ => Stage others x) (fun _ => Thrown others x) := by
  refine triple_bind (Stage.first e hx) fun _ => triple_read fun y hy => triple_at hy ?_
  refine triple_ite (fun _ => triple_pure fun _ => id) fun _ => ?_
  refine triple_bind (Stage.steady (steady_sample e)) fun _ => ?_
  refine triple_bind (Stage.rebuild e false) fun _ => triple_read fun y hy => triple_at hy ?_
  refine triple_ite (fun _ => triple_pure fun _ => id) fun _ => ?_
  exact triple_bind (Stage.steady (steady_forward e)) fun _ => Stage.rebuild e false

end Step

section Failure

variable {err : Failure} {rows others members : List Nat}

/-- What a failure does with the rows of a group. -/
structure Fails (err : Failure) (rows : List Nat) (s t : Shared α ρ ℓ κ σ) : Prop extends
    Advances s t where
  outside : ∀ r ∉ rows, t.rows r = s.rows r
  pendingRows : t.pendingRows = s.pendingRows
  closed : ∀ r ∈ rows, t.isOpen r = false
  reported : ∀ r ∈ rows, s.isOpen r = true →
    (t.requests (s.requestOf r)).error = some err ∧
      (t.requests (s.requestOf r)).cancelled = true
  spared : ∀ q, (∀ r ∈ rows, s.isOpen r = true → s.requestOf r ≠ q) →
    (t.requests q).error = (s.requests q).error

/-- The mark that a failure leaves on the request of a row. -/
def failed (err : Failure) (req : Request α ρ ℓ κ) : Request α ρ ℓ κ :=
  { req with error := some err, cancelled := true }

theorem acts_failed (err : Failure) (s : Shared α ρ ℓ κ σ) (r : Nat) :
    Acts r s (s.updateRequest (s.requestOf r) (failed err)) :=
  acts_updateRequest rfl (elsewhere_of_flags rfl rfl rfl rfl rfl fun _ => rfl)

theorem tallied_failed (hs : Tallied s) (q : Nat) :
    Tallied (s.updateRequest q (failed err)) := by
  have hsame : ∀ q', ((s.updateRequest q (failed err)).requests q').remaining =
        (s.requests q').remaining ∧
      ((s.updateRequest q (failed err)).requests q').done = (s.requests q').done ∧
      ((s.updateRequest q (failed err)).requests q').state.rows.length =
        (s.requests q').state.rows.length := by
    intro q'
    by_cases hq : q' = q
    · subst hq
      rw [updateRequest_self]
      exact ⟨rfl, rfl, rfl⟩
    · rw [updateRequest_ne hq]
      exact ⟨rfl, rfl, rfl⟩
  exact hs.congr rfl rfl rfl (fun _ => rfl) (fun _ => rfl) (fun _ => rfl)
    (fun q' => (hsame q').1) (fun q' => (hsame q').2.1) fun q' => (hsame q').2.2

theorem failRow_eq (hopen : s.isOpen r = true) :
    failRow err s r = complete (s.updateRequest (s.requestOf r) (failed err)) r :=
  if_neg (by rw [isOpen_iff.mp hopen]; exact Bool.false_ne_true)

/-- The failure of one open row. -/
theorem failRow_open (hs : Tallied s) (hr : r < s.rowCount) (hopen : s.isOpen r = true) :
    Fails err [r] s (failRow err s r) := by
  rw [failRow_eq hopen]
  have hmark := acts_failed err s r
  have hcompletes := @completes_complete _ _ _ _ _
    (s.updateRequest (s.requestOf r) (failed err)) r hopen
  have hall := hmark.trans hcompletes.toActs
  have htallied := hcompletes.tallied (tallied_failed hs _) hr hopen
  refine
    { requestCount := hall.requestCount
      rowCount := hall.rowCount
      incoming := hall.incoming
      request := hall.request_eq
      completed := hall.completed_mono
      cancelled := hall.cancelled_mono
      frozen := hall.frozen hs hr hopen
      tallied := htallied
      outside := fun r' hr' => hall.rows r' (List.ne_of_not_mem_cons hr')
      pendingRows := hcompletes.pendingRows
      closed := fun r' hr' => ?_
      reported := fun r' hr' _ => ?_
      spared := fun q hq => ?_ }
  · rw [List.mem_singleton.mp hr']
    exact complete_closed _ r
  · rw [List.mem_singleton.mp hr', hcompletes.error, updateRequest_self]
    refine ⟨rfl, hcompletes.own.cancelled ?_⟩
    show ((s.updateRequest (s.requestOf r) (failed err)).requests (s.requestOf r)).cancelled = true
    rw [updateRequest_self]
    rfl
  · rw [hcompletes.error, updateRequest_ne (hq r List.mem_cons_self hopen).symm]

theorem failRow_fails (hs : Tallied s) (hr : s.isOpen r = true → r < s.rowCount) :
    Fails err [r] s (failRow err s r) := by
  cases hrow : s.isOpen r with
  | true => exact failRow_open hs (hr hrow) hrow
  | false =>
      have hsame : failRow err s r = s :=
        if_pos (by rwa [Shared.isOpen, Bool.not_eq_false'] at hrow)
      rw [hsame]
      refine
        { Advances.refl hs with
          outside := fun _ _ => rfl
          pendingRows := rfl
          closed := fun r' hr' => ?_
          reported := fun r' hr' hopen => ?_
          spared := fun _ _ => rfl }
      · rw [List.mem_singleton.mp hr']
        exact hrow
      · rw [List.mem_singleton.mp hr', hrow] at hopen
        cases hopen

theorem Fails.cons (h : Fails err [r] s t) (hrest : Fails err rows t u) :
    Fails err (r :: rows) s u := by
  refine
    { h.toAdvances.trans hrest.toAdvances with
      outside := fun r' hr' => ?_
      pendingRows := hrest.pendingRows.trans h.pendingRows
      closed := fun r' hr' => ?_
      reported := fun r' hr' hopen => ?_
      spared := fun q hq => ?_ }
  · rw [hrest.outside r' (List.not_mem_of_not_mem_cons hr')]
    exact h.outside r' fun hmem => List.ne_of_not_mem_cons hr' (List.mem_singleton.mp hmem)
  · rcases List.mem_cons.mp hr' with rfl | hr'
    · by_contra hopen
      have hbefore := hrest.open_of_open (Bool.eq_true_of_not_eq_false hopen)
      rw [h.closed _ List.mem_cons_self] at hbefore
      cases hbefore
    · exact hrest.closed r' hr'
  · by_cases hne : r' = r
    · subst hne
      obtain ⟨herror, hcancelled⟩ := h.reported r' List.mem_cons_self hopen
      refine ⟨?_, hrest.cancelled _ hcancelled⟩
      -- Another row of the request may fail after this one.
      by_cases hagain : ∃ r'' ∈ rows, t.isOpen r'' = true ∧ t.requestOf r'' = s.requestOf r'
      · obtain ⟨r'', hmem, hopen'', hsame⟩ := hagain
        exact hsame ▸ (hrest.reported r'' hmem hopen'').1
      · rw [hrest.spared _ fun r'' hmem hopen'' hsame => hagain ⟨r'', hmem, hopen'', hsame⟩]
        exact herror
    · have hmem : r' ∈ rows := (List.mem_cons.mp hr').resolve_left hne
      have hsame : t.isOpen r' = s.isOpen r' :=
        isOpen_congr (h.outside r' fun hmem => hne (List.mem_singleton.mp hmem))
      rw [← h.request]
      exact hrest.reported r' hmem (hsame.trans hopen)
  · rw [hrest.spared q fun r' hr' hopen => ?_]
    · refine h.spared q fun r' hr' => hq r' ?_
      rw [List.mem_singleton.mp hr']
      exact List.mem_cons_self
    · rw [h.request]
      exact hq r' (List.mem_cons_of_mem _ hr') (h.open_of_open hopen)

theorem fails_foldl (err : Failure) (rows : List Nat) (s : Shared α ρ ℓ κ σ) (hs : Tallied s)
    (hrows : ∀ r ∈ rows, s.isOpen r = true → r < s.rowCount) :
    Fails err rows s (rows.foldl (failRow err) s) := by
  induction rows generalizing s with
  | nil =>
      exact
        { Advances.refl hs with
          outside := fun _ _ => rfl
          pendingRows := rfl
          closed := fun _ hr => absurd hr List.not_mem_nil
          reported := fun _ hr => absurd hr List.not_mem_nil
          spared := fun _ _ => rfl }
  | cons r rows ih =>
      have hone : Fails err [r] s (failRow err s r) := failRow_fails hs (hrows r List.mem_cons_self)
      refine hone.cons (ih _ hone.tallied fun r' hr' hopen => ?_)
      exact hone.rowCount ▸ hrows r' (List.mem_cons_of_mem _ hr') (hone.open_of_open hopen)

theorem Torn.lt (h : Torn others s members) (hr : r ∈ members) (hopen : s.isOpen r = true) :
    r < s.rowCount := by
  obtain ⟨pending, paused, -, -, hheld⟩ := h.held
  exact hheld.lt (List.mem_append_left _ (List.mem_append_right _ hr)) hopen

theorem filter_closed {rows : List Nat} (h : ∀ r ∈ rows, s.isOpen r = false) :
    rows.filter s.isOpen = [] := by
  refine List.filter_eq_nil_iff.mpr fun r hr => ?_
  rw [h r hr]
  exact Bool.false_ne_true

/-- After a failure the group has no rows, and the others are where they were. -/
theorem Fails.quiet (h : Fails err members s t) (hs : Torn others s members) :
    Quiet others t [] where
  tallied := h.tallied
  held := by
    obtain ⟨pending, paused, hpending, hsub, hheld⟩ := hs.held
    refine (hheld.advance h.rowCount fun r => h.open_of_open).perm ?_
    rw [h.pendingRows, hpending]
    have hmembers := filter_closed h.closed
    have hpaused := filter_closed fun r hr => h.closed r (hsub hr)
    simp only [List.filter_append, hmembers, hpaused, List.append_nil]
    exact List.Perm.refl _
  opens := fun r hr => absurd hr List.not_mem_nil
  answerable := by
    rw [h.pendingRows]
    refine hs.answerable.mono (fun r hr hopen => ?_) h.rowCount h.request h.cancelled
    by_cases hmem : r ∈ members
    · right
      rw [h.request]
      exact (h.reported r hmem hopen).2
    · left
      rw [isOpen_congr (h.outside r hmem)]
      exact hopen

end Failure

section Serve

variable (e : Engine α ρ ℓ κ σ) (shutdown : Bool) {others : List Nat}
variable {x : Focus α ρ ℓ κ σ}

/-- Only requests are cancelled. -/
structure Cancels (rows : List Nat) (s t : Shared α ρ ℓ κ σ) : Prop extends Steps s t where
  same : t.rows = s.rows
  pendingRows : t.pendingRows = s.pendingRows
  asked : ∀ r ∈ rows, (t.requests (t.requestOf r)).cancelled = true

theorem later_cancelled (req : Request α ρ ℓ κ) : Later req { req with cancelled := true } :=
  { Later.refl req with cancelled := fun _ => rfl }

/-- A change of requests that only their clients could have made. -/
theorem steps_later (hs : Tallied s) (hrequestCount : t.requestCount = s.requestCount)
    (hrowCount : t.rowCount = s.rowCount) (hincoming : t.incoming = s.incoming)
    (hrows : t.rows = s.rows) (h : ∀ q, Later (s.requests q) (t.requests q)) : Steps s t where
  requestCount := hrequestCount
  rowCount := hrowCount
  incoming := hincoming
  request := fun r => by rw [Shared.requestOf, hrows]; rfl
  completed := fun r => by rw [hrows]; exact id
  cancelled := fun q => (h q).cancelled
  frozen := fun q _ => h q
  error := fun q => (h q).error
  tallied := by
    refine hs.congr hrequestCount hrowCount hincoming (fun r => ?_) (fun r => ?_) (fun r => ?_)
      (fun q => (h q).remaining) (fun q => (h q).done)
      fun q => congrArg (fun sub => sub.state.rows.length) (h q).same
    · rw [Shared.requestOf, hrows]
      rfl
    · rw [hrows]
    · rw [hrows]

theorem later_updateRequest {f : Request α ρ ℓ κ → Request α ρ ℓ κ} {q : Nat}
    (h : Later (s.requests q) (f (s.requests q))) (q' : Nat) :
    Later (s.requests q') ((s.updateRequest q f).requests q') := by
  by_cases hq : q' = q
  · rw [hq, updateRequest_self]
    exact h
  · rw [updateRequest_ne hq]
    exact Later.refl _

theorem cancelRows_spec (rows : List Nat) (s : Shared α ρ ℓ κ σ) (hs : Tallied s) :
    Cancels rows s (cancelRows s rows) := by
  induction rows generalizing s with
  | nil =>
      exact
        { Steps.refl hs with
          same := rfl
          pendingRows := rfl
          asked := fun _ hr => absurd hr List.not_mem_nil }
  | cons r rows ih =>
      let t := s.updateRequest (s.requestOf r) fun req => { req with cancelled := true }
      have hone : Steps s t := steps_later hs rfl rfl rfl rfl
        (later_updateRequest (later_cancelled _))
      have hrest := ih t hone.tallied
      refine
        { hone.trans hrest.toSteps with
          same := hrest.same
          pendingRows := hrest.pendingRows
          asked := fun r' hr' => ?_ }
      rcases List.mem_cons.mp hr' with rfl | hr'
      · show ((cancelRows t rows).requests ((cancelRows t rows).requestOf r')).cancelled = true
        rw [hrest.request]
        refine hrest.cancelled _ ?_
        show (t.requests (s.requestOf r')).cancelled = true
        rw [updateRequest_self]
      · exact hrest.asked r' hr'

/-- What serving a group does. -/
structure Served (others : List Nat) (x y : Focus α ρ ℓ κ σ) : Prop where
  advances : Advances x.1 y.1
  outside : ∀ r ∉ x.2.members, y.1.rows r = x.1.rows r
  waits : Waits x.2.members x.1 y.1
  quiet : Quiet others y.1 y.2.members
  shrinks : Shrinks x.2 y.2
  goes : ∀ r ∈ y.2.rows, x.1.isCancelled r = false

/-- A group whose rows are all gone, and none of them waits. -/
structure Drained (x y : Focus α ρ ℓ κ σ) : Prop where
  rows : y.2.rows = []
  pendingRows : y.1.pendingRows = x.1.pendingRows

theorem Stage.drained {y : Focus α ρ ℓ κ σ} (h : Stage others x y)
    (hcancelled : ∀ r ∈ x.2.members, x.1.isCancelled r = true) : Drained x y where
  rows := by
    refine List.eq_nil_iff_forall_not_mem.mpr fun r hr => ?_
    have hgoes := h.goes r hr
    rw [hcancelled r (h.shrinks.subset hr)] at hgoes
    cases hgoes
  pendingRows := h.reaches.waits.cancelled hcancelled

theorem triple_stepGroup (hx : Quiet others x.1 x.2.members) :
    Triple (fun y => y = x) (stepGroup e shutdown)
      (fun _ y => Stage others x y ∧ (shutdown = true → Drained x y))
      (fun _ y => Thrown others x y ∧
        (shutdown = true → y.1.pendingRows = x.1.pendingRows)) := by
  refine triple_ite (fun _ => triple_fail fun y hy => ?_) fun _ => ?_
  · subst hy
    exact ⟨⟨Reaches.refl hx.tallied, hx.torn, List.Subset.refl _, rfl, rfl⟩, fun _ => rfl⟩
  have hstart : Reaches x.2.members x.1
        (if shutdown then cancelRows x.1 x.2.members else x.1) ∧
      Quiet others (if shutdown then cancelRows x.1 x.2.members else x.1) x.2.members ∧
      (if shutdown then cancelRows x.1 x.2.members else x.1).pendingRows = x.1.pendingRows ∧
      (shutdown = true → ∀ r ∈ x.2.members,
        (if shutdown then cancelRows x.1 x.2.members else x.1).isCancelled r = true) := by
    cases shutdown with
    | false => exact ⟨Reaches.refl hx.tallied, hx, rfl, fun h => nomatch h⟩
    | true =>
        have hcancels := cancelRows_spec x.2.members x.1 hx.tallied
        refine ⟨{ hcancels.toSteps with
            outside := fun r _ => congrFun hcancels.same r
            waits := waits_of_eq hcancels.pendingRows },
          hx.idle hcancels.toAdvances (funext fun r => ?_) hcancels.pendingRows,
          hcancels.pendingRows, fun _ => hcancels.asked⟩
        exact isOpen_congr (congrFun hcancels.same r)
  generalize hs : (if shutdown then cancelRows x.1 x.2.members else x.1) = s at hstart
  obtain ⟨hreaches, hquiet, hpending, hcancelled⟩ := hstart
  refine triple_bind (triple_modify (R := fun _ y => y = (s, x.2)) fun y hy => ?_) fun _ => ?_
  · rw [hy, hs]
  refine triple_weaken (triple_step e (x := (s, x.2)) hquiet) (fun _ => id) ?_ ?_
  · intro _ y hstage
    refine ⟨⟨hreaches.trans hstage.reaches (List.Subset.refl _), hstage.quiet, hstage.shrinks,
      fun r hr => hreaches.toAdvances.goes (hstage.goes r hr)⟩, fun hdown => ?_⟩
    have hdrained := hstage.drained (hcancelled hdown)
    exact ⟨hdrained.rows, hdrained.pendingRows.trans hpending⟩
  · intro _ y hthrown
    refine ⟨⟨hreaches.trans hthrown.reaches (List.Subset.refl _), hthrown.torn, hthrown.subset,
      hthrown.adapter, hthrown.wkv32⟩, fun hdown => ?_⟩
    exact (hthrown.reaches.waits.cancelled (hcancelled hdown)).trans hpending

/-- Serving a group keeps every row in one place, whether its step throws or not; after a
shutdown nothing of the group is left. -/
theorem serveGroup_spec (hx : Quiet others x.1 x.2.members) :
    Served others x (serveGroup e shutdown x) ∧
      (shutdown = true → Drained x (serveGroup e shutdown x)) := by
  have hout := triple_stepGroup e shutdown hx x rfl
  unfold serveGroup
  cases hrun : stepGroup e shutdown x with
  | mk result y =>
      rw [hrun] at hout
      cases result with
      | ok _ =>
          obtain ⟨hstage, hdrained⟩ := hout
          refine ⟨⟨hstage.reaches.toAdvances, hstage.reaches.outside, hstage.reaches.waits, ?_,
            hstage.shrinks, hstage.goes⟩, hdrained⟩
          rw [hstage.shrinks.members_eq]
          exact hstage.quiet
      | error err =>
          obtain ⟨hthrown, hpending⟩ := hout
          have hfails := fails_foldl err y.2.members y.1 hthrown.torn.tallied
            fun r => hthrown.torn.lt
          refine ⟨⟨hthrown.reaches.toAdvances.trans hfails.toAdvances, fun r hr => ?_,
            hthrown.reaches.waits.trans (waits_of_eq hfails.pendingRows)
              hthrown.reaches.toAdvances (List.Subset.refl _),
            hfails.quiet hthrown.torn,
            ⟨rfl, Nat.zero_le _, List.nil_subset _, hthrown.adapter, hthrown.wkv32⟩,
            fun _ hr => absurd hr List.not_mem_nil⟩, fun hdown => ⟨rfl, ?_⟩⟩
          · refine (hfails.outside r fun hmem => hr (hthrown.subset hmem)).trans ?_
            exact hthrown.reaches.outside r hr
          · exact hfails.pendingRows.trans (hpending hdown)

end Serve

end DecodeScheduler
end RwkvLightning

import RwkvLightning.Inference.DecodeSchedulerStep
import Mathlib

/-!
# The rows between the groups

**Results.**
* `serveGroups_spec`: serving all groups keeps every row in one place.
* `quiet_arrivals`: requests that arrive get their rows.
* `admitPending_spec`: the rows that wait join groups, within the limit, or are completed.
-/

namespace RwkvLightning
namespace DecodeScheduler

open Backend Text Command

variable {α ρ ℓ κ σ : Type} {s t u : Shared α ρ ℓ κ σ}

section Groups

variable {others members members' : List Nat}

theorem Shared.Held.of_perm {places places' : List Nat} (h : s.Held places)
    (hperm : places.Perm places') : s.Held places' :=
  h.perm (List.Perm.filter _ hperm)

/-- Look at a part of the rows. -/
theorem Quiet.split (h : Quiet others s (members ++ members')) :
    Quiet (others ++ members') s members where
  tallied := h.tallied
  held := by
    refine h.held.of_perm (List.Perm.append_right _ ?_)
    rw [List.append_assoc]
    exact List.Perm.append_left _ List.perm_append_comm
  opens := fun r hr => h.opens r (List.mem_append_left _ hr)
  answerable := h.answerable

/-- Look at more of the rows. -/
theorem Quiet.join (h : Quiet (others ++ members) s members')
    (hopens : ∀ r ∈ members, s.isOpen r = true) : Quiet others s (members ++ members') where
  tallied := h.tallied
  held := by
    have hheld := h.held
    rw [List.append_assoc others] at hheld
    exact hheld
  opens := fun r hr => (List.mem_append.mp hr).elim (hopens r) (h.opens r)
  answerable := h.answerable

theorem Quiet.disjoint (h : Quiet others s members) {r : Nat} (hr : r ∈ members) :
    r ∉ others := by
  have hheld : s.Held (others ++ members ++ s.pendingRows ++ []) :=
    (List.append_nil _).symm ▸ h.held
  exact (hheld.disjoint.1 r hr (h.opens r hr)).1

/-- What serving all groups does. -/
structure ServedAll (others : List Nat) (groups groups' : List (Group α ρ ℓ κ σ))
    (s t : Shared α ρ ℓ κ σ) : Prop where
  advances : Advances s t
  outside : ∀ r ∉ groups.flatMap Group.members, t.rows r = s.rows r
  quiet : Quiet others t (groups'.flatMap Group.members)
  shrinks : List.Forall₂ Shrinks groups groups'
  waits : s.pendingRows ⊆ t.pendingRows

/-- All groups are empty, and none of their rows waits. -/
structure DrainedAll (groups : List (Group α ρ ℓ κ σ)) (s t : Shared α ρ ℓ κ σ) : Prop where
  rows : ∀ g ∈ groups, g.rows = []
  pendingRows : t.pendingRows = s.pendingRows

/-- The first group, and the rows of the later ones after it was served. -/
theorem quiet_cons (e : Engine α ρ ℓ κ σ) (shutdown : Bool) {g : Group α ρ ℓ κ σ}
    {groups : List (Group α ρ ℓ κ σ)}
    (hs : Quiet others s ((g :: groups).flatMap Group.members)) :
    Quiet (others ++ groups.flatMap Group.members) s g.members ∧
      Served (others ++ groups.flatMap Group.members) (s, g) (serveGroup e shutdown (s, g)) ∧
      Quiet (others ++ (serveGroup e shutdown (s, g)).2.members)
        (serveGroup e shutdown (s, g)).1 (groups.flatMap Group.members) := by
  rw [List.flatMap_cons] at hs
  obtain ⟨hserved, -⟩ := serveGroup_spec e shutdown (x := (s, g)) hs.split
  refine ⟨hs.split, hserved, (hserved.quiet.join fun r hr => ?_).split⟩
  have hnot : r ∉ g.members := fun hmem =>
    hs.split.disjoint hmem (List.mem_append_right _ hr)
  rw [isOpen_congr (hserved.outside r hnot)]
  exact hs.opens r (List.mem_append_right _ hr)

theorem serveGroups_spec (e : Engine α ρ ℓ κ σ) (shutdown : Bool)
    (groups : List (Group α ρ ℓ κ σ)) (others : List Nat) (s : Shared α ρ ℓ κ σ)
    (hs : Quiet others s (groups.flatMap Group.members)) :
    ServedAll others groups (serveGroups e shutdown groups s).1 s
        (serveGroups e shutdown groups s).2 ∧
      (shutdown = true → DrainedAll (serveGroups e shutdown groups s).1 s
        (serveGroups e shutdown groups s).2) := by
  induction groups generalizing others s with
  | nil =>
      refine ⟨⟨Advances.refl hs.tallied, fun _ _ => rfl, hs, List.Forall₂.nil,
        List.Subset.refl _⟩, fun _ => ?_⟩
      exact ⟨fun g hg => absurd hg List.not_mem_nil, rfl⟩
  | cons g groups ih =>
      obtain ⟨hfirst, hserved, hquiet⟩ := quiet_cons e shutdown hs
      have hdrained := (serveGroup_spec e shutdown (x := (s, g)) hfirst).2
      unfold serveGroups
      dsimp only
      generalize serveGroup e shutdown (s, g) = y at *
      obtain ⟨t, g'⟩ := y
      obtain ⟨hall, hempty⟩ := ih (others ++ g'.members) t hquiet
      have hstill : ∀ r ∈ g'.members, (serveGroups e shutdown groups t).2.isOpen r = true := by
        intro r hr
        have hnot : r ∉ groups.flatMap Group.members := fun hmem =>
          hserved.quiet.disjoint hr (List.mem_append_right _ hmem)
        rw [isOpen_congr (hall.outside r hnot)]
        exact hserved.quiet.opens r hr
      refine ⟨⟨hserved.advances.trans hall.advances, fun r hr => ?_, ?_,
        List.Forall₂.cons hserved.shrinks hall.shrinks,
        List.Subset.trans hserved.waits.subset hall.waits⟩, fun hdown => ⟨?_, ?_⟩⟩
      · rw [List.flatMap_cons, List.mem_append, not_or] at hr
        exact (hall.outside r hr.2).trans (hserved.outside r hr.1)
      · rw [List.flatMap_cons]
        exact hall.quiet.join hstill
      · intro g'' hg
        rcases List.mem_cons.mp hg with rfl | hg
        · exact (hdrained hdown).rows
        · exact (hempty hdown).rows g'' hg
      · exact (hempty hdown).pendingRows.trans (hdrained hdown).pendingRows

theorem occupied_eq (groups : List (Group α ρ ℓ κ σ)) :
    occupied groups = (groups.flatMap Group.members).length :=
  List.length_flatMap.symm

theorem occupied_le {groups groups' : List (Group α ρ ℓ κ σ)}
    (h : List.Forall₂ Shrinks groups groups') : occupied groups' ≤ occupied groups := by
  induction h with
  | nil => exact Nat.le_refl _
  | cons hg _ ih =>
      simp only [occupied, List.map_cons, List.sum_cons] at ih ⊢
      rw [hg.members_eq]
      exact Nat.add_le_add hg.length ih

/-- What the rows of a group share. -/
def Group.key (g : Group α ρ ℓ κ σ) : Bytes × Bool :=
  (g.adapter, g.wkv32)

theorem keys_eq {groups groups' : List (Group α ρ ℓ κ σ)}
    (h : List.Forall₂ Shrinks groups groups') :
    groups'.map Group.key = groups.map Group.key := by
  induction h with
  | nil => rfl
  | cons hg _ ih => rw [List.map_cons, List.map_cons, ih, Group.key, hg.adapter, hg.wkv32]; rfl

/-- Groups without rows go. -/
def Group.isEmpty (g : Group α ρ ℓ κ σ) : Bool :=
  g.rows.isEmpty && g.incoming.isEmpty

theorem members_isEmpty {g : Group α ρ ℓ κ σ} (h : g.isEmpty = true) : g.members = [] := by
  rw [Group.isEmpty, Bool.and_eq_true, List.isEmpty_iff, List.isEmpty_iff] at h
  rw [Group.members, h.1, h.2]
  rfl

theorem members_filter (groups : List (Group α ρ ℓ κ σ)) :
    (groups.filter fun g => !g.isEmpty).flatMap Group.members =
      groups.flatMap Group.members := by
  induction groups with
  | nil => rfl
  | cons g groups ih =>
      rw [List.filter_cons, List.flatMap_cons]
      cases hempty : g.isEmpty with
      | true =>
          rw [if_neg (by simp), ih, members_isEmpty hempty, List.nil_append]
      | false =>
          rw [if_pos (by simp), List.flatMap_cons, ih]

end Groups

section Admission

variable {others members : List Nat} {r q : Nat}

/-- The stop tail that a row starts with. -/
def startTail (state : GenerationState α ρ) : Bytes :=
  if state.rows.length = 1 then state.textStopTail else []

/-- Rows with these indices were made for a request. -/
structure Made (q : Nat) (l : List Nat) (s t : Shared α ρ ℓ κ σ) : Prop where
  requests : t.requests = s.requests
  requestCount : t.requestCount = s.requestCount
  incoming : t.incoming = s.incoming
  rowCount : t.rowCount = s.rowCount + l.length
  pendingRows : t.pendingRows = s.pendingRows ++ List.range' s.rowCount l.length
  old : ∀ r < s.rowCount, t.rows r = s.rows r
  new : ∀ k (hk : k < l.length),
    t.rows (s.rowCount + k) = newRow q l[k] (startTail (s.requests q).state)

theorem made_foldl (q : Nat) (l : List Nat) (s : Shared α ρ ℓ κ σ) :
    Made q l s (l.foldl (admitRow q) s) := by
  induction l generalizing s with
  | nil =>
      exact ⟨rfl, rfl, rfl, rfl, (List.append_nil _).symm, fun _ _ => rfl,
        fun k hk => nomatch hk⟩
  | cons i l ih =>
      have hrest := ih (admitRow q s i)
      have hkept : ∀ r < s.rowCount, (admitRow q s i).rows r = s.rows r := fun r hr =>
        Function.update_of_ne (Nat.ne_of_lt hr) ..
      have hfirst : (admitRow q s i).rows s.rowCount =
          newRow q i (startTail (s.requests q).state) := Function.update_self ..
      refine
        { requests := hrest.requests
          requestCount := hrest.requestCount
          incoming := hrest.incoming
          rowCount := ?_
          pendingRows := ?_
          old := fun r hr => ?_
          new := fun k hk => ?_ }
      · rw [List.foldl_cons, hrest.rowCount, List.length_cons, Nat.add_comm l.length,
          ← Nat.add_assoc]
        rfl
      · rw [List.foldl_cons, hrest.pendingRows, List.length_cons, List.range'_succ]
        show s.pendingRows ++ [s.rowCount] ++ _ = _
        rw [List.append_assoc, List.singleton_append]
        rfl
      · exact (hrest.old r (Nat.lt_succ_of_lt hr)).trans (hkept r hr)
      · cases k with
        | zero => exact (hrest.old _ (Nat.lt_succ_self _)).trans hfirst
        | succ k =>
            have hlater := hrest.new k (Nat.lt_of_succ_lt_succ hk)
            rw [Nat.add_succ, ← Nat.succ_add]
            exact hlater

variable {n : Nat}

/-- The rows `0` to `n - 1` of a request. -/
theorem Made.row (h : Made q (List.range n) s t) {r : Nat} (hr : r < t.rowCount) :
    r < s.rowCount ∧ t.rows r = s.rows r ∨
      ∃ k < n, r = s.rowCount + k ∧
        t.rows r = newRow q k (startTail (s.requests q).state) := by
  by_cases hold : r < s.rowCount
  · exact Or.inl ⟨hold, h.old r hold⟩
  · right
    have hlength : (List.range n).length = n := List.length_range
    rw [h.rowCount, hlength] at hr
    obtain ⟨k, rfl⟩ := Nat.exists_eq_add_of_le (Nat.not_lt.mp hold)
    have hk : k < n := Nat.lt_of_add_lt_add_left hr
    refine ⟨k, hk, rfl, ?_⟩
    rw [h.new k (hlength.symm ▸ hk), List.getElem_range]

theorem Made.isOpen_new (h : Made q (List.range n) s t) {k : Nat} (hk : k < n) :
    t.isOpen (s.rowCount + k) = true ∧ t.requestOf (s.rowCount + k) = q := by
  rw [Shared.isOpen, Shared.requestOf, h.new k (List.length_range.symm ▸ hk)]
  exact ⟨rfl, rfl⟩

theorem Made.filter_range (h : Made q (List.range n) s t) (p : Nat → Bool) (p' : Nat → Bool)
    (hold : ∀ r < s.rowCount, p' r = p r) :
    (List.range t.rowCount).filter p' =
      (List.range s.rowCount).filter p ++ (List.range' s.rowCount n).filter p' := by
  rw [h.rowCount, List.length_range, List.range_add, List.filter_append, List.range'_eq_map_range]
  refine congrArg₂ _ (List.filter_congr fun r hr => hold r (List.mem_range.mp hr)) ?_
  rfl

/-- A waiting request becomes one with rows. -/
theorem Made.tallied (h : Made q (List.range n) s t) {rest : List Nat}
    (hs : Tallied { s with incoming := q :: rest })
    (hn : n = (s.requests q).state.rows.length) : Tallied { t with incoming := rest } := by
  obtain ⟨hnot, hrest⟩ := List.nodup_cons.mp hs.once
  obtain ⟨hq, hpositive, hwidth⟩ := hs.waiting q List.mem_cons_self
  have hisOpen : ∀ r < s.rowCount, t.isOpen r = s.isOpen r := fun r hr => isOpen_congr (h.old r hr)
  have hrequestOf : ∀ r < s.rowCount, t.requestOf r = s.requestOf r := fun r hr => by
    rw [Shared.requestOf, h.old r hr]
    rfl
  have hopenOf : ∀ q', t.openOf q' = s.openOf q' ++
      (List.range' s.rowCount n).filter fun r => t.isOpen r && t.requestOf r == q' := by
    intro q'
    refine h.filter_range _ _ fun r hr => ?_
    rw [hisOpen r hr, hrequestOf r hr]
  have hnew : ∀ r ∈ List.range' s.rowCount n, t.isOpen r = true ∧ t.requestOf r = q := by
    intro r hr
    obtain ⟨k, hk, rfl⟩ := List.mem_range'.mp hr
    rw [Nat.one_mul]
    exact h.isOpen_new hk
  have howned : ∀ r < s.rowCount, s.requestOf r ≠ q := fun r hr heq =>
    (hs.owned r hr).2 (heq.symm ▸ List.mem_cons_self)
  refine ⟨fun r hr => ?_, fun r hr r' hr' hsame hindices => ?_, fun q' hq' => ?_, hrest,
    fun q' hq' hadmitted => ?_, fun q' hq' => ?_⟩
  · show t.requestOf r < t.requestCount ∧ t.requestOf r ∉ rest
    rw [h.requestCount]
    rcases h.row hr with ⟨hlt, -⟩ | ⟨k, hk, rfl, -⟩
    · rw [hrequestOf r hlt]
      exact ⟨(hs.owned r hlt).1, fun hmem => (hs.owned r hlt).2 (List.mem_cons_of_mem _ hmem)⟩
    · rw [(h.isOpen_new hk).2]
      exact ⟨hq, hnot⟩
  · change t.requestOf r = t.requestOf r' at hsame
    change (t.rows r).index = (t.rows r').index at hindices
    rcases h.row hr with ⟨hlt, hrow⟩ | ⟨k, hk, rfl, hrow⟩
    · rw [hrequestOf r hlt] at hsame
      rcases h.row hr' with ⟨hlt', hrow'⟩ | ⟨k', hk', rfl, -⟩
      · rw [hrequestOf r' hlt'] at hsame
        rw [hrow, hrow'] at hindices
        exact hs.distinct r hlt r' hlt' hsame hindices
      · rw [(h.isOpen_new hk').2] at hsame
        exact absurd hsame (howned r hlt)
    · rw [(h.isOpen_new hk).2] at hsame
      rcases h.row hr' with ⟨hlt', -⟩ | ⟨k', hk', rfl, hrow'⟩
      · rw [hrequestOf r' hlt'] at hsame
        exact absurd hsame.symm (howned r' hlt')
      · rw [hrow, hrow'] at hindices
        exact congrArg (s.rowCount + ·) hindices
  · show q' < t.requestCount ∧ 0 < (t.requests q').remaining ∧
      (t.requests q').remaining = (t.requests q').state.rows.length
    rw [h.requestCount, h.requests]
    exact hs.waiting q' (List.mem_cons_of_mem _ hq')
  · show (t.requests q').remaining = (t.openOf q').length
    rw [h.requests, hopenOf, List.length_append]
    by_cases hsame : q' = q
    · subst hsame
      have hnone : s.openOf q' = [] := by
        refine List.eq_nil_iff_forall_not_mem.mpr fun r hr => ?_
        obtain ⟨hlt, -, howns⟩ := mem_openOf.mp hr
        exact howned r hlt howns
      have hall : (List.range' s.rowCount n).filter
          (fun r => t.isOpen r && t.requestOf r == q') = List.range' s.rowCount n := by
        refine List.filter_eq_self.mpr fun r hr => ?_
        rw [(hnew r hr).1, (hnew r hr).2, beq_self_eq_true]
        rfl
      rw [hnone, hall, List.length_nil, List.length_range', Nat.zero_add, hn]
      exact hwidth
    · have hnone : (List.range' s.rowCount n).filter
          (fun r => t.isOpen r && t.requestOf r == q') = [] := by
        refine List.filter_eq_nil_iff.mpr fun r hr => ?_
        rw [(hnew r hr).2, beq_eq_false_iff_ne.mpr (Ne.symm hsame), Bool.and_false]
        exact Bool.false_ne_true
      rw [hnone, List.length_nil, Nat.add_zero]
      refine hs.remaining q' (h.requestCount ▸ hq') fun hmem => ?_
      exact (List.mem_cons.mp hmem).elim hsame hadmitted
  · show (t.requests q').done = true ↔ (t.requests q').remaining = 0
    rw [h.requests]
    exact hs.done q' (h.requestCount ▸ hq')

theorem Made.held (h : Made q (List.range n) s t) {places : List Nat} (hs : s.Held places)
    (hlt : ∀ r ∈ places, r < s.rowCount) :
    t.Held (places ++ List.range' s.rowCount n) := by
  have hisOpen : ∀ r < s.rowCount, t.isOpen r = s.isOpen r := fun r hr => isOpen_congr (h.old r hr)
  rw [Shared.Held, h.filter_range s.isOpen t.isOpen hisOpen, List.filter_append]
  refine List.Perm.append_right _ ?_
  rw [List.filter_congr fun r hr => hisOpen r (hlt r hr)]
  exact hs

/-- With a request that waited, its rows are in the places too. -/
theorem quiet_admitRequest {rest : List Nat}
    (h : Quiet [] { s with incoming := q :: rest } members) :
    Quiet [] { admitRequest s q with incoming := rest } members := by
  have hmade := made_foldl q (List.range (s.requests q).state.rows.length) s
  have hopen : ∀ r < s.rowCount, (admitRequest s q).isOpen r = s.isOpen r :=
    fun r hr => isOpen_congr (hmade.old r hr)
  have hmembers : ∀ r ∈ members, r < s.rowCount := fun r hr => h.lt hr
  refine ⟨hmade.tallied h.tallied rfl, ?_, fun r hr => ?_, fun r hr => ?_⟩
  · have hheld := hmade.held h.held fun r hr => ?_
    · show (admitRequest s q).Held ([] ++ members ++ (admitRequest s q).pendingRows)
      rw [admitRequest, hmade.pendingRows, List.length_range, ← List.append_assoc]
      exact hheld
    · rcases List.mem_append.mp hr with hr | hr
      · exact hmembers r hr
      · exact (h.answerable r hr).1
  · show (admitRequest s q).isOpen r = true
    rw [hopen r (hmembers r hr)]
    exact h.opens r hr
  · change r ∈ (admitRequest s q).pendingRows at hr
    show r < (admitRequest s q).rowCount ∧ ((admitRequest s q).isOpen r = true ∨
      ((admitRequest s q).requests ((admitRequest s q).requestOf r)).cancelled = true)
    rw [admitRequest, hmade.pendingRows, List.length_range] at hr
    rw [admitRequest, hmade.rowCount, List.length_range]
    rcases List.mem_append.mp hr with hr | hr
    · obtain ⟨hlt, hrow⟩ := h.answerable r hr
      refine ⟨Nat.lt_add_right _ hlt, ?_⟩
      rw [isOpen_congr (hmade.old r hlt), hmade.requests, Shared.requestOf, hmade.old r hlt]
      exact hrow
    · obtain ⟨k, hk, rfl⟩ := List.mem_range'.mp hr
      rw [Nat.one_mul]
      exact ⟨Nat.add_lt_add_left hk _, Or.inl (hmade.isOpen_new hk).1⟩

/-- All requests that have arrived. -/
theorem quiet_arrivals (arrivals : List Nat) (s : Shared α ρ ℓ κ σ)
    (h : Quiet [] { s with incoming := arrivals } members) (hs : s.incoming = []) :
    Quiet [] (arrivals.foldl admitRequest s) members ∧
      (arrivals.foldl admitRequest s).requests = s.requests ∧
      (arrivals.foldl admitRequest s).requestCount = s.requestCount ∧
      (arrivals.foldl admitRequest s).incoming = [] ∧
      s.rowCount ≤ (arrivals.foldl admitRequest s).rowCount ∧
      ∀ r < s.rowCount, (arrivals.foldl admitRequest s).rows r = s.rows r := by
  induction arrivals generalizing s with
  | nil =>
      have hsame : { s with incoming := [] } = s := by rw [← hs]
      rw [hsame] at h
      exact ⟨h, rfl, rfl, hs, Nat.le_refl _, fun _ _ => rfl⟩
  | cons q arrivals ih =>
      have hmade := made_foldl q (List.range (s.requests q).state.rows.length) s
      have hle : s.rowCount ≤ (admitRequest s q).rowCount :=
        Nat.le_add_right _ _ |>.trans_eq hmade.rowCount.symm
      obtain ⟨hquiet, hrequests, hcount, hincoming, hrows, hold⟩ :=
        ih (admitRequest s q) (quiet_admitRequest h) (hmade.incoming.trans hs)
      refine ⟨hquiet, hrequests.trans hmade.requests, hcount.trans hmade.requestCount, hincoming,
        hle.trans hrows, fun r hr => ?_⟩
      exact (hold r (Nat.lt_of_lt_of_le hr hle)).trans (hmade.old r hr)

end Admission

section Pending

variable (e : Engine α ρ ℓ κ σ) {r : Nat} {a : Admission α ρ ℓ κ σ} {todo members : List Nat}

theorem members_joinGroup (state : GenerationState α ρ) (r : Nat)
    (groups : List (Group α ρ ℓ κ σ)) :
    ((joinGroup state r groups).flatMap Group.members).Perm
      (groups.flatMap Group.members ++ [r]) := by
  induction groups with
  | nil => exact List.Perm.refl _
  | cons g groups ih =>
      unfold joinGroup
      split
      · rw [List.flatMap_cons, List.flatMap_cons, Group.members, Group.members,
          List.append_assoc, List.append_assoc, List.append_assoc, List.append_assoc]
        exact List.Perm.append_left _ (List.Perm.append_left _ List.perm_append_comm)
      · rw [List.flatMap_cons, List.flatMap_cons, List.append_assoc]
        exact List.Perm.append_left _ ih

theorem occupied_joinGroup (state : GenerationState α ρ) (r : Nat)
    (groups : List (Group α ρ ℓ κ σ)) :
    occupied (joinGroup state r groups) = occupied groups + 1 := by
  rw [occupied_eq, occupied_eq, (members_joinGroup state r groups).length_eq, List.length_append]
  rfl

theorem takes_iff {g : Group α ρ ℓ κ σ} {state : GenerationState α ρ} :
    g.takes state = true ↔ g.key = (state.identity.adapterIdentity, state.wkv32) := by
  rw [Group.takes, Bool.and_eq_true, decide_eq_true_iff, decide_eq_true_iff, Group.key,
    Prod.mk.injEq]

theorem keys_joinGroup (state : GenerationState α ρ) (r : Nat)
    (groups : List (Group α ρ ℓ κ σ)) :
    (joinGroup state r groups).map Group.key = groups.map Group.key ∨
      (state.identity.adapterIdentity, state.wkv32) ∉ groups.map Group.key ∧
      (joinGroup state r groups).map Group.key =
        groups.map Group.key ++ [(state.identity.adapterIdentity, state.wkv32)] := by
  induction groups with
  | nil => exact Or.inr ⟨List.not_mem_nil, rfl⟩
  | cons g groups ih =>
      unfold joinGroup
      split
      · exact Or.inl rfl
      · next hnot =>
          rw [takes_iff] at hnot
          rw [List.map_cons, List.map_cons]
          rcases ih with hsame | ⟨hnew, hkeys⟩
          · exact Or.inl (congrArg _ hsame)
          · refine Or.inr ⟨fun hmem => ?_, congrArg _ hkeys⟩
            exact (List.mem_cons.mp hmem).elim (fun heq => hnot heq.symm) hnew

/-- The tables in the loop over the rows that wait: `todo` is still to come. -/
def Admission.tables (a : Admission α ρ ℓ κ σ) (todo : List Nat) : Shared α ρ ℓ κ σ :=
  { a.shared with pendingRows := a.waiting ++ todo }

/-- The groups stay within their limit, and no two of them share a key. -/
structure Fits (e : Engine α ρ ℓ κ σ) (groups : List (Group α ρ ℓ κ σ)) : Prop where
  bounded : occupied groups ≤ e.maxRows
  keys : (groups.map Group.key).Nodup

theorem Fits.joinGroup {groups : List (Group α ρ ℓ κ σ)} (h : Fits e groups)
    (hroom : ¬e.maxRows ≤ occupied groups) (state : GenerationState α ρ) (r : Nat) :
    Fits e (joinGroup state r groups) where
  bounded := by
    rw [occupied_joinGroup]
    exact Nat.lt_of_not_le hroom
  keys := by
    rcases keys_joinGroup state r groups with hsame | ⟨hnew, hkeys⟩
    · exact hsame ▸ h.keys
    · rw [hkeys]
      refine List.nodup_append.mpr ⟨h.keys, List.nodup_singleton _, fun key hkey key' hkey' => ?_⟩
      rw [List.mem_singleton.mp hkey']
      exact fun heq => hnew (heq ▸ hkey)

/-- A row that waited is completed. -/
theorem quiet_completed {rows : List Nat} (h : Quiet [] s members)
    (hrows : s.pendingRows.Perm (r :: rows)) (ht : Steps s t)
    (hothers : ∀ r' ≠ r, t.rows r' = s.rows r') (hclosed : t.isOpen r = false) :
    Quiet [] { t with pendingRows := rows } members := by
  have hr : r ∈ s.pendingRows := hrows.mem_iff.mpr List.mem_cons_self
  have hmember : ∀ r' ∈ members, r' ≠ r := by
    rintro r' hr' rfl
    exact h.not_pending hr (h.opens r' hr') hr'
  refine ⟨(ht.pendingRows rows).tallied, ?_, fun r' hr' => ?_, fun r' hr' => ?_⟩
  · have hheld := h.held.of_perm (List.Perm.append_left _ hrows)
    have hgone : ¬t.isOpen r = true := by
      rw [hclosed]
      exact Bool.false_ne_true
    have hplaces : ([] ++ members ++ r :: rows).filter t.isOpen =
        ([] ++ members ++ rows).filter t.isOpen := by
      rw [List.filter_append, List.filter_cons_of_neg hgone, ← List.filter_append]
    exact (hheld.advance ht.rowCount ht.open_mono).perm (List.Perm.of_eq hplaces)
  · show t.isOpen r' = true
    rw [isOpen_congr (hothers r' (hmember r' hr'))]
    exact h.opens r' hr'
  · obtain ⟨hlt, hrow⟩ := h.answerable r' (hrows.mem_iff.mpr (List.mem_cons_of_mem _ hr'))
    refine ⟨ht.rowCount ▸ hlt, ?_⟩
    show t.isOpen r' = true ∨ (t.requests (t.requestOf r')).cancelled = true
    rw [ht.request]
    rcases hrow with hopen | hcancelled
    · left
      have hne : r' ≠ r := by
        rintro rfl
        -- An open row waits only once.
        have hnodup := (h.held.of_perm (List.Perm.append_left _ hrows)).nodup
        rw [List.filter_append, List.filter_cons_of_pos hopen] at hnodup
        have hnot := (List.nodup_cons.mp (List.nodup_append.mp hnodup).2.1).1
        exact hnot (List.mem_filter.mpr ⟨hr', hopen⟩)
      rw [isOpen_congr (hothers r' hne)]
      exact hopen
    · exact Or.inr (ht.cancelled _ hcancelled)

theorem Steps.to_pendingRows (h : Steps s t) (rows : List Nat) :
    Steps { s with pendingRows := rows } t :=
  { h with }

/-- A row of the loop over the rows that wait. -/
structure AdmitsRow (e : Engine α ρ ℓ κ σ) (a b : Admission α ρ ℓ κ σ) (r : Nat)
    (todo : List Nat) : Prop where
  quiet : Quiet [] (b.tables todo) (b.groups.flatMap Group.members)
  fits : Fits e b.groups
  steps : Steps a.shared b.shared
  cancelled : a.shared.isCancelled r = true → b.groups = a.groups ∧ b.waiting = a.waiting

/-- The row waits on. -/
theorem AdmitsRow.waits (h : Quiet [] (a.tables (r :: todo)) (a.groups.flatMap Group.members))
    (hfits : Fits e a.groups) (ht : Steps a.shared t) (hrows : t.rows = a.shared.rows)
    (hgoes : a.shared.isCancelled r = false) :
    AdmitsRow e a { a with waiting := a.waiting ++ [r], shared := t } r todo where
  quiet := by
    have hquiet := h.idle ((ht.to_pendingRows (a.waiting ++ r :: todo)).pendingRows
      (a.waiting ++ r :: todo)).toAdvances (funext fun r' => isOpen_congr (congrFun hrows r')) rfl
    rw [Admission.tables, List.append_assoc, List.singleton_append]
    exact hquiet
  fits := hfits
  steps := ht
  cancelled := fun hcancelled => by
    rw [hgoes] at hcancelled
    cases hcancelled

/-- The row joins a group. -/
theorem AdmitsRow.joins (h : Quiet [] (a.tables (r :: todo)) (a.groups.flatMap Group.members))
    (hfits : Fits e a.groups) (hroom : ¬e.maxRows ≤ occupied a.groups)
    (ht : Steps a.shared t) (hrows : t.rows = a.shared.rows)
    (hgoes : a.shared.isCancelled r = false) (state : GenerationState α ρ) :
    AdmitsRow e a { a with groups := joinGroup state r a.groups, shared := t } r todo where
  quiet := by
    have hquiet := h.idle ((ht.to_pendingRows (a.waiting ++ r :: todo)).pendingRows
      (a.waiting ++ r :: todo)).toAdvances (funext fun r' => isOpen_congr (congrFun hrows r')) rfl
    have hperm := members_joinGroup state r a.groups
    have hopen : t.isOpen r = true := by
      rw [isOpen_congr (congrFun hrows r)]
      have hrow := (h.answerable r (List.mem_append_right _ List.mem_cons_self)).2
      refine hrow.resolve_right fun hcancelled => ?_
      have hsame : a.shared.isCancelled r = true := hcancelled
      rw [hgoes] at hsame
      cases hsame
    refine ⟨(hquiet.tallied.congr rfl rfl rfl (fun _ => rfl) (fun _ => rfl) (fun _ => rfl)
      (fun _ => rfl) (fun _ => rfl) fun _ => rfl), ?_, fun r' hr' => ?_, fun r' hr' => ?_⟩
    · have hplaces : ([] ++ a.groups.flatMap Group.members ++ (a.waiting ++ r :: todo)).Perm
          ([] ++ (joinGroup state r a.groups).flatMap Group.members ++ (a.waiting ++ todo)) := by
        rw [List.nil_append, List.nil_append]
        refine List.Perm.trans ?_ (List.Perm.append_right _ hperm.symm)
        rw [List.append_assoc]
        exact List.Perm.append_left _ List.perm_middle
      exact hquiet.held.of_perm hplaces
    · rcases List.mem_append.mp (hperm.mem_iff.mp hr') with hr' | hr'
      · exact hquiet.opens r' hr'
      · rw [List.mem_singleton.mp hr']
        exact hopen
    · refine hquiet.answerable r' ?_
      exact (List.mem_append.mp hr').elim (fun hr' => List.mem_append_left _ hr')
        fun hr' => List.mem_append_right _ (List.mem_cons_of_mem _ hr')
  fits := hfits.joinGroup e hroom state r
  steps := ht
  cancelled := fun hcancelled => by
    rw [hgoes] at hcancelled
    cases hcancelled

theorem admitPendingRow_spec (h : Quiet [] (a.tables (r :: todo)) (a.groups.flatMap Group.members))
    (hfits : Fits e a.groups) : AdmitsRow e a (admitPendingRow e a r) r todo := by
  have hr : r ∈ (a.tables (r :: todo)).pendingRows :=
    List.mem_append_right _ List.mem_cons_self
  have hlt : r < a.shared.rowCount := (h.answerable r hr).1
  have hi : Steps a.shared a.shared.interfere := steps_interfere
    (h.tallied.congr rfl rfl rfl (fun _ => rfl) (fun _ => rfl) (fun _ => rfl)
      (fun _ => rfl) (fun _ => rfl) fun _ => rfl)
  unfold admitPendingRow
  dsimp only
  split
  · have hsteps := hi.trans (steps_complete hi.tallied hlt)
    refine ⟨?_, hfits, hsteps, fun _ => ⟨rfl, rfl⟩⟩
    exact quiet_completed h List.perm_middle (hsteps.to_pendingRows _)
      (acts_complete a.shared.interfere r).rows (complete_closed _ r)
  next hgoes =>
  have hcancelled : a.shared.isCancelled r = false :=
    hi.goes (Bool.eq_false_of_not_eq_true fun h => hgoes (Or.inl h))
  split
  · exact AdmitsRow.waits e h hfits hi rfl hcancelled
  next hroom =>
  have hi' := hi.trans (steps_interfere hi.tallied)
  split
  · exact AdmitsRow.waits e h hfits hi' rfl hcancelled
  · exact AdmitsRow.joins e h hfits hroom hi' rfl hcancelled _

/-- All rows that wait. -/
theorem admitPending_foldl (todo : List Nat) (a : Admission α ρ ℓ κ σ)
    (h : Quiet [] (a.tables todo) (a.groups.flatMap Group.members)) (hfits : Fits e a.groups) :
    Quiet [] ((todo.foldl (admitPendingRow e) a).tables [])
        ((todo.foldl (admitPendingRow e) a).groups.flatMap Group.members) ∧
      Fits e (todo.foldl (admitPendingRow e) a).groups ∧
      Steps a.shared (todo.foldl (admitPendingRow e) a).shared ∧
      ((∀ r ∈ todo, a.shared.isCancelled r = true) →
        (todo.foldl (admitPendingRow e) a).groups = a.groups ∧
          (todo.foldl (admitPendingRow e) a).waiting = a.waiting) := by
  induction todo generalizing a with
  | nil =>
      refine ⟨h, hfits, Steps.refl ?_, fun _ => ⟨rfl, rfl⟩⟩
      exact h.tallied.congr rfl rfl rfl (fun _ => rfl) (fun _ => rfl) (fun _ => rfl)
        (fun _ => rfl) (fun _ => rfl) fun _ => rfl
  | cons r todo ih =>
      have hrow := admitPendingRow_spec e h hfits
      obtain ⟨hquiet, hfits', hsteps, hcancelled⟩ := ih _ hrow.quiet hrow.fits
      refine ⟨hquiet, hfits', hrow.steps.trans hsteps, fun hall => ?_⟩
      obtain ⟨hgroups, hwaiting⟩ := hrow.cancelled (hall r List.mem_cons_self)
      obtain ⟨hgroups', hwaiting'⟩ := hcancelled fun r' hr' => by
        have hr'' := hall r' (List.mem_cons_of_mem _ hr')
        rw [Shared.isCancelled, hrow.steps.request]
        exact hrow.steps.cancelled _ hr''
      exact ⟨hgroups'.trans hgroups, hwaiting'.trans hwaiting⟩

/-- What `admit_pending` does. -/
structure AdmitsPending (e : Engine α ρ ℓ κ σ) (groups groups' : List (Group α ρ ℓ κ σ))
    (s t : Shared α ρ ℓ κ σ) : Prop where
  quiet : Quiet [] t (groups'.flatMap Group.members)
  fits : Fits e groups'
  steps : Steps s t
  cancelled : (∀ r ∈ s.pendingRows, s.isCancelled r = true) →
    groups' = groups ∧ t.pendingRows = []

theorem admitPending_spec {groups : List (Group α ρ ℓ κ σ)}
    (h : Quiet [] s (groups.flatMap Group.members)) (hfits : Fits e groups) :
    AdmitsPending e groups (admitPending e groups s).1 s (admitPending e groups s).2 := by
  obtain ⟨hquiet, hfits', hsteps, hcancelled⟩ :=
    admitPending_foldl e s.pendingRows ⟨groups, [], s⟩ h hfits
  refine ⟨?_, hfits', hsteps.pendingRows _, hcancelled⟩
  rw [Admission.tables, List.append_nil] at hquiet
  exact hquiet

end Pending

end DecodeScheduler
end RwkvLightning

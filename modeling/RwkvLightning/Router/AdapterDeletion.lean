import RwkvLightning.Library.Association
import RwkvLightning.Router.Acknowledgment
import RwkvLightning.Router.System
import Mathlib

/-!
# Deleted adapters

A deletion that a backend may have applied has to keep requests away from the
adapter, or the version, until an upload is acknowledged.  The placement has a
tombstone for it: the flag `deleted`, and the set `deletedVersions`.

**Results.**
* `Tombs`, with a lemma for each occurrence: where the tombstones are.
* `deletion_sticks`: in every run whose steps are `Kept`, no request is routed
  with a deleted adapter or version.
* `failedUpload_revives`: an upload that all backends fail loses the tombstone,
  and a list from a stale replica puts the adapter back.
-/

namespace RwkvLightning
namespace Router

open Association GuardedTable Execution

section Deletions

/-- The adapters and versions that are deleted. -/
structure Deletions where
  ids : String → Bool
  versions : String → String → Bool

/-- Nothing is deleted. -/
def Deletions.empty : Deletions :=
  ⟨fun _ => false, fun _ _ => false⟩

/-- Enter an occurrence: a deletion that was not rejected, or an acknowledged upload. -/
def Deletions.enter (d : Deletions) : AdapterOccurrence → Deletions
  | .acknowledged m canonical r =>
      match r.response.body.adapter with
      | some (id, version) =>
          if id = m.id ∧ version ≠ "" ∧ (canonical = "" ∨ canonical = version) then
            { ids := Function.update d.ids id false
              versions :=
                Function.update d.versions id
                  (Function.update (d.versions id) version false) }
          else d
      | none => d
  | .finished m (some version) false =>
      if version = "" then { d with ids := Function.update d.ids m.id true }
      else
        { d with
          versions :=
            Function.update d.versions m.id
              (Function.update (d.versions m.id) version true) }
  | _ => d

def deletionStep (x : System × Deletions) (e : Event) : Option (System × Deletions) :=
  (x.1.step e).map (fun t => (t, x.2.enter (x.1.adapterOccurrence e)))

/-- A mutation of a deleted adapter ends with a rejection by all backends, or it is
the deletion of the adapter, or one of its uploads was acknowledged. -/
def Kept (x : System × Deletions) (e : Event) : Prop :=
  match x.1.adapterOccurrence e with
  | .finished m deletes false => x.2.ids m.id = true → deletes = some ""
  | _ => True

end Deletions

section Marks

/-- Deleted versions have no replicas. -/
def Clean (e : AdapterPlacement) : Prop :=
  ∀ version, e.deletedVersions version = true → e.nodes version = none

/-- An entry carries the tombstones of an adapter; while it is busy the one of the
whole adapter may be missing. -/
structure Marks (cell : Option (Cell AdapterPlacement)) (id : Bool) (versions : String → Bool) :
    Prop where
  clean : ∀ c, cell = some c → Clean c.value
  id : id = true → ∃ c, cell = some c ∧ (c.active = false → c.value.deleted = true)
  versions :
    ∀ version, versions version = true →
      ∃ c, cell = some c ∧ c.value.deletedVersions version = true

variable {cell : Cell AdapterPlacement} {id : Bool} {versions : String → Bool}

theorem clean_blank : Clean AdapterPlacement.blank :=
  fun version h => absurd h (by simp [AdapterPlacement.blank])

/-- Changes of an entry that lose no tombstone. -/
theorem marks_change (h : Marks (some cell) id versions) {value : AdapterPlacement}
    (hclean : Clean value)
    (hdeleted : cell.active = false → cell.value.deleted = true → value.deleted = true)
    (hversions : ∀ version, cell.value.deletedVersions version = true →
      value.deletedVersions version = true) :
    Marks (some { cell with value := value }) id versions where
  clean := fun c hc => Option.some.inj hc ▸ hclean
  id := by
    intro hid
    obtain ⟨c, hc, hactive⟩ := h.id hid
    obtain rfl := Option.some.inj hc
    exact ⟨_, rfl, fun hidle => hdeleted hidle (hactive hidle)⟩
  versions := by
    intro version hversion
    obtain ⟨c, hc, hmark⟩ := h.versions version hversion
    obtain rfl := Option.some.inj hc
    exact ⟨_, rfl, hversions version hmark⟩

theorem nodes_addVersion_of_ne (e : AdapterPlacement) {version name : String}
    (hne : version ≠ name) : (e.addVersion name).nodes version = e.nodes version := by
  unfold AdapterPlacement.addVersion
  split_ifs
  · rfl
  · unfold AdapterPlacement.nodes
    rw [List.lookup_append, List.lookup_cons, beq_false_of_ne hne]
    simp

theorem nodes_refreshVersions {b : Nat} {names : List String} {version : String}
    (h : cell.value.nodes version = none) :
    (Scheduler.refreshVersions b names cell).nodes version = none := by
  unfold Scheduler.refreshVersions
  split_ifs
  · exact h
  · unfold AdapterPlacement.nodes at h ⊢
    dsimp only
    have hkey : ∀ x : String × (Nat → Bool),
        (x.1, Function.update x.2 b (names.contains x.1)).1 = x.1 := fun _ => rfl
    rw [lookup_map_keys _ hkey, h]
    rfl

/-- A list changes neither flag, and gives deleted versions no replicas. -/
theorem addVersions_keeps (b : Nat) (names : List String) (active : Bool)
    (e : AdapterPlacement) :
    (Scheduler.addVersions b names active e).deleted = e.deleted ∧
      (Scheduler.addVersions b names active e).deletedVersions = e.deletedVersions ∧
      (Clean e → Clean (Scheduler.addVersions b names active e)) := by
  unfold Scheduler.addVersions
  induction names generalizing e with
  | nil => exact ⟨rfl, rfl, id⟩
  | cons name names ih =>
      rw [List.foldl_cons]
      by_cases hskip : (active || e.deleted || e.deletedVersions name) = true
      · rw [if_pos hskip]
        exact ih e
      · rw [if_neg hskip]
        obtain ⟨hdeleted, hversions, hclean⟩ := ih ((e.addVersion name).setReady name b true)
        have hsame : (e.addVersion name).deleted = e.deleted ∧
            (e.addVersion name).deletedVersions = e.deletedVersions := by
          unfold AdapterPlacement.addVersion
          split_ifs <;> exact ⟨rfl, rfl⟩
        refine ⟨hdeleted.trans hsame.1, hversions.trans hsame.2, fun h => hclean ?_⟩
        intro version hversion
        have hmark : e.deletedVersions version = true := by
          rw [← hsame.2]
          exact hversion
        have hne : version ≠ name := by
          rintro rfl
          exact hskip (by simp [hmark])
        rw [AdapterPlacement.nodes_setReady, nodes_addVersion_of_ne _ hne, h version hmark]
        rfl

theorem clean_setReady {e : AdapterPlacement} (h : Clean e) (version : String) (b : Nat)
    (value : Bool) : Clean (e.setReady version b value) := by
  intro other hother
  rw [AdapterPlacement.nodes_setReady, h other hother]
  rfl

/-- The upload of a version takes only its own tombstone away. -/
theorem clean_confirmed {e : AdapterPlacement} (h : Clean e) (version : String) (b : Nat) :
    Clean (confirmedVersion version b e) := by
  intro other hother
  have hne : other ≠ version := by
    rintro rfl
    simp [confirmedVersion] at hother
  have hmark : e.deletedVersions other = true := by
    simpa [confirmedVersion, Function.update_of_ne hne] using hother
  have hnodes : ((e.addVersion version).setReady version b true).nodes other = none := by
    rw [AdapterPlacement.nodes_setReady, nodes_addVersion_of_ne e hne, h other hmark]
    rfl
  exact hnodes

/-- The deletion that is entered before the broadcast. -/
def deletedEntry (version : String) (e : AdapterPlacement) : AdapterPlacement :=
  if version = "" then { e with ready := [], current := "", deleted := true }
  else
    { e with
      ready := e.ready.filter (fun x => x.1 ≠ version)
      deletedVersions := Function.update e.deletedVersions version true
      current := if e.current = version then "" else e.current }

theorem deletedVersions_deletedEntry {e : AdapterPlacement} (version : String)
    {other : String} (hother : e.deletedVersions other = true) :
    (deletedEntry version e).deletedVersions other = true := by
  unfold deletedEntry
  by_cases hall : version = ""
  · rw [if_pos hall]
    exact hother
  · rw [if_neg hall]
    by_cases hother' : other = version
    · subst hother'
      exact Function.update_self _ _ _
    · exact (Function.update_of_ne hother' _ _).trans hother

theorem clean_deletedEntry {e : AdapterPlacement} (h : Clean e) (version : String) :
    Clean (deletedEntry version e) := by
  unfold deletedEntry
  by_cases hall : version = ""
  · rw [if_pos hall]
    intro other _
    rfl
  · rw [if_neg hall]
    intro other hother
    by_cases hother' : other = version
    · subst hother'
      exact lookup_filter_ne e.ready other
    · dsimp only at hother
      rw [Function.update_of_ne hother'] at hother
      exact lookup_filter_none _ (h other hother)

theorem marks_mono {cell : Option (Cell AdapterPlacement)} (h : Marks cell id versions)
    {id' : Bool} {versions' : String → Bool} (hid : id' = true → id = true)
    (hversions : ∀ version, versions' version = true → versions version = true) :
    Marks cell id' versions' where
  clean := h.clean
  id := fun h' => h.id (hid h')
  versions := fun version h' => h.versions version (hversions version h')

/-- The entry that a mutation begins with: a copy without the flag `deleted`. -/
theorem marks_begun {old : Option (Cell AdapterPlacement)} (h : Marks old id versions)
    (serial : Nat) :
    Marks
      (some ⟨serial, true,
        match old.map Cell.value with
        | none => AdapterPlacement.blank
        | some old => ⟨old.ready, old.current, false, old.deletedVersions⟩⟩)
      id versions := by
  cases old with
  | none =>
      refine ⟨fun c hc => Option.some.inj hc ▸ clean_blank, fun hid => ?_,
        fun version hversion => ?_⟩
      · obtain ⟨c, hc, -⟩ := h.id hid
        exact absurd hc (by simp)
      · obtain ⟨c, hc, -⟩ := h.versions version hversion
        exact absurd hc (by simp)
  | some c =>
      refine ⟨fun c' hc => Option.some.inj hc ▸ h.clean c rfl,
        fun _ => ⟨_, rfl, fun hactive => absurd hactive (by simp)⟩,
        fun version hversion => ?_⟩
      obtain ⟨c', hc, hmark⟩ := h.versions version hversion
      obtain rfl := Option.some.inj hc
      exact ⟨_, rfl, hmark⟩

end Marks

section Steps

variable {s s' : System} {d d' : Deletions} {e : Event}

/-- The tombstones are in the entries, and in those saved by mutations. -/
structure Tombs (s : System) (d : Deletions) : Prop where
  current : ∀ id, Marks (s.scheduler.adapters.cells id) (d.ids id) (d.versions id)
  saved : ∀ m ∈ s.adapterMutations, Marks m.previous (d.ids m.id) (d.versions m.id)

/-- A change of one entry in place. -/
theorem tombs_change (h : Tombs s d) {key : String} {f : AdapterPlacement → AdapterPlacement}
    (hadapters : s'.scheduler.adapters = s.scheduler.adapters.modify key f)
    (hmutations : s'.adapterMutations = s.adapterMutations)
    (hchange : ∀ c, s.scheduler.adapters.cells key = some c →
      Marks (some { c with value := f c.value }) (d'.ids key) (d'.versions key))
    (hids : ∀ id, d'.ids id = true → d.ids id = true)
    (hversions : ∀ id version, d'.versions id version = true →
      d.versions id version = true) :
    Tombs s' d' := by
  constructor
  · intro id
    rw [hadapters, cells_modify]
    have hmarks := marks_mono (h.current id) (hids id) (hversions id)
    split_ifs with hid
    · subst hid
      cases hcell : s.scheduler.adapters.cells id with
      | none => rwa [hcell] at hmarks
      | some c => exact hchange c hcell
    · exact hmarks
  · rw [hmutations]
    exact fun m hm => marks_mono (h.saved m hm) (hids m.id) (hversions m.id)

theorem tombs_begun (h : Tombs s d) {id : String}
    (hafter : AdaptersAfter s s' (.begun id)) : Tombs s' d := by
  obtain ⟨m, -, hbegin, hmutations⟩ := hafter
  obtain ⟨-, rfl, htable⟩ := begin_eq_some.mp hbegin
  constructor
  · intro id'
    rw [htable]
    dsimp only
    by_cases hid : id' = id
    · subst hid
      rw [Function.update_self]
      exact marks_begun (h.current id') _
    · rw [Function.update_of_ne hid]
      exact h.current id'
  · rw [hmutations]
    exact List.forall_mem_cons.mpr ⟨h.current id, h.saved⟩

theorem tombs_entered (hs : GuardedSystem s) (h : Tombs s d) {m : AdapterMutation}
    {version : String} (hafter : AdaptersAfter s s' (.entered m version)) : Tombs s' d := by
  obtain ⟨hm, hadapters, hmutations⟩ := hafter
  have howns := hs.adapters.owned m hm
  obtain ⟨cell, hcell, -, hactive⟩ := owns_iff.mp howns
  have hadapters' : s'.scheduler.adapters =
      s.scheduler.adapters.modify m.id (deletedEntry version) :=
    hadapters.trans (modifyOwn_of_owns howns _)
  refine tombs_change h hadapters' hmutations (fun c hc => ?_) (fun _ h => h) (fun _ _ h => h)
  obtain rfl : cell = c := Option.some.inj (hcell.symm.trans hc)
  have hmarks := h.current m.id
  rw [hcell] at hmarks
  refine marks_change hmarks (clean_deletedEntry (hmarks.clean cell rfl) version)
    (fun hidle => absurd hidle (by simp [hactive])) (fun other hother => ?_)
  exact deletedVersions_deletedEntry version hother

theorem tombs_acknowledged (hs : GuardedSystem s) (h : Tombs s d) {m : AdapterMutation}
    {canonical : String} {r : ResourceResponse}
    (hafter : AdaptersAfter s s' (.acknowledged m canonical r)) :
    Tombs s' (d.enter (.acknowledged m canonical r)) := by
  obtain ⟨hm, -, hadapters, hmutations⟩ := hafter
  have howns := hs.adapters.owned m hm
  obtain ⟨cell, hcell, -, hactive⟩ := owns_iff.mp howns
  have hnone := validateAdapterUpload_none_iff (m := m) (s.scheduler, canonical) r
  rcases validateAdapterUpload_spec m (s.scheduler, canonical) r with
    ⟨hrefused, hsame⟩ | ⟨version, hversion, hbody, haccepted, hmodify⟩
  · have hd : d.enter (.acknowledged m canonical r) = d := by
      unfold Deletions.enter
      dsimp only
      cases hbody : r.response.body.adapter with
      | none => rfl
      | some identity =>
          obtain ⟨id, version⟩ := identity
          dsimp only
          rw [if_neg]
          rintro ⟨rfl, hversion, hsame⟩
          exact hrefused (hnone.mpr ⟨version, hversion, hbody, hsame⟩)
    rw [hd]
    rw [hsame] at hadapters
    exact ⟨hadapters ▸ h.current, hmutations ▸ h.saved⟩
  · obtain ⟨version', -, hbody', hsame⟩ := hnone.mp haccepted
    obtain rfl : version = version' :=
      (Prod.mk.inj (Option.some.inj (hbody.symm.trans hbody'))).2
    have hd : d.enter (.acknowledged m canonical r) =
        { ids := Function.update d.ids m.id false
          versions :=
            Function.update d.versions m.id
              (Function.update (d.versions m.id) version false) } := by
      unfold Deletions.enter
      simp only [hbody]
      rw [if_pos ⟨trivial, hversion, hsame⟩]
    rw [hd]
    rw [hmodify] at hadapters
    refine tombs_change h (hadapters.trans (modifyOwn_of_owns howns _)) hmutations
      (fun c hc => ?_) (fun id hid => ?_) (fun id other hother => ?_)
    · obtain rfl : cell = c := Option.some.inj (hcell.symm.trans hc)
      have hmarks := h.current m.id
      rw [hcell] at hmarks
      simp only [Function.update_self]
      refine ⟨fun c hc => Option.some.inj hc ▸ clean_confirmed (hmarks.clean cell rfl) _ _,
        fun hid => absurd hid (by simp), fun other hother => ?_⟩
      have hne : other ≠ version := by
        rintro rfl
        simp at hother
      rw [Function.update_of_ne hne] at hother
      obtain ⟨c, hc, hmark⟩ := hmarks.versions other hother
      obtain rfl := Option.some.inj hc
      exact ⟨_, rfl, (Function.update_of_ne hne _ _).trans hmark⟩
    · dsimp only at hid
      by_cases hkey : id = m.id
      · subst hkey
        simp at hid
      · rwa [Function.update_of_ne hkey] at hid
    · by_cases hkey : id = m.id
      · subst hkey
        dsimp only at hother
        rw [Function.update_self] at hother
        by_cases hother' : other = version
        · subst hother'
          simp at hother
        · rwa [Function.update_of_ne hother'] at hother
      · dsimp only at hother
        rwa [Function.update_of_ne hkey] at hother

/-- The value of an entry after a list. -/
theorem marks_observed {cell : Cell AdapterPlacement} {id : Bool} {versions : String → Bool}
    (h : Marks (some cell) id versions) (b : Nat) (names : List String) :
    Marks
      (some { cell with
        value :=
          Scheduler.addVersions b names cell.active (Scheduler.refreshVersions b names cell) })
      id versions := by
  obtain ⟨hdeleted, hversions, hclean⟩ := addVersions_keeps b names cell.active
    (Scheduler.refreshVersions b names cell)
  have hsame : (Scheduler.refreshVersions b names cell).deleted = cell.value.deleted ∧
      (Scheduler.refreshVersions b names cell).deletedVersions =
        cell.value.deletedVersions := by
    unfold Scheduler.refreshVersions
    split_ifs <;> exact ⟨rfl, rfl⟩
  refine marks_change h (hclean fun version hversion => ?_) (fun _ hc => ?_)
    (fun version hversion => ?_)
  · rw [hsame.2] at hversion
    exact nodes_refreshVersions (h.clean cell rfl version hversion)
  · rw [hdeleted, hsame.1]
    exact hc
  · rw [hversions, hsame.2]
    exact hversion

theorem tombs_observed (h : Tombs s d) {epoch began : Nat} {r : ResourceResponse}
    (hafter : AdaptersAfter s s' (.observed epoch began r)) : Tombs s' d := by
  obtain ⟨hadapters, hmutations⟩ := hafter
  rw [observeAdapterList_adapters] at hadapters
  refine ⟨fun id => ?_, hmutations ▸ h.saved⟩
  have hmarks := h.current id
  rw [hadapters]
  cases validAdapters r with
  | none => exact hmarks
  | some items =>
      dsimp only
      split_ifs
      · exact hmarks
      · cases hcell : s.scheduler.adapters.cells id with
        | some cell =>
            rw [hcell] at hmarks
            simp only [Table.observe, hcell]
            exact marks_observed hmarks _ _
        | none =>
            rw [hcell] at hmarks
            simp only [Table.observe, hcell]
            split_ifs
            · exact hmarks
            · refine ⟨fun c hc => ?_, fun hid => ?_, fun version hversion => ?_⟩
              · obtain rfl := Option.some.inj hc
                exact (addVersions_keeps _ _ _ _).2.2 clean_blank
              · obtain ⟨c, hc, -⟩ := hmarks.id hid
                exact absurd hc (by simp)
              · obtain ⟨c, hc, -⟩ := hmarks.versions version hversion
                exact absurd hc (by simp)

theorem tombs_notFound (h : Tombs s d) {id version : String} {b : Nat}
    (hafter : AdaptersAfter s s' (.notFound id version b)) : Tombs s' d := by
  obtain ⟨hadapters, hmutations⟩ := hafter
  refine tombs_change h (f := fun e => e.setReady version b false) hadapters hmutations
    (fun c hc => ?_) (fun _ h => h) (fun _ _ h => h)
  have hmarks := h.current id
  rw [hc] at hmarks
  exact marks_change hmarks (clean_setReady (hmarks.clean c rfl) _ _ _) (fun _ hd => hd)
    (fun _ hv => hv)

/-- The entry of a deletion that was entered carries its tombstone. -/
def Entered (s : System) (m : AdapterMutation) (version : String) : Prop :=
  ∀ c, s.scheduler.adapters.cells m.id = some c →
    if version = "" then c.value.deleted = true else c.value.deletedVersions version = true

/-- The end of a mutation that was not rejected. -/
theorem marks_finished {m : AdapterMutation} {deletes : Option String}
    {cell : Cell AdapterPlacement}
    (h : Marks (s.scheduler.adapters.cells m.id) (d.ids m.id) (d.versions m.id))
    (hcell : s.scheduler.adapters.cells m.id = some cell)
    (hentered : ∀ version, deletes = some version → Entered s m version)
    (hkept : d.ids m.id = true → deletes = some "") :
    Marks (some { cell with active := false })
      ((d.enter (.finished m deletes false)).ids m.id)
      ((d.enter (.finished m deletes false)).versions m.id) := by
  rw [hcell] at h
  have hversions : ∀ version, d.versions m.id version = true →
      cell.value.deletedVersions version = true := by
    intro version hversion
    obtain ⟨c, hc, hmark⟩ := h.versions version hversion
    obtain rfl := Option.some.inj hc
    exact hmark
  have hclean := h.clean cell rfl
  cases deletes with
  | none =>
      exact ⟨fun c hc => Option.some.inj hc ▸ hclean,
        fun hid => absurd (hkept hid) (by simp),
        fun version hversion => ⟨_, rfl, hversions version hversion⟩⟩
  | some version =>
      have hmark := hentered version rfl cell hcell
      by_cases hall : version = ""
      · rw [if_pos hall] at hmark
        have hd : (d.enter (.finished m (some version) false)).versions = d.versions := by
          simp [Deletions.enter, hall]
        rw [hd]
        exact ⟨fun c hc => Option.some.inj hc ▸ hclean, fun _ => ⟨_, rfl, fun _ => hmark⟩,
          fun other hother => ⟨_, rfl, hversions other hother⟩⟩
      · rw [if_neg hall] at hmark
        have hd : d.enter (.finished m (some version) false) =
            { d with
              versions :=
                Function.update d.versions m.id
                  (Function.update (d.versions m.id) version true) } := by
          simp [Deletions.enter, hall]
        rw [hd]
        refine ⟨fun c hc => Option.some.inj hc ▸ hclean, fun hid => ?_, fun other hother => ?_⟩
        · exact absurd (Option.some.inj (hkept hid)) hall
        · dsimp only at hother
          rw [Function.update_self] at hother
          by_cases hother' : other = version
          · exact ⟨_, rfl, hother' ▸ hmark⟩
          · rw [Function.update_of_ne hother'] at hother
            exact ⟨_, rfl, hversions other hother⟩

theorem tombs_finished (hs : GuardedSystem s) (h : Tombs s d) {m : AdapterMutation}
    {deletes : Option String} {rollback : Bool}
    (hentered : ∀ version, deletes = some version → Entered s m version)
    (hkept : rollback = false → d.ids m.id = true → deletes = some "")
    (hafter : AdaptersAfter s s' (.finished m deletes rollback)) :
    Tombs s' (d.enter (.finished m deletes rollback)) := by
  obtain ⟨hadapters, hperm⟩ := hafter
  have hm : m ∈ s.adapterMutations := hperm.mem_iff.mpr List.mem_cons_self
  have hguarded := hs.adapters.perm hperm
  have howns := hs.adapters.owned m hm
  obtain ⟨cell, hcell, -, -⟩ := owns_iff.mp howns
  have hcells : s'.scheduler.adapters.cells =
      Function.update s.scheduler.adapters.cells m.id
        (if rollback then m.previous else some { cell with active := false }) := by
    rw [hadapters]
    dsimp only [Scheduler.finishAdapterMutation]
    unfold Table.finish
    rw [if_pos howns, hcell]
    rfl
  have hother : ∀ id, id ≠ m.id →
      (d.enter (.finished m deletes rollback)).ids id = d.ids id ∧
        (d.enter (.finished m deletes rollback)).versions id = d.versions id := by
    intro id hid
    cases deletes with
    | none => exact ⟨rfl, rfl⟩
    | some version =>
        cases rollback with
        | true => exact ⟨rfl, rfl⟩
        | false =>
            by_cases hall : version = ""
            · simp [Deletions.enter, hall, Function.update_of_ne hid]
            · simp [Deletions.enter, hall, Function.update_of_ne hid]
  constructor
  · intro id
    rw [hcells]
    by_cases hid : id = m.id
    · subst hid
      rw [Function.update_self]
      cases rollback with
      | true =>
          have hd : d.enter (.finished m deletes true) = d := by
            cases deletes <;> rfl
          rw [hd]
          exact h.saved m hm
      | false => exact marks_finished (h.current m.id) hcell hentered (hkept rfl)
    · rw [Function.update_of_ne hid, (hother id hid).1, (hother id hid).2]
      exact h.current id
  · intro m' hm'
    have hne := hguarded.id_ne hm'
    rw [(hother m'.id hne).1, (hother m'.id hne).2]
    exact h.saved m' (hperm.mem_iff.mpr (List.mem_cons_of_mem m hm'))

/-- A deletion that was entered stays entered while it is in progress. -/
theorem entered_kept (hs : GuardedSystem s) {x : Handler} (hx : x ∈ s.handlers)
    {m : AdapterMutation} {version canonical : String}
    (hjob : x.job = .mutateAdapter m (some version) canonical) (hphase : x.phase ≠ .prepared)
    (hm' : m ∈ s'.adapterMutations) (h : Entered s m version)
    (horigin : AdapterOrigin s (s.adapterOccurrence e))
    (hafter : AdaptersAfter s s' (s.adapterOccurrence e)) : Entered s' m version := by
  have hxm : System.adapterMutation x = some m := by simp [System.adapterMutation, hjob]
  have hm : m ∈ s.adapterMutations := List.mem_filterMap.mpr ⟨x, hx, hxm⟩
  obtain ⟨cell, hcell, -, hactive⟩ := owns_iff.mp (hs.adapters.owned m hm)
  have hmark := h cell hcell
  -- The handlers of other uploads and deletions mutate other adapters.
  have hunique : ∀ y ∈ s.handlers, ∀ m₁ : AdapterMutation,
      System.adapterMutation y = some m₁ → m.id = m₁.id → x = y :=
    fun y hy m₁ hy₁ hid => adapterHandler_unique hs hx hy hxm hy₁ hid
  have hsame : s'.scheduler.adapters.cells m.id = s.scheduler.adapters.cells m.id →
      Entered s' m version := by
    intro heq c hc
    rw [heq] at hc
    exact h c hc
  cases ho : s.adapterOccurrence e with
  | nothing =>
      rw [ho] at hafter
      exact hsame (by rw [hafter.1])
  | begun id =>
      rw [ho] at hafter
      obtain ⟨m₁, -, hbegin, -⟩ := hafter
      obtain ⟨hidle, -, htable⟩ := begin_eq_some.mp hbegin
      have hne : m.id ≠ id := by
        rintro rfl
        have := hidle cell hcell
        rw [hactive] at this
        exact absurd this (by simp)
      refine hsame ?_
      rw [htable]
      exact Function.update_of_ne hne _ _
  | entered m₁ version₁ =>
      rw [ho] at hafter horigin
      obtain ⟨y, hy, canonical₁, hyjob, hyphase⟩ := horigin
      obtain ⟨hm₁, hadapters, -⟩ := hafter
      have hne : m.id ≠ m₁.id := by
        intro hid
        have := hunique y hy m₁ (by simp [System.adapterMutation, hyjob]) hid
        exact hphase (this ▸ hyphase)
      refine hsame ?_
      rw [hadapters]
      dsimp only [Scheduler.deleteAdapter]
      rw [modifyOwn_of_owns (hs.adapters.owned m₁ hm₁), cells_modify, if_neg hne]
  | acknowledged m₁ canonical₁ r =>
      rw [ho] at hafter horigin
      obtain ⟨y, hy, hyjob⟩ := horigin
      obtain ⟨hm₁, -, hadapters, -⟩ := hafter
      have hne : m.id ≠ m₁.id := by
        intro hid
        have := hunique y hy m₁ (by simp [System.adapterMutation, hyjob]) hid
        subst this
        rw [hjob] at hyjob
        exact absurd hyjob (by simp)
      refine hsame ?_
      rw [hadapters]
      rcases validateAdapterUpload_spec m₁ (s.scheduler, canonical₁) r with
        ⟨-, hrefused⟩ | ⟨version₁, -, -, -, hmodify⟩
      · rw [hrefused]
      · rw [hmodify, modifyOwn_of_owns (hs.adapters.owned m₁ hm₁), cells_modify, if_neg hne]
  | observed epoch began r =>
      rw [ho] at hafter
      obtain ⟨hadapters, -⟩ := hafter
      rw [observeAdapterList_adapters] at hadapters
      refine hsame ?_
      rw [hadapters]
      cases validAdapters r with
      | none => rfl
      | some items =>
          dsimp only
          split_ifs
          · rfl
          · have hvalue : ∀ names : List String,
                Scheduler.addVersions r.backend names cell.active
                  (Scheduler.refreshVersions r.backend names cell) = cell.value := by
              intro names
              have hrefresh : Scheduler.refreshVersions r.backend names cell = cell.value := by
                simp [Scheduler.refreshVersions, hactive]
              rw [hrefresh, hactive]
              unfold Scheduler.addVersions
              induction names with
              | nil => rfl
              | cons name names ih => simp
            simp [Table.observe, hcell, hvalue]
  | finished m₁ deletes rollback =>
      rw [ho] at hafter
      obtain ⟨hadapters, hperm⟩ := hafter
      have hne : m.id ≠ m₁.id := (hs.adapters.perm hperm).id_ne hm'
      have hm₁ : m₁ ∈ s.adapterMutations := hperm.mem_iff.mpr List.mem_cons_self
      refine hsame ?_
      rw [hadapters]
      dsimp only [Scheduler.finishAdapterMutation]
      unfold Table.finish
      rw [if_pos (hs.adapters.owned m₁ hm₁)]
      exact Function.update_of_ne hne _ _
  | notFound id version₁ b =>
      rw [ho] at hafter
      intro c hc
      rw [hafter.1] at hc
      dsimp only [Scheduler.adapterUnavailable] at hc
      rw [cells_modify] at hc
      split_ifs at hc
      · rw [hcell] at hc
        obtain rfl := Option.some.inj hc
        exact hmark
      · exact h c hc

/-- A deletion in progress was entered before, or is entered now. -/
theorem entered_origin (hstep : s.step e = some s') {x : Handler} (hx : x ∈ s'.handlers)
    {m : AdapterMutation} {version canonical : String}
    (hjob : x.job = .mutateAdapter m (some version) canonical) (hphase : x.phase ≠ .prepared) :
    (∃ y ∈ s.handlers,
        y.job = .mutateAdapter m (some version) canonical ∧ y.phase ≠ .prepared) ∨
      s.adapterOccurrence e = .entered m version := by
  rcases handler_step hstep hx with hmem | ⟨m₁, deletes, rfl⟩ | ⟨m₁, deletes, rfl⟩ |
    ⟨-, rfl⟩ | ⟨-, rfl⟩ | ⟨k, m₁, version₁, canonical₁, rfl, hk, rfl⟩ |
    ⟨y, hy, hyphase, hyjob⟩ | ⟨k, job, rejected, r, todo, -, hk, rfl⟩
  · exact Or.inl ⟨x, hmem, hjob, hphase⟩
  · exact absurd hjob (by simp)
  · obtain ⟨-, rfl, -⟩ := Job.mutateAdapter.inj hjob
    exact absurd rfl hphase
  · exact absurd hjob (by simp)
  · exact absurd hjob (by simp)
  · obtain ⟨rfl, hversion, -⟩ := Job.mutateAdapter.inj hjob
    obtain rfl := Option.some.inj hversion
    exact Or.inr (by simp [System.adapterOccurrence, hk])
  · exact Or.inl ⟨y, hy, hyjob ▸ hjob, hyphase⟩
  · refine Or.inl ⟨_, List.mem_of_getElem? hk, ?_, by simp⟩
    cases job with
    | mutateAdapter m₁ deletes canonical₁ =>
        cases deletes with
        | some version₁ => exact hjob
        | none =>
            dsimp only at hjob
            simp only [Job.read] at hjob
            split_ifs at hjob <;> exact absurd hjob (by simp)
    | mutateState m₁ deletes =>
        simp only [Job.read] at hjob
        split_ifs at hjob
    | listStates epoch began => exact absurd hjob (by simp [Job.read])
    | listAdapters epoch began => exact absurd hjob (by simp [Job.read])

/-- The invariant of the runs. -/
structure DeletionInv (s : System) (d : Deletions) : Prop where
  guarded : GuardedSystem s
  tombs : Tombs s d
  entered :
    ∀ x ∈ s.handlers, ∀ m version canonical,
      x.job = .mutateAdapter m (some version) canonical → x.phase ≠ .prepared →
      Entered s m version

theorem deletionInv_start (backends : List Backend) (cooldown : Nat) :
    DeletionInv (System.start backends cooldown) Deletions.empty where
  guarded := guarded_start backends cooldown
  tombs :=
    ⟨fun _ => ⟨fun c hc => absurd hc (by simp [System.start, Table.empty]),
      fun h => absurd h (by simp [Deletions.empty]),
      fun _ h => absurd h (by simp [Deletions.empty])⟩,
      by simp [System.start, System.adapterMutations]⟩
  entered := by simp [System.start]

theorem entered_now (hs : GuardedSystem s) {m : AdapterMutation} {version : String}
    (hafter : AdaptersAfter s s' (.entered m version)) : Entered s' m version := by
  obtain ⟨hm, hadapters, -⟩ := hafter
  have howns := hs.adapters.owned m hm
  have hadapters' : s'.scheduler.adapters =
      s.scheduler.adapters.modify m.id (deletedEntry version) :=
    hadapters.trans (modifyOwn_of_owns howns _)
  intro c hc
  rw [hadapters', cells_modify, if_pos rfl] at hc
  obtain ⟨cell, -, rfl⟩ := Option.map_eq_some_iff.mp hc
  unfold deletedEntry
  by_cases hall : version = ""
  · rw [if_pos hall, if_pos hall]
  · rw [if_neg hall, if_neg hall]
    exact Function.update_self _ _ _

theorem deletionInv_step (h : DeletionInv s d) (hkept : Kept (s, d) e)
    (hstep : s.step e = some s') : DeletionInv s' (d.enter (s.adapterOccurrence e)) := by
  have hafter := step_adapters hstep
  have horigin := adapterOrigin s e
  refine ⟨guarded_step h.guarded hstep, ?_, ?_⟩
  · unfold Kept at hkept
    dsimp only at hkept
    cases ho : s.adapterOccurrence e with
    | nothing =>
        rw [ho] at hafter
        obtain ⟨hadapters, hmutations⟩ := hafter
        exact ⟨hadapters ▸ h.tombs.current, hmutations ▸ h.tombs.saved⟩
    | begun id => exact tombs_begun h.tombs (ho ▸ hafter)
    | entered m version => exact tombs_entered h.guarded h.tombs (ho ▸ hafter)
    | acknowledged m canonical r => exact tombs_acknowledged h.guarded h.tombs (ho ▸ hafter)
    | observed epoch began r => exact tombs_observed h.tombs (ho ▸ hafter)
    | finished m deletes rollback =>
        rw [ho] at hafter horigin hkept
        obtain ⟨x, hx, canonical, hjob, hphase⟩ := horigin
        refine tombs_finished h.guarded h.tombs (fun version hversion => ?_)
          (fun hrollback => ?_) hafter
        · exact h.entered x hx m version canonical (hversion ▸ hjob) hphase
        · subst hrollback
          exact hkept
    | notFound id version b => exact tombs_notFound h.tombs (ho ▸ hafter)
  · intro x hx m version canonical hjob hphase
    rcases entered_origin hstep hx hjob hphase with ⟨y, hy, hyjob, hyphase⟩ | ho
    · have hm' : m ∈ s'.adapterMutations :=
        List.mem_filterMap.mpr ⟨x, hx, by simp [System.adapterMutation, hjob]⟩
      exact entered_kept h.guarded hy hyjob hyphase hm'
        (h.entered y hy m version canonical hyjob hyphase) horigin hafter
    · rw [ho] at hafter
      exact entered_now h.guarded hafter

end Steps

section Sticking

variable {s : System} {d : Deletions}

/-- No request is routed with a deleted adapter or a deleted version, nor while a
mutation of the adapter is in progress. -/
def DeletionSticks (s : System) (d : Deletions) : Prop :=
  ∀ now bsz session stateId id version b scheduler, id ≠ "" →
    s.scheduler.acquireWithAdapter now bsz session stateId id version = .ok (b, scheduler) →
    d.ids id = false ∧ d.versions id version = false ∧
      ∀ m ∈ s.adapterMutations, m.id ≠ id

theorem sticks_of_inv (h : DeletionInv s d) : DeletionSticks s d := by
  intro now bsz session stateId id version b scheduler hid hacquire
  have hready := (Scheduler.acquireWithAdapter_ready hacquire).2
  have hmarks := h.tombs.current id
  unfold Scheduler.adapterReady at hready
  rw [if_neg hid] at hready
  cases hcell : s.scheduler.adapters.cells id with
  | none =>
      rw [hcell] at hready
      exact absurd hready (by simp)
  | some cell =>
      rw [hcell] at hready hmarks
      simp only [Bool.and_eq_true, Bool.not_eq_true'] at hready
      obtain ⟨⟨hactive, hdeleted⟩, hnodes⟩ := hready
      refine ⟨?_, ?_, ?_⟩
      · rw [Bool.eq_false_iff]
        intro hids
        obtain ⟨c, hc, hmark⟩ := hmarks.id hids
        obtain rfl := Option.some.inj hc
        rw [hmark hactive] at hdeleted
        exact absurd hdeleted (by simp)
      · rw [Bool.eq_false_iff]
        intro hversions
        obtain ⟨c, hc, hmark⟩ := hmarks.versions version hversions
        obtain rfl := Option.some.inj hc
        rw [hmarks.clean cell rfl version hmark] at hnodes
        exact absurd hnodes (by simp [noBackend])
      · rintro m hm rfl
        obtain ⟨c, hc, -, hbusy⟩ := owns_iff.mp (h.guarded.adapters.owned m hm)
        obtain rfl := Option.some.inj (hcell.symm.trans hc)
        rw [hbusy] at hactive
        exact absurd hactive (by simp)

/-- Deletions stick in every run whose steps are all `Kept`. -/
theorem deletion_sticks {backends : List Backend} {cooldown : Nat} {es : List Event}
    (hmeet : StepsMeet deletionStep Kept (System.start backends cooldown, Deletions.empty) es)
    (hrun : exec deletionStep (System.start backends cooldown, Deletions.empty) es =
      some (s, d)) :
    DeletionSticks s d := by
  refine sticks_of_inv (exec_invariant (I := fun x => DeletionInv x.1 x.2) ?_
    (deletionInv_start backends cooldown) hmeet hrun)
  intro x e y h hkept hstep
  obtain ⟨s', hs', rfl⟩ := Option.map_eq_some_iff.mp hstep
  exact deletionInv_step h hkept hs'

end Sticking

section Examples

/-- A confirmed deletion. -/
def confirmation : Response :=
  ⟨200, [], { Body.empty with deleted := some true }, none⟩

/-- A failed request. -/
def unavailable : Response :=
  ⟨503, [], Body.empty, none⟩

/-- A list of adapters. -/
def adapterList (items : List ListedAdapter) : Response :=
  ⟨200, [], { Body.empty with adapterList := some (some items) }, none⟩

/-- The deletion of an adapter that only the first backend confirms. -/
def deletionRun : List Event :=
  [.beginAdapter "lora" (some ""), .enterDeletion 0, .send 0,
    .answer 0 [confirmation, unavailable], .next 0, .next 0, .finish 0]

/-- An upload of the adapter that all backends fail. -/
def failedUploadRun : List Event :=
  [.beginAdapter "lora" none, .send 0, .answer 0 [unavailable, unavailable], .next 0,
    .next 0, .finish 0]

/-- A refresh: the second backend has still a replica. -/
def staleRun : List Event :=
  [.listAdapters, .send 0, .answer 0 [adapterList [], adapterList [⟨"lora", "v1", "m"⟩]],
    .next 0, .next 0, .finish 0]

theorem deletion_sticks_stale :
    ∃ s d, exec deletionStep (System.start twoBackends.backends 0, Deletions.empty)
        (deletionRun ++ staleRun) = some (s, d) ∧
      d.ids "lora" = true ∧ DeletionSticks s d :=
  ⟨_, _, rfl, rfl,
    deletion_sticks
      (show StepsMeet deletionStep Kept
          (System.start twoBackends.backends 0, Deletions.empty) (deletionRun ++ staleRun) from
        ⟨trivial, trivial, trivial, trivial, trivial, trivial, fun _ => rfl, trivial, trivial,
          trivial, trivial, trivial, trivial, trivial⟩)
      rfl⟩

/-- An upload that all backends fail: the stale replica is served again. -/
theorem failedUpload_revives :
    ∃ s d scheduler,
      exec deletionStep (System.start twoBackends.backends 0, Deletions.empty)
          (deletionRun ++ failedUploadRun ++ staleRun) = some (s, d) ∧
        s.scheduler.acquireWithAdapter 0 1 "" "" "lora" "v1" = .ok (1, scheduler) ∧
        d.ids "lora" = true := by
  have hlast : (exec deletionStep (System.start twoBackends.backends 0, Deletions.empty)
      (deletionRun ++ failedUploadRun ++ staleRun)).map (fun x =>
        ((x.1.scheduler.acquireWithAdapter 0 1 "" "" "lora" "v1").map Prod.fst,
          x.2.ids "lora")) = some (.ok 1, true) := by decide +kernel
  obtain ⟨⟨s, d⟩, hrun, heq⟩ := Option.map_eq_some_iff.mp hlast
  obtain ⟨hroute, hids⟩ := Prod.mk.inj heq
  obtain ⟨scheduler, hacquire⟩ := Scheduler.exists_of_map_fst hroute
  exact ⟨s, d, scheduler, hrun, hacquire, hids⟩

end Examples

end Router
end RwkvLightning

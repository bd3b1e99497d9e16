import RwkvLightning.Router.AdapterDeletion
import RwkvLightning.Router.StatePlacementSafety
import Mathlib

/-!
# Replicas that a backend says it does not have

A backend that answers "uploaded state not found" or "unknown adapter" loses the
mark of the replica.  A mutation in progress has a second copy of the entry, the
saved one, and that copy is not told.

When a list counts as later than such an answer is a parameter: when the router
reads it later, or only when it began later.

**Results.**
* `quietStates_after`, `quietAdapters_after`: a missing replica stays unmarked
  when the event is one that `Remembers`.
* `missing_remembered`: in every run of such events no request is routed to a
  replica that is missing.
* `rollback_forgets`: a rejected deletion puts the mark back.
-/

namespace RwkvLightning
namespace Router

open Association GuardedTable Execution

section Missing

/-- When a list is later than an answer. -/
inductive Later where
  | observed
  | begun
deriving DecidableEq, Repr

/-- A list that began at `began` is later than an answer at `time`. -/
def Later.counts (later : Later) (time began : Nat) : Bool :=
  match later with
  | .observed => true
  | .begun => time ≤ began

/-- The replicas that backends said they do not have, with the times. -/
structure Missing where
  states : String → Nat → Option Nat
  adapters : String → String → Nat → Option Nat

/-- Nothing is missing. -/
def Missing.empty : Missing :=
  ⟨fun _ _ => none, fun _ _ _ => none⟩

variable (later : Later)

/-- Enter what an event means for the states. -/
def Missing.enterStates (d : Missing) (s : System) : StateOccurrence → Missing
  | .notFound id b =>
      { d with
        states :=
          Function.update d.states id (Function.update (d.states id) b (some (s.clock + 1))) }
  | .acknowledged m r =>
      if (validateStateUpload m.id s.scheduler r).2 = none then
        { d with
          states :=
            Function.update d.states m.id
              (Function.update (d.states m.id) r.backend none) }
      else d
  | .observed epoch began r =>
      match validStates r with
      | none => d
      | some items =>
          if s.scheduler.states.epoch ≠ epoch then d
          else
            { d with
              states := fun id b =>
                if b = r.backend ∧ (listedInfo items id).isSome then
                  (d.states id b).filter (fun time => !later.counts time began)
                else d.states id b }
  | _ => d

/-- Enter what an event means for the adapters. -/
def Missing.enterAdapters (d : Missing) (s : System) : AdapterOccurrence → Missing
  | .notFound id version b =>
      { d with
        adapters :=
          Function.update d.adapters id
            (Function.update (d.adapters id) version
              (Function.update (d.adapters id version) b (some (s.clock + 1)))) }
  | .acknowledged m canonical r =>
      match r.response.body.adapter with
      | some (_, version) =>
          if (validateAdapterUpload m (s.scheduler, canonical) r).2 = none then
            { d with
              adapters :=
                Function.update d.adapters m.id
                  (Function.update (d.adapters m.id) version
                    (Function.update (d.adapters m.id version) r.backend none)) }
          else d
      | none => d
  | .observed epoch began r =>
      match validAdapters r with
      | none => d
      | some items =>
          if s.scheduler.adapters.epoch ≠ epoch then d
          else
            { d with
              adapters := fun id version b =>
                if b = r.backend ∧ (listedVersions items id).contains version then
                  (d.adapters id version b).filter (fun time => !later.counts time began)
                else d.adapters id version b }
  | _ => d

def missingStep (x : System × Missing) (e : Event) : Option (System × Missing) :=
  (x.1.step e).map (fun t =>
    (t, (x.2.enterStates later x.1 (x.1.stateOccurrence e)).enterAdapters later x.1
      (x.1.adapterOccurrence e)))

/-- A list does not touch the entry of a state. -/
def StateBlocked (cell : Option (Cell StatePlacement)) (info : ListedState) : Prop :=
  ∃ c, cell = some c ∧
    (c.active = true ∨ c.value.deleted = true ∨
      (c.value.signature ≠ none ∧ c.value.signature ≠ some info))

/-- A list does not touch the entry of an adapter version. -/
def AdapterBlocked (cell : Option (Cell AdapterPlacement)) (version : String) : Prop :=
  ∃ c, cell = some c ∧
    (c.active = true ∨ c.value.deleted = true ∨
      (c.value.deletedVersions version = true ∧ c.value.nodes version = none))

/-- A rollback restores no mark of a missing state, and a list that is not later
sets none. -/
def RemembersStates (s : System) (d : Missing) : StateOccurrence → Prop
  | .finished m true =>
      ∀ c, m.previous = some c → ∀ b, d.states m.id b ≠ none → c.value.ready b = false
  | .observed epoch began r =>
      ∀ items, validStates r = some items → s.scheduler.states.epoch = epoch →
        ∀ id info, listedInfo items id = some info →
          ∀ time, d.states id r.backend = some time → later.counts time began = false →
            StateBlocked (s.scheduler.states.cells id) info
  | _ => True

/-- A rollback restores no mark of a missing adapter, and a list that is not later
sets none. -/
def RemembersAdapters (s : System) (d : Missing) : AdapterOccurrence → Prop
  | .finished m _ true =>
      ∀ c, m.previous = some c → ∀ version b, d.adapters m.id version b ≠ none →
        (c.value.nodes version).getD noBackend b = false
  | .observed epoch began r =>
      ∀ items, validAdapters r = some items → s.scheduler.adapters.epoch = epoch →
        ∀ id version, version ∈ listedVersions items id →
          ∀ time, d.adapters id version r.backend = some time →
            later.counts time began = false →
            AdapterBlocked (s.scheduler.adapters.cells id) version
  | _ => True

/-- The condition on an event. -/
def Remembers (x : System × Missing) (e : Event) : Prop :=
  RemembersStates later x.1 x.2 (x.1.stateOccurrence e) ∧
    RemembersAdapters later x.1 x.2 (x.1.adapterOccurrence e)

end Missing

section States

variable {later : Later} {s s' : System} {d : Missing}

/-- No entry marks a missing state. -/
def QuietStates (s : System) (d : Missing) : Prop :=
  ∀ id c, s.scheduler.states.cells id = some c →
    ∀ b, d.states id b ≠ none → c.value.ready b = false

/-- The replicas of an entry after a list. -/
theorem refreshed_ready (b : Nat) (info : Option ListedState) (c : Cell StatePlacement)
    (b' : Nat) (h : c.value.ready b' = false)
    (hblocked : b' = b → ∀ i, info = some i → StateBlocked (some c) i) :
    (Scheduler.refreshListed b info c.active
      (Scheduler.refreshKnown b info c)).ready b' = false := by
  by_cases hskip : (c.active || c.value.deleted) = true
  · have hknown : Scheduler.refreshKnown b info c = c.value := by
      simp [Scheduler.refreshKnown, hskip]
    rw [hknown]
    cases info with
    | none => exact h
    | some i =>
        rcases Bool.or_eq_true_iff.mp hskip with hactive | hdeleted
        · simpa [Scheduler.refreshListed, hactive] using h
        · simpa [Scheduler.refreshListed, hdeleted] using h
  · obtain ⟨hactive, hdeleted⟩ : c.active = false ∧ c.value.deleted = false := by
      simpa using hskip
    by_cases hb : b' = b
    · subst hb
      cases info with
      | none => simp [Scheduler.refreshListed, Scheduler.refreshKnown, hactive, hdeleted]
      | some i =>
          obtain ⟨c', hc, hcase⟩ := hblocked rfl i rfl
          obtain rfl := Option.some.inj hc
          have hdiffers : ¬(c.value.signature = none ∨ c.value.signature = some i) := by
            rw [not_or]
            simpa [hactive, hdeleted] using hcase
          simp [Scheduler.refreshListed, Scheduler.refreshKnown, hactive, hdeleted, hdiffers]
    · cases info with
      | none =>
          simp [Scheduler.refreshListed, Scheduler.refreshKnown, hactive, hdeleted,
            Function.update_of_ne hb, h]
      | some i =>
          by_cases hagrees : c.value.signature = none ∨ c.value.signature = some i
          · simp [Scheduler.refreshListed, Scheduler.refreshKnown, hactive, hdeleted, hagrees,
              Function.update_of_ne hb, h]
          · simp [Scheduler.refreshListed, Scheduler.refreshKnown, hactive, hdeleted, hagrees,
              Function.update_of_ne hb, h]

theorem quietStates_observed (h : QuietStates s d) {epoch began : Nat}
    {r : ResourceResponse} (hremembers : RemembersStates later s d (.observed epoch began r))
    (hafter : StatesAfter s s' (.observed epoch began r)) :
    QuietStates s' (d.enterStates later s (.observed epoch began r)) := by
  obtain ⟨hstates, -⟩ := hafter
  rw [observeStateList_states] at hstates
  intro id c hc b hb
  rw [hstates] at hc
  unfold Missing.enterStates at hb
  dsimp only at hb
  cases hvalid : validStates r with
  | none =>
      rw [hvalid] at hc hb
      exact h id c hc b hb
  | some items =>
      rw [hvalid] at hc hb
      dsimp only at hc hb
      by_cases hepoch : s.scheduler.states.epoch ≠ epoch
      · rw [if_pos hepoch] at hc hb
        exact h id c hc b hb
      rw [if_neg hepoch] at hc hb
      dsimp only at hb
      -- A mark that survives the list is older, or the list does not name the state.
      have hold : d.states id b ≠ none := by
        intro hnone
        rw [hnone] at hb
        exact hb (by split_ifs <;> rfl)
      have hblocked : b = r.backend → ∀ info, listedInfo items id = some info →
          StateBlocked (s.scheduler.states.cells id) info := by
        rintro rfl info hinfo
        rw [if_pos ⟨rfl, by simp [hinfo]⟩] at hb
        obtain ⟨time, htime⟩ := Option.ne_none_iff_exists'.mp hb
        obtain ⟨hmark, hcounts⟩ := Option.filter_eq_some_iff.mp htime
        exact hremembers items hvalid (Classical.not_not.mp hepoch) id info hinfo time hmark
          (by simpa using hcounts)
      cases hcell : s.scheduler.states.cells id with
      | some cell =>
          simp only [Table.observe, hcell, Option.some.injEq] at hc
          subst hc
          refine refreshed_ready r.backend (listedInfo items id) cell b (h id cell hcell b hold)
            (fun hbackend i hi => ?_)
          rw [← hcell]
          exact hblocked hbackend i hi
      | none =>
          simp only [Table.observe, hcell, Option.map_eq_some_iff] at hc
          obtain ⟨value, ⟨info, hinfo, rfl⟩, rfl⟩ := hc
          have hne : b ≠ r.backend := by
            intro hbackend
            obtain ⟨cell, hnone, -⟩ := hblocked hbackend info hinfo
            rw [hcell] at hnone
            exact absurd hnone (by simp)
          simp [Scheduler.refreshListed, Function.update_of_ne hne, noBackend]

theorem quietStates_after (hs : GuardedSystem s) (h : QuietStates s d) {o : StateOccurrence}
    (hremembers : RemembersStates later s d o) (hafter : StatesAfter s s' o) :
    QuietStates s' (d.enterStates later s o) := by
  cases o with
  | nothing =>
      unfold QuietStates
      rw [hafter.1]
      exact h
  | begun id deletes =>
      obtain ⟨m, -, hbegin, -⟩ := hafter
      obtain ⟨-, -, htable⟩ := begin_eq_some.mp hbegin
      intro id' c hc b hb
      rw [htable] at hc
      dsimp only at hc
      by_cases hid : id' = id
      · subst hid
        rw [Function.update_self] at hc
        obtain rfl := Option.some.inj hc
        rfl
      · rw [Function.update_of_ne hid] at hc
        exact h id' c hc b hb
  | acknowledged m r =>
      obtain ⟨-, -, hstates, -⟩ := hafter
      unfold Missing.enterStates
      dsimp only
      rcases validateStateUpload_spec m.id s.scheduler r with
        ⟨hrefused, hsame⟩ | ⟨info, cell, -, -, -, -, -, haccepted, hmodify⟩
      · rw [if_neg hrefused]
        unfold QuietStates
        rw [hstates, hsame]
        exact h
      · rw [if_pos haccepted]
        intro id c hc b hb
        rw [hstates, hmodify, cells_modify] at hc
        dsimp only at hb
        split_ifs at hc with hid
        · subst hid
          obtain ⟨cell, hcell, rfl⟩ := Option.map_eq_some_iff.mp hc
          rw [Function.update_self] at hb
          have hne : b ≠ r.backend := by
            rintro rfl
            simp at hb
          rw [Function.update_of_ne hne] at hb
          exact (Function.update_of_ne hne _ _).trans (h m.id cell hcell b hb)
        · rw [Function.update_of_ne hid] at hb
          exact h id c hc b hb
  | observed epoch began r => exact quietStates_observed h hremembers hafter
  | finished m rollback =>
      obtain ⟨hstates, hperm⟩ := hafter
      have hm : m ∈ s.stateMutations := hperm.mem_iff.mpr List.mem_cons_self
      obtain ⟨cell, hcell, -, -⟩ := owns_iff.mp (hs.states.owned m hm)
      intro id c hc b hb
      rw [hstates] at hc
      unfold Scheduler.finishStateMutation Table.finish at hc
      rw [if_neg (hs.named m hm), if_pos (hs.states.owned m hm)] at hc
      dsimp only at hc
      by_cases hid : id = m.id
      · subst hid
        rw [Function.update_self, hcell] at hc
        cases rollback with
        | true => exact hremembers c hc b hb
        | false =>
            obtain rfl := Option.some.inj hc
            exact h m.id cell hcell b hb
      · rw [Function.update_of_ne hid] at hc
        exact h id c hc b hb
  | notFound id b =>
      obtain ⟨hstates, -⟩ := hafter
      intro id' c hc b' hb'
      rw [hstates] at hc
      dsimp only [Scheduler.stateUnavailable] at hc
      rw [cells_modify] at hc
      simp only [Missing.enterStates] at hb'
      split_ifs at hc with hid
      · subst hid
        obtain ⟨cell, hcell, rfl⟩ := Option.map_eq_some_iff.mp hc
        rw [Function.update_self] at hb'
        by_cases hb : b' = b
        · subst hb
          exact Function.update_self _ _ _
        · rw [Function.update_of_ne hb] at hb'
          exact (Function.update_of_ne hb _ _).trans (h id' cell hcell b' hb')
      · rw [Function.update_of_ne hid] at hb'
        exact h id' c hc b' hb'

end States

section Adapters

variable {later : Later} {s s' : System} {d : Missing}

/-- A version has a mark on a backend. -/
def AdapterPlacement.marked (e : AdapterPlacement) (version : String) (b : Nat) : Bool :=
  (e.nodes version).getD noBackend b

/-- No entry marks a missing adapter. -/
def QuietAdapters (s : System) (d : Missing) : Prop :=
  ∀ id c, s.scheduler.adapters.cells id = some c →
    ∀ version b, d.adapters id version b ≠ none → c.value.marked version b = false

theorem marked_setReady (e : AdapterPlacement) (version other : String) (b b' : Nat)
    (hother : other ≠ version ∨ b' ≠ b) (value : Bool) :
    (e.setReady version b value).marked other b' = e.marked other b' := by
  unfold AdapterPlacement.marked
  rw [AdapterPlacement.nodes_setReady]
  cases e.nodes other with
  | none => rfl
  | some nodes =>
      simp only [Option.map_some, Option.getD_some]
      split_ifs with h
      · exact Function.update_of_ne (hother.resolve_left (fun hne => hne h)) _ _
      · rfl

theorem marked_addVersion (e : AdapterPlacement) (version other : String) (b : Nat) :
    (e.addVersion version).marked other b = e.marked other b := by
  unfold AdapterPlacement.marked
  by_cases h : other = version
  · subst h
    rw [AdapterPlacement.nodes_addVersion]
    rfl
  · rw [nodes_addVersion_of_ne e h]

theorem marked_unset (e : AdapterPlacement) (version : String) (b : Nat) :
    (e.setReady version b false).marked version b = false := by
  unfold AdapterPlacement.marked
  rw [AdapterPlacement.nodes_setReady]
  cases e.nodes version with
  | none => rfl
  | some nodes => simp

/-- A list adds marks only for the versions that it names and may add, on its backend. -/
theorem marked_addVersions (b : Nat) (names : List String) (active : Bool)
    (e : AdapterPlacement) (version : String) (b' : Nat)
    (h : b' ≠ b ∨ version ∉ names ∨
      (active || e.deleted || e.deletedVersions version) = true) :
    (Scheduler.addVersions b names active e).marked version b' = e.marked version b' := by
  unfold Scheduler.addVersions
  induction names generalizing e with
  | nil => rfl
  | cons name names ih =>
      rw [List.foldl_cons]
      by_cases hskip : (active || e.deleted || e.deletedVersions name) = true
      · rw [if_pos hskip]
        refine ih e (h.imp_right (Or.imp_left fun hnot hmem => ?_))
        exact hnot (List.mem_cons_of_mem name hmem)
      · rw [if_neg hskip]
        have hflags : ((e.addVersion name).setReady name b true).deleted = e.deleted ∧
            ((e.addVersion name).setReady name b true).deletedVersions = e.deletedVersions := by
          unfold AdapterPlacement.addVersion
          split_ifs <;> exact ⟨rfl, rfl⟩
        rw [ih ((e.addVersion name).setReady name b true), marked_setReady, marked_addVersion]
        · rcases h with h | h | h
          · exact Or.inr h
          · exact Or.inl (fun heq => h (heq ▸ List.mem_cons_self))
          · refine Or.inl ?_
            rintro rfl
            exact hskip h
        · rw [hflags.1, hflags.2]
          refine h.imp_right (Or.imp_left fun hnot hmem => ?_)
          exact hnot (List.mem_cons_of_mem name hmem)

theorem marked_refreshVersions (b : Nat) (names : List String) (c : Cell AdapterPlacement)
    (version : String) (b' : Nat) (h : c.value.marked version b' = false)
    (hnamed : b' = b → version ∈ names →
      c.active = true ∨ c.value.deleted = true ∨ c.value.nodes version = none) :
    (Scheduler.refreshVersions b names c).marked version b' = false := by
  unfold Scheduler.refreshVersions
  by_cases hskip : (c.active || c.value.deleted) = true
  · rw [if_pos hskip]
    exact h
  rw [if_neg hskip]
  obtain ⟨hactive, hdeleted⟩ : c.active = false ∧ c.value.deleted = false := by
    simpa using hskip
  unfold AdapterPlacement.marked AdapterPlacement.nodes at h ⊢
  have hkey : ∀ x : String × (Nat → Bool),
      (x.1, Function.update x.2 b (names.contains x.1)).1 = x.1 := fun _ => rfl
  dsimp only
  rw [lookup_map_keys _ hkey]
  cases hnodes : c.value.ready.lookup version with
  | none => rfl
  | some nodes =>
      rw [hnodes] at h
      simp only [Option.map_some, Option.getD_some] at h ⊢
      by_cases hb : b' = b
      · rw [hb, Function.update_self]
        have hnot : version ∉ names := by
          intro hmem
          have hcase := hnamed hb hmem
          unfold AdapterPlacement.nodes at hcase
          rw [hactive, hdeleted, hnodes] at hcase
          exact absurd hcase (by simp)
        simpa using hnot
      · rw [Function.update_of_ne hb]
        exact h

theorem quietAdapters_observed (h : QuietAdapters s d) {epoch began : Nat}
    {r : ResourceResponse}
    (hremembers : RemembersAdapters later s d (.observed epoch began r))
    (hafter : AdaptersAfter s s' (.observed epoch began r)) :
    QuietAdapters s' (d.enterAdapters later s (.observed epoch began r)) := by
  obtain ⟨hadapters, -⟩ := hafter
  rw [observeAdapterList_adapters] at hadapters
  intro id c hc version b hb
  rw [hadapters] at hc
  unfold Missing.enterAdapters at hb
  dsimp only at hb
  cases hvalid : validAdapters r with
  | none =>
      rw [hvalid] at hc hb
      exact h id c hc version b hb
  | some items =>
      rw [hvalid] at hc hb
      dsimp only at hc hb
      by_cases hepoch : s.scheduler.adapters.epoch ≠ epoch
      · rw [if_pos hepoch] at hc hb
        exact h id c hc version b hb
      rw [if_neg hepoch] at hc hb
      dsimp only at hb
      -- A mark that survives the list is older, or the list does not name the version.
      have hold : d.adapters id version b ≠ none := by
        intro hnone
        rw [hnone] at hb
        exact hb (by split_ifs <;> rfl)
      have hblocked : b = r.backend → version ∈ listedVersions items id →
          AdapterBlocked (s.scheduler.adapters.cells id) version := by
        rintro rfl hnamed
        rw [if_pos ⟨rfl, by simpa using hnamed⟩] at hb
        obtain ⟨time, htime⟩ := Option.ne_none_iff_exists'.mp hb
        obtain ⟨hmark, hcounts⟩ := Option.filter_eq_some_iff.mp htime
        exact hremembers items hvalid (Classical.not_not.mp hepoch) id version hnamed time
          hmark (by simpa using hcounts)
      cases hcell : s.scheduler.adapters.cells id with
      | some cell =>
          simp only [Table.observe, hcell, Option.some.injEq] at hc
          subst hc
          rw [hcell] at hblocked
          have hcase : b = r.backend → version ∈ listedVersions items id →
              cell.active = true ∨ cell.value.deleted = true ∨
                (cell.value.deletedVersions version = true ∧
                  cell.value.nodes version = none) := by
            intro hbackend hnamed
            obtain ⟨c, hc, hcase⟩ := hblocked hbackend hnamed
            obtain rfl := Option.some.inj hc
            exact hcase
          have hrefresh := marked_refreshVersions r.backend (listedVersions items id) cell
            version b (h id cell hcell version b hold)
            (fun hbackend hnamed => (hcase hbackend hnamed).imp_right (Or.imp_right And.right))
          have hflags : (Scheduler.refreshVersions r.backend (listedVersions items id)
                cell).deleted = cell.value.deleted ∧
              (Scheduler.refreshVersions r.backend (listedVersions items id)
                cell).deletedVersions = cell.value.deletedVersions := by
            unfold Scheduler.refreshVersions
            split_ifs <;> exact ⟨rfl, rfl⟩
          rw [← hrefresh]
          refine marked_addVersions _ _ _ _ _ _ ?_
          rw [hflags.1, hflags.2]
          by_cases hbackend : b = r.backend
          · by_cases hnamed : version ∈ listedVersions items id
            · rcases hcase hbackend hnamed with hcase | hcase | ⟨hcase, -⟩ <;> simp [hcase]
            · exact Or.inr (Or.inl hnamed)
          · exact Or.inl hbackend
      | none =>
          rw [hcell] at hblocked
          simp only [Table.observe, hcell] at hc
          by_cases hnames : listedVersions items id = []
          · rw [if_pos hnames] at hc
            exact absurd hc (by simp)
          rw [if_neg hnames] at hc
          obtain rfl := Option.some.inj hc
          dsimp only
          rw [marked_addVersions]
          · rfl
          · by_cases hbackend : b = r.backend
            · refine Or.inr (Or.inl fun hnamed => ?_)
              obtain ⟨c, hnone, -⟩ := hblocked hbackend hnamed
              exact absurd hnone (by simp)
            · exact Or.inl hbackend

theorem marked_deletedEntry (e : AdapterPlacement) (version other : String) (b : Nat)
    (h : e.marked other b = false) : (deletedEntry version e).marked other b = false := by
  unfold deletedEntry
  by_cases hall : version = ""
  · rw [if_pos hall]
    rfl
  · rw [if_neg hall]
    unfold AdapterPlacement.marked AdapterPlacement.nodes at h ⊢
    dsimp only
    by_cases hother : other = version
    · subst hother
      rw [lookup_filter_ne]
      rfl
    · rw [lookup_filter_of_ne e.ready hother]
      exact h

/-- An acknowledged upload marks one version on one backend. -/
theorem marked_confirmed (e : AdapterPlacement) (version other : String) (b b' : Nat)
    (hother : other ≠ version ∨ b' ≠ b) :
    (confirmedVersion version b e).marked other b' = e.marked other b' :=
  (marked_setReady (e.addVersion version) version other b b' hother true).trans
    (marked_addVersion e version other b')

theorem quietAdapters_acknowledged (hs : GuardedSystem s) (h : QuietAdapters s d)
    {m : AdapterMutation} {canonical : String} {r : ResourceResponse}
    (hafter : AdaptersAfter s s' (.acknowledged m canonical r)) :
    QuietAdapters s' (d.enterAdapters later s (.acknowledged m canonical r)) := by
  obtain ⟨hm, -, hadapters, -⟩ := hafter
  rcases validateAdapterUpload_spec m (s.scheduler, canonical) r with
    ⟨hrefused, hsame⟩ | ⟨version, -, hbody, haccepted, hmodify⟩
  · have hd : d.enterAdapters later s (.acknowledged m canonical r) = d := by
      unfold Missing.enterAdapters
      dsimp only
      split
      · exact if_neg hrefused
      · rfl
    rw [hd]
    unfold QuietAdapters
    rw [hadapters, hsame]
    exact h
  · have hd : d.enterAdapters later s (.acknowledged m canonical r) =
        { d with
          adapters :=
            Function.update d.adapters m.id
              (Function.update (d.adapters m.id) version
                (Function.update (d.adapters m.id version) r.backend none)) } := by
      unfold Missing.enterAdapters
      simp only [hbody]
      exact if_pos haccepted
    rw [hd]
    rw [hmodify, modifyOwn_of_owns (hs.adapters.owned m hm)] at hadapters
    intro id c hc other b hb
    rw [hadapters, cells_modify] at hc
    dsimp only at hb
    split_ifs at hc with hid
    · subst hid
      obtain ⟨cell, hcell, rfl⟩ := Option.map_eq_some_iff.mp hc
      rw [Function.update_self] at hb
      by_cases hother : other = version
      · subst hother
        rw [Function.update_self] at hb
        have hne : b ≠ r.backend := by
          rintro rfl
          simp at hb
        rw [Function.update_of_ne hne] at hb
        exact (marked_confirmed _ _ _ _ _ (Or.inr hne)).trans (h m.id cell hcell other b hb)
      · rw [Function.update_of_ne hother] at hb
        exact (marked_confirmed _ _ _ _ _ (Or.inl hother)).trans
          (h m.id cell hcell other b hb)
    · rw [Function.update_of_ne hid] at hb
      exact h id c hc other b hb

theorem quietAdapters_notFound (h : QuietAdapters s d) {id version : String} {b : Nat}
    (hafter : AdaptersAfter s s' (.notFound id version b)) :
    QuietAdapters s' (d.enterAdapters later s (.notFound id version b)) := by
  obtain ⟨hadapters, -⟩ := hafter
  intro id' c hc other b' hb'
  rw [hadapters] at hc
  dsimp only [Scheduler.adapterUnavailable] at hc
  rw [cells_modify] at hc
  simp only [Missing.enterAdapters] at hb'
  split_ifs at hc with hid
  · subst hid
    obtain ⟨cell, hcell, rfl⟩ := Option.map_eq_some_iff.mp hc
    rw [Function.update_self] at hb'
    by_cases hone : other = version ∧ b' = b
    · obtain ⟨rfl, rfl⟩ := hone
      exact marked_unset _ _ _
    · have hcase : other ≠ version ∨ b' ≠ b := by
        by_contra hnot
        rw [not_or, Classical.not_not, Classical.not_not] at hnot
        exact hone hnot
      refine (marked_setReady _ _ _ _ _ hcase false).trans (h id' cell hcell other b' ?_)
      by_cases hother : other = version
      · subst hother
        rw [Function.update_self,
          Function.update_of_ne (hcase.resolve_left (fun hne => hne rfl))] at hb'
        exact hb'
      · rwa [Function.update_of_ne hother] at hb'
  · rw [Function.update_of_ne hid] at hb'
    exact h id' c hc other b' hb'

theorem quietAdapters_after (hs : GuardedSystem s) (h : QuietAdapters s d)
    {o : AdapterOccurrence} (hremembers : RemembersAdapters later s d o)
    (hafter : AdaptersAfter s s' o) : QuietAdapters s' (d.enterAdapters later s o) := by
  cases o with
  | nothing =>
      unfold QuietAdapters
      rw [hafter.1]
      exact h
  | begun id =>
      obtain ⟨m, -, hbegin, -⟩ := hafter
      obtain ⟨-, -, htable⟩ := begin_eq_some.mp hbegin
      intro id' c hc version b hb
      rw [htable] at hc
      dsimp only at hc
      by_cases hid : id' = id
      · subst hid
        rw [Function.update_self] at hc
        obtain rfl := Option.some.inj hc
        cases hcell : s.scheduler.adapters.cells id' with
        | none => rfl
        | some cell => exact h id' cell hcell version b hb
      · rw [Function.update_of_ne hid] at hc
        exact h id' c hc version b hb
  | entered m version =>
      obtain ⟨hm, hadapters, -⟩ := hafter
      have hadapters' : s'.scheduler.adapters =
          s.scheduler.adapters.modify m.id (deletedEntry version) :=
        hadapters.trans (modifyOwn_of_owns (hs.adapters.owned m hm) _)
      intro id c hc other b hb
      rw [hadapters', cells_modify] at hc
      split_ifs at hc with hid
      · obtain ⟨cell, hcell, rfl⟩ := Option.map_eq_some_iff.mp hc
        exact marked_deletedEntry _ _ _ _ (h id cell hcell other b hb)
      · exact h id c hc other b hb
  | acknowledged m canonical r => exact quietAdapters_acknowledged hs h hafter
  | observed epoch began r => exact quietAdapters_observed h hremembers hafter
  | finished m deletes rollback =>
      obtain ⟨hadapters, hperm⟩ := hafter
      have hm : m ∈ s.adapterMutations := hperm.mem_iff.mpr List.mem_cons_self
      have howns := hs.adapters.owned m hm
      obtain ⟨cell, hcell, -, -⟩ := owns_iff.mp howns
      intro id c hc version b hb
      rw [hadapters] at hc
      unfold Scheduler.finishAdapterMutation Table.finish at hc
      rw [if_pos howns] at hc
      dsimp only at hc
      by_cases hid : id = m.id
      · subst hid
        rw [Function.update_self, hcell] at hc
        cases rollback with
        | true => exact hremembers c hc version b hb
        | false =>
            obtain rfl := Option.some.inj hc
            exact h m.id cell hcell version b hb
      · rw [Function.update_of_ne hid] at hc
        exact h id c hc version b hb
  | notFound id version b => exact quietAdapters_notFound h hafter

end Adapters

section Remembering

variable {later : Later} {s s' : System} {d : Missing} {e : Event}

/-- The invariant of the runs. -/
structure MissingInv (s : System) (d : Missing) : Prop where
  guarded : GuardedSystem s
  states : QuietStates s d
  adapters : QuietAdapters s d

theorem missingInv_start (backends : List Backend) (cooldown : Nat) :
    MissingInv (System.start backends cooldown) Missing.empty where
  guarded := guarded_start backends cooldown
  states := fun _ c hc => absurd hc (by simp [System.start, Table.empty])
  adapters := fun _ c hc => absurd hc (by simp [System.start, Table.empty])

theorem enterAdapters_states (d : Missing) (s : System) (o : AdapterOccurrence) :
    (d.enterAdapters later s o).states = d.states := by
  cases o with
  | acknowledged m canonical r =>
      unfold Missing.enterAdapters
      dsimp only
      split
      · split_ifs <;> rfl
      · rfl
  | observed epoch began r =>
      unfold Missing.enterAdapters
      dsimp only
      split
      · rfl
      · split_ifs <;> rfl
  | _ => rfl

theorem enterStates_adapters (d : Missing) (s : System) (o : StateOccurrence) :
    (d.enterStates later s o).adapters = d.adapters := by
  cases o with
  | acknowledged m r =>
      unfold Missing.enterStates
      dsimp only
      split_ifs <;> rfl
  | observed epoch began r =>
      unfold Missing.enterStates
      dsimp only
      split
      · rfl
      · split_ifs <;> rfl
  | _ => rfl

theorem missingInv_step (h : MissingInv s d) (hremembers : Remembers later (s, d) e)
    (hstep : s.step e = some s') :
    MissingInv s'
      ((d.enterStates later s (s.stateOccurrence e)).enterAdapters later s
        (s.adapterOccurrence e)) := by
  obtain ⟨hstates, hadapters⟩ := hremembers
  refine ⟨guarded_step h.guarded hstep, ?_, ?_⟩
  · have hquiet := quietStates_after h.guarded h.states hstates (step_states hstep)
    unfold QuietStates at hquiet ⊢
    rw [enterAdapters_states]
    exact hquiet
  · refine quietAdapters_after h.guarded ?_ ?_ (step_adapters hstep)
    · unfold QuietAdapters
      rw [enterStates_adapters]
      exact h.adapters
    · dsimp only at hadapters
      unfold RemembersAdapters at hadapters ⊢
      rw [enterStates_adapters]
      exact hadapters

/-- No request is routed to a backend that does not have what the request names. -/
def MissingAvoided (s : System) (d : Missing) : Prop :=
  ∀ now bsz session stateId adapterId version b scheduler,
    s.scheduler.acquireWithAdapter now bsz session stateId adapterId version =
      .ok (b, scheduler) →
    (stateId ≠ "" → d.states stateId b = none) ∧
      (adapterId ≠ "" → d.adapters adapterId version b = none)

theorem missingAvoided_of_inv (h : MissingInv s d) : MissingAvoided s d := by
  intro now bsz session stateId adapterId version b scheduler hacquire
  obtain ⟨hstate, hadapter⟩ := Scheduler.acquireWithAdapter_ready hacquire
  constructor
  · intro hid
    unfold Scheduler.stateReady at hstate
    rw [if_neg hid] at hstate
    cases hcell : s.scheduler.states.cells stateId with
    | none =>
        rw [hcell] at hstate
        exact absurd hstate (by simp)
    | some cell =>
        rw [hcell] at hstate
        by_contra hmissing
        have hready := h.states stateId cell hcell b hmissing
        simp [hready] at hstate
  · intro hid
    unfold Scheduler.adapterReady at hadapter
    rw [if_neg hid] at hadapter
    cases hcell : s.scheduler.adapters.cells adapterId with
    | none =>
        rw [hcell] at hadapter
        exact absurd hadapter (by simp)
    | some cell =>
        rw [hcell] at hadapter
        by_contra hmissing
        have hready := h.adapters adapterId cell hcell version b hmissing
        unfold AdapterPlacement.marked at hready
        simp [hready] at hadapter

/-- Replicas that are missing are avoided in every run whose steps `Remember`. -/
theorem missing_remembered {backends : List Backend} {cooldown : Nat} {es : List Event}
    (hmeet : StepsMeet (missingStep later) (Remembers later)
      (System.start backends cooldown, Missing.empty) es)
    (hrun : exec (missingStep later) (System.start backends cooldown, Missing.empty) es =
      some (s, d)) :
    MissingAvoided s d := by
  refine missingAvoided_of_inv (exec_invariant (I := fun x => MissingInv x.1 x.2) ?_
    (missingInv_start backends cooldown) hmeet hrun)
  intro x e y h hremembers hstep
  obtain ⟨s', hs', rfl⟩ := Option.map_eq_some_iff.mp hstep
  exact missingInv_step h hremembers hs'

end Remembering

section Examples

/-- A request is answered with "uploaded state not found". -/
def lostRun : List Event :=
  refreshRun ++ [.acquire 0 1 "" "s" "" "", .respond 0 (.refused true false)]

/-- The same answer, while the state is being deleted; all backends reject the deletion. -/
def rollbackRun : List Event :=
  refreshRun ++ [.acquire 0 1 "" "s" "" "", .beginState "s" true,
    .respond 0 (.refused true false), .send 0, .answer 0 [rejection], .next 0, .finish 0]

/-- An answer to an inference request restores no mark. -/
theorem remembers_respond {later : Later} (x : System × Missing) (k : Nat) (reply : Reply) :
    Remembers later x (.respond k reply) := by
  cases reply with
  | served | failed => exact ⟨trivial, trivial⟩
  | refused stateGone adapterGone =>
      rw [Remembers]
      constructor
      · cases stateGone with
        | false => trivial
        | true =>
            rw [System.stateOccurrence]
            cases x.1.requests[k]? with
            | none => trivial
            | some q =>
                dsimp only
                split_ifs <;> trivial
      · cases adapterGone with
        | false => trivial
        | true =>
            rw [System.adapterOccurrence]
            cases x.1.requests[k]? with
            | none => trivial
            | some q =>
                dsimp only
                split_ifs <;> trivial

theorem missing_remembered_lost :
    ∃ s d, exec (missingStep .begun) (System.start oneBackend 0, Missing.empty) lostRun =
        some (s, d) ∧
      d.states "s" 0 = some 7 ∧ MissingAvoided s d := by
  have hlast : (exec (missingStep .begun) (System.start oneBackend 0, Missing.empty)
      lostRun).map (fun x => x.2.states "s" 0) = some (some 7) := by decide +kernel
  obtain ⟨⟨s, d⟩, hrun, hstates⟩ := Option.map_eq_some_iff.mp hlast
  have hrefresh : StepsMeet (missingStep .begun) (Remembers .begun)
      (System.start oneBackend 0, Missing.empty) refreshRun :=
    ⟨⟨trivial, trivial⟩, ⟨trivial, trivial⟩, ⟨trivial, trivial⟩,
      ⟨(fun _ _ _ _ _ _ _ h => nomatch h), trivial⟩, ⟨trivial, trivial⟩, trivial⟩
  refine ⟨s, d, hrun, hstates, missing_remembered (stepsMeet_append hrefresh fun t _ => ?_) hrun⟩
  refine stepsMeet_of_forall (fun e he x => ?_) t
  rcases List.mem_pair.mp he with rfl | rfl
  · exact ⟨trivial, trivial⟩
  · exact remembers_respond x 0 (.refused true false)

/-- The rollback puts back the mark of a replica that is missing. -/
theorem rollback_forgets :
    ∃ s d scheduler,
      exec (missingStep .observed) (System.start oneBackend 0, Missing.empty) rollbackRun =
          some (s, d) ∧
        s.scheduler.acquireWithAdapter 0 1 "" "s" "" "" = .ok (0, scheduler) ∧
        d.states "s" 0 = some 8 := by
  have hlast : (exec (missingStep .observed) (System.start oneBackend 0, Missing.empty)
      rollbackRun).map (fun x =>
        ((x.1.scheduler.acquireWithAdapter 0 1 "" "s" "" "").map Prod.fst,
          x.2.states "s" 0)) = some (.ok 0, some 8) := by decide +kernel
  obtain ⟨⟨s, d⟩, hrun, heq⟩ := Option.map_eq_some_iff.mp hlast
  obtain ⟨hroute, hstates⟩ := Prod.mk.inj heq
  obtain ⟨scheduler, hacquire⟩ := Scheduler.exists_of_map_fst hroute
  exact ⟨s, d, scheduler, hrun, hacquire, hstates⟩

end Examples

end Router
end RwkvLightning

import RwkvLightning.Router.Acknowledgment
import RwkvLightning.Router.System
import Mathlib

/-!
# Where a request with a state may be routed

The specification is a ledger of evidence: for each id, what the backends said
last since the mutation began that the record of the id begins with.  A mutation
that all backends reject definitively gives the saved record back.

**Results.**
* `tracks_step`: the placement of the scheduler never knows more than the ledger.
* `placement_safe`: in every run a request is routed only to a backend whose
  latest evidence confirms the state, and stale lists change nothing.
* `rejected_deletion_routes`: after a rejected deletion the evidence from before
  the deletion counts again.
-/

namespace RwkvLightning
namespace Router

open GuardedTable Execution

section Ledger

/-- What is known about a state. -/
structure Record where
  /-- The record begins with a mutation. -/
  mutated : Bool
  deleted : Bool
  /-- The information that replicas have to agree with. -/
  agreed : Option ListedState
  /-- The latest evidence of a backend: what it holds under the id. -/
  latest : Nat → Option (Option ListedState)

/-- The record of an id that nothing was heard of. -/
def Record.unknown : Record :=
  ⟨false, false, none, fun _ => none⟩

/-- The record that a mutation begins. -/
def Record.begun (deletes : Bool) : Record :=
  ⟨true, deletes, none, fun _ => none⟩

/-- An upload was acknowledged; replicas that do not agree do not count. -/
def Record.acknowledged (x : Record) (b : Nat) (info : ListedState) : Record :=
  if x.deleted = false ∧ (x.agreed = none ∨ x.agreed = some info) then
    { x with agreed := some info, latest := Function.update x.latest b (some (some info)) }
  else x

/-- A list was read; what it first names of an id that no mutation touched is agreed. -/
def Record.listed (x : Record) (b : Nat) (info : Option ListedState) : Record :=
  if x.deleted then x
  else
    { x with
      agreed := if x.mutated then x.agreed else x.agreed.or info
      latest := Function.update x.latest b (some info) }

/-- The latest evidence says that a backend holds the state as agreed. -/
def Record.Confirms (x : Record) (b : Nat) : Prop :=
  ∃ info, x.latest b = some (some info) ∧ (x.agreed = none ∨ x.agreed = some info)

/-- The records of an id: the one that counts, and the one saved by a mutation. -/
structure Ledger where
  opened : Bool
  current : Record
  saved : Record

structure StateLedger where
  ledgers : String → Ledger
  /-- When a mutation began or ended last. -/
  lastChange : Nat

def StateLedger.start : StateLedger :=
  ⟨fun _ => ⟨false, Record.unknown, Record.unknown⟩, 0⟩

/-- Enter an occurrence at a time. -/
def StateLedger.enter (g : StateLedger) (clock : Nat) : StateOccurrence → StateLedger
  | .nothing => g
  | .begun id deletes =>
      { ledgers :=
          Function.update g.ledgers id
            ⟨true, Record.begun deletes, (g.ledgers id).current⟩
        lastChange := clock + 1 }
  | .acknowledged m r =>
      match r.response.body.state with
      | some info =>
          if info.id = m.id then
            { g with
              ledgers :=
                Function.update g.ledgers m.id
                  { g.ledgers m.id with
                    current := (g.ledgers m.id).current.acknowledged r.backend info } }
          else g
      | none => g
  | .observed _ began r =>
      match validStates r with
      | some items =>
          if g.lastChange ≤ began then
            { g with
              ledgers := fun id =>
                { g.ledgers id with
                  current :=
                    if (g.ledgers id).opened then (g.ledgers id).current
                    else (g.ledgers id).current.listed r.backend (listedInfo items id) } }
          else g
      | none => g
  | .finished m rollback =>
      { ledgers :=
          Function.update g.ledgers m.id
            { g.ledgers m.id with
              opened := false
              current := if rollback then (g.ledgers m.id).saved else (g.ledgers m.id).current }
        lastChange := clock + 1 }
  | .notFound _ _ => g

/-- A step of the system, entered in the ledger. -/
def ledgerStep (x : System × StateLedger) (e : Event) : Option (System × StateLedger) :=
  (x.1.step e).map (fun t => (t, x.2.enter x.1.clock (x.1.stateOccurrence e)))

end Ledger

section Tracking

/-- An entry of the placement knows no more than a record. -/
def Tracks (cell : Option (Cell StatePlacement)) (x : Record) : Prop :=
  match cell with
  | none => x.mutated = false ∧ x.deleted = false ∧ x.agreed = none
  | some cell =>
      cell.value.deleted = x.deleted ∧ cell.value.signature = x.agreed ∧
        (cell.active = true → ∀ b, cell.value.ready b = true → x.agreed ≠ none) ∧
        (x.mutated = false → x.agreed ≠ none) ∧
        ∀ b, cell.value.ready b = true → x.Confirms b

variable {cell : Cell StatePlacement} {x : Record}

theorem tracks_begun (serial : Nat) (deletes : Bool) :
    Tracks (some ⟨serial, true, ⟨noBackend, deletes, none⟩⟩) (Record.begun deletes) :=
  ⟨rfl, rfl, fun _ b hb => absurd hb (by simp [noBackend]),
    fun h => absurd h (by simp [Record.begun]), fun b hb => absurd hb (by simp [noBackend])⟩

/-- The end of a mutation. -/
theorem tracks_inactive (h : Tracks (some cell) x) :
    Tracks (some { cell with active := false }) x := by
  obtain ⟨h1, h2, -, h4, h5⟩ := h
  exact ⟨h1, h2, fun h => absurd h (by simp), h4, h5⟩

/-- An entry that loses replicas still knows no more. -/
theorem tracks_unavailable (h : Tracks (some cell) x) (b : Nat) :
    Tracks (some { cell with
      value := { cell.value with ready := Function.update cell.value.ready b false } }) x := by
  have hready : ∀ b', Function.update cell.value.ready b false b' = true →
      cell.value.ready b' = true := by
    intro b' hb'
    by_cases hb : b' = b
    · subst hb
      simp at hb'
    · rwa [Function.update_of_ne hb] at hb'
  obtain ⟨h1, h2, h3, h4, h5⟩ := h
  exact ⟨h1, h2, fun hcase b' hb' => h3 hcase b' (hready b' hb'), h4,
    fun b' hb' => h5 b' (hready b' hb')⟩

/-- An acknowledged replica enters the entry and the record alike. -/
theorem tracks_acknowledged (h : Tracks (some cell) x) (hactive : cell.active = true)
    (b : Nat) {info : ListedState} (hdeleted : cell.value.deleted = false)
    (hsignature : cell.value.signature = none ∨ cell.value.signature = some info) :
    Tracks
      (some { cell with
        value := { cell.value with
          signature := some info
          ready := Function.update cell.value.ready b true } })
      (x.acknowledged b info) := by
  obtain ⟨h1, h2, h3, -, h5⟩ := h
  have hcounts : x.deleted = false ∧ (x.agreed = none ∨ x.agreed = some info) := by
    rw [← h1, ← h2]
    exact ⟨hdeleted, hsignature⟩
  unfold Record.acknowledged
  rw [if_pos hcounts]
  refine ⟨h1, rfl, fun _ _ _ => by simp, fun _ => by simp, fun b' hb' => ?_⟩
  dsimp only at hb'
  by_cases hb : b' = b
  · subst hb
    exact ⟨info, Function.update_self _ _ _, Or.inr rfl⟩
  · rw [Function.update_of_ne hb] at hb'
    obtain ⟨info', hlatest, hagreed⟩ := h5 b' hb'
    refine ⟨info', (Function.update_of_ne hb _ _).trans hlatest, Or.inr ?_⟩
    -- Before the first acknowledgment of a mutation no replica is ready.
    have hsome := h3 hactive b' hb'
    exact (hcounts.2.resolve_left hsome).symm.trans (hagreed.resolve_left hsome)

/-- An acknowledgment that the validator refuses does not count. -/
theorem tracks_refused (h : Tracks (some cell) x) (b : Nat) {info : ListedState}
    (hrefused : ¬(cell.value.deleted = false ∧
      (cell.value.signature = none ∨ cell.value.signature = some info))) :
    Tracks (some cell) (x.acknowledged b info) := by
  unfold Record.acknowledged
  rw [← h.1, ← h.2.1, if_neg hrefused]
  exact h

/-- A list that names an id nobody heard of. -/
theorem tracks_added (h : Tracks none x) (serial b : Nat) (info : ListedState) :
    Tracks
      (some ⟨serial, false,
        Scheduler.refreshListed b (some info) false ⟨noBackend, false, some info⟩⟩)
      (x.listed b (some info)) := by
  obtain ⟨h1, h2, h3⟩ := h
  unfold Record.listed
  rw [if_neg (by simp [h2])]
  simp only [Scheduler.refreshListed, h1, h3, Option.none_or, Bool.false_eq_true, if_false]
  refine ⟨h2.symm, rfl, fun _ _ _ => by simp, fun _ => by simp, fun b' hb' => ?_⟩
  by_cases hb : b' = b
  · subst hb
    exact ⟨info, Function.update_self _ _ _, Or.inr rfl⟩
  · simp [Function.update_of_ne hb, noBackend] at hb'

/-- A list that does not name an id nobody heard of. -/
theorem tracks_absent (h : Tracks none x) (b : Nat) : Tracks none (x.listed b none) := by
  obtain ⟨h1, h2, h3⟩ := h
  unfold Record.listed
  rw [if_neg (by simp [h2])]
  exact ⟨h1, h2, by simp [h1, h3]⟩

/-- A list about an id with an entry. -/
theorem tracks_listed (h : Tracks (some cell) x) (hactive : cell.active = false) (b : Nat)
    (info : Option ListedState) :
    Tracks
      (some { cell with
        value :=
          Scheduler.refreshListed b info cell.active (Scheduler.refreshKnown b info cell) })
      (x.listed b info) := by
  obtain ⟨h1, h2, h3, h4, h5⟩ := h
  by_cases hdeleted : cell.value.deleted = true
  · have hsame : Scheduler.refreshListed b info cell.active
        (Scheduler.refreshKnown b info cell) = cell.value := by
      cases info <;> simp [Scheduler.refreshListed, Scheduler.refreshKnown, hdeleted]
    rw [hsame]
    unfold Record.listed
    rw [if_pos (h1.symm.trans hdeleted)]
    exact ⟨h1, h2, h3, h4, h5⟩
  have hx : ¬x.deleted = true := by rwa [← h1]
  -- Both loops leave one bit behind: the replica is named and agrees.
  have hvalue : Scheduler.refreshListed b info cell.active
      (Scheduler.refreshKnown b info cell) =
      { cell.value with
        ready := Function.update cell.value.ready b
          (info.any (fun info =>
            cell.value.signature = none ∨ cell.value.signature = some info)) } := by
    cases info with
    | none => simp [Scheduler.refreshListed, Scheduler.refreshKnown, hactive, hdeleted]
    | some info =>
        by_cases hagrees : cell.value.signature = none ∨ cell.value.signature = some info
        · simp [-Bool.decide_or, Scheduler.refreshListed, Scheduler.refreshKnown, hactive,
            hdeleted, hagrees]
        · simp [-Bool.decide_or, Scheduler.refreshListed, Scheduler.refreshKnown, hactive,
            hdeleted, hagrees]
  have hagreed : (if x.mutated = true then x.agreed else x.agreed.or info) = x.agreed := by
    by_cases hmutated : x.mutated = true
    · rw [if_pos hmutated]
    · rw [if_neg hmutated]
      have hsome := h4 (by simpa using hmutated)
      cases hx : x.agreed with
      | none => exact absurd hx hsome
      | some a => rfl
  rw [hvalue]
  unfold Record.listed
  rw [if_neg hx, hagreed]
  refine ⟨h1, h2, fun h => absurd h (by simp [hactive]), h4, fun b' hb' => ?_⟩
  · dsimp only at hb'
    by_cases hb : b' = b
    · subst hb
      rw [Function.update_self] at hb'
      cases info with
      | none => exact absurd hb' (by simp)
      | some info =>
          refine ⟨info, Function.update_self _ _ _, ?_⟩
          rw [← h2]
          exact of_decide_eq_true hb'
    · rw [Function.update_of_ne hb] at hb'
      obtain ⟨info', hlatest, hagreed⟩ := h5 b' hb'
      exact ⟨info', (Function.update_of_ne hb _ _).trans hlatest, hagreed⟩

end Tracking

section Following

variable {s s' : System} {g : StateLedger} {e : Event}

/-- The table of states follows the ledger. -/
structure Follows (s : System) (g : StateLedger) : Prop where
  current : ∀ id, Tracks (s.scheduler.states.cells id) (g.ledgers id).current
  saved : ∀ m ∈ s.stateMutations, Tracks m.previous (g.ledgers m.id).saved
  opened :
    ∀ id, (g.ledgers id).opened = (s.scheduler.states.cells id).any (fun cell => cell.active)

theorem follows_begun (hs : GuardedSystem s) (h : Follows s g) {id : String} {deletes : Bool}
    (hafter : StatesAfter s s' (.begun id deletes)) :
    Follows s' (g.enter s.clock (.begun id deletes)) := by
  obtain ⟨m, -, hbegin, hmutations⟩ := hafter
  have hne : ∀ m' ∈ s.stateMutations, m'.id ≠ m.id :=
    fun m' hm' => (guarded_begin hs.states hbegin).id_ne hm'
  obtain ⟨-, rfl, htable⟩ := begin_eq_some.mp hbegin
  constructor
  · intro id'
    rw [htable]
    by_cases hid : id' = id
    · subst hid
      simp only [StateLedger.enter, Function.update_self]
      exact tracks_begun _ _
    · simp only [StateLedger.enter, Function.update_of_ne hid]
      exact h.current id'
  · rw [hmutations]
    intro m' hm'
    rcases List.mem_cons.mp hm' with rfl | hm'
    · simp only [StateLedger.enter, Function.update_self]
      exact h.current id
    · simp only [StateLedger.enter, Function.update_of_ne (hne m' hm')]
      exact h.saved m' hm'
  · intro id'
    rw [htable]
    by_cases hid : id' = id
    · subst hid
      simp [StateLedger.enter]
    · simp only [StateLedger.enter, Function.update_of_ne hid]
      exact h.opened id'

theorem follows_finished (hs : GuardedSystem s) (h : Follows s g) {m : StateMutation}
    {rollback : Bool} (hafter : StatesAfter s s' (.finished m rollback)) :
    Follows s' (g.enter s.clock (.finished m rollback)) := by
  obtain ⟨hstates, hperm⟩ := hafter
  have hm : m ∈ s.stateMutations := hperm.mem_iff.mpr List.mem_cons_self
  have hguarded := hs.states.perm hperm
  have howns := hs.states.owned m hm
  obtain ⟨cell, hcell, -, hactive⟩ := owns_iff.mp howns
  unfold Scheduler.finishStateMutation at hstates
  rw [if_neg (hs.named m hm)] at hstates
  dsimp only at hstates
  unfold Table.finish at hstates
  rw [if_pos howns] at hstates
  constructor
  · intro id
    rw [hstates]
    by_cases hid : id = m.id
    · subst hid
      simp only [StateLedger.enter, Function.update_self, hcell]
      cases rollback with
      | true => exact h.saved m hm
      | false =>
          have htracks := h.current m.id
          rw [hcell] at htracks
          exact tracks_inactive htracks
    · simp only [StateLedger.enter, Function.update_of_ne hid]
      exact h.current id
  · intro m' hm'
    simp only [StateLedger.enter, Function.update_of_ne (hguarded.id_ne hm')]
    exact h.saved m' (hperm.mem_iff.mpr (List.mem_cons_of_mem m hm'))
  · intro id
    rw [hstates]
    by_cases hid : id = m.id
    · subst hid
      simp only [StateLedger.enter, Function.update_self, hcell]
      cases rollback with
      | true =>
          cases hprevious : m.previous with
          | none => simp
          | some cell' => simp [(hs.states.previous m hm cell' hprevious).1]
      | false => simp
    · simp only [StateLedger.enter, Function.update_of_ne hid]
      exact h.opened id

theorem follows_notFound (h : Follows s g) {id : String} {b : Nat}
    (hafter : StatesAfter s s' (.notFound id b)) :
    Follows s' (g.enter s.clock (.notFound id b)) := by
  obtain ⟨hstates, hmutations⟩ := hafter
  have hcells : ∀ id', s'.scheduler.states.cells id' =
      if id' = id then
        (s.scheduler.states.cells id).map (fun cell =>
          { cell with
            value := { cell.value with ready := Function.update cell.value.ready b false } })
      else s.scheduler.states.cells id' := by
    intro id'
    rw [hstates]
    by_cases hid : id' = id
    · subst hid
      simp [Scheduler.stateUnavailable, Table.modify]
    · simp [Scheduler.stateUnavailable, Table.modify, hid]
  constructor
  · intro id'
    rw [hcells]
    split_ifs with hid
    · subst hid
      have htracks := h.current id'
      cases hcell : s.scheduler.states.cells id' with
      | none => rwa [hcell] at htracks
      | some cell =>
          rw [hcell] at htracks
          exact tracks_unavailable htracks b
    · exact h.current id'
  · rw [hmutations]
    exact h.saved
  · intro id'
    rw [hcells]
    split_ifs with hid
    · subst hid
      rw [show (g.enter s.clock (.notFound id' b)).ledgers id' = g.ledgers id' from rfl,
        h.opened id']
      cases s.scheduler.states.cells id' <;> rfl
    · exact h.opened id'

theorem follows_acknowledged (hs : GuardedSystem s) (h : Follows s g) {m : StateMutation}
    {r : ResourceResponse} (hafter : StatesAfter s s' (.acknowledged m r)) :
    Follows s' (g.enter s.clock (.acknowledged m r)) := by
  obtain ⟨hm, -, hstates, hmutations⟩ := hafter
  obtain ⟨cell, hcell, -, hactive⟩ := owns_iff.mp (hs.states.owned m hm)
  have htracks := h.current m.id
  rw [hcell] at htracks
  -- The ledger under the id of the mutation, whatever the answer is.
  have hledger : ∃ x, (g.enter s.clock (.acknowledged m r)).ledgers =
        Function.update g.ledgers m.id { g.ledgers m.id with current := x } ∧
      Tracks (s'.scheduler.states.cells m.id) x := by
    rcases validateStateUpload_spec m.id s.scheduler r with
      ⟨hrefused, hsame⟩ |
        ⟨info, cell', hbody, hid, hcell', hdeleted, hsignature, -, hmodify⟩
    · rw [hstates, hsame, hcell]
      cases hbody : r.response.body.state with
      | none =>
          exact ⟨(g.ledgers m.id).current, by simp [StateLedger.enter, hbody], htracks⟩
      | some info =>
          by_cases hid : info.id = m.id
          · refine ⟨(g.ledgers m.id).current.acknowledged r.backend info,
              by simp [StateLedger.enter, hbody, hid], tracks_refused htracks _ ?_⟩
            rintro ⟨hdeleted, hsignature⟩
            exact hrefused ((validateStateUpload_none_iff hcell hdeleted r).mpr
              ⟨info, hbody, hid, hsignature⟩)
          · exact ⟨(g.ledgers m.id).current, by simp [StateLedger.enter, hbody, hid], htracks⟩
    · obtain rfl : cell = cell' := Option.some.inj (hcell.symm.trans hcell')
      refine ⟨(g.ledgers m.id).current.acknowledged r.backend info,
        by simp [StateLedger.enter, hbody, hid], ?_⟩
      rw [hstates, hmodify]
      simp only [Table.modify, Function.update_self, hcell, Option.map_some]
      exact tracks_acknowledged htracks hactive r.backend hdeleted hsignature
  have hother : ∀ id, id ≠ m.id →
      s'.scheduler.states.cells id = s.scheduler.states.cells id := by
    intro id hid
    rw [hstates]
    rcases validateStateUpload_spec m.id s.scheduler r with
      ⟨-, hsame⟩ | ⟨info, cell', -, -, -, -, -, -, hmodify⟩
    · rw [hsame]
    · rw [hmodify]
      exact Function.update_of_ne hid _ _
  have hmark : (s'.scheduler.states.cells m.id).any (fun cell => cell.active) =
      (s.scheduler.states.cells m.id).any (fun cell => cell.active) := by
    rw [hstates]
    rcases validateStateUpload_spec m.id s.scheduler r with
      ⟨-, hsame⟩ | ⟨info, cell', -, -, -, -, -, -, hmodify⟩
    · rw [hsame]
    · rw [hmodify]
      simp [Table.modify, hcell]
  obtain ⟨x, hx, hcurrent⟩ := hledger
  constructor
  · intro id
    rw [hx]
    by_cases hid : id = m.id
    · subst hid
      rw [Function.update_self]
      exact hcurrent
    · rw [Function.update_of_ne hid, hother id hid]
      exact h.current id
  · rw [hmutations, hx]
    intro m' hm'
    by_cases hid : m'.id = m.id
    · rw [hid, Function.update_self, ← hid]
      exact h.saved m' hm'
    · rw [Function.update_of_ne hid]
      exact h.saved m' hm'
  · intro id
    rw [hx]
    by_cases hid : id = m.id
    · subst hid
      rw [Function.update_self, hmark]
      exact h.opened m.id
    · rw [Function.update_of_ne hid, hother id hid]
      exact h.opened id

theorem follows_observed (h : Follows s g) {epoch began : Nat} {r : ResourceResponse}
    (hlist : epoch = s.scheduler.states.epoch ↔ g.lastChange ≤ began)
    (hafter : StatesAfter s s' (.observed epoch began r)) :
    Follows s' (g.enter s.clock (.observed epoch began r)) := by
  obtain ⟨hstates, hmutations⟩ := hafter
  rw [observeStateList_states] at hstates
  cases hvalid : validStates r with
  | none =>
      have hg : g.enter s.clock (.observed epoch began r) = g := by
        simp [StateLedger.enter, hvalid]
      rw [hvalid] at hstates
      rw [hg]
      exact ⟨hstates ▸ h.current, hmutations ▸ h.saved, hstates ▸ h.opened⟩
  | some items =>
      rw [hvalid] at hstates
      dsimp only at hstates
      by_cases hepoch : s.scheduler.states.epoch = epoch
      · rw [if_neg (fun hne => hne hepoch)] at hstates
        have hg : (g.enter s.clock (.observed epoch began r)).ledgers = fun id =>
            { g.ledgers id with
              current :=
                if (g.ledgers id).opened then (g.ledgers id).current
                else (g.ledgers id).current.listed r.backend (listedInfo items id) } := by
          simp [StateLedger.enter, hvalid, hlist.mp hepoch.symm]
        have hkept : ∀ id cell, s.scheduler.states.cells id = some cell →
            (g.ledgers id).opened = cell.active := by
          intro id cell hcell
          rw [h.opened id, hcell, Option.any_some]
        constructor
        · intro id
          rw [hg, hstates]
          have htracks := h.current id
          cases hcell : s.scheduler.states.cells id with
          | none =>
              have hopened := h.opened id
              rw [hcell] at hopened htracks
              simp only [Table.observe, hcell, hopened, Option.any_none,
                Bool.false_eq_true, if_false]
              cases listedInfo items id with
              | none => exact tracks_absent htracks _
              | some info => exact tracks_added htracks _ _ _
          | some cell =>
              rw [hcell] at htracks
              simp only [Table.observe, hcell, hkept id cell hcell]
              cases hactive : cell.active with
              | true =>
                  have hsame : Scheduler.refreshListed r.backend (listedInfo items id) true
                      (Scheduler.refreshKnown r.backend (listedInfo items id) cell) =
                        cell.value := by
                    cases listedInfo items id <;>
                      simp [Scheduler.refreshListed, Scheduler.refreshKnown, hactive]
                  rw [hsame, if_pos rfl, ← hactive]
                  exact htracks
              | false =>
                  rw [if_neg (by simp), ← hactive]
                  exact tracks_listed htracks hactive _ _
        · rw [hmutations, hg]
          exact h.saved
        · intro id
          rw [hg, hstates]
          have hopened := h.opened id
          cases hcell : s.scheduler.states.cells id with
          | none =>
              rw [hcell] at hopened
              simp only [Table.observe, hcell, hopened]
              cases listedInfo items id <;> rfl
          | some cell => simp [Table.observe, hcell, hkept id cell hcell]
      · have hstale : ¬g.lastChange ≤ began := fun hle => hepoch (hlist.mpr hle).symm
        have hg : g.enter s.clock (.observed epoch began r) = g := by
          simp [StateLedger.enter, hvalid, hstale]
        rw [if_pos hepoch] at hstates
        rw [hg]
        exact ⟨hstates ▸ h.current, hmutations ▸ h.saved, hstates ▸ h.opened⟩

theorem follows_after (hs : GuardedSystem s) (h : Follows s g) {o : StateOccurrence}
    (hlist : ∀ epoch began r, o = .observed epoch began r →
      (epoch = s.scheduler.states.epoch ↔ g.lastChange ≤ began))
    (hafter : StatesAfter s s' o) : Follows s' (g.enter s.clock o) := by
  cases o with
  | nothing =>
      obtain ⟨hstates, hmutations⟩ := hafter
      exact ⟨hstates ▸ h.current, hmutations ▸ h.saved, hstates ▸ h.opened⟩
  | begun id deletes => exact follows_begun hs h hafter
  | acknowledged m r => exact follows_acknowledged hs h hafter
  | observed epoch began r => exact follows_observed h (hlist epoch began r rfl) hafter
  | finished m rollback => exact follows_finished hs h hafter
  | notFound id b => exact follows_notFound h hafter

end Following

section Stale

variable {s s' : System} {g : StateLedger} {e : Event}

/-- The epoch tells which lists are older than the last change. -/
structure Dated (s : System) (g : StateLedger) : Prop where
  clock : g.lastChange ≤ s.clock
  lists :
    ∀ h ∈ s.handlers, ∀ epoch began, h.job.listing = some (.states epoch began) →
      began ≤ s.clock ∧ epoch ≤ s.scheduler.states.epoch ∧
        (epoch = s.scheduler.states.epoch ↔ g.lastChange ≤ began)

/-- Only the beginning and the end of a mutation change the epoch. -/
theorem epoch_after (hs : GuardedSystem s) {o : StateOccurrence}
    (hafter : StatesAfter s s' o) :
    (s'.scheduler.states.epoch = s.scheduler.states.epoch ∧
        (g.enter s.clock o).lastChange = g.lastChange) ∨
      (s'.scheduler.states.epoch = s.scheduler.states.epoch + 1 ∧
        (g.enter s.clock o).lastChange = s.clock + 1) := by
  cases o with
  | nothing => exact Or.inl ⟨by rw [hafter.1], rfl⟩
  | begun id deletes =>
      obtain ⟨m, -, hbegin, -⟩ := hafter
      obtain ⟨-, -, htable⟩ := begin_eq_some.mp hbegin
      exact Or.inr ⟨by rw [htable], rfl⟩
  | acknowledged m r =>
      obtain ⟨-, -, hstates, -⟩ := hafter
      refine Or.inl ⟨?_, ?_⟩
      · rw [hstates]
        rcases validateStateUpload_spec m.id s.scheduler r with
          ⟨-, hsame⟩ | ⟨info, cell, -, -, -, -, -, -, hmodify⟩
        · rw [hsame]
        · rw [hmodify]
          rfl
      · unfold StateLedger.enter
        dsimp only
        split
        · split_ifs <;> rfl
        · rfl
  | observed epoch began r =>
      obtain ⟨hstates, -⟩ := hafter
      refine Or.inl ⟨?_, ?_⟩
      · rw [hstates, observeStateList_states]
        split
        · rfl
        · split_ifs <;> rfl
      · unfold StateLedger.enter
        dsimp only
        split
        · split_ifs <;> rfl
        · rfl
  | finished m rollback =>
      obtain ⟨hstates, hperm⟩ := hafter
      have hm : m ∈ s.stateMutations := hperm.mem_iff.mpr List.mem_cons_self
      refine Or.inr ⟨?_, rfl⟩
      rw [hstates]
      unfold Scheduler.finishStateMutation
      rw [if_neg (hs.named m hm)]
      dsimp only
      unfold Table.finish
      rw [if_pos (hs.states.owned m hm)]
  | notFound id b => exact Or.inl ⟨by rw [hafter.1]; rfl, rfl⟩

theorem dated_step (hs : GuardedSystem s) (h : Dated s g) (hstep : s.step e = some s') :
    Dated s' (g.enter s.clock (s.stateOccurrence e)) := by
  have hclock := step_clock hstep
  have hchange := h.clock
  have hepoch := epoch_after (g := g) hs (step_states hstep)
  constructor
  · omega
  · intro x hx epoch began hl
    rcases listing_step hstep hx hl with ⟨y, hy, hold⟩ | ⟨rfl, hnew⟩ | ⟨-, hnew⟩
    · obtain ⟨hbegan, hle, hiff⟩ := h.lists y hy epoch began hold
      omega
    · obtain ⟨rfl, rfl⟩ := Listing.states.inj hnew
      obtain ⟨h1, h2⟩ | ⟨h1, h2⟩ := hepoch
      · omega
      · exact absurd h2 (by
          simp only [System.stateOccurrence, StateLedger.enter]
          omega)
    · exact absurd hnew (by simp)

end Stale

section Safety

variable {s s' : System} {g : StateLedger} {e : Event}

/-- The invariant of the runs. -/
structure LedgerInv (x : System × StateLedger) : Prop where
  guarded : GuardedSystem x.1
  follows : Follows x.1 x.2
  dated : Dated x.1 x.2

theorem ledgerInv_start (backends : List Backend) (cooldown : Nat) :
    LedgerInv (System.start backends cooldown, StateLedger.start) where
  guarded := guarded_start backends cooldown
  follows :=
    ⟨fun _ => ⟨rfl, rfl, rfl⟩, by simp [System.start, System.stateMutations], fun _ => rfl⟩
  dated := ⟨Nat.le_refl 0, by simp [System.start]⟩

theorem ledgerInv_step {x y : System × StateLedger} (h : LedgerInv x)
    (hstep : ledgerStep x e = some y) : LedgerInv y := by
  obtain ⟨s', hs', rfl⟩ := Option.map_eq_some_iff.mp hstep
  refine ⟨guarded_step h.guarded hs', ?_, dated_step h.guarded h.dated hs'⟩
  refine follows_after h.guarded h.follows (fun epoch began r ho => ?_) (step_states hs')
  obtain ⟨y, hy, hl⟩ := listing_of_observed_states ho
  exact (h.dated.lists y hy epoch began hl).2.2

/-- A state that may be served is confirmed by the latest evidence. -/
theorem confirms_of_ready (h : Follows s g) {id : String} (hid : id ≠ "") {b : Nat}
    (hready : s.scheduler.stateReady id b = true) :
    (g.ledgers id).opened = false ∧ (g.ledgers id).current.deleted = false ∧
      (g.ledgers id).current.Confirms b := by
  unfold Scheduler.stateReady at hready
  rw [if_neg hid] at hready
  have htracks := h.current id
  have hopened := h.opened id
  cases hcell : s.scheduler.states.cells id with
  | none =>
      rw [hcell] at hready
      exact absurd hready (by simp)
  | some cell =>
      rw [hcell] at hready hopened htracks
      simp only [Bool.and_eq_true, Bool.not_eq_true'] at hready
      obtain ⟨⟨hactive, hdeleted⟩, hready⟩ := hready
      exact ⟨hopened.trans hactive, htracks.1.symm.trans hdeleted,
        htracks.2.2.2.2 b hready⟩

/-- What holds of the requests with a state, and of lists. -/
structure StatesSafe (s : System) (g : StateLedger) : Prop where
  routed :
    ∀ now bsz session id adapterId adapterVersion b scheduler, id ≠ "" →
      s.scheduler.acquireWithAdapter now bsz session id adapterId adapterVersion =
        .ok (b, scheduler) →
      (g.ledgers id).opened = false ∧ (g.ledgers id).current.deleted = false ∧
        (g.ledgers id).current.Confirms b
  stale :
    ∀ k epoch began r s', s.stateOccurrence (.next k) = .observed epoch began r →
      began < g.lastChange → s.step (.next k) = some s' →
      ∀ id b, s'.scheduler.stateReady id b = s.scheduler.stateReady id b

theorem statesSafe_of_inv (h : LedgerInv (s, g)) : StatesSafe s g where
  routed := by
    intro now bsz session id adapterId adapterVersion b scheduler hid hacquire
    exact confirms_of_ready h.follows hid (Scheduler.acquireWithAdapter_ready hacquire).1
  stale := by
    intro k epoch began r s' ho hstale hstep id b
    obtain ⟨y, hy, hl⟩ := listing_of_observed_states ho
    have hiff := (h.dated.lists y hy epoch began hl).2.2
    have hafter := step_states hstep
    rw [ho] at hafter
    have hepoch : s.scheduler.states.epoch ≠ epoch := by
      intro heq
      have := hiff.mp heq.symm
      dsimp only at this
      omega
    have hsame : s'.scheduler.states = s.scheduler.states := by
      rw [hafter.1, observeStateList_states]
      split
      · rfl
      · rw [if_pos hepoch]
    unfold Scheduler.stateReady
    rw [hsame]

/-- In every run, requests are routed by evidence that counts. -/
theorem placement_safe {backends : List Backend} {cooldown : Nat} {es : List Event}
    (hrun : exec ledgerStep (System.start backends cooldown, StateLedger.start) es =
      some (s, g)) :
    StatesSafe s g :=
  statesSafe_of_inv
    (exec_invariant_all (I := LedgerInv) (fun _ _ _ h hs => ledgerInv_step h hs)
      (ledgerInv_start backends cooldown) hrun)

end Safety

section Examples

/-- Evidence as it comes in. -/
inductive Evidence where
  | upload (id : String) (b : Nat)
  | list (b began : Nat) (items : List ListedState)

/-- All evidence, the latest first, and when the mutations of an id ended last. -/
structure History where
  evidence : List Evidence
  finished : String → Nat

def History.enter (h : History) (clock : Nat) : StateOccurrence → History
  | .acknowledged m r => { h with evidence := .upload m.id r.backend :: h.evidence }
  | .observed _ began r =>
      match validStates r with
      | some items => { h with evidence := .list r.backend began items :: h.evidence }
      | none => h
  | .finished m _ => { h with finished := Function.update h.finished m.id (clock + 1) }
  | _ => h

/-- The latest upload of the id, or list since its last mutation ended, confirms it. -/
def History.confirmed (h : History) (id : String) (b : Nat) : Bool :=
  match h.evidence.find? (fun x =>
    match x with
    | .upload id' b' => id' = id && b' = b
    | .list b' began _ => b' = b && h.finished id ≤ began) with
  | some (.upload _ _) => true
  | some (.list _ _ items) => (listedInfo items id).isSome
  | none => false

def historyStep (x : System × History) (e : Event) : Option (System × History) :=
  (x.1.step e).map (fun t => (t, x.2.enter x.1.clock (x.1.stateOccurrence e)))

/-- A list of the example state. -/
def stateList : Response :=
  ⟨200, [], { Body.empty with stateList := some ("list", some [exampleState]) }, none⟩

/-- A definitive rejection. -/
def rejection : Response :=
  ⟨400, [], Body.empty, none⟩

/-- A refresh that finds the example state. -/
def refreshRun : List Event :=
  [.listStates, .send 0, .answer 0 [stateList], .next 0, .finish 0]

/-- A deletion of the example state that is rejected. -/
def rejectedRun : List Event :=
  [.beginState "s" true, .send 0, .answer 0 [rejection], .next 0, .finish 0]

/-- One backend. -/
def oneBackend : List Backend :=
  [⟨"a", 1, 0, 0⟩]

theorem placement_safe_refreshed :
    ∃ s g, exec ledgerStep (System.start oneBackend 0, StateLedger.start) refreshRun =
        some (s, g) ∧
      s.scheduler.stateReady "s" 0 = true ∧ StatesSafe s g :=
  ⟨_, _, rfl, rfl,
    placement_safe
      (show exec ledgerStep (System.start oneBackend 0, StateLedger.start) refreshRun =
        some (_, _) from rfl)⟩

/-- After a rejected deletion the list from before it still counts. -/
theorem rejected_deletion_routes :
    ∃ s h scheduler,
      exec historyStep (System.start oneBackend 0, ⟨[], fun _ => 0⟩)
          (refreshRun ++ rejectedRun) = some (s, h) ∧
        s.scheduler.acquireWithAdapter 0 1 "" "s" "" "" = .ok (0, scheduler) ∧
        h.confirmed "s" 0 = false := by
  have hlast : (exec historyStep (System.start oneBackend 0, ⟨[], fun _ => 0⟩)
      (refreshRun ++ rejectedRun)).map (fun x =>
        ((x.1.scheduler.acquireWithAdapter 0 1 "" "s" "" "").map Prod.fst,
          x.2.confirmed "s" 0)) = some (.ok 0, false) := by decide +kernel
  obtain ⟨⟨s, h⟩, hrun, heq⟩ := Option.map_eq_some_iff.mp hlast
  obtain ⟨hroute, hconfirmed⟩ := Prod.mk.inj heq
  obtain ⟨scheduler, hacquire⟩ := Scheduler.exists_of_map_fst hroute
  exact ⟨s, h, scheduler, hrun, hacquire, hconfirmed⟩

end Examples

end Router
end RwkvLightning

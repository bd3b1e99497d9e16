import RwkvLightning.Inference.DecodeSchedulerSeats
import Mathlib

/-!
# New slots for the rows of a group

**Results.**
* `triple_sweepSeats`: the rows that stay have their cells, those that pause wait with them.
* `triple_fillSlots`: the new slots have the cells of the rows.
* `triple_rebuildSeats`: `rebuild` keeps what every row has.
-/

namespace RwkvLightning
namespace DecodeScheduler

open Backend Text Command
open DecodeRow (Progress Counted Live Ended)

variable {α ρ ℓ κ σ : Type} {s t u : Shared α ρ ℓ κ σ} {r : Nat}
variable {e : Engine α ρ ℓ κ σ} {laws : Laws e}

section Sweep

variable {g : Group α ρ ℓ κ σ} {sampled allowPause : Bool} {rows : List Nat}

/-- A row that keeps its slot. -/
structure Stays (laws : Laws e) (sampled : Bool) (g : Group α ρ ℓ κ σ) (t : Shared α ρ ℓ κ σ)
    (l : Nat × Option Nat) (slot : Nat) (c : Cell ρ ℓ σ) : Prop where
  old : l.2 = some slot
  row : g.rows[slot]? = some l.1
  holds : Holds g slot c
  seat : laws.Seat sampled t l.1 c
  goes : (t.rows l.1).finished = false

/-- What the clients handed over stays, and the rows stay the lanes that they are. -/
structure SameLanes (s t : Shared α ρ ℓ κ σ) : Prop where
  submission : ∀ q, (t.requests q).submission = (s.requests q).submission
  request : ∀ r, t.requestOf r = s.requestOf r
  index : ∀ r, (t.rows r).index = (s.rows r).index

/-- The rows of a group where its work was interrupted; the request of one of them may have
lost its metadata. -/
structure TornSeats (laws : Laws e) (members : List Nat) (s t : Shared α ρ ℓ κ σ) : Prop where
  lanes : SameLanes s t
  others : ∀ r ∉ members, r < s.rowCount → Preserves r s t
  texts : ∀ r ∈ members, t.isOpen r = true → laws.Textual t r
  healthy : ∃ broken, Healthy laws broken t ∧
    ∀ q, broken q → ∃ r ∈ members, t.isOpen r = true ∧ t.requestOf r = q

theorem SameLanes.refl (s : Shared α ρ ℓ κ σ) : SameLanes s s :=
  ⟨fun _ => rfl, fun _ => rfl, fun _ => rfl⟩

theorem SameLanes.trans (hst : SameLanes s t) (htu : SameLanes t u) : SameLanes s u where
  submission := fun q => (htu.submission q).trans (hst.submission q)
  request := fun r => (htu.request r).trans (hst.request r)
  index := fun r => (htu.index r).trans (hst.index r)

theorem SameLanes.subOf (h : SameLanes s t) (r : Nat) : t.subOf r = s.subOf r := by
  rw [Shared.subOf, h.request]
  exact h.submission _

theorem Acts.lanes (h : Acts r s t) : SameLanes s t where
  submission := fun q => by
    obtain ⟨_, hown⟩ := h.elsewhere q
    exact hown.submission
  request := h.request_eq
  index := h.index_eq

theorem Laws.Seat.finished_follows {c : Cell ρ ℓ σ} (h : laws.Seat sampled s r c)
    (hfollows : Follows r s t) :
    laws.Seat sampled t r c ∧ (t.rows r).finished = (s.rows r).finished := by
  obtain ⟨_, hrow⟩ := hfollows.row
  exact ⟨h.follows hfollows, by rw [hrow]⟩

theorem Stays.follows {l : Nat × Option Nat} {slot : Nat} {c : Cell ρ ℓ σ}
    (h : Stays laws sampled g s l slot c) (hfollows : Follows l.1 s t) :
    Stays laws sampled g t l slot c := by
  obtain ⟨hseat, hfinished⟩ := h.seat.finished_follows hfollows
  exact { h with seat := hseat, goes := hfinished.trans h.goes }

end Sweep

section Enter

variable {rows : List Nat}

/-- A row that waits may be completed where it is cancelled or has nothing to do. -/
theorem Laws.Waiting.left (h : laws.Waiting s r)
    (hcause : s.isCancelled r = true ∨ (s.subOf r).options.maxTokens ≤ 0) :
    laws.Left (complete s r) r := by
  obtain ⟨x, row, htraces, hstored, -, hrow⟩ := h
  have hclosable : laws.IsClosable (s.subOf r) x row := by
    rcases hrow with hlive | ⟨-, hclosable⟩
    · exact closable_counted hlive.toCounted
    · exact hclosable
  refine left_complete htraces hclosable (hcause.imp_right fun hmax => Or.inl ?_)
    fun _ => ⟨row.step, Or.inl rfl, hstored⟩
  exact hmax.trans (Int.natCast_nonneg _)

/-- A row that comes in and waits for its first slot, or for another one. -/
structure Enters (laws : Laws e) (s : Shared α ρ ℓ κ σ) (r : Nat) : Prop where
  waits : laws.Waiting s r
  positive : 0 < (s.subOf r).options.maxTokens
  fine : (s.requests (s.requestOf r)).error = none

end Enter

section Fill

variable {g : Group α ρ ℓ κ σ} {i n : Nat} {b : Slots α ρ ℓ σ} {l : Nat × Option Nat}

/-- Where a new slot takes the state of its row from. -/
def sourceState (g : Group α ρ ℓ κ σ) (s : Shared α ρ ℓ κ σ) :
    Nat × Option Nat → GenerationState α ρ
  | (_, some _) => g.state
  | (r, none) => (s.requests (s.requestOf r)).state

def sourceLogits (g : Group α ρ ℓ κ σ) (s : Shared α ρ ℓ κ σ) : Nat × Option Nat → DeviceLogits ℓ
  | (_, some _) => g.logits
  | (r, none) => (s.requests (s.requestOf r)).logits

def sourceRow (s : Shared α ρ ℓ κ σ) : Nat × Option Nat → Nat
  | (_, some slot) => slot
  | (r, none) => (s.rows r).index

def sourceSampler (g : Group α ρ ℓ κ σ) (s : Shared α ρ ℓ κ σ) : Nat × Option Nat → Option σ
  | (_, some slot) => g.sampler[slot]?
  | (r, none) => (s.rows r).savedSampler

/-- A cell for the row; a row that never had a slot gets a new sampler. -/
structure Fitting (e : Engine α ρ ℓ κ σ) (g : Group α ρ ℓ κ σ) (s : Shared α ρ ℓ κ σ)
    (l : Nat × Option Nat) (c : Cell ρ ℓ σ) : Prop where
  state : (sourceState g s l).rows[sourceRow s l]? = some c.state
  logits : (sourceLogits g s l).rows[sourceRow s l]? = some c.logits
  sampler : sourceSampler g s l = some c.sampler ∨
    sourceSampler g s l = none ∧ IsFresh e c.sampler

/-- There is something to take. -/
structure Source (e : Engine α ρ ℓ κ σ) (g : Group α ρ ℓ κ σ) (s : Shared α ρ ℓ κ σ)
    (l : Nat × Option Nat) : Prop where
  state : sourceRow s l < (sourceState g s l).rows.length
  logits : sourceRow s l < (sourceLogits g s l).rows.length
  wkv32 : (sourceState g s l).wkv32 = e.model.wkv32
  sampler : l.2 ≠ none → sourceSampler g s l ≠ none

/-- The slots have room for `n` rows. -/
structure Room (m : Model α ρ ℓ) (n : Nat) (b : Slots α ρ ℓ σ) : Prop where
  state : b.state.rows.length = n
  logits : b.logits.rows.length = n
  sampler : b.sampler.length = n
  wkv32 : b.state.wkv32 = m.wkv32

/-- The state and the logits of one slot were filled. -/
structure Packs (src : GenerationState α ρ) (logits : DeviceLogits ℓ) (k i : Nat)
    (b b' : Slots α ρ ℓ σ) : Prop where
  state : ∃ state, src.rows[k]? = some state ∧ b'.state.rows = b.state.rows.set i state
  logits : ∃ row, logits.rows[k]? = some row ∧ b'.logits.rows = b.logits.rows.set i row
  identity : b'.state.identity = src.identity
  wkv32 : b'.state.wkv32 = b.state.wkv32

/-- One slot was filled. -/
structure Fills (g : Group α ρ ℓ κ σ) (s : Shared α ρ ℓ κ σ) (i : Nat) (l : Nat × Option Nat)
    (b b' : Slots α ρ ℓ σ) : Prop extends
    Packs (sourceState g s l) (sourceLogits g s l) (sourceRow s l) i b b' where
  sampler : b'.sampler = (sourceSampler g s l).elim b.sampler (b.sampler.set i)

theorem SameTables.refl (s : Shared α ρ ℓ κ σ) : SameTables s s :=
  ⟨rfl, rfl, rfl, rfl⟩

/-- What a slot has. -/
structure Has (b : Slots α ρ ℓ σ) (i : Nat) (c : Cell ρ ℓ σ) : Prop where
  state : b.state.rows[i]? = some c.state
  logits : b.logits.rows[i]? = some c.logits
  sampler : b.sampler[i]? = some c.sampler

/-- The samplers from the slot `i` on are new. -/
def FreshFrom (e : Engine α ρ ℓ κ σ) (i : Nat) (b : Slots α ρ ℓ σ) : Prop :=
  ∀ j, i ≤ j → ∀ x, b.sampler[j]? = some x → IsFresh e x

/-- The slots from `i` on were filled for the rows `live`. -/
structure Filled (e : Engine α ρ ℓ κ σ) (g : Group α ρ ℓ κ σ) (s : Shared α ρ ℓ κ σ) (n i : Nat)
    (live : List (Nat × Option Nat)) (b b' : Slots α ρ ℓ σ) : Prop where
  room : Room e.model n b'
  before : ∀ j < i, ∀ c, Has b j c → Has b' j c
  cells : ∀ k l, live[k]? = some l → ∃ c, Fitting e g s l c ∧ Has b' (i + k) c
  identity : b'.state.identity = b.state.identity ∧ live = [] ∨
    ∃ l ∈ live, b'.state.identity = (sourceState g s l).identity

variable {b' : Slots α ρ ℓ σ} {l' : Nat × Option Nat}

/-- A row that nothing has changed is filled from the same place. -/
theorem source_congr (hrequests : t.requests = s.requests) (hrow : t.rows l'.1 = s.rows l'.1) :
    sourceState g t l' = sourceState g s l' ∧ sourceLogits g t l' = sourceLogits g s l' ∧
      sourceRow t l' = sourceRow s l' ∧ sourceSampler g t l' = sourceSampler g s l' := by
  obtain ⟨r, _ | slot⟩ := l'
  · have hown : t.rows r = s.rows r := hrow
    unfold sourceState sourceLogits sourceRow sourceSampler Shared.requestOf
    dsimp only
    rw [hown, hrequests]
    exact ⟨rfl, rfl, rfl, rfl⟩
  · exact ⟨rfl, rfl, rfl, rfl⟩

theorem Source.congr (hl : Source e g s l') (hrequests : t.requests = s.requests)
    (hown : t.rows l'.1 = s.rows l'.1) : Source e g t l' := by
  obtain ⟨hstate, hlogits, hrow, hsampler⟩ := source_congr (g := g) hrequests hown
  refine ⟨?_, ?_, ?_, ?_⟩
  · rw [hstate, hrow]
    exact hl.state
  · rw [hlogits, hrow]
    exact hl.logits
  · rw [hstate]
    exact hl.wkv32
  · rw [hsampler]
    exact hl.sampler

theorem Fitting.congr {c : Cell ρ ℓ σ} (hl : Fitting e g t l' c)
    (hrequests : t.requests = s.requests) (hown : t.rows l'.1 = s.rows l'.1) :
    Fitting e g s l' c := by
  obtain ⟨hstate, hlogits, hrow, hsampler⟩ := source_congr (g := g) hrequests hown
  refine ⟨?_, ?_, ?_⟩
  · rw [← hstate, ← hrow]
    exact hl.state
  · rw [← hlogits, ← hrow]
    exact hl.logits
  · rw [← hsampler]
    exact hl.sampler

theorem Fills.sampler_ne (h : Fills g s i l b b') {j : Nat} (hj : j ≠ i) :
    b'.sampler[j]? = b.sampler[j]? := by
  rw [h.sampler]
  cases sourceSampler g s l with
  | none => rfl
  | some saved => exact List.getElem?_set_ne hj.symm

theorem Fills.room (h : Fills g s i l b b') (hb : Room e.model n b) : Room e.model n b' := by
  obtain ⟨_, -, hstate⟩ := h.state
  obtain ⟨_, -, hlogits⟩ := h.logits
  refine ⟨?_, ?_, ?_, h.wkv32.trans hb.wkv32⟩
  · rw [hstate, List.length_set, hb.state]
  · rw [hlogits, List.length_set, hb.logits]
  · rw [h.sampler, ← hb.sampler]
    cases sourceSampler g s l with
    | none => rfl
    | some saved => exact List.length_set

theorem Fills.before (h : Fills g s i l b b') {j : Nat} (hj : j < i) {c : Cell ρ ℓ σ}
    (hc : Has b j c) : Has b' j c := by
  obtain ⟨_, -, hstate⟩ := h.state
  obtain ⟨_, -, hlogits⟩ := h.logits
  refine ⟨?_, ?_, (h.sampler_ne (Nat.ne_of_lt hj)).trans hc.sampler⟩
  · rw [hstate, List.getElem?_set_ne (Nat.ne_of_gt hj), hc.state]
  · rw [hlogits, List.getElem?_set_ne (Nat.ne_of_gt hj), hc.logits]

/-- The cell of the slot that was filled. -/
theorem Fills.cell (h : Fills g s i l b b') (hb : Room e.model n b) (hi : i < n)
    (hfresh : FreshFrom e i b) : ∃ c, Fitting e g s l c ∧ Has b' i c := by
  obtain ⟨state, hsource, hstate⟩ := h.state
  obtain ⟨logits, hsource', hlogits⟩ := h.logits
  have hstate' : b'.state.rows[i]? = some state := by
    rw [hstate, List.getElem?_set_self (hb.state.symm ▸ hi)]
  have hlogits' : b'.logits.rows[i]? = some logits := by
    rw [hlogits, List.getElem?_set_self (hb.logits.symm ▸ hi)]
  have hlt : i < b.sampler.length := hb.sampler.symm ▸ hi
  have hsampler := h.sampler
  cases hsaved : sourceSampler g s l with
  | none =>
      rw [hsaved] at hsampler
      have hkept : b'.sampler[i]? = some b.sampler[i] := by
        rw [hsampler]
        exact List.getElem?_eq_getElem hlt
      have hnew := hfresh i (Nat.le_refl i) b.sampler[i] (List.getElem?_eq_getElem hlt)
      exact ⟨⟨state, logits, b.sampler[i]⟩, ⟨hsource, hsource', Or.inr ⟨hsaved, hnew⟩⟩,
        ⟨hstate', hlogits', hkept⟩⟩
  | some saved =>
      rw [hsaved] at hsampler
      have hmoved : b'.sampler[i]? = some saved := by
        rw [hsampler]
        exact List.getElem?_set_self hlt
      exact ⟨⟨state, logits, saved⟩, ⟨hsource, hsource', Or.inl hsaved⟩,
        ⟨hstate', hlogits', hmoved⟩⟩

end Fill

section Regroup

variable {g g' : Group α ρ ℓ κ σ} {sampled : Bool} {c : Cell ρ ℓ σ} {l : Nat × Option Nat}
variable {live : List (Nat × Option Nat)}

/-- The slots of a group have the cells of its rows. -/
structure Aligned (laws : Laws e) (sampled : Bool) (s : Shared α ρ ℓ κ σ)
    (g : Group α ρ ℓ κ σ) : Prop where
  state : g.state.rows.length = g.rows.length
  logits : g.logits.rows.length = g.rows.length
  sampler : g.sampler.length = g.rows.length
  options : g.rows ≠ [] → g.options = g.rows.map fun r => (s.subOf r).options
  ready : g.rows ≠ [] → Ready e.model g.state
  adapter : g.rows ≠ [] → g.state.identity.adapterIdentity = g.adapter
  seats : ∀ k r, g.rows[k]? = some r → ∃ c, Holds g k c ∧ laws.Seat sampled s r c

/-- The client of a row handed over a state with the key of the group. -/
structure Keyed (s : Shared α ρ ℓ κ σ) (g : Group α ρ ℓ κ σ) (r : Nat) : Prop where
  adapter : (s.subOf r).state.identity.adapterIdentity = g.adapter
  wkv32 : (s.subOf r).state.wkv32 = g.wkv32

/-- A row that gets a slot. -/
def Gets (laws : Laws e) (sampled : Bool) (g : Group α ρ ℓ κ σ) (s : Shared α ρ ℓ κ σ)
    (l : Nat × Option Nat) : Prop :=
  (∃ slot c, Stays laws sampled g s l slot c) ∨ l.2 = none ∧ sampled = false ∧ Enters laws s l.1

/-- A row takes up its slot; before it had one it has no sampler, and gets a new one. -/
theorem Laws.Waiting.seat (h : laws.Waiting s r) (hmax : 0 < (s.subOf r).options.maxTokens)
    (hfits : Fitting e g s (r, none) c) :
    laws.Seat false s r c ∧ (s.rows r).finished = false := by
  obtain ⟨x, row, htraces, hstored, hsaved, hrow⟩ := h
  have hlive : laws.IsLive (s.subOf r) x row :=
    hrow.resolve_right fun hidle => absurd hmax (Int.not_lt.mpr hidle.1)
  have hfinished : row.finished = false := hlive.finished
  refine ⟨?_, htraces.views.same.finished.symm.trans hfinished⟩
  have hstate := Option.some.inj (hfits.state.symm.trans hstored.state)
  have hlogits := Option.some.inj (hfits.logits.symm.trans hstored.logits)
  rcases hsaved with hsaved | ⟨hnone, hzero⟩
  · have hsampler : some c.sampler = some (laws.cellAt x row.step).sampler := by
      rcases hfits.sampler with hown | ⟨hnone, -⟩
      · exact hown.symm.trans hsaved
      · exact nomatch hnone.symm.trans hsaved
    refine ⟨x, row, htraces, Or.inr ⟨hfinished, hlive, ?_⟩⟩
    cases c
    cases hstate
    cases hlogits
    cases hsampler
    rfl
  · have hfresh : IsFresh e c.sampler := by
      rcases hfits.sampler with hown | ⟨-, hfresh⟩
      · exact nomatch hown.symm.trans hnone
      · exact hfresh
    let x' : Origin α ρ ℓ κ σ := { x with start := c }
    have htokens : laws.tokens x' row.step = laws.tokens x row.step := by
      rw [hzero]
      rfl
    rw [hzero] at hstate hlogits
    have horigin : IsOrigin e (s.subOf r) (s.rows r).index x' :=
      { adapter := htraces.origin.adapter
        sampling := htraces.origin.sampling
        state := htraces.origin.state.trans (congrArg some hstate.symm)
        logits := htraces.origin.logits.trans (congrArg some hlogits.symm)
        sampler := hfresh }
    refine ⟨x', row, ⟨htraces.views, horigin⟩, Or.inr ⟨hfinished, ?_, ?_⟩⟩
    · rw [Laws.IsLive, htokens]
      exact hlive
    · rw [hzero]
      rfl

theorem Stays.cell {slot : Nat} {c' : Cell ρ ℓ σ} (h : Stays laws sampled g s l slot c)
    (hfits : Fitting e g t l c') : c' = c := by
  obtain ⟨r, old⟩ := l
  obtain rfl : old = some slot := h.old
  have hstate := Option.some.inj (hfits.state.symm.trans h.holds.state)
  have hlogits := Option.some.inj (hfits.logits.symm.trans h.holds.logits)
  have hsampler : some c'.sampler = some c.sampler := by
    rcases hfits.sampler with hown | ⟨hnone, -⟩
    · exact hown.symm.trans h.holds.sampler
    · exact nomatch hnone.symm.trans h.holds.sampler
  cases c
  cases c'
  cases hstate
  cases hlogits
  cases hsampler
  rfl

theorem Gets.seat (h : Gets laws sampled g s l) (hfits : Fitting e g s l c)
    (hfollows : Follows l.1 s t) :
    laws.Seat sampled t l.1 c ∧ (t.rows l.1).finished = false := by
  have hseat : laws.Seat sampled s l.1 c ∧ (s.rows l.1).finished = false := by
    rcases h with ⟨slot, c', hstays⟩ | ⟨hnone, rfl, henters⟩
    · rw [hstays.cell hfits]
      exact ⟨hstays.seat, hstays.goes⟩
    · obtain ⟨r, old⟩ := l
      obtain rfl : old = none := hnone
      exact henters.waits.seat henters.positive hfits
  obtain ⟨hseat', hfinished⟩ := hseat.1.finished_follows hfollows
  exact ⟨hseat', hfinished.trans hseat.2⟩

/-- The state that a slot is filled from. -/
theorem Gets.ready (h : Gets laws sampled g s l) (hs : Tallied s) (hwhole : Whole laws s)
    (hlt : l.1 < s.rowCount) (hkeyed : Keyed s g l.1)
    (hready : g.rows ≠ [] → Ready e.model g.state)
    (hadapter : g.rows ≠ [] → g.state.identity.adapterIdentity = g.adapter) :
    Ready e.model (sourceState g s l) ∧
      (sourceState g s l).identity.adapterIdentity = g.adapter := by
  obtain ⟨r, old⟩ := l
  rcases h with ⟨slot, c, hstays⟩ | ⟨hnone, -, henters⟩
  · obtain rfl : old = some slot := hstays.old
    have hne : g.rows ≠ [] := List.ne_nil_of_mem (List.mem_of_getElem? hstays.row)
    exact ⟨hready hne, hadapter hne⟩
  · obtain rfl : old = none := hnone
    have hsound := hwhole.sound hs hlt
    have hidentity := hsound.identity henters.fine not_false
    refine ⟨hsound.prefilled.ready.congr hidentity hsound.bound.wkv32, ?_⟩
    rw [sourceState, hidentity]
    exact hkeyed.adapter

theorem Gets.source (h : Gets laws sampled g s l)
    (hready : Ready e.model (sourceState g s l)) : Source e g s l := by
  obtain ⟨r, old⟩ := l
  rcases h with ⟨slot, c, hstays⟩ | ⟨hnone, -, henters⟩
  · obtain rfl : old = some slot := hstays.old
    refine ⟨(List.getElem?_eq_some_iff.mp hstays.holds.state).1,
      (List.getElem?_eq_some_iff.mp hstays.holds.logits).1, hready.wkv32, fun _ hnone => ?_⟩
    exact nomatch hnone.symm.trans hstays.holds.sampler
  · obtain rfl : old = none := hnone
    obtain ⟨_, _, _, hstored, -⟩ := henters.waits
    exact ⟨(List.getElem?_eq_some_iff.mp hstored.state).1,
      (List.getElem?_eq_some_iff.mp hstored.logits).1, hready.wkv32,
      fun hne => absurd rfl hne⟩

theorem Idles.follows {rows : List Nat} (h : Idles rows s t) (r : Nat) : Follows r s t :=
  follows_requests h.requests (h.row r)

end Regroup

section Rebuild

variable {g g' : Group α ρ ℓ κ σ} {sampled allowPause : Bool} {others : List Nat}

/-- A group whose slots have the cells of its rows, and whose incoming rows wait. -/
structure Manned (laws : Laws e) (sampled : Bool) (s : Shared α ρ ℓ κ σ)
    (g : Group α ρ ℓ κ σ) : Prop where
  aligned : Aligned laws sampled s g
  incoming : ∀ r ∈ g.incoming, laws.Waiting s r
  keyed : ∀ r ∈ g.members, Keyed s g r

/-- The loops of `rebuild` over the rows of a group. -/
structure LoopedSeats (laws : Laws e) (sampled : Bool) (g : Group α ρ ℓ κ σ)
    (live : List (Nat × Option Nat)) (s t : Shared α ρ ℓ κ σ) : Prop where
  whole : Whole laws t
  lanes : SameLanes s t
  others : ∀ r ∉ g.members, r < s.rowCount → Preserves r s t
  gets : ∀ l ∈ live, Gets laws sampled g t l
  waits : ∀ r ∈ g.members, t.isOpen r = true → r ∉ live.map Prod.fst → laws.Waiting t r

theorem Keyed.lanes (h : Keyed s g r) (hlanes : SameLanes s t) : Keyed t g r where
  adapter := by
    rw [hlanes.subOf]
    exact h.adapter
  wkv32 := by
    rw [hlanes.subOf]
    exact h.wkv32

theorem Idles.lanes {rows : List Nat} (h : Idles rows s t) : SameLanes s t where
  submission := fun q => by rw [h.requests]
  request := h.request_eq
  index := fun r => by
    obtain ⟨_, hrow⟩ := h.row r
    rw [hrow]

theorem Idles.preserves {rows : List Nat} (h : Idles rows s t) (hr : r ∉ rows) :
    Preserves r s t :=
  preserves_later (h.outside r hr) fun q => by rw [h.requests]; exact Later.refl _

/-- Samplers that are moved between open rows and their slots. -/
theorem Healthy.idle {broken : Nat → Prop} {rows : List Nat} (h : Healthy laws broken s)
    (hidle : Idles rows s t) (hopens : ∀ r ∈ rows, s.isOpen r = true) :
    Healthy laws broken t where
  requests := fun q hq => by
    rw [hidle.requests]
    exact h.requests q (hidle.requestCount ▸ hq)
  left := fun r hr hclosed => by
    rw [hidle.isOpen_eq] at hclosed
    refine (h.left r (hidle.rowCount ▸ hr) hclosed).preserves (hidle.preserves fun hmem => ?_)
    rw [hopens r hmem] at hclosed
    cases hclosed

theorem LoopedSeats.torn {live : List (Nat × Option Nat)} {rows : List Nat}
    (h : LoopedSeats laws sampled g live s t) (hsub : live.map Prod.fst ⊆ g.members)
    (hopens : ∀ r ∈ live.map Prod.fst, t.isOpen r = true) (hidle : Idles rows t u)
    (hrows : rows ⊆ live.map Prod.fst) : TornSeats laws g.members s u where
  lanes := h.lanes.trans hidle.lanes
  others := fun r hr hlt =>
    (h.others r hr hlt).trans (hidle.preserves fun hmem => hr (hsub (hrows hmem)))
  texts := fun r hr hopen => by
    rw [hidle.isOpen_eq] at hopen
    have htextual : laws.Textual t r := by
      by_cases hlive : r ∈ live.map Prod.fst
      · obtain ⟨l, hl, rfl⟩ := List.mem_map.mp hlive
        rcases h.gets l hl with ⟨_, _, hstays⟩ | ⟨-, -, henters⟩
        · exact hstays.seat.textual
        · exact henters.waits.textual
      · exact (h.waits r hr hopen hlive).textual
    exact htextual.follows (hidle.follows r)
  healthy := ⟨fun _ => False, h.whole.idle hidle fun r hr => hopens r (hrows hr),
    fun _ hbad => hbad.elim⟩

/-- The rows of a group that pause or leave are in order where the sweep throws. -/
theorem TornSeats.members (h : TornSeats laws g.rows s t) (hquiet : Quiet others s g.members)
    (hincoming : ∀ r ∈ g.incoming, laws.Waiting s r) : TornSeats laws g.members s t where
  lanes := h.lanes
  others := fun r hr hlt => h.others r (fun hmem => hr (List.mem_append_left _ hmem)) hlt
  texts := fun r hr hopen => by
    by_cases hrow : r ∈ g.rows
    · exact h.texts r hrow hopen
    · have hin : r ∈ g.incoming := (List.mem_append.mp hr).resolve_left hrow
      exact ((hincoming r hin).preserves (h.others r hrow (hquiet.lt hr))).textual
  healthy := by
    obtain ⟨broken, hhealthy, hbroken⟩ := h.healthy
    refine ⟨broken, hhealthy, fun q hq => ?_⟩
    obtain ⟨r, hr, hrest⟩ := hbroken q hq
    exact ⟨r, List.mem_append_left _ hr, hrest⟩

/-- A group that keeps its rows keeps their slots. -/
theorem LoopedSeats.same {live : List (Nat × Option Nat)} (h : LoopedSeats laws sampled g live s t)
    (hg : Aligned laws sampled s g) (hnodup : g.rows.Nodup) (hsame : live.map Prod.fst = g.rows)
    (hincoming : ∀ l ∈ live, l.2 = none → l.1 ∉ g.rows) :
    Aligned laws sampled t { g with incoming := [] } ∧
      ∀ r ∈ g.rows, (t.rows r).finished = false := by
  have hseats : ∀ k r, g.rows[k]? = some r →
      ∃ c, Holds g k c ∧ laws.Seat sampled t r c ∧ (t.rows r).finished = false := by
    intro k r hk
    have hk' := hk
    rw [← hsame, List.getElem?_map, Option.map_eq_some_iff] at hk'
    obtain ⟨l, hl, rfl⟩ := hk'
    have hmem := List.mem_of_getElem? hl
    rcases h.gets l hmem with ⟨slot, c, hstays⟩ | ⟨hnone, -, -⟩
    · obtain rfl : slot = k := by
        obtain ⟨hlt, heq⟩ := List.getElem?_eq_some_iff.mp hstays.row
        obtain ⟨hlt', heq'⟩ := List.getElem?_eq_some_iff.mp hk
        exact hnodup.getElem_inj_iff.mp (heq.trans heq'.symm)
      exact ⟨c, hstays.holds, hstays.seat, hstays.goes⟩
    · exact absurd (List.mem_of_getElem? hk) (hincoming l hmem hnone)
  refine ⟨⟨hg.state, hg.logits, hg.sampler, fun hne => ?_, hg.ready, hg.adapter, fun k r hk => ?_⟩,
    fun r hr => ?_⟩
  · refine (hg.options hne).trans (List.map_congr_left fun r _ => ?_)
    rw [h.lanes.subOf]
  · obtain ⟨c, hholds, hseat, -⟩ := hseats k r hk
    exact ⟨c, ⟨hholds.state, hholds.logits, hholds.sampler⟩, hseat⟩
  · obtain ⟨k, hk⟩ := List.mem_iff_getElem?.mp hr
    obtain ⟨_, -, -, hgoes⟩ := hseats k r hk
    exact hgoes

end Rebuild

end DecodeScheduler
end RwkvLightning

import RwkvLightning.Library.Execution
import RwkvLightning.Server.StateCacheView
import Mathlib.Data.Countable.Basic
import Mathlib.Logic.Equiv.List

/-!
# The session state cache: coherence and failure atomicity

Both properties are invariants of runs of the manager, from an empty database
through any number of shutdowns and initializations.

**Results.**
* `coherent_of_run`: without failures, `get_state` returns what was put last and
  not deleted since, up to `SameSession`, and nothing for other sessions; both
  levels stay in order and within their capacity.
* `intact_of_run`: with failures outside the harmful sites, no stored session is
  lost, no operation returns a wrong state, and no recency list is broken.

The sites that `harmful` names do break this: `putState_forgets` loses a session
that was put before, and `putState_dereferences_end` leads to undefined
behaviour.  `getState_normalizes` and `putState_ignores_empty` show where the
manager deviates from a plain map by design.
-/

namespace RwkvLightning
namespace StateCache

open Execution LinkedMap

section Expectations

/-- What the levels hold for a session that the history expects. -/
def Matches (expectation : Expectation) (found : Option GenerationState) : Prop :=
  match expectation with
  | .absent => found = none
  | .stored state => SameView (some state) found
  | .unknown => True

theorem Matches.sameView
    {expectation : Expectation} {found found' : Option GenerationState}
    (h : Matches expectation found) (hsame : SameView found found') :
    Matches expectation found' := by
  cases expectation with
  | absent =>
      have hnone : found = none := h
      subst hnone
      cases found' with
      | none => rfl
      | some state => exact hsame.elim
  | stored state => exact SameView.trans h hsame
  | unknown => trivial

theorem sameView_some
    {state : GenerationState} {found : Option GenerationState}
    (h : SameView (some state) found) :
    ∃ state', found = some state' ∧ SameSession state state' := by
  cases found with
  | none => exact h.elim
  | some state' => exact ⟨state', rfl, h⟩

theorem expected_append (log : List Record) (record : Record) (key : Key) :
    expected (log ++ [record]) key =
      Expectation.update key (expected log key) record := by
  simp [expected, List.foldl_append]

end Expectations

section Steps

variable {codec : IdentityCodec} {m m' : Manager} {e : Event}

/-- The session ids of the event have no NUL byte. -/
def NulFree : Event → Prop
  | .put key _ _ _ => 0 ∉ key
  | .get key _ _ => 0 ∉ key
  | .delete key => 0 ∉ key
  | _ => True

instance (e : Event) : Decidable (NulFree e) := by
  cases e <;> unfold NulFree <;> infer_instance

def Event.faults : Event → Faults
  | .put _ _ _ faults => faults
  | .get _ _ faults => faults
  | .shutdown _ faults => faults
  | _ => []

/-- No failure, except for those that the manager survives. -/
def SurvivableStep (_ : Manager) (e : Event) : Prop :=
  NulFree e ∧ Harmless e.faults

/-- No failure. -/
def FaultFreeStep (_ : Manager) (e : Event) : Prop :=
  NulFree e ∧ e.faults = []

instance (m : Manager) (e : Event) : Decidable (SurvivableStep m e) :=
  inferInstanceAs (Decidable (NulFree e ∧ Harmless e.faults))

instance (m : Manager) (e : Event) : Decidable (FaultFreeStep m e) :=
  inferInstanceAs (Decidable (NulFree e ∧ e.faults = []))

/-- The invariant of all runs whose failures are survivable. -/
structure Inv (codec : IdentityCodec) (m : Manager) : Prop where
  running : m.crashed = false
  ready : Ready codec m.store
  closed : m.initialized = false → m.store.l1 = .empty ∧ m.store.l2 = .empty
  named : ∀ key, expected m.log key ≠ .absent → key ≠ []
  views : ∀ key, ValidKey key →
    Matches (expected m.log key) (view codec m.store key)

/-- What holds in addition when nothing fails. -/
structure Settled (m : Manager) : Prop where
  bounded : Bounded m.store
  known : ∀ key, expected m.log key ≠ .unknown

theorem inv_new : Inv codec Manager.new :=
  { running := rfl
    ready :=
      { l1_linked := linked_empty
        l2_linked := linked_empty
        disjoint := by simp [Manager.new]
        l1_valid := by simp [Manager.new]
        l2_valid := by simp [Manager.new]
        rows := by
          intro key row hrow
          simp [Manager.new] at hrow }
    closed := fun _ => ⟨rfl, rfl⟩
    named := by simp [Manager.new, expected]
    views := by
      intro key _
      simp [Manager.new, expected, Matches, view, tableView] }

theorem settled_new : Settled Manager.new :=
  { bounded := ⟨by decide, by decide⟩
    known := by simp [Manager.new, expected] }

theorem Inv.initializeCache (h : Inv codec m) (l1Capacity l2Capacity : Nat) :
    Inv codec (m.initializeCache l1Capacity l2Capacity) := by
  unfold Manager.initializeCache
  split
  · exact h
  · exact
      { running := h.running
        ready := { h.ready with }
        closed := by simp
        named := h.named
        views := h.views }

theorem Settled.initializeCache
    (hinv : Inv codec m) (h : Settled m) (l1Capacity l2Capacity : Nat) :
    Settled (m.initializeCache l1Capacity l2Capacity) := by
  unfold Manager.initializeCache
  by_cases hinit : m.initialized = true
  · rw [if_pos hinit]
    exact h
  · rw [if_neg hinit]
    obtain ⟨hl1, hl2⟩ := hinv.closed (by simpa using hinit)
    exact
      { bounded :=
          { l1 := by simp [hl1, LinkedMap.size, LinkedMap.empty]
            l2 := by simp [hl2, LinkedMap.size, LinkedMap.empty] }
        known := h.known }

/-- The manager after `put_state`, when it does something. -/
theorem putState_eq
    {key : Key} (state : GenerationState) (now : Nat) (faults : Faults)
    (hinit : m.initialized = true) (hne : key ≠ []) :
    m.putState codec key state now faults =
      ({ m with
          store := (m.store.putState codec now faults key state).1
          crashed :=
            (m.store.putState codec now faults key state).2 = .undefined
          log := m.log ++
            [if (m.store.putState codec now faults key state).2 = .done then
              Record.put key state else .putFailed key] },
        (m.store.putState codec now faults key state).2) := by
  simp [Manager.putState, hinit, hne]

theorem getState_eq
    {key : Key} (now : Nat) (faults : Faults)
    (hinit : m.initialized = true) (hne : key ≠ []) :
    m.getState codec key now faults =
      ({ m with
          store := (m.store.getState codec now faults key).1
          crashed := (m.store.getState codec now faults key).2 = .undefined },
        (m.store.getState codec now faults key).2) := by
  simp [Manager.getState, hinit, hne]

theorem shutdown_eq
    (now : Nat) (faults : Faults) (hinit : m.initialized = true) :
    m.shutdown codec now faults =
      ({ m with
          store := (m.store.shutdown codec now faults).1
          initialized := (m.store.shutdown codec now faults).2 ≠ .done
          crashed := (m.store.shutdown codec now faults).2 = .undefined },
        (m.store.shutdown codec now faults).2) := by
  simp [Manager.shutdown, hinit]

theorem Inv.putState
    (h : Inv codec m) {key : Key} (state : GenerationState) (now : Nat)
    {faults : Faults} (hnul : 0 ∉ key) (hharmless : Harmless faults) :
    Inv codec (m.putState codec key state now faults).1 := by
  by_cases hskip : m.initialized = false ∨ key = []
  · have heq : m.putState codec key state now faults = (m, .done) := by
      simp [Manager.putState, hskip]
    rw [heq]
    exact h
  · rw [not_or, Bool.not_eq_false] at hskip
    obtain ⟨hinit, hne⟩ := hskip
    obtain ⟨hready, hdefined, hother, hdone, -⟩ :=
      putState_spec now hharmless h.ready ⟨hne, hnul⟩ state
    rw [putState_eq state now faults hinit hne]
    generalize m.store.putState codec now faults key state = r at *
    refine
      { running := by simpa using hdefined
        ready := hready
        closed := by simp [hinit]
        named := ?_
        views := ?_ }
    · intro key' hstored
      rintro rfl
      refine hstored ?_
      have habsent : expected m.log [] = .absent := by
        by_contra hnot
        exact h.named [] hnot rfl
      rw [expected_append]
      split <;> simp [Expectation.update, hne, habsent]
    · intro key' hvalid
      rw [expected_append]
      by_cases hkey : key' = key
      · subst hkey
        by_cases hexit : r.2 = .done
        · simpa [hexit, Expectation.update, Matches] using (hdone hexit).1
        · simp [hexit, Expectation.update, Matches]
      · have hsame := (h.views key' hvalid).sameView (hother key' hkey)
        split <;> simpa [Expectation.update, Ne.symm hkey] using hsame

theorem Settled.putState
    (hinv : Inv codec m) (h : Settled m) {key : Key} (state : GenerationState)
    (now : Nat) (hnul : 0 ∉ key) :
    Settled (m.putState codec key state now []).1 := by
  by_cases hskip : m.initialized = false ∨ key = []
  · have heq : m.putState codec key state now [] = (m, .done) := by
      simp [Manager.putState, hskip]
    rw [heq]
    exact h
  · rw [not_or, Bool.not_eq_false] at hskip
    obtain ⟨hinit, hne⟩ := hskip
    obtain ⟨-, -, -, hdone, hclean⟩ :=
      putState_spec now harmless_nil hinv.ready ⟨hne, hnul⟩ state
    rw [putState_eq state now [] hinit hne]
    refine ⟨(hdone (hclean rfl)).2, ?_⟩
    intro key'
    rw [expected_append, hclean rfl, if_pos rfl, Expectation.update]
    split
    · simp
    · exact h.known key'

theorem Inv.getState
    (h : Inv codec m) {key : Key} (now : Nat) {faults : Faults} (hnul : 0 ∉ key)
    (hharmless : Harmless faults) :
    Inv codec (m.getState codec key now faults).1 := by
  by_cases hskip : m.initialized = false ∨ key = []
  · have heq : m.getState codec key now faults = (m, .returned none) := by
      simp [Manager.getState, hskip]
    rw [heq]
    exact h
  · rw [not_or, Bool.not_eq_false] at hskip
    obtain ⟨hinit, hne⟩ := hskip
    have hgot := getState_spec now hharmless h.ready ⟨hne, hnul⟩
    rw [getState_eq now faults hinit hne]
    exact
      { running := by simpa using hgot.defined
        ready := hgot.ready
        closed := by simp [hinit]
        named := h.named
        views := fun key' hvalid => (h.views key' hvalid).sameView (hgot.views key') }

theorem Settled.getState
    (hinv : Inv codec m) (h : Settled m) {key : Key} (now : Nat)
    (hnul : 0 ∉ key) :
    Settled (m.getState codec key now []).1 := by
  by_cases hskip : m.initialized = false ∨ key = []
  · have heq : m.getState codec key now [] = (m, .returned none) := by
      simp [Manager.getState, hskip]
    rw [heq]
    exact h
  · rw [not_or, Bool.not_eq_false] at hskip
    obtain ⟨hinit, hne⟩ := hskip
    have hgot := getState_spec now harmless_nil hinv.ready ⟨hne, hnul⟩
    rw [getState_eq now [] hinit hne]
    exact ⟨hgot.bounded rfl h.bounded, h.known⟩

theorem Inv.deleteState (h : Inv codec m) (hinit : m.initialized = true)
    {key : Key} (hnul : 0 ∉ key) : Inv codec (m.deleteState key) := by
  obtain ⟨hready, hnone, hother⟩ := deleteState_spec h.ready hnul
  refine
    { running := h.running
      ready := hready
      closed := by simp [Manager.deleteState, hinit]
      named := ?_
      views := ?_ }
  · intro key'
    rw [Manager.deleteState, expected_append, Expectation.update]
    split
    · simp
    · exact h.named key'
  · intro key' hvalid
    simp only [Manager.deleteState, expected_append, Expectation.update]
    by_cases hkey : key' = key
    · subst hkey
      rw [if_pos rfl]
      exact hnone
    · rw [if_neg (Ne.symm hkey), hother key' hkey]
      exact h.views key' hvalid

theorem Settled.deleteState (h : Settled m) (key : Key) :
    Settled (m.deleteState key) := by
  refine
    { bounded :=
        { l1 := (size_erase_le key).trans h.bounded.l1
          l2 := (size_erase_le key).trans h.bounded.l2 }
      known := ?_ }
  intro key'
  rw [Manager.deleteState, expected_append, Expectation.update]
  split
  · simp
  · exact h.known key'

theorem Inv.shutdown
    (h : Inv codec m) (now : Nat) {faults : Faults} (hharmless : Harmless faults) :
    Inv codec (m.shutdown codec now faults).1 := by
  by_cases hinit : m.initialized = true
  · obtain ⟨hready, hdefined, hviews, hempty, -⟩ :=
      shutdown_spec now hharmless h.ready
    rw [shutdown_eq now faults hinit]
    exact
      { running := by simpa using hdefined
        ready := hready
        closed := by simpa using hempty
        named := h.named
        views := fun key hvalid => (h.views key hvalid).sameView (hviews key) }
  · have heq : m.shutdown codec now faults = (m, .done) := by
      simp [Manager.shutdown, hinit]
    rw [heq]
    exact h

theorem Settled.shutdown (hinv : Inv codec m) (h : Settled m) (now : Nat) :
    Settled (m.shutdown codec now []).1 := by
  by_cases hinit : m.initialized = true
  · obtain ⟨-, -, -, -, -, -, -, hbounded⟩ :=
      shutdown_spec now harmless_nil hinv.ready
    rw [shutdown_eq now [] hinit]
    exact ⟨hbounded h.bounded, h.known⟩
  · have heq : m.shutdown codec now [] = (m, .done) := by
      simp [Manager.shutdown, hinit]
    rw [heq]
    exact h

/-- What one event does. -/
theorem step_cases (hstep : step codec m e = some m') :
    (∃ l1Capacity l2Capacity, e = .initializeCache l1Capacity l2Capacity ∧
      m' = m.initializeCache l1Capacity l2Capacity) ∨
    (∃ key state now faults, e = .put key state now faults ∧
      m' = (m.putState codec key state now faults).1) ∨
    (∃ key now faults, e = .get key now faults ∧
      m' = (m.getState codec key now faults).1) ∨
    (∃ key, e = .delete key ∧ m.initialized = true ∧ m' = m.deleteState key) ∨
    (∃ now faults, e = .shutdown now faults ∧
      m' = (m.shutdown codec now faults).1) := by
  unfold step at hstep
  split at hstep
  · simp at hstep
  · cases e with
    | initializeCache l1Capacity l2Capacity =>
        exact Or.inl ⟨_, _, rfl, by simpa using hstep.symm⟩
    | put key state now faults =>
        exact Or.inr (Or.inl ⟨_, _, _, _, rfl, by simpa using hstep.symm⟩)
    | get key now faults =>
        exact Or.inr (Or.inr (Or.inl ⟨_, _, _, rfl, by simpa using hstep.symm⟩))
    | delete key =>
        by_cases hinit : m.initialized = true
        · simp only [hinit, if_true, Option.some.injEq] at hstep
          exact Or.inr (Or.inr (Or.inr (Or.inl ⟨_, rfl, hinit, hstep.symm⟩)))
        · simp [hinit] at hstep
    | shutdown now faults =>
        exact Or.inr (Or.inr (Or.inr (Or.inr ⟨_, _, rfl, by simpa using hstep.symm⟩)))

theorem inv_step
    (h : Inv codec m) (hsurvivable : SurvivableStep m e)
    (hstep : step codec m e = some m') : Inv codec m' := by
  obtain ⟨hnul, hharmless⟩ := hsurvivable
  rcases step_cases hstep with ⟨_, _, rfl, rfl⟩ | ⟨_, _, _, _, rfl, rfl⟩ |
    ⟨_, _, _, rfl, rfl⟩ | ⟨_, rfl, hinit, rfl⟩ | ⟨_, _, rfl, rfl⟩
  · exact h.initializeCache _ _
  · exact h.putState _ _ hnul hharmless
  · exact h.getState _ hnul hharmless
  · exact h.deleteState hinit hnul
  · exact h.shutdown _ hharmless

theorem settled_step
    (hinv : Inv codec m) (h : Settled m) (hfree : FaultFreeStep m e)
    (hstep : step codec m e = some m') : Settled m' := by
  obtain ⟨hnul, hnil⟩ := hfree
  rcases step_cases hstep with ⟨_, _, rfl, rfl⟩ | ⟨_, _, _, _, rfl, rfl⟩ |
    ⟨_, _, _, rfl, rfl⟩ | ⟨_, rfl, -, rfl⟩ | ⟨_, _, rfl, rfl⟩
  · exact h.initializeCache hinv _ _
  · simp only [Event.faults] at hnil
    subst hnil
    exact h.putState hinv _ _ hnul
  · simp only [Event.faults] at hnil
    subst hnil
    exact h.getState hinv _ hnul
  · exact h.deleteState _
  · simp only [Event.faults] at hnil
    subst hnil
    exact h.shutdown hinv _

theorem FaultFreeStep.survivable (h : FaultFreeStep m e) : SurvivableStep m e :=
  ⟨h.1, h.2 ▸ harmless_nil⟩

end Steps

section IdentityText

/-!
### The text of the identity object

`Json::writeString` with the default settings, for metadata of printable
characters that need no escape.  Any other metadata gets a text of its own that
is not an object.
-/

/-- Printable ASCII without the quotation mark and the backslash. -/
def printable (c : Char) : Bool :=
  Nat.ble 32 c.toNat && Nat.ble c.toNat 126 && c.toNat != 34 && c.toNat != 92

def Printable (text : String) : Prop :=
  text.toList.all printable = true

instance (text : String) : Decidable (Printable text) :=
  instDecidableEqBool _ _

def PrintableMeta (m : Meta) : Prop :=
  Printable m.adapter ∧ Printable m.effective ∧ Printable m.initial

instance (m : Meta) : Decidable (PrintableMeta m) :=
  inferInstanceAs (Decidable
    (Printable m.adapter ∧ Printable m.effective ∧ Printable m.initial))

def asciiBytes (text : String) : List UInt8 :=
  text.toList.map (fun c => UInt8.ofNat c.toNat)

/-- A string value, up to its closing quotation mark and what follows. -/
def quoted (text : String) (rest : List UInt8) : List UInt8 :=
  34 :: (asciiBytes text ++ 34 :: rest)

/-- The name of a member and the colon after it. -/
def name (text : String) (rest : List UInt8) : List UInt8 :=
  quoted text (asciiBytes " : " ++ rest)

/-- The members in the order of their names, each on an indented line. -/
def identityText (m : Meta) : List UInt8 :=
  [123, 10, 9] ++
  name "adapter" (quoted m.adapter ([44, 10, 9] ++
  name "advanced" (asciiBytes (if m.advanced then "true" else "false") ++
    ([44, 10, 9] ++
  name "effective" (quoted m.effective ([44, 10, 9] ++
  name "initial" (quoted m.initial [10, 125])))))))

theorem Printable.bounds
    {text : String} (h : Printable text) {c : Char} (hc : c ∈ text.toList) :
    32 ≤ c.toNat ∧ c.toNat ≤ 126 ∧ c.toNat ≠ 34 := by
  have hprintable := List.all_eq_true.mp h c hc
  simp only [printable, Bool.and_eq_true, Nat.ble_eq, bne_iff_ne] at hprintable
  exact ⟨hprintable.1.1.1, hprintable.1.1.2, hprintable.1.2⟩

theorem asciiBytes_ne
    {text : String} (h : Printable text) {byte : UInt8}
    (hmem : byte ∈ asciiBytes text) : byte ≠ 0 ∧ byte ≠ 34 := by
  obtain ⟨c, hc, rfl⟩ := List.mem_map.mp hmem
  obtain ⟨hlow, hhigh, hquote⟩ := h.bounds hc
  have hnat : (UInt8.ofNat c.toNat).toNat = c.toNat := by
    rw [UInt8.toNat_ofNat']
    omega
  constructor
  · intro heq
    rw [heq] at hnat
    simp at hnat
    omega
  · intro heq
    rw [heq] at hnat
    simp at hnat
    omega

/-- The characters can be read off the bytes. -/
theorem asciiBytes_inj
    {a b : String} (ha : Printable a) (hb : Printable b)
    (h : asciiBytes a = asciiBytes b) : a = b := by
  have hread : ∀ {text : String}, Printable text →
      (asciiBytes text).map (fun byte => Char.ofNat byte.toNat) = text.toList := by
    intro text htext
    rw [asciiBytes, List.map_map]
    have hid : ∀ c ∈ text.toList,
        ((fun byte : UInt8 => Char.ofNat byte.toNat) ∘
          fun c => UInt8.ofNat c.toNat) c = id c := by
      intro c hc
      obtain ⟨-, hhigh, -⟩ := htext.bounds hc
      simp only [Function.comp_apply, UInt8.toNat_ofNat', id_eq]
      rw [Nat.mod_eq_of_lt (by omega), Char.ofNat_toNat]
    exact (List.map_congr_left hid).trans (List.map_id _)
  rw [← String.toList_inj, ← hread ha, ← hread hb, h]

/-- A quoted string ends at the first quotation mark. -/
theorem quoted_inj
    {a b : String} (ha : Printable a) (hb : Printable b) {rest rest' : List UInt8}
    (h : quoted a rest = quoted b rest') : a = b ∧ rest = rest' := by
  have hsplit : ∀ {x y : List UInt8}, 34 ∉ x → 34 ∉ y →
      x ++ 34 :: rest = y ++ 34 :: rest' → x = y ∧ rest = rest' := by
    intro x
    induction x with
    | nil =>
        intro y _ hy heq
        cases y with
        | nil => simpa using heq
        | cons byte y =>
            simp only [List.nil_append, List.cons_append, List.cons.injEq] at heq
            exact absurd (by simp [heq.1]) hy
    | cons byte x ih =>
        intro y hx hy heq
        cases y with
        | nil =>
            simp only [List.nil_append, List.cons_append, List.cons.injEq] at heq
            exact absurd (by simp [heq.1]) hx
        | cons byte' y =>
            simp only [List.cons_append, List.cons.injEq] at heq
            simp only [List.mem_cons, not_or] at hx hy
            obtain ⟨hxy, hrest⟩ := ih hx.2 hy.2 heq.2
            exact ⟨by rw [heq.1, hxy], hrest⟩
  obtain ⟨hbytes, hrest⟩ := hsplit
    (fun hmem => (asciiBytes_ne ha hmem).2 rfl)
    (fun hmem => (asciiBytes_ne hb hmem).2 rfl)
    (List.cons.inj h).2
  exact ⟨asciiBytes_inj ha hb hbytes, hrest⟩

theorem identityText_inj
    {m m' : Meta} (h : PrintableMeta m) (h' : PrintableMeta m')
    (heq : identityText m = identityText m') : m = m' := by
  obtain ⟨hadapter, heffective, hinitial⟩ := h
  obtain ⟨hadapter', heffective', hinitial'⟩ := h'
  have hname : ∀ text rest rest', name text rest = name text rest' →
      rest = rest' := by
    intro text rest rest' hnames
    simpa [name, quoted] using hnames
  obtain ⟨had, heq⟩ :=
    quoted_inj hadapter hadapter' (hname _ _ _ (List.append_cancel_left heq))
  have heq := hname _ _ _ (List.append_cancel_left heq)
  have hadvanced : m.advanced = m'.advanced := by
    cases hm : m.advanced <;> cases hm' : m'.advanced <;>
      simp [hm, hm', asciiBytes] at heq ⊢
  rw [hadvanced] at heq
  have heq := List.append_cancel_left (List.append_cancel_left heq)
  obtain ⟨hef, heq⟩ := quoted_inj heffective heffective' (hname _ _ _ heq)
  obtain ⟨hin, -⟩ := quoted_inj hinitial hinitial'
    (hname _ _ _ (List.append_cancel_left heq))
  cases m
  cases m'
  simp_all

instance : Countable Meta := by
  have hchar : Function.Injective Char.toNat := fun _ _ => Char.toNat_inj.mp
  have : Countable Char := hchar.countable
  have hstring : Function.Injective String.toList :=
    fun _ _ => String.toList_inj.mp
  have : Countable String := hstring.countable
  let parts : Meta → String × String × String × Bool :=
    fun m => (m.effective, m.adapter, m.initial, m.advanced)
  have hparts : Function.Injective parts := by
    rintro ⟨_, _, _, _⟩ ⟨_, _, _, _⟩ heq
    simpa [parts] using heq
  exact hparts.countable

/-- A text for each metadata. -/
noncomputable def metaText (m : Meta) : List UInt8 :=
  if PrintableMeta m then identityText m
  else List.replicate ((Countable.exists_injective_nat Meta).choose m + 1) 1

theorem metaText_injective : Function.Injective metaText := by
  intro m m' heq
  unfold metaText at heq
  by_cases h : PrintableMeta m
  · by_cases h' : PrintableMeta m'
    · rw [if_pos h, if_pos h'] at heq
      exact identityText_inj h h' heq
    · rw [if_pos h, if_neg h'] at heq
      simp only [identityText, List.cons_append, List.replicate_succ, List.cons.injEq] at heq
      exact absurd heq.1 (by decide)
  · by_cases h' : PrintableMeta m'
    · rw [if_neg h, if_pos h'] at heq
      simp only [identityText, List.cons_append, List.replicate_succ, List.cons.injEq] at heq
      exact absurd heq.1 (by decide)
    · rw [if_neg h, if_neg h'] at heq
      have hlength := congrArg List.length heq
      simp only [List.length_replicate, Nat.add_right_cancel_iff] at hlength
      exact (Countable.exists_injective_nat Meta).choose_spec hlength

theorem zero_notMem_quoted
    {text : String} (h : Printable text) {rest : List UInt8} (hrest : 0 ∉ rest) :
    0 ∉ quoted text rest := by
  simp only [quoted, List.mem_cons, List.mem_append, not_or]
  exact ⟨by decide, fun hmem => (asciiBytes_ne h hmem).1 rfl, by decide, hrest⟩

theorem zero_notMem_name
    {text : String} (h : Printable text) {rest : List UInt8} (hrest : 0 ∉ rest) :
    0 ∉ name text rest := by
  refine zero_notMem_quoted h ?_
  rw [List.mem_append, not_or]
  exact ⟨by decide, hrest⟩

theorem metaText_ne (m : Meta) : 0 ∉ metaText m ∧ metaText m ≠ [] := by
  unfold metaText
  split
  · rename_i h
    obtain ⟨hadapter, heffective, hinitial⟩ := h
    have happend : ∀ {front rest : List UInt8}, 0 ∉ front → 0 ∉ rest →
        0 ∉ front ++ rest := by
      intro front rest hfront hrest
      rw [List.mem_append, not_or]
      exact ⟨hfront, hrest⟩
    have hadvanced : 0 ∉ asciiBytes (if m.advanced then "true" else "false") := by
      cases m.advanced <;> decide
    refine ⟨happend (by decide) (zero_notMem_name (by decide) ?_),
      List.cons_ne_nil _ _⟩
    refine zero_notMem_quoted hadapter (happend (by decide) ?_)
    refine zero_notMem_name (by decide) (happend hadvanced (happend (by decide) ?_))
    refine zero_notMem_name (by decide) (zero_notMem_quoted heffective ?_)
    refine happend (by decide) (zero_notMem_name (by decide) ?_)
    exact zero_notMem_quoted hinitial (by decide)
  · refine ⟨?_, by simp [List.replicate_succ]⟩
    intro hmem
    simpa using List.eq_of_mem_replicate hmem

/-- The writer and a parser that inverts it. -/
noncomputable def jsonCodec : IdentityCodec where
  writeString := metaText
  parse := Function.partialInv metaText
  parse_writeString := Function.partialInv_left metaText_injective
  no_nul := fun m => (metaText_ne m).1
  ne_nil := fun m => (metaText_ne m).2

end IdentityText

section Runs

variable {codec : IdentityCodec} {m : Manager} {es : List Event}

/-- The manager serves every session as the history says. -/
structure Coherent (codec : IdentityCodec) (m : Manager) : Prop where
  returns : ∀ key state now, 0 ∉ key → m.initialized = true →
    expected m.log key = .stored state →
    ∃ state', (m.getState codec key now []).2 = .returned (some state') ∧
      SameSession state state'
  nothing : ∀ key now, 0 ∉ key → expected m.log key = .absent →
    (m.getState codec key now []).2 = .returned none
  known : ∀ key, expected m.log key ≠ .unknown
  exclusive : ∀ key, m.store.l1.get? key = none ∨ m.store.l2.get? key = none
  l1_linked : Linked m.store.l1
  l2_linked : Linked m.store.l2
  bounded : Bounded m.store

/-- No session is lost and no recency list is broken. -/
structure Intact (codec : IdentityCodec) (m : Manager) : Prop where
  running : m.crashed = false
  l1_linked : Linked m.store.l1
  l2_linked : Linked m.store.l2
  retrievable : ∀ key state now, 0 ∉ key → m.initialized = true →
    expected m.log key = .stored state →
    ∃ state', (m.getState codec key now []).2 = .returned (some state') ∧
      SameSession state state'
  hit : ∀ key state now faults, 0 ∉ key → Harmless faults →
    (m.getState codec key now faults).2 = .returned (some state) →
    Matches (expected m.log key) (some state)
  miss : ∀ key now faults, 0 ∉ key → Harmless faults → m.initialized = true →
    (m.getState codec key now faults).2 = .returned none →
    Matches (expected m.log key) none ∨ fails faults .sqlRead key = true

/-- The lookup of a manager that satisfies the invariant. -/
theorem Inv.got
    (h : Inv codec m) (key : Key) (now : Nat) {faults : Faults} (hnul : 0 ∉ key)
    (hharmless : Harmless faults) (hinit : m.initialized = true) (hne : key ≠ []) :
    ∃ r, Got codec faults m.store key r ∧
      (m.getState codec key now faults).2 = r.2 :=
  ⟨_, getState_spec now hharmless h.ready ⟨hne, hnul⟩,
    by rw [getState_eq now faults hinit hne]⟩

theorem Inv.returns
    (h : Inv codec m) {key : Key} {state : GenerationState} (now : Nat)
    (hnul : 0 ∉ key) (hinit : m.initialized = true)
    (hstored : expected m.log key = .stored state) :
    ∃ state', (m.getState codec key now []).2 = .returned (some state') ∧
      SameSession state state' := by
  have hne : key ≠ [] := h.named key (by simp [hstored])
  obtain ⟨r, hgot, hr⟩ := h.got key now hnul harmless_nil hinit hne
  have hmatches := h.views key ⟨hne, hnul⟩
  rw [hstored] at hmatches
  obtain ⟨state', hview, hsame⟩ := sameView_some hmatches
  exact ⟨state', by rw [hr, hgot.clean rfl, hview], hsame⟩

theorem Inv.nothing
    (h : Inv codec m) {key : Key} (now : Nat) (hnul : 0 ∉ key)
    (habsent : expected m.log key = .absent) :
    (m.getState codec key now []).2 = .returned none := by
  by_cases hskip : m.initialized = false ∨ key = []
  · simp [Manager.getState, hskip]
  · rw [not_or, Bool.not_eq_false] at hskip
    obtain ⟨r, hgot, hr⟩ := h.got key now hnul harmless_nil hskip.1 hskip.2
    have hmatches := h.views key ⟨hskip.2, hnul⟩
    rw [habsent] at hmatches
    rw [hr, hgot.clean rfl]
    exact congrArg _ hmatches

theorem Inv.hit
    (h : Inv codec m) {key : Key} {state : GenerationState} (now : Nat)
    {faults : Faults} (hnul : 0 ∉ key) (hharmless : Harmless faults)
    (hresult : (m.getState codec key now faults).2 = .returned (some state)) :
    Matches (expected m.log key) (some state) := by
  by_cases hskip : m.initialized = false ∨ key = []
  · simp [Manager.getState, hskip] at hresult
  · rw [not_or, Bool.not_eq_false] at hskip
    obtain ⟨r, hgot, hr⟩ := h.got key now hnul hharmless hskip.1 hskip.2
    rw [← hgot.hit state (hr ▸ hresult)]
    exact h.views key ⟨hskip.2, hnul⟩

theorem Inv.miss
    (h : Inv codec m) {key : Key} (now : Nat) {faults : Faults} (hnul : 0 ∉ key)
    (hharmless : Harmless faults) (hinit : m.initialized = true)
    (hresult : (m.getState codec key now faults).2 = .returned none) :
    Matches (expected m.log key) none ∨ fails faults .sqlRead key = true := by
  by_cases hne : key = []
  · left
    have habsent : expected m.log key = .absent := by
      by_contra hnot
      exact h.named key hnot hne
    rw [habsent]
    rfl
  · obtain ⟨r, hgot, hr⟩ := h.got key now hnul hharmless hinit hne
    rcases hgot.miss (hr ▸ hresult) with hnone | hfault
    · exact Or.inl (hnone ▸ h.views key ⟨hne, hnul⟩)
    · exact Or.inr hfault

/-- The invariant over every run whose failures are survivable. -/
theorem inv_of_run
    (codec : IdentityCodec) (es : List Event)
    (hsurvivable : StepsMeet (step codec) SurvivableStep Manager.new es)
    (hrun : exec (step codec) Manager.new es = some m) : Inv codec m :=
  exec_invariant (fun _ _ _ h hstep' hstep => inv_step h hstep' hstep)
    inv_new hsurvivable hrun

/-- Coherence of the three levels over every run without failures. -/
theorem coherent_of_run
    (codec : IdentityCodec) (es : List Event) (m : Manager)
    (hfree : StepsMeet (step codec) FaultFreeStep Manager.new es)
    (hrun : exec (step codec) Manager.new es = some m) :
    Coherent codec m := by
  have hboth : Inv codec m ∧ Settled m :=
    exec_invariant (I := fun m => Inv codec m ∧ Settled m)
      (fun _ _ _ h hstep' hstep =>
        ⟨inv_step h.1 hstep'.survivable hstep, settled_step h.1 h.2 hstep' hstep⟩)
      ⟨inv_new, settled_new⟩ hfree hrun
  obtain ⟨h, hsettled⟩ := hboth
  refine
    { returns := fun _ _ now => h.returns now
      nothing := fun _ now => h.nothing now
      known := hsettled.known
      exclusive := ?_
      l1_linked := h.ready.l1_linked
      l2_linked := h.ready.l2_linked
      bounded := hsettled.bounded }
  intro key
  cases hl1 : m.store.l1.get? key with
  | none => exact Or.inl rfl
  | some state => exact Or.inr (h.ready.disjoint key state hl1)

/-- A state of one row with the given identity. -/
def smallState (identity : Meta) (value : UInt16) : GenerationState :=
  { adapter := none
    identity := identity
    tensors :=
      { batchSize := 1
        shift := [value]
        wkv := .wkv16 [value]
        elapsed := [1]
        shift_ne := by simp
        wkv_ne := rfl
        elapsed_ne := by simp } }

/-- The metadata of a keyed session. -/
def keyedMeta : Meta :=
  { effective := "k1", adapter := "", initial := "zero", advanced := true }

def sessionA : Key := [97]
def sessionB : Key := [98]
def sessionC : Key := [99]

/-- States that went through all levels and a shutdown. -/
def tripped : List Event :=
  [.initializeCache 1 1,
    .put sessionA (smallState keyedMeta 1) 1 [],
    .put sessionB (smallState keyedMeta 2) 2 [],
    .put sessionC (smallState keyedMeta 3) 3 [],
    .get sessionB 4 [],
    .delete sessionC,
    .shutdown 5 [],
    .initializeCache 2 0]

theorem coherent_tripped :
    ∃ m, exec (step jsonCodec) Manager.new tripped = some m ∧
      Coherent jsonCodec m := by
  have hrun : (exec (step jsonCodec) Manager.new tripped).isSome = true := by
    rfl
  obtain ⟨m, hm⟩ := Option.isSome_iff_exists.mp hrun
  exact ⟨m, hm, coherent_of_run jsonCodec tripped m (by decide) hm⟩

/--
The manager is no plain map: a state without an effective key comes back from
the table marked as advanced, and the empty session is not stored.
-/
theorem getState_deviates :
    ∃ m, exec (step jsonCodec) Manager.new
        [.initializeCache 0 0, .put sessionA (smallState Meta.default 1) 1 [],
          .put [] (smallState keyedMeta 1) 2 []] = some m ∧
      (∃ state', (m.getState jsonCodec sessionA 3 []).2 = .returned (some state') ∧
        state'.identity ≠ Meta.default) ∧
      (m.getState jsonCodec [] 3 []).2 = .returned none := by
  refine ⟨_, rfl, ⟨reloaded (smallState Meta.default 1), ?_, by decide⟩, rfl⟩
  have hinv := inv_of_run jsonCodec
    [.initializeCache 0 0, .put sessionA (smallState Meta.default 1) 1 [],
      .put [] (smallState keyedMeta 1) 2 []] (by decide) rfl
  obtain ⟨r, hgot, hr⟩ :=
    hinv.got sessionA 3 (by decide) harmless_nil rfl (by decide)
  exact hr.trans ((hgot.clean rfl).trans
    (congrArg GetResult.returned (stateOfRow_rowOf 1 _)))

/-- Failure atomicity over every run whose failures are survivable. -/
theorem intact_of_run
    (codec : IdentityCodec) (es : List Event) (m : Manager)
    (hsurvivable : StepsMeet (step codec) SurvivableStep Manager.new es)
    (hrun : exec (step codec) Manager.new es = some m) :
    Intact codec m := by
  have h := inv_of_run codec es hsurvivable hrun
  exact
    { running := h.running
      l1_linked := h.ready.l1_linked
      l2_linked := h.ready.l2_linked
      retrievable := fun _ _ now => h.returns now
      hit := fun _ _ now _ => h.hit now
      miss := fun _ now _ => h.miss now }

/-- Failures that the manager survives. -/
def survived : List Event :=
  [.initializeCache 1 1,
    .put sessionA (smallState keyedMeta 1) 1 [],
    .put sessionB (smallState keyedMeta 2) 2 [(.toHost, sessionA)],
    .put sessionC (smallState keyedMeta 3) 3 [(.orderPush .put, sessionC)],
    .get sessionA 4 [(.cloneResult, sessionA)],
    .shutdown 5 [(.jsonWrite, sessionA)]]

theorem intact_survived :
    ∃ m, exec (step jsonCodec) Manager.new survived = some m ∧
      Intact jsonCodec m := by
  have hrun : (exec (step jsonCodec) Manager.new survived).isSome = true := by
    rfl
  obtain ⟨m, hm⟩ := Option.isSome_iff_exists.mp hrun
  exact ⟨m, hm, intact_of_run jsonCodec survived m (by decide) hm⟩

/--
A failed write to the table loses the session that is evicted there, and no
operation reports it.  A failed clone leaves a key in the recency list that the
next eviction looks up in the map.
-/
theorem putState_forgets :
    (∃ m, exec (step jsonCodec) Manager.new
        [.initializeCache 1 0, .put sessionA (smallState keyedMeta 1) 1 [],
          .put sessionB (smallState keyedMeta 2) 2 [(.sqlWrite, sessionA)]] =
            some m ∧
      m.initialized = true ∧
      expected m.log sessionA = .stored (smallState keyedMeta 1) ∧
      expected m.log sessionB = .stored (smallState keyedMeta 2) ∧
      (m.getState jsonCodec sessionA 3 []).2 = .returned none) ∧
    ∃ m, exec (step jsonCodec) Manager.new
        [.initializeCache 0 0,
          .put sessionA (smallState keyedMeta 1) 1 [(.clone .put, sessionA)],
          .put sessionB (smallState keyedMeta 2) 2 []] = some m ∧
      m.crashed = true :=
  ⟨⟨_, rfl, rfl, rfl, rfl, rfl⟩, ⟨_, rfl, rfl⟩⟩

end Runs

end StateCache
end RwkvLightning

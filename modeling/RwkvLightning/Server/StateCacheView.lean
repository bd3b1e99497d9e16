import RwkvLightning.Server.StateCache
import Mathlib.Data.List.TakeWhile
import Mathlib.Data.Option.Basic
import Mathlib.Data.List.Perm.Basic

/-!
# The session state cache: what a session looks like through the levels

`view` reads a session from the highest level that holds it.  Moving states
between the levels keeps the view of every session up to `SameSession`: the
table does not keep the adapter handle, and a state that was advanced without an
effective key comes back marked as advanced.

**Results.**  One lemma for each function of the manager says that it keeps
`Ready` and the views, with failures everywhere except at the harmful sites:
`evictL2_spec`, `evictL1_spec`, `addToL1_spec`, `persistAll_spec`.
-/

namespace RwkvLightning
namespace StateCache

open LinkedMap

/-- The session ids that `put_state` accepts and SQLite keeps apart. -/
def ValidKey (key : Key) : Prop :=
  key ≠ [] ∧ 0 ∉ key

instance (key : Key) : Decidable (ValidKey key) :=
  inferInstanceAs (Decidable (key ≠ [] ∧ 0 ∉ key))

/-- The same tensors and the same identity metadata, as far as they are kept. -/
structure SameSession (a b : GenerationState) : Prop where
  tensors : b.tensors = a.tensors
  effective : b.identity.effective = a.identity.effective
  adapter : b.identity.adapter = a.identity.adapter
  initial : b.identity.initial = a.identity.initial
  advanced : b.identity.advanced = a.identity.advanced ∨
    a.identity.effective = "" ∧ (∃ n ∈ a.tensors.elapsed, 0 < n) ∧
      b.identity.advanced = true

/--
The sites whose failure loses a state or breaks a recency list.  Elsewhere the
operation throws, or `get_state` misses, before anything is lost.
-/
def harmful : Site → Bool
  | .orderPush .promote => true
  | .clone _ => true
  | .cacheInsert _ => true
  | .touchPush => true
  | .demotePush => true
  | .demoteInsert => true
  | .sqlWrite => true
  | .bindIdentity => true
  | _ => false

/-- No failure at a harmful site. -/
def Harmless (faults : Faults) : Prop :=
  ∀ fault ∈ faults, harmful fault.1 = false

instance (faults : Faults) : Decidable (Harmless faults) :=
  inferInstanceAs (Decidable (∀ fault ∈ faults, harmful fault.1 = false))

theorem cString_eq {bytes : List UInt8} (h : 0 ∉ bytes) :
    cString bytes = bytes := by
  unfold cString
  rw [List.takeWhile_eq_self_iff]
  intro byte hbyte
  simp only [decide_eq_true_eq]
  rintro rfl
  exact h hbyte

theorem SameSession.refl (a : GenerationState) : SameSession a a :=
  { tensors := rfl
    effective := rfl
    adapter := rfl
    initial := rfl
    advanced := Or.inl rfl }

theorem SameSession.trans
    {a b c : GenerationState} (hab : SameSession a b) (hbc : SameSession b c) :
    SameSession a c := by
  refine
    { tensors := hbc.tensors.trans hab.tensors
      effective := hbc.effective.trans hab.effective
      adapter := hbc.adapter.trans hab.adapter
      initial := hbc.initial.trans hab.initial
      advanced := ?_ }
  rcases hbc.advanced with heq | ⟨heffective, helapsed, htrue⟩
  · rcases hab.advanced with heq' | ⟨heffective', helapsed', htrue'⟩
    · exact Or.inl (heq.trans heq')
    · exact Or.inr ⟨heffective', helapsed', heq.trans htrue'⟩
  · right
    refine ⟨hab.effective ▸ heffective, ?_, htrue⟩
    rw [← hab.tensors]
    exact helapsed

/-- The same view of a session: nothing, or the same state. -/
def SameView (before after : Option GenerationState) : Prop :=
  match before, after with
  | none, none => True
  | some a, some b => SameSession a b
  | _, _ => False

theorem SameView.refl (view : Option GenerationState) : SameView view view := by
  cases view with
  | none => trivial
  | some a => exact SameSession.refl a

theorem SameView.trans
    {v₁ v₂ v₃ : Option GenerationState} (h : SameView v₁ v₂) (h' : SameView v₂ v₃) :
    SameView v₁ v₃ := by
  match v₁, v₂, v₃ with
  | none, none, none => trivial
  | some a, some b, some c => exact SameSession.trans h h'
  | none, some _, _ => exact h.elim
  | some _, none, _ => exact h.elim
  | none, none, some _ => exact h'.elim
  | some _, some _, none => exact h'.elim

section Views

variable (codec : IdentityCodec)

/-- The state of a session in the table. -/
def tableView (table : Table) (key : Key) : Option GenerationState :=
  (table.lookup key).bind (stateOfRow codec)

/-- The state of a session in the highest level that has it. -/
def view (s : Store) (key : Key) : Option GenerationState :=
  ((s.l1.get? key).or (s.l2.get? key)).or (tableView codec s.table key)

/-- Every row of the table parses. -/
def RowsParse (table : Table) : Prop :=
  ∀ key row, table.lookup key = some row → (stateOfRow codec row).isSome

/-- The containers are in order. -/
structure Ready (s : Store) : Prop where
  l1_linked : Linked s.l1
  l2_linked : Linked s.l2
  disjoint : ∀ key a, s.l1.get? key = some a → s.l2.get? key = none
  l1_valid : ∀ key a, s.l1.get? key = some a → ValidKey key
  l2_valid : ∀ key a, s.l2.get? key = some a → ValidKey key
  rows : RowsParse codec s.table

/-- Every session looks the same before and after. -/
def SameViews (s s' : Store) : Prop :=
  ∀ key, SameView (view codec s key) (view codec s' key)

variable {codec}

theorem SameViews.refl (s : Store) : SameViews codec s s :=
  fun _ => SameView.refl _

theorem SameViews.trans {s₁ s₂ s₃ : Store}
    (h : SameViews codec s₁ s₂) (h' : SameViews codec s₂ s₃) :
    SameViews codec s₁ s₃ :=
  fun key => (h key).trans (h' key)

/-- What comes back of a state that was written to the table. -/
def reloaded (state : GenerationState) : GenerationState :=
  { adapter := none
    identity :=
      if state.identity.effective = "" ∧
          state.tensors.elapsed.any (fun n => 0 < n) then
        { state.identity with advanced := true }
      else state.identity
    tensors := state.tensors }

theorem stateOfRow_rowOf (now : Nat) (state : GenerationState) :
    stateOfRow codec (rowOf codec now state) = some (reloaded state) := by
  have htext : cString (codec.writeString state.identity) =
      codec.writeString state.identity := cString_eq (codec.no_nul _)
  simp [stateOfRow, rowOf, reloaded, htext, codec.ne_nil, codec.parse_writeString]

theorem sameSession_reloaded (state : GenerationState) :
    SameSession state (reloaded state) := by
  by_cases hadvanced : state.identity.effective = "" ∧
      state.tensors.elapsed.any (fun n => 0 < n) = true
  · have hidentity : (reloaded state).identity =
        { state.identity with advanced := true } := if_pos hadvanced
    have hany : ∃ n ∈ state.tensors.elapsed, 0 < n := by
      simpa using hadvanced.2
    exact
      { tensors := rfl
        effective := by rw [hidentity]
        adapter := by rw [hidentity]
        initial := by rw [hidentity]
        advanced := Or.inr ⟨hadvanced.1, hany, by rw [hidentity]⟩ }
  · have hidentity : (reloaded state).identity = state.identity :=
      if_neg hadvanced
    exact
      { tensors := rfl
        effective := by rw [hidentity]
        adapter := by rw [hidentity]
        initial := by rw [hidentity]
        advanced := Or.inl (by rw [hidentity]) }

end Views

section Faults

variable {faults : Faults}

theorem Harmless.fails
    (h : Harmless faults) (site : Site) (hsite : harmful site = true) (key : Key) :
    fails faults site key = false := by
  unfold StateCache.fails
  rw [List.contains_eq_mem, decide_eq_false_iff_not]
  intro hmem
  have hharmless := h _ hmem
  simp only at hharmless
  rw [hsite] at hharmless
  exact Bool.noConfusion hharmless

theorem harmless_nil : Harmless [] := by
  intro fault hmem
  simp at hmem

@[simp] theorem fails_nil (site : Site) (key : Key) :
    fails [] site key = false := rfl

end Faults

section Persist

variable (codec : IdentityCodec) (now : Nat) {faults : Faults}

variable {codec} in
theorem RowsParse.insert
    {table : Table} (h : RowsParse codec table) (key : Key)
    (state : GenerationState) :
    RowsParse codec (table.insert key (rowOf codec now state)) := by
  intro key' row hrow
  by_cases hkey : key' = key
  · subst hkey
    rw [AList.lookup_insert, Option.some.injEq] at hrow
    rw [← hrow, stateOfRow_rowOf]
    rfl
  · rw [AList.lookup_insert_ne hkey] at hrow
    exact h key' row hrow

/-- Persisting throws, leaving the table alone, or writes the row. -/
theorem persistStateLocked_spec
    (hharmless : Harmless faults) (table : Table) {key : Key}
    (hkey : ValidKey key) (state : GenerationState) :
    persistStateLocked codec now faults table key state = (table, .threw) ∧
        faults ≠ [] ∨
      persistStateLocked codec now faults table key state =
        (table.insert key (rowOf codec now state), .done) := by
  unfold persistStateLocked
  cases hjson : fails faults .jsonWrite key with
  | true =>
      left
      refine ⟨by simp, ?_⟩
      rintro rfl
      simp at hjson
  | false =>
      right
      simp [hharmless.fails .sqlWrite rfl,
        hharmless.fails .bindIdentity rfl, cString_eq hkey.2]

/-- The table after `persistAll`, for sessions with distinct ids. -/
theorem persistAll_spec
    (hharmless : Harmless faults) (copies : Bool)
    {entries : List (Key × GenerationState)} {table : Table}
    (hnodup : (entries.map Prod.fst).Nodup)
    (hvalid : ∀ entry ∈ entries, ValidKey entry.1)
    (hrows : RowsParse codec table) :
    let r := persistAll codec now faults copies entries table
    RowsParse codec r.1 ∧ r.2 ≠ .undefined ∧
      (∀ key, key ∉ entries.map Prod.fst → r.1.lookup key = table.lookup key) ∧
      (r.2 = .done → ∀ entry ∈ entries,
        r.1.lookup entry.1 = some (rowOf codec now entry.2)) ∧
      (faults = [] → r.2 = .done) := by
  induction entries generalizing table with
  | nil => exact ⟨hrows, by simp [persistAll], by simp [persistAll], by simp, by simp [persistAll]⟩
  | cons entry entries ih =>
      obtain ⟨key, state⟩ := entry
      rw [List.map_cons, List.nodup_cons] at hnodup
      intro r
      have hstopped : r = (table, .threw) → faults ≠ [] →
          RowsParse codec r.1 ∧ r.2 ≠ .undefined ∧
          (∀ key', key' ∉ ((key, state) :: entries).map Prod.fst →
            r.1.lookup key' = table.lookup key') ∧
          (r.2 = .done → ∀ entry ∈ (key, state) :: entries,
            r.1.lookup entry.1 = some (rowOf codec now entry.2)) ∧
          (faults = [] → r.2 = .done) := by
        intro hr hne
        rw [hr]
        exact ⟨hrows, by simp, by simp, by simp, fun h => absurd h hne⟩
      cases hcopy : (copies && fails faults .toHost key) with
      | true =>
          refine hstopped ?_ ?_
          · simp [r, persistAll, hcopy]
          · rintro rfl
            simp at hcopy
      | false =>
          have hkey : ValidKey key := hvalid (key, state) (by simp)
          rcases persistStateLocked_spec codec now
            hharmless table hkey state with ⟨hthrew, hne⟩ | hdone
          · refine hstopped ?_ hne
            simp [r, persistAll, hcopy, hthrew]
          · have hr : r = persistAll codec now faults copies entries
                (table.insert key (rowOf codec now state)) := by
              simp [r, persistAll, hcopy, hdone]
            obtain ⟨hrows', hexit, hother, hstored, hclean⟩ := ih hnodup.2
              (fun entry hentry => hvalid entry (by simp [hentry]))
              (hrows.insert now key state)
            rw [hr]
            refine ⟨hrows', hexit, ?_, ?_, hclean⟩
            · intro key' hkey'
              simp only [List.map_cons, List.mem_cons, not_or] at hkey'
              rw [hother key' hkey'.2, AList.lookup_insert_ne hkey'.1]
            · intro hexit' entry hentry
              rcases List.mem_cons.mp hentry with rfl | hentry
              · rw [hother key hnodup.1, AList.lookup_insert]
              · exact hstored hexit' entry hentry

end Persist

section Eviction

variable {codec : IdentityCodec} (now : Nat) {faults : Faults} {s : Store}

/-- What a function that only moves states between the levels does. -/
structure Moved (codec : IdentityCodec) (faults : Faults) (s : Store)
    (r : Store × Exit) : Prop where
  ready : Ready codec r.1
  views : SameViews codec s r.1
  l1Capacity_eq : r.1.l1Capacity = s.l1Capacity
  l2Capacity_eq : r.1.l2Capacity = s.l2Capacity
  defined : r.2 ≠ .undefined
  clean : faults = [] → r.2 = .done

/-- Both levels are within their capacity. -/
structure Bounded (s : Store) : Prop where
  l1 : s.l1.size ≤ s.l1Capacity
  l2 : s.l2.size ≤ s.l2Capacity

theorem Moved.refl (h : Ready codec s) : Moved codec faults s (s, .done) :=
  { ready := h
    views := SameViews.refl s
    l1Capacity_eq := rfl
    l2Capacity_eq := rfl
    defined := by simp
    clean := fun _ => rfl }

/-- A failure that changed nothing. -/
theorem Moved.stopped (h : Ready codec s) (hne : faults ≠ []) :
    Moved codec faults s (s, .threw) :=
  { (Moved.refl h : Moved codec faults s (s, .done)) with
    defined := by simp
    clean := fun hnil => absurd hnil hne }

theorem Moved.trans
    {s' : Store} {r : Store × Exit}
    (h : Moved codec faults s (s', .done)) (h' : Moved codec faults s' r) :
    Moved codec faults s r :=
  { h' with
    views := h.views.trans h'.views
    l1Capacity_eq := h'.l1Capacity_eq.trans h.l1Capacity_eq
    l2Capacity_eq := h'.l2Capacity_eq.trans h.l2Capacity_eq }

/-- The first state of L2 moves into the table. -/
theorem moved_toTable
    (h : Ready codec s) {victim : Key} {state : GenerationState}
    (hfront : s.l2.front? = some victim) (hget : s.l2.get? victim = some state) :
    Moved codec faults s
      ({ s with
          l2 := s.l2.popFront victim
          table := s.table.insert victim (rowOf codec now state) }, .done) := by
  obtain ⟨-, hlinked, -⟩ := h.l2_linked.front hfront
  have hnone : s.l1.get? victim = none := by
    by_contra hsome
    obtain ⟨a, ha⟩ := Option.ne_none_iff_exists'.mp hsome
    simp [h.disjoint victim a ha] at hget
  refine
    { ready :=
        { l1_linked := h.l1_linked
          l2_linked := hlinked
          disjoint := ?_
          l1_valid := h.l1_valid
          l2_valid := ?_
          rows := h.rows.insert now _ _ }
      views := ?_
      l1Capacity_eq := rfl
      l2Capacity_eq := rfl
      defined := by simp
      clean := fun _ => rfl }
  · intro key a ha
    rw [get?_popFront]
    split
    · rfl
    · exact h.disjoint key a ha
  · intro key a ha
    rw [get?_popFront] at ha
    split at ha
    · simp at ha
    · exact h.l2_valid key a ha
  · intro key
    unfold view tableView
    simp only [get?_popFront]
    by_cases hkey : key = victim
    · subst hkey
      simpa [hnone, hget, stateOfRow_rowOf, SameView] using
        sameSession_reloaded state
    · rw [if_neg hkey, AList.lookup_insert_ne hkey]
      exact SameView.refl _

/-- `evict_l2_if_needed_locked`. -/
theorem evictL2_spec
    (hharmless : Harmless faults) {fuel : Nat} (h : Ready codec s)
    (hfuel : s.l2.size ≤ fuel) :
    Moved codec faults s (s.evictL2 codec now faults fuel) ∧
      (s.evictL2 codec now faults fuel).1.l1 = s.l1 ∧
      ((s.evictL2 codec now faults fuel).2 = .done →
        (s.evictL2 codec now faults fuel).1.l2.size ≤ s.l2Capacity) := by
  induction fuel generalizing s with
  | zero =>
      have hsize : s.l2.size ≤ s.l2Capacity := by omega
      exact ⟨Moved.refl h, rfl, fun _ => hsize⟩
  | succ fuel ih =>
      by_cases hover : s.l2Capacity < s.l2.size
      · obtain ⟨victim, hfront⟩ := h.l2_linked.front?_isSome (by omega)
        obtain ⟨⟨state, hget⟩, hlinked, hsize⟩ := h.l2_linked.front hfront
        have hvalid := h.l2_valid victim state hget
        rcases persistStateLocked_spec codec now hharmless
          s.table hvalid state with ⟨hthrew, hne⟩ | hdone
        · have heq : s.evictL2 codec now faults (fuel + 1) = (s, .threw) := by
            simp [Store.evictL2, hover, hfront, hget, hthrew]
          rw [heq]
          exact ⟨Moved.stopped h hne, rfl, by simp⟩
        · have heq : s.evictL2 codec now faults (fuel + 1) =
              Store.evictL2 codec now faults fuel
                { s with
                  l2 := s.l2.popFront victim
                  table := s.table.insert victim (rowOf codec now state) } := by
            simp [Store.evictL2, hover, hfront, hget, hdone]
          have hmoved : Moved codec faults s _ := moved_toTable now h hfront hget
          obtain ⟨hrest, hl1, hbound⟩ := ih hmoved.ready (by simp only; omega)
          rw [heq]
          exact ⟨hmoved.trans hrest, hl1, hbound⟩
      · have heq : s.evictL2 codec now faults (fuel + 1) = (s, .done) := by
          simp [Store.evictL2, hover]
        rw [heq]
        exact ⟨Moved.refl h, rfl, fun _ => by simp only; omega⟩

/-- The first state of L1 moves to L2. -/
theorem moved_toL2
    (h : Ready codec s) {victim : Key} {state : GenerationState}
    (hfront : s.l1.front? = some victim) (hget : s.l1.get? victim = some state) :
    Moved codec faults s
      ({ s with
          l1 := s.l1.popFront victim
          l2 := (s.l2.pushBack victim).insertBack victim state }, .done) := by
  obtain ⟨-, hlinked, -⟩ := h.l1_linked.front hfront
  have hnone := h.disjoint victim state hget
  refine
    { ready :=
        { l1_linked := hlinked
          l2_linked := (h.l2_linked.except hnone).append state
          disjoint := ?_
          l1_valid := ?_
          l2_valid := ?_
          rows := h.rows }
      views := ?_
      l1Capacity_eq := rfl
      l2Capacity_eq := rfl
      defined := by simp
      clean := fun _ => rfl }
  · intro key a ha
    rw [get?_popFront] at ha
    rw [get?_append]
    split at ha
    · simp at ha
    · rename_i hkey
      rw [if_neg hkey]
      exact h.disjoint key a ha
  · intro key a ha
    rw [get?_popFront] at ha
    split at ha
    · simp at ha
    · exact h.l1_valid key a ha
  · intro key a ha
    rw [get?_append] at ha
    split at ha
    · rename_i hkey
      subst hkey
      exact h.l1_valid key state hget
    · exact h.l2_valid key a ha
  · intro key
    unfold view
    simp only [get?_popFront, get?_append]
    by_cases hkey : key = victim
    · subst hkey
      simpa [hget, SameView] using SameSession.refl state
    · rw [if_neg hkey, if_neg hkey]
      exact SameView.refl _

/-- `evict_l1_if_needed_locked`. -/
theorem evictL1_spec
    (hharmless : Harmless faults) {fuel : Nat} (h : Ready codec s)
    (hfuel : s.l1.size ≤ fuel) :
    Moved codec faults s (s.evictL1 codec now faults fuel) ∧
      ((s.evictL1 codec now faults fuel).2 = .done →
        Bounded (s.evictL1 codec now faults fuel).1) := by
  have hlast : ∀ {s : Store}, Ready codec s → s.l1.size ≤ s.l1Capacity →
      Moved codec faults s (s.evictL2 codec now faults s.l2.size) ∧
      ((s.evictL2 codec now faults s.l2.size).2 = .done →
        Bounded (s.evictL2 codec now faults s.l2.size).1) := by
    intro s h hsize
    obtain ⟨hmoved, hl1, hbound⟩ := evictL2_spec now hharmless h le_rfl
    refine ⟨hmoved, fun hexit => ⟨?_, ?_⟩⟩
    · rw [hl1, hmoved.l1Capacity_eq]
      exact hsize
    · rw [hmoved.l2Capacity_eq]
      exact hbound hexit
  induction fuel generalizing s with
  | zero => exact hlast h (by omega)
  | succ fuel ih =>
      by_cases hover : s.l1Capacity < s.l1.size
      · obtain ⟨victim, hfront⟩ := h.l1_linked.front?_isSome (by omega)
        obtain ⟨⟨state, hget⟩, hlinked, hsize⟩ := h.l1_linked.front hfront
        cases hhost : fails faults .toHost victim with
        | true =>
            have heq : s.evictL1 codec now faults (fuel + 1) = (s, .threw) := by
              simp [Store.evictL1, hover, hfront, hget, hhost]
            have hne : faults ≠ [] := by
              rintro rfl
              simp at hhost
            rw [heq]
            exact ⟨Moved.stopped h hne, by simp⟩
        | false =>
            have hpush := hharmless.fails .demotePush rfl victim
            have hinsert := hharmless.fails .demoteInsert rfl victim
            have heq : s.evictL1 codec now faults (fuel + 1) =
                Store.evictL1 codec now faults fuel
                  { s with
                    l1 := s.l1.popFront victim
                    l2 := (s.l2.pushBack victim).insertBack victim state } := by
              simp [Store.evictL1, hover, hfront, hget, hhost, hpush, hinsert]
            have hmoved : Moved codec faults s _ := moved_toL2 h hfront hget
            obtain ⟨hrest, hbound⟩ := ih hmoved.ready (by simp only; omega)
            rw [heq]
            exact ⟨hmoved.trans hrest, hbound⟩
      · have heq : s.evictL1 codec now faults (fuel + 1) =
            s.evictL2 codec now faults s.l2.size := by
          simp [Store.evictL1, hover]
        rw [heq]
        exact hlast h (by omega)

/-- A state enters L1 under a session that no level has. -/
theorem addToL1_spec
    (hharmless : Harmless faults) (h : Ready codec s) (place : Place) {key : Key}
    (hkey : ValidKey key) (state : GenerationState)
    (hl1 : s.l1.get? key = none) (hl2 : s.l2.get? key = none) :
    s.addToL1 codec now faults place key state = (s, .threw) ∧
        fails faults (.orderPush place) key = true ∨
      ∃ s', Moved codec faults s' (s.addToL1 codec now faults place key state) ∧
        ((s.addToL1 codec now faults place key state).2 = .done →
          Bounded (s.addToL1 codec now faults place key state).1) ∧
        s'.l1Capacity = s.l1Capacity ∧ s'.l2Capacity = s.l2Capacity ∧
        ∀ key', view codec s' key' =
          if key' = key then some state else view codec s key' := by
  cases hpush : fails faults (.orderPush place) key with
  | true =>
      left
      exact ⟨by simp [Store.addToL1, hpush], rfl⟩
  | false =>
      right
      let s' : Store :=
        { s with l1 := (s.l1.pushBack key).insertBack key state }
      have hclone := hharmless.fails (.clone place) rfl key
      have hinsert := hharmless.fails (.cacheInsert place) rfl key
      have heq : s.addToL1 codec now faults place key state =
          s'.evictL1 codec now faults s'.l1.size := by
        simp [Store.addToL1, hpush, hclone, hinsert, s']
      have hready : Ready codec s' := by
        refine
          { l1_linked := (h.l1_linked.except hl1).append state
            l2_linked := h.l2_linked
            disjoint := ?_
            l1_valid := ?_
            l2_valid := h.l2_valid
            rows := h.rows }
        · intro key' a ha
          rw [get?_append] at ha
          split at ha
          · rename_i hkey'
            rw [hkey']
            exact hl2
          · exact h.disjoint key' a ha
        · intro key' a ha
          rw [get?_append] at ha
          split at ha
          · rename_i hkey'
            rw [hkey']
            exact hkey
          · exact h.l1_valid key' a ha
      obtain ⟨hmoved, hbound⟩ := evictL1_spec now hharmless hready le_rfl
      rw [heq]
      refine ⟨s', hmoved, hbound, rfl, rfl, ?_⟩
      intro key'
      unfold view
      simp only [s', get?_append]
      by_cases hkey' : key' = key
      · simp [hkey']
      · simp [hkey']

end Eviction

section Entries

variable {codec : IdentityCodec} {level : LinkedMap Key GenerationState}

theorem mem_entriesOf {key : Key} {state : GenerationState} :
    (key, state) ∈ entriesOf level ↔ level.get? key = some state := by
  simp only [entriesOf, List.mem_map, Prod.mk.injEq, LinkedMap.get?,
    Option.map_eq_some_iff]
  constructor
  · rintro ⟨⟨key', state', position⟩, hmem, rfl, rfl⟩
    exact ⟨(state', position), AList.mem_lookup_iff.mpr hmem, rfl⟩
  · rintro ⟨⟨state', position⟩, hlookup, rfl⟩
    exact ⟨⟨key, state', position⟩, AList.mem_lookup_iff.mp hlookup, rfl, rfl⟩

theorem nodup_entriesOf : ((entriesOf level).map Prod.fst).Nodup := by
  rw [entriesOf, List.map_map]
  exact level.map.keys_nodup

theorem mem_keys_entriesOf {key : Key} :
    key ∈ (entriesOf level).map Prod.fst ↔ (level.get? key).isSome := by
  rw [List.mem_map, Option.isSome_iff_exists]
  constructor
  · rintro ⟨⟨key, state⟩, hmem, rfl⟩
    exact ⟨state, mem_entriesOf.mp hmem⟩
  · rintro ⟨state, hget⟩
    exact ⟨(key, state), mem_entriesOf.mpr hget, rfl⟩

/-- The levels after `clear`. -/
theorem ready_cleared (s : Store) (h : RowsParse codec s.table) :
    Ready codec { s with l1 := .empty, l2 := .empty } :=
  { l1_linked := linked_empty
    l2_linked := linked_empty
    disjoint := by simp
    l1_valid := by simp
    l2_valid := by simp
    rows := h }

end Entries

section Operations

variable {codec : IdentityCodec} (now : Nat) {faults : Faults} {s : Store}
  {key : Key}

/-- A session is dropped from both levels. -/
theorem Ready.dropped (h : Ready codec s) (key : Key) :
    Ready codec { s with l1 := s.l1.erase key, l2 := s.l2.erase key } := by
  refine
    { l1_linked := h.l1_linked.erase key
      l2_linked := h.l2_linked.erase key
      disjoint := ?_
      l1_valid := ?_
      l2_valid := ?_
      rows := h.rows }
  · intro key' a ha
    rw [get?_erase] at ha ⊢
    split at ha
    · simp at ha
    · rename_i hkey
      rw [if_neg hkey]
      exact h.disjoint key' a ha
  · intro key' a ha
    rw [get?_erase] at ha
    split at ha
    · simp at ha
    · exact h.l1_valid key' a ha
  · intro key' a ha
    rw [get?_erase] at ha
    split at ha
    · simp at ha
    · exact h.l2_valid key' a ha

/-- `put_state`. -/
theorem putState_spec
    (hharmless : Harmless faults) (h : Ready codec s) (hkey : ValidKey key)
    (state : GenerationState) :
    let r := s.putState codec now faults key state
    Ready codec r.1 ∧ r.2 ≠ .undefined ∧
      (∀ key', key' ≠ key → SameView (view codec s key') (view codec r.1 key')) ∧
      (r.2 = .done → SameView (some state) (view codec r.1 key) ∧ Bounded r.1) ∧
      (faults = [] → r.2 = .done) := by
  intro r
  let s₀ : Store := { s with l1 := s.l1.erase key, l2 := s.l2.erase key }
  have hready : Ready codec s₀ := h.dropped key
  have hother : ∀ key', key' ≠ key → view codec s₀ key' = view codec s key' := by
    intro key' hne
    simp [s₀, view, hne]
  have hr : r = s₀.addToL1 codec now faults .put key state := rfl
  rcases addToL1_spec now hharmless hready .put hkey state
    (by simp [s₀]) (by simp [s₀]) with ⟨hthrew, hfault⟩ | ⟨s', hmoved, hbound, -, -, hview⟩
  · rw [hr, hthrew]
    refine ⟨hready, by simp, ?_, by simp, ?_⟩
    · intro key' hne
      rw [hother key' hne]
      exact SameView.refl _
    · rintro rfl
      simp at hfault
  · rw [← hr] at hmoved hbound
    refine ⟨hmoved.ready, hmoved.defined, ?_, ?_, hmoved.clean⟩
    · intro key' hne
      have hsame := hmoved.views key'
      rwa [hview, if_neg hne, hother key' hne] at hsame
    · intro hdone
      have hsame := hmoved.views key
      rw [hview, if_pos rfl] at hsame
      exact ⟨hsame, hbound hdone⟩

/-- What `get_state` may end with. -/
structure Got (codec : IdentityCodec) (faults : Faults) (s : Store) (key : Key)
    (r : Store × GetResult) : Prop where
  ready : Ready codec r.1
  views : SameViews codec s r.1
  defined : r.2 ≠ .undefined
  hit : ∀ state, r.2 = .returned (some state) → view codec s key = some state
  miss : r.2 = .returned none →
    view codec s key = none ∨ fails faults .sqlRead key = true
  clean : faults = [] → r.2 = .returned (view codec s key)
  bounded : faults = [] → Bounded s → Bounded r.1

/-- A failure that left the views as they are. -/
theorem Got.threw
    {s' : Store} (h : Ready codec s') (hviews : SameViews codec s s')
    (hne : faults ≠ []) : Got codec faults s key (s', .threw) :=
  { ready := h
    views := hviews
    defined := by simp
    hit := by simp
    miss := by simp
    clean := fun hnil => absurd hnil hne
    bounded := fun hnil => absurd hnil hne }

/-- The last part of the two branches that bring a state to L1. -/
theorem Got.added
    {s₀ : Store} {place : Place} {state : GenerationState}
    (hharmless : Harmless faults) (h : Ready codec s₀) (hkey : ValidKey key)
    (hl1 : s₀.l1.get? key = none) (hl2 : s₀.l2.get? key = none)
    (hview : view codec s key = some state)
    (hother : ∀ key', key' ≠ key → view codec s₀ key' = view codec s key')
    (hplace : fails faults (.orderPush place) key = true → SameViews codec s s₀) :
    Got codec faults s key
      ((s₀.addToL1 codec now faults place key state).1,
        GetResult.after (s₀.addToL1 codec now faults place key state).2 state) := by
  rcases addToL1_spec now hharmless h place hkey state hl1 hl2 with
    ⟨hthrew, hfault⟩ | ⟨s', hmoved, hbound, -, -, hview'⟩
  · rw [hthrew]
    refine Got.threw h (hplace hfault) ?_
    rintro rfl
    simp at hfault
  · have hviews : SameViews codec s
        (s₀.addToL1 codec now faults place key state).1 := by
      refine SameViews.trans (fun key' => ?_) hmoved.views
      by_cases hne : key' = key
      · rw [hview', if_pos hne, hne, hview]
        exact SameView.refl _
      · rw [hview', if_neg hne, hother key' hne]
        exact SameView.refl _
    generalize hr : s₀.addToL1 codec now faults place key state = r at *
    obtain ⟨s₁, exit⟩ := r
    cases exit with
    | done =>
        exact
          { ready := hmoved.ready
            views := hviews
            defined := by simp [GetResult.after]
            hit := by
              intro state' hstate'
              simp only [GetResult.after, GetResult.returned.injEq] at hstate'
              rw [hview, hstate']
            miss := by simp [GetResult.after]
            clean := fun _ => by rw [hview]; rfl
            bounded := fun _ _ => hbound rfl }
    | threw =>
        refine Got.threw hmoved.ready hviews ?_
        intro hnil
        have hdone := hmoved.clean hnil
        simp at hdone
    | undefined => exact absurd rfl hmoved.defined

/-- `get_state` of a session in L1. -/
theorem getState_l1
    (hharmless : Harmless faults) (h : Ready codec s) {state : GenerationState}
    (hget : s.l1.get? key = some state) :
    Got codec faults s key (s.getState codec now faults key) := by
  have hpush := hharmless.fails .touchPush rfl key
  let s' : Store :=
    { s with l1 := ((s.l1.unlink key).pushBack key).insertBack key state }
  have hlevel : ∀ key', s'.l1.get? key' = s.l1.get? key' := by
    intro key'
    simp only [s', get?_append, get?_unlink]
    split
    · rename_i heq
      rw [heq, hget]
    · rfl
  have hready : Ready codec s' :=
    { h with
      l1_linked := (h.l1_linked.touch hget).1
      disjoint := fun key' a ha => h.disjoint key' a (hlevel key' ▸ ha)
      l1_valid := fun key' a ha => h.l1_valid key' a (hlevel key' ▸ ha) }
  have hviews : SameViews codec s s' := by
    intro key'
    have heq : view codec s' key' = view codec s key' := by
      simp only [view, hlevel]
      rfl
    rw [heq]
    exact SameView.refl _
  have hview : view codec s key = some state := by
    simp [view, hget]
  cases hclone : fails faults .cloneResult key with
  | true =>
      have heq : s.getState codec now faults key = (s', .threw) := by
        simp [Store.getState, hget, hpush, hclone, s']
      rw [heq]
      refine Got.threw hready hviews ?_
      rintro rfl
      simp at hclone
  | false =>
      have heq : s.getState codec now faults key =
          (s', .returned (some state)) := by
        simp [Store.getState, hget, hpush, hclone, s']
      rw [heq]
      exact
        { ready := hready
          views := hviews
          defined := by simp
          hit := by
            intro state' hstate'
            simp only [GetResult.returned.injEq] at hstate'
            rw [hview, hstate']
          miss := by simp
          clean := fun _ => by rw [hview]
          bounded := fun _ hbounded =>
            { l1 := (h.l1_linked.touch hget).2 ▸ hbounded.l1
              l2 := hbounded.l2 } }

/-- `get_state` of a session in L2. -/
theorem getState_l2
    (hharmless : Harmless faults) (h : Ready codec s) {state : GenerationState}
    (hl1 : s.l1.get? key = none) (hget : s.l2.get? key = some state) :
    Got codec faults s key (s.getState codec now faults key) := by
  have hpush := hharmless.fails .touchPush rfl key
  have hkey := h.l2_valid key state hget
  let touched : LinkedMap Key GenerationState :=
    ((s.l2.unlink key).pushBack key).insertBack key state
  have hlevel : ∀ key', touched.get? key' = s.l2.get? key' := by
    intro key'
    simp only [touched, get?_append, get?_unlink]
    split
    · rename_i heq
      rw [heq, hget]
    · rfl
  have hlinked : Linked touched := (h.l2_linked.touch hget).1
  have hview : view codec s key = some state := by
    simp [view, hl1, hget]
  cases hdevice : fails faults .toDevice key with
  | true =>
      have heq : s.getState codec now faults key =
          ({ s with l2 := touched }, .threw) := by
        simp [Store.getState, hl1, hget, hpush, hdevice, touched]
      rw [heq]
      refine Got.threw ?_ ?_ ?_
      · exact
          { h with
            l2_linked := hlinked
            disjoint := fun key' a ha => (hlevel key').trans (h.disjoint key' a ha)
            l2_valid := fun key' a ha => h.l2_valid key' a (hlevel key' ▸ ha) }
      · intro key'
        have heq : view codec { s with l2 := touched } key' =
            view codec s key' := by
          simp only [view, hlevel]
        rw [heq]
        exact SameView.refl _
      · rintro rfl
        simp at hdevice
  | false =>
      let s₀ : Store := { s with l2 := touched.erase key }
      have hlevel₀ : ∀ key', s₀.l2.get? key' =
          if key' = key then none else s.l2.get? key' := by
        intro key'
        simp only [s₀, get?_erase, hlevel]
      have heq : s.getState codec now faults key =
          ((s₀.addToL1 codec now faults .promote key state).1,
            GetResult.after
              (s₀.addToL1 codec now faults .promote key state).2 state) := by
        simp [Store.getState, hl1, hget, hpush, hdevice, touched, s₀]
      have hready : Ready codec s₀ := by
        refine { h with l2_linked := hlinked.erase key, disjoint := ?_, l2_valid := ?_ }
        · intro key' a ha
          rw [hlevel₀]
          split
          · rfl
          · exact h.disjoint key' a ha
        · intro key' a ha
          rw [hlevel₀] at ha
          split at ha
          · simp at ha
          · exact h.l2_valid key' a ha
      have horder := hharmless.fails (.orderPush .promote) rfl key
      rw [heq]
      refine Got.added now hharmless hready hkey hl1 ?_ hview ?_ ?_
      · rw [hlevel₀, if_pos rfl]
      · intro key' hne
        simp only [view, hlevel₀, if_neg hne]
        rfl
      · intro hfault
        rw [horder] at hfault
        exact Bool.noConfusion hfault

/-- `get_state` of a session that is at most in the table. -/
theorem getState_table
    (hharmless : Harmless faults) (h : Ready codec s) (hkey : ValidKey key)
    (hl1 : s.l1.get? key = none) (hl2 : s.l2.get? key = none) :
    Got codec faults s key (s.getState codec now faults key) := by
  have hview : view codec s key = tableView codec s.table key := by
    simp [view, hl1, hl2]
  have hstring : s.table.lookup (cString key) = s.table.lookup key := by
    rw [cString_eq hkey.2]
  -- a lookup that changes nothing and returns nothing
  have hmissing : loadStateLocked codec faults s.table key = .missing →
      (view codec s key = none ∨ fails faults .sqlRead key = true) →
      Got codec faults s key (s.getState codec now faults key) := by
    intro hload hnone
    have heq : s.getState codec now faults key = (s, .returned none) := by
      simp [Store.getState, hl1, hl2, hload]
    rw [heq]
    refine
      { ready := h
        views := SameViews.refl s
        defined := by simp
        hit := by simp
        miss := fun _ => hnone
        clean := ?_
        bounded := fun _ hbounded => hbounded }
    rintro rfl
    rcases hnone with hnone | hfault
    · rw [hnone]
    · simp at hfault
  cases hread : fails faults .sqlRead key with
  | true =>
      refine hmissing ?_ (Or.inr hread)
      simp [loadStateLocked, hread]
  | false =>
      cases hrow : s.table.lookup key with
      | none =>
          refine hmissing ?_ (Or.inl ?_)
          · simp [loadStateLocked, hread, hstring, hrow]
          · simp [hview, tableView, hrow]
      | some row =>
          obtain ⟨state, hstate⟩ :=
            Option.isSome_iff_exists.mp (h.rows key row hrow)
          have hview' : view codec s key = some state := by
            simp [hview, tableView, hrow, hstate]
          cases hparse : fails faults .parse key with
          | true =>
              have heq : s.getState codec now faults key = (s, .threw) := by
                simp [Store.getState, hl1, hl2, loadStateLocked, hread, hstring,
                  hrow, hparse]
              rw [heq]
              refine Got.threw h (SameViews.refl s) ?_
              rintro rfl
              simp at hparse
          | false =>
              have hload : loadStateLocked codec faults s.table key =
                  .state state := by
                simp [loadStateLocked, hread, hstring, hrow, hparse, hstate]
              cases hdevice : fails faults .toDevice key with
              | true =>
                  have heq : s.getState codec now faults key = (s, .threw) := by
                    simp [Store.getState, hl1, hl2, hload, hdevice]
                  rw [heq]
                  refine Got.threw h (SameViews.refl s) ?_
                  rintro rfl
                  simp at hdevice
              | false =>
                  have heq : s.getState codec now faults key =
                      ((s.addToL1 codec now faults .load key state).1,
                        GetResult.after
                          (s.addToL1 codec now faults .load key state).2 state) := by
                    simp [Store.getState, hl1, hl2, hload, hdevice]
                  rw [heq]
                  exact Got.added now hharmless h hkey hl1 hl2 hview' (fun _ _ => rfl)
                    (fun _ => SameViews.refl s)

/-- `get_state`. -/
theorem getState_spec
    (hharmless : Harmless faults) (h : Ready codec s) (hkey : ValidKey key) :
    Got codec faults s key (s.getState codec now faults key) := by
  cases hl1 : s.l1.get? key with
  | some state => exact getState_l1 now hharmless h hl1
  | none =>
      cases hl2 : s.l2.get? key with
      | some state => exact getState_l2 now hharmless h hl1 hl2
      | none => exact getState_table now hharmless h hkey hl1 hl2

/-- `delete_state_from_any_level`. -/
theorem deleteState_spec (h : Ready codec s) (hkey : 0 ∉ key) :
    Ready codec (s.deleteState key) ∧
      view codec (s.deleteState key) key = none ∧
      ∀ key', key' ≠ key →
        view codec (s.deleteState key) key' = view codec s key' := by
  have heq : s.deleteState key =
      { s with
        l1 := s.l1.erase key
        l2 := s.l2.erase key
        table := s.table.erase key } := by
    rw [Store.deleteState, cString_eq hkey]
  rw [heq]
  refine ⟨{ h.dropped key with rows := ?_ }, ?_, ?_⟩
  · intro key' row hrow
    by_cases hne : key' = key
    · subst hne
      simp at hrow
    · rw [AList.lookup_erase_ne hne] at hrow
      exact h.rows key' row hrow
  · simp [view, tableView]
  · intro key' hne
    simp [view, tableView, hne, AList.lookup_erase_ne]

/-- A level whose states are all in the table. -/
theorem tableView_persisted
    {table : Table} {state : GenerationState}
    (hrow : table.lookup key = some (rowOf codec now state)) :
    SameView (some state) (tableView codec table key) := by
  simpa [tableView, hrow, stateOfRow_rowOf, SameView] using
    sameSession_reloaded state

/-- A table that differs only in the sessions of the two levels. -/
theorem sameViews_table
    {table : Table}
    (htable : ∀ key, s.l1.get? key = none → s.l2.get? key = none →
      table.lookup key = s.table.lookup key) :
    SameViews codec s { s with table := table } := by
  intro key
  cases hl1 : s.l1.get? key with
  | some state => simpa [view, hl1, SameView] using SameSession.refl state
  | none =>
      cases hl2 : s.l2.get? key with
      | some state => simpa [view, hl1, hl2, SameView] using SameSession.refl state
      | none =>
          have heq : view codec { s with table := table } key =
              view codec s key := by
            simp [view, tableView, hl1, hl2, htable key hl1 hl2]
          rw [heq]
          exact SameView.refl _

/-- `shutdown`. -/
theorem shutdown_spec (hharmless : Harmless faults) (h : Ready codec s) :
    let r := s.shutdown codec now faults
    Ready codec r.1 ∧ r.2 ≠ .undefined ∧ SameViews codec s r.1 ∧
      (r.2 = .done → r.1.l1 = .empty ∧ r.1.l2 = .empty) ∧
      (faults = [] → r.2 = .done) ∧
      r.1.l1Capacity = s.l1Capacity ∧ r.1.l2Capacity = s.l2Capacity ∧
      (Bounded s → Bounded r.1) := by
  intro r
  have hvalid₁ : ∀ entry ∈ entriesOf s.l1, ValidKey entry.1 :=
    fun entry hmem => h.l1_valid _ _ (mem_entriesOf.mp hmem)
  have hvalid₂ : ∀ entry ∈ entriesOf s.l2, ValidKey entry.1 :=
    fun entry hmem => h.l2_valid _ _ (mem_entriesOf.mp hmem)
  obtain ⟨hrows₁, hexit₁, hother₁, hstored₁, hclean₁⟩ :=
    persistAll_spec codec now hharmless true
      nodup_entriesOf hvalid₁ h.rows
  rcases hp₁ : persistAll codec now faults true (entriesOf s.l1) s.table with
    ⟨table₁, exit₁⟩
  rw [hp₁] at hrows₁ hexit₁ hother₁ hstored₁ hclean₁
  simp only at hrows₁ hexit₁ hother₁ hstored₁ hclean₁
  simp only [mem_keys_entriesOf, Bool.not_eq_true, Option.isSome_eq_false_iff,
    Option.isNone_iff_eq_none] at hother₁
  cases exit₁ with
  | undefined => exact absurd rfl hexit₁
  | threw =>
      have hr : r = ({ s with table := table₁ }, .threw) := by
        simp [r, Store.shutdown, hp₁]
      rw [hr]
      refine ⟨{ h with rows := hrows₁ }, by simp, ?_, by simp, ?_, rfl, rfl, ?_⟩
      · exact sameViews_table (fun key hl1 _ => hother₁ key hl1)
      · intro hnil
        simpa using hclean₁ hnil
      · exact fun hbounded => ⟨hbounded.l1, hbounded.l2⟩
  | done =>
      obtain ⟨hrows₂, hexit₂, hother₂, hstored₂, hclean₂⟩ :=
        persistAll_spec codec now hharmless false
          nodup_entriesOf hvalid₂ hrows₁
      rcases hp₂ : persistAll codec now faults false (entriesOf s.l2) table₁ with
        ⟨table₂, exit₂⟩
      rw [hp₂] at hrows₂ hexit₂ hother₂ hstored₂ hclean₂
      simp only at hrows₂ hexit₂ hother₂ hstored₂ hclean₂
      simp only [mem_keys_entriesOf, Bool.not_eq_true, Option.isSome_eq_false_iff,
        Option.isNone_iff_eq_none] at hother₂
      have hothers : ∀ key, s.l1.get? key = none → s.l2.get? key = none →
          table₂.lookup key = s.table.lookup key :=
        fun key hl1 hl2 => (hother₂ key hl2).trans (hother₁ key hl1)
      cases exit₂ with
      | undefined => exact absurd rfl hexit₂
      | threw =>
          have hr : r = ({ s with table := table₂ }, .threw) := by
            simp [r, Store.shutdown, hp₁, hp₂]
          rw [hr]
          refine ⟨{ h with rows := hrows₂ }, by simp, sameViews_table hothers,
            by simp, ?_, rfl, rfl, ?_⟩
          · intro hnil
            simpa using hclean₂ hnil
          · exact fun hbounded => ⟨hbounded.l1, hbounded.l2⟩
      | done =>
          have hr : r =
              ({ s with l1 := .empty, l2 := .empty, table := table₂ }, .done) := by
            simp [r, Store.shutdown, hp₁, hp₂]
          rw [hr]
          refine ⟨ready_cleared { s with table := table₂ } hrows₂, by simp,
            ?_, by simp, by simp, rfl, rfl, ?_⟩
          · intro key
            have hview : view codec
                { s with l1 := .empty, l2 := .empty, table := table₂ } key =
                tableView codec table₂ key := by
              simp [view]
            rw [hview]
            cases hl1 : s.l1.get? key with
            | some state =>
                have hrow : table₂.lookup key = some (rowOf codec now state) := by
                  rw [hother₂ key (h.disjoint key state hl1)]
                  exact hstored₁ rfl _ (mem_entriesOf.mpr hl1)
                simpa [view, hl1] using tableView_persisted now hrow
            | none =>
                cases hl2 : s.l2.get? key with
                | some state =>
                    have hrow : table₂.lookup key =
                        some (rowOf codec now state) :=
                      hstored₂ rfl _ (mem_entriesOf.mpr hl2)
                    simpa [view, hl1, hl2] using tableView_persisted now hrow
                | none =>
                    have heq : tableView codec table₂ key =
                        view codec s key := by
                      simp [view, tableView, hl1, hl2, hothers key hl1 hl2]
                    rw [heq]
                    exact SameView.refl _
          · intro _
            constructor
            · simp [LinkedMap.size, LinkedMap.empty]
            · simp [LinkedMap.size, LinkedMap.empty]

end Operations

end StateCache
end RwkvLightning

import RwkvLightning.Server.SessionRoutes
import RwkvLightning.Server.StateCacheSafety

/-!
# What deleting a session reaches

`/state/delete` removes the key that equals the session id, and every listed key
that is the id, a colon and 64 hexadecimal digits.  `held` reads a key from the
highest level that has it, the table under the key's C string; it is defined for
keys with NUL bytes too.

**Results.**  `getState_ordered`: without failures `get_state` returns what is
held, from every store that a run without failures reaches (`ordered_of_run`).
`deletionIsolated_iff`: the deletion of a session leaves another one alone
exactly when its id is not one of the keys of the other session.
-/

namespace RwkvLightning
namespace StateCache

open Execution LinkedMap

section Held

variable (codec : IdentityCodec)

/-- What the levels hold under a key. -/
def held (s : Store) (key : Key) : Option GenerationState :=
  ((s.l1.get? key).or (s.l2.get? key)).or (tableView codec s.table (cString key))

/-- The containers are in order; the keys may be any byte strings. -/
structure Ordered (s : Store) : Prop where
  l1_linked : Linked s.l1
  l2_linked : Linked s.l2
  disjoint : ∀ key a, s.l1.get? key = some a → s.l2.get? key = none
  rows : RowsParse codec s.table

variable {codec} {s : Store} (now : Nat)

theorem persistStateLocked_nil
    (table : Table) (key : Key) (state : GenerationState) :
    persistStateLocked codec now [] table key state =
      (table.insert (cString key) (rowOf codec now state), .done) := by
  simp [persistStateLocked]

/-- `evict_l2_if_needed_locked`. -/
theorem evictL2_ordered
    {fuel : Nat} (h : Ordered codec s) (hfuel : s.l2.size ≤ fuel) :
    ∃ s', s.evictL2 codec now [] fuel = (s', .done) ∧ Ordered codec s' := by
  induction fuel generalizing s with
  | zero => exact ⟨s, rfl, h⟩
  | succ fuel ih =>
      by_cases hover : s.l2Capacity < s.l2.size
      · obtain ⟨victim, hfront⟩ := h.l2_linked.front?_isSome (by omega)
        obtain ⟨⟨state, hget⟩, hlinked, hsize⟩ := h.l2_linked.front hfront
        have heq : s.evictL2 codec now [] (fuel + 1) =
            Store.evictL2 codec now [] fuel
              { s with
                l2 := s.l2.popFront victim
                table := s.table.insert (cString victim) (rowOf codec now state) } := by
          simp [Store.evictL2, hover, hfront, hget, persistStateLocked_nil]
        rw [heq]
        refine ih ?_ (by simp only; omega)
        refine
          { l1_linked := h.l1_linked
            l2_linked := hlinked
            disjoint := ?_
            rows := h.rows.insert now _ _ }
        intro key a ha
        rw [get?_popFront]
        split
        · rfl
        · exact h.disjoint key a ha
      · exact ⟨s, by simp [Store.evictL2, hover], h⟩

/-- `evict_l1_if_needed_locked`. -/
theorem evictL1_ordered
    {fuel : Nat} (h : Ordered codec s) (hfuel : s.l1.size ≤ fuel) :
    ∃ s', s.evictL1 codec now [] fuel = (s', .done) ∧ Ordered codec s' := by
  induction fuel generalizing s with
  | zero => exact evictL2_ordered now h le_rfl
  | succ fuel ih =>
      by_cases hover : s.l1Capacity < s.l1.size
      · obtain ⟨victim, hfront⟩ := h.l1_linked.front?_isSome (by omega)
        obtain ⟨⟨state, hget⟩, hlinked, hsize⟩ := h.l1_linked.front hfront
        have hnone := h.disjoint victim state hget
        have heq : s.evictL1 codec now [] (fuel + 1) =
            Store.evictL1 codec now [] fuel
              { s with
                l1 := s.l1.popFront victim
                l2 := (s.l2.pushBack victim).insertBack victim state } := by
          simp [Store.evictL1, hover, hfront, hget]
        rw [heq]
        refine ih ?_ (by simp only; omega)
        refine
          { l1_linked := hlinked
            l2_linked := (h.l2_linked.except hnone).append state
            disjoint := ?_
            rows := h.rows }
        intro key a ha
        rw [get?_popFront] at ha
        rw [get?_append]
        split at ha
        · simp at ha
        · rename_i hkey
          rw [if_neg hkey]
          exact h.disjoint key a ha
      · have heq : s.evictL1 codec now [] (fuel + 1) =
            s.evictL2 codec now [] s.l2.size := by
          simp [Store.evictL1, hover]
        rw [heq]
        exact evictL2_ordered now h le_rfl

theorem addToL1_ordered
    (h : Ordered codec s) (place : Place) {key : Key} (state : GenerationState)
    (hl1 : s.l1.get? key = none) (hl2 : s.l2.get? key = none) :
    ∃ s', s.addToL1 codec now [] place key state = (s', .done) ∧
      Ordered codec s' := by
  have heq : s.addToL1 codec now [] place key state =
      Store.evictL1 codec now []
        ((s.l1.pushBack key).insertBack key state).size
        { s with l1 := (s.l1.pushBack key).insertBack key state } := by
    simp [Store.addToL1]
  rw [heq]
  refine evictL1_ordered now ?_ le_rfl
  refine { h with l1_linked := (h.l1_linked.except hl1).append state, disjoint := ?_ }
  intro key' a ha
  rw [get?_append] at ha
  split at ha
  · rename_i hkey
    rw [hkey]
    exact hl2
  · exact h.disjoint key' a ha

theorem Ordered.dropped (h : Ordered codec s) (key : Key) :
    Ordered codec { s with l1 := s.l1.erase key, l2 := s.l2.erase key } := by
  refine
    { h with
      l1_linked := h.l1_linked.erase key
      l2_linked := h.l2_linked.erase key
      disjoint := ?_ }
  intro key' a ha
  rw [get?_erase] at ha ⊢
  split at ha
  · simp at ha
  · rename_i hkey
    rw [if_neg hkey]
    exact h.disjoint key' a ha

/-- `put_state`. -/
theorem putState_ordered
    (h : Ordered codec s) (key : Key) (state : GenerationState) :
    ∃ s', s.putState codec now [] key state = (s', .done) ∧ Ordered codec s' :=
  addToL1_ordered now (h.dropped key) .put state (by simp) (by simp)

/-- `delete_state_from_any_level`. -/
theorem deleteState_ordered (h : Ordered codec s) (key : Key) :
    Ordered codec (s.deleteState key) := by
  refine { h.dropped key with rows := ?_ }
  intro row r hrow
  by_cases heq : row = cString key
  · subst heq
    simp [Store.deleteState] at hrow
  · rw [Store.deleteState, AList.lookup_erase_ne heq] at hrow
    exact h.rows row r hrow

/-- `get_state` returns what is held. -/
theorem getState_ordered (h : Ordered codec s) (key : Key) :
    ∃ s', s.getState codec now [] key = (s', .returned (held codec s key)) ∧
      Ordered codec s' := by
  cases hl1 : s.l1.get? key with
  | some state =>
      let touched : LinkedMap Key GenerationState :=
        ((s.l1.unlink key).pushBack key).insertBack key state
      have hlevel : ∀ key', touched.get? key' = s.l1.get? key' := by
        intro key'
        simp only [touched, get?_append, get?_unlink]
        split
        · rename_i heq
          rw [heq, hl1]
        · rfl
      refine ⟨{ s with l1 := touched }, ?_, ?_⟩
      · simp [Store.getState, hl1, held, touched]
      · exact
          { h with
            l1_linked := (h.l1_linked.touch hl1).1
            disjoint := fun key' a ha => h.disjoint key' a (hlevel key' ▸ ha) }
  | none =>
      cases hl2 : s.l2.get? key with
      | some state =>
          let s₀ : Store :=
            { s with
              l2 := (((s.l2.unlink key).pushBack key).insertBack key state).erase key }
          have hlevel : ∀ key', s₀.l2.get? key' =
              if key' = key then none else s.l2.get? key' := by
            intro key'
            simp only [s₀, get?_erase, get?_append, get?_unlink]
            split <;> rfl
          have hordered : Ordered codec s₀ := by
            refine
              { h with
                l2_linked := (h.l2_linked.touch hl2).1.erase key
                disjoint := ?_ }
            intro key' a ha
            rw [hlevel]
            split
            · rfl
            · exact h.disjoint key' a ha
          obtain ⟨s', hs', hordered'⟩ := addToL1_ordered now hordered .promote
            state hl1 (by rw [hlevel, if_pos rfl])
          refine ⟨s', ?_, hordered'⟩
          simp [Store.getState, hl1, hl2, held, s₀, GetResult.after] at hs' ⊢
          simp [hs']
      | none =>
          cases hrow : s.table.lookup (cString key) with
          | none =>
              refine ⟨s, ?_, h⟩
              simp [Store.getState, hl1, hl2, held, tableView, loadStateLocked, hrow]
          | some row =>
              obtain ⟨state, hstate⟩ :=
                Option.isSome_iff_exists.mp (h.rows (cString key) row hrow)
              obtain ⟨s', hs', hordered'⟩ := addToL1_ordered now h .load state hl1 hl2
              refine ⟨s', ?_, hordered'⟩
              simp [Store.getState, hl1, hl2, held, tableView, loadStateLocked, hrow,
                hstate, hs', GetResult.after]

theorem persistAll_ordered
    (copies : Bool) (entries : List (Key × GenerationState)) {table : Table}
    (hrows : RowsParse codec table) :
    ∃ table', persistAll codec now [] copies entries table = (table', .done) ∧
      RowsParse codec table' := by
  induction entries generalizing table with
  | nil => exact ⟨table, rfl, hrows⟩
  | cons entry entries ih =>
      obtain ⟨key, state⟩ := entry
      obtain ⟨table', htable, hrows'⟩ := ih (hrows.insert now (cString key) state)
      refine ⟨table', ?_, hrows'⟩
      simp [persistAll, persistStateLocked_nil, htable]

/-- `shutdown`. -/
theorem shutdown_ordered (h : Ordered codec s) :
    ∃ s', s.shutdown codec now [] = (s', .done) ∧ Ordered codec s' := by
  obtain ⟨table₁, htable₁, hrows₁⟩ :=
    persistAll_ordered now true (entriesOf s.l1) h.rows
  obtain ⟨table₂, htable₂, hrows₂⟩ :=
    persistAll_ordered now false (entriesOf s.l2) hrows₁
  refine ⟨{ s with l1 := .empty, l2 := .empty, table := table₂ }, ?_, ?_⟩
  · simp [Store.shutdown, htable₁, htable₂]
  · exact
      { l1_linked := linked_empty
        l2_linked := linked_empty
        disjoint := by simp
        rows := hrows₂ }

end Held

section OrderedRuns

variable {codec : IdentityCodec} {m m' : Manager} {e : Event}

/-- Nothing fails in the step. -/
def QuietStep (_ : Manager) (e : Event) : Prop :=
  e.faults = []

/-- The invariant of the runs in which nothing fails. -/
structure OrderedManager (codec : IdentityCodec) (m : Manager) : Prop where
  running : m.crashed = false
  ordered : Ordered codec m.store

theorem ordered_new : OrderedManager codec Manager.new :=
  { running := rfl
    ordered :=
      { l1_linked := linked_empty
        l2_linked := linked_empty
        disjoint := by simp [Manager.new]
        rows := by
          intro key row hrow
          simp [Manager.new] at hrow } }

theorem ordered_step
    (h : OrderedManager codec m) (hquiet : QuietStep m e)
    (hstep : step codec m e = some m') : OrderedManager codec m' := by
  simp only [step, h.running, Bool.false_eq_true, if_false] at hstep
  cases e with
  | initializeCache l1Capacity l2Capacity =>
      obtain rfl := Option.some.inj hstep
      simp only [Manager.initializeCache]
      split
      · exact h
      · exact
          { running := h.running
            ordered := { h.ordered with } }
  | put key state now faults =>
      obtain rfl := Option.some.inj hstep
      obtain rfl : faults = [] := hquiet
      simp only [Manager.putState]
      split
      · exact h
      · obtain ⟨s', hs', hordered⟩ := putState_ordered now h.ordered key state
        simp only [hs']
        exact { running := by simp, ordered := hordered }
  | get key now faults =>
      obtain rfl := Option.some.inj hstep
      obtain rfl : faults = [] := hquiet
      simp only [Manager.getState]
      split
      · exact h
      · obtain ⟨s', hs', hordered⟩ := getState_ordered now h.ordered key
        simp only [hs']
        exact { running := by simp, ordered := hordered }
  | delete key =>
      simp only at hstep
      split at hstep
      · obtain rfl := Option.some.inj hstep
        exact
          { running := h.running
            ordered := deleteState_ordered h.ordered key }
      · simp at hstep
  | shutdown now faults =>
      obtain rfl := Option.some.inj hstep
      obtain rfl : faults = [] := hquiet
      simp only [Manager.shutdown]
      split
      · exact h
      · obtain ⟨s', hs', hordered⟩ := shutdown_ordered now h.ordered
        simp only [hs']
        exact { running := by simp, ordered := hordered }

/-- The containers are in order after every run in which nothing fails. -/
theorem ordered_of_run
    {es : List Event} (hquiet : StepsMeet (step codec) QuietStep Manager.new es)
    (hrun : exec (step codec) Manager.new es = some m) : OrderedManager codec m :=
  exec_invariant (fun _ _ _ h hquiet hstep => ordered_step h hquiet hstep)
    ordered_new hquiet hrun

/-- A read of a manager whose containers are in order. -/
theorem OrderedManager.reads
    (h : OrderedManager codec m) (hinit : m.initialized = true) {key : Key}
    (hne : key ≠ []) (now : Nat) :
    (m.getState codec key now []).2 = .returned (held codec m.store key) := by
  obtain ⟨s', hs', -⟩ := getState_ordered now h.ordered key
  rw [getState_eq now [] hinit hne, hs']

end OrderedRuns

section DeletedKeys

variable {m : Manager} {keys : List Key} {key : Key}

/-- Several deletions. -/
def deleteKeys (m : Manager) (keys : List Key) : Manager :=
  keys.foldl Manager.deleteState m

@[simp] theorem deleteKeys_cons :
    deleteKeys m (key :: keys) = deleteKeys (m.deleteState key) keys := rfl

theorem deleteListed_fst (sessionId : Key) (ok : Bool) :
    (deleteListed sessionId keys (m, ok)).1 =
      deleteKeys m (keys.filter (inNamespace sessionId)) := by
  induction keys generalizing m ok with
  | nil => rfl
  | cons key keys ih =>
      cases hkey : inNamespace sessionId key with
      | true => simp [deleteListed, hkey, ih]
      | false => simp [deleteListed, hkey, ih]

/-- The keys that the deletion of a session removes. -/
def removedKeys (m : Manager) (sessionId : Key) : List Key :=
  sessionId ::
    (listAllStates (m.deleteState sessionId)).all.filter (inNamespace sessionId)

theorem deleteSession_fst (m : Manager) (sessionId : Key) :
    (deleteSession m sessionId).1 = deleteKeys m (removedKeys m sessionId) := by
  rw [deleteSession, deleteListed_fst, removedKeys, deleteKeys_cons]

theorem initialized_deleteKeys :
    (deleteKeys m keys).initialized = m.initialized := by
  induction keys generalizing m with
  | nil => rfl
  | cons key keys ih => exact ih

theorem OrderedManager.deleteKeys
    {codec : IdentityCodec} (h : OrderedManager codec m) (keys : List Key) :
    OrderedManager codec (deleteKeys m keys) := by
  induction keys generalizing m with
  | nil => exact h
  | cons key keys ih =>
      exact ih { running := h.running, ordered := deleteState_ordered h.ordered key }

theorem get?_l1_deleteKeys :
    (deleteKeys m keys).store.l1.get? key =
      if key ∈ keys then none else m.store.l1.get? key := by
  induction keys generalizing m with
  | nil => simp [deleteKeys]
  | cons key' keys ih =>
      rw [deleteKeys_cons, ih, Manager.deleteState, Store.deleteState]
      by_cases heq : key = key'
      · simp [heq]
      · simp [heq]

theorem get?_l2_deleteKeys :
    (deleteKeys m keys).store.l2.get? key =
      if key ∈ keys then none else m.store.l2.get? key := by
  induction keys generalizing m with
  | nil => simp [deleteKeys]
  | cons key' keys ih =>
      rw [deleteKeys_cons, ih, Manager.deleteState, Store.deleteState]
      by_cases heq : key = key'
      · simp [heq]
      · simp [heq]

theorem lookup_deleteKeys (row : Key) :
    (deleteKeys m keys).store.table.lookup row =
      if row ∈ keys.map cString then none else m.store.table.lookup row := by
  induction keys generalizing m with
  | nil => simp [deleteKeys]
  | cons key' keys ih =>
      rw [deleteKeys_cons, ih, Manager.deleteState, Store.deleteState]
      by_cases heq : row = cString key'
      · subst heq
        simp
      · simp [heq, AList.lookup_erase_ne]

end DeletedKeys

section Listing

variable {α : Type} {r : α → α → Prop} [DecidableRel r]

/-- A filter keeps the order of a sorted list with one more element. -/
theorem filter_orderedInsert
    (htrans : ∀ a b c, r a b → r b c → r a c) (p : α → Bool) (a : α) {l : List α}
    (hsorted : l.Pairwise r) :
    (l.orderedInsert r a).filter p =
      if p a then (l.filter p).orderedInsert r a else l.filter p := by
  induction l with
  | nil => cases hp : p a <;> simp [hp]
  | cons b l ih =>
      rw [List.pairwise_cons] at hsorted
      by_cases hle : r a b
      · rw [List.orderedInsert_cons_of_le r l hle, List.filter_cons]
        cases hp : p a with
        | false => simp
        | true =>
            simp only [if_true]
            -- everything that the filter keeps comes after `a`
            symm
            cases hl : (b :: l).filter p with
            | nil => rfl
            | cons c rest =>
                refine List.orderedInsert_cons_of_le r rest ?_
                have hc : c ∈ b :: l :=
                  (List.mem_filter.mp (hl ▸ List.mem_cons_self)).1
                rcases List.mem_cons.mp hc with rfl | hc
                · exact hle
                · exact htrans a b c hle (hsorted.1 c hc)
      · rw [List.orderedInsert_of_not_le r l hle, List.filter_cons, ih hsorted.2]
        cases hb : p b with
        | false => simp [hb]
        | true =>
            cases hp : p a with
            | false => simp [hb]
            | true => simp [hb, hle]

/-- Filtering and sorting commute. -/
theorem filter_insertionSort
    (htotal : ∀ a b, r a b ∨ r b a) (htrans : ∀ a b c, r a b → r b c → r a c)
    (p : α → Bool) (l : List α) :
    (l.insertionSort r).filter p = (l.filter p).insertionSort r := by
  have : Std.Total r := ⟨htotal⟩
  have : IsTrans α r := ⟨htrans⟩
  induction l with
  | nil => rfl
  | cons a l ih =>
      rw [List.insertionSort_cons, filter_orderedInsert htrans p a
        (List.pairwise_insertionSort r l), ih]
      cases hp : p a with
      | false => simp [hp]
      | true => simp [hp]

/-- An erased key does not count for a filter that leaves it out. -/
theorem filter_kerase
    {β : Key → Type} {p : Key → Bool} {key : Key} (hp : p key = false)
    (l : List (Sigma β)) :
    (l.kerase key).filter (fun entry => p entry.1) =
      l.filter (fun entry => p entry.1) := by
  induction l with
  | nil => rfl
  | cons entry l ih =>
      by_cases heq : key = entry.1
      · rw [List.kerase_cons_eq heq, List.filter_cons, ← heq, hp]
        rfl
      · rw [List.kerase_cons_ne heq, List.filter_cons, List.filter_cons, ih]

end Listing

section Names

variable {p : Fingerprinting} {s t key : Key}

/-- A client-chosen session id as the handlers use it. -/
structure SessionId where
  bytes : Key
  ne_nil : bytes ≠ []
  trimmed : trim bytes = bytes
  nulFree : 0 ∉ bytes

theorem length_finish (digest : List UInt8) :
    (finish digest).length = 2 * digest.length := by
  induction digest with
  | nil => rfl
  | cons byte digest ih =>
      rw [finish, List.flatMap_cons, List.length_append, ← finish, ih]
      simp only [List.length_cons, List.length_nil]
      omega

theorem isxdigit_hexDigit {n : Nat} (h : n < 16) : isxdigit (hexDigit n) = true := by
  have hall : ∀ n < 16, isxdigit (hexDigit n) = true := by decide
  exact hall n h

theorem isxdigit_finish (digest : List UInt8) : (finish digest).all isxdigit = true := by
  induction digest with
  | nil => rfl
  | cons byte digest ih =>
      have hbyte := byte.toNat_lt
      rw [finish, List.flatMap_cons, List.all_append, ← finish, ih]
      simp only [List.all_cons, List.all_nil, Bool.and_true]
      rw [isxdigit_hexDigit (by omega), isxdigit_hexDigit (by omega)]
      rfl

theorem length_effectiveModelKey (k : ModelKey) :
    (effectiveModelKey p k).length = 64 := by
  rw [effectiveModelKey, length_finish, p.length_sha256]

/-- What the loop of `/state/delete` takes for a state of the session. -/
theorem inNamespace_iff :
    inNamespace s key = true ↔
      ∃ digits : Key, key = s ++ bytesOf ":" ++ digits ∧ digits.length = 64 ∧
        digits.all isxdigit = true := by
  simp only [inNamespace, Bool.and_eq_true, decide_eq_true_eq, List.isPrefixOf_iff_prefix]
  constructor
  · rintro ⟨⟨hlength, digits, rfl⟩, hdigits⟩
    rw [List.length_append] at hlength
    rw [List.drop_left] at hdigits
    exact ⟨digits, rfl, by omega, hdigits⟩
  · rintro ⟨digits, rfl, hlength, hdigits⟩
    refine ⟨⟨?_, List.prefix_append _ _⟩, ?_⟩
    · rw [List.length_append, hlength]
    · rw [List.drop_left]
      exact hdigits

theorem inNamespace_sessionStateKey (k : ModelKey) :
    inNamespace s (sessionStateKey p s k) = true :=
  inNamespace_iff.mpr
    ⟨_, rfl, length_effectiveModelKey k, isxdigit_finish _⟩

/-- A key of a session is in the namespace of no other session. -/
theorem eq_of_inNamespace {k : ModelKey}
    (h : inNamespace s (sessionStateKey p t k) = true) : s = t := by
  obtain ⟨digits, heq, hlength, -⟩ := inNamespace_iff.mp h
  have hdigits : (effectiveModelKey p k).length = digits.length := by
    rw [hlength, length_effectiveModelKey]
  have hleft := (List.append_inj' heq hdigits).1
  exact (List.append_cancel_right hleft).symm

theorem zero_notMem_digits {digits : Key} (h : digits.all isxdigit = true) :
    0 ∉ digits := by
  intro hmem
  have hzero := List.all_eq_true.mp h 0 hmem
  revert hzero
  decide

/-- A key in the namespace of an id without NUL bytes has none. -/
theorem nulFree_of_inNamespace (hs : 0 ∉ s) (h : inNamespace s key = true) : 0 ∉ key := by
  obtain ⟨digits, rfl, -, hdigits⟩ := inNamespace_iff.mp h
  have hcolon : (0 : UInt8) ∉ bytesOf ":" := by decide
  rw [List.mem_append, List.mem_append]
  rintro ((hmem | hmem) | hmem)
  · exact hs hmem
  · exact hcolon hmem
  · exact zero_notMem_digits hdigits hmem

end Names

section Isolation

variable {p : Fingerprinting} {codec : IdentityCodec} {m : Manager}

/-- The request reaches the deletion of the session. -/
structure Deletes (request : SessionRequest) (s : SessionId) : Prop where
  validJson : request.validJson = true
  authorized : request.authorized = true
  resolved : sessionIdFromRequest request = .ok s.bytes

theorem stateDelete_fst
    {request : SessionRequest} {s : SessionId} (h : Deletes request s) :
    (stateDelete m request).1 = deleteKeys m (removedKeys m s.bytes) := by
  rw [← deleteSession_fst]
  simp only [stateDelete, h.validJson, h.authorized, h.resolved, s.ne_nil,
    Bool.not_true, Bool.false_eq_true, if_false]
  split <;> rfl

/-- The keys of a session. -/
def IsKeyOf (p : Fingerprinting) (t : SessionId) (key : Key) : Prop :=
  ∃ k, key = sessionStateKey p t.bytes k

/-- The deletion of `s` that takes `m` to `m'` leaves the states of `t` alone. -/
structure KeepsSession (p : Fingerprinting) (t : SessionId) (m m' : Manager) :
    Prop where
  l1 : ∀ key, IsKeyOf p t key → m'.store.l1.get? key = m.store.l1.get? key
  l2 : ∀ key, IsKeyOf p t key → m'.store.l2.get? key = m.store.l2.get? key
  table : ∀ key, IsKeyOf p t key →
    m'.store.table.lookup key = m.store.table.lookup key
  listed : ∀ choose : Key → Bool, (∀ key, choose key = true → IsKeyOf p t key) →
    (listAllStates m').l1Cache.filter choose =
        (listAllStates m).l1Cache.filter choose ∧
      (listAllStates m').l2Cache.filter choose =
        (listAllStates m).l2Cache.filter choose ∧
      (listAllStates m').database.filter choose =
        (listAllStates m).database.filter choose

/-- No state of `s` is left in `m`. -/
structure Removed (p : Fingerprinting) (codec : IdentityCodec) (s : SessionId)
    (m : Manager) : Prop where
  unread : ∀ key, IsKeyOf p s key → ∀ now faults,
    (m.getState codec key now faults).2 = .returned none
  unlisted : ∀ key, IsKeyOf p s key → key ∉ (listAllStates m).all

/--
Deleting session `s` after any run removes all states of `s` and leaves the
states, the listing and, when nothing failed in the run, the reads of `t` as they
are.
-/
def DeletionIsolated (p : Fingerprinting) (codec : IdentityCodec) (s t : SessionId) :
    Prop :=
  ∀ es m request, exec (step codec) Manager.new es = some m →
    m.initialized = true → Deletes request s →
    let m' := (stateDelete m request).1
    Removed p codec s m' ∧ KeepsSession p t m m' ∧
      (StepsMeet (step codec) QuietStep Manager.new es →
        ∀ key, IsKeyOf p t key → ∀ now,
          (m'.getState codec key now []).2 = (m.getState codec key now []).2)

theorem mem_keysOf {level : LinkedMap Key GenerationState} {key : Key} :
    key ∈ keysOf level ↔ (level.get? key).isSome = true := by
  rw [LinkedMap.get?, Option.isSome_map, AList.lookup_isSome]
  rfl

/-- What `list_all_states` lists. -/
theorem mem_listAllStates {key : Key} :
    key ∈ (listAllStates m).all ↔
      (m.store.l1.get? key).isSome = true ∨ (m.store.l2.get? key).isSome = true ∨
        (m.store.table.lookup key).isSome = true := by
  have htable : key ∈ (listAllStates m).database ↔
      (m.store.table.lookup key).isSome = true := by
    rw [AList.lookup_isSome]
    change key ∈ (m.store.table.entries.insertionSort moreRecent).map Sigma.fst ↔
      key ∈ m.store.table.entries.map Sigma.fst
    exact ((List.perm_insertionSort moreRecent _).map Sigma.fst).mem_iff
  rw [StateSummary.all, List.mem_append, List.mem_append, htable, or_assoc]
  exact or_congr mem_keysOf (or_congr mem_keysOf Iff.rfl)

/-- A removed key is the id or a key in its namespace. -/
theorem mem_removedKeys {s key : Key} (h : key ∈ removedKeys m s) :
    key = s ∨ inNamespace s key = true := by
  rcases List.mem_cons.mp h with heq | hmem
  · exact Or.inl heq
  · exact Or.inr (List.mem_filter.mp hmem).2

/-- The removed keys are the rows that the deletion erases. -/
theorem cString_removedKeys (m : Manager) (s : SessionId) :
    (removedKeys m s.bytes).map cString = removedKeys m s.bytes := by
  have hfixed : ∀ key ∈ removedKeys m s.bytes, cString key = id key := by
    intro key hkey
    refine cString_eq ?_
    rcases mem_removedKeys hkey with rfl | hnamespace
    · exact s.nulFree
    · exact nulFree_of_inNamespace s.nulFree hnamespace
  rw [List.map_congr_left hfixed, List.map_id]

/-- A key of a session has no NUL byte, so the table keeps it whole. -/
theorem IsKeyOf.cString_eq {t : SessionId} {key : Key} (h : IsKeyOf p t key) :
    cString key = key := by
  obtain ⟨k, rfl⟩ := h
  exact StateCache.cString_eq
    (nulFree_of_inNamespace t.nulFree (inNamespace_sessionStateKey k))

theorem IsKeyOf.ne_nil {t : SessionId} {key : Key} (h : IsKeyOf p t key) : key ≠ [] := by
  obtain ⟨k, rfl⟩ := h
  simp [sessionStateKey, t.ne_nil]

/-- A stored key of the session is removed. -/
theorem IsKeyOf.mem_removedKeys {s : SessionId} {key : Key} (h : IsKeyOf p s key)
    (hstored : key ∈ (listAllStates (m.deleteState s.bytes)).all) :
    key ∈ removedKeys m s.bytes := by
  obtain ⟨k, rfl⟩ := h
  exact List.mem_cons_of_mem _
    (List.mem_filter.mpr ⟨hstored, inNamespace_sessionStateKey k⟩)

/-- A removed key is not stored. -/
theorem not_stored_of_removed {s : SessionId} {key : Key}
    (h : key ∈ removedKeys m s.bytes) :
    key ∉ (listAllStates (deleteKeys m (removedKeys m s.bytes))).all := by
  rw [mem_listAllStates, get?_l1_deleteKeys, get?_l2_deleteKeys, lookup_deleteKeys,
    cString_removedKeys]
  simp [h]

/-- Nothing of the session is stored after the deletion. -/
theorem not_stored_of_deleted {s : SessionId} {key : Key} (h : IsKeyOf p s key) :
    key ∉ (listAllStates (deleteKeys m (removedKeys m s.bytes))).all := by
  intro hstored
  refine not_stored_of_removed (h.mem_removedKeys ?_) hstored
  rw [mem_listAllStates] at hstored ⊢
  rw [removedKeys, deleteKeys_cons, get?_l1_deleteKeys, get?_l2_deleteKeys,
    lookup_deleteKeys] at hstored
  refine hstored.imp (fun hl1 => ?_) (Or.imp (fun hl2 => ?_) (fun hrow => ?_))
  · split at hl1
    · simp at hl1
    · exact hl1
  · split at hl2
    · simp at hl2
    · exact hl2
  · split at hrow
    · simp at hrow
    · exact hrow

/-- `get_state` of a key that is not stored. -/
theorem unread_of_not_stored
    {key : Key} (hrow : cString key = key) (h : key ∉ (listAllStates m).all)
    (now : Nat) (faults : Faults) :
    (m.getState codec key now faults).2 = .returned none := by
  rw [mem_listAllStates, not_or, not_or] at h
  simp only [Bool.not_eq_true, Option.isSome_eq_false_iff, Option.isNone_iff_eq_none]
    at h
  obtain ⟨hl1, hl2, htable⟩ := h
  rw [← hrow] at htable
  have hmissing : loadStateLocked codec faults m.store.table key = .missing := by
    simp [loadStateLocked, htable]
  by_cases hskip : m.initialized = false ∨ key = []
  · simp [Manager.getState, hskip]
  · rw [not_or, Bool.not_eq_false] at hskip
    rw [getState_eq now faults hskip.1 hskip.2]
    simp [Store.getState, hl1, hl2, hmissing]

theorem removed_of_deleted (s : SessionId) :
    Removed p codec s (deleteKeys m (removedKeys m s.bytes)) :=
  { unread := fun _ hkey now faults =>
      unread_of_not_stored hkey.cString_eq (not_stored_of_deleted hkey) now faults
    unlisted := fun _ hkey => not_stored_of_deleted hkey }

theorem filter_keysOf_erase
    {level : LinkedMap Key GenerationState} {choose : Key → Bool} {key : Key}
    (hkey : choose key = false) :
    (keysOf (level.erase key)).filter choose = (keysOf level).filter choose := by
  have hmap : (level.erase key).map = level.map.erase key := by
    rw [LinkedMap.erase, eraseEntry, LinkedMap.unlink]
    split <;> rfl
  rw [keysOf, keysOf, hmap, List.filter_map, List.filter_map]
  exact congrArg _ (filter_kerase hkey _)

/-- A listing without the removed keys is the same after the deletion. -/
theorem filter_listAllStates
    {keys : List Key} {choose : Key → Bool}
    (hkeys : ∀ key ∈ keys, choose key = false)
    (hrows : ∀ key ∈ keys, choose (cString key) = false) :
    (listAllStates (deleteKeys m keys)).l1Cache.filter choose =
        (listAllStates m).l1Cache.filter choose ∧
      (listAllStates (deleteKeys m keys)).l2Cache.filter choose =
        (listAllStates m).l2Cache.filter choose ∧
      (listAllStates (deleteKeys m keys)).database.filter choose =
        (listAllStates m).database.filter choose := by
  induction keys generalizing m with
  | nil => exact ⟨rfl, rfl, rfl⟩
  | cons key keys ih =>
      have hkey : choose key = false := hkeys key List.mem_cons_self
      have hrow : choose (cString key) = false := hrows key List.mem_cons_self
      obtain ⟨hl1, hl2, hdatabase⟩ := ih (m := m.deleteState key)
        (fun key' hmem => hkeys key' (List.mem_cons_of_mem _ hmem))
        (fun key' hmem => hrows key' (List.mem_cons_of_mem _ hmem))
      refine ⟨hl1.trans (filter_keysOf_erase hkey), hl2.trans (filter_keysOf_erase hkey),
        hdatabase.trans ?_⟩
      have htotal : ∀ a b, moreRecent a b ∨ moreRecent b a :=
        fun a b => Nat.le_total _ _
      have htrans : ∀ a b c, moreRecent a b → moreRecent b c → moreRecent a c :=
        fun a b c hab hbc => Nat.le_trans hbc hab
      have hsort : ∀ rows : List ((_ : Key) × Row),
          ((rows.insertionSort moreRecent).map Sigma.fst).filter choose =
            ((rows.filter (fun row => choose row.1)).insertionSort moreRecent).map
              Sigma.fst := by
        intro rows
        rw [List.filter_map, ← filter_insertionSort htotal htrans]
        rfl
      change (((m.store.table.entries.kerase (cString key)).insertionSort
        moreRecent).map Sigma.fst).filter choose = _
      rw [hsort, filter_kerase hrow, ← hsort]
      rfl

theorem keepsSession_of_deleted
    {s t : SessionId} (hne : s.bytes ≠ t.bytes) (hkey : ¬ IsKeyOf p t s.bytes) :
    KeepsSession p t m (deleteKeys m (removedKeys m s.bytes)) := by
  have hnot : ∀ key, IsKeyOf p t key → key ∉ removedKeys m s.bytes := by
    rintro key ⟨k, rfl⟩ hmem
    rcases mem_removedKeys hmem with heq | hnamespace
    · exact hkey ⟨k, heq.symm⟩
    · exact hne (eq_of_inNamespace hnamespace)
  refine
    { l1 := fun key h => by rw [get?_l1_deleteKeys, if_neg (hnot key h)]
      l2 := fun key h => by rw [get?_l2_deleteKeys, if_neg (hnot key h)]
      table := fun key h => by
        rw [lookup_deleteKeys, cString_removedKeys, if_neg (hnot key h)]
      listed := ?_ }
  intro choose hchoose
  have hkeys : ∀ key ∈ removedKeys m s.bytes, choose key = false := by
    intro key hmem
    by_contra htrue
    exact hnot key (hchoose key (Bool.eq_true_of_not_eq_false htrue)) hmem
  refine filter_listAllStates hkeys ?_
  intro key hmem
  refine hkeys (cString key) ?_
  rw [← cString_removedKeys]
  exact List.mem_map_of_mem hmem

/-- What is held under the keys of `t` is the same. -/
theorem KeepsSession.held
    {t : SessionId} {m' : Manager} (h : KeepsSession p t m m') {key : Key}
    (hkey : IsKeyOf p t key) :
    held codec m'.store key = held codec m.store key := by
  rw [StateCache.held, StateCache.held, h.l1 key hkey, h.l2 key hkey, tableView,
    tableView, hkey.cString_eq, h.table key hkey]

/-- A run that stores a state under the key `s`. -/
def storingRun (s : SessionId) (state : GenerationState) : List Event :=
  [.initializeCache 16 32, .put s.bytes state 0 []]

theorem storingRun_stores (codec : IdentityCodec) (s : SessionId) (state : GenerationState) :
    ∃ m, exec (step codec) Manager.new (storingRun s state) = some m ∧
      m.initialized = true ∧
      ∃ state', (m.getState codec s.bytes 0 []).2 = .returned (some state') := by
  obtain ⟨s', hs', -⟩ := putState_ordered 0
    (s := (Manager.new.initializeCache 16 32).store)
    ({ ordered_new.ordered with } : Ordered codec _) s.bytes state
  refine ⟨((Manager.new.initializeCache 16 32).putState codec s.bytes state 0 []).1,
    rfl, ?_, ?_⟩
  · rw [putState_eq state 0 [] rfl s.ne_nil]
    rfl
  · have hinv := inv_of_run codec (storingRun s state)
      ⟨⟨trivial, harmless_nil⟩, ⟨s.nulFree, harmless_nil⟩, trivial⟩ rfl
    have hstored : expected ((Manager.new.initializeCache 16 32).putState codec
        s.bytes state 0 []).1.log s.bytes = .stored state := by
      rw [putState_eq state 0 [] rfl s.ne_nil, hs']
      simp [expected, Expectation.update, Manager.initializeCache, Manager.new]
    obtain ⟨state', hget, -⟩ := hinv.returns 0 s.nulFree
      (by rw [putState_eq state 0 [] rfl s.ne_nil]; rfl) hstored
    exact ⟨state', hget⟩

/-- A request that deletes the session. -/
def deletionOf (s : SessionId) : SessionRequest :=
  { validJson := true, authorized := true, sessionIdFromBody := .ok s.bytes,
    sessionIdHeader := [] }

theorem deletes_deletionOf (s : SessionId) : Deletes (deletionOf s) s :=
  { validJson := rfl
    authorized := rfl
    resolved := by
      have hempty : trim [] = [] := rfl
      simp [sessionIdFromRequest, deletionOf, resolveIdentifier, s.trimmed, s.ne_nil,
        hempty] }

/-- A session id that is a key of `t` takes the state of `t` with it. -/
theorem not_isolated_of_isKeyOf
    {s t : SessionId} (hkey : IsKeyOf p t s.bytes) : ¬ DeletionIsolated p codec s t := by
  intro hisolated
  obtain ⟨m, hrun, hinit, state, hread⟩ :=
    storingRun_stores codec s (smallState keyedMeta 1)
  obtain ⟨-, -, hreads⟩ := hisolated _ m _ hrun hinit (deletes_deletionOf s)
  have hsame := hreads ⟨rfl, rfl, trivial⟩ s.bytes hkey 0
  rw [hread, stateDelete_fst (deletes_deletionOf s),
    unread_of_not_stored (cString_eq s.nulFree)
      (not_stored_of_removed List.mem_cons_self) 0 []] at hsame
  simp at hsame

/--
Deleting `s` leaves `t` alone, whatever happened before, exactly when `s` is not
one of the keys under which states of `t` are stored.
-/
theorem deletionIsolated_iff
    (p : Fingerprinting) (codec : IdentityCodec) (s t : SessionId)
    (hne : s.bytes ≠ t.bytes) :
    DeletionIsolated p codec s t ↔
      ∀ k, s.bytes ≠ sessionStateKey p t.bytes k := by
  constructor
  · intro hisolated k heq
    exact not_isolated_of_isKeyOf ⟨k, heq⟩ hisolated
  · intro hkeys es m request hrun hinit hdeletes
    have hkey : ¬ IsKeyOf p t s.bytes := fun ⟨k, heq⟩ => hkeys k heq
    simp only [stateDelete_fst hdeletes]
    have hkeeps : KeepsSession p t m (deleteKeys m (removedKeys m s.bytes)) :=
      keepsSession_of_deleted hne hkey
    refine ⟨removed_of_deleted s, hkeeps, ?_⟩
    intro hquiet key hkey' now
    have hordered := ordered_of_run hquiet hrun
    have hordered' : OrderedManager codec (deleteKeys m (removedKeys m s.bytes)) :=
      hordered.deleteKeys _
    rw [hordered.reads hinit hkey'.ne_nil, hordered'.reads
      (initialized_deleteKeys.trans hinit) hkey'.ne_nil, hkeeps.held hkey']

/-- The base model without an adapter. -/
def baseModel : ModelKey :=
  { runtime := bytesOf "base", adapter := none, initial := bytesOf "session",
    fp32 := false }

/-- The digest of the array of `baseModel`. -/
def baseDigest : List UInt8 :=
    [0x90, 0x7b, 0x5d, 0x69, 0x62, 0x56, 0x05, 0x53,
     0xf9, 0xb8, 0x4e, 0xbe, 0xf9, 0x93, 0xa3, 0xe3,
     0x45, 0xf2, 0x76, 0x87, 0xc8, 0xad, 0xcf, 0x40,
     0x77, 0x7c, 0x0a, 0x28, 0x83, 0x64, 0x89, 0x1c]

/-- A writer for plain strings, and the hash of one text. -/
def baseFingerprinting : Fingerprinting where
  writeArray runtime adapter initial fp32 :=
    bytesOf "[\"" ++ runtime ++ bytesOf "\",\"" ++ adapter ++ bytesOf "\",\"" ++
      initial ++ bytesOf "\"," ++ bytesOf (if fp32 then "true" else "false") ++
      bytesOf "]"
  sha256 bytes :=
    if bytes = bytesOf "[\"base\",\"\",\"session\",false]" then baseDigest
    else List.replicate 32 0
  length_sha256 bytes := by
    split <;> rfl

/-- The ids `a` and `b`, and the id that is the key of a state of `b`. -/
def plainA : SessionId :=
  { bytes := bytesOf "a", ne_nil := by decide, trimmed := by decide, nulFree := by decide }

def plainB : SessionId :=
  { bytes := bytesOf "b", ne_nil := by decide, trimmed := by decide, nulFree := by decide }

def keyOfB : SessionId :=
  { bytes := bytesOf "b:907b5d6962560553f9b84ebef993a3e345f27687c8adcf40777c0a288364891c"
    ne_nil := by decide
    trimmed := by decide +kernel
    nulFree := by decide +kernel }

/-- Neither of two plain ids reaches the other. -/
theorem deletionIsolated_plain :
    DeletionIsolated baseFingerprinting jsonCodec plainA plainB := by
  refine (deletionIsolated_iff baseFingerprinting jsonCodec plainA plainB
    (by decide)).mpr ?_
  intro k heq
  have hlength := congrArg List.length heq
  rw [sessionStateKey, List.length_append, length_effectiveModelKey] at hlength
  have hshort : plainA.bytes.length = 1 := rfl
  omega

/-- The listed key of a state of `b`, sent as a session id. -/
theorem stateDelete_reaches :
    keyOfB.bytes ≠ plainB.bytes ∧
      ¬ DeletionIsolated baseFingerprinting jsonCodec keyOfB plainB :=
  ⟨by decide, not_isolated_of_isKeyOf ⟨baseModel, by decide +kernel⟩⟩

end Isolation

end StateCache
end RwkvLightning

import RwkvLightning.Library.LinkedMap

/-!
# The session state cache

`StateCacheManager` of `rwkv_state_cache.cpp`: three levels of session states,
on the device (L1), on the host (L2) and in an SQLite table, with eviction from
each level into the next one.

**State.**  A level is a map linked with its recency list.  Device and host
copies of a state hold the same values, so both levels hold `GenerationState`s;
of its two `wkv` buffers a state has the one that `wkv32` selects.  The table
survives a shutdown.  A session id is a byte string; SQLite receives it as a C
string.

**Failures.**  Every statement that can fail is a `Site`.  An operation is given
the sites that fail in it, each with the session that is handled there.  An
operation that throws leaves the state as it is at that point.

`Json::writeString` and the reader are a parameter; `time(nullptr)` is an
argument.
-/

namespace RwkvLightning
namespace StateCache

/-- The bytes of a `std::string`. -/
abbrev Key := List UInt8

/-- What a function that takes a C string sees of a `std::string`. -/
def cString (bytes : List UInt8) : List UInt8 :=
  bytes.takeWhile (fun byte => byte ≠ 0)

/-- The recurrent `wkv` state, in the precision that `wkv32` selects. -/
inductive Wkv where
  | wkv16 (state : List UInt16)
  | wkv32 (state : List UInt32)
deriving DecidableEq, Repr

def Wkv.isEmpty : Wkv → Bool
  | .wkv16 state => state.isEmpty
  | .wkv32 state => state.isEmpty

/-- The recurrent tensors; `create_state` allocates all of them. -/
structure Tensors where
  batchSize : Int
  shift : List UInt16
  wkv : Wkv
  elapsed : List Int
  shift_ne : shift ≠ []
  wkv_ne : wkv.isEmpty = false
  elapsed_ne : elapsed ≠ []
deriving DecidableEq

/-- The identity metadata; in the table it is a JSON object. -/
structure Meta where
  effective : String
  adapter : String
  initial : String
  advanced : Bool
deriving DecidableEq, Repr

/-- The metadata of a default-constructed `HostState`. -/
def Meta.default : Meta :=
  { effective := "", adapter := "", initial := "zero", advanced := false }

/-- `GenerationState` and `HostState`; `adapter` is the adapter handle. -/
structure GenerationState where
  adapter : Option Nat
  identity : Meta
  tensors : Tensors
deriving DecidableEq

/-- Writing and parsing the identity object. -/
structure IdentityCodec where
  writeString : Meta → List UInt8
  parse : List UInt8 → Option Meta
  parse_writeString : ∀ m, parse (writeString m) = some m
  no_nul : ∀ m, 0 ∉ writeString m
  ne_nil : ∀ m, writeString m ≠ []

/-- A row of the table `sessions`. -/
structure Row where
  tensors : Tensors
  identity : List UInt8
  lastUpdated : Nat
deriving DecidableEq

abbrev Table := AList (fun _ : Key => Row)

/-- Where a state enters L1. -/
inductive Place where
  | put
  | promote
  | load
deriving DecidableEq, Repr

/-- The statements that can fail. -/
inductive Site where
  | orderPush (place : Place)
  | clone (place : Place)
  | cacheInsert (place : Place)
  | touchPush
  | cloneResult
  | toDevice
  | toHost
  | demotePush
  | demoteInsert
  | jsonWrite
  | sqlWrite
  | bindIdentity
  | sqlRead
  | parse
deriving DecidableEq, Repr

/-- The failures during one operation. -/
abbrev Faults := List (Site × Key)

def fails (faults : Faults) (site : Site) (key : Key) : Bool :=
  faults.contains (site, key)

/-- How a function is left; `undefined` is a dereferenced end iterator. -/
inductive Exit where
  | done
  | threw
  | undefined
deriving DecidableEq, Repr

/-- The containers of the manager. -/
structure Store where
  l1Capacity : Nat
  l2Capacity : Nat
  l1 : LinkedMap Key GenerationState
  l2 : LinkedMap Key GenerationState
  table : Table

section Functions

variable (codec : IdentityCodec) (now : Nat) (faults : Faults)

/-- The row that `persist_state_locked` binds. -/
def rowOf (state : GenerationState) : Row :=
  { tensors := state.tensors
    identity := cString (codec.writeString state.identity)
    lastUpdated := now }

/-- `persist_state_locked`: the result of the SQLite calls is not looked at. -/
def persistStateLocked (table : Table) (key : Key) (state : GenerationState) :
    Table × Exit :=
  let row := rowOf codec now state
  if fails faults .jsonWrite key then (table, .threw)
  else if fails faults .sqlWrite key then (table, .done)
  else if fails faults .bindIdentity key then
    -- the column's default replaces the parameter that was not bound
    (table.insert (cString key) { row with identity := [] }, .done)
  else (table.insert (cString key) row, .done)

/-- The state in a row; `none` when its identity does not parse. -/
def stateOfRow (row : Row) : Option GenerationState :=
  let identity :=
    if row.identity = [] then some Meta.default else codec.parse row.identity
  identity.map (fun identity =>
    { adapter := none
      identity :=
        if identity.effective = "" ∧ row.tensors.elapsed.any (fun n => 0 < n) then
          { identity with advanced := true }
        else identity
      tensors := row.tensors })

/-- What a lookup in the table ends with. -/
inductive Loaded where
  | missing
  | state (state : GenerationState)
  | threw
deriving DecidableEq

/-- `load_state_locked`. -/
def loadStateLocked (table : Table) (key : Key) : Loaded :=
  if fails faults .sqlRead key then .missing
  else
    match table.lookup (cString key) with
    | none => .missing
    | some row =>
        if fails faults .parse key then .threw
        else
          match stateOfRow codec row with
          | none => .threw
          | some state => .state state

/-- `evict_l2_if_needed_locked`; `fuel` bounds the number of passes. -/
def Store.evictL2 : Nat → Store → Store × Exit
  | 0, s => (s, .done)
  | fuel + 1, s =>
      if s.l2Capacity < s.l2.size then
        match s.l2.front? with
        | none => (s, .undefined)
        | some victim =>
            match s.l2.get? victim with
            | none => (s, .undefined)
            | some state =>
                match persistStateLocked codec now faults s.table victim state with
                | (table, .done) =>
                    Store.evictL2 fuel
                      { s with l2 := s.l2.popFront victim, table := table }
                | (table, exit) => ({ s with table := table }, exit)
      else (s, .done)

/-- `evict_l1_if_needed_locked`. -/
def Store.evictL1 : Nat → Store → Store × Exit
  | 0, s => s.evictL2 codec now faults s.l2.size
  | fuel + 1, s =>
      if s.l1Capacity < s.l1.size then
        match s.l1.front? with
        | none => (s, .undefined)
        | some victim =>
            match s.l1.get? victim with
            | none => (s, .undefined)
            | some state =>
                if fails faults .toHost victim then (s, .threw)
                else
                  let s := { s with l1 := s.l1.popFront victim }
                  if fails faults .demotePush victim then (s, .threw)
                  else
                    let s := { s with l2 := s.l2.pushBack victim }
                    if fails faults .demoteInsert victim then (s, .threw)
                    else
                      Store.evictL1 fuel
                        { s with l2 := s.l2.insertBack victim state }
      else s.evictL2 codec now faults s.l2.size

/--
The end of `put_state` and of two branches of `get_state`: the key is pushed to
the recency list before the state is cloned and inserted.
-/
def Store.addToL1 (s : Store) (place : Place) (key : Key)
    (state : GenerationState) : Store × Exit :=
  if fails faults (.orderPush place) key then (s, .threw)
  else
    let s := { s with l1 := s.l1.pushBack key }
    if fails faults (.clone place) key then (s, .threw)
    else if fails faults (.cacheInsert place) key then (s, .threw)
    else
      let s := { s with l1 := s.l1.insertBack key state }
      s.evictL1 codec now faults s.l1.size

/-- `put_state` of an initialized manager. -/
def Store.putState (s : Store) (key : Key) (state : GenerationState) :
    Store × Exit :=
  let s := { s with l1 := s.l1.erase key, l2 := s.l2.erase key }
  s.addToL1 codec now faults .put key state

/-- What `get_state` does. -/
inductive GetResult where
  | returned (state : Option GenerationState)
  | threw
  | undefined
deriving DecidableEq

/-- A function that returns `state` unless the call before it was left early. -/
def GetResult.after (exit : Exit) (state : GenerationState) : GetResult :=
  match exit with
  | .done => .returned (some state)
  | .threw => .threw
  | .undefined => .undefined

/-- `get_state` of an initialized manager. -/
def Store.getState (s : Store) (key : Key) : Store × GetResult :=
  match s.l1.get? key with
  | some state =>
      let s := { s with l1 := s.l1.unlink key }
      if fails faults .touchPush key then (s, .threw)
      else
        let s := { s with l1 := (s.l1.pushBack key).insertBack key state }
        if fails faults .cloneResult key then (s, .threw)
        else (s, .returned (some state))
  | none =>
      match s.l2.get? key with
      | some state =>
          let s := { s with l2 := s.l2.unlink key }
          if fails faults .touchPush key then (s, .threw)
          else
            let s := { s with l2 := (s.l2.pushBack key).insertBack key state }
            if fails faults .toDevice key then (s, .threw)
            else
              let s := { s with l2 := s.l2.erase key }
              let (s, exit) := s.addToL1 codec now faults .promote key state
              (s, GetResult.after exit state)
      | none =>
          match loadStateLocked codec faults s.table key with
          | .missing => (s, .returned none)
          | .threw => (s, .threw)
          | .state state =>
              if fails faults .toDevice key then (s, .threw)
              else
                let (s, exit) := s.addToL1 codec now faults .load key state
                (s, GetResult.after exit state)

/-- `delete_state_from_any_level`, when its SQLite calls succeed. -/
def Store.deleteState (s : Store) (key : Key) : Store :=
  { s with
    l1 := s.l1.erase key
    l2 := s.l2.erase key
    table := s.table.erase (cString key) }

/-- A loop of `shutdown`; the entries of L1 are copied to the host first. -/
def persistAll (copies : Bool) :
    List (Key × GenerationState) → Table → Table × Exit
  | [], table => (table, .done)
  | (key, state) :: entries, table =>
      if copies && fails faults .toHost key then (table, .threw)
      else
        match persistStateLocked codec now faults table key state with
        | (table, .done) => persistAll copies entries table
        | (table, exit) => (table, exit)

/-- The entries of a level. -/
def entriesOf (level : LinkedMap Key GenerationState) :
    List (Key × GenerationState) :=
  level.map.entries.map (fun entry => (entry.1, entry.2.1))

/-- `shutdown` of an initialized manager. -/
def Store.shutdown (s : Store) : Store × Exit :=
  match persistAll codec now faults true (entriesOf s.l1) s.table with
  | (table, .done) =>
      match persistAll codec now faults false (entriesOf s.l2) table with
      | (table, .done) =>
          ({ s with l1 := .empty, l2 := .empty, table := table }, .done)
      | (table, exit) => ({ s with table := table }, exit)
  | (table, exit) => ({ s with table := table }, exit)

end Functions

/-- The history of a run: which session holds what. -/
inductive Record where
  | put (key : Key) (state : GenerationState)
  | putFailed (key : Key)
  | deleted (key : Key)
deriving DecidableEq

/-- The manager; `crashed` says that it has run into undefined behaviour. -/
structure Manager where
  initialized : Bool
  crashed : Bool
  store : Store
  log : List Record

/-- The manager before its first initialization, with no database file. -/
def Manager.new : Manager :=
  { initialized := false
    crashed := false
    store := { l1Capacity := 16, l2Capacity := 32, l1 := .empty, l2 := .empty,
               table := ∅ }
    log := [] }

inductive Event where
  | initializeCache (l1Capacity l2Capacity : Nat)
  | put (key : Key) (state : GenerationState) (now : Nat) (faults : Faults)
  | get (key : Key) (now : Nat) (faults : Faults)
  | delete (key : Key)
  | shutdown (now : Nat) (faults : Faults)

/-- `put_state`. -/
def Manager.putState (codec : IdentityCodec) (m : Manager) (key : Key)
    (state : GenerationState) (now : Nat) (faults : Faults) : Manager × Exit :=
  if !m.initialized || key.isEmpty then (m, .done)
  else
    let (store, exit) := m.store.putState codec now faults key state
    let record := if exit = .done then Record.put key state else .putFailed key
    ({ m with
        store := store, crashed := exit = .undefined, log := m.log ++ [record] },
      exit)

/-- `get_state`. -/
def Manager.getState (codec : IdentityCodec) (m : Manager) (key : Key)
    (now : Nat) (faults : Faults) : Manager × GetResult :=
  if !m.initialized || key.isEmpty then (m, .returned none)
  else
    let (store, result) := m.store.getState codec now faults key
    ({ m with store := store, crashed := result = .undefined }, result)

/-- `delete_state_from_any_level`. -/
def Manager.deleteState (m : Manager) (key : Key) : Manager :=
  { m with store := m.store.deleteState key, log := m.log ++ [.deleted key] }

/-- `shutdown`. -/
def Manager.shutdown (codec : IdentityCodec) (m : Manager) (now : Nat)
    (faults : Faults) : Manager × Exit :=
  if !m.initialized then (m, .done)
  else
    let (store, exit) := m.store.shutdown codec now faults
    ({ m with
        store := store, initialized := exit ≠ .done,
        crashed := exit = .undefined },
      exit)

/-- `initialize` on the same database file. -/
def Manager.initializeCache (m : Manager) (l1Capacity l2Capacity : Nat) : Manager :=
  if m.initialized then m
  else
    { m with
      initialized := true
      store := { m.store with l1Capacity := l1Capacity, l2Capacity := l2Capacity } }

/--
One event; none happens after a crash.  A deletion needs the open database that
`initialize` leaves behind.
-/
def step (codec : IdentityCodec) (m : Manager) (e : Event) : Option Manager :=
  if m.crashed then none
  else
    match e with
    | .initializeCache l1Capacity l2Capacity => some (m.initializeCache l1Capacity l2Capacity)
    | .put key state now faults => some (m.putState codec key state now faults).1
    | .get key now faults => some (m.getState codec key now faults).1
    | .delete key => if m.initialized then some (m.deleteState key) else none
    | .shutdown now faults => some (m.shutdown codec now faults).1

/-- What the history says about a session. -/
inductive Expectation where
  | absent
  | stored (state : GenerationState)
  | unknown
deriving DecidableEq

/-- How one record changes the expectation for a session. -/
def Expectation.update (key : Key) (expectation : Expectation) :
    Record → Expectation
  | .put key' state => if key' = key then .stored state else expectation
  | .putFailed key' => if key' = key then .unknown else expectation
  | .deleted key' => if key' = key then .absent else expectation

/-- The state last put for a session and not deleted since. -/
def expected (log : List Record) (key : Key) : Expectation :=
  log.foldl (Expectation.update key) .absent

end StateCache
end RwkvLightning

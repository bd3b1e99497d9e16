import RwkvLightning.Inference.PrefixCache

/-!
# The prefix cache pool

`PrefixCachePool` of `prefix_cache_pool.hpp`: a prefix cache whose values are
buffers from a bounded pool.

**State.**  A buffer is the index into `heap`, where its contents are; `make`
appends to the heap.  The pool owns a buffer through its index or through the
free list.  A reader is a handle outside the pool, with the contents it saw when
`find` returned it.  `references` is `use_count` without local variables.

**Callbacks.**  `make` and `fill` are called at most once in a `put`; their
outcomes are arguments of the operation.  A `fill` that throws leaves arbitrary
contents behind.
-/

namespace RwkvLightning
namespace PrefixCachePool

open PrefixCache

universe u v w

/-- What `make` does when it is called. -/
inductive MakeResult (V : Type w) where
  | throws
  | null
  | made (contents : V)
deriving DecidableEq, Repr

/-- What `fill` does when it is called. -/
inductive FillResult (V : Type w) where
  | throws (partialContents : V)
  | filled (contents : V)
deriving DecidableEq, Repr

/-- The fields of `PrefixCachePool`; a value of the index is a buffer. -/
structure Pool (κ : Type u) (τ : Type v) where
  capacity : Nat
  memoryLimit : Nat
  entryBytes : Nat
  index : Cache κ τ Nat
  free : List Nat
  allocated : Nat
  hits : Nat
  misses : Nat
  evictions : Nat
  retired : Nat
  skipped : Nat

/-- A handle to a buffer, with the contents its reader was promised. -/
structure Handle (V : Type w) where
  buffer : Nat
  contents : V
deriving DecidableEq, Repr

/-- The history of a run. -/
inductive Record (κ : Type u) (τ : Type v) (V : Type w) where
  | filled (buffer : Nat) (pinned : Bool)
  | stored (identity : κ) (tokens : List τ) (contents : V)
deriving DecidableEq, Repr

structure System (κ : Type u) (τ : Type v) (V : Type w) where
  pool : Pool κ τ
  heap : List V
  readers : List (Option (Handle V))
  log : List (Record κ τ V)

/-- What `put` does. -/
inductive PutResult where
  | returned (stored : Bool)
  | threw
deriving DecidableEq, Repr

/-- What `acquire` ends with. -/
inductive Acquired where
  | buffer (b : Nat)
  | null
  | threw
deriving DecidableEq, Repr

variable {κ : Type u} {τ : Type v} {V : Type w}

/-- The constructor; `none` when it throws. -/
def Pool.create (capacity memoryLimit entryBytes : Nat) : Option (Pool κ τ) :=
  if entryBytes = 0 then none
  else
    let capacity := min capacity (memoryLimit / entryBytes)
    some
      { capacity := capacity, memoryLimit := memoryLimit,
        entryBytes := entryBytes, index := Cache.new capacity, free := [],
        allocated := 0, hits := 0, misses := 0, evictions := 0, retired := 0,
        skipped := 0 }

/-- A pool without buffers and readers. -/
def System.init (pool : Pool κ τ) : System κ τ V :=
  { pool := pool, heap := [], readers := [], log := [] }

/-- The buffers that the index refers to. -/
def indexed (index : Cache κ τ Nat) : List Nat :=
  index.items.filterMap Item.value

/-- The buffer of a reader, unless it was dropped. -/
def readerBuffer (reader : Option (Handle V)) : Option Nat :=
  reader.map Handle.buffer

/-- `use_count` of a buffer, without the local variables of a running call. -/
def System.references (s : System κ τ V) (b : Nat) : Nat :=
  (indexed s.pool.index).count b + s.pool.free.count b +
    (s.readers.filterMap readerBuffer).count b

/-- `free_.push_back`. -/
def System.pushFree (s : System κ τ V) (b : Nat) : System κ τ V :=
  { s with pool := { s.pool with free := s.pool.free ++ [b] } }

/-- Take an element out of the free list: the last one moves to its place. -/
def takeFree (free : List Nat) (i : Nat) : List Nat :=
  match free.getLast? with
  | none => free
  | some back =>
      if i + 1 = free.length then free.dropLast
      else (free.set i back).dropLast

variable [DecidableEq κ] [DecidableEq τ]

/-- The loop of `acquire` that evicts; `fuel` bounds the number of passes. -/
def System.evictLoop : Nat → System κ τ V → System κ τ V × Option Nat
  | 0, s => (s, none)
  | fuel + 1, s =>
      match s.pool.index.extractLru with
      | (index, none) => ({ s with pool := { s.pool with index := index } }, none)
      | (index, some b) =>
          let s : System κ τ V :=
            { s with pool := { s.pool with
                index := index, evictions := s.pool.evictions + 1 } }
          if s.references b + 1 = 1 then (s, some b)
          else System.evictLoop fuel (s.pushFree b)

/-- `acquire`. -/
def System.acquire (s : System κ τ V) (make : MakeResult V) :
    System κ τ V × Acquired :=
  match s.pool.free.findIdx? (fun b => s.references b = 1) with
  | some i =>
      match s.pool.free[i]? with
      | none => (s, .null)
      | some b =>
          ({ s with pool := { s.pool with free := takeFree s.pool.free i } },
            .buffer b)
  | none =>
      if s.pool.allocated < s.pool.capacity then
        match make with
        | .throws => (s, .threw)
        | .null => (s, .threw)
        | .made contents =>
            ({ s with
                pool := { s.pool with allocated := s.pool.allocated + 1 }
                heap := s.heap ++ [contents] },
              .buffer s.heap.length)
      else
        match s.evictLoop (s.pool.index.size + 1) with
        | (s, none) => (s, .null)
        | (s, some b) => (s, .buffer b)

/-- Whether some reader holds a buffer. -/
def System.pinned (s : System κ τ V) (b : Nat) : Bool :=
  (s.readers.filterMap readerBuffer).contains b

/-- The end of `put`: fill the buffer and publish it. -/
def System.publish (s : System κ τ V) (identity : κ) (tokens : List τ) (b : Nat)
    (fill : FillResult V) : System κ τ V × PutResult :=
  match fill with
  | .throws partialContents =>
      ({ s.pushFree b with
          heap := s.heap.set b partialContents
          log := s.log ++ [.filled b (s.pinned b)] }, .threw)
  | .filled contents =>
      ({ s with
          pool := { s.pool with index := s.pool.index.put identity tokens (some b) }
          heap := s.heap.set b contents
          log := s.log ++
            [.filled b (s.pinned b), .stored identity tokens contents] },
        .returned true)

/--
The beginning of `put`: the buffer stored under the key, if there is one and
nobody reads it; a buffer that is being read waits in the free list.
-/
def System.reuse (s : System κ τ V) (identity : κ) (tokens : List τ) :
    System κ τ V × Option Nat :=
  match s.pool.index.extractExact identity tokens with
  | (index, none) => ({ s with pool := { s.pool with index := index } }, none)
  | (index, some b) =>
      let s : System κ τ V := { s with pool := { s.pool with index := index } }
      if s.references b + 1 = 1 then (s, some b) else (s.pushFree b, none)

/-- `put`. -/
def System.put (s : System κ τ V) (identity : κ) (tokens : List τ)
    (make : MakeResult V) (fill : FillResult V) : System κ τ V × PutResult :=
  if s.pool.capacity = 0 ∨ tokens = [] then (s, .returned false)
  else
    match s.reuse identity tokens with
    | (s, some b) => s.publish identity tokens b fill
    | (s, none) =>
        match s.acquire make with
        | (s, .buffer b) => s.publish identity tokens b fill
        | (s, .null) =>
            ({ s with pool := { s.pool with skipped := s.pool.skipped + 1 } },
              .returned false)
        | (s, .threw) => (s, .threw)

/-- `find`; the caller keeps the handle of a hit. -/
def System.find (s : System κ τ V) (identity : κ) (tokens : List τ) :
    System κ τ V × Match Nat :=
  let (index, result) := s.pool.index.find identity tokens
  match result.value with
  | none =>
      ({ s with pool := { s.pool with
          index := index, misses := s.pool.misses + 1 } }, result)
  | some b =>
      ({ s with
          pool := { s.pool with index := index, hits := s.pool.hits + 1 }
          readers := s.readers ++ [s.heap[b]?.map (fun contents => ⟨b, contents⟩)] },
        result)

/-- The callback of `erase_identity`; the values of the index are never null. -/
def System.retire (s : System κ τ V) (value : Option Nat) : System κ τ V :=
  { s with pool := { s.pool with
      retired := s.pool.retired + 1
      free := s.pool.free ++ value.toList } }

/-- `erase_identity`. -/
def System.eraseIdentity (s : System κ τ V) (identity : κ) : System κ τ V :=
  let (index, recycled) := s.pool.index.eraseIdentity identity
  recycled.foldl System.retire { s with pool := { s.pool with index := index } }

inductive Op (κ : Type u) (τ : Type v) (V : Type w) where
  | find (identity : κ) (tokens : List τ)
  | put (identity : κ) (tokens : List τ) (make : MakeResult V)
      (fill : FillResult V)
  | eraseIdentity (identity : κ)
  | copyHandle (reader : Nat)
  | dropHandle (reader : Nat)

/-- One operation; `none` when there is no such reader. -/
def step (s : System κ τ V) : Op κ τ V → Option (System κ τ V)
  | .find identity tokens => some (s.find identity tokens).1
  | .put identity tokens make fill => some (s.put identity tokens make fill).1
  | .eraseIdentity identity => some (s.eraseIdentity identity)
  | .copyHandle i =>
      match s.readers[i]? with
      | some (some handle) =>
          some { s with readers := s.readers ++ [some handle] }
      | _ => none
  | .dropHandle i =>
      match s.readers[i]? with
      | some (some _) => some { s with readers := s.readers.set i none }
      | _ => none

/-- The contents of the last successful `put` under a key. -/
def lastPut (log : List (Record κ τ V)) (identity : κ) (tokens : List τ) :
    Option V :=
  (log.filterMap (fun r =>
    match r with
    | .stored identity' tokens' contents =>
        if identity' = identity ∧ tokens' = tokens then some contents else none
    | .filled _ _ => none)).getLast?

end PrefixCachePool
end RwkvLightning

import RwkvLightning.Inference.RadixTree
import RwkvLightning.Library.RecencyList
import RwkvLightning.Library.StableList
import Mathlib

/-!
# The prefix cache

`PrefixCache` of `prefix_cache.hpp`: one radix tree for each identity and a
recency list over the entries of all of them.

**State.**  An `Entry` is a heap object, shared by its tree node and by the
recency list: `entries` is the heap, an address is an index into it and is never
reused.  `order` holds addresses; an entry remembers its position there.  A
value is a `shared_ptr` that may be null.

**Specification.**  `Spec` is a list of items, most recently used first, with
the operations of a plain map.  It knows neither trees nor positions.
-/

namespace RwkvLightning
namespace PrefixCache

universe u v w

/-- `PrefixCache::Entry`. -/
structure Entry (κ : Type u) (τ : Type v) (ν : Type w) where
  identity : κ
  tokens : List τ
  value : Option ν
  position : Nat
deriving DecidableEq, Repr

/-- `PrefixCache`. -/
structure Cache (κ : Type u) (τ : Type v) (ν : Type w) where
  capacity : Nat
  roots : AList (fun _ : κ => Node τ)
  order : StableList Nat
  entries : List (Entry κ τ ν)

/-- `PrefixCache::Match`. -/
structure Match (ν : Type w) where
  value : Option ν
  length : Nat
deriving DecidableEq, Repr

variable {κ : Type u} {τ : Type v} {ν : Type w}

/-- The constructor. -/
def Cache.new (capacity : Nat) : Cache κ τ ν :=
  { capacity := capacity, roots := ∅, order := StableList.empty, entries := [] }

/-- `size`. -/
def Cache.size (c : Cache κ τ ν) : Nat :=
  c.order.size

variable [DecidableEq κ] [DecidableEq τ]

/-- `size` of one identity. -/
def Cache.sizeOfIdentity (c : Cache κ τ ν) (identity : κ) : Nat :=
  c.order.toList.countP (fun address =>
    match c.entries[address]? with
    | none => false
    | some entry => entry.identity = identity)

/-- The trees after `erase` in the one of an identity; an empty tree goes. -/
def eraseRoot (roots : AList (fun _ : κ => Node τ)) (identity : κ)
    (root : Node τ) (tokens : List τ) : AList (fun _ : κ => Node τ) :=
  let root := root.erase tokens
  if root.children.isEmpty then roots.erase identity
  else roots.insert identity root

/-- `extract`: the entry at a position leaves its tree and the recency list. -/
def Cache.extract (c : Cache κ τ ν) (position : Nat) : Cache κ τ ν × Option ν :=
  match (c.order.get? position).bind (c.entries[·]?) with
  | none => (c, none)
  | some entry =>
      match c.roots.lookup entry.identity with
      | none => (c, none)
      | some root =>
          ({ c with
              roots := eraseRoot c.roots entry.identity root entry.tokens
              order := c.order.erase position },
            entry.value)

/-- `extract_lru`. -/
def Cache.extractLru (c : Cache κ τ ν) : Cache κ τ ν × Option ν :=
  match c.order.cells.getLast? with
  | none => (c, none)
  | some cell => c.extract cell.1

/-- `extract_exact`. -/
def Cache.extractExact (c : Cache κ τ ν) (identity : κ) (tokens : List τ) :
    Cache κ τ ν × Option ν :=
  match (c.roots.lookup identity).bind (fun root => root.lookup tokens) with
  | none => (c, none)
  | some address =>
      match c.entries[address]? with
      | none => (c, none)
      | some entry => c.extract entry.position

/-- The loop of `erase_identity` over the rest of the recency list. -/
def Cache.eraseLoop (identity : κ) :
    List (Nat × Nat) → Cache κ τ ν → List (Option ν) →
      Cache κ τ ν × List (Option ν)
  | [], c, recycled => (c, recycled)
  | cell :: cells, c, recycled =>
      match c.entries[cell.2]? with
      | none => Cache.eraseLoop identity cells c recycled
      | some entry =>
          if entry.identity = identity then
            let extracted := c.extract cell.1
            Cache.eraseLoop identity cells extracted.1
              (recycled ++ [extracted.2])
          else Cache.eraseLoop identity cells c recycled

/-- `erase_identity`; the second component lists the calls of `recycle`. -/
def Cache.eraseIdentity (c : Cache κ τ ν) (identity : κ) :
    Cache κ τ ν × List (Option ν) :=
  Cache.eraseLoop identity c.order.cells c []

/-- `clear`. -/
def Cache.clear (c : Cache κ τ ν) : Cache κ τ ν :=
  { c with roots := ∅, order := StableList.empty }

/-- `find`. -/
def Cache.find (c : Cache κ τ ν) (identity : κ) (tokens : List τ) :
    Cache κ τ ν × Match ν :=
  match (c.roots.lookup identity).bind (fun root => root.longest tokens none) with
  | none => (c, ⟨none, 0⟩)
  | some address =>
      match c.entries[address]? with
      | none => (c, ⟨none, 0⟩)
      | some entry =>
          ({ c with order := c.order.moveToFront entry.position },
            ⟨entry.value, entry.tokens.length⟩)

/-- The loop at the end of `put`; `fuel` bounds the number of passes. -/
def Cache.evict : Nat → Cache κ τ ν → Cache κ τ ν
  | 0, c => c
  | fuel + 1, c =>
      if c.capacity < c.order.size then Cache.evict fuel c.extractLru.1 else c

/--
`put`.  The node that `insert` returns holds the entry stored under the tokens;
a new entry gets the next address.
-/
def Cache.put (c : Cache κ τ ν) (identity : κ) (tokens : List τ)
    (value : Option ν) : Cache κ τ ν :=
  if c.capacity = 0 ∨ tokens = [] then c
  else
    let root := (c.roots.lookup identity).getD Node.empty
    let roots :=
      c.roots.insert identity (root.insert tokens c.entries.length)
    match root.lookup tokens with
    | some address =>
        match c.entries[address]? with
        | none => c
        | some entry =>
            { c with
              roots := roots
              entries := c.entries.set address { entry with value := value }
              order := c.order.moveToFront entry.position }
    | none =>
        let entry : Entry κ τ ν :=
          { identity := identity, tokens := tokens, value := value,
            position := c.order.nextPosition }
        let order := c.order.pushFront c.entries.length
        Cache.evict order.size
          { c with
            roots := roots, order := order, entries := c.entries ++ [entry] }

/-- The public operations. -/
inductive Op (κ : Type u) (τ : Type v) (ν : Type w) where
  | put (identity : κ) (tokens : List τ) (value : Option ν)
  | find (identity : κ) (tokens : List τ)
  | extractExact (identity : κ) (tokens : List τ)
  | extractLru
  | eraseIdentity (identity : κ)
  | clear
  | size
  | sizeOfIdentity (identity : κ)

/-- What an operation returns. -/
inductive Output (ν : Type w) where
  | nothing
  | found (result : Match ν)
  | value (result : Option ν)
  | recycled (values : List (Option ν))
  | size (result : Nat)
deriving DecidableEq, Repr

def Cache.step (c : Cache κ τ ν) : Op κ τ ν → Cache κ τ ν × Output ν
  | .put identity tokens value => (c.put identity tokens value, .nothing)
  | .find identity tokens =>
      ((c.find identity tokens).1, .found (c.find identity tokens).2)
  | .extractExact identity tokens =>
      ((c.extractExact identity tokens).1,
        .value (c.extractExact identity tokens).2)
  | .extractLru => (c.extractLru.1, .value c.extractLru.2)
  | .eraseIdentity identity =>
      ((c.eraseIdentity identity).1, .recycled (c.eraseIdentity identity).2)
  | .clear => (c.clear, .nothing)
  | .size => (c, .size c.size)
  | .sizeOfIdentity identity => (c, .size (c.sizeOfIdentity identity))

/-- Run a sequence of operations and collect what they return. -/
def Cache.run (c : Cache κ τ ν) : List (Op κ τ ν) → Cache κ τ ν × List (Output ν)
  | [] => (c, [])
  | op :: ops =>
      let rest := (c.step op).1.run ops
      (rest.1, (c.step op).2 :: rest.2)

/-- A stored value with its key. -/
structure Item (κ : Type u) (τ : Type v) (ν : Type w) where
  identity : κ
  tokens : List τ
  value : Option ν
deriving DecidableEq, Repr

def Item.key (item : Item κ τ ν) : κ × List τ :=
  (item.identity, item.tokens)

/-- The item that an entry stores. -/
def Entry.item (entry : Entry κ τ ν) : Item κ τ ν :=
  ⟨entry.identity, entry.tokens, entry.value⟩

/-- The item that a cell of the recency list stands for. -/
def cellItem (entries : List (Entry κ τ ν)) (cell : Nat × Nat) :
    Option (Item κ τ ν) :=
  entries[cell.2]?.map Entry.item

/-- The abstract state: the items, most recently used first. -/
def Cache.items (c : Cache κ τ ν) : List (Item κ τ ν) :=
  c.order.cells.filterMap (cellItem c.entries)

namespace Spec

/-- The longest stored prefix of the tokens within an identity. -/
def longest (l : List (Item κ τ ν)) (identity : κ) (tokens : List τ) :
    Option (Item κ τ ν) :=
  (l.filter (fun item => item.identity = identity ∧ item.tokens <+: tokens)).argmax
    (fun item => item.tokens.length)

def find (l : List (Item κ τ ν)) (identity : κ) (tokens : List τ) :
    List (Item κ τ ν) × Match ν :=
  match longest l identity tokens with
  | none => (l, ⟨none, 0⟩)
  | some item =>
      (RecencyList.touch Item.key item.key l, ⟨item.value, item.tokens.length⟩)

def put (capacity : Nat) (l : List (Item κ τ ν)) (identity : κ)
    (tokens : List τ) (value : Option ν) : List (Item κ τ ν) :=
  if capacity = 0 ∨ tokens = [] then l
  else RecencyList.insert Item.key capacity ⟨identity, tokens, value⟩ l

def extractExact (l : List (Item κ τ ν)) (identity : κ) (tokens : List τ) :
    List (Item κ τ ν) × Option ν :=
  match l.find? (fun item => item.key = (identity, tokens)) with
  | none => (l, none)
  | some item => (RecencyList.remove Item.key (identity, tokens) l, item.value)

def extractLru (l : List (Item κ τ ν)) : List (Item κ τ ν) × Option ν :=
  match l.getLast? with
  | none => (l, none)
  | some item => (l.dropLast, item.value)

def eraseIdentity (l : List (Item κ τ ν)) (identity : κ) :
    List (Item κ τ ν) × List (Option ν) :=
  (l.filter (fun item => item.identity ≠ identity),
    (l.filter (fun item => item.identity = identity)).map Item.value)

def step (capacity : Nat) (l : List (Item κ τ ν)) :
    Op κ τ ν → List (Item κ τ ν) × Output ν
  | .put identity tokens value => (put capacity l identity tokens value, .nothing)
  | .find identity tokens =>
      ((find l identity tokens).1, .found (find l identity tokens).2)
  | .extractExact identity tokens =>
      ((extractExact l identity tokens).1,
        .value (extractExact l identity tokens).2)
  | .extractLru => ((extractLru l).1, .value (extractLru l).2)
  | .eraseIdentity identity =>
      ((eraseIdentity l identity).1, .recycled (eraseIdentity l identity).2)
  | .clear => ([], .nothing)
  | .size => (l, .size l.length)
  | .sizeOfIdentity identity =>
      (l, .size (l.countP (fun item => item.identity = identity)))

def run (capacity : Nat) (l : List (Item κ τ ν)) :
    List (Op κ τ ν) → List (Item κ τ ν) × List (Output ν)
  | [] => (l, [])
  | op :: ops =>
      let rest := run capacity (step capacity l op).1 ops
      (rest.1, (step capacity l op).2 :: rest.2)

end Spec

end PrefixCache
end RwkvLightning

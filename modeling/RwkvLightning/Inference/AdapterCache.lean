import RwkvLightning.Library.Execution
import Mathlib

/-!
# The adapter cache

`AdapterCache` of `rwkv_adapter.hpp` and `adapter.cpp`: packages in host memory
under an id and a version, and their copies on the GPU.  Every function runs
under the mutex of the cache; pointers outside the cache come and go at any time.

An address stands for the object behind a shared pointer, so that equal packages
(or leases) are one object.  The maps of maps `registry_` is the list of its
entries; an id without entries is absent.  The file system, the GPU and the
scales of handles answer through the arguments of the events.  The counters of
hits, misses, uploads and evictions are left out: nothing reads them here.
-/

namespace RwkvLightning
namespace AdapterCache

open Execution

/-- `Package`: `size` is the length of `data`. -/
structure Package where
  address : Nat
  version : String
  size : Nat
deriving DecidableEq, Repr

def Package.bytes (p : Package) : Nat :=
  p.size * 2

/-- `registry_[id][version] = package`. -/
structure Entry where
  id : String
  version : String
  package : Package
deriving DecidableEq, Repr

/-- `GpuLease`: `size` is `data.n`. -/
structure Lease where
  address : Nat
  version : String
  size : Nat
deriving DecidableEq, Repr

/-- `Resident`. -/
structure Resident where
  lease : Lease
  used : Nat
deriving DecidableEq, Repr

def Resident.bytes (r : Resident) : Nat :=
  r.lease.size * 2

structure Cache where
  ramBudget : Nat
  gpuBudget : Nat
  stagingBudget : Nat
  clock : Nat
  registry : List Entry
  latest : String → Option String
  registrationOrder : String → List String
  hostLifetimes : List Package
  gpu : List (String × Resident)
  ramBytes : Nat
  gpuBytes : Nat
  /-- The packages that handles outside the cache hold. -/
  handles : List Package
  /-- The leases that are held outside the cache. -/
  leases : List Lease
  nextAddress : Nat

namespace Cache

/-- The constructor. -/
def new (ram gpu staging : Nat) : Cache where
  ramBudget := ram
  gpuBudget := gpu
  stagingBudget := staging
  clock := 0
  registry := []
  latest := fun _ => none
  registrationOrder := fun _ => []
  hostLifetimes := []
  gpu := []
  ramBytes := 0
  gpuBytes := 0
  handles := []
  leases := []
  nextAddress := 0

variable (c : Cache)

/-- `weak.lock()` succeeds. -/
def live (p : Package) : Bool :=
  c.registry.any (fun e => e.package = p) || c.handles.contains p

/-- `use_count() > 1`: somebody else holds a lease. -/
def held (l : Lease) : Bool :=
  c.leases.contains l

/-- The keys of `registry_[id]`. -/
def versions (id : String) : List String :=
  (c.registry.filter (fun e => e.id = id)).map Entry.version

/-- `account_ram`. -/
def accountRam : Cache :=
  let alive := c.hostLifetimes.filter c.live
  { c with
    hostLifetimes := alive
    ramBytes := (alive.map Package.bytes).sum }

/-- What is left of the RAM budget. -/
def ramLeft : Nat :=
  c.ramBudget - min c.ramBudget c.ramBytes

/-- `load_package`, which refuses more than `maxBytes` while it reads. -/
def loadPackage (loaded : Option (String × Nat)) (maxBytes : Nat) : Option (String × Nat) :=
  loaded.filter (fun x => x.2 ≤ maxBytes / 2)

/-- `set_latest`. -/
def setLatest (id version : String) : Cache :=
  { c with
    registrationOrder :=
      Function.update c.registrationOrder id
        ((c.registrationOrder id).filter (fun v => v ≠ version) ++ [version])
    latest := Function.update c.latest id (some version) }

/-- `registry_[id][version] = package`, for a version that is not there. -/
def addEntry (id : String) (p : Package) : Cache :=
  { c with registry := c.registry ++ [⟨id, p.version, p⟩] }

/-- The new package in the registry and among the host lifetimes. -/
def addPackage (id : String) (p : Package) : Cache :=
  { (c.addEntry id p).setLatest id p.version with
    hostLifetimes := c.hostLifetimes ++ [p] }

/-- `register_adapter` after `load_package`: the version, or nothing where it throws. -/
def enter (id : String) (p : Package) : Cache × Option String :=
  if (c.versions id).contains p.version then
    (c.setLatest id p.version, some p.version)
  else
    match c.hostLifetimes.find? (fun q => c.live q && q.version = p.version) with
    | some shared => ((c.addEntry id shared).setLatest id p.version, some p.version)
    | none =>
        if c.accountRam.ramLeft < p.bytes then (c.accountRam, none)
        else ((c.accountRam.addPackage id p).accountRam, some p.version)

/-- The cache when `load_package` has made its package. -/
def read : Cache :=
  { c.accountRam with nextAddress := c.nextAddress + 1 }

/-- `register_adapter`. -/
def registerAdapter (id : String) (loaded : Option (String × Nat)) :
    Cache × Option String :=
  if id = "" then (c, none)
  else
    match loadPackage loaded c.accountRam.ramLeft with
    | none => (c.accountRam, none)
    | some (version, size) => c.read.enter id ⟨c.nextAddress, version, size⟩

/-- `resolve`: the package of the new handle. -/
def resolve (id version : String) : Option Package :=
  if c.versions id = [] then none
  else
    let version := if version = "" then c.latest id else some version
    version.bind (fun version =>
      (c.registry.find? (fun e => e.id = id && e.version = version)).map Entry.package)

/-- One step of the loop of `admit_gpu` that looks for the resident to evict. -/
def better (best : Option (String × Resident)) (x : String × Resident) :
    Option (String × Resident) :=
  if c.held x.2.lease then best
  else
    match best with
    | none => some x
    | some y => if x.2.used < y.2.used then some x else best

/-- What the loop of `admit_gpu` finds. -/
def evictable : Option (String × Resident) :=
  c.gpu.foldl c.better none

/-- Drop one resident. -/
def evict (x : String × Resident) : Cache :=
  { c with
    gpuBytes := c.gpuBytes - x.2.bytes
    gpu := c.gpu.filter (fun y => y.1 ≠ x.1) }

/-- The outer loop of `admit_gpu`; each pass drops a resident. -/
def admitLoop (bytes : Nat) : Nat → Cache → Cache × Bool
  | 0, c => (c, c.gpuBytes ≤ c.gpuBudget - bytes)
  | fuel + 1, c =>
      if c.gpuBytes ≤ c.gpuBudget - bytes then (c, true)
      else
        match c.evictable with
        | none => (c, false)
        | some x => admitLoop bytes fuel (c.evict x)

/-- `admit_gpu`: `false` where it throws. -/
def admitGpu (bytes : Nat) : Cache × Bool :=
  if c.gpuBudget < bytes then (c, false) else admitLoop bytes c.gpu.length c

/-- `acquire`: `memory` is what `cudaMemGetInfo` says, and `uploaded` that no later
step fails. -/
def acquire (p : Package) (memory : Option Nat) (uploaded : Bool) :
    Cache × Option Lease :=
  match c.gpu.lookup p.version with
  | some r =>
      ({ c with
          clock := c.clock + 1
          gpu := c.gpu.map (fun x =>
            if x.1 = p.version then (x.1, { x.2 with used := c.clock + 1 }) else x)
          leases := r.lease :: c.leases },
        some r.lease)
  | none =>
      if c.stagingBudget < p.bytes then (c, none)
      else
        let (c, admitted) := c.admitGpu p.bytes
        if admitted = false then (c, none)
        else
          match memory with
          | none => (c, none)
          | some free =>
              if free < p.bytes then (c, none)
              else if uploaded = false then (c, none)
              else
                let lease : Lease := ⟨c.nextAddress, p.version, p.size⟩
                ({ c with
                    clock := c.clock + 1
                    gpu := c.gpu ++ [(p.version, ⟨lease, c.clock + 1⟩)]
                    gpuBytes := c.gpuBytes + p.bytes
                    leases := lease :: c.leases
                    nextAddress := c.nextAddress + 1 },
                  some lease)

/-- `erase`. -/
def erase (id version : String) : Cache :=
  if c.versions id = [] then c
  else
    let c :=
      if version = "" then
        { c with
          registry := c.registry.filter (fun e => e.id ≠ id)
          latest := Function.update c.latest id none
          registrationOrder := Function.update c.registrationOrder id [] }
      else
        let c :=
          { c with
            registry := c.registry.filter (fun e => ¬(e.id = id ∧ e.version = version))
            registrationOrder :=
              Function.update c.registrationOrder id
                ((c.registrationOrder id).filter (fun v => v ≠ version)) }
        if c.versions id = [] then
          { c with
            latest := Function.update c.latest id none
            registrationOrder := Function.update c.registrationOrder id [] }
        else if c.latest id = some version then
          { c with latest := Function.update c.latest id (c.registrationOrder id).getLast? }
        else c
    c.accountRam

/-- `trim`. -/
def trim : Cache :=
  (c.gpu.foldl (fun c x => if c.held x.2.lease then c else c.evict x) c).accountRam

end Cache

inductive Event where
  | register (id : String) (loaded : Option (String × Nat))
  /-- The handle is made unless the scale is not finite. -/
  | resolve (id version : String) (finite : Bool)
  | acquire (k : Nat) (memory : Option Nat) (uploaded : Bool)
  | erase (id version : String)
  | trim
  | copyHandle (k : Nat)
  | releaseHandle (k : Nat)
  | copyLease (k : Nat)
  | releaseLease (k : Nat)
deriving DecidableEq, Repr

/-- One operation; `none` where it uses a pointer that nobody holds. -/
def step (c : Cache) : Event → Option Cache
  | .register id loaded => some (c.registerAdapter id loaded).1
  | .resolve id version finite =>
      match c.resolve id version with
      | none => some c
      | some p => if finite then some { c with handles := p :: c.handles } else some c
  | .acquire k memory uploaded =>
      c.handles[k]?.map (fun p => (c.acquire p memory uploaded).1)
  | .erase id version => some (c.erase id version)
  | .trim => some c.trim
  | .copyHandle k => c.handles[k]?.map (fun p => { c with handles := p :: c.handles })
  | .releaseHandle k => c.handles[k]?.map (fun _ => { c with handles := c.handles.eraseIdx k })
  | .copyLease k => c.leases[k]?.map (fun l => { c with leases := l :: c.leases })
  | .releaseLease k => c.leases[k]?.map (fun _ => { c with leases := c.leases.eraseIdx k })

end AdapterCache
end RwkvLightning

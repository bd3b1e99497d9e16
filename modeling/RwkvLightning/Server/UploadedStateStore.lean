import RwkvLightning.Library.Execution
import Mathlib

/-!
# The store of uploaded states

`UploadedStateStore` of `rwkv_uploaded_state_store.cpp`, together with the files
that it owns and the handles that its callers hold.

**Entries.**  An `Entry` is shared by the map of the store and the handles.  Its
destructor removes the file at its path.  Whoever drops the last reference runs
it: `erase` and `shutdown` under the mutex, the release of a handle outside, so
there the removal is an event of its own.

**Names.**  A name is its list of bytes, each written as a `Char`.

**Environment.**  Hash, time format and the validation of a PTH file are
functions.  Each call of `upload` carries what it draws at random, the clock,
and the statement that fails, if any.
-/

namespace RwkvLightning
namespace UploadedStateStore

abbrev Name := List Char

abbrev Bytes := List UInt8

/-- `kMaxUploadedStateBytes`. -/
def kMaxUploadedStateBytes : Nat := 512 * 1024 * 1024

/-- What `validate_state_pth` finds in a file. -/
structure Shape where
  layers : Int
  heads : Int
  headSize : Int
deriving DecidableEq, Repr

/-- The functions outside the store. -/
structure Platform (δ : Type) where
  sha256 : Bytes → δ
  /-- `put_time` of the seconds and the milliseconds. -/
  uploadedAt : Int → Name
  validateStatePth : Bytes → Except String Shape

/-- `UploadedStateInfo`; `tensor_count` equals `layers`. -/
structure UploadedStateInfo where
  stateId : Name
  filename : Name
  originalFilename : Name
  sizeBytes : Nat
  tensorCount : Int
  created : Int
  createdMs : Int
  uploadedAt : Name
  layers : Int
  heads : Int
  headSize : Int
deriving DecidableEq, Repr

/-- The directory of the store, named by its random suffix, and a file in it. -/
abbrev Path := Nat × Name

/-- `UploadedStateStore::Entry`; `bytes` is a ghost: what was uploaded. -/
structure Entry (δ : Type) where
  serial : Nat
  info : UploadedStateInfo
  path : Path
  digest : δ
  bytes : Bytes
deriving DecidableEq, Repr

/-- The store, the files and the references that are alive outside. -/
structure Store (δ : Type) where
  directory : Option Nat
  states : List (Name × Entry δ)
  files : Path → Option Bytes
  /-- Handles acquired since the last shutdown, under names of their own. -/
  handles : List (Nat × Entry δ)
  /-- Handles that have outlived a shutdown. -/
  stale : List (Nat × Entry δ)
  /-- Entries whose destructor has not removed the file yet. -/
  dying : List (Entry δ)
  nextSerial : Nat

/-- The statement of `upload` that fails. -/
inductive Fault where
  | none
  | hash
  | createDirectories
  | random
  /-- Opening, writing or closing the file. -/
  | save
  /-- An allocation between saving the file and the end of `emplace`. -/
  | construct
  /-- The copy of `info` that is returned. -/
  | returnInfo
deriving DecidableEq, Repr

/-- One call of `upload`. -/
structure Upload where
  filename : Name
  data : Bytes
  uploadUuid : Name
  directorySuffix : Nat
  createdMs : Int
  randomBytes : List UInt8
  fault : Fault

section Names

/-- `path::filename`: what follows the last separator. -/
def pathFilename (path : Name) : Name :=
  (path.reverse.takeWhile (· ≠ '/')).reverse

/-- `path::stem`: up to the last dot, unless it is the first character. -/
def pathStem (name : Name) : Name :=
  let front := ((name.reverse.dropWhile (· ≠ '.')).drop 1).reverse
  if name = ['.', '.'] ∨ front = [] then name else front

/-- The basename that `upload` keeps of a filename. -/
def basenameOf (filename : Name) : Name :=
  let basename := pathFilename (filename.map (fun c => if c = '\\' then '/' else c))
  if basename = [] ∨ basename = ['.'] ∨ basename = ['.', '.'] then "state.pth".toList
  else basename

/-- The check of a basename. -/
def portable (basename : Name) : Bool :=
  basename.length ≤ 180 &&
    basename.all (fun c => 32 ≤ c.toNat && !("<>:\"|?*".toList.contains c))

def hexDigit (n : Nat) : Char :=
  "0123456789abcdef".toList.getD n '0'

/-- `uuid_v7`; byte `i` of the timestamp, most significant first. -/
def uuidV7 (timestamp : Int) (randomBytes : List UInt8) : Name :=
  let byte (i : Nat) : Nat :=
    if i < 6 then (timestamp / 256 ^ (5 - i) % 256).toNat
    else if i = 6 then (randomBytes.getD 6 0).toNat % 16 + 0x70
    else if i = 8 then (randomBytes.getD 8 0).toNat % 64 + 0x80
    else (randomBytes.getD i 0).toNat
  (List.range 16).flatMap (fun i =>
    (if i = 4 ∨ i = 6 ∨ i = 8 ∨ i = 10 then ['-'] else []) ++
      [hexDigit (byte i / 16), hexDigit (byte i % 16)])

/-- `is_uuid_v7`. -/
def isUuidV7 (uuid : Name) : Bool :=
  uuid.length = 36 && uuid.getD 14 ' ' = '7' &&
    "89ab".toList.contains (uuid.getD 19 ' ') &&
    (List.range 36).all (fun i =>
      if i = 8 ∨ i = 13 ∨ i = 18 ∨ i = 23 then uuid.getD i ' ' = '-'
      else "0123456789abcdef".toList.contains (uuid.getD i ' '))

/-- The public id of a state. -/
def stateIdOf (basename uuid : Name) : Name :=
  (if pathStem basename = [] then "state".toList else pathStem basename) ++ '-' :: uuid

/-- The UUID that an upload runs under. -/
def Upload.uuid (u : Upload) : Name :=
  if u.uploadUuid = [] then uuidV7 u.createdMs u.randomBytes else u.uploadUuid

/-- The id that an upload runs under. -/
def Upload.stateId (u : Upload) : Name :=
  stateIdOf (basenameOf u.filename) u.uuid

end Names

section Operations

variable {δ : Type} [DecidableEq δ]

/-- The constructor. -/
def create : Store δ where
  directory := none
  states := []
  files := fun _ => none
  handles := []
  stale := []
  dying := []
  nextSerial := 0

variable (p : Platform δ) (s : Store δ)

/-- An entry is kept alive by the map or by a handle. -/
def Store.referenced (e : Entry δ) : Bool :=
  s.states.any (fun x => x.2.serial = e.serial) ||
    s.handles.any (fun x => x.2.serial = e.serial) ||
    s.stale.any (fun x => x.2.serial = e.serial)

/-- `filesystem::remove`. -/
def Store.removeFile (path : Path) : Store δ :=
  { s with files := Function.update s.files path none }

/-- The directory after `ensure_directory_locked`. -/
def Store.directoryAfter (u : Upload) : Nat :=
  s.directory.getD u.directorySuffix

/-- The path that an upload writes to. -/
def Store.target (u : Upload) : Path :=
  (s.directoryAfter u, u.stateId)

/-- The entry that an upload creates. -/
def Store.entryOf (u : Upload) (shape : Shape) : Entry δ where
  serial := s.nextSerial
  info :=
    { stateId := u.stateId
      filename := u.stateId
      originalFilename := basenameOf u.filename
      sizeBytes := u.data.length
      tensorCount := shape.layers
      created := u.createdMs.tdiv 1000
      createdMs := u.createdMs
      uploadedAt := p.uploadedAt u.createdMs
      layers := shape.layers
      heads := shape.heads
      headSize := shape.headSize }
  path := s.target u
  digest := p.sha256 u.data
  bytes := u.data

/-- The checks of `upload` that come before the directory. -/
def checkData (u : Upload) : Except String Unit :=
  if u.data = [] then .error "uploaded state file is empty"
  else if kMaxUploadedStateBytes < u.data.length then
    .error "uploaded state file exceeds the 512 MiB limit"
  else if u.fault = .hash then .error "failed to hash uploaded state"
  else .ok ()

/-- The directory is created, and the checks of `upload` that come after it. -/
def Store.checkName (u : Upload) : Except String Unit :=
  if s.directory = none ∧ u.fault = .createDirectories then
    .error "failed to create uploaded state directory: "
  else if portable (basenameOf u.filename) = false then
    .error "invalid uploaded state filename"
  else if u.uploadUuid = [] ∧ u.fault = .random then
    .error "failed to generate state upload UUID"
  else if isUuidV7 u.uuid = false then
    .error "upload UUID must be a canonical UUID-v7"
  else .ok ()

/-- The `try` block of `upload` and its handler. -/
def Store.save (u : Upload) : Store δ × Except String UploadedStateInfo :=
  let path := s.target u
  if u.fault = .save then (s.removeFile path, .error "failed to save uploaded state file")
  else
    match p.validateStatePth u.data with
    | .error e => (s.removeFile path, .error e)
    | .ok shape =>
        if u.fault = .construct then (s.removeFile path, .error "std::bad_alloc")
        else
          let entry := s.entryOf p u shape
          let s := { s with
            states := (u.stateId, entry) :: s.states
            files := Function.update s.files path (some u.data)
            nextSerial := s.nextSerial + 1 }
          if u.fault = .returnInfo then (s.removeFile path, .error "std::bad_alloc")
          else (s, .ok entry.info)

/-- `upload`. -/
def Store.upload (u : Upload) : Store δ × Except String UploadedStateInfo :=
  match checkData u with
  | .error e => (s, .error e)
  | .ok () =>
      let named := s.checkName u
      let s := { s with directory := some (s.directoryAfter u) }
      match named with
      | .error e => (s, .error e)
      | .ok () =>
          match s.states.lookup u.stateId with
          | some existing =>
              if u.uploadUuid ≠ [] ∧
                  existing.info.originalFilename = basenameOf u.filename ∧
                  existing.info.sizeBytes = u.data.length ∧
                  existing.digest = p.sha256 u.data then
                (s, .ok existing.info)
              else
                (s, .error ("upload UUID conflicts with existing state content: " ++
                  String.ofList u.stateId))
          | none => s.save p u

/-- `acquire`; the new handle goes by the name `handle`. -/
def Store.acquire (stateId : Name) (handle : Nat) : Store δ :=
  match s.states.lookup stateId with
  | none => s
  | some e => { s with handles := (handle, e) :: s.handles }

/-- Copy a handle. -/
def Store.copyHandle (handle copy : Nat) : Store δ :=
  { s with
    handles := ((s.handles.lookup handle).map (fun e => (copy, e))).toList ++ s.handles
    stale := ((s.stale.lookup handle).map (fun e => (copy, e))).toList ++ s.stale }

/-- Drop a handle; the last reference leaves the entry to its destructor. -/
def Store.release (handle : Nat) : Store δ :=
  let dropped :=
    ((s.handles ++ s.stale).filter (fun x => x.1 = handle)).map Prod.snd
  let s := { s with
    handles := s.handles.filter (fun x => x.1 ≠ handle)
    stale := s.stale.filter (fun x => x.1 ≠ handle) }
  { s with dying := s.dying ++ dropped.filter (fun e => !s.referenced e) }

/-- The destructor of an entry whose last handle was dropped. -/
def Store.destroy (serial : Nat) : Option (Store δ) :=
  match s.dying.find? (fun e => e.serial = serial) with
  | none => none
  | some e =>
      some { s.removeFile e.path with
        dying := s.dying.filter (fun e => e.serial ≠ serial) }

/-- `erase`, with the destructor if there is no handle. -/
def Store.erase (stateId : Name) : Store δ × Bool :=
  match s.states.lookup stateId with
  | none => (s, false)
  | some e =>
      let s := { s with states := s.states.filter (fun x => x.1 ≠ stateId) }
      (if s.referenced e then s else s.removeFile e.path, true)

/-- `list`. -/
def Store.list : List UploadedStateInfo :=
  (s.states.map (fun x => x.2.info)).mergeSort (fun lhs rhs =>
    if lhs.createdMs = rhs.createdMs then decide (lhs.stateId ≤ rhs.stateId)
    else decide (rhs.createdMs < lhs.createdMs))

/-- `shutdown`. -/
def Store.shutdown : Store δ :=
  match s.directory with
  | none => { s with states := [], handles := [], stale := s.handles ++ s.stale }
  | some directory =>
      { s with
        directory := none
        states := []
        files := fun path => if path.1 = directory then none else s.files path
        handles := []
        stale := s.handles ++ s.stale }

/-- What can happen to the store. -/
inductive Event where
  | upload (u : Upload)
  | acquire (stateId : Name) (handle : Nat)
  | copyHandle (handle copy : Nat)
  | release (handle : Nat)
  | destroy (serial : Nat)
  | erase (stateId : Name)
  | list
  | shutdown

def step : Store δ → Event → Option (Store δ)
  | s, .upload u => some (s.upload p u).1
  | s, .acquire stateId handle => some (s.acquire stateId handle)
  | s, .copyHandle handle copy => some (s.copyHandle handle copy)
  | s, .release handle => some (s.release handle)
  | s, .destroy serial => s.destroy serial
  | s, .erase stateId => some (s.erase stateId).1
  | s, .list => some s
  | s, .shutdown => some s.shutdown

end Operations

end UploadedStateStore
end RwkvLightning

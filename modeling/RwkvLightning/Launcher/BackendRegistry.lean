import RwkvLightning.Library.GoUrl
import RwkvLightning.Launcher.JsonText
import Mathlib.Data.List.Basic

/-!
# The backend registry of the launcher

`backends.go`: the list of the nodes that the launcher knows, in memory and in its file.

**Files.**  `file` is what the registry file holds, and `none` where there is none.  A rename
puts the temporary file in its place at once or not at all.

**Calls.**  `Calls` says how the calls to the system end that an operation may make; an error
is its text.

**Time.**  An operation holds the lock of the registry from its look at the list to the end.
-/

namespace RwkvLightning
namespace Launcher
namespace Backends

open GoStrings (Bytes trimSpace trimSuffix hasSuffix)
open JsonString (ascii)

/-- `backendEntry`. -/
structure BackendEntry where
  id : Bytes
  name : Bytes
  baseURL : Bytes
  token : Bytes
deriving DecidableEq, Repr

/-- `probeResult`. -/
structure ProbeResult where
  kind : Bytes
  capabilities : List Bytes
  reachable : Bool
  lastProbe : ℤ
  probeError : Bytes
deriving DecidableEq, Repr

/-- `registry`. -/
structure Registry where
  loaded : Bool
  entries : List BackendEntry
  probes : List (Bytes × ProbeResult)
deriving DecidableEq, Repr

/-- `openRegistry`. -/
def openRegistry : Registry where
  loaded := false
  entries := []
  probes := []

/-- How the calls to the system end; a call that goes well has no error. -/
structure Calls where
  /-- whether `os.ReadFile` reads a file that is there -/
  readable : Bool
  random : Except Bytes (UInt8 × UInt8 × UInt8)
  mkdirAll : Option Bytes
  createTemp : Option Bytes
  write : Option Bytes
  sync : Option Bytes
  close : Option Bytes
  rename : Option Bytes

section File

/-- `foldName`.  Of the letters outside ASCII only the long s and the Kelvin sign fold into
it, and no field has another letter in its name. -/
def foldName : Bytes → Bytes
  | 0xC5 :: 0xBF :: rest => 0x53 :: foldName rest
  | 0xE2 :: 0x84 :: 0xAA :: rest => 0x4B :: foldName rest
  | c :: rest => (if 0x61 ≤ c ∧ c ≤ 0x7A then c - 0x20 else c) :: foldName rest
  | [] => []

/-- Whether a member of an object is for a field. -/
def isField (name : Bytes) (field : String) : Bool := foldName name = foldName (ascii field)

/-- A value for a field that is a string; `null` leaves the field as it is. -/
def decodeString (old : Bytes) : Json → Option Bytes
  | .scalar (.str text) => some text
  | .scalar .null => some old
  | _ => none

/-- A member of an object for a `backendEntry`. -/
def decodeField (e : BackendEntry) (member : Bytes × Json) : Option BackendEntry :=
  if isField member.1 "id" then
    (decodeString e.id member.2).map fun text => { e with id := text }
  else if isField member.1 "name" then
    (decodeString e.name member.2).map fun text => { e with name := text }
  else if isField member.1 "base_url" then
    (decodeString e.baseURL member.2).map fun text => { e with baseURL := text }
  else if isField member.1 "token" then
    (decodeString e.token member.2).map fun text => { e with token := text }
  else some e

/-- A value for a `backendEntry`, over what is there. -/
def decodeEntry (e : BackendEntry) : Json → Option BackendEntry
  | .scalar .null => some e
  | .object members => members.foldlM decodeField e
  | _ => none

/-- A `backendEntry` of zeros. -/
def zeroEntry : BackendEntry where
  id := []
  name := []
  baseURL := []
  token := []

/-- The items of an array, over the memory of the slice. -/
def decodeItems : List BackendEntry → List Json → Option (List BackendEntry)
  | memory, [] => some memory
  | memory, item :: items =>
      (decodeEntry (memory.headD zeroEntry) item).bind fun e =>
        (decodeItems memory.tail items).map fun rest => e :: rest

/-- A value for the field `Backends`: the memory of its slice, and the length. -/
def decodeBackends (slice : List BackendEntry × ℕ) : Json → Option (List BackendEntry × ℕ)
  | .scalar .null => some ([], 0)
  | .array [] => some ([], 0)
  | .array items => (decodeItems slice.1 items).map fun memory => (memory, items.length)
  | _ => none

/-- A member of the object of the whole file. -/
def decodeMember (slice : List BackendEntry × ℕ) (member : Bytes × Json) :
    Option (List BackendEntry × ℕ) :=
  if isField member.1 "backends" then decodeBackends slice member.2 else some slice

/-- `json.Unmarshal` of a registry file, where it goes well. -/
def unmarshal (data : Bytes) : Option (List BackendEntry) :=
  match parse data with
  | some (.scalar .null) => some []
  | some (.object members) =>
      (members.foldlM decodeMember ([], 0)).map fun slice => slice.1.take slice.2
  | _ => none

/-- The fields of a `backendEntry`; an empty token is left out. -/
def marshalEntry (e : BackendEntry) : Bytes :=
  let token := if e.token = [] then [] else [(ascii "token", quoted e.token)]
  indentedObject 2 ([(ascii "id", quoted e.id), (ascii "name", quoted e.name),
    (ascii "base_url", quoted e.baseURL)] ++ token)

/-- `json.MarshalIndent` of a registry. -/
def marshal (entries : List BackendEntry) : Bytes :=
  indentedObject 0 [(ascii "backends", indentedArray 1 (entries.map marshalEntry))]

/-- What a registry takes from a file. -/
def usable (e : BackendEntry) : Bool :=
  !(e.id = [] || e.baseURL = [] || e.id = ascii "local")

/-- `os.ReadFile`. -/
def readFile (file : Option Bytes) (calls : Calls) : Option Bytes :=
  if calls.readable then file else none

/-- `ensureLoaded`, with what `os.ReadFile` gives. -/
def ensureLoaded (rg : Registry) (read : Option Bytes) : Registry :=
  if rg.loaded then rg
  else
    match read with
    | none => { rg with loaded := true }
    | some data =>
        if data.length > 2 ^ 20 then { rg with loaded := true }
        else
          match unmarshal data with
          | none => { rg with loaded := true }
          | some found =>
              { rg with loaded := true, entries := rg.entries ++ found.filter usable }

/-- `save`, and what the file holds then. -/
def save (file : Option Bytes) (calls : Calls) (entries : List BackendEntry) :
    Except Bytes Unit × Option Bytes :=
  let failed (err : Bytes) := (.error (ascii "save backend registry: " ++ err), file)
  match calls.mkdirAll with
  | some err => failed err
  | none =>
      match calls.createTemp with
      | some err => failed err
      | none =>
          match (calls.write <|> calls.sync) <|> calls.close with
          | some err => failed err
          | none =>
              match calls.rename with
              | some err => failed err
              | none => (.ok (), some (marshal entries))

end File

section Operations

/-- `validateBaseURL`. -/
def validateBaseURL (raw : Bytes) : Except Bytes Bytes :=
  let raw := trimSpace raw
  let unsuited := ascii "base_url must be an http(s) URL like http://100.64.0.10:18766"
  match GoUrl.parse raw with
  | none => .error unsuited
  | some u =>
      if (u.scheme ≠ ascii "http" ∧ u.scheme ≠ ascii "https") ∨ u.host = [] then .error unsuited
      else if hasSuffix (trimSuffix u.path (ascii "/")) (ascii "/v1") ∨
          hasSuffix (trimSuffix u.path (ascii "/")) (ascii "/api") then
        .error (ascii "base_url must not include a /v1 or /api suffix")
      else .ok (trimSuffix raw (ascii "/"))

/-- `hex.EncodeToString`. -/
def encodeToString (bytes : Bytes) : Bytes :=
  bytes.flatMap fun byte => [hexDigit (byte.toNat / 0x10), hexDigit (byte.toNat % 0x10)]

def errUnknownBackend : Bytes := ascii "unknown backend id"

def errLocalBackend : Bytes := ascii "the local backend cannot be removed"

/-- What an operation reports, and the registry and the file behind it. -/
structure Outcome (α : Type) where
  result : Except Bytes α
  registry : Registry
  file : Option Bytes

variable (rg : Registry) (file : Option Bytes) (calls : Calls)

/-- The end of an operation: the list is saved, and changed when that went well. -/
def commit {α : Type} (entries : List BackendEntry) (after : Registry) (a : α) : Outcome α :=
  match save file calls entries with
  | (.error err, file) => { result := .error err, registry := rg, file := file }
  | (.ok _, file) => { result := .ok a, registry := { after with entries := entries }, file := file }

/-- The entry that `add` makes. -/
def newEntry (name baseURL token : Bytes) (buf : UInt8 × UInt8 × UInt8) : BackendEntry :=
  let id := encodeToString [buf.1, buf.2.1, buf.2.2]
  { id := id
    name := if trimSpace name = [] then ascii "backend " ++ id else trimSpace name
    baseURL := baseURL
    token := trimSpace token }

/-- `add`. -/
def add (name baseURL token : Bytes) : Outcome BackendEntry :=
  match validateBaseURL baseURL with
  | .error err => { result := .error err, registry := rg, file := file }
  | .ok baseURL =>
      match calls.random with
      | .error err => { result := .error err, registry := rg, file := file }
      | .ok buf =>
          let e := newEntry name baseURL token buf
          let rg := ensureLoaded rg (readFile file calls)
          if rg.entries.any fun existing => existing.id = e.id then
            { result := .error (ascii "backend id collision; retry the request")
              registry := rg
              file := file }
          else commit rg file calls (rg.entries ++ [e]) rg e

/-- The name that `update` writes. -/
def renamed (e : BackendEntry) : Option Bytes → Except Bytes BackendEntry
  | none => .ok e
  | some name =>
      if trimSpace name = [] then .error (ascii "name must not be empty")
      else .ok { e with name := trimSpace name }

/-- The address that `update` writes. -/
def readdressed (e : BackendEntry) : Option Bytes → Except Bytes BackendEntry
  | none => .ok e
  | some baseURL => (validateBaseURL baseURL).map fun parsed => { e with baseURL := parsed }

/-- The token that `update` writes; an empty one leaves the token alone. -/
def retokened (e : BackendEntry) : Option Bytes → BackendEntry
  | none => e
  | some token => if trimSpace token = [] then e else { e with token := trimSpace token }

/-- The fields that `update` was sent. -/
def edited (e : BackendEntry) (name baseURL token : Option Bytes) : Except Bytes BackendEntry :=
  (renamed e name).bind fun next =>
    (readdressed next baseURL).map fun next => retokened next token

/-- `update`. -/
def update (id : Bytes) (name baseURL token : Option Bytes) : Outcome BackendEntry :=
  if id = ascii "local" then { result := .error errLocalBackend, registry := rg, file := file }
  else
    let rg := ensureLoaded rg (readFile file calls)
    match rg.entries.findIdx? fun e => e.id = id with
    | none => { result := .error errUnknownBackend, registry := rg, file := file }
    | some i =>
        match edited (rg.entries.getD i zeroEntry) name baseURL token with
        | .error err => { result := .error err, registry := rg, file := file }
        | .ok next => commit rg file calls (rg.entries.set i next) rg next

/-- `remove`. -/
def remove (id : Bytes) : Outcome Unit :=
  let rg := ensureLoaded rg (readFile file calls)
  match rg.entries.findIdx? fun e => e.id = id with
  | some i =>
      commit rg file calls (rg.entries.eraseIdx i)
        { rg with probes := rg.probes.filter fun probe => probe.1 ≠ id } ()
  | none =>
      { result := .error (if id = ascii "local" then errLocalBackend else errUnknownBackend)
        registry := rg
        file := file }

/-- `lookup`. -/
def lookup (id : Bytes) : Outcome (Option BackendEntry) :=
  let rg := ensureLoaded rg (readFile file calls)
  { result := .ok (rg.entries.find? fun e => e.id = id), registry := rg, file := file }

/-- `setProbe`. -/
def setProbe (id : Bytes) (p : ProbeResult) (now : ℤ) : Registry :=
  { rg with
    probes := (id, { p with lastProbe := now }) :: rg.probes.filter fun probe => probe.1 ≠ id }

end Operations

end Backends
end Launcher
end RwkvLightning

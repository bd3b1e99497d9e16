import RwkvLightning.Io.PthTensor
import RwkvLightning.Inference.StateSlice
import RwkvLightning.Server.UploadedStateStore
import Mathlib

/-!
# State files

`validate_state_pth` of `rwkv_uploaded_state_store.cpp`, which an uploaded file has to
pass, and `ModelBackend::load_state_from_pth` of `rwkv7_fast_v4.cu`, which fills a new
state from the file.

**Failures.**  A thrown exception is a status error with its text.  The text of a CUDA
error is left out, and so is a name that stands between two parts of a text.

**Device.**  `fingerprint_file` is a parameter.  The device has the memory that
`create_state` asks for, and a copy fails when an address lies outside its buffer.
-/

namespace RwkvLightning
namespace StatePth

open Pth StateSlice UploadedStateStore
open Backend (Identity)

abbrev Bytes := List UInt8

section Names

/-- `is_time_state_tensor`; `load_state_from_pth` has the same test in its loop. -/
def isTimeStateTensor (name : Bytes) : Bool :=
  (ascii "blocks.").isPrefixOf name && decide (7 + 15 < name.length) &&
    (ascii ".att.time_state").isSuffixOf name

/-- `layer_text`. -/
def layerText (name : Bytes) : Bytes :=
  (name.drop 7).take (name.length - 7 - 15)

def isSpace (byte : UInt8) : Bool :=
  byte = 0x20 || (0x09 ≤ byte && byte ≤ 0x0D)

def isDigit (byte : UInt8) : Bool :=
  0x30 ≤ byte && byte ≤ 0x39

/-- The number that a text of digits stands for. -/
def digitsValue (digits : Bytes) : Nat :=
  digits.foldl (fun n byte => n * 10 + (byte.toNat - 48)) 0

/-- `strtol` in base 10: the number, and how far it was read; 0 if there is none. -/
def strtol (text : Bytes) : Int × Nat :=
  let blanks := (text.takeWhile isSpace).length
  let rest := text.drop blanks
  let negative : Bool := rest.head? = some 0x2D
  let sign : Nat := if negative ∨ rest.head? = some 0x2B then 1 else 0
  let digits := (rest.drop sign).takeWhile isDigit
  if digits = [] then (0, 0)
  else
    let value : Int := if negative then -digitsValue digits else digitsValue digits
    (max (-2 ^ 63) (min value (2 ^ 63 - 1)), blanks + sign + digits.length)

/-- `std::stoi`. -/
def stoi (text : Bytes) : Io Int :=
  let number := strtol text
  if number.2 = 0 ∨ number.1 < -2 ^ 31 ∨ 2 ^ 31 ≤ number.1 then error "stoi" []
  else pure number.1

end Names

/-- An error of a reader inside the text of its caller. -/
def context {α : Type} (text : String) (c : Io α) : Io α :=
  { c with
    result := c.result.mapError fun
      | .status message subject => .status (text ++ message) subject
      | fault => fault }

section Validation

/-- What the loop of `validate_state_pth` has found. -/
structure Found where
  layers : List Int
  heads : Int
  headSize : Int
deriving DecidableEq, Repr

def Found.start : Found where
  layers := []
  heads := 0
  headSize := 0

/-- The heads and the head size of a valid shape. -/
def sizesOf : List Int → Option (Int × Int)
  | [heads, headSize, last] =>
      if heads ≤ 0 ∨ headSize ≤ 0 ∨ 2 ^ 31 - 1 < heads ∨ 2 ^ 31 - 1 < headSize ∨
          headSize ≠ last then
        none
      else some (heads, headSize)
  | _ => none

/-- A type of elements that a state may have. -/
def stateDtype (dtype : TensorDType) : Bool :=
  dtype = .bFloat16 || dtype = .float32

/-- The loop that bounds each dimension. -/
def checkDims (record : TensorRecord) : List (Int × Int) → Nat → Nat → Io PUnit
  | [], _, _ => pure ⟨⟩
  | (size, stride) :: dims, last, elements => do
      let dim := size.toNat
      errorIf (stride < 0 ∨
          kMaxUploadedStateBytes / dtypeSizeBytes record.dtype / dim < elements)
        "invalid state tensor stride or size: " record.name
      let elements ← mul elements dim
      errorIf (1 < dim ∧ (record.storageSize - 1 - last) / (dim - 1) < stride.toNat)
        "state tensor range exceeds storage: " record.name
      let distance ← mul (dim - 1) stride.toNat
      let last ← add last distance
      checkDims record dims last elements

/-- The consistency of the shapes: the first one sets the sizes. -/
def Found.sizes (found : Found) (record : TensorRecord) (heads headSize : Int) :
    Io Found :=
  if found.heads = 0 then pure { found with heads := heads, headSize := headSize }
  else do
    errorIf (found.heads ≠ heads ∨ found.headSize ≠ headSize)
      "inconsistent state tensor shapes: " record.name
    pure found

variable (archive : PthArchive)

/-- A pass of the loop of `validate_state_pth` over a time-state tensor. -/
def validateRecord (found : Found) (record : TensorRecord) : Io Found := do
  let text := layerText record.name
  errorIf (text = [] ∨ text.all isDigit = false) "invalid state tensor name: " record.name
  let layer ← stoi text
  errorIf (layer ∈ found.layers) "duplicate state tensor: " record.name
  errorIf (stateDtype record.dtype = false)
    "invalid shape or dtype for state tensor: " record.name
  match sizesOf record.shape with
  | none => error "invalid shape or dtype for state tensor: " record.name
  | some (heads, headSize) => do
      let found ← found.sizes record heads headSize
      errorIf (record.stride.length ≠ 3 ∨
          kMaxUploadedStateBytes / dtypeSizeBytes record.dtype < record.storageSize ∨
          record.storageSize ≤ record.storageOffset)
        "invalid state tensor storage: " record.name
      checkDims record (record.shape.zip record.stride) record.storageOffset 1
      context "invalid state tensor storage: " (computeTensorStats archive record)
      pure { found with layers := layer :: found.layers }

/-- The loop of `validate_state_pth`. -/
def validateRecords (found : Found) : List TensorRecord → Io Found
  | [] => pure found
  | record :: records =>
      if isTimeStateTensor record.name then do
        let found ← validateRecord archive found record
        validateRecords found records
      else validateRecords found records

/-- `validate_state_pth`. -/
def validateStatePth (maxEntries : Nat) (file : Bytes) : Io Shape := do
  let archive ← context "invalid state PTH: " (openChunked maxEntries file)
  let records ← context "invalid state PTH: " (parsePthTensorRecords archive)
  let found ← validateRecords archive Found.start records
  errorIf (found.layers = [])
    "invalid state PTH: no blocks.N.att.time_state tensors found" []
  errorIf (found.layers.min? ≠ some 0 ∨
      found.layers.max? ≠ some ((found.layers.length : Int) - 1))
    "state PTH layers must be contiguous starting at blocks.0" []
  pure { layers := found.layers.length, heads := found.heads, headSize := found.headSize }

end Validation

section Loading

/-- `transpose_time_state_for_runtime`. -/
def transposeTimeStateForRuntime {T : Type} (zero : T) (source : List T)
    (heads headSize : Nat) : Io (List T) := do
  errorIf (heads = 0 ∨ headSize = 0) "invalid time-state dimensions" []
  let expected := heads * headSize * headSize
  errorIf (source.length ≠ expected)
    "time-state element count does not match model dimensions" []
  pure
    ((List.range heads).foldl
      (fun runtime head =>
        (List.range headSize).foldl
          (fun runtime value =>
            (List.range headSize).foldl
              (fun runtime key =>
                let sourceIndex := (head * headSize + value) * headSize + key
                let runtimeIndex := (head * headSize + key) * headSize + value
                runtime.set runtimeIndex (source.getD sourceIndex zero))
              runtime)
          runtime)
      (List.replicate expected zero))

/-- The loop that copies a layer into every lane. -/
def copyLanes {T : Type} (runtime wkv : List T) (layer batchSize laneElems : Nat) :
    Option (List T) :=
  (List.range batchSize).foldlM
    (fun wkv batch =>
      memcpy wkv ((layer * batchSize + batch) * laneElems : Nat) runtime 0 laneElems)
    wkv

/-- What `load_state_from_pth` reads of a backend. -/
structure StateBackend where
  dims : Dims
  useWkv32 : Bool
  maxEntries : Nat
  fingerprintFile : Bytes → Bytes

/-- The state that is being filled, and which of its layers are. -/
structure Loading (α : Type) where
  state : FlatState α UInt16 UInt32
  loaded : List Bool
deriving DecidableEq

variable {α : Type} (m : StateBackend)

/-- The result of a copy. -/
def copied {T : Type} (record : TensorRecord) (wkv : Option (List T)) : Io (List T) :=
  match wkv with
  | some wkv => pure wkv
  | none => error "failed to copy state tensor " record.name

/-- The copies of a layer into the state. -/
def fillLayer (record : TensorRecord) (values : TensorData) (layer : Nat)
    (state : FlatState α UInt16 UInt32) : Io (FlatState α UInt16 UInt32) :=
  if m.useWkv32 then do
    let runtime ← transposeTimeStateForRuntime 0 values.values m.dims.heads m.dims.headSize
    let wkv ← copied record
      (copyLanes runtime state.wkvState32 layer state.batchSize m.dims.wkvLaneElems)
    pure { state with wkvState32 := wkv }
  else do
    let runtime ← transposeTimeStateForRuntime 0 values.valuesF16 m.dims.heads m.dims.headSize
    let wkv ← copied record
      (copyLanes runtime state.wkvState layer state.batchSize m.dims.wkvLaneElems)
    pure { state with wkvState := wkv }

/-- A pass of the loop of `load_state_from_pth` over a time-state tensor. -/
def loadRecord (archive : PthArchive) (l : Loading α) (record : TensorRecord) :
    Io (Loading α) := do
  let text := layerText record.name
  let number := strtol text
  errorIf (number.2 = 0 ∨ text.getD number.2 0 ≠ 0 ∨ number.1 < 0 ∨
      (m.dims.layers : Int) ≤ number.1)
    "invalid state tensor name: " record.name
  let layer := number.1.toNat
  errorIf (stateDtype record.dtype = false ∨
      record.shape ≠ [(m.dims.heads : Int), m.dims.headSize, m.dims.headSize])
    "invalid shape or dtype for state tensor: " record.name
  errorIf (l.loaded.getD layer false = true) "duplicate state tensor: " record.name
  let values ← context "failed to load state tensor "
    (loadTensorSelect archive record false (!m.useWkv32) m.useWkv32)
  let state ← fillLayer m record values layer l.state
  pure { state := state, loaded := l.loaded.set layer true }

/-- The loop of `load_state_from_pth`. -/
def loadRecords (archive : PthArchive) (l : Loading α) : List TensorRecord → Io (Loading α)
  | [] => pure l
  | record :: records =>
      if isTimeStateTensor record.name then do
        let l ← loadRecord m archive l record
        loadRecords archive l records
      else loadRecords archive l records

/-- The check that every layer was found. -/
def checkLoaded (loaded : List Bool) : List Nat → Io PUnit
  | [] => pure ⟨⟩
  | layer :: layers => do
      errorIf (loaded.getD layer false = false)
        ("state PTH is missing blocks." ++ toString layer ++ ".att.time_state") []
      checkLoaded loaded layers

/-- `load_state_from_pth`. -/
def loadStateFromPth (file : Bytes) (batchSize : Int) : Io (FlatState α UInt16 UInt32) := do
  errorIf (batchSize ≤ 0) "batch_size must be positive" []
  let state : FlatState α UInt16 UInt32 := createState m.dims m.useWkv32 0 0 batchSize.toNat
  let state := { state with
    identity := { state.identity with initialStateIdentity := m.fingerprintFile file } }
  let archive ← context "failed to open state PTH: " (openWhole m.maxEntries file)
  let records ← context "failed to parse state PTH: " (parsePthTensorRecords archive)
  let l ← loadRecords m archive
    { state := state, loaded := List.replicate m.dims.layers false } records
  checkLoaded l.loaded (List.range m.dims.layers)
  pure l.state

end Loading

end StatePth
end RwkvLightning

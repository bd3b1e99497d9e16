import RwkvLightning.Io.PthPickle

/-!
# The tensors of a PTH file

The functions of `pth_tensor.cpp` that find the storage of a tensor in the archive and
read its elements.

**Numbers.**  A `float` is its 32 bits.  `mul`, `mulInt` and `moved` are the arithmetic on
sizes, strides and indices: they take note of an overflow and go on with what is left of
the number in 64 bits, also where the source leaves a signed overflow open.

**Failures.**  An element outside its storage ends the run as undefined.  A `reserve`
beyond the size of a vector throws.

`compute_tensor_stats` is here for what it checks and reads; its minimum and maximum are
left out.
-/

namespace RwkvLightning
namespace Pth

/-- `dtype_size_bytes`. -/
def dtypeSizeBytes : TensorDType → Nat
  | .float16 => 2
  | .bFloat16 => 2
  | .float32 => 4

section Conversions

/-- `bf16_bits_to_float`. -/
def bf16BitsToFloat (bits : UInt16) : UInt32 :=
  bits.toUInt32 <<< 16

/-- The loop that shifts a mantissa up to its leading bit; ten passes are enough. -/
def shiftMantissa : Nat → UInt32 → UInt32 → UInt32 × UInt32
  | 0, m, e => (m, e)
  | fuel + 1, m, e =>
      if m &&& 0x0400 = 0 then shiftMantissa fuel (m <<< 1) (e - 1) else (m, e)

/-- `f16_bits_to_float`. -/
def f16BitsToFloat (bits : UInt16) : UInt32 :=
  let sign := (bits &&& 0x8000).toUInt32 <<< 16
  let exp := (bits >>> 10).toUInt32 &&& 0x1f
  let mant := (bits &&& 0x03ff).toUInt32
  if exp = 0 then
    if mant = 0 then sign
    else
      let (m, e) := shiftMantissa 10 mant 113
      sign ||| e <<< 23 ||| (m &&& 0x03ff) <<< 13
  else if exp = 0x1f then sign ||| (0x7f800000 : UInt32) ||| mant <<< 13
  else sign ||| (exp + 112) <<< 23 ||| mant <<< 13

/-- `float_to_bf16_bits`. -/
def floatToBf16Bits (value : UInt32) : UInt16 :=
  let lsb := value >>> 16 &&& 1
  ((value + (0x7fff + lsb)) >>> 16).toUInt16

/-- `float_to_f16_bits`. -/
def floatToF16Bits (value : UInt32) : UInt16 :=
  let sign := value >>> 16 &&& 0x8000
  let exp : Int := ((value >>> 23 &&& 0xff).toNat : Int) - 127
  let mant := value &&& 0x7fffff
  if exp = 128 then (sign ||| if mant = 0 then 0x7c00 else 0x7e00).toUInt16
  else if 15 < exp then (sign ||| 0x7c00).toUInt16
  else if -14 ≤ exp then
    let halfExp := UInt32.ofNat (exp + 15).toNat
    let halfMant := mant + 0x1000
    if halfMant &&& 0x800000 ≠ 0 then
      -- the mantissa has been rounded up to the next power of two
      if 31 ≤ halfExp + 1 then (sign ||| 0x7c00).toUInt16
      else (sign ||| (halfExp + 1) <<< 10).toUInt16
    else (sign ||| halfExp <<< 10 ||| halfMant >>> 13).toUInt16
  else if exp < -24 then sign.toUInt16
  else
    let mant := mant ||| 0x800000
    let shift := UInt32.ofNat (-exp - 14).toNat
    let roundBit := mant >>> (shift + 12) &&& 1
    (sign ||| (mant >>> (shift + 13) + roundBit)).toUInt16

end Conversions

section Arithmetic

/-- Whether a number has 64 bits and a sign. -/
def FitsInt (i : Int) : Prop :=
  -2 ^ 63 ≤ i ∧ i < 2 ^ 63

instance : DecidablePred FitsInt :=
  fun i => inferInstanceAs (Decidable (-2 ^ 63 ≤ i ∧ i < 2 ^ 63))

/-- A product of sizes. -/
def mul (a b : Nat) : Io Nat :=
  Checked.noteIf (word ≤ a * b) (a * b % word)

/-- A product of signed numbers. -/
def mulInt (a b : Int) : Io Int :=
  Checked.noteIf (¬FitsInt (a * b)) (Int.bmod (a * b) (2 ^ 64))

/-- An index, and a distance that is cast to it. -/
def moved (index : Nat) (distance : Int) : Io Nat :=
  Checked.noteIf (index + distance < 0 ∨ word ≤ index + distance)
    ((index + Pickle.toU64 distance) % word)

end Arithmetic

section Shapes

/-- The loop of `numel`. -/
def numelLoop (n : Nat) : List Int → Io Nat
  | [] => pure n
  | dim :: shape =>
      if dim < 0 then pure 0
      else do
        let n ← mul n dim.toNat
        numelLoop n shape

/-- `numel`. -/
def numel (shape : List Int) : Io Nat :=
  numelLoop 1 shape

/-- The loop of `is_contiguous`, from the last dimension to the first. -/
def isContiguousLoop : List (Int × Int) → Int → Io Bool
  | [], _ => pure true
  | (size, stride) :: dims, expected =>
      if size = 0 then pure true
      else if size ≠ 1 ∧ stride ≠ expected then pure false
      else do
        let expected ← mulInt expected size
        isContiguousLoop dims expected

/-- `is_contiguous`. -/
def isContiguous (shape stride : List Int) : Io Bool :=
  if shape.length ≠ stride.length then pure false
  else isContiguousLoop (shape.zip stride).reverse 1

end Shapes

section Elements

/-- `load_scalar` of a type of `size` bytes. -/
def loadScalar (storage : Bytes) (off size : Nat) : Io Nat :=
  if storage.length < off + size then Checked.fail .outOfBounds
  else pure (LittleEndian.field storage off size)

/-- `read_element_as_float`. -/
def readElementAsFloat (storage : Bytes) (dtype : TensorDType) (elementIndex : Nat) :
    Io UInt32 := do
  let off ← mul elementIndex (dtypeSizeBytes dtype)
  match dtype with
  | .bFloat16 => do
      let bits ← loadScalar storage off 2
      pure (bf16BitsToFloat (UInt16.ofNat bits))
  | .float16 => do
      let bits ← loadScalar storage off 2
      pure (f16BitsToFloat (UInt16.ofNat bits))
  | .float32 => do
      let bits ← loadScalar storage off 4
      pure (UInt32.ofNat bits)

/-- `read_element_as_bf16`. -/
def readElementAsBf16 (storage : Bytes) (dtype : TensorDType) (elementIndex : Nat) :
    Io UInt16 :=
  if dtype = .bFloat16 then do
    let off ← mul elementIndex 2
    let bits ← loadScalar storage off 2
    pure (UInt16.ofNat bits)
  else do
    let value ← readElementAsFloat storage dtype elementIndex
    pure (floatToBf16Bits value)

variable {β : Type}

/-- A loop that appends one element a pass. -/
def readAll (read : Nat → Io β) : List Nat → Io (List β)
  | [] => pure []
  | i :: is => do
      let value ← read i
      let values ← readAll read is
      pure (value :: values)

/-- A loop that appends what each pass appends. -/
def collect (pass : Nat → Io (List β)) : List Nat → Io (List β)
  | [] => pure []
  | i :: is => do
      let first ← pass i
      let rest ← collect pass is
      pure (first ++ rest)

/-- The recursion over the dimensions, each a size and a stride. -/
def loadStrided (read : Nat → Io β) : List (Int × Int) → Nat → Io (List β)
  | [], offset => do
      let value ← read offset
      pure [value]
  | (size, stride) :: dims, offset =>
      collect
        (fun i => do
          let distance ← mulInt i stride
          let offset ← moved offset distance
          loadStrided read dims offset)
        (List.range size.toNat)

/-- `load_strided_float`. -/
def loadStridedFloat (storage : Bytes) (dtype : TensorDType) :
    List (Int × Int) → Nat → Io (List UInt32) :=
  loadStrided (readElementAsFloat storage dtype)

/-- `load_strided_bf16`. -/
def loadStridedBf16 (storage : Bytes) (dtype : TensorDType) :
    List (Int × Int) → Nat → Io (List UInt16) :=
  loadStrided (readElementAsBf16 storage dtype)

/-- `scan_strided`, which reads what `load_strided_float` reads. -/
def scanStrided (storage : Bytes) (dtype : TensorDType) (dims : List (Int × Int))
    (offset : Nat) : Io PUnit := do
  let _values ← loadStrided (readElementAsFloat storage dtype) dims offset
  pure ⟨⟩

/-- `reserve` of a vector whose elements have `size` bytes. -/
def reserveElements (size n : Nat) : Io PUnit :=
  if (2 ^ 63 - 1) / size < n then Checked.fail .lengthError else pure ⟨⟩

end Elements

section Tensors

variable (archive : PthArchive)

/-- `archive_prefix`. -/
def archivePrefix : Bytes :=
  match archive.entries.find? (fun entry => (ascii "/data.pkl").isSuffixOf entry.name) with
  | some entry => entry.name.take (entry.name.length - (ascii "/data.pkl").length)
  | none => []

/-- `parse_pth_tensor_records`. -/
def parsePthTensorRecords : Io (List TensorRecord) := do
  let root := archivePrefix archive
  errorIf (root = []) "data.pkl entry not found" []
  match archive.findEntry (root ++ ascii "/data.pkl") with
  | none => error "data.pkl entry not found" []
  | some data => do
      let bytes ← archive.readStoredEntry data
      Pickle.parse bytes

variable (record : TensorRecord)

/-- The statements that `compute_tensor_stats` and `load_tensor_select` start with. -/
def tensorStorage : Io Bytes := do
  let root := archivePrefix archive
  errorIf (root = []) "archive prefix not found" []
  match archive.findEntry (root ++ ascii "/data/" ++ record.storageKey) with
  | none => error "storage entry not found for tensor: " record.name
  | some entry => do
      let storage ← archive.readStoredEntry entry
      let size ← mul record.storageSize (dtypeSizeBytes record.dtype)
      errorIf (size ≠ storage.length)
        "storage byte size mismatch for tensor: " record.name
      pure storage

/-- The check of a contiguous tensor. -/
def checkContiguous (n : Nat) : Io PUnit := do
  let last ← add record.storageOffset n
  errorIf (record.storageSize < last) "tensor data range exceeds storage: " record.name

/-- The loop over the elements of a contiguous tensor. -/
def readContiguous {β : Type} (read : Nat → Io β) (n : Nat) : Io (List β) :=
  readAll
    (fun i => do
      let element ← add record.storageOffset i
      read element)
    (List.range n)

/-- `compute_tensor_stats`. -/
def computeTensorStats : Io PUnit := do
  let storage ← tensorStorage archive record
  let n ← numel record.shape
  if n = 0 then pure ⟨⟩
  else do
    let contiguous ← isContiguous record.shape record.stride
    if contiguous then do
      checkContiguous record n
      let _values ← readContiguous record (readElementAsFloat storage record.dtype) n
      pure ⟨⟩
    else
      scanStrided storage record.dtype (record.shape.zip record.stride) record.storageOffset

/-- `TensorData`, less the vectors that no function here fills. -/
structure TensorData where
  name : Bytes
  shape : List Int
  valuesBf16 : List UInt16
  valuesF16 : List UInt16
  values : List UInt32
deriving DecidableEq, Repr

/-- The vectors of a contiguous tensor; one loop of the source fills all of them. -/
def loadContiguous (storage : Bytes) (n : Nat) (needBf16 needF16 needFloat : Bool) :
    Io TensorData := do
  checkContiguous record n
  let bf16 ← if needBf16 then readContiguous record (readElementAsBf16 storage record.dtype) n
    else pure []
  let values ← readContiguous record (readElementAsFloat storage record.dtype) n
  pure
    { name := record.name
      shape := record.shape
      valuesBf16 := bf16
      valuesF16 := if needF16 then values.map floatToF16Bits else []
      values := if needFloat then values else [] }

/-- The vectors of any other tensor. -/
def loadScattered (storage : Bytes) (n : Nat) (needBf16 needF16 needFloat : Bool) :
    Io TensorData := do
  let dims := record.shape.zip record.stride
  let bf16 ← if needBf16 then loadStridedBf16 storage record.dtype dims record.storageOffset
    else pure []
  let values ← if needFloat then
      loadStridedFloat storage record.dtype dims record.storageOffset
    else pure []
  let src ← if needF16 ∧ !needFloat then do
      reserveElements 4 n
      loadStridedFloat storage record.dtype dims record.storageOffset
    else pure values
  pure
    { name := record.name
      shape := record.shape
      valuesBf16 := bf16
      valuesF16 := if needF16 then src.map floatToF16Bits else []
      values := values }

/-- `load_tensor_select`. -/
def loadTensorSelect (needBf16 needF16 needFloat : Bool) : Io TensorData := do
  let storage ← tensorStorage archive record
  let n ← numel record.shape
  if needBf16 then reserveElements 2 n else pure ⟨⟩
  if needF16 then reserveElements 2 n else pure ⟨⟩
  if needFloat then reserveElements 4 n else pure ⟨⟩
  let contiguous ← isContiguous record.shape record.stride
  if contiguous then loadContiguous record storage n needBf16 needF16 needFloat
  else loadScattered record storage n needBf16 needF16 needFloat

end Tensors

end Pth
end RwkvLightning

import RwkvLightning.Library.Cursor

/-!
# Quantized archives

`QuantizedArchive` and `QuantizedWriter` of `rwkv_quantized.cpp`.

**Numbers.**  The header fields are unsigned; a dimension is an `Int64`, and `u64` is its
cast to `std::uint64_t`.  A product of 64-bit numbers is taken modulo `word`.

**Files.**  A file that is there has fewer than `2 ^ 63` bytes, since a `std::streamoff`
holds its size.  An output takes up to `capacity` bytes, and a write beyond them fails for
good.  `std::bad_alloc` is left out.
-/

namespace RwkvLightning
namespace Quantized

open LittleEndian Cursor

abbrev Bytes := List UInt8

/-- `Status::error`: the text, and the name or the path at its end. -/
structure Failure where
  message : String
  subject : Bytes
deriving DecidableEq, Repr

/-- The size of `std::uint64_t`. -/
def word : Nat := 2 ^ 64

/-- `std::numeric_limits<std::uint64_t>::max()`. -/
def maxWord : Nat := word - 1

/-- `static_cast<std::uint64_t>` of a dimension. -/
def u64 (dim : Int64) : Nat := dim.toUInt64.toNat

/-- The dimension with these bits. -/
def dimOf (bits : Nat) : Int64 := (UInt64.ofNat bits).toInt64

section Constants

def kMagic : Bytes := [0x52, 0x57, 0x4B, 0x56, 0x51, 0, 1, 0]

def kVersion : Nat := 1

end Constants

/-- `QuantizedDType`. -/
inductive QuantizedDType where
  | bFloat16
  | float16
  | int8
  | int4
deriving DecidableEq, Repr

namespace QuantizedDType

def code : QuantizedDType → Nat
  | bFloat16 => 0
  | float16 => 1
  | int8 => 2
  | int4 => 3

/-- `valid_dtype` and the cast after it. -/
def ofCode : Nat → Option QuantizedDType
  | 0 => some bFloat16
  | 1 => some float16
  | 2 => some int8
  | 3 => some int4
  | _ => none

end QuantizedDType

/-- `is_integer_quantized`. -/
def isIntegerQuantized (dtype : QuantizedDType) : Bool :=
  dtype = .int8 || dtype = .int4

/-- The loop of `checked_numel`. -/
def checkedNumelLoop : List Int64 → Nat → Nat
  | [], result => result
  | dim :: dims, result =>
      if dim < 0 ∨ (dim ≠ 0 ∧ maxWord / u64 dim < result) then 0
      else checkedNumelLoop dims (result * u64 dim % word)

/-- `checked_numel`. -/
def checkedNumel (shape : List Int64) : Nat :=
  checkedNumelLoop shape 1

/-- The bytes of a row of packed 4-bit numbers. -/
def rowBytes (cols : Nat) : Nat := cols / 2 + cols % 2

/-- The groups of a row. -/
def groupsOf (cols group : Nat) : Nat := cols / group + if cols % group ≠ 0 then 1 else 0

/-- The test before a product of two 64-bit numbers. -/
def overflows (rows factor : Nat) : Prop := factor ≠ 0 ∧ maxWord / factor < rows

instance (rows factor : Nat) : Decidable (overflows rows factor) :=
  inferInstanceAs (Decidable (_ ∧ _))

/-- The rows and the columns of a shape. -/
def rowsOf (shape : List Int64) : Nat := u64 (shape.getD 0 0)

def colsOf (shape : List Int64) : Nat := u64 (shape.getD 1 0)

/-- `QuantizedTensorRecord`. -/
structure QuantizedTensorRecord where
  name : Bytes
  dtype : QuantizedDType
  shape : List Int64
  numel : Nat
  dataOffset : Nat
  scaleOffset : Nat
  scaleCount : Nat
  quantGroupSize : UInt16
deriving DecidableEq, Repr

/-- `data_bytes`. -/
def dataBytes (dtype : QuantizedDType) (shape : List Int64) (numel : Nat) : Nat :=
  if dtype = .int8 then numel
  else if dtype = .int4 ∧ shape.length = 2 then
    if overflows (rowsOf shape) (rowBytes (colsOf shape)) then maxWord
    else rowsOf shape * rowBytes (colsOf shape) % word
  else numel * 2 % word

/-- `data_bytes` of a record. -/
def QuantizedTensorRecord.dataBytes (record : QuantizedTensorRecord) : Nat :=
  Quantized.dataBytes record.dtype record.shape record.numel

/-- `QuantizedArchive`. -/
structure QuantizedArchive where
  path : Bytes
  fileSize : Nat
  records : List QuantizedTensorRecord
deriving DecidableEq, Repr

section Reading

variable (file : Bytes)

/-- The fields before the name of a tensor. -/
structure TensorHeader where
  nameLen : Nat
  dtype : Nat
  rank : Nat
  reserved : Nat
  numel : Nat
deriving DecidableEq, Repr

def readHeader : Reader Failure TensorHeader := do
  let nameLen ← number file 4 ⟨"truncated quantized tensor header", []⟩
  let dtype ← number file 1 ⟨"truncated quantized tensor header", []⟩
  let rank ← number file 1 ⟨"truncated quantized tensor header", []⟩
  let reserved ← number file 2 ⟨"truncated quantized tensor header", []⟩
  let numel ← number file 8 ⟨"truncated quantized tensor header", []⟩
  pure { nameLen := nameLen, dtype := dtype, rank := rank, reserved := reserved,
         numel := numel }

/-- The test of the fields, and the data type. -/
def checkMetadata (header : TensorHeader) : Reader Failure QuantizedDType :=
  match QuantizedDType.ofCode header.dtype with
  | none => fun _ => .error ⟨"invalid quantized tensor metadata", []⟩
  | some dtype => do
      failIf (16 < header.rank ∨ header.nameLen = 0 ∨ 2 ^ 20 < header.nameLen ∨
          (QuantizedDType.int8.code ≤ dtype.code ∧ header.rank = 0))
        ⟨"invalid quantized tensor metadata", []⟩
      pure dtype

/-- The loop over the dimensions. -/
def readShape (name : Bytes) : Nat → Reader Failure (List Int64)
  | 0 => pure []
  | rank + 1 => do
      let bits ← number file 8 ⟨"invalid quantized tensor shape: ", name⟩
      failIf (dimOf bits < 0) ⟨"invalid quantized tensor shape: ", name⟩
      let dims ← readShape name rank
      pure (dimOf bits :: dims)

/-- The position of the data, which is skipped. -/
def skipData (name : Bytes) (bytes : Nat) : Reader Failure Nat := do
  let dataOffset ← position
  failIf (file.length - min file.length dataOffset < bytes ∨ file.length < dataOffset)
    ⟨"quantized tensor data is out of bounds: ", name⟩
  skip bytes
  pure dataOffset

/-- The number of scales that the type and the shape ask for. -/
def expectedScales (name : Bytes) (dtype : QuantizedDType) (shape : List Int64)
    (group : UInt16) : Reader Failure Nat :=
  if dtype = .int4 then do
    failIf (shape.length ≠ 2 ∨ (group ≠ 32 ∧ group ≠ 128)) ⟨"invalid INT4 metadata: ", name⟩
    let groups := groupsOf (colsOf shape) group.toNat
    failIf (overflows (rowsOf shape) groups) ⟨"INT4 scale count overflow: ", name⟩
    pure (rowsOf shape * groups % word)
  else pure (rowsOf shape)

/-- The position and the number of the scales, which are skipped. -/
def skipScales (name : Bytes) (dtype : QuantizedDType) (shape : List Int64)
    (group : UInt16) : Reader Failure (Nat × Nat) := do
  let expected ← expectedScales name dtype shape group
  let scaleCount ← number file 8 ⟨"invalid quantized scale count: ", name⟩
  failIf (scaleCount ≠ expected) ⟨"invalid quantized scale count: ", name⟩
  failIf (maxWord / 2 < scaleCount) ⟨"quantized scale tensor is too large: ", name⟩
  let scaleOffset ← position
  let scaleBytes := scaleCount * 2 % word
  failIf (file.length < scaleOffset ∨ file.length - scaleOffset < scaleBytes)
    ⟨"quantized scale data is out of bounds: ", name⟩
  skip scaleBytes
  pure (scaleOffset, scaleCount)

/-- The scales of a tensor, if its type has them. -/
def skipScalePart (name : Bytes) (dtype : QuantizedDType) (shape : List Int64)
    (group : UInt16) : Reader Failure (Nat × Nat) :=
  if isIntegerQuantized dtype then skipScales file name dtype shape group else pure (0, 0)

/-- A pass of the loop of `QuantizedArchive::open`. -/
def readRecord (names : List Bytes) : Reader Failure QuantizedTensorRecord := do
  let header ← readHeader file
  let dtype ← checkMetadata header
  let name ← text file header.nameLen ⟨"truncated quantized tensor name", []⟩
  let group := if dtype = .int4 then UInt16.ofNat header.reserved else 0
  failIf (name ∈ names) ⟨"duplicate quantized tensor: ", name⟩
  let shape ← readShape file name header.rank
  failIf (checkedNumel shape ≠ header.numel)
    ⟨"quantized tensor element count mismatch: ", name⟩
  failIf (isIntegerQuantized dtype = false ∧ maxWord / 2 < header.numel)
    ⟨"quantized tensor is too large: ", name⟩
  let dataOffset ← skipData file name (dataBytes dtype shape header.numel)
  let scales ← skipScalePart file name dtype shape group
  pure { name := name, dtype := dtype, shape := shape, numel := header.numel,
         dataOffset := dataOffset, scaleOffset := scales.1, scaleCount := scales.2,
         quantGroupSize := group }

/-- The loop of `QuantizedArchive::open`, with the names of the tensors before. -/
def readRecords : Nat → List Bytes → Reader Failure (List QuantizedTensorRecord)
  | 0, _ => pure []
  | count + 1, names => do
      let record ← readRecord file names
      let records ← readRecords count (record.name :: names)
      pure (record :: records)

/-- The header of the file and the records after it. -/
def readArchive (path : Bytes) : Reader Failure QuantizedArchive := do
  let magic ← text file 8 ⟨"truncated quantized model header", []⟩
  let version ← number file 4 ⟨"truncated quantized model header", []⟩
  let count ← number file 4 ⟨"truncated quantized model header", []⟩
  failIf (magic ≠ kMagic ∨ version ≠ kVersion) ⟨"unsupported quantized model format", []⟩
  let records ← readRecords file count []
  pure { path := path, fileSize := file.length, records := records }

end Reading

/-- `is_quantized_archive`. -/
def isQuantizedArchive : Option Bytes → Bool
  | none => false
  | some file => decide (8 ≤ file.length) && decide (slice file 0 8 = kMagic)

/-- `QuantizedArchive::open`; the file is `none` where it cannot be opened. -/
def openArchive (path : Bytes) : Option Bytes → Except Failure QuantizedArchive
  | none => .error ⟨"failed to open quantized model: ", path⟩
  | some file =>
      if 2 ^ 63 ≤ file.length then
        .error ⟨"failed to determine quantized model size: ", path⟩
      else (readArchive file path 0).map Prod.fst

namespace QuantizedArchive

/-- `QuantizedArchive::find`. -/
def find (archive : QuantizedArchive) (name : Bytes) : Option QuantizedTensorRecord :=
  archive.records.find? fun record => record.name = name

/-- `QuantizedArchive::read_data`. -/
def readData (archive : QuantizedArchive) (file : Option Bytes)
    (record : QuantizedTensorRecord) : Except Failure Bytes :=
  if archive.fileSize < record.dataOffset ∨
      archive.fileSize - record.dataOffset < record.dataBytes then
    .error ⟨"quantized tensor data range is invalid: ", record.name⟩
  else
    match file with
    | none => .error ⟨"failed to open quantized model: ", archive.path⟩
    | some file =>
        if record.dataBytes = 0 then .ok []
        else
          (text file record.dataBytes ⟨"failed to read quantized tensor: ", record.name⟩
            record.dataOffset).map Prod.fst

/-- `QuantizedArchive::read_scales`. -/
def readScales (archive : QuantizedArchive) (file : Option Bytes)
    (record : QuantizedTensorRecord) : Except Failure (List UInt16) :=
  let scaleBytes := record.scaleCount * 2 % word
  if isIntegerQuantized record.dtype = false ∨ archive.fileSize < record.scaleOffset ∨
      archive.fileSize - record.scaleOffset < scaleBytes then
    .error ⟨"quantized scale range is invalid: ", record.name⟩
  else
    match file with
    | none => .error ⟨"failed to open quantized model: ", archive.path⟩
    | some file =>
        if file.length < record.scaleOffset + record.scaleCount * 2 ∧
            record.scaleCount ≠ 0 then
          .error ⟨"failed to read quantized scales: ", record.name⟩
        else .ok ((numbers file record.scaleOffset 2 record.scaleCount).map UInt16.ofNat)

end QuantizedArchive

section Writing

/-- The space for the output. -/
structure Disk where
  capacity : Nat
  capacity_lt : capacity < 2 ^ 63

/-- A `std::ofstream`. -/
structure OutFile where
  bytes : Bytes
  good : Bool
deriving DecidableEq, Repr

def OutFile.write (disk : Disk) (file : OutFile) (part : Bytes) : OutFile :=
  if file.good = true ∧ file.bytes.length + part.length ≤ disk.capacity then
    { file with bytes := file.bytes ++ part }
  else { file with good := false }

/-- Writes one after another. -/
def OutFile.writeAll (disk : Disk) (file : OutFile) (parts : List Bytes) : OutFile :=
  parts.foldl (OutFile.write disk) file

/-- `QuantizedWriter`. -/
structure QuantizedWriter where
  file : OutFile
  expectedCount : UInt32
  count : Nat
  closed : Bool
deriving DecidableEq, Repr

/-- The arguments of `QuantizedWriter::append`. -/
structure Tensor where
  name : Bytes
  dtype : QuantizedDType
  shape : List Int64
  data : Bytes
  scales : List UInt16
  quantGroupSize : UInt16
deriving DecidableEq, Repr

namespace QuantizedWriter

variable (disk : Disk)

/-- The constructor; `opened` says whether the output could be opened. -/
def new (opened : Bool) (tensorCount : UInt32) : QuantizedWriter where
  file :=
    let file : OutFile := { bytes := [], good := opened }
    if opened then
      file.writeAll disk [kMagic, encode 4 kVersion, encode 4 tensorCount.toNat]
    else file
  expectedCount := tensorCount
  count := 0
  closed := false

/-- The test of the arguments of `append`. -/
def invalid (writer : QuantizedWriter) (tensor : Tensor) : Prop :=
  let logicalNumel := checkedNumel tensor.shape
  let int4 := tensor.dtype = .int4
  let rows := if tensor.shape = [] then 0 else rowsOf tensor.shape
  let cols := if tensor.shape.length = 2 then colsOf tensor.shape else 0
  let int4DataBytes := if overflows rows (rowBytes cols) then 0 else rows * rowBytes cols % word
  let groups :=
    if int4 ∧ tensor.quantGroupSize ≠ 0 then groupsOf cols tensor.quantGroupSize.toNat else 0
  let expectedScales := if int4 then rows * groups % word else rows
  writer.closed = true ∨ writer.expectedCount.toNat ≤ writer.count ∨ tensor.name = [] ∨
    2 ^ 32 - 1 < tensor.name.length ∨ QuantizedDType.int4.code < tensor.dtype.code ∨
    ¬(∀ dim ∈ tensor.shape, 0 ≤ dim) ∨
    (isIntegerQuantized tensor.dtype = true ∧ tensor.shape = []) ∨ 16 < tensor.shape.length ∨
    (int4 ∧ (tensor.shape.length ≠ 2 ∨
      (tensor.quantGroupSize ≠ 32 ∧ tensor.quantGroupSize ≠ 128) ∨
      overflows rows (rowBytes cols) ∨ overflows rows groups)) ∨
    (¬int4 ∧ tensor.quantGroupSize ≠ 0) ∨
    tensor.data.length ≠
      (if int4 then int4DataBytes
        else if tensor.dtype = .int8 then logicalNumel else logicalNumel * 2 % word) ∨
    (isIntegerQuantized tensor.dtype = true ∧ tensor.scales.length ≠ expectedScales) ∨
    (isIntegerQuantized tensor.dtype = false ∧ tensor.scales ≠ [])

instance (writer : QuantizedWriter) (tensor : Tensor) : Decidable (writer.invalid tensor) := by
  -- the sizes one by one, not all numbers of 64 bits
  haveI : Decidable (∀ dim ∈ tensor.shape, 0 ≤ dim) := List.decidableBAll _ _
  unfold invalid
  infer_instance

/-- What `append` writes, write for write. -/
def parts (tensor : Tensor) : List Bytes :=
  [encode 4 tensor.name.length, encode 1 tensor.dtype.code, encode 1 tensor.shape.length,
      encode 2 (if tensor.dtype = .int4 then tensor.quantGroupSize else 0).toNat,
      encode 8 (checkedNumel tensor.shape), tensor.name] ++
    tensor.shape.map (fun dim => encode 8 (u64 dim)) ++
    (if tensor.data = [] then [] else [tensor.data]) ++
    if isIntegerQuantized tensor.dtype then
      [encode 8 tensor.scales.length, tensor.scales.flatMap fun scale => encode 2 scale.toNat]
    else []

/-- `QuantizedWriter::append`: the status, `none` for `Status::ok()`, and the writer. -/
def append (writer : QuantizedWriter) (tensor : Tensor) : Option Failure × QuantizedWriter :=
  if writer.file.good = false then (some ⟨"failed to open quantized output", []⟩, writer)
  else if writer.invalid tensor then
    (some ⟨"invalid quantized tensor for output: ", tensor.name⟩, writer)
  else
    let file := writer.file.writeAll disk (parts tensor)
    if file.good = false then
      (some ⟨"failed to write quantized tensor: ", tensor.name⟩, { writer with file := file })
    else (none, { writer with file := file, count := writer.count + 1 })

/-- `QuantizedWriter::close`. -/
def close (writer : QuantizedWriter) : Option Failure × QuantizedWriter :=
  if writer.closed then (none, writer)
  else
    let writer := { writer with closed := true }
    if writer.file.good = false then
      (some ⟨"quantized output is not writable", []⟩, writer)
    else if writer.count ≠ writer.expectedCount.toNat then
      (some ⟨"quantized output tensor count mismatch", []⟩, writer)
    else (none, writer)

end QuantizedWriter

end Writing

end Quantized
end RwkvLightning

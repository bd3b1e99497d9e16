import RwkvLightning.Io.PthTensor

/-!
# The writer of PTH files

`write_pth` of `pth_writer.cpp`: a stored ZIP archive with the data of each tensor, the
pickle program that rebuilds the tensors, and a few texts.

**Numbers.**  `u16` and `u32` keep the low bytes of a number, as the casts do.

**Disk.**  `Disk` says which calls of the file system succeed.  What was written is read
back as it is.

**Not modelled.**  `pickle_tuple3`, which nothing calls.
-/

namespace RwkvLightning
namespace Pth
namespace Writer

open LittleEndian (encode)

/-- `WriteTensor`. -/
structure WriteTensor where
  name : Bytes
  shape : List Int
  fp16 : Bool
  data : Bytes
  bf16 : Bool
deriving DecidableEq, Repr

/-- `Entry`. -/
structure Entry where
  name : Bytes
  data : Bytes
  crc : Nat
  offset : Nat
deriving DecidableEq, Repr

section Numbers

/-- `u16`. -/
def u16 (value : Nat) : Bytes := encode 2 value

/-- `u32`. -/
def u32 (value : Nat) : Bytes := encode 4 value

/-- `std::to_string` of an index. -/
def decimal (i : Nat) : Bytes := ascii (toString i)

/-- A pass of the loop over the bits in `crc32`. -/
def crcBit (crc : UInt32) : UInt32 :=
  (crc >>> 1) ^^^ (0xedb88320 &&& (0 - (crc &&& 1)))

/-- A pass of the loop over the bytes. -/
def crcByte (crc : UInt32) (byte : UInt8) : UInt32 :=
  crcBit^[8] (crc ^^^ byte.toUInt32)

/-- `crc32`. -/
def crc32 (data : Bytes) : UInt32 :=
  ~~~data.foldl crcByte 0xffffffff

end Numbers

section Pickle

/-- `pickle_string`. -/
def pickleString (value : Bytes) : Bytes :=
  0x58 :: (u32 value.length ++ value)

/-- `pickle_int`. -/
def pickleInt (value : Int) : Bytes :=
  if 0 ≤ value ∧ value ≤ 255 then [0x4B, UInt8.ofNat value.toNat]
  else if 0 ≤ value ∧ value ≤ 65535 then 0x4D :: u16 value.toNat
  else 0x4A :: u32 (value % 2 ^ 32).toNat

/-- `pickle_global`. -/
def pickleGlobal (module name : Bytes) : Bytes :=
  0x63 :: (module ++ 0x0A :: (name ++ [0x0A]))

/-- The loops over a shape and over strides, between the mark and the tuple opcode. -/
def pickleInts (values : List Int) : Bytes :=
  0x28 :: (values.flatMap pickleInt ++ [0x74])

/-- The loop over the dimensions from the last to the first: the strides, and the step that
is left. -/
def strides : List Int → List Int × Int
  | [] => ([], 1)
  | d :: shape =>
      let rest := strides shape
      (rest.2 :: rest.1, rest.2 * d)

/-- The loop that checks a shape and counts its elements. -/
def countElements : Nat → List Int → Except String Nat
  | n, [] => .ok n
  | n, d :: shape =>
      if d ≤ 0 ∨ (2 ^ 31 - 1) / d.toNat < n then .error "invalid PTH shape"
      else countElements (n * d.toNat) shape

/-- The name of the storage class. -/
def storageName (t : WriteTensor) : Bytes :=
  if t.bf16 then ascii "BFloat16Storage"
  else if t.fp16 then ascii "HalfStorage"
  else ascii "FloatStorage"

/-- The program of the tensor `i`, which has `n` elements. -/
def tensorProgram (i : Nat) (t : WriteTensor) (n : Nat) : Bytes :=
  pickleString t.name ++ pickleGlobal (ascii "torch._utils") (ascii "_rebuild_tensor_v2") ++
    [0x28, 0x28] ++ pickleString (ascii "storage") ++
    pickleGlobal (ascii "torch") (storageName t) ++ pickleString (decimal i) ++
    pickleString (ascii "cpu") ++ pickleInt n ++ [0x74, 0x51] ++ pickleInt 0 ++
    pickleInts t.shape ++ pickleInts (strides t.shape).1 ++ [0x89, 0x7D, 0x74, 0x52]

/-- The bytes of an element. -/
def elementSize (t : WriteTensor) : Nat :=
  if t.fp16 || t.bf16 then 2 else 4

/-- A pass of the loop over the tensors: a part of the program, and an entry. -/
def writeTensor (i : Nat) (t : WriteTensor) : Except String (Bytes × Entry) :=
  if t.fp16 && t.bf16 then .error "ambiguous PTH dtype"
  else
    match countElements 1 t.shape with
    | .error message => .error message
    | .ok n =>
        if t.data.length ≠ n * elementSize t then .error "PTH data size mismatch"
        else
          .ok (tensorProgram i t n,
            { name := ascii "archive/data/" ++ decimal i, data := t.data, crc := 0, offset := 0 })

/-- The loop over the tensors, from index `i` on. -/
def writeTensors : Nat → List WriteTensor → Except String (Bytes × List Entry)
  | _, [] => .ok ([], [])
  | i, t :: tensors =>
      match writeTensor i t with
      | .error message => .error message
      | .ok first =>
          match writeTensors (i + 1) tensors with
          | .error message => .error message
          | .ok rest => .ok (first.1 ++ rest.1, first.2 :: rest.2)

end Pickle

section Zip

/-- The local header of an entry, and its data. -/
def localRecord (entry : Entry) : Bytes :=
  u32 kLocalFileHeader ++ u16 20 ++ u16 0 ++ u16 0 ++ u16 0 ++ u16 0 ++ u32 entry.crc ++
    u32 entry.data.length ++ u32 entry.data.length ++ u16 entry.name.length ++ u16 0 ++
    entry.name ++ entry.data

/-- The header of an entry in the central directory. -/
def centralRecord (entry : Entry) : Bytes :=
  u32 kCentralDirectoryFileHeader ++ u16 20 ++ u16 20 ++ u16 0 ++ u16 0 ++ u16 0 ++ u16 0 ++
    u32 entry.crc ++ u32 entry.data.length ++ u32 entry.data.length ++
    u16 entry.name.length ++ u16 0 ++ u16 0 ++ u16 0 ++ u16 0 ++ u32 0 ++ u32 entry.offset ++
    entry.name

/-- The end record. -/
def endRecord (entryCount centralSize centralOffset : Nat) : Bytes :=
  u32 kEndOfCentralDirectory ++ u16 0 ++ u16 0 ++ u16 entryCount ++ u16 entryCount ++
    u32 centralSize ++ u32 centralOffset ++ u16 0

/-- The entry when `out` bytes are written. -/
def Entry.placedAt (entry : Entry) (out : Nat) : Entry :=
  { entry with crc := (crc32 entry.data).toNat, offset := out % 2 ^ 32 }

/-- The loop over the local records, behind `out`. -/
def writeLocals : Bytes → List Entry → Except String (Bytes × List Entry)
  | out, [] => .ok (out, [])
  | out, entry :: entries =>
      if 2 ^ 32 - 1 < entry.data.length ∨ 2 ^ 32 - 1 < out.length ∨
          65535 < entry.name.length then
        .error "checkpoint exceeds non-ZIP64 limits"
      else
        let entry := entry.placedAt out.length
        match writeLocals (out ++ localRecord entry) entries with
        | .error message => .error message
        | .ok rest => .ok (rest.1, entry :: rest.2)

/-- The bytes that `write_zip` writes. -/
def zipBytes (entries : List Entry) : Except String Bytes :=
  if 65535 < entries.length then .error "too many checkpoint entries"
  else
    match writeLocals [] entries with
    | .error message => .error message
    | .ok locals =>
        let centralOffset := locals.1.length % 2 ^ 32
        let out := locals.1 ++ locals.2.flatMap centralRecord
        let centralSize := (out.length % 2 ^ 32 + (2 ^ 32 - centralOffset)) % 2 ^ 32
        .ok (out ++ endRecord entries.length centralSize centralOffset)

/-- The calls of the file system that succeed. -/
structure Disk where
  create : Bool
  write : Bool
  rename : Bool
deriving DecidableEq, Repr

/-- `write_zip`: what stands in the file then. -/
def writeZip (disk : Disk) (path : String) (entries : List Entry) : Except String Bytes :=
  match zipBytes entries with
  | .error message => .error message
  | .ok file =>
      if !disk.create then .error ("failed to create " ++ path)
      else if !disk.write then .error ("failed to write " ++ path)
      else .ok file

end Zip

/-- The entries behind those of the tensors. -/
def otherEntries (program adapterManifest manifestEntry : Bytes) : List Entry :=
  [{ name := ascii "archive/data.pkl", data := program, crc := 0, offset := 0 },
    { name := ascii "archive/byteorder", data := ascii "little", crc := 0, offset := 0 },
    { name := ascii "archive/version", data := ascii "3\n", crc := 0, offset := 0 }] ++
    if adapterManifest = [] then []
    else [{ name := manifestEntry, data := adapterManifest, crc := 0, offset := 0 }]

/-- The check of what was written; a fault of the reader ends it like a status error. -/
def selfCheck (maxEntries : Nat) (file : Bytes) (count : Nat) : Except String Unit :=
  match (openWhole maxEntries file).result with
  | .error _ => .error "PTH self-check failed"
  | .ok archive =>
      match (parsePthTensorRecords archive).result with
      | .error _ => .error "PTH self-check count"
      | .ok records =>
          if records.length ≠ count then .error "PTH self-check count" else .ok ()

/-- `write_pth`: what stands in the file `path` then. -/
def writePth (disk : Disk) (maxEntries : Nat) (path : String) (tensors : List WriteTensor)
    (adapterManifest manifestEntry : Bytes) : Except String Bytes :=
  match writeTensors 0 tensors with
  | .error message => .error message
  | .ok written =>
      let program := [0x80, 2, 0x7D, 0x28] ++ written.1 ++ [0x75, 0x2E]
      match writeZip disk (path ++ ".tmp")
        (written.2 ++ otherEntries program adapterManifest manifestEntry) with
      | .error message => .error message
      | .ok file =>
          match selfCheck maxEntries file tensors.length with
          | .error message => .error message
          | .ok _ => if disk.rename then .ok file else .error "rename"

end Writer
end Pth
end RwkvLightning

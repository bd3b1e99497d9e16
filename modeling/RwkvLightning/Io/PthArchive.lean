import RwkvLightning.Library.Checked
import RwkvLightning.Library.LittleEndian

/-!
# Reading PTH archives

`PthArchive` of `pth_archive.cpp`: a reader of stored ZIP archives with a whole-file
mode and a mode that reads ranges of the file.

**Numbers.**  Offsets and sizes are 64-bit; `add` is their addition, which takes note
of a wrap.  The constant offsets into a record are plain sums, since its first bytes
have been read before.

**Failures.**  A status error has the text of the message and the entry name at its
end; the path is left out.  A read outside a buffer ends the run as undefined, and
`std::vector::reserve` throws above `maxEntries`.
-/

namespace RwkvLightning
namespace Pth

open LittleEndian (slice)

abbrev Bytes := List UInt8

/-- How a function ends when it returns no value. -/
inductive Fault where
  | status (message : String) (subject : Bytes)
  | outOfBounds
  | lengthError
deriving DecidableEq, Repr

/-- A computation that takes note of a wrapped addition. -/
abbrev Io := Checked Fault

/-- The size of `std::size_t` and `std::uint64_t`. -/
def word : Nat := 2 ^ 64

/-- An addition of offsets. -/
def add (a b : Nat) : Io Nat :=
  Checked.noteIf (word ≤ a + b) ((a + b) % word)

/-- `return Status::error(…)`. -/
def error {α : Type} (message : String) (subject : Bytes) : Io α :=
  Checked.fail (.status message subject)

/-- A check. -/
def errorIf (c : Prop) [Decidable c] (message : String) (subject : Bytes) : Io PUnit :=
  if c then error message subject else pure ⟨⟩

section Constants

def kEndOfCentralDirectory : Nat := 0x06054b50
def kZip64EndOfCentralDirectory : Nat := 0x06064b50
def kZip64EndOfCentralDirectoryLocator : Nat := 0x07064b50
def kCentralDirectoryFileHeader : Nat := 0x02014b50
def kLocalFileHeader : Nat := 0x04034b50

end Constants

section Numbers

/-- `bytes[off]`. -/
def byteAt (bytes : Bytes) (off : Nat) : Io Nat :=
  match bytes[off]? with
  | some byte => pure byte.toNat
  | none => Checked.fail .outOfBounds

/-- `read_u16`. -/
def readU16 (bytes : Bytes) (off : Nat) : Io Nat := do
  let b0 ← byteAt bytes off
  let b1 ← byteAt bytes (off + 1)
  pure (b0 ||| b1 <<< 8)

/-- `read_u32`. -/
def readU32 (bytes : Bytes) (off : Nat) : Io Nat := do
  let b0 ← byteAt bytes off
  let b1 ← byteAt bytes (off + 1)
  let b2 ← byteAt bytes (off + 2)
  let b3 ← byteAt bytes (off + 3)
  pure (b0 ||| b1 <<< 8 ||| b2 <<< 16 ||| b3 <<< 24)

/-- `read_u64`. -/
def readU64 (bytes : Bytes) (off : Nat) : Io Nat := do
  let low ← readU32 bytes off
  let high ← readU32 bytes (off + 4)
  pure (low ||| high <<< 32)

end Numbers

/-- `PthEntry`. -/
structure PthEntry where
  name : Bytes
  compressionMethod : Nat
  crc32 : Nat
  compressedSize : Nat
  uncompressedSize : Nat
  localHeaderOffset : Nat
  dataOffset : Nat
deriving DecidableEq, Repr

def PthEntry.isStored (entry : PthEntry) : Bool :=
  entry.compressionMethod = 0

/-- What the end records say about the central directory. -/
structure Directory where
  entryCount : Nat
  cdSize : Nat
  cdOffset : Nat
deriving DecidableEq, Repr

section EndRecords

/-- The loop of `find_eocd`, down to `minPos`. -/
def findEocdLoop (bytes : Bytes) (minPos : Nat) : Nat → Io Nat
  | 0 => do
      let signature ← readU32 bytes 0
      if signature = kEndOfCentralDirectory then pure 0
      else error "end of central directory not found" []
  | pos + 1 => do
      let signature ← readU32 bytes (pos + 1)
      if signature = kEndOfCentralDirectory then pure (pos + 1)
      else if pos + 1 = minPos then error "end of central directory not found" []
      else findEocdLoop bytes minPos pos

/-- `find_eocd`. -/
def findEocd (bytes : Bytes) : Io Nat := do
  errorIf (bytes.length < 22) "file is too small to be a zip archive" []
  let maxComment := 65535
  let minPos :=
    if 22 + maxComment < bytes.length then bytes.length - (22 + maxComment) else 0
  findEocdLoop bytes minPos (bytes.length - 22)

/-- The fields of the end record. -/
def readEndRecord (bytes : Bytes) (eocd : Nat) : Io Directory := do
  let diskNo ← readU16 bytes (eocd + 4)
  let cdDisk ← readU16 bytes (eocd + 6)
  let entryCount ← readU16 bytes (eocd + 10)
  let cdSize ← readU32 bytes (eocd + 12)
  let cdOffset ← readU32 bytes (eocd + 16)
  errorIf (diskNo ≠ 0 ∨ cdDisk ≠ 0) "multi-disk zip archives are not supported" []
  pure { entryCount := entryCount, cdSize := cdSize, cdOffset := cdOffset }

/-- A field of the end record refers to the ZIP64 record. -/
def Directory.needsZip64 (d : Directory) : Bool :=
  d.entryCount = 0xffff || d.cdSize = 0xffffffff || d.cdOffset = 0xffffffff

/-- The offset in the ZIP64 locator before the end record. -/
def readLocator (bytes : Bytes) (eocd : Nat) : Io Nat := do
  errorIf (eocd < 20) "zip64 end of central directory locator not found" []
  let loc := eocd - 20
  let signature ← readU32 bytes loc
  errorIf (signature ≠ kZip64EndOfCentralDirectoryLocator)
    "zip64 end of central directory locator not found" []
  let locatorDisk ← readU32 bytes (loc + 4)
  let zip64EocdOffset ← readU64 bytes (loc + 8)
  let totalDisks ← readU32 bytes (loc + 16)
  errorIf (locatorDisk ≠ 0 ∨ totalDisks ≠ 1)
    "multi-disk zip64 archives are not supported" []
  pure zip64EocdOffset

/-- The fields of the ZIP64 end record at `z`. -/
def readZip64Record (bytes : Bytes) (z : Nat) : Io Directory := do
  let signature ← readU32 bytes z
  errorIf (signature ≠ kZip64EndOfCentralDirectory)
    "zip64 end of central directory signature mismatch" []
  let diskNo ← readU32 bytes (z + 16)
  let cdDisk ← readU32 bytes (z + 20)
  errorIf (diskNo ≠ 0 ∨ cdDisk ≠ 0) "multi-disk zip64 archives are not supported" []
  let entryCount ← readU64 bytes (z + 32)
  let cdSize ← readU64 bytes (z + 40)
  let cdOffset ← readU64 bytes (z + 48)
  pure { entryCount := entryCount, cdSize := cdSize, cdOffset := cdOffset }

/-- `read_zip64_eocd`. -/
def readZip64Eocd (bytes : Bytes) (eocd : Nat) : Io Directory := do
  let zip64EocdOffset ← readLocator bytes eocd
  let zip64End ← add zip64EocdOffset 56
  errorIf (bytes.length < zip64End)
    "zip64 end of central directory is out of file bounds" []
  readZip64Record bytes zip64EocdOffset

end EndRecords

section Headers

/-- `take_u64`: a field of the extended information, and the position after it. -/
def takeU64 (bytes : Bytes) (limit p : Nat) (name : Bytes) : Io (Nat × Nat) := do
  let stop ← add p 8
  errorIf (limit < stop) "zip64 extended information is truncated: " name
  let value ← readU64 bytes p
  pure (value, stop)

/-- A field that is taken only where the header asks for it. -/
def takeIf (need : Bool) (bytes : Bytes) (limit p : Nat) (name : Bytes) (old : Nat) :
    Io (Nat × Nat) :=
  if need then takeU64 bytes limit p name else pure (old, p)

/-- The fields that a header keeps in its ZIP64 extra block. -/
structure Needs where
  uncompressed : Bool
  compressed : Bool
  localOffset : Bool
deriving DecidableEq, Repr

def Needs.any (needs : Needs) : Bool :=
  needs.uncompressed || needs.compressed || needs.localOffset

/-- The extended information between `pos` and `limit`. -/
def readExtended (bytes : Bytes) (needs : Needs) (pos limit : Nat) (entry : PthEntry) :
    Io PthEntry := do
  let u ← takeIf needs.uncompressed bytes limit pos entry.name entry.uncompressedSize
  let c ← takeIf needs.compressed bytes limit u.2 entry.name entry.compressedSize
  let l ← takeIf needs.localOffset bytes limit c.2 entry.name entry.localHeaderOffset
  pure { entry with
    uncompressedSize := u.1, compressedSize := c.1, localHeaderOffset := l.1 }

/-- The end of `apply_zip64_extra`, when there was no ZIP64 block. -/
def withoutExtended (needs : Needs) (entry : PthEntry) : Io PthEntry := do
  errorIf (needs.any = true) "zip64 extended information missing: " entry.name
  pure entry

/-- The loop of `apply_zip64_extra`; a pass takes at least four bytes. -/
def extraLoop (bytes : Bytes) (needs : Needs) (extraEnd : Nat) (entry : PthEntry) :
    Nat → Nat → Io PthEntry
  | 0, _ => withoutExtended needs entry
  | fuel + 1, pos => do
      let blockStart ← add pos 4
      if blockStart ≤ extraEnd then
        let tag ← readU16 bytes pos
        let size ← readU16 bytes (pos + 2)
        let blockEnd ← add blockStart size
        errorIf (extraEnd < blockEnd)
          "central directory extra block is truncated: " entry.name
        if tag = 0x0001 then readExtended bytes needs blockStart blockEnd entry
        else extraLoop bytes needs extraEnd entry fuel blockEnd
      else withoutExtended needs entry

/-- `apply_zip64_extra`. -/
def applyZip64Extra (bytes : Bytes) (extraPos extraLen : Nat) (needs : Needs)
    (entry : PthEntry) : Io PthEntry := do
  let extraEnd ← add extraPos extraLen
  errorIf (bytes.length < extraEnd)
    "central directory extra field is truncated: " entry.name
  extraLoop bytes needs extraEnd entry (extraLen / 4 + 1) extraPos

/--
A pass of the loop over the central directory: the entry of the header at `pos`, and
the position of the next header.  Both readers have this loop, the one over the whole
file and the other over the bytes of the directory.
-/
def readHeader (buffer : Bytes) (pos i : Nat) : Io (PthEntry × Nat) := do
  let fixedEnd ← add pos 46
  errorIf (buffer.length < fixedEnd) "central directory header is truncated" []
  let signature ← readU32 buffer pos
  errorIf (signature ≠ kCentralDirectoryFileHeader)
    ("central directory signature mismatch at entry " ++ toString i) []
  let compressionMethod ← readU16 buffer (pos + 10)
  let crc32 ← readU32 buffer (pos + 16)
  let compressedSize32 ← readU32 buffer (pos + 20)
  let uncompressedSize32 ← readU32 buffer (pos + 24)
  let nameLen ← readU16 buffer (pos + 28)
  let extraLen ← readU16 buffer (pos + 30)
  let commentLen ← readU16 buffer (pos + 32)
  let localHeaderOffset32 ← readU32 buffer (pos + 42)
  let namePos ← add pos 46
  let nameEnd ← add namePos nameLen
  errorIf (buffer.length < nameEnd) "central directory file name is truncated" []
  let entry ← applyZip64Extra buffer nameEnd extraLen
    { uncompressed := uncompressedSize32 = 0xffffffff
      compressed := compressedSize32 = 0xffffffff
      localOffset := localHeaderOffset32 = 0xffffffff }
    { name := slice buffer namePos nameLen
      compressionMethod := compressionMethod
      crc32 := crc32
      compressedSize := compressedSize32
      uncompressedSize := uncompressedSize32
      localHeaderOffset := localHeaderOffset32
      dataOffset := 0 }
  let extraEnd ← add nameEnd extraLen
  let nextPos ← add extraEnd commentLen
  pure (entry, nextPos)

/-- The loop over the central directory, from entry `i` on. -/
def readHeaders (buffer : Bytes) : Nat → Nat → Nat → Io (List PthEntry)
  | _, _, 0 => pure []
  | i, pos, count + 1 => do
      let header ← readHeader buffer pos i
      let entries ← readHeaders buffer (i + 1) header.2 count
      pure (header.1 :: entries)

end Headers

section WholeFile

/-- A pass of the loop of `compute_data_offsets`. -/
def computeDataOffset (bytes : Bytes) (entry : PthEntry) : Io PthEntry := do
  let localOffset := entry.localHeaderOffset
  let localEnd ← add localOffset 30
  errorIf (bytes.length < localEnd)
    "local header offset is out of range for entry: " entry.name
  let signature ← readU32 bytes localOffset
  errorIf (signature ≠ kLocalFileHeader)
    "local header signature mismatch for entry: " entry.name
  let nameLen ← readU16 bytes (localOffset + 26)
  let extraLen ← readU16 bytes (localOffset + 28)
  let namePos ← add localOffset 30
  let nameEnd ← add namePos nameLen
  let dataOffset ← add nameEnd extraLen
  let dataEnd ← add dataOffset entry.compressedSize
  errorIf (bytes.length < dataEnd) "entry data range is out of file bounds: " entry.name
  pure { entry with dataOffset := dataOffset }

/-- `compute_data_offsets`. -/
def computeDataOffsets (bytes : Bytes) : List PthEntry → Io (List PthEntry)
  | [] => pure []
  | entry :: entries => do
      let entry ← computeDataOffset bytes entry
      let entries ← computeDataOffsets bytes entries
      pure (entry :: entries)

end WholeFile

/-- `entries_.reserve(entry_count)`. -/
def reserve (maxEntries count : Nat) : Io PUnit :=
  if maxEntries < count then Checked.fail .lengthError else pure ⟨⟩

/-- `PthArchive`; `file` is the buffer or the file behind the stream. -/
structure PthArchive where
  chunkLoad : Bool
  file : Bytes
  entries : List PthEntry
deriving DecidableEq, Repr

section Open

/-- `tellg` fails for sizes above the range of `std::streamoff`. -/
def fileSize (file : Bytes) : Io Nat := do
  errorIf (2 ^ 63 ≤ file.length) "failed to determine file size: " []
  pure file.length

/-- The central directory as the whole-file reader finds it. -/
def wholeDirectory (bytes : Bytes) : Io Directory := do
  let eocd ← findEocd bytes
  let d ← readEndRecord bytes eocd
  if d.needsZip64 then readZip64Eocd bytes eocd else pure d

/-- The rest of `open` without chunks, once the directory is known. -/
def wholeEntries (maxEntries : Nat) (bytes : Bytes) (d : Directory) :
    Io (List PthEntry) := do
  let cdEnd ← add d.cdOffset d.cdSize
  errorIf (bytes.length < cdEnd) "central directory range is out of file bounds" []
  reserve maxEntries d.entryCount
  let entries ← readHeaders bytes 0 d.cdOffset d.entryCount
  computeDataOffsets bytes entries

/-- `PthArchive::open(path, false)`. -/
def openWhole (maxEntries : Nat) (file : Bytes) : Io PthArchive := do
  let _size ← fileSize file
  let d ← wholeDirectory file
  let entries ← wholeEntries maxEntries file d
  pure { chunkLoad := false, file := file, entries := entries }

/-- `StreamReader::read`. -/
def readRange (file : Bytes) (offset size : Nat) : Io Bytes := do
  errorIf (2 ^ 63 ≤ offset ∨ 2 ^ 63 ≤ size)
    "file range is too large for this platform" []
  errorIf (size ≠ 0 ∧ file.length < offset + size) "failed to read model file range" []
  pure (slice file offset size)

/-- The central directory as the reader of ranges finds it. -/
def chunkedDirectory (file : Bytes) : Io Directory := do
  let kMaxEocdSearch := 20 + 22 + 65535
  let tailSize := min file.length kMaxEocdSearch
  let tailOffset := file.length - tailSize
  let tail ← readRange file tailOffset tailSize
  let eocd ← findEocd tail
  let d ← readEndRecord tail eocd
  if d.needsZip64 then
    let zip64Offset ← readLocator tail eocd
    let zip64 ← readRange file zip64Offset 56
    readZip64Record zip64 0
  else pure d

/-- A pass of the loop over the local headers. -/
def chunkedDataOffset (file : Bytes) (entry : PthEntry) : Io PthEntry := do
  let header ← readRange file entry.localHeaderOffset 30
  let signature ← readU32 header 0
  errorIf (signature ≠ kLocalFileHeader)
    "local header signature mismatch for entry: " entry.name
  let nameLen ← readU16 header 26
  let extraLen ← readU16 header 28
  let namePos ← add entry.localHeaderOffset 30
  let nameEnd ← add namePos nameLen
  let dataOffset ← add nameEnd extraLen
  errorIf (file.length < dataOffset ∨ file.length - dataOffset < entry.compressedSize)
    "entry data range is out of file bounds: " entry.name
  pure { entry with dataOffset := dataOffset }

def chunkedDataOffsets (file : Bytes) : List PthEntry → Io (List PthEntry)
  | [] => pure []
  | entry :: entries => do
      let entry ← chunkedDataOffset file entry
      let entries ← chunkedDataOffsets file entries
      pure (entry :: entries)

/-- The rest of `open` with chunks, once the directory is known. -/
def chunkedEntries (maxEntries : Nat) (file : Bytes) (d : Directory) :
    Io (List PthEntry) := do
  errorIf (file.length < d.cdOffset ∨ file.length - d.cdOffset < d.cdSize)
    "central directory range is out of file bounds" []
  let cd ← readRange file d.cdOffset d.cdSize
  reserve maxEntries d.entryCount
  let entries ← readHeaders cd 0 0 d.entryCount
  chunkedDataOffsets file entries

/-- `PthArchive::open(path, true)`. -/
def openChunked (maxEntries : Nat) (file : Bytes) : Io PthArchive := do
  let size ← fileSize file
  errorIf (size < 22) "file is too small to be a zip archive" []
  let d ← chunkedDirectory file
  let entries ← chunkedEntries maxEntries file d
  pure { chunkLoad := true, file := file, entries := entries }

end Open

section Entries

/-- `find_entry`. -/
def PthArchive.findEntry (archive : PthArchive) (name : Bytes) : Option PthEntry :=
  archive.entries.find? (fun entry => entry.name = name)

/-- `read_stored_entry_range`, with a destination of `size` bytes. -/
def PthArchive.readStoredEntryRange (archive : PthArchive) (entry : PthEntry)
    (entryOffset size : Nat) : Io Bytes := do
  errorIf (!entry.isStored)
    "entry is compressed; only stored entries are supported: " entry.name
  errorIf (entry.uncompressedSize < entryOffset ∨
      entry.uncompressedSize - entryOffset < size)
    "requested range is out of entry bounds: " entry.name
  errorIf (archive.file.length < entry.dataOffset ∨
      archive.file.length - entry.dataOffset < entryOffset ∨
      archive.file.length - entry.dataOffset - entryOffset < size)
    "entry data range is out of file bounds: " entry.name
  let start ← add entry.dataOffset entryOffset
  if archive.chunkLoad then readRange archive.file start size
  else pure (slice archive.file start size)

/-- `read_stored_entry`. -/
def PthArchive.readStoredEntry (archive : PthArchive) (entry : PthEntry) : Io Bytes := do
  errorIf (!entry.isStored)
    "entry is compressed; only stored entries are supported: " entry.name
  errorIf (archive.file.length < entry.dataOffset ∨
      archive.file.length - entry.dataOffset < entry.uncompressedSize)
    "entry data range is out of file bounds: " entry.name
  if archive.chunkLoad then
    archive.readStoredEntryRange entry 0 entry.uncompressedSize
  else pure (slice archive.file entry.dataOffset entry.uncompressedSize)

end Entries

end Pth
end RwkvLightning

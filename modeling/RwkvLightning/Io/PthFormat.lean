import RwkvLightning.Io.PthArchive

/-!
# The stored ZIP format

The fields of an archive in exact arithmetic, as functions of the bytes: the end
records, the headers of the central directory and the local headers.  They say what
the readers of `PthArchive` compute as long as no addition wraps.

**Results.**  `Parses c o` says that a reader ends with the value of `o`, or with a
status error, without a wrap and without a read outside its buffer; there is one such
lemma for each part of the readers (`findEocd_parses`, `readHeaders_parses` and so
on).
-/

namespace RwkvLightning
namespace Pth

open LittleEndian Checked

/-- A status error. -/
def IsStatus : Fault → Prop
  | .status _ _ => True
  | _ => False

/-- The reader ends as `o` says, cleanly. -/
abbrev Parses {α : Type} (c : Io α) (o : Option α) : Prop :=
  Acts IsStatus c o

section Rules

variable {α β : Type}

theorem parses_error (message : String) (subject : Bytes) :
    Parses (error message subject : Io α) none :=
  acts_fail trivial

/-- A check before the rest of a reader. -/
theorem parses_check
    {p : Prop} [Decidable p] {message : String} {subject : Bytes}
    {f : PUnit → Io α} {o : Option α} (h : ¬p → Parses (f ⟨⟩) o) :
    Parses (errorIf p message subject >>= f) (if p then none else o) := by
  by_cases hp : p
  · rw [if_pos hp, errorIf, if_pos hp]
    exact parses_error message subject
  · rw [if_neg hp, errorIf, if_neg hp, pure_bind]
    exact h hp

/-- A check that was passed. -/
theorem errorIf_bind_ok
    {p : Prop} [Decidable p] {message : String} {subject : Bytes} {f : PUnit → Io α} {a : α}
    (h : (errorIf p message subject >>= f).result = .ok a) :
    ¬p ∧ (f ⟨⟩).result = .ok a := by
  by_cases hp : p
  · rw [errorIf, if_pos hp] at h
    cases h
  · rw [errorIf, if_neg hp, pure_bind] at h
    exact ⟨hp, h⟩

theorem add_eq {a b : Nat} (h : a + b < word) : add a b = pure (a + b) := by
  have hle : ¬ word ≤ a + b := by omega
  simp [add, hle, Nat.mod_eq_of_lt h]

theorem add_wraps {a b : Nat} (h : word ≤ a + b) (f : Nat → Io α) :
    (add a b >>= f) = { f ((a + b) % word) with noted := true } := by
  rw [add, decide_eq_true h, noteIf_true_bind]

end Rules

section Fields

def u16 (bytes : Bytes) (off : Nat) : Nat := field bytes off 2
def u32 (bytes : Bytes) (off : Nat) : Nat := field bytes off 4
def u64 (bytes : Bytes) (off : Nat) : Nat := field bytes off 8

variable {bytes : Bytes} {off : Nat}

theorem u16_lt : u16 bytes off < 65536 :=
  field_lt bytes off 2

theorem u32_lt : u32 bytes off < 2 ^ 32 :=
  field_lt bytes off 4

theorem byteAt_inside (h : off < bytes.length) :
    ∃ byte, bytes[off]? = some byte ∧ byteAt bytes off = pure byte.toNat := by
  refine ⟨bytes[off], List.getElem?_eq_getElem h, ?_⟩
  rw [byteAt, List.getElem?_eq_getElem h]

/-- The bits of a higher part do not meet those of a lower one. -/
theorem or_shift {low k : Nat} (high : Nat) (h : low < 2 ^ k) :
    low ||| high <<< k = low + 2 ^ k * high := by
  rw [Nat.or_comm, ← Nat.shiftLeft_add_eq_or_of_lt h, Nat.shiftLeft_eq, Nat.mul_comm high]
  omega

theorem readU16_eq (h : off + 2 ≤ bytes.length) :
    readU16 bytes off = pure (u16 bytes off) := by
  obtain ⟨b0, hb0, h0⟩ := @byteAt_inside bytes off (by omega)
  obtain ⟨b1, hb1, h1⟩ := @byteAt_inside bytes (off + 1) (by omega)
  have hlt := b0.toNat_lt
  rw [readU16, h0, pure_bind, h1, pure_bind, u16, field_succ hb0, field_succ hb1,
    field_zero, or_shift _ (by omega)]
  congr 1

theorem readU32_eq (h : off + 4 ≤ bytes.length) :
    readU32 bytes off = pure (u32 bytes off) := by
  obtain ⟨b0, hb0, h0⟩ := @byteAt_inside bytes off (by omega)
  obtain ⟨b1, hb1, h1⟩ := @byteAt_inside bytes (off + 1) (by omega)
  obtain ⟨b2, hb2, h2⟩ := @byteAt_inside bytes (off + 2) (by omega)
  obtain ⟨b3, hb3, h3⟩ := @byteAt_inside bytes (off + 3) (by omega)
  have hlt0 := b0.toNat_lt
  have hlt1 := b1.toNat_lt
  have hlt2 := b2.toNat_lt
  rw [readU32, h0, pure_bind, h1, pure_bind, h2, pure_bind, h3, pure_bind, u32,
    field_succ hb0, field_succ hb1, field_succ hb2, field_succ hb3, field_zero,
    or_shift b1.toNat (by omega), or_shift b2.toNat (by omega),
    or_shift b3.toNat (by omega)]
  congr 1
  omega

theorem readU64_eq (h : off + 8 ≤ bytes.length) :
    readU64 bytes off = pure (u64 bytes off) := by
  have hlt : u32 bytes off < 2 ^ 32 := u32_lt
  have hparts : u64 bytes off = u32 bytes off + 2 ^ 32 * u32 bytes (off + 4) :=
    field_add (k := 4) (by omega)
  rw [readU64, readU32_eq (by omega), pure_bind, readU32_eq (by omega), pure_bind,
    or_shift _ hlt, hparts]

end Fields

section EndRecords

/-- The last end-of-directory signature from `pos` down to `minPos`. -/
def lastEnd (bytes : Bytes) (minPos : Nat) : Nat → Option Nat
  | 0 => if u32 bytes 0 = kEndOfCentralDirectory then some 0 else none
  | pos + 1 =>
      if u32 bytes (pos + 1) = kEndOfCentralDirectory then some (pos + 1)
      else if pos + 1 = minPos then none
      else lastEnd bytes minPos pos

/-- The position of the end record. -/
def endPosition (bytes : Bytes) : Option Nat :=
  if bytes.length < 22 then none
  else
    lastEnd bytes
      (if 22 + 65535 < bytes.length then bytes.length - (22 + 65535) else 0)
      (bytes.length - 22)

/-- The fields of the end record at `pos`. -/
def endRecord (bytes : Bytes) (pos : Nat) : Option Directory :=
  if u16 bytes (pos + 4) ≠ 0 ∨ u16 bytes (pos + 6) ≠ 0 then none
  else
    some
      { entryCount := u16 bytes (pos + 10)
        cdSize := u32 bytes (pos + 12)
        cdOffset := u32 bytes (pos + 16) }

/-- The offset in the ZIP64 locator before `pos`. -/
def locator (bytes : Bytes) (pos : Nat) : Option Nat :=
  if pos < 20 then none
  else if u32 bytes (pos - 20) ≠ kZip64EndOfCentralDirectoryLocator then none
  else if u32 bytes (pos - 20 + 4) ≠ 0 ∨ u32 bytes (pos - 20 + 16) ≠ 1 then none
  else some (u64 bytes (pos - 20 + 8))

/-- The fields of the ZIP64 end record at `z`. -/
def zip64Record (bytes : Bytes) (z : Nat) : Option Directory :=
  if u32 bytes z ≠ kZip64EndOfCentralDirectory then none
  else if u32 bytes (z + 16) ≠ 0 ∨ u32 bytes (z + 20) ≠ 0 then none
  else
    some
      { entryCount := u64 bytes (z + 32)
        cdSize := u64 bytes (z + 40)
        cdOffset := u64 bytes (z + 48) }

/-- The offset of the ZIP64 end record, where the end record refers to one. -/
def zip64Offset (bytes : Bytes) : Option Nat :=
  (endPosition bytes).bind fun pos =>
    (endRecord bytes pos).bind fun d =>
      if d.needsZip64 then locator bytes pos else none

/-- The central directory. -/
def directory (bytes : Bytes) : Option Directory :=
  (endPosition bytes).bind fun pos =>
    (endRecord bytes pos).bind fun d =>
      if d.needsZip64 then
        (locator bytes pos).bind fun z =>
          if bytes.length < z + 56 then none else zip64Record bytes z
      else some d

variable {bytes : Bytes} {minPos pos : Nat}

theorem lastEnd_le {k : Nat} (h : lastEnd bytes minPos pos = some k) : k ≤ pos := by
  induction pos with
  | zero =>
      simp only [lastEnd] at h
      split at h
      · simp at h
        omega
      · simp at h
  | succ pos ih =>
      simp only [lastEnd] at h
      split at h
      · simp at h
        omega
      · split at h
        · simp at h
        · have hle := ih h
          omega

theorem le_of_lastEnd {k : Nat} (h : lastEnd bytes minPos pos = some k)
    (hmin : minPos ≤ pos) : minPos ≤ k := by
  induction pos with
  | zero => omega
  | succ pos ih =>
      simp only [lastEnd] at h
      split at h
      · simp at h
        omega
      · split at h
        · simp at h
        · exact ih h (by omega)

theorem endPosition_le (h : endPosition bytes = some pos) : pos + 22 ≤ bytes.length := by
  rw [endPosition] at h
  split at h
  · simp at h
  · have hle := lastEnd_le h
    omega

theorem findEocdLoop_parses (h : pos + 4 ≤ bytes.length) :
    Parses (findEocdLoop bytes minPos pos) (lastEnd bytes minPos pos) := by
  induction pos with
  | zero =>
      rw [findEocdLoop, readU32_eq h, pure_bind, lastEnd]
      exact acts_ite (fun _ => acts_pure 0) (fun _ => parses_error _ _)
  | succ pos ih =>
      rw [findEocdLoop, readU32_eq h, pure_bind, lastEnd]
      refine acts_ite (fun _ => acts_pure _) (fun _ => ?_)
      exact acts_ite (fun _ => parses_error _ _) (fun _ => ih (by omega))

theorem findEocd_parses : Parses (findEocd bytes) (endPosition bytes) := by
  rw [findEocd, endPosition]
  refine parses_check (fun hsize => ?_)
  exact findEocdLoop_parses (by omega)

theorem readEndRecord_parses (h : pos + 22 ≤ bytes.length) :
    Parses (readEndRecord bytes pos) (endRecord bytes pos) := by
  rw [readEndRecord, readU16_eq (by omega), pure_bind, readU16_eq (by omega), pure_bind,
    readU16_eq (by omega), pure_bind, readU32_eq (by omega), pure_bind,
    readU32_eq (by omega), pure_bind, endRecord]
  exact parses_check (fun _ => acts_pure _)

theorem readLocator_parses (h : pos + 22 ≤ bytes.length) :
    Parses (readLocator bytes pos) (locator bytes pos) := by
  rw [readLocator, locator]
  refine parses_check (fun hpos => ?_)
  dsimp only
  rw [readU32_eq (by omega), pure_bind]
  refine parses_check (fun _ => ?_)
  rw [readU32_eq (by omega), pure_bind, readU64_eq (by omega), pure_bind,
    readU32_eq (by omega), pure_bind]
  exact parses_check (fun _ => acts_pure _)

theorem readZip64Record_parses {z : Nat} (h : z + 56 ≤ bytes.length) :
    Parses (readZip64Record bytes z) (zip64Record bytes z) := by
  rw [readZip64Record, readU32_eq (by omega), pure_bind, zip64Record]
  refine parses_check (fun _ => ?_)
  rw [readU32_eq (by omega), pure_bind, readU32_eq (by omega), pure_bind]
  refine parses_check (fun _ => ?_)
  rw [readU64_eq (by omega), pure_bind, readU64_eq (by omega), pure_bind,
    readU64_eq (by omega), pure_bind]
  exact acts_pure _

/-- The whole-file reader finds the directory, unless the ZIP64 offset wraps. -/
theorem wholeDirectory_parses
    (h : ∀ z, zip64Offset bytes = some z → z + 56 < word) :
    Parses (wholeDirectory bytes) (directory bytes) := by
  rw [wholeDirectory, directory]
  refine acts_bind findEocd_parses (fun pos hpos => ?_)
  have hle := endPosition_le hpos
  refine acts_bind (readEndRecord_parses hle) (fun d hd => ?_)
  refine acts_ite (fun hneeds => ?_) (fun _ => acts_pure d)
  rw [readZip64Eocd]
  refine acts_bind (readLocator_parses hle) (fun z hz => ?_)
  have hsum : z + 56 < word := by
    refine h z ?_
    simp [zip64Offset, hpos, hd, hneeds, hz]
  rw [add_eq hsum, pure_bind]
  exact parses_check (fun hinside => readZip64Record_parses (by omega))

end EndRecords

section Headers

/-- An optional field at `p` of an extended block that ends at `limit`. -/
def taken (need : Bool) (bytes : Bytes) (limit p old : Nat) : Option (Nat × Nat) :=
  if need then
    if limit < p + 8 then none else some (u64 bytes p, p + 8)
  else some (old, p)

/-- The entry with the fields of the extended block between `pos` and `limit`. -/
def extended (bytes : Bytes) (needs : Needs) (pos limit : Nat) (entry : PthEntry) :
    Option PthEntry :=
  (taken needs.uncompressed bytes limit pos entry.uncompressedSize).bind fun u =>
    (taken needs.compressed bytes limit u.2 entry.compressedSize).bind fun c =>
      (taken needs.localOffset bytes limit c.2 entry.localHeaderOffset).bind fun l =>
        some { entry with
          uncompressedSize := u.1, compressedSize := c.1, localHeaderOffset := l.1 }

/-- The entry with the fields of the first ZIP64 block from `pos` on. -/
def extraBlocks (bytes : Bytes) (needs : Needs) (extraEnd : Nat) (entry : PthEntry) :
    Nat → Nat → Option PthEntry
  | 0, _ => if needs.any = true then none else some entry
  | fuel + 1, pos =>
      if pos + 4 ≤ extraEnd then
        if extraEnd < pos + 4 + u16 bytes (pos + 2) then none
        else if u16 bytes pos = 0x0001 then
          extended bytes needs (pos + 4) (pos + 4 + u16 bytes (pos + 2)) entry
        else extraBlocks bytes needs extraEnd entry fuel (pos + 4 + u16 bytes (pos + 2))
      else if needs.any = true then none else some entry

/-- The fields that the header at `pos` keeps in its extra block. -/
def needsOf (buffer : Bytes) (pos : Nat) : Needs :=
  { uncompressed := u32 buffer (pos + 24) = 0xffffffff
    compressed := u32 buffer (pos + 20) = 0xffffffff
    localOffset := u32 buffer (pos + 42) = 0xffffffff }

/-- The fixed fields and the name of the header at `pos`. -/
def fixedEntry (buffer : Bytes) (pos : Nat) : PthEntry :=
  { name := slice buffer (pos + 46) (u16 buffer (pos + 28))
    compressionMethod := u16 buffer (pos + 10)
    crc32 := u32 buffer (pos + 16)
    compressedSize := u32 buffer (pos + 20)
    uncompressedSize := u32 buffer (pos + 24)
    localHeaderOffset := u32 buffer (pos + 42)
    dataOffset := 0 }

/-- The end of the name, and of the extra field, of the header at `pos`. -/
def nameEnd (buffer : Bytes) (pos : Nat) : Nat :=
  pos + 46 + u16 buffer (pos + 28)

def headerEnd (buffer : Bytes) (pos : Nat) : Nat :=
  nameEnd buffer pos + u16 buffer (pos + 30)

/-- The entry of the header at `pos`, and the position after its comment. -/
def header (buffer : Bytes) (pos : Nat) : Option (PthEntry × Nat) :=
  if buffer.length < pos + 46 then none
  else if u32 buffer pos ≠ kCentralDirectoryFileHeader then none
  else if buffer.length < nameEnd buffer pos then none
  else if buffer.length < headerEnd buffer pos then none
  else
    (extraBlocks buffer (needsOf buffer pos) (headerEnd buffer pos)
      (fixedEntry buffer pos) (u16 buffer (pos + 30) / 4 + 1)
      (nameEnd buffer pos)).bind fun entry =>
        some (entry, headerEnd buffer pos + u16 buffer (pos + 32))

/-- The entries of `count` headers from `pos` on. -/
def headers (buffer : Bytes) : Nat → Nat → Option (List PthEntry)
  | _, 0 => some []
  | pos, count + 1 =>
      (header buffer pos).bind fun h =>
        (headers buffer h.2 count).bind fun entries => some (h.1 :: entries)

variable {bytes buffer : Bytes} {needs : Needs} {entry : PthEntry} {pos limit : Nat}

theorem takeIf_parses
    {need : Bool} {p old : Nat} {name : Bytes} (hlimit : limit ≤ bytes.length)
    (hp : p + 8 < word) :
    Parses (takeIf need bytes limit p name old) (taken need bytes limit p old) := by
  rw [takeIf, taken]
  refine acts_ite (fun _ => ?_) (fun _ => acts_pure _)
  rw [takeU64, add_eq hp, pure_bind]
  refine parses_check (fun hinside => ?_)
  rw [readU64_eq (by omega), pure_bind]
  exact acts_pure _

theorem taken_le
    {need : Bool} {p old : Nat} {r : Nat × Nat} (hp : p ≤ limit)
    (h : taken need bytes limit p old = some r) : r.2 ≤ limit := by
  rw [taken] at h
  split at h
  · split at h
    · simp at h
    · obtain rfl := Option.some.inj h
      simp only
      omega
  · obtain rfl := Option.some.inj h
    exact hp

theorem readExtended_parses
    (hlimit : limit ≤ bytes.length) (hsize : bytes.length < 2 ^ 63) (hpos : pos ≤ limit) :
    Parses (readExtended bytes needs pos limit entry) (extended bytes needs pos limit entry) := by
  have hword : word = 2 ^ 64 := rfl
  rw [readExtended, extended]
  refine acts_bind (takeIf_parses hlimit (by omega)) (fun u hu => ?_)
  have hu' := taken_le hpos hu
  refine acts_bind (takeIf_parses hlimit (by omega)) (fun c hc => ?_)
  have hc' := taken_le hu' hc
  refine acts_bind (takeIf_parses hlimit (by omega)) (fun l _ => ?_)
  exact acts_pure _

theorem withoutExtended_parses :
    Parses (withoutExtended needs entry)
      (if needs.any = true then none else some entry) := by
  rw [withoutExtended]
  exact parses_check (fun _ => acts_pure entry)

theorem extraLoop_parses
    {extraEnd : Nat} (hend : extraEnd ≤ bytes.length) (hsize : bytes.length < 2 ^ 63)
    (fuel : Nat) (hpos : pos ≤ extraEnd) :
    Parses (extraLoop bytes needs extraEnd entry fuel pos)
      (extraBlocks bytes needs extraEnd entry fuel pos) := by
  have hword : word = 2 ^ 64 := rfl
  induction fuel generalizing pos with
  | zero => exact withoutExtended_parses
  | succ fuel ih =>
      rw [extraLoop, extraBlocks, add_eq (by omega), pure_bind]
      refine acts_ite (fun hblock => ?_) (fun _ => withoutExtended_parses)
      have hlt : u16 bytes (pos + 2) < 65536 := u16_lt
      rw [readU16_eq (by omega), pure_bind, readU16_eq (by omega), pure_bind,
        add_eq (by omega), pure_bind]
      refine parses_check (fun hinside => ?_)
      refine acts_ite (fun _ => ?_) (fun _ => ih (by omega))
      exact readExtended_parses (by omega) hsize (by omega)

theorem applyZip64Extra_parses
    {extraPos extraLen : Nat} (hsize : bytes.length < 2 ^ 63)
    (hsum : extraPos + extraLen < word) :
    Parses (applyZip64Extra bytes extraPos extraLen needs entry)
      (if bytes.length < extraPos + extraLen then none
      else
        extraBlocks bytes needs (extraPos + extraLen) entry (extraLen / 4 + 1) extraPos) := by
  rw [applyZip64Extra, add_eq hsum, pure_bind]
  exact parses_check (fun hinside => extraLoop_parses (by omega) hsize _ (by omega))

theorem readHeader_parses
    (hsize : buffer.length < 2 ^ 63) (hpos : pos + 46 < word) (i : Nat) :
    Parses (readHeader buffer pos i) (header buffer pos) := by
  have hword : word = 2 ^ 64 := rfl
  have hname : u16 buffer (pos + 28) < 65536 := u16_lt
  have hextra : u16 buffer (pos + 30) < 65536 := u16_lt
  have hcomment : u16 buffer (pos + 32) < 65536 := u16_lt
  rw [readHeader, header, add_eq hpos, pure_bind]
  refine parses_check (fun hfixed => ?_)
  rw [readU32_eq (by omega), pure_bind]
  refine parses_check (fun _ => ?_)
  rw [readU16_eq (by omega), pure_bind, readU32_eq (by omega), pure_bind,
    readU32_eq (by omega), pure_bind, readU32_eq (by omega), pure_bind,
    readU16_eq (by omega), pure_bind, readU16_eq (by omega), pure_bind,
    readU16_eq (by omega), pure_bind, readU32_eq (by omega), pure_bind,
    pure_bind, add_eq (by omega), pure_bind]
  refine parses_check (fun hnameEnd => ?_)
  have hextraEnd : pos + 46 + u16 buffer (pos + 28) + u16 buffer (pos + 30) < word := by
    omega
  have hbind : ∀ {p : Prop} [Decidable p] (x : Option PthEntry)
      (g : PthEntry → Option (PthEntry × Nat)),
      (if p then none else x.bind g) = (if p then none else x).bind g := by
    intro p _ x g
    split <;> rfl
  rw [hbind]
  refine acts_bind (applyZip64Extra_parses hsize hextraEnd) (fun entry _ => ?_)
  rw [add_eq hextraEnd, pure_bind, add_eq (by omega), pure_bind]
  exact acts_pure _

/-- The next header is within reach of the end of the buffer. -/
theorem header_next_le
    {r : PthEntry × Nat} (h : header buffer pos = some r) :
    r.2 ≤ buffer.length + 65535 := by
  have hcomment : u16 buffer (pos + 32) < 65536 := u16_lt
  simp only [header] at h
  split at h
  · simp at h
  split at h
  · simp at h
  split at h
  · simp at h
  split at h
  · simp at h
  obtain ⟨entry, -, hr⟩ := Option.bind_eq_some_iff.mp h
  obtain rfl := Option.some.inj hr
  simp only
  omega

theorem readHeaders_parses
    (hsize : buffer.length < 2 ^ 63) (count i : Nat) (hpos : pos + 46 < word) :
    Parses (readHeaders buffer i pos count) (headers buffer pos count) := by
  have hword : word = 2 ^ 64 := rfl
  induction count generalizing pos i with
  | zero => exact acts_pure []
  | succ count ih =>
      rw [readHeaders, headers]
      refine acts_bind (readHeader_parses hsize hpos i) (fun r hr => ?_)
      have hnext := header_next_le hr
      refine acts_bind (ih (i + 1) (by omega)) (fun entries _ => ?_)
      exact acts_pure _

end Headers

section LocalHeaders

/-- Where the data of an entry starts. -/
def dataOffset (bytes : Bytes) (entry : PthEntry) : Option Nat :=
  if bytes.length < entry.localHeaderOffset + 30 then none
  else if u32 bytes entry.localHeaderOffset ≠ kLocalFileHeader then none
  else
    some (entry.localHeaderOffset + 30 + u16 bytes (entry.localHeaderOffset + 26) +
      u16 bytes (entry.localHeaderOffset + 28))

/-- The entry with its data, which lies in the file. -/
def locate (bytes : Bytes) (entry : PthEntry) : Option PthEntry :=
  (dataOffset bytes entry).bind fun start =>
    if bytes.length < start + entry.compressedSize then none
    else some { entry with dataOffset := start }

/-- The entries with their data. -/
def locateAll (bytes : Bytes) : List PthEntry → Option (List PthEntry)
  | [] => some []
  | entry :: entries =>
      (locate bytes entry).bind fun entry =>
        (locateAll bytes entries).bind fun entries => some (entry :: entries)

variable {bytes : Bytes} {entry : PthEntry}

theorem dataOffset_le {start : Nat} (h : dataOffset bytes entry = some start) :
    entry.localHeaderOffset + 30 ≤ bytes.length ∧
      start ≤ bytes.length + 2 * 65535 := by
  have hname : u16 bytes (entry.localHeaderOffset + 26) < 65536 := u16_lt
  have hextra : u16 bytes (entry.localHeaderOffset + 28) < 65536 := u16_lt
  rw [dataOffset] at h
  split at h
  · simp at h
  split at h
  · simp at h
  obtain rfl := Option.some.inj h
  omega

theorem computeDataOffset_parses
    (hsize : bytes.length < 2 ^ 63) (hlocal : entry.localHeaderOffset + 30 < word)
    (hdata : ∀ start, dataOffset bytes entry = some start →
      start + entry.compressedSize < word) :
    Parses (computeDataOffset bytes entry) (locate bytes entry) := by
  have hword : word = 2 ^ 64 := rfl
  have hname : u16 bytes (entry.localHeaderOffset + 26) < 65536 := u16_lt
  have hextra : u16 bytes (entry.localHeaderOffset + 28) < 65536 := u16_lt
  rw [computeDataOffset, add_eq hlocal, pure_bind, locate]
  by_cases hinside : bytes.length < entry.localHeaderOffset + 30
  · rw [errorIf, if_pos hinside, dataOffset, if_pos hinside]
    exact parses_error _ _
  rw [errorIf, if_neg hinside, pure_bind, readU32_eq (by omega), pure_bind]
  by_cases hsignature : u32 bytes entry.localHeaderOffset ≠ kLocalFileHeader
  · rw [errorIf, if_pos hsignature, dataOffset, if_neg hinside, if_pos hsignature]
    exact parses_error _ _
  have hstart : dataOffset bytes entry =
      some (entry.localHeaderOffset + 30 + u16 bytes (entry.localHeaderOffset + 26) +
        u16 bytes (entry.localHeaderOffset + 28)) := by
    rw [dataOffset, if_neg hinside, if_neg hsignature]
  have hsum := hdata _ hstart
  rw [errorIf, if_neg hsignature, pure_bind, readU16_eq (by omega), pure_bind,
    readU16_eq (by omega), pure_bind, pure_bind, add_eq (by omega), pure_bind,
    add_eq (by omega), pure_bind, add_eq hsum, pure_bind, hstart]
  exact parses_check (fun _ => acts_pure _)

end LocalHeaders

end Pth
end RwkvLightning

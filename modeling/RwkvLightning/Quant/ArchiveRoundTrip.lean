import RwkvLightning.Quant.ArchiveSafety

/-!
# Writing and reading a quantized archive

`QuantizedWriter` writes the layout that `QuantizedArchive::open` reads.  Three things that
the writer lets pass the reader does not: a name of more than `2 ^ 20` bytes, a name that
is already there, and 16-bit numbers whose length in bytes does not fit 64 bits.

**Results.**
* `append_ok`: what a successful `append` has written.
* `written_bytes`: a run of the writer that reports success leaves an archive.
* `roundTrip_iff`: when the reader gives back what was written.
-/

namespace RwkvLightning
namespace Quantized

open LittleEndian Cursor

section Claim

/-- `append` for each tensor, where all of them report success. -/
def appendAll (disk : Disk) : List Tensor → QuantizedWriter → Option QuantizedWriter
  | [], writer => some writer
  | tensor :: tensors, writer =>
      match writer.append disk tensor with
      | (none, writer) => appendAll disk tensors writer
      | (some _, _) => none

/-- The output after a run of the writer in which every call reports success. -/
def written (disk : Disk) (opened : Bool) (tensorCount : UInt32) (tensors : List Tensor) :
    Option Bytes :=
  match appendAll disk tensors (QuantizedWriter.new disk opened tensorCount) with
  | some writer =>
      match writer.close with
      | (none, writer) => some writer.file.bytes
      | (some _, _) => none
  | none => none

/-- The record and what can be read with it are those of the tensor. -/
structure SameTensor (file : Bytes) (archive : QuantizedArchive) (tensor : Tensor)
    (record : QuantizedTensorRecord) : Prop where
  name_eq : record.name = tensor.name
  dtype_eq : record.dtype = tensor.dtype
  shape_eq : record.shape = tensor.shape
  group_eq : record.quantGroupSize = tensor.quantGroupSize
  data_eq : archive.readData (some file) record = .ok tensor.data
  count_eq : record.scaleCount = tensor.scales.length
  scales_eq : isIntegerQuantized tensor.dtype = true →
    archive.readScales (some file) record = .ok tensor.scales

/-- `open` accepts the file and returns the tensors in order. -/
def RoundTrip (path file : Bytes) (tensors : List Tensor) : Prop :=
  ∃ archive, openArchive path (some file) = .ok archive ∧
    List.Forall₂ (SameTensor file archive) tensors archive.records

end Claim

section Writer

variable {disk : Disk} {writer next : QuantizedWriter} {file : OutFile} {tensor : Tensor}
  {tensors : List Tensor}

/-- A write that leaves the output good has written its bytes. -/
theorem write_good {part : Bytes} (h : (file.write disk part).good = true) :
    file.good = true ∧ (file.write disk part).bytes = file.bytes ++ part ∧
      file.bytes.length + part.length ≤ disk.capacity := by
  rw [OutFile.write] at h ⊢
  split at h
  · rename_i hfits
    rw [if_pos hfits]
    exact ⟨hfits.1, rfl, hfits.2⟩
  · cases h

theorem length_write_le {part : Bytes} (hsize : file.bytes.length ≤ disk.capacity) :
    (file.write disk part).bytes.length ≤ disk.capacity := by
  rw [OutFile.write]
  split
  · rename_i hfits
    rw [List.length_append]
    exact hfits.2
  · exact hsize

theorem length_writeAll_le {parts : List Bytes} (hsize : file.bytes.length ≤ disk.capacity) :
    (file.writeAll disk parts).bytes.length ≤ disk.capacity := by
  induction parts generalizing file with
  | nil => exact hsize
  | cons part parts ih => exact ih (length_write_le hsize)

theorem writeAll_good {parts : List Bytes} (h : (file.writeAll disk parts).good = true) :
    file.good = true ∧ (file.writeAll disk parts).bytes = file.bytes ++ parts.flatten := by
  induction parts generalizing file with
  | nil => exact ⟨h, (List.append_nil _).symm⟩
  | cons part parts ih =>
      obtain ⟨hfirst, hrest⟩ := ih h
      obtain ⟨hgood, hbytes, -⟩ := write_good hfirst
      refine ⟨hgood, ?_⟩
      show ((file.write disk part).writeAll disk parts).bytes = _
      rw [hrest, hbytes, List.flatten_cons, List.append_assoc]

/-- The entry that the writer makes of a tensor. -/
def Tensor.entry (tensor : Tensor) : Entry where
  name := tensor.name
  dtype := tensor.dtype
  reserved := if tensor.dtype = .int4 then tensor.quantGroupSize else 0
  shape := tensor.shape
  data := tensor.data
  scales := tensor.scales

theorem flatten_parts (tensor : Tensor) :
    (QuantizedWriter.parts tensor).flatten = tensor.entry.bytes := by
  have hdata : (if tensor.data = [] then [] else [tensor.data]).flatten = tensor.data := by
    split
    · rename_i h
      rw [h]
      rfl
    · exact List.append_nil _
  have hshape : (tensor.shape.map fun dim => encode 8 (u64 dim)).flatten =
      shapeBytes tensor.shape := rfl
  rw [QuantizedWriter.parts, List.flatten_append, List.flatten_append, List.flatten_append,
    hdata, hshape, Entry.bytes, TensorHeader.bytes]
  cases hint : isIntegerQuantized tensor.dtype <;>
    simp [Tensor.entry, Entry.header, scalePart, scaleBytes, hint]

/-- What the test of the arguments lets pass. -/
structure Tensor.Writable (tensor : Tensor) : Prop where
  name_ne : tensor.name ≠ []
  nonneg : ∀ dim ∈ tensor.shape, 0 ≤ dim
  rank_ne : isIntegerQuantized tensor.dtype = true → tensor.shape ≠ []
  rank_le : tensor.shape.length ≤ 16
  int4 : tensor.dtype = .int4 → Int4Metadata tensor.shape tensor.quantGroupSize
  group_eq : tensor.dtype ≠ .int4 → tensor.quantGroupSize = 0
  data_eq : tensor.data.length =
    dataBytes tensor.dtype tensor.shape (checkedNumel tensor.shape)
  scales_eq : isIntegerQuantized tensor.dtype = true →
    tensor.scales.length = scaleCountOf tensor.dtype tensor.shape tensor.quantGroupSize
  scales_nil : isIntegerQuantized tensor.dtype = false → tensor.scales = []

theorem writable_of_valid (h : ¬writer.invalid tensor) :
    tensor.Writable ∧ writer.closed = false ∧ writer.count < writer.expectedCount.toNat := by
  simp only [QuantizedWriter.invalid, not_or, not_and, not_not, Nat.not_lt, Nat.not_le,
    Bool.not_eq_true] at h
  obtain ⟨hclosed, hcount, hname, -, -, hnonneg, hrank, hlong, hint4, hgroup, hdata, hscales,
    hnil⟩ := h
  refine ⟨?_, hclosed, hcount⟩
  by_cases hdtype : tensor.dtype = .int4
  · obtain ⟨htwo, hsize, hdataOver, hscaleOver⟩ := hint4 hdtype
    have hne : tensor.shape ≠ [] := by
      intro hempty
      rw [hempty] at htwo
      cases htwo
    have hsize : tensor.quantGroupSize = 32 ∨ tensor.quantGroupSize = 128 :=
      or_iff_not_imp_left.mpr hsize
    have hpos : tensor.quantGroupSize ≠ 0 := by
      rcases hsize with hsize | hsize <;> rw [hsize] <;> decide
    have hscales := hscales (integer_of_int4 hdtype)
    rw [if_neg hne, if_pos htwo] at hdataOver
    rw [if_neg hne, if_pos htwo, if_pos ⟨hdtype, hpos⟩] at hscaleOver
    rw [if_pos hdtype, if_neg hne, if_pos htwo, if_neg hdataOver] at hdata
    rw [if_pos hdtype, if_neg hne, if_pos htwo, if_pos ⟨hdtype, hpos⟩] at hscales
    refine ⟨hname, hnonneg, hrank, hlong, fun _ => ⟨htwo, hsize, hscaleOver⟩, hgroup, ?_,
      fun _ => ?_, hnil⟩
    · rw [dataBytes, hdtype, if_neg (by decide), if_pos ⟨rfl, htwo⟩, if_neg hdataOver]
      exact hdata
    · rw [scaleCountOf, if_pos hdtype]
      exact hscales
  · rw [if_neg hdtype] at hdata
    refine ⟨hname, hnonneg, hrank, hlong, fun h => absurd h hdtype, hgroup, ?_, fun hint => ?_,
      hnil⟩
    · rw [dataBytes, hdata]
      split
      · rfl
      · rw [if_neg fun h => hdtype h.1]
    · have hscales := hscales hint
      rw [if_neg hdtype, if_neg (hrank hint)] at hscales
      rw [scaleCountOf, if_neg hdtype]
      exact hscales

/-- What a successful `append` has written. -/
theorem append_ok (h : writer.append disk tensor = (none, next)) :
    tensor.Writable ∧ writer.closed = false ∧ next.closed = false ∧
      next.expectedCount = writer.expectedCount ∧ next.count = writer.count + 1 ∧
      writer.file.good = true ∧ next.file.bytes = writer.file.bytes ++ tensor.entry.bytes ∧
      (writer.file.bytes.length ≤ disk.capacity → next.file.bytes.length ≤ disk.capacity) := by
  rw [QuantizedWriter.append] at h
  split at h
  · cases h
  · split at h
    · cases h
    · rename_i hvalid
      dsimp only at h
      split at h
      · cases h
      · rename_i hgood
        obtain ⟨hwritable, hclosed, -⟩ := writable_of_valid hvalid
        obtain ⟨hold, hbytes⟩ := writeAll_good (Bool.not_eq_false _ ▸ hgood)
        cases h
        rw [flatten_parts] at hbytes
        exact ⟨hwritable, hclosed, hclosed, rfl, rfl, hold, hbytes, length_writeAll_le⟩

/-- What a run of successful calls of `append` has written. -/
theorem appendAll_ok (h : appendAll disk tensors writer = some next)
    (hsize : writer.file.bytes.length ≤ disk.capacity) :
    (∀ tensor ∈ tensors, tensor.Writable) ∧
      next.expectedCount = writer.expectedCount ∧ next.count = writer.count + tensors.length ∧
      next.file.bytes =
        writer.file.bytes ++ (tensors.map Tensor.entry).flatMap Entry.bytes ∧
      next.file.bytes.length ≤ disk.capacity ∧ (writer.closed = false → next.closed = false) ∧
      (next.file.good = true → writer.file.good = true) := by
  induction tensors generalizing writer with
  | nil =>
      cases h
      exact ⟨by simp, rfl, rfl, by simp, hsize, fun hclosed => hclosed, fun hgood => hgood⟩
  | cons tensor tensors ih =>
      rw [appendAll] at h
      split at h
      · rename_i mid happend
        obtain ⟨hwritable, -, hmidClosed, hmidExpected, hmidCount, hgood, hmidBytes, hmidSize⟩ :=
          append_ok happend
        obtain ⟨hall, hexpected, hcount, hbytes, hcapacity, hclosed, -⟩ := ih h (hmidSize hsize)
        refine ⟨List.forall_mem_cons.mpr ⟨hwritable, hall⟩, hexpected.trans hmidExpected, ?_, ?_,
          hcapacity, fun _ => hclosed hmidClosed, fun _ => hgood⟩
        · rw [hcount, hmidCount, List.length_cons]
          omega
        · rw [hbytes, hmidBytes, List.map_cons, List.flatMap_cons, List.append_assoc]
      · cases h

theorem close_ok (hclosed : writer.closed = false) (h : writer.close = (none, next)) :
    writer.file.good = true ∧ writer.count = writer.expectedCount.toNat ∧
      next.file = writer.file := by
  rw [QuantizedWriter.close, if_neg (by rw [hclosed]; decide)] at h
  dsimp only at h
  split at h
  · cases h
  · rename_i hgood
    split at h
    · cases h
    · rename_i hcount
      cases h
      exact ⟨Bool.not_eq_false _ ▸ hgood, not_not.mp hcount, rfl⟩

theorem length_new_le (disk : Disk) (opened : Bool) (tensorCount : UInt32) :
    (QuantizedWriter.new disk opened tensorCount).file.bytes.length ≤ disk.capacity := by
  rw [QuantizedWriter.new]
  cases opened
  · exact Nat.zero_le _
  · exact length_writeAll_le (Nat.zero_le _)

theorem new_good {opened : Bool} {tensorCount : UInt32}
    (h : (QuantizedWriter.new disk opened tensorCount).file.good = true) :
    (QuantizedWriter.new disk opened tensorCount).file.bytes =
      kMagic ++ (encode 4 kVersion ++ encode 4 tensorCount.toNat) := by
  rw [QuantizedWriter.new] at h ⊢
  cases opened
  · cases h
  · exact (writeAll_good h).2.trans (by simp)

/-- A run of the writer that reports success leaves an archive. -/
theorem written_bytes {opened : Bool} {tensorCount : UInt32} {bytes : Bytes}
    (h : written disk opened tensorCount tensors = some bytes) :
    (∀ tensor ∈ tensors, tensor.Writable) ∧ tensors.length < 2 ^ 32 ∧
      bytes = archiveBytes (tensors.map Tensor.entry) ∧ bytes.length < 2 ^ 63 := by
  rw [written] at h
  split at h
  · rename_i last hlast
    obtain ⟨hall, hexpected, hcount, hbytes, hcapacity, hclosed, hstart⟩ :=
      appendAll_ok hlast (length_new_le disk opened tensorCount)
    split at h
    · rename_i final hclose
      cases h
      obtain ⟨hgood, hsame, hfile⟩ := close_ok (hclosed rfl) hclose
      have hlength : tensors.length = tensorCount.toNat := by
        rw [hexpected, hcount] at hsame
        exact (Nat.zero_add _).symm.trans hsame
      rw [hfile]
      refine ⟨hall, ?_, ?_, lt_of_le_of_lt hcapacity disk.capacity_lt⟩
      · rw [hlength]
        exact tensorCount.toNat_lt
      · rw [hbytes, new_good (hstart hgood), archiveBytes, List.length_map, hlength,
          List.append_assoc, List.append_assoc]
    · cases h
  · cases h

end Writer

section RoundTrip

variable {disk : Disk} {opened : Bool} {tensorCount : UInt32} {path file : Bytes}
  {tensor : Tensor} {tensors : List Tensor}

/-- What the reader asks for beyond the tests of the writer. -/
def Tensor.Readable (tensor : Tensor) : Prop :=
  tensor.name.length ≤ 2 ^ 20 ∧
    (isIntegerQuantized tensor.dtype = false → checkedNumel tensor.shape ≤ 2 ^ 63 - 1)

theorem Tensor.entry_group (h : tensor.Writable) : tensor.entry.group = tensor.quantGroupSize := by
  rw [Entry.group, Tensor.entry]
  split
  · rfl
  · rename_i hdtype
    exact (h.group_eq hdtype).symm

theorem Tensor.admissible_iff (h : tensor.Writable) :
    tensor.entry.Admissible ↔ tensor.Readable := by
  have hgroup := Tensor.entry_group h
  constructor
  · intro hadmissible
    exact ⟨hadmissible.name_le, hadmissible.numel_le⟩
  · rintro ⟨hname, hnumel⟩
    refine ⟨h.name_ne, hname, h.rank_le, h.rank_ne, h.nonneg, hnumel, h.data_eq, ?_, ?_,
      h.scales_nil⟩
    · rw [hgroup]
      exact h.int4
    · rw [hgroup]
      exact h.scales_eq

/-- The records of the entries of the tensors are those of the tensors. -/
theorem forall₂_sameTensor {archive : QuantizedArchive} {pos : Nat}
    (hwritable : ∀ tensor ∈ tensors, tensor.Writable)
    (hadmissible : ∀ tensor ∈ tensors, tensor.entry.Admissible) (hfile : file.length < 2 ^ 63)
    (harchive : archive.fileSize = file.length)
    (hat : HasAt file pos ((tensors.map Tensor.entry).flatMap Entry.bytes)) :
    List.Forall₂ (SameTensor file archive) tensors
      (recordsFrom pos (tensors.map Tensor.entry)) := by
  induction tensors generalizing pos with
  | nil => exact List.Forall₂.nil
  | cons tensor tensors ih =>
      rw [List.map_cons, List.flatMap_cons, hasAt_append] at hat
      rw [List.forall_mem_cons] at hwritable hadmissible
      refine List.Forall₂.cons ?_ (ih hwritable.2 hadmissible.2 hat.2)
      exact ⟨rfl, rfl, rfl, Tensor.entry_group hwritable.1,
        hadmissible.1.readData_eq harchive hat.1, rfl,
        fun hint => hadmissible.1.readScales_eq hint hfile harchive hat.1⟩

/-- Tensors that the reader gives back stand in admissible entries. -/
theorem readable_of_sameTensor {archive : QuantizedArchive} {entries : List Entry} {pos : Nat}
    (hadmissible : ∀ entry ∈ entries, entry.Admissible)
    (h : List.Forall₂ (SameTensor file archive) tensors (recordsFrom pos entries)) :
    tensors.map Tensor.name = entries.map Entry.name ∧ ∀ tensor ∈ tensors, tensor.Readable := by
  induction entries generalizing pos tensors with
  | nil =>
      cases h
      exact ⟨rfl, fun _ hmem => absurd hmem List.not_mem_nil⟩
  | cons entry entries ih =>
      rw [List.forall_mem_cons] at hadmissible
      cases h with
      | @cons tensor _ tensors _ hsame hrest =>
          obtain ⟨hnames, hall⟩ := ih hadmissible.2 hrest
          have hname : entry.name = tensor.name := hsame.name_eq
          have hdtype : entry.dtype = tensor.dtype := hsame.dtype_eq
          have hshape : entry.shape = tensor.shape := hsame.shape_eq
          refine ⟨by rw [List.map_cons, List.map_cons, hnames, hname],
            List.forall_mem_cons.mpr ⟨⟨?_, fun hint => ?_⟩, hall⟩⟩
          · rw [← hname]
            exact hadmissible.1.name_le
          · rw [← hdtype] at hint
            rw [← hshape]
            exact hadmissible.1.numel_le hint

/-- **The reader gives back what was written if and only if the names are distinct, none has
more than `2 ^ 20` bytes, and 64 bits hold the bytes of 16-bit numbers.** -/
theorem roundTrip_iff (h : written disk opened tensorCount tensors = some file) :
    RoundTrip path file tensors ↔
      (tensors.map Tensor.name).Nodup ∧ ∀ tensor ∈ tensors, tensor.Readable := by
  obtain ⟨hwritable, hcount, rfl, hsize⟩ := written_bytes h
  constructor
  · rintro ⟨archive, hopen, hsame⟩
    obtain ⟨entries, hlayout, rfl⟩ := openArchive_eq_ok.mp hopen
    obtain ⟨hnames, hall⟩ := readable_of_sameTensor hlayout.admissible hsame
    rw [hnames]
    exact ⟨hlayout.names_nodup, hall⟩
  · rintro ⟨hnodup, hreadable⟩
    have hadmissible : ∀ tensor ∈ tensors, tensor.entry.Admissible := fun tensor hmem =>
      (Tensor.admissible_iff (hwritable tensor hmem)).mpr (hreadable tensor hmem)
    have hlayout : Layout (archiveBytes (tensors.map Tensor.entry))
        (tensors.map Tensor.entry) := by
      refine ⟨hsize, by rw [List.length_map]; exact hcount, ?_, ?_, hasAt_self⟩
      · intro entry hentry
        obtain ⟨tensor, hmem, rfl⟩ := List.mem_map.mp hentry
        exact hadmissible tensor hmem
      · rw [List.map_map]
        exact hnodup
    have hat := hlayout.hasAt
    rw [archiveBytes, hasAt_append, hasAt_append, hasAt_append, length_encode, length_encode]
      at hat
    exact ⟨_, openArchive_of_layout path hlayout,
      forall₂_sameTensor hwritable hadmissible hsize rfl hat.2.2.2⟩

/-- A tensor of 8-bit numbers with a scale for its row. -/
def int8Row : Tensor where
  name := [0x77]
  dtype := .int8
  shape := [1, 2]
  data := [5, 6]
  scales := [7]
  quantGroupSize := 0

theorem roundTrip_iff_int8Row :
    ∃ file, written ⟨2 ^ 62, by decide⟩ true 1 [int8Row] = some file ∧
      (RoundTrip [] file [int8Row] ↔
        ([int8Row].map Tensor.name).Nodup ∧ ∀ tensor ∈ [int8Row], tensor.Readable) := by
  have hwritten : ∃ file, written ⟨2 ^ 62, by decide⟩ true 1 [int8Row] = some file :=
    Option.isSome_iff_exists.mp (by decide +kernel)
  obtain ⟨file, hfile⟩ := hwritten
  exact ⟨file, hfile, roundTrip_iff hfile⟩

/-- 16-bit numbers, `2 ^ 63` of them by the shape; their length in bytes wraps to 0. -/
def wrappedTensor : Tensor where
  name := [0x77]
  dtype := .bFloat16
  shape := [2 ^ 62, 2]
  data := []
  scales := []
  quantGroupSize := 0

theorem not_roundTrip_of_error {failure : Failure}
    (h : openArchive path (some file) = .error failure) : ¬RoundTrip path file tensors := by
  rintro ⟨archive, hopen, -⟩
  rw [h] at hopen
  cases hopen

/-- The writer reports success for a tensor whose length wraps, and for the same tensor
twice, and the reader rejects both files. -/
theorem written_rejected :
    (∃ file, written ⟨2 ^ 62, by decide⟩ true 1 [wrappedTensor] = some file ∧
      openArchive [] (some file) = .error ⟨"quantized tensor is too large: ", [0x77]⟩ ∧
      ¬RoundTrip [] file [wrappedTensor]) ∧
    ∃ file, written ⟨2 ^ 62, by decide⟩ true 2 [int8Row, int8Row] = some file ∧
      openArchive [] (some file) = .error ⟨"duplicate quantized tensor: ", [0x77]⟩ ∧
      ¬RoundTrip [] file [int8Row, int8Row] := by
  have hlarge : openArchive [] (some (archiveBytes [wrappedTensor.entry])) =
      .error ⟨"quantized tensor is too large: ", [0x77]⟩ := by
    decide +kernel
  have hduplicate : openArchive [] (some (archiveBytes [int8Row.entry, int8Row.entry])) =
      .error ⟨"duplicate quantized tensor: ", [0x77]⟩ := by
    decide +kernel
  exact ⟨⟨_, by decide +kernel, hlarge, not_roundTrip_of_error hlarge⟩,
    ⟨_, by decide +kernel, hduplicate, not_roundTrip_of_error hduplicate⟩⟩

end RoundTrip

end Quantized
end RwkvLightning

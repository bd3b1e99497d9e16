import RwkvLightning.Quant.ArchiveLayout
import Mathlib

/-!
# What an accepted archive promises

`Sound file archive`: each record of `archive` counts its elements, its data and its scales
lie inside the file with the lengths that the type and the shape ask for, no two of them
share a byte, and what `read_data` and `read_scales` return has a place for every element
of the shape.

`checked_numel` returns 0 for a product that 64 bits do not hold, and `open` compares it
with the number in the header.  A header with 0 elements gets past that test, whatever its
dimensions multiply to.

**Results.**
* `dataBytes_eq_required`, `scaleCount_eq_required`: the lengths, where 64 bits hold the
  product.
* `occupied_pairwise_disjoint`: the records of a layout share no byte.
* `openArchive_sound_iff`: an accepted archive is sound if and only if 64 bits hold the
  product of the dimensions in each header.
* `find_exact`: each tensor of an accepted archive is found under its name.
-/

namespace RwkvLightning
namespace Quantized

open LittleEndian Cursor

section Required

/-- The elements of a row: a slice along the first dimension. -/
def rowSize (shape : List Int64) : Nat :=
  elements shape.tail

/-- The length of the data of a tensor. -/
def requiredData (dtype : QuantizedDType) (shape : List Int64) : Nat :=
  match dtype with
  | .int8 => elements shape
  | .int4 => rowsOf shape * ((rowSize shape + 1) / 2)
  | .bFloat16 | .float16 => 2 * elements shape

/-- The number of scales of a tensor: one for a row, or for each group of a row. -/
def requiredScales (dtype : QuantizedDType) (shape : List Int64) (group : UInt16) : Nat :=
  match dtype with
  | .int8 => rowsOf shape
  | .int4 => rowsOf shape * ((rowSize shape + group.toNat - 1) / group.toNat)
  | .bFloat16 | .float16 => 0

/-- The last byte of the data that a read of element `i` touches. -/
def byteOf (dtype : QuantizedDType) (shape : List Int64) (i : Nat) : Nat :=
  match dtype with
  | .int8 => i
  | .int4 => i / rowSize shape * ((rowSize shape + 1) / 2) + i % rowSize shape / 2
  | .bFloat16 | .float16 => 2 * i + 1

/-- The scale of element `i`. -/
def scaleOf (dtype : QuantizedDType) (shape : List Int64) (group : UInt16) (i : Nat) : Nat :=
  match dtype with
  | .int4 =>
      i / rowSize shape * ((rowSize shape + group.toNat - 1) / group.toNat) +
        i % rowSize shape / group.toNat
  | .bFloat16 | .float16 | .int8 => i / rowSize shape

end Required

/-- The bytes of the file that a record claims. -/
def QuantizedTensorRecord.occupied (record : QuantizedTensorRecord) : Set Nat :=
  Set.Ico record.dataOffset (record.dataOffset + record.dataBytes) ∪
    Set.Ico record.scaleOffset (record.scaleOffset + 2 * record.scaleCount)

/-- What a record of an archive promises about the file. -/
structure RecordSound (file : Bytes) (archive : QuantizedArchive)
    (record : QuantizedTensorRecord) : Prop where
  numel_eq : record.numel = elements record.shape
  data_length : record.dataBytes = requiredData record.dtype record.shape
  scale_length : record.scaleCount =
    requiredScales record.dtype record.shape record.quantGroupSize
  data_inside : record.dataOffset + record.dataBytes ≤ file.length
  scales_inside : record.scaleOffset + 2 * record.scaleCount ≤ file.length
  apart : Disjoint (Set.Ico record.dataOffset (record.dataOffset + record.dataBytes))
    (Set.Ico record.scaleOffset (record.scaleOffset + 2 * record.scaleCount))
  data_read : ∃ data, archive.readData (some file) record = .ok data ∧
    ∀ i < elements record.shape, byteOf record.dtype record.shape i < data.length
  scales_read : isIntegerQuantized record.dtype = true →
    ∃ scales, archive.readScales (some file) record = .ok scales ∧
      ∀ i < elements record.shape,
        scaleOf record.dtype record.shape record.quantGroupSize i < scales.length

/-- What an archive promises about the file. -/
structure Sound (file : Bytes) (archive : QuantizedArchive) : Prop where
  record_sound : ∀ record ∈ archive.records, RecordSound file archive record
  disjoint : archive.records.Pairwise fun r s => Disjoint r.occupied s.occupied

/-- The shapes in the headers of a file. -/
def declaredShapes (file : Bytes) : Set (List Int64) :=
  {shape | ∃ entries, Layout file entries ∧ shape ∈ entries.map Entry.shape}

section Shapes

variable {shape : List Int64} {group : UInt16} {i : Nat}

theorem elements_eq_rows_mul (hshape : shape ≠ []) :
    elements shape = rowsOf shape * rowSize shape := by
  match shape with
  | dim :: dims => rw [elements, List.map_cons, List.prod_cons]; rfl

theorem rowSize_eq_cols (hrank : shape.length = 2) : rowSize shape = colsOf shape := by
  match shape, hrank with
  | [rows, cols], _ => simp [rowSize, elements, colsOf]

theorem rowBytes_eq (cols : Nat) : rowBytes cols = (cols + 1) / 2 := by
  rw [rowBytes]
  omega

theorem groupsOf_eq {cols group : Nat} (hgroup : 0 < group) :
    groupsOf cols group = (cols + group - 1) / group := by
  have hsplit := Nat.div_add_mod cols group
  have hlt := Nat.mod_lt cols hgroup
  rw [groupsOf, eq_comm]
  generalize hq : cols / group = q at hsplit ⊢
  generalize hr : cols % group = r at hsplit hlt ⊢
  by_cases hzero : r = 0
  · rw [if_neg (not_not.mpr hzero), Nat.add_zero]
    refine Nat.div_eq_of_lt_le ?_ ?_
    · rw [Nat.mul_comm]
      omega
    · rw [Nat.succ_mul, Nat.mul_comm]
      omega
  · rw [if_pos hzero]
    refine Nat.div_eq_of_lt_le ?_ ?_
    · rw [Nat.succ_mul, Nat.mul_comm]
      omega
    · rw [Nat.succ_mul, Nat.succ_mul, Nat.mul_comm]
      omega

theorem row_lt (hshape : shape ≠ []) (hi : i < elements shape) :
    i / rowSize shape < rowsOf shape := by
  rw [elements_eq_rows_mul hshape] at hi
  exact Nat.div_lt_of_lt_mul (by rw [Nat.mul_comm]; exact hi)

/-- A place inside a row is a place inside all rows. -/
theorem place_lt {rows width row k : Nat} (hrow : row < rows) (hk : k < width) :
    row * width + k < rows * width := by
  have hle := Nat.mul_le_mul_right width (Nat.succ_le_of_lt hrow)
  rw [Nat.succ_mul] at hle
  omega

theorem mod_rowSize_lt (hi : i < elements shape) (hshape : shape ≠ []) :
    i % rowSize shape < rowSize shape := by
  rw [elements_eq_rows_mul hshape] at hi
  refine Nat.mod_lt _ (Nat.pos_of_ne_zero fun hzero => ?_)
  rw [hzero, Nat.mul_zero] at hi
  omega

/-- The data have a place for each element. -/
theorem byteOf_lt {dtype : QuantizedDType} (hi : i < elements shape)
    (hshape : isIntegerQuantized dtype = true → shape ≠ []) :
    byteOf dtype shape i < requiredData dtype shape := by
  cases dtype with
  | bFloat16 | float16 =>
      rw [byteOf, requiredData]
      omega
  | int8 => exact hi
  | int4 =>
      have hne := hshape rfl
      have hmod := mod_rowSize_lt hi hne
      exact place_lt (row_lt hne hi) (by omega)

/-- The scales have one for each element. -/
theorem scaleOf_lt {dtype : QuantizedDType} (hint : isIntegerQuantized dtype = true)
    (hshape : shape ≠ []) (hgroup : dtype = .int4 → 0 < group.toNat)
    (hi : i < elements shape) :
    scaleOf dtype shape group i < requiredScales dtype shape group := by
  cases dtype with
  | bFloat16 | float16 => cases hint
  | int8 => exact row_lt hshape hi
  | int4 =>
      have hpos := hgroup rfl
      have hmod := mod_rowSize_lt hi hshape
      have hlast : i % rowSize shape / group.toNat <
          (rowSize shape + group.toNat - 1) / group.toNat := by
        rw [Nat.lt_iff_add_one_le, Nat.le_div_iff_mul_le hpos, Nat.add_one_mul]
        have hle := Nat.div_mul_le_self (i % rowSize shape) group.toNat
        omega
      exact place_lt (row_lt hshape hi) hlast

end Shapes

section Reads

variable {file : Bytes} {archive : QuantizedArchive} {record : QuantizedTensorRecord}

/-- `read_data` returns what stands at the place of the data. -/
theorem readData_of_hasAt {data : Bytes} (harchive : archive.fileSize = file.length)
    (hat : HasAt file record.dataOffset data) (hlength : data.length = record.dataBytes) :
    archive.readData (some file) record = .ok data := by
  have hin := hat.le_length
  have hrange : ¬(archive.fileSize < record.dataOffset ∨
      archive.fileSize - record.dataOffset < record.dataBytes) := by
    rw [harchive]
    omega
  rw [QuantizedArchive.readData, if_neg hrange]
  by_cases hzero : record.dataBytes = 0
  · rw [hzero] at hlength
    rw [List.length_eq_zero_iff.mp hlength]
    exact if_pos hzero
  · have htext := text_eq_ok (e := (⟨"failed to read quantized tensor: ", record.name⟩ : Failure))
      |>.mpr ⟨hat, hlength, rfl⟩
    show (if record.dataBytes = 0 then _ else _) = _
    rw [if_neg hzero, htext]
    rfl

/-- `read_scales` returns what stands at the place of the scales. -/
theorem readScales_of_hasAt {scales : List UInt16} (hint : isIntegerQuantized record.dtype = true)
    (hfile : file.length < 2 ^ 63) (harchive : archive.fileSize = file.length)
    (hat : HasAt file record.scaleOffset (scaleBytes scales))
    (hlength : scales.length = record.scaleCount) :
    archive.readScales (some file) record = .ok scales := by
  have hin := hat.le_length
  rw [length_scaleBytes, hlength] at hin
  have hbytes : record.scaleCount * 2 % word = 2 * record.scaleCount := by
    rw [word]
    omega
  have hrange : ¬(isIntegerQuantized record.dtype = false ∨
      archive.fileSize < record.scaleOffset ∨
      archive.fileSize - record.scaleOffset < 2 * record.scaleCount) := by
    rw [harchive, hint, Bool.true_eq_false, false_or]
    omega
  have hwhole : ¬(file.length < record.scaleOffset + record.scaleCount * 2 ∧
      record.scaleCount ≠ 0) := by
    omega
  have hvalues : numbers file record.scaleOffset 2 record.scaleCount =
      scales.map UInt16.toNat := by
    rw [scaleBytes, ← List.flatMap_map] at hat
    have hnumbers := numbers_eq_of_hasAt hat fun n hn => by
      obtain ⟨scale, -, rfl⟩ := List.mem_map.mp hn
      exact scale.toNat_lt
    rw [List.length_map, hlength] at hnumbers
    exact hnumbers
  have hcast : (scales.map UInt16.toNat).map UInt16.ofNat = scales := by
    rw [List.map_map]
    exact (List.map_congr_left fun scale _ => UInt16.ofNat_toNat).trans (List.map_id _)
  simp only [QuantizedArchive.readScales, hbytes]
  rw [if_neg hrange, if_neg hwhole, hvalues, hcast]

end Reads

namespace Entry

variable {entry : Entry} {file path : Bytes} {pos : Nat}

theorem Admissible.group_pos (h : entry.Admissible) (hint4 : entry.dtype = .int4) :
    0 < entry.group.toNat := by
  obtain ⟨-, hgroup, -⟩ := h.int4 hint4
  rcases hgroup with hgroup | hgroup <;> rw [hgroup] <;> decide

/-- The length of the data, where 64 bits hold the product of the dimensions. -/
theorem Admissible.dataBytes_eq_required (h : entry.Admissible)
    (hsize : entry.data.length < 2 ^ 63) (hproduct : elements entry.shape < word) :
    entry.data.length = requiredData entry.dtype entry.shape := by
  have hnumel := checkedNumel_eq h.nonneg
  rw [if_pos hproduct] at hnumel
  have hdata := h.data_eq
  rw [hnumel, dataBytes] at hdata
  rw [hdata]
  cases hdtype : entry.dtype with
  | bFloat16 | float16 =>
      have hle := h.numel_le (by rw [hdtype]; rfl)
      rw [hnumel, maxWord, word] at hle
      rw [if_neg (by decide), if_neg (by simp), requiredData, word]
      omega
  | int8 => rw [if_pos rfl, requiredData]
  | int4 =>
      obtain ⟨hrank, -, -⟩ := h.int4 hdtype
      rw [hdtype, if_neg (by decide), if_pos ⟨rfl, hrank⟩] at hdata
      rw [if_neg (by decide), if_pos ⟨rfl, hrank⟩]
      have hover : ¬overflows (rowsOf entry.shape) (rowBytes (colsOf entry.shape)) := by
        intro hover
        rw [if_pos hover, maxWord, word] at hdata
        omega
      rw [if_neg hover, requiredData, rowSize_eq_cols hrank, ← rowBytes_eq]
      rw [overflows_iff, Nat.not_le] at hover
      exact Nat.mod_eq_of_lt hover

/-- The number of the scales. -/
theorem Admissible.scaleCount_eq_required (h : entry.Admissible) :
    entry.scales.length = requiredScales entry.dtype entry.shape entry.group := by
  cases hdtype : entry.dtype with
  | bFloat16 | float16 =>
      rw [h.scales_nil (by rw [hdtype]; rfl)]
      rfl
  | int8 =>
      rw [h.scales_eq (by rw [hdtype]; rfl), scaleCountOf, hdtype]
      rfl
  | int4 =>
      obtain ⟨hrank, -, hover⟩ := h.int4 hdtype
      rw [overflows_iff, Nat.not_le] at hover
      rw [h.scales_eq (by rw [hdtype]; rfl), scaleCountOf, hdtype, if_pos rfl, requiredScales,
        rowSize_eq_cols hrank, ← groupsOf_eq (h.group_pos hdtype)]
      exact Nat.mod_eq_of_lt hover

theorem Admissible.record_dataBytes (h : entry.Admissible) (pos : Nat) :
    (entry.record pos).dataBytes = entry.data.length :=
  h.data_eq.symm

/-- The scales of a record end where the entry ends; without scales the range is empty. -/
theorem Admissible.scales_end (h : entry.Admissible) (pos : Nat) :
    (isIntegerQuantized entry.dtype = true ∧
        (entry.record pos).scaleOffset = entry.dataOffset pos + entry.data.length + 8 ∧
        pos + entry.bytes.length =
          (entry.record pos).scaleOffset + 2 * (entry.record pos).scaleCount) ∨
      (isIntegerQuantized entry.dtype = false ∧ (entry.record pos).scaleOffset = 0 ∧
        (entry.record pos).scaleCount = 0) := by
  rw [entry.add_length_bytes, length_scalePart]
  cases hint : isIntegerQuantized entry.dtype with
  | true =>
      refine Or.inl ⟨rfl, ?_, ?_⟩
      · rw [record, if_pos hint]
      · rw [record, if_pos hint, if_pos rfl]
        dsimp only
        omega
  | false =>
      refine Or.inr ⟨rfl, ?_, ?_⟩
      · rw [record, if_neg (by rw [hint]; decide)]
      · rw [record, h.scales_nil hint]
        rfl

theorem Admissible.occupied_subset (h : entry.Admissible) :
    (entry.record pos).occupied ⊆ Set.Ico pos (pos + entry.bytes.length) := by
  have hlength := entry.add_length_bytes pos
  have hoffset : pos ≤ entry.dataOffset pos := by
    rw [dataOffset]
    omega
  rw [QuantizedTensorRecord.occupied, h.record_dataBytes]
  refine Set.union_subset (Set.Ico_subset_Ico hoffset ?_) ?_
  · show entry.dataOffset pos + _ ≤ _
    omega
  · rcases h.scales_end pos with ⟨-, hstart, hend⟩ | ⟨-, hstart, hcount⟩
    · rw [hend]
      exact Set.Ico_subset_Ico (by omega) (le_refl _)
    · rw [hcount, Nat.mul_zero, Nat.add_zero, Set.Ico_self]
      exact Set.empty_subset _

theorem Admissible.readData_eq {archive : QuantizedArchive} (h : entry.Admissible)
    (harchive : archive.fileSize = file.length) (hat : HasAt file pos entry.bytes) :
    archive.readData (some file) (entry.record pos) = .ok entry.data :=
  readData_of_hasAt harchive (entry.hasAt_bytes.mp hat).2.2.2.1 (h.record_dataBytes pos).symm

theorem Admissible.readScales_eq {archive : QuantizedArchive} (h : entry.Admissible)
    (hint : isIntegerQuantized entry.dtype = true) (hfile : file.length < 2 ^ 63)
    (harchive : archive.fileSize = file.length) (hat : HasAt file pos entry.bytes) :
    archive.readScales (some file) (entry.record pos) = .ok entry.scales := by
  have hscales := (entry.hasAt_bytes.mp hat).2.2.2.2
  rw [scalePart, if_pos hint, hasAt_append, length_encode] at hscales
  rcases h.scales_end pos with ⟨-, hstart, -⟩ | ⟨hnone, -⟩
  · rw [← hstart] at hscales
    exact readScales_of_hasAt hint hfile harchive hscales.2 rfl
  · rw [hint] at hnone
    cases hnone

/-- A record is sound where 64 bits hold the product of the dimensions. -/
theorem Admissible.record_sound {archive : QuantizedArchive} (h : entry.Admissible)
    (hfile : file.length < 2 ^ 63) (harchive : archive.fileSize = file.length)
    (hat : HasAt file pos entry.bytes) (hproduct : elements entry.shape < word) :
    RecordSound file archive (entry.record pos) := by
  have hin := hat.le_length
  rw [entry.add_length_bytes] at hin
  have hrequired := h.dataBytes_eq_required (by omega) hproduct
  have hbytes := h.record_dataBytes pos
  have hend := h.scales_end pos
  have hnumel := checkedNumel_eq h.nonneg
  rw [if_pos hproduct] at hnumel
  have hdata_in : entry.dataOffset pos + (entry.record pos).dataBytes ≤ file.length := by
    rw [hbytes]
    omega
  have hscales_in :
      (entry.record pos).scaleOffset + 2 * (entry.record pos).scaleCount ≤ file.length := by
    rw [← entry.add_length_bytes] at hin
    rcases hend with ⟨-, -, hend⟩ | ⟨-, hstart, hcount⟩ <;> omega
  refine ⟨hnumel, hbytes.trans hrequired, h.scaleCount_eq_required, hdata_in, hscales_in, ?_, ?_,
    ?_⟩
  · rcases hend with ⟨-, hstart, -⟩ | ⟨-, -, hcount⟩
    · rw [hbytes, hstart, Set.Ico_disjoint_Ico]
      have hoffset : (entry.record pos).dataOffset = entry.dataOffset pos := rfl
      omega
    · rw [hcount, Nat.mul_zero, Nat.add_zero, Set.Ico_self]
      exact Set.disjoint_empty _
  · refine ⟨_, h.readData_eq harchive hat, fun i hi => ?_⟩
    rw [hrequired]
    exact byteOf_lt hi h.rank_ne
  · intro hint
    refine ⟨_, h.readScales_eq hint hfile harchive hat, fun i hi => ?_⟩
    rw [h.scaleCount_eq_required]
    exact scaleOf_lt hint (h.rank_ne hint) h.group_pos hi

end Entry

section Records

variable {file path : Bytes} {pos : Nat} {entries : List Entry}

theorem map_shape_recordsFrom (pos : Nat) (entries : List Entry) :
    (recordsFrom pos entries).map QuantizedTensorRecord.shape = entries.map Entry.shape := by
  induction entries generalizing pos with
  | nil => rfl
  | cons entry entries ih => rw [recordsFrom, List.map_cons, ih, List.map_cons, Entry.record]

/-- A record comes from an entry at some place. -/
theorem exists_entry_of_mem {record : QuantizedTensorRecord}
    (hat : HasAt file pos (entries.flatMap Entry.bytes))
    (hmem : record ∈ recordsFrom pos entries) :
    ∃ entry ∈ entries, ∃ start, pos ≤ start ∧ HasAt file start entry.bytes ∧
      record = entry.record start := by
  induction entries generalizing pos with
  | nil => cases hmem
  | cons entry entries ih =>
      rw [List.flatMap_cons, hasAt_append] at hat
      rcases List.mem_cons.mp hmem with rfl | hrest
      · exact ⟨entry, List.mem_cons_self, pos, le_refl _, hat.1, rfl⟩
      · obtain ⟨found, hfound, start, hstart, hfoundAt, rfl⟩ := ih hat.2 hrest
        exact ⟨found, List.mem_cons_of_mem _ hfound, start, by omega, hfoundAt, rfl⟩

/-- The records of a layout share no byte. -/
theorem occupied_pairwise_disjoint (hadmissible : ∀ entry ∈ entries, entry.Admissible)
    (hat : HasAt file pos (entries.flatMap Entry.bytes)) :
    (recordsFrom pos entries).Pairwise fun r s => Disjoint r.occupied s.occupied := by
  induction entries generalizing pos with
  | nil => exact List.Pairwise.nil
  | cons entry entries ih =>
      rw [List.flatMap_cons, hasAt_append] at hat
      have hall := List.forall_mem_cons.mp hadmissible
      refine List.Pairwise.cons (fun record hmem => ?_) (ih hall.2 hat.2)
      obtain ⟨found, hfound, start, hstart, -, rfl⟩ := exists_entry_of_mem hat.2 hmem
      refine Disjoint.mono hall.1.occupied_subset (hall.2 found hfound).occupied_subset ?_
      rw [Set.Ico_disjoint_Ico]
      omega

/-- The shapes in the headers are those of the records. -/
theorem mem_declaredShapes (h : Layout file entries) {shape : List Int64} :
    shape ∈ declaredShapes file ↔ shape ∈ entries.map Entry.shape := by
  constructor
  · rintro ⟨others, hothers, hmem⟩
    rw [← map_shape_recordsFrom 16, h.records_eq hothers, map_shape_recordsFrom]
    exact hmem
  · intro hmem
    exact ⟨entries, h, hmem⟩

theorem map_name_recordsFrom (pos : Nat) (entries : List Entry) :
    (recordsFrom pos entries).map QuantizedTensorRecord.name = entries.map Entry.name := by
  induction entries generalizing pos with
  | nil => rfl
  | cons entry entries ih => rw [recordsFrom, List.map_cons, ih, List.map_cons, Entry.record]

end Records

section Accepted

variable {path file : Bytes} {archive : QuantizedArchive}

theorem isQuantizedArchive_of_openArchive (hopen : openArchive path (some file) = .ok archive) :
    isQuantizedArchive (some file) = true := by
  obtain ⟨entries, hlayout, -⟩ := openArchive_eq_ok.mp hopen
  have hat := hlayout.hasAt
  rw [archiveBytes, hasAt_append] at hat
  have hin : 8 ≤ file.length := hat.1.le_length
  have hmagic : slice file 0 8 = kMagic := hat.1.slice_eq rfl
  rw [isQuantizedArchive, decide_eq_true hin, decide_eq_true hmagic]
  rfl

/-- The names in an accepted archive are distinct, so `find` finds each record. -/
theorem find_of_mem (hopen : openArchive path (some file) = .ok archive)
    {record : QuantizedTensorRecord} (hmem : record ∈ archive.records) :
    archive.find record.name = some record := by
  obtain ⟨entries, hlayout, rfl⟩ := openArchive_eq_ok.mp hopen
  have hnodup := hlayout.names_nodup
  rw [← map_name_recordsFrom 16] at hnodup
  rw [QuantizedArchive.find, List.find?_eq_some_iff_getElem]
  obtain ⟨i, hi, hget⟩ := List.getElem_of_mem hmem
  refine ⟨by simp, i, hi, hget, fun j hj => ?_⟩
  have hjlt := lt_trans hj hi
  simp only [Bool.not_eq_true', decide_eq_false_iff_not]
  intro hsame
  have hnames : ((recordsFrom 16 entries).map QuantizedTensorRecord.name)[j]? =
      ((recordsFrom 16 entries).map QuantizedTensorRecord.name)[i]? := by
    rw [List.getElem?_map, List.getElem?_map, List.getElem?_eq_getElem hjlt,
      List.getElem?_eq_getElem hi]
    exact congrArg some (hsame.trans (congrArg _ hget.symm))
  have hlt : j < ((recordsFrom 16 entries).map QuantizedTensorRecord.name).length := by
    rw [List.length_map]
    exact hjlt
  have hindex : j = i := (List.getElem?_inj hlt hnodup).mp hnames
  omega

end Accepted

/-- **An accepted archive is sound if and only if 64 bits hold the product of the dimensions
in each header.** -/
theorem openArchive_sound_iff {path file : Bytes} {archive : QuantizedArchive}
    (hopen : openArchive path (some file) = .ok archive) :
    Sound file archive ↔ ∀ shape ∈ declaredShapes file, elements shape < 2 ^ 64 := by
  obtain ⟨entries, hlayout, rfl⟩ := openArchive_eq_ok.mp hopen
  have hat := hlayout.hasAt
  rw [archiveBytes, hasAt_append, hasAt_append, hasAt_append, length_encode, length_encode] at hat
  constructor
  · intro hsound shape hshape
    rw [mem_declaredShapes hlayout, ← map_shape_recordsFrom 16] at hshape
    obtain ⟨record, hrecord, rfl⟩ := List.mem_map.mp hshape
    obtain ⟨entry, hentry, start, -, -, rfl⟩ := exists_entry_of_mem hat.2.2.2 hrecord
    have hnumel := (hsound.record_sound _ hrecord).numel_eq
    rw [← hnumel]
    exact checkedNumel_lt (hlayout.admissible entry hentry).nonneg
  · intro hproducts
    refine ⟨fun record hrecord => ?_, occupied_pairwise_disjoint hlayout.admissible hat.2.2.2⟩
    obtain ⟨entry, hentry, start, -, hentryAt, rfl⟩ := exists_entry_of_mem hat.2.2.2 hrecord
    refine (hlayout.admissible entry hentry).record_sound hlayout.size_lt rfl hentryAt
      (hproducts _ ?_)
    rw [mem_declaredShapes hlayout]
    exact List.mem_map_of_mem hentry

/-- A file with one tensor, of `numel` 16-bit numbers by its header. -/
def singleFile (numel : Nat) (shape : List Int64) (data : Bytes) : Bytes :=
  kMagic ++ encode 4 kVersion ++ encode 4 1 ++ encode 4 1 ++ encode 1 0 ++
    encode 1 shape.length ++ encode 2 0 ++ encode 8 numel ++ [0x77] ++ shapeBytes shape ++ data

/-- An archive of one number. -/
theorem openArchive_sound_iff_single :
    ∃ archive, openArchive [] (some (singleFile 1 [1] [0, 0])) = .ok archive ∧
      (Sound (singleFile 1 [1] [0, 0]) archive ↔
        ∀ shape ∈ declaredShapes (singleFile 1 [1] [0, 0]), elements shape < 2 ^ 64) := by
  have hopen : openArchive [] (some (singleFile 1 [1] [0, 0])) =
      .ok { path := [], fileSize := 43,
            records := [{ name := [0x77], dtype := .bFloat16, shape := [1], numel := 1,
                          dataOffset := 41, scaleOffset := 0, scaleCount := 0,
                          quantGroupSize := 0 }] } := by
    rfl
  exact ⟨_, hopen, openArchive_sound_iff hopen⟩

/-- An accepted archive has the magic bytes, and `find` knows each of its tensors by its name. -/
theorem find_exact {path file : Bytes} {archive : QuantizedArchive}
    (hopen : openArchive path (some file) = .ok archive) :
    isQuantizedArchive (some file) = true ∧ ∀ name record,
      archive.find name = some record ↔ record ∈ archive.records ∧ record.name = name := by
  refine ⟨isQuantizedArchive_of_openArchive hopen, fun name record => ⟨fun hfind => ?_, ?_⟩⟩
  · rw [QuantizedArchive.find] at hfind
    have hname := List.find?_some hfind
    exact ⟨List.mem_of_find?_eq_some hfind, of_decide_eq_true hname⟩
  · rintro ⟨hmem, rfl⟩
    exact find_of_mem hopen hmem

theorem find_exact_single :
    ∃ archive, openArchive [] (some (singleFile 1 [1] [0, 0])) = .ok archive ∧
      ∀ name record, archive.find name = some record ↔
        record ∈ archive.records ∧ record.name = name := by
  have hopen : (openArchive [] (some (singleFile 1 [1] [0, 0]))).isOk = true := by decide
  cases harchive : openArchive [] (some (singleFile 1 [1] [0, 0])) with
  | error e =>
      rw [harchive] at hopen
      exact absurd hopen Bool.false_ne_true
  | ok archive => exact ⟨archive, rfl, (find_exact harchive).2⟩

/-- A header with `2 ^ 40` rows, `2 ^ 40` columns and no elements is accepted, and
`read_data` returns no bytes for it. -/
theorem hugeShape_accepted :
    ∃ archive, openArchive [] (some (singleFile 0 [2 ^ 40, 2 ^ 40] [])) = .ok archive ∧
      ¬Sound (singleFile 0 [2 ^ 40, 2 ^ 40] []) archive ∧
      ∃ record ∈ archive.records, record.numel = 0 ∧ elements record.shape = 2 ^ 80 ∧
        archive.readData (some (singleFile 0 [2 ^ 40, 2 ^ 40] [])) record = .ok [] := by
  let record : QuantizedTensorRecord :=
    { name := [0x77], dtype := .bFloat16, shape := [2 ^ 40, 2 ^ 40], numel := 0,
      dataOffset := 49, scaleOffset := 0, scaleCount := 0, quantGroupSize := 0 }
  have hopen : openArchive [] (some (singleFile 0 [2 ^ 40, 2 ^ 40] [])) =
      .ok { path := [], fileSize := 49, records := [record] } := by
    rfl
  have helements : elements record.shape = 2 ^ 80 := by
    decide +kernel
  refine ⟨_, hopen, fun hsound => ?_, record, List.mem_singleton.mpr rfl, rfl, helements, rfl⟩
  have hnumel := (hsound.record_sound record (List.mem_singleton.mpr rfl)).numel_eq
  rw [helements] at hnumel
  cases hnumel

end Quantized
end RwkvLightning

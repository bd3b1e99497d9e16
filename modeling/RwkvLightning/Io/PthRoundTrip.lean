import RwkvLightning.Io.PthWriterArchive
import RwkvLightning.Io.PthWriterProgram
import RwkvLightning.Io.PthTensorRead

/-!
# What `write_pth` has written is read back

**Results.**
* `reads_back`: both readers open a file below 4 GiB, and return the names, the shapes, the
  types and the bytes that were written (`Recovered`).
* `writePth_eq_ok_iff`: the check that the writer makes of its own file turns nothing down.
-/

namespace RwkvLightning
namespace Pth
namespace Writer

open LittleEndian (encode slice field length_encode field_lt)
open Strided

section Names

variable {i j : Nat} {tensors : List WriteTensor}

theorem decimal_eq (i : Nat) :
    decimal i = (Nat.toDigits 10 i).map fun c => UInt8.ofNat c.toNat := by
  rw [decimal, ascii, Nat.toString_eq_ofList_toDigits, String.toList_ofList]

/-- A digit is its byte. -/
theorem digit_spec {c : Char} (h : c.isDigit = true) :
    Char.ofNat (UInt8.ofNat c.toNat).toNat = c ∧ UInt8.ofNat c.toNat ≠ 0x6C := by
  have hrange : 48 ≤ c.toNat ∧ c.toNat ≤ 57 := by
    rw [Char.isDigit, Bool.and_eq_true, decide_eq_true_iff, decide_eq_true_iff] at h
    exact ⟨h.1, h.2⟩
  have hbyte : (UInt8.ofNat c.toNat).toNat = c.toNat := by
    rw [UInt8.toNat_ofNat']
    omega
  refine ⟨by rw [hbyte, Char.ofNat_toNat], fun heq => ?_⟩
  rw [heq] at hbyte
  have hvalue : (0x6C : UInt8).toNat = 108 := rfl
  omega

theorem decimal_injective (h : decimal i = decimal j) : i = j := by
  have hback : ∀ n, (decimal n).map (fun byte => Char.ofNat byte.toNat) = Nat.toDigits 10 n := by
    intro n
    rw [decimal_eq, List.map_map]
    refine (List.map_congr_left fun c hc => ?_).trans (List.map_id _)
    exact (digit_spec (Nat.isDigit_of_mem_toDigits (by decide) (by decide) hc)).1
  have hdigits : Nat.toDigits 10 i = Nat.toDigits 10 j := by
    rw [← hback, ← hback, h]
  rw [← Nat.ofDigitChars_ten_toDigits (n := i), hdigits, Nat.ofDigitChars_ten_toDigits]

/-- The name of an entry of a tensor is not that of the program. -/
theorem not_program (i : Nat) :
    ascii "archive/data/" ++ decimal i ≠ ascii "archive/data.pkl" := by
  intro h
  have hbyte := congrArg (fun name => name[12]?) h
  rw [List.getElem?_append_left (by decide)] at hbyte
  exact absurd hbyte (by decide)

theorem not_suffix (i : Nat) :
    (ascii "/data.pkl").isSuffixOf (ascii "archive/data/" ++ decimal i) = false := by
  refine Bool.eq_false_of_not_eq_true fun h => ?_
  obtain ⟨front, hfront⟩ := List.isSuffixOf_iff_suffix.mp h
  have hne : decimal i ≠ [] := by
    rw [decimal_eq]
    exact fun hnil => Nat.toDigits_ne_nil (List.map_eq_nil_iff.mp hnil)
  have hlast := congrArg List.getLast? hfront
  rw [List.getLast?_append_of_ne_nil _ (by decide), List.getLast?_append_of_ne_nil _ hne] at hlast
  have hmem : (0x6C : UInt8) ∈ decimal i := List.mem_of_getLast? (hlast.symm.trans (by decide))
  rw [decimal_eq] at hmem
  obtain ⟨c, hc, heq⟩ := List.mem_map.mp hmem
  exact (digit_spec (Nat.isDigit_of_mem_toDigits (by decide) (by decide) hc)).2 heq

end Names

section Tensors

variable {t : WriteTensor} {i : Nat} {chunkLoad : Bool}

/-- The dimensions that the writer writes, each a size and a stride. -/
def viewOfShape (shape : List Int) : List Dim :=
  viewOf (shape.zip (strides shape).1)

theorem view_spec {shape : List Int} (h : ∀ d ∈ shape, 0 < d) :
    volume (viewOfShape shape) = elementCount shape ∧ Dense (viewOfShape shape) ∧
      Forward (shape.zip (strides shape).1) := by
  induction shape with
  | nil => exact ⟨rfl, trivial, fun _ hmem => absurd hmem List.not_mem_nil⟩
  | cons d shape ih =>
      have hrest := fun d' hmem => h d' (List.mem_cons_of_mem d hmem)
      obtain ⟨hvolume, hdense, hforward⟩ := ih hrest
      have hstep := (strides_spec hrest).1
      have hd := h d List.mem_cons_self
      have hview : viewOfShape (d :: shape) =
          (d.toNat, (strides shape).2.toNat) :: viewOfShape shape := rfl
      refine ⟨?_, ?_, fun d' hmem => ?_⟩
      · rw [hview, volume, hvolume, elementCount_cons]
      · rw [hview]
        refine ⟨fun _ => ?_, hdense⟩
        rw [hvolume, hstep, Int.toNat_natCast]
      · rcases List.mem_cons.mp hmem with rfl | hmem
        · exact ⟨hd, by rw [hstep]; exact Int.natCast_nonneg _⟩
        · exact hforward d' hmem

theorem dtypeSizeBytes_eq (h : Accepted t) : dtypeSizeBytes (dtypeOf t) = elementSize t := by
  have hdtype := h.dtype
  rw [dtypeOf, elementSize]
  cases hb : t.bf16 <;> cases hf : t.fp16 <;> rw [hb, hf] at hdtype
  · rfl
  · rfl
  · rfl
  · cases hdtype

/-- The record of a tensor that was accepted is readable. -/
theorem readable_recordOf (h : Accepted t) (hdata : t.data.length < 2 ^ 32) :
    Readable (recordOf i t (elementCount t.shape)) t.data := by
  obtain ⟨hvolume, hdense, hforward⟩ := view_spec h.dims
  have hcount := h.count
  have hlast : lastAddress (viewOfShape t.shape) 0 + 1 = 0 + volume (viewOfShape t.shape) :=
    lastAddress_dense hforward.sizes_pos hdense
  exact
    { rank := (length_strides t.shape).symm
      forward := hforward
      inside := by
        change lastAddress (viewOfShape t.shape) 0 < elementCount t.shape
        omega
      length := by
        change elementCount t.shape * dtypeSizeBytes (dtypeOf t) = t.data.length
        rw [dtypeSizeBytes_eq h, h.data]
      short := by omega
      small := by
        change volume (viewOfShape t.shape) < 2 ^ 60
        omega }

/-- The numbers in a byte string are its bytes. -/
theorem flatMap_fields {data : Bytes} {k n : Nat} (h : n * k ≤ data.length) :
    (List.range n).flatMap (fun i => encode k (field data (i * k) k)) = data.take (n * k) := by
  induction n with
  | zero => simp
  | succ n ih =>
      rw [Nat.succ_mul] at h ⊢
      have hlast := (@Cursor.hasAt_encode_field data (n * k) k h).2
      rw [length_encode] at hlast
      rw [List.range_succ, List.flatMap_append, ih (by omega), List.flatMap_singleton, ← hlast,
        List.take_add]
      rfl

/-- A byte string of numbers of `k` bytes is the numbers in it. -/
theorem flatMap_fields_whole {data : Bytes} {k n : Nat} (h : data.length = n * k) :
    (List.range n).flatMap (fun i => encode k (field data (i * k) k)) = data := by
  have htake := flatMap_fields h.ge
  rwa [← h, List.take_length] at htake

/-- What was written of a tensor is what was read: a `bfloat16` as 16 bits, a `float` as 32. -/
structure Holds (t : WriteTensor) (data : TensorData) : Prop where
  name : data.name = t.name
  shape : data.shape = t.shape
  bf16 : t.bf16 = true → data.valuesBf16.flatMap (fun v => encode 2 v.toNat) = t.data
  fp16 : t.fp16 = true → data.values =
    (List.range (elementCount t.shape)).map fun i =>
      f16BitsToFloat (UInt16.ofNat (field t.data (i * 2) 2))
  float : t.bf16 = false → t.fp16 = false →
    data.values.flatMap (fun v => encode 4 v.toNat) = t.data

theorem holds_data (h : Accepted t) :
    Holds t ((recordOf i t (elementCount t.shape)).data t.data true true true) := by
  obtain ⟨hvolume, hdense, -⟩ := view_spec h.dims
  have haddresses : addresses (viewOfShape t.shape) 0 = List.range (elementCount t.shape) := by
    rw [addresses_dense hdense, hvolume, List.range_eq_range']
  have hvaluesBf16 : ((recordOf i t (elementCount t.shape)).data t.data true true true).valuesBf16 =
      (List.range (elementCount t.shape)).map (elementBf16 t.data (dtypeOf t)) :=
    congrArg (List.map _) haddresses
  have hvalues : ((recordOf i t (elementCount t.shape)).data t.data true true true).values =
      (List.range (elementCount t.shape)).map (element t.data (dtypeOf t)) :=
    congrArg (List.map _) haddresses
  have hlength := h.data
  refine ⟨rfl, rfl, fun hb => ?_, fun hf => ?_, fun hb hf => ?_⟩
  · rw [elementSize, hb, Bool.or_true, if_pos rfl] at hlength
    rw [hvaluesBf16, List.flatMap_map, dtypeOf, if_pos hb]
    refine (List.flatMap_congr fun i _ => ?_).trans (flatMap_fields_whole hlength)
    rw [elementBf16, if_pos rfl, UInt16.toNat_ofNat_of_lt' (field_lt t.data (i * 2) 2)]
  · have hb : t.bf16 = false := by
      have hdtype := h.dtype
      rwa [hf, Bool.true_and] at hdtype
    rw [hvalues, dtypeOf, hb, hf]
    rfl
  · rw [elementSize, hb, hf, Bool.or_false, if_neg Bool.false_ne_true] at hlength
    rw [hvalues, List.flatMap_map, dtypeOf, hb, hf]
    refine (List.flatMap_congr fun i _ => ?_).trans (flatMap_fields_whole hlength)
    change encode 4 (UInt32.ofNat (field t.data (i * 4) 4)).toNat = _
    rw [UInt32.toNat_ofNat_of_lt' (field_lt t.data (i * 4) 4)]

end Tensors

section File

open Checked (result_bind_eq_ok)

variable {disk : Disk} {maxEntries : Nat} {path : String} {tensors : List WriteTensor}
  {manifest manifestEntry file : Bytes} {named : Bytes → Bool}

/-- The entries of a file. -/
def entriesOf (tensors : List WriteTensor) (manifest manifestEntry : Bytes) : List Entry :=
  entriesFrom 0 tensors ++ otherEntries (programOf tensors) manifest manifestEntry

theorem length_entriesOf :
    tensors.length ≤ (entriesOf tensors manifest manifestEntry).length ∧
      (entriesOf tensors manifest manifestEntry).length ≤ tensors.length + 4 := by
  have hfrom : ∀ i, (entriesFrom i tensors).length = tensors.length := by
    induction tensors with
    | nil => exact fun _ => rfl
    | cons t tensors ih => exact fun i => congrArg (· + 1) (ih (i + 1))
  rw [entriesOf, List.length_append, hfrom, otherEntries, List.length_append]
  split <;> simp only [List.length_cons, List.length_nil] <;> omega

/-- What the writer has checked. -/
theorem writePth_eq_ok
    (h : writePth disk maxEntries path tensors manifest manifestEntry = .ok file) :
    (∀ t ∈ tensors, Accepted t) ∧
      zipBytes (entriesOf tensors manifest manifestEntry) = .ok file ∧
      disk = { create := true, write := true, rename := true } ∧
      ∃ archive, (openWhole maxEntries file).result = .ok archive := by
  rw [writePth] at h
  split at h
  · cases h
  next written hwritten =>
  obtain ⟨haccepted, rfl⟩ := writeTensors_eq_ok hwritten
  dsimp only at h
  split at h
  · cases h
  next file' hfile =>
  split at h
  · cases h
  next hself =>
  split at h
  swap
  · cases h
  next hrename =>
  obtain rfl := Except.ok.inj h
  rw [writeZip] at hfile
  split at hfile
  · cases hfile
  next hzip =>
  split at hfile
  · cases hfile
  next hcreate =>
  split at hfile
  · cases hfile
  next hwrite =>
  obtain rfl := Except.ok.inj hfile
  refine ⟨haccepted, hzip, ?_, ?_⟩
  · rw [Bool.not_eq_true, Bool.not_eq_false'] at hcreate hwrite
    rw [Disk.mk.injEq]
    exact ⟨hcreate, hwrite, hrename⟩
  · rw [selfCheck] at hself
    split at hself
    · cases hself
    next archive harchive => exact ⟨archive, harchive⟩

/-- The reader of a whole file had room for its entries. -/
theorem count_le_of_opened {d : Directory} {archive : PthArchive} (hsize : file.length < 2 ^ 63)
    (hd : directory file = some d) (h : (openWhole maxEntries file).result = .ok archive) :
    d.entryCount ≤ maxEntries := by
  have hdirectory := (wholeDirectory_parses fun z hz => zip64_fits hsize hd hz).eq_pure hd
  rw [openWhole_eq hsize, hdirectory, Checked.pure_bind] at h
  obtain ⟨_, hentries, -⟩ := result_bind_eq_ok h
  rw [wholeEntries] at hentries
  obtain ⟨_, -, hentries⟩ := result_bind_eq_ok hentries
  obtain ⟨_, -, hentries⟩ := result_bind_eq_ok hentries
  obtain ⟨_, hreserve, -⟩ := result_bind_eq_ok hentries
  by_contra hlt
  rw [reserve, if_pos (by omega)] at hreserve
  cases hreserve

/-- The entries of the tensors have names of their own. -/
theorem find_entriesFrom_none (h : ∀ j, named (ascii "archive/data/" ++ decimal j) = false)
    (i : Nat) : (entriesFrom i tensors).find? (fun entry => named entry.name) = none := by
  induction tensors generalizing i with
  | nil => rfl
  | cons t tensors ih =>
      have hname : named (entryOf i t).name = false := h i
      rw [entriesFrom, List.find?_cons_of_neg (by rw [hname]; exact Bool.false_ne_true), ih]

theorem find_entriesFrom {k : Nat} {t : WriteTensor} (h : tensors[k]? = some t) (i : Nat) :
    (entriesFrom i tensors).find?
      (fun entry => entry.name = ascii "archive/data/" ++ decimal (i + k)) =
        some (entryOf (i + k) t) := by
  induction tensors generalizing i k with
  | nil => cases h
  | cons first tensors ih =>
      rw [entriesFrom]
      cases k with
      | zero =>
          obtain rfl := Option.some.inj h
          exact List.find?_cons_of_pos (decide_eq_true rfl)
      | succ k =>
          have hname :
              (entryOf i first).name ≠ ascii "archive/data/" ++ decimal (i + (k + 1)) := by
            intro heq
            have hindex := decimal_injective (List.append_cancel_left heq)
            omega
          rw [List.find?_cons_of_neg (by rwa [decide_eq_true_iff])]
          have hrest := ih h (i + 1)
          rwa [Nat.add_right_comm, Nat.add_assoc] at hrest

/-- The entry of the program is the first one that is not that of a tensor. -/
theorem find_program (h : ∀ j, named (ascii "archive/data/" ++ decimal j) = false)
    (hprogram : named (ascii "archive/data.pkl") = true) :
    (entriesOf tensors manifest manifestEntry).find? (fun entry => named entry.name) =
      some
        { name := ascii "archive/data.pkl", data := programOf tensors, crc := 0, offset := 0 } := by
  rw [entriesOf, List.find?_append, find_entriesFrom_none h, Option.none_or, otherEntries,
    List.cons_append]
  exact List.find?_cons_of_pos hprogram

theorem archivePrefix_eq (chunkLoad : Bool) :
    archivePrefix (archiveOf chunkLoad (entriesOf tensors manifest manifestEntry) file) =
      ascii "archive" := by
  obtain ⟨entry, -, hname, -, hfind⟩ := find_placed 0
    (@find_program tensors manifest manifestEntry (fun name => (ascii "/data.pkl").isSuffixOf name)
      not_suffix (by decide))
  have hlocated : (located entry).name = ascii "archive/data.pkl" := hname
  rw [archivePrefix, archiveOf]
  dsimp only
  rw [hfind]
  dsimp only
  rw [hlocated]
  decide

/-- A name stands in the program. -/
theorem name_le_program {t : WriteTensor} (h : t ∈ tensors) (i : Nat) :
    t.name.length ≤ (programFrom i tensors).length := by
  induction tensors generalizing i with
  | nil => exact absurd h List.not_mem_nil
  | cons first tensors ih =>
      rw [programFrom, List.length_append]
      rcases List.mem_cons.mp h with rfl | h
      · simp only [tensorProgram, pickleString, List.length_append, List.length_cons]
        omega
      · have hle := ih h (i + 1)
        omega

/-- The parser returns the records of the tensors. -/
theorem parsePthTensorRecords_eq
    (h : Zipped (entriesOf tensors manifest manifestEntry) file)
    (haccepted : ∀ t ∈ tensors, Accepted t) (hcount : tensors.length ≤ 10 ^ 10)
    (chunkLoad : Bool) :
    parsePthTensorRecords (archiveOf chunkLoad (entriesOf tensors manifest manifestEntry) file) =
      pure (recordsFrom 0 tensors) := by
  have hfirst := @find_program tensors manifest manifestEntry
    (fun name => decide (name = ascii "archive/data.pkl"))
    (fun j => decide_eq_false (not_program j)) (decide_eq_true rfl)
  obtain ⟨entry, hmem, -, hdata, hfind⟩ := @find_placed _ _
    (fun name => decide (name = ascii "archive/data.pkl")) 0 hfirst
  have hentry : (archiveOf chunkLoad (entriesOf tensors manifest manifestEntry) file).findEntry
      (ascii "archive" ++ ascii "/data.pkl") = some (located entry) := by
    have hname : ascii "archive" ++ ascii "/data.pkl" = ascii "archive/data.pkl" := by decide
    rw [hname]
    exact hfind
  have hwritable : ∀ t ∈ tensors, Writable t (elementCount t.shape) := by
    intro t ht
    have hname := name_le_program ht 0
    have hsmall := (h.fits entry hmem).data
    rw [hdata, programOf, List.length_append, List.length_append] at hsmall
    exact (haccepted t ht).writable (by omega)
  rw [parsePthTensorRecords, archivePrefix_eq, errorIf, if_neg (by decide), Checked.pure_bind,
    hentry]
  dsimp only
  rw [readStoredEntry_zip h hmem, Checked.pure_bind, hdata, parse_program hwritable hcount]

/-- The storage of a tensor is what was written. -/
theorem tensorStorage_eq (h : Zipped (entriesOf tensors manifest manifestEntry) file)
    (haccepted : ∀ t ∈ tensors, Accepted t) {i : Nat} {t : WriteTensor}
    (ht : tensors[i]? = some t) (chunkLoad : Bool) :
    tensorStorage (archiveOf chunkLoad (entriesOf tensors manifest manifestEntry) file)
      (recordOf i t (elementCount t.shape)) = pure t.data ∧ t.data.length < 2 ^ 32 := by
  have hfirst : (entriesOf tensors manifest manifestEntry).find?
      (fun entry => decide (entry.name = ascii "archive/data/" ++ decimal i)) =
        some (entryOf i t) := by
    have hfrom := find_entriesFrom ht 0
    rw [Nat.zero_add] at hfrom
    rw [entriesOf, List.find?_append, hfrom, Option.some_or]
  obtain ⟨entry, hmem, -, hdata, hfind⟩ := @find_placed _ _
    (fun name => decide (name = ascii "archive/data/" ++ decimal i)) 0 hfirst
  have hentry : (archiveOf chunkLoad (entriesOf tensors manifest manifestEntry) file).findEntry
      (ascii "archive" ++ ascii "/data/" ++ decimal i) = some (located entry) := by
    have hname : ascii "archive" ++ ascii "/data/" = ascii "archive/data/" := by decide
    rw [hname]
    exact hfind
  have hsmall : t.data.length < 2 ^ 32 := by
    have hfits := (h.fits entry hmem).data
    rw [hdata] at hfits
    change t.data.length < _ at hfits
    omega
  have hlength : elementCount t.shape * dtypeSizeBytes (dtypeOf t) = t.data.length := by
    have haccept := haccepted t (List.mem_of_getElem? ht)
    rw [dtypeSizeBytes_eq haccept, haccept.data]
  have hword : word = 2 ^ 64 := rfl
  have hentryData : (entryOf i t).data = t.data := rfl
  refine ⟨?_, hsmall⟩
  rw [tensorStorage, archivePrefix_eq, errorIf, if_neg (by decide), Checked.pure_bind]
  dsimp only [recordOf]
  rw [hentry]
  dsimp only
  rw [readStoredEntry_zip h hmem, Checked.pure_bind, hdata, hentryData, mul_eq (by omega),
    Checked.pure_bind, hlength, errorIf, if_neg (not_not_intro rfl), Checked.pure_bind]

/-- The text that was handed over is found under its name. -/
theorem manifest_eq (h : Zipped (entriesOf tensors manifest manifestEntry) file)
    (hmanifest : manifest ≠ [])
    (hfresh : ∀ entry ∈ entriesOf tensors [] manifestEntry, entry.name ≠ manifestEntry)
    (chunkLoad : Bool) :
    ∃ entry,
      (archiveOf chunkLoad (entriesOf tensors manifest manifestEntry) file).findEntry
        manifestEntry = some entry ∧
      (archiveOf chunkLoad (entriesOf tensors manifest manifestEntry) file).readStoredEntry
        entry = pure manifest := by
  have hsplit : entriesOf tensors manifest manifestEntry = entriesOf tensors [] manifestEntry ++
      [{ name := manifestEntry, data := manifest, crc := 0, offset := 0 }] := by
    rw [entriesOf, entriesOf, otherEntries, otherEntries, if_neg hmanifest, if_pos rfl,
      List.append_nil, List.append_assoc]
  have hfirst : (entriesOf tensors manifest manifestEntry).find?
      (fun entry => decide (entry.name = manifestEntry)) =
        some { name := manifestEntry, data := manifest, crc := 0, offset := 0 } := by
    have hnone : (entriesOf tensors [] manifestEntry).find?
        (fun entry => decide (entry.name = manifestEntry)) = none := by
      refine List.find?_eq_none.mpr fun entry hmem => ?_
      rw [decide_eq_true_iff]
      exact hfresh entry hmem
    rw [hsplit, List.find?_append, hnone, Option.none_or]
    exact List.find?_cons_of_pos (decide_eq_true rfl)
  obtain ⟨entry, hmem, -, hdata, hfind⟩ := @find_placed _ _
    (fun name => decide (name = manifestEntry)) 0 hfirst
  exact ⟨located entry, hfind,
    (readStoredEntry_zip h hmem chunkLoad).trans (congrArg pure hdata)⟩

theorem getElem?_recordsFrom {k : Nat} {t : WriteTensor} (h : tensors[k]? = some t) (i : Nat) :
    (recordsFrom i tensors)[k]? = some (recordOf (i + k) t (elementCount t.shape)) := by
  induction tensors generalizing i k with
  | nil => cases h
  | cons first tensors ih =>
      cases k with
      | zero =>
          obtain rfl := Option.some.inj h
          rfl
      | succ k =>
          have hrest := ih h (i + 1)
          rw [Nat.add_right_comm, Nat.add_assoc] at hrest
          exact hrest

theorem length_recordsFrom (i : Nat) (tensors : List WriteTensor) :
    (recordsFrom i tensors).length = tensors.length := by
  induction tensors generalizing i with
  | nil => rfl
  | cons t tensors ih => exact congrArg (· + 1) (ih (i + 1))

/-- What a reader finds of what was written. -/
structure Recovered (archive : PthArchive) (tensors : List WriteTensor)
    (manifest manifestEntry : Bytes) : Prop where
  records : ∃ records, parsePthTensorRecords archive = pure records ∧
    records.length = tensors.length ∧
    ∀ (i : Nat) (t : WriteTensor), tensors[i]? = some t → ∃ record data,
      records[i]? = some record ∧
      (loadTensorSelect archive record true true true).result = .ok data ∧ Holds t data
  text : manifest ≠ [] →
    (∀ entry ∈ entriesOf tensors [] manifestEntry, entry.name ≠ manifestEntry) →
    ∃ entry, archive.findEntry manifestEntry = some entry ∧
      archive.readStoredEntry entry = pure manifest

theorem recovered_archiveOf (h : Zipped (entriesOf tensors manifest manifestEntry) file)
    (haccepted : ∀ t ∈ tensors, Accepted t) (hcount : tensors.length ≤ 10 ^ 10)
    (chunkLoad : Bool) :
    Recovered (archiveOf chunkLoad (entriesOf tensors manifest manifestEntry) file) tensors
      manifest manifestEntry where
  records := by
    refine ⟨recordsFrom 0 tensors, parsePthTensorRecords_eq h haccepted hcount chunkLoad,
      length_recordsFrom 0 tensors, fun i t ht => ?_⟩
    obtain ⟨hstorage, hsmall⟩ := tensorStorage_eq h haccepted ht chunkLoad
    have haccept := haccepted t (List.mem_of_getElem? ht)
    have hrecord := getElem?_recordsFrom ht 0
    rw [Nat.zero_add] at hrecord
    refine ⟨_, _, hrecord,
      loadTensorSelect_eq ?_ (readable_recordOf haccept hsmall) true true true,
      holds_data haccept⟩
    rw [hstorage]
    rfl
  text := fun hmanifest hfresh => manifest_eq h hmanifest hfresh chunkLoad

/-- Both readers open the file that the writer has left, and find in it what was written. -/
theorem reads_back (h : writePth disk maxEntries path tensors manifest manifestEntry = .ok file)
    (hsize : file.length < 2 ^ 32) (hcount : tensors.length < 65531) (chunkLoad : Bool) :
    ∃ archive,
      (if chunkLoad then openChunked maxEntries file else openWhole maxEntries file) =
        pure archive ∧ Recovered archive tensors manifest manifestEntry := by
  obtain ⟨haccepted, hzip, -, archive, hopened⟩ := writePth_eq_ok h
  obtain ⟨hzipped, -⟩ := zipBytes_eq_ok hzip hsize
  obtain ⟨-, hlength⟩ := @length_entriesOf tensors manifest manifestEntry
  have hmax : (entriesOf tensors manifest manifestEntry).length ≤ maxEntries :=
    count_le_of_opened (by omega) (hzipped.directory_eq (by omega)) hopened
  obtain ⟨hwhole, hchunked⟩ := open_zip hzipped (by omega) hmax
  refine ⟨archiveOf chunkLoad (entriesOf tensors manifest manifestEntry) file, ?_,
    recovered_archiveOf hzipped haccepted (by omega) chunkLoad⟩
  cases chunkLoad with
  | false => exact hwhole
  | true => exact hchunked

/-- A tensor of two numbers. -/
def pair : WriteTensor where
  name := ascii "w"
  shape := [2, 1]
  fp16 := false
  data := [0x80, 0x3F, 0x00, 0x40]
  bf16 := true

theorem pair_written :
    ∃ file, writePth ⟨true, true, true⟩ 100 "pair.pth" [pair] (ascii "{}")
      (ascii "archive/miss.json") = .ok file ∧ file.length < 2 ^ 32 := by
  have hrun : (writePth ⟨true, true, true⟩ 100 "pair.pth" [pair] (ascii "{}")
      (ascii "archive/miss.json")).toOption.any (fun file => file.length < 2 ^ 32) = true := by
    decide +kernel
  cases hfile : writePth ⟨true, true, true⟩ 100 "pair.pth" [pair] (ascii "{}")
      (ascii "archive/miss.json") with
  | error message =>
      rw [hfile] at hrun
      exact absurd hrun Bool.false_ne_true
  | ok file =>
      rw [hfile] at hrun
      exact ⟨file, rfl, of_decide_eq_true hrun⟩

theorem reads_back_pair :
    ∃ file archive, openChunked 100 file = pure archive ∧
      Recovered archive [pair] (ascii "{}") (ascii "archive/miss.json") := by
  obtain ⟨file, hfile, hsize⟩ := pair_written
  exact ⟨file, reads_back hfile hsize (by decide) true⟩

theorem countElements_of_pos {shape : List Int} {m : Nat} (h : ∀ d ∈ shape, 0 < d)
    (hcount : m * elementCount shape < 2 ^ 31) :
    countElements m shape = .ok (m * elementCount shape) := by
  induction shape generalizing m with
  | nil => rw [countElements, elementCount, List.map_nil, List.prod_nil, Nat.mul_one]
  | cons d shape ih =>
      have hd := h d List.mem_cons_self
      have hrest := fun d' hmem => h d' (List.mem_cons_of_mem d hmem)
      rw [elementCount_cons, ← Nat.mul_assoc] at hcount ⊢
      have hle := Nat.le_mul_of_pos_right (m * d.toNat) (elementCount_pos hrest)
      have hm : m ≤ (2 ^ 31 - 1) / d.toNat :=
        (Nat.le_div_iff_mul_le (by omega)).mpr (by omega)
      rw [countElements, if_neg (by omega), ih hrest hcount]

theorem writeTensors_of_accepted (h : ∀ t ∈ tensors, Accepted t) (i : Nat) :
    writeTensors i tensors = .ok (programFrom i tensors, entriesFrom i tensors) := by
  induction tensors generalizing i with
  | nil => rfl
  | cons t tensors ih =>
      have haccept := h t List.mem_cons_self
      have hfirst : writeTensor i t =
          .ok (tensorProgram i t (elementCount t.shape), entryOf i t) := by
        have helements := countElements_of_pos (m := 1) haccept.dims (by
          rw [Nat.one_mul]
          exact haccept.count)
        rw [Nat.one_mul] at helements
        rw [writeTensor, haccept.dtype, if_neg Bool.false_ne_true, helements]
        dsimp only
        rw [if_neg (not_not_intro haccept.data)]
        rfl
      rw [writeTensors, hfirst]
      dsimp only
      rw [ih fun t' hmem => h t' (List.mem_cons_of_mem t hmem)]
      rfl

/-- The check of the writer finds no fault with a file below 4 GiB. -/
theorem selfCheck_zip (h : Zipped (entriesOf tensors manifest manifestEntry) file)
    (haccepted : ∀ t ∈ tensors, Accepted t)
    (hcount : (entriesOf tensors manifest manifestEntry).length < 65535)
    (hmax : (entriesOf tensors manifest manifestEntry).length ≤ maxEntries) :
    selfCheck maxEntries file tensors.length = .ok () := by
  obtain ⟨hle, -⟩ := @length_entriesOf tensors manifest manifestEntry
  have hopened : (openWhole maxEntries file).result =
      .ok (archiveOf false (entriesOf tensors manifest manifestEntry) file) := by
    rw [(open_zip h hcount hmax).1]
    rfl
  have hparsed : (parsePthTensorRecords
      (archiveOf false (entriesOf tensors manifest manifestEntry) file)).result =
        .ok (recordsFrom 0 tensors) := by
    rw [parsePthTensorRecords_eq h haccepted (by omega)]
    rfl
  rw [selfCheck, hopened]
  dsimp only
  rw [hparsed]
  exact if_neg (not_not_intro (length_recordsFrom 0 tensors))

/-- When the writer ends well: its check turns nothing down that the others let pass. -/
theorem writePth_eq_ok_iff (hsize : file.length < 2 ^ 32) (hcount : tensors.length < 65531) :
    writePth disk maxEntries path tensors manifest manifestEntry = .ok file ↔
      (∀ t ∈ tensors, Accepted t) ∧
        zipBytes (entriesOf tensors manifest manifestEntry) = .ok file ∧
        (entriesOf tensors manifest manifestEntry).length ≤ maxEntries ∧
        disk = { create := true, write := true, rename := true } := by
  obtain ⟨-, hlength⟩ := @length_entriesOf tensors manifest manifestEntry
  constructor
  · intro h
    obtain ⟨haccepted, hzip, hdisk, archive, hopened⟩ := writePth_eq_ok h
    obtain ⟨hzipped, -⟩ := zipBytes_eq_ok hzip hsize
    exact ⟨haccepted, hzip,
      count_le_of_opened (by omega) (hzipped.directory_eq (by omega)) hopened, hdisk⟩
  · rintro ⟨haccepted, hzip, hmax, rfl⟩
    obtain ⟨hzipped, -⟩ := zipBytes_eq_ok hzip hsize
    have hself := selfCheck_zip hzipped haccepted (by omega) hmax
    have hwritten : writeZip { create := true, write := true, rename := true } (path ++ ".tmp")
        (entriesOf tensors manifest manifestEntry) = .ok file := by
      rw [writeZip, hzip]
      rfl
    rw [entriesOf, programOf] at hwritten
    rw [writePth, writeTensors_of_accepted haccepted]
    dsimp only
    rw [hwritten]
    dsimp only
    rw [hself]
    rfl

theorem writePth_eq_ok_iff_pair :
    ∃ file, zipBytes (entriesOf [pair] (ascii "{}") (ascii "archive/miss.json")) = .ok file ∧
      (entriesOf [pair] (ascii "{}") (ascii "archive/miss.json")).length ≤ 100 := by
  obtain ⟨file, hfile, hsize⟩ := pair_written
  obtain ⟨-, hzip, hmax, -⟩ := (writePth_eq_ok_iff hsize (by decide)).mp hfile
  exact ⟨file, hzip, hmax⟩

end File

end Writer
end Pth
end RwkvLightning

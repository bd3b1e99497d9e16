import RwkvLightning.Io.PthFormat

/-!
# When the whole-file reader is safe

`Safe` says that `open` ends with an archive or a status error, has read nothing
outside its buffer and wrapped no addition, and that the data of every entry lies in
the buffer.

**Results.**  `safe_iff`: that is so exactly for the files in which none of four sums
of fields reaches 2^64 where it is formed, and whose entry count can be reserved.
-/

namespace RwkvLightning
namespace Pth

open LittleEndian Checked

/-- The data of every entry lies in the file. -/
def DataInside (archive : PthArchive) : Prop :=
  ∀ entry ∈ archive.entries,
    entry.dataOffset + entry.compressedSize ≤ archive.file.length

/-- What `open` may end with. -/
def SafeResult : Except Fault PthArchive → Prop
  | .ok archive => DataInside archive
  | .error e => IsStatus e

/-- Opening the file is safe. -/
structure Safe (maxEntries : Nat) (file : Bytes) : Prop where
  unwrapped : (openWhole maxEntries file).noted = false
  result : SafeResult (openWhole maxEntries file).result

/-- The sums at the local headers, as far as the entries before are in the file. -/
def LocalsFit (file : Bytes) : List PthEntry → Prop
  | [] => True
  | entry :: entries =>
      entry.localHeaderOffset + 30 < word ∧
        ∀ start, dataOffset file entry = some start →
          start + entry.compressedSize < word ∧
            (start + entry.compressedSize ≤ file.length → LocalsFit file entries)

/-- The sums of the central directory `d`, and what its headers lead to. -/
structure DirectoryFits (maxEntries : Nat) (file : Bytes) (d : Directory) : Prop where
  directory_end : d.cdOffset + d.cdSize < word
  count : d.cdOffset + d.cdSize ≤ file.length → d.entryCount ≤ maxEntries
  locals : d.cdOffset + d.cdSize ≤ file.length →
    ∀ entries, headers file d.cdOffset d.entryCount = some entries →
      LocalsFit file entries

/-- No sum of fields reaches 2^64, and the entries can be reserved. -/
structure Fits (maxEntries : Nat) (file : Bytes) : Prop where
  zip64 : ∀ z, zip64Offset file = some z → z + 56 < word
  directory : ∀ d, directory file = some d → DirectoryFits maxEntries file d

section Locals

variable {file : Bytes} {entry : PthEntry} {entries : List PthEntry}

theorem locate_inside {located : PthEntry} (h : locate file entry = some located) :
    located.dataOffset + located.compressedSize ≤ file.length := by
  obtain ⟨start, -, hlocated⟩ := Option.bind_eq_some_iff.mp h
  split at hlocated
  · simp at hlocated
  · obtain rfl := Option.some.inj hlocated
    simp only
    omega

theorem locateAll_inside
    {located : List PthEntry} (h : locateAll file entries = some located) :
    ∀ entry ∈ located, entry.dataOffset + entry.compressedSize ≤ file.length := by
  induction entries generalizing located with
  | nil =>
      obtain rfl := Option.some.inj h
      simp
  | cons entry entries ih =>
      obtain ⟨first, hfirst, hrest⟩ := Option.bind_eq_some_iff.mp h
      obtain ⟨rest, hrest', hlocated⟩ := Option.bind_eq_some_iff.mp hrest
      obtain rfl := Option.some.inj hlocated
      intro entry' hmem
      rcases List.mem_cons.mp hmem with rfl | hmem
      · exact locate_inside hfirst
      · exact ih hrest' entry' hmem

/-- An entry whose data is found in the file. -/
theorem locate_of_le
    {start : Nat} (hstart : dataOffset file entry = some start)
    (hle : start + entry.compressedSize ≤ file.length) :
    locate file entry = some { entry with dataOffset := start } := by
  rw [locate, hstart, Option.bind_some, if_neg (by omega)]

theorem computeDataOffsets_parses
    (hsize : file.length < 2 ^ 63) (h : LocalsFit file entries) :
    Parses (computeDataOffsets file entries) (locateAll file entries) := by
  induction entries with
  | nil => exact acts_pure []
  | cons entry entries ih =>
      obtain ⟨hlocal, hdata⟩ := h
      rw [computeDataOffsets, locateAll]
      refine acts_bind
        (computeDataOffset_parses hsize hlocal (fun start hstart => (hdata start hstart).1))
        (fun located hlocated => ?_)
      obtain ⟨start, hstart, hinside⟩ := Option.bind_eq_some_iff.mp hlocated
      have hle : start + entry.compressedSize ≤ file.length := by
        by_contra hout
        rw [if_pos (by omega)] at hinside
        simp at hinside
      refine acts_bind (ih ((hdata start hstart).2 hle)) (fun rest _ => ?_)
      exact acts_pure _

/-- A pass that wraps nothing. -/
theorem computeDataOffset_unnoted
    (hsize : file.length < 2 ^ 63) (h : (computeDataOffset file entry).noted = false) :
    entry.localHeaderOffset + 30 < word ∧
      ∀ start, dataOffset file entry = some start →
        start + entry.compressedSize < word := by
  have hword : word = 2 ^ 64 := rfl
  have hlocal : entry.localHeaderOffset + 30 < word := by
    by_contra hwraps
    rw [computeDataOffset, add_wraps (by omega)] at h
    simp at h
  refine ⟨hlocal, fun start hstart => ?_⟩
  have hstart' := hstart
  rw [dataOffset] at hstart'
  split at hstart'
  · simp at hstart'
  rename_i hinside
  split at hstart'
  · simp at hstart'
  rename_i hsignature
  have hname : u16 file (entry.localHeaderOffset + 26) < 65536 := u16_lt
  have hextra : u16 file (entry.localHeaderOffset + 28) < 65536 := u16_lt
  by_contra hwraps
  obtain rfl := Option.some.inj hstart'
  rw [computeDataOffset, add_eq hlocal, pure_bind, errorIf, if_neg hinside, pure_bind,
    readU32_eq (by omega), pure_bind, errorIf, if_neg hsignature, pure_bind,
    readU16_eq (by omega), pure_bind, readU16_eq (by omega), pure_bind, pure_bind,
    add_eq (by omega), pure_bind, add_eq (by omega), pure_bind, add_wraps (by omega)] at h
  simp at h

theorem computeDataOffsets_unnoted
    (hsize : file.length < 2 ^ 63) (h : (computeDataOffsets file entries).noted = false) :
    LocalsFit file entries := by
  induction entries with
  | nil => trivial
  | cons entry entries ih =>
      rw [computeDataOffsets] at h
      obtain ⟨hlocal, hdata⟩ := computeDataOffset_unnoted hsize (unnoted_left h)
      refine ⟨hlocal, fun start hstart => ⟨hdata start hstart, fun hle => ?_⟩⟩
      have hpure := (computeDataOffset_parses hsize hlocal hdata).eq_pure
        (locate_of_le hstart hle)
      rw [hpure, pure_bind] at h
      exact ih (unnoted_left h)

end Locals

section Whole

variable {maxEntries : Nat} {file : Bytes}

theorem openWhole_large (h : 2 ^ 63 ≤ file.length) :
    openWhole maxEntries file =
      error "failed to determine file size: " [] := by
  rw [openWhole, fileSize, errorIf, if_pos h]
  rfl

theorem openWhole_eq (h : file.length < 2 ^ 63) :
    openWhole maxEntries file =
      wholeDirectory file >>= fun d =>
        wholeEntries maxEntries file d >>= fun entries =>
          pure { chunkLoad := false, file := file, entries := entries } := by
  rw [openWhole, fileSize, errorIf, if_neg (by omega), pure_bind, pure_bind]

/-- The ZIP64 offset wraps. -/
theorem wholeDirectory_wraps
    {z : Nat} (hz : zip64Offset file = some z) (hwraps : word ≤ z + 56) :
    (wholeDirectory file).noted = true := by
  obtain ⟨pos, hpos, hrest⟩ := Option.bind_eq_some_iff.mp hz
  obtain ⟨d, hd, hlocator⟩ := Option.bind_eq_some_iff.mp hrest
  have hle := endPosition_le hpos
  split at hlocator
  · rename_i hneeds
    rw [wholeDirectory, findEocd_parses.eq_pure hpos, pure_bind,
      (readEndRecord_parses hle).eq_pure hd, pure_bind, if_pos hneeds, readZip64Eocd,
      (readLocator_parses hle).eq_pure hlocator, pure_bind, add_wraps hwraps]
  · simp at hlocator

/-- The entries of a directory whose sums fit. -/
theorem wholeEntries_parses
    (hsize : file.length < 2 ^ 63) {d : Directory}
    (hfits : DirectoryFits maxEntries file d) :
    Parses (wholeEntries maxEntries file d)
      (if file.length < d.cdOffset + d.cdSize then none
      else (headers file d.cdOffset d.entryCount).bind (locateAll file)) := by
  have hword : word = 2 ^ 64 := rfl
  rw [wholeEntries, add_eq hfits.directory_end, pure_bind]
  refine parses_check (fun hinside => ?_)
  have hcount := hfits.count (by omega)
  rw [reserve, if_neg (by omega), pure_bind]
  refine acts_bind (readHeaders_parses hsize _ _ (by omega)) (fun entries hentries => ?_)
  exact computeDataOffsets_parses hsize (hfits.locals (by omega) entries hentries)

/-- A directory for which the rest of `open` is safe. -/
theorem directoryFits_of_safe
    (hsize : file.length < 2 ^ 63) {d : Directory}
    (hnoted : (wholeEntries maxEntries file d).noted = false)
    (hresult : (wholeEntries maxEntries file d).result ≠ .error .lengthError) :
    DirectoryFits maxEntries file d := by
  have hword : word = 2 ^ 64 := rfl
  have hend : d.cdOffset + d.cdSize < word := by
    by_contra hwraps
    rw [wholeEntries, add_wraps (by omega)] at hnoted
    simp at hnoted
  have hopen : d.cdOffset + d.cdSize ≤ file.length →
      wholeEntries maxEntries file d =
        reserve maxEntries d.entryCount >>= fun _ =>
          readHeaders file 0 d.cdOffset d.entryCount >>= computeDataOffsets file := by
    intro hle
    rw [wholeEntries, add_eq hend, pure_bind, errorIf, if_neg (by omega), pure_bind]
  have hcount : d.cdOffset + d.cdSize ≤ file.length → d.entryCount ≤ maxEntries := by
    intro hle
    by_contra hmany
    rw [hopen hle, reserve, if_pos (by omega)] at hresult
    exact hresult rfl
  refine { directory_end := hend, count := hcount, locals := ?_ }
  intro hle entries hentries
  have hmany := hcount hle
  rw [hopen hle, reserve, if_neg (by omega), Checked.pure_bind,
    (readHeaders_parses hsize _ _ (by omega)).eq_pure hentries, Checked.pure_bind] at hnoted
  exact computeDataOffsets_unnoted hsize hnoted

/-- The archive of a file whose sums fit. -/
theorem safe_of_fits (hsize : file.length < 2 ^ 63) (h : Fits maxEntries file) :
    Safe maxEntries file := by
  have hopen : openWhole maxEntries file = _ := openWhole_eq hsize
  have hparses : Parses (openWhole maxEntries file)
      ((directory file).bind fun d =>
        (if file.length < d.cdOffset + d.cdSize then none
        else (headers file d.cdOffset d.entryCount).bind (locateAll file)).bind
          fun entries =>
            some { chunkLoad := false, file := file, entries := entries }) := by
    rw [hopen]
    refine acts_bind (wholeDirectory_parses h.zip64) (fun d hd => ?_)
    refine acts_bind (wholeEntries_parses hsize (h.directory d hd)) (fun entries _ => ?_)
    exact acts_pure _
  rcases hparses with ⟨archive, harchive, hpure⟩ | ⟨-, e, he, hfail⟩
  · refine { unwrapped := by rw [hpure]; rfl, result := ?_ }
    rw [hpure]
    obtain ⟨d, -, hrest⟩ := Option.bind_eq_some_iff.mp harchive
    obtain ⟨entries, hentries, harchive'⟩ := Option.bind_eq_some_iff.mp hrest
    obtain rfl := Option.some.inj harchive'
    split at hentries
    · simp at hentries
    · obtain ⟨es, -, hlocated⟩ := Option.bind_eq_some_iff.mp hentries
      exact locateAll_inside hlocated
  · refine { unwrapped := by rw [hfail]; rfl, result := ?_ }
    rw [hfail]
    exact he

/--
Opening a file that has a size is safe exactly when no sum of its fields reaches
2^64 where it is formed and the entries can be reserved.
-/
theorem safe_iff (maxEntries : Nat) (file : Bytes) :
    Safe maxEntries file ↔ (file.length < 2 ^ 63 → Fits maxEntries file) := by
  constructor
  · intro hsafe hsize
    have hnoted := hsafe.unwrapped
    have hresult := hsafe.result
    rw [openWhole_eq hsize] at hnoted hresult
    have hzip64 : ∀ z, zip64Offset file = some z → z + 56 < word := by
      intro z hz
      by_contra hwraps
      rw [noted_bind (wholeDirectory_wraps hz (by omega))] at hnoted
      simp at hnoted
    refine { zip64 := hzip64, directory := fun d hd => ?_ }
    rw [(wholeDirectory_parses hzip64).eq_pure hd, pure_bind] at hnoted hresult
    refine directoryFits_of_safe hsize (unnoted_left hnoted) ?_
    intro hlength
    rw [result_bind_error hlength] at hresult
    exact hresult
  · intro hfits
    by_cases hsize : file.length < 2 ^ 63
    · exact safe_of_fits hsize (hfits hsize)
    · rw [not_lt] at hsize
      refine { unwrapped := ?_, result := ?_ }
      · rw [openWhole_large hsize]
        rfl
      · rw [openWhole_large hsize]
        trivial

/--
An archive of 42 bytes: a ZIP64 locator with the offset 2^64 - 56, and an end record
that refers to it.
-/
def zip64Outside : Bytes :=
  encode 4 kZip64EndOfCentralDirectoryLocator ++ encode 4 0 ++
    encode 8 (2 ^ 64 - 56) ++ encode 4 1 ++
    encode 4 kEndOfCentralDirectory ++ encode 2 0 ++ encode 2 0 ++ encode 2 0xffff ++
    encode 2 0xffff ++ encode 4 0 ++ encode 4 0 ++ encode 2 0

/-- The check of the ZIP64 offset passes, and the record is read outside the buffer. -/
theorem openWhole_reads_outside :
    (openWhole 1024 zip64Outside).noted = true ∧
      (openWhole 1024 zip64Outside).result = .error .outOfBounds ∧
      ¬ Safe 1024 zip64Outside := by
  have hnoted : (openWhole 1024 zip64Outside).noted = true := by decide +kernel
  have hresult : (openWhole 1024 zip64Outside).result = .error .outOfBounds := by rfl
  refine ⟨hnoted, hresult, fun hsafe => ?_⟩
  rw [hsafe.unwrapped] at hnoted
  exact Bool.noConfusion hnoted

end Whole

end Pth
end RwkvLightning

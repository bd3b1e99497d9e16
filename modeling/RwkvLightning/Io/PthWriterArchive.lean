import RwkvLightning.Io.PthWriter
import RwkvLightning.Io.PthReadersAgree
import RwkvLightning.Library.Cursor

/-!
# What the writer of archives has written is read back

**Results.**
* `zipBytes_eq_ok`: the local records, the central directory and the end record.
* `proper_zip`: below 4 GiB and 65535 entries every record is found where it is declared.
* `readStoredEntry_zip`: the data of an entry.
-/

namespace RwkvLightning
namespace Pth
namespace Writer

open LittleEndian (encode slice field length_encode)
open Cursor (HasAt hasAt_append hasAt_self)

section Records

variable {entry : Entry} {entries : List Entry} {file buffer : Bytes} {pos out : Nat}

theorem length_localRecord (entry : Entry) :
    (localRecord entry).length = 30 + entry.name.length + entry.data.length := by
  simp only [localRecord, u16, u32, List.length_append, length_encode]

theorem length_centralRecord (entry : Entry) :
    (centralRecord entry).length = 46 + entry.name.length := by
  simp only [centralRecord, u16, u32, List.length_append, length_encode]

theorem length_endRecord (entryCount centralSize centralOffset : Nat) :
    (endRecord entryCount centralSize centralOffset).length = 22 := by
  simp only [endRecord, u16, u32, List.length_append, length_encode]

/-- The entries in their places, behind `out` bytes. -/
def placed : Nat → List Entry → List Entry
  | _, [] => []
  | out, entry :: entries =>
      entry.placedAt out :: placed (out + (localRecord (entry.placedAt out)).length) entries

@[simp] theorem length_placed (out : Nat) (entries : List Entry) :
    (placed out entries).length = entries.length := by
  induction entries generalizing out with
  | nil => rfl
  | cons entry entries ih => rw [placed, List.length_cons, ih, List.length_cons]

/-- The lengths that the checks let pass. -/
def Bounded (entry : Entry) : Prop :=
  entry.data.length < 2 ^ 32 ∧ entry.name.length < 2 ^ 16

theorem writeLocals_eq_ok {locals : Bytes × List Entry}
    (h : writeLocals file entries = .ok locals) :
    locals = (file ++ (placed file.length entries).flatMap localRecord,
      placed file.length entries) ∧ ∀ entry ∈ entries, Bounded entry := by
  induction entries generalizing file locals with
  | nil =>
      obtain rfl := Except.ok.inj h
      exact ⟨by rw [placed, List.flatMap_nil, List.append_nil], fun _ hmem =>
        absurd hmem List.not_mem_nil⟩
  | cons entry entries ih =>
      rw [writeLocals] at h
      split at h
      · cases h
      next hbounds =>
      dsimp only at h
      split at h
      · cases h
      next rest hrest =>
      obtain ⟨rfl, hall⟩ := ih hrest
      obtain rfl := Except.ok.inj h
      refine ⟨?_, fun entry' hmem => ?_⟩
      · rw [placed, List.flatMap_cons, List.length_append, List.append_assoc]
      · rcases List.mem_cons.mp hmem with rfl | hmem
        · exact ⟨by omega, by omega⟩
        · exact hall entry' hmem

/-- What the headers of an entry can hold. -/
structure Fits (entry : Entry) : Prop where
  data : entry.data.length < 2 ^ 32 - 1
  name : entry.name.length < 2 ^ 16
  crc : entry.crc < 2 ^ 32
  offset : entry.offset < 2 ^ 32 - 1

/-- The entry as the directory has it, and with its data. -/
def listed (entry : Entry) : PthEntry where
  name := entry.name
  compressionMethod := 0
  crc32 := entry.crc
  compressedSize := entry.data.length
  uncompressedSize := entry.data.length
  localHeaderOffset := entry.offset
  dataOffset := 0

def located (entry : Entry) : PthEntry :=
  { listed entry with dataOffset := entry.offset + 30 + entry.name.length }

/-- The fields of a local record. -/
theorem local_fields (h : HasAt file pos (localRecord entry)) (hname : entry.name.length < 2 ^ 16) :
    Pth.u32 file pos = kLocalFileHeader ∧ Pth.u16 file (pos + 26) = entry.name.length ∧
      Pth.u16 file (pos + 28) = 0 ∧ HasAt file (pos + 30 + entry.name.length) entry.data := by
  simp only [localRecord, u16, u32, hasAt_append, List.length_append, length_encode,
    Nat.reduceAdd, ← Nat.add_assoc] at h
  obtain ⟨⟨⟨⟨⟨⟨⟨⟨⟨⟨⟨⟨hsignature, -⟩, -⟩, -⟩, -⟩, -⟩, -⟩, -⟩, -⟩, hlength⟩, hextra⟩, -⟩, hdata⟩ := h
  exact ⟨hsignature.field_eq (by decide), hlength.field_eq hname, hextra.field_eq (by decide),
    hdata⟩

/-- The fields of a header in the directory. -/
structure CentralFields (buffer : Bytes) (pos : Nat) (entry : Entry) : Prop where
  inside : pos + 46 + entry.name.length ≤ buffer.length
  signature : Pth.u32 buffer pos = kCentralDirectoryFileHeader
  compressionMethod : Pth.u16 buffer (pos + 10) = 0
  crc : Pth.u32 buffer (pos + 16) = entry.crc
  compressedSize : Pth.u32 buffer (pos + 20) = entry.data.length
  uncompressedSize : Pth.u32 buffer (pos + 24) = entry.data.length
  nameLength : Pth.u16 buffer (pos + 28) = entry.name.length
  extraLength : Pth.u16 buffer (pos + 30) = 0
  commentLength : Pth.u16 buffer (pos + 32) = 0
  localOffset : Pth.u32 buffer (pos + 42) = entry.offset
  name : slice buffer (pos + 46) entry.name.length = entry.name

theorem central_fields (h : HasAt buffer pos (centralRecord entry)) (hfits : Fits entry) :
    CentralFields buffer pos entry := by
  have hle := h.le_length
  have hdata := hfits.data
  have hoffset := hfits.offset
  rw [length_centralRecord, ← Nat.add_assoc] at hle
  simp only [centralRecord, u16, u32, hasAt_append, List.length_append, length_encode,
    Nat.reduceAdd] at h
  obtain ⟨⟨⟨⟨⟨⟨⟨⟨⟨⟨⟨⟨⟨⟨⟨⟨⟨hsignature, -⟩, -⟩, -⟩, hmethod⟩, -⟩, -⟩, hcrc⟩, hcompressed⟩,
    huncompressed⟩, hlength⟩, hextra⟩, hcomment⟩, -⟩, -⟩, -⟩, hlocal⟩, hname⟩ := h
  exact
    { inside := hle
      signature := hsignature.field_eq (by decide)
      compressionMethod := hmethod.field_eq (by decide)
      crc := hcrc.field_eq hfits.crc
      compressedSize := hcompressed.field_eq (by omega)
      uncompressedSize := huncompressed.field_eq (by omega)
      nameLength := hlength.field_eq hfits.name
      extraLength := hextra.field_eq (by decide)
      commentLength := hcomment.field_eq (by decide)
      localOffset := hlocal.field_eq (by omega)
      name := hname.2 }

theorem header_of_hasAt (h : HasAt buffer pos (centralRecord entry)) (hfits : Fits entry) :
    header buffer pos = some (listed entry, pos + (centralRecord entry).length) := by
  have hfields := central_fields h hfits
  have hinside := hfields.inside
  have hdata := hfits.data
  have hoffset := hfits.offset
  have hneeds : (needsOf buffer pos).any = false := by
    rw [Needs.any, needsOf]
    dsimp only
    rw [hfields.uncompressedSize, hfields.compressedSize, hfields.localOffset,
      decide_eq_false (by omega), decide_eq_false (by omega)]
    rfl
  have hentry : fixedEntry buffer pos = listed entry := by
    rw [fixedEntry, hfields.compressionMethod, hfields.crc, hfields.compressedSize,
      hfields.uncompressedSize, hfields.localOffset, hfields.nameLength, hfields.name]
    rfl
  have hend : headerEnd buffer pos = pos + 46 + entry.name.length := by
    rw [headerEnd, nameEnd, hfields.nameLength, hfields.extraLength, Nat.add_zero]
  have hnameEnd : nameEnd buffer pos = pos + 46 + entry.name.length := by
    rw [nameEnd, hfields.nameLength]
  have hblocks : extraBlocks buffer (needsOf buffer pos) (pos + 46 + entry.name.length)
      (listed entry) (0 / 4 + 1) (pos + 46 + entry.name.length) = some (listed entry) := by
    rw [extraBlocks, if_neg (by omega), hneeds]
    rfl
  rw [header, if_neg (by omega), if_neg (not_not_intro hfields.signature), hend, hnameEnd,
    if_neg (by omega), if_neg (by omega), hentry, hfields.extraLength, hblocks, Option.bind_some,
    hfields.commentLength, length_centralRecord, Nat.add_zero, Nat.add_assoc]

/-- The directory lists the entries. -/
theorem headers_of_hasAt (h : HasAt buffer pos (entries.flatMap centralRecord))
    (hfits : ∀ entry ∈ entries, Fits entry) :
    headers buffer pos entries.length = some (entries.map listed) := by
  induction entries generalizing pos with
  | nil => rfl
  | cons entry entries ih =>
      rw [List.flatMap_cons, hasAt_append] at h
      rw [List.length_cons, headers, header_of_hasAt h.1 (hfits entry List.mem_cons_self),
        Option.bind_some, ih h.2 fun entry' hmem => hfits entry' (List.mem_cons_of_mem _ hmem)]
      rfl

theorem locate_of_hasAt (h : HasAt file entry.offset (localRecord entry))
    (hname : entry.name.length < 2 ^ 16) : locate file (listed entry) = some (located entry) := by
  obtain ⟨hsignature, hlength, hextra, hdata⟩ := local_fields h hname
  have hle := hdata.le_length
  have hstart : dataOffset file (listed entry) = some (entry.offset + 30 + entry.name.length) := by
    rw [dataOffset, listed, if_neg (by dsimp only; omega), if_neg (not_not_intro hsignature),
      hlength, hextra, Nat.add_zero]
  rw [locate, hstart, Option.bind_some, listed, if_neg (by dsimp only; omega)]
  rfl

theorem locateAll_of_hasAt (h : ∀ entry ∈ entries, HasAt file entry.offset (localRecord entry))
    (hname : ∀ entry ∈ entries, entry.name.length < 2 ^ 16) :
    locateAll file (entries.map listed) = some (entries.map located) := by
  induction entries with
  | nil => rfl
  | cons entry entries ih =>
      rw [List.map_cons, locateAll,
        locate_of_hasAt (h entry List.mem_cons_self) (hname entry List.mem_cons_self),
        Option.bind_some, ih (fun entry' hmem => h entry' (List.mem_cons_of_mem _ hmem))
          fun entry' hmem => hname entry' (List.mem_cons_of_mem _ hmem)]
      rfl

/-- The local records stand where the entries say. -/
theorem hasAt_placed (h : HasAt file out ((placed out entries).flatMap localRecord))
    (hsize : file.length < 2 ^ 32) :
    ∀ entry ∈ placed out entries, HasAt file entry.offset (localRecord entry) := by
  induction entries generalizing out with
  | nil => exact fun _ hmem => absurd hmem List.not_mem_nil
  | cons entry entries ih =>
      rw [placed, List.flatMap_cons, hasAt_append] at h
      intro entry' hmem
      rcases List.mem_cons.mp hmem with rfl | hmem
      · have hle := h.1.le_length
        have hoffset : (entry.placedAt out).offset = out := Nat.mod_eq_of_lt (by omega)
        rw [hoffset]
        exact h.1
      · exact ih h.2 entry' hmem

/-- Placing an entry keeps its name and its data. -/
theorem of_mem_placed (h : entry ∈ placed out entries) :
    entry.crc < 2 ^ 32 ∧
      ∃ entry' ∈ entries, entry'.name = entry.name ∧ entry'.data = entry.data := by
  induction entries generalizing out with
  | nil => exact absurd h List.not_mem_nil
  | cons first entries ih =>
      rcases List.mem_cons.mp h with rfl | h
      · exact ⟨(crc32 first.data).toNat_lt, first, List.mem_cons_self, rfl, rfl⟩
      · obtain ⟨hcrc, entry', hmem, hsame⟩ := ih h
        exact ⟨hcrc, entry', List.mem_cons_of_mem _ hmem, hsame⟩

end Records

section Archive

variable {entries : List Entry} {file : Bytes} {maxEntries : Nat}

/-- An archive below 4 GiB: the local records, the directory and the end record. -/
structure Zipped (entries : List Entry) (file : Bytes) : Prop where
  bytes : file = (placed 0 entries).flatMap localRecord ++
    ((placed 0 entries).flatMap centralRecord ++
      endRecord entries.length ((placed 0 entries).flatMap centralRecord).length
        ((placed 0 entries).flatMap localRecord).length)
  names : ∀ entry ∈ entries, entry.name.length < 2 ^ 16
  small : file.length < 2 ^ 32

theorem zipBytes_eq_ok (h : zipBytes entries = .ok file) (hsize : file.length < 2 ^ 32) :
    Zipped entries file ∧ entries.length ≤ 65535 := by
  rw [zipBytes] at h
  split at h
  · cases h
  next hcount =>
  split at h
  · cases h
  next locals hlocals =>
  obtain ⟨rfl, hbounded⟩ := writeLocals_eq_ok hlocals
  have hfile := Except.ok.inj h
  dsimp only [List.nil_append, List.length_nil] at hfile
  have hlength := congrArg List.length hfile
  rw [List.length_append, length_endRecord, List.length_append] at hlength
  have hoffset : ((placed 0 entries).flatMap localRecord).length % 2 ^ 32 =
      ((placed 0 entries).flatMap localRecord).length := Nat.mod_eq_of_lt (by omega)
  refine ⟨⟨?_, fun entry hmem => (hbounded entry hmem).2, hsize⟩, Nat.le_of_not_lt hcount⟩
  rw [← hfile, List.append_assoc, hoffset, List.length_append]
  congr 3
  omega

theorem Zipped.length_eq (h : Zipped entries file) :
    file.length = ((placed 0 entries).flatMap localRecord).length +
      (((placed 0 entries).flatMap centralRecord).length + 22) := by
  conv_lhs => rw [h.bytes]
  rw [List.length_append, List.length_append, length_endRecord]

/-- The three parts of the file. -/
theorem Zipped.parts (h : Zipped entries file) :
    HasAt file 0 ((placed 0 entries).flatMap localRecord) ∧
      HasAt file ((placed 0 entries).flatMap localRecord).length
        ((placed 0 entries).flatMap centralRecord) ∧
      HasAt file (file.length - 22)
        (endRecord entries.length ((placed 0 entries).flatMap centralRecord).length
          ((placed 0 entries).flatMap localRecord).length) := by
  have hlength := h.length_eq
  have hself : HasAt file 0 ((placed 0 entries).flatMap localRecord ++
      ((placed 0 entries).flatMap centralRecord ++
        endRecord entries.length ((placed 0 entries).flatMap centralRecord).length
          ((placed 0 entries).flatMap localRecord).length)) := by
    rw [← h.bytes]
    exact hasAt_self
  rw [hasAt_append, hasAt_append, Nat.zero_add] at hself
  refine ⟨hself.1, hself.2.1, ?_⟩
  have hpos : file.length - 22 = ((placed 0 entries).flatMap localRecord).length +
      ((placed 0 entries).flatMap centralRecord).length := by omega
  rw [hpos]
  exact hself.2.2

theorem Zipped.fits (h : Zipped entries file) : ∀ entry ∈ placed 0 entries, Fits entry := by
  intro entry hmem
  obtain ⟨hcrc, entry', hmem', hname, -⟩ := of_mem_placed hmem
  have hlocal := (hasAt_placed h.parts.1 h.small entry hmem).le_length
  have hsmall := h.small
  have hlength := h.length_eq
  rw [length_localRecord] at hlocal
  exact ⟨by omega, hname ▸ h.names entry' hmem', hcrc, by omega⟩

/-- The end record is the first one that the search meets. -/
theorem Zipped.directory_eq (h : Zipped entries file) (hcount : entries.length < 65535) :
    directory file = some
      { entryCount := entries.length
        cdSize := ((placed 0 entries).flatMap centralRecord).length
        cdOffset := ((placed 0 entries).flatMap localRecord).length } := by
  have hlength := h.length_eq
  have hsmall := h.small
  have hrecord := h.parts.2.2
  simp only [endRecord, u16, u32, hasAt_append, List.length_append, length_encode,
    Nat.reduceAdd] at hrecord
  obtain ⟨⟨⟨⟨⟨⟨⟨hsignature, hdisk⟩, hcdDisk⟩, -⟩, hentryCount⟩, hcdSize⟩, hcdOffset⟩, -⟩ := hrecord
  have hposition : endPosition file = some (file.length - 22) := by
    have hfound : Pth.u32 file (file.length - 22) = kEndOfCentralDirectory :=
      hsignature.field_eq (by decide)
    rw [endPosition, if_neg (by omega)]
    cases hpos : file.length - 22 with
    | zero =>
        rw [hpos] at hfound
        rw [lastEnd, if_pos hfound]
    | succ pos =>
        rw [hpos] at hfound
        rw [lastEnd, if_pos hfound]
  have hend : Pth.endRecord file (file.length - 22) = some
      { entryCount := entries.length
        cdSize := ((placed 0 entries).flatMap centralRecord).length
        cdOffset := ((placed 0 entries).flatMap localRecord).length } := by
    have hdisk' : Pth.u16 file (file.length - 22 + 4) = 0 := hdisk.field_eq (by decide)
    have hcdDisk' : Pth.u16 file (file.length - 22 + 6) = 0 := hcdDisk.field_eq (by decide)
    have hcount' : Pth.u16 file (file.length - 22 + 10) = entries.length :=
      hentryCount.field_eq (by omega)
    have hcdSize' : Pth.u32 file (file.length - 22 + 12) =
        ((placed 0 entries).flatMap centralRecord).length := hcdSize.field_eq (by omega)
    have hcdOffset' : Pth.u32 file (file.length - 22 + 16) =
        ((placed 0 entries).flatMap localRecord).length := hcdOffset.field_eq (by omega)
    rw [Pth.endRecord, hdisk', hcdDisk', hcount', hcdSize', hcdOffset',
      if_neg (by rintro (hne | hne) <;> exact hne rfl)]
  have hneeds : ¬(Directory.needsZip64
      { entryCount := entries.length
        cdSize := ((placed 0 entries).flatMap centralRecord).length
        cdOffset := ((placed 0 entries).flatMap localRecord).length }) = true := by
    rw [Directory.needsZip64, Bool.or_eq_true, Bool.or_eq_true, decide_eq_true_iff,
      decide_eq_true_iff, decide_eq_true_iff]
    dsimp only
    omega
  rw [directory, hposition, Option.bind_some, hend, Option.bind_some, if_neg hneeds]

/-- Every record is where the file declares it. -/
theorem proper_zip (h : Zipped entries file) (hmax : entries.length ≤ maxEntries) :
    ProperDirectory maxEntries file
      { entryCount := entries.length
        cdSize := ((placed 0 entries).flatMap centralRecord).length
        cdOffset := ((placed 0 entries).flatMap localRecord).length }
      ((placed 0 entries).map located) where
  count := hmax
  located := by
    obtain ⟨hlocals, hcentrals, -⟩ := h.parts
    have hlength := h.length_eq
    have hheaders :=
      headers_of_hasAt (@hasAt_self ((placed 0 entries).flatMap centralRecord)) h.fits
    rw [length_placed] at hheaders
    rw [chunkedLocated, if_neg (by dsimp only; omega)]
    dsimp only
    rw [hcentrals.slice_eq rfl, hheaders, Option.bind_some]
    exact locateAll_of_hasAt (hasAt_placed hlocals h.small)
      fun entry hmem => (h.fits entry hmem).name

/-- The archive that both readers open. -/
def archiveOf (chunkLoad : Bool) (entries : List Entry) (file : Bytes) : PthArchive where
  chunkLoad := chunkLoad
  file := file
  entries := (placed 0 entries).map located

theorem open_zip (h : Zipped entries file) (hcount : entries.length < 65535)
    (hmax : entries.length ≤ maxEntries) :
    openWhole maxEntries file = pure (archiveOf false entries file) ∧
      openChunked maxEntries file = pure (archiveOf true entries file) := by
  have hsmall := h.small
  have hdirectory := h.directory_eq hcount
  have hproper := proper_zip h hmax
  exact ⟨openWhole_proper (by omega) hdirectory hproper,
    openChunked_eq (by omega) hdirectory hproper⟩

/-- The data of an entry. -/
theorem readStoredEntry_zip (h : Zipped entries file) {entry : Entry}
    (hmem : entry ∈ placed 0 entries) (chunkLoad : Bool) :
    (archiveOf chunkLoad entries file).readStoredEntry (located entry) = pure entry.data := by
  have hsmall := h.small
  have hlocal := hasAt_placed h.parts.1 h.small entry hmem
  obtain ⟨-, -, -, hdata⟩ := local_fields hlocal (h.fits entry hmem).name
  have hle := hdata.le_length
  have hmemory : (archiveOf false entries file).readStoredEntry (located entry) =
      pure entry.data := by
    have hstored : ¬(!(located entry).isStored) = true := Bool.false_ne_true
    have hinside : ¬((archiveOf false entries file).file.length < (located entry).dataOffset ∨
        (archiveOf false entries file).file.length - (located entry).dataOffset <
          (located entry).uncompressedSize) := by
      change ¬(file.length < entry.offset + 30 + entry.name.length ∨
        file.length - (entry.offset + 30 + entry.name.length) < entry.data.length)
      omega
    rw [PthArchive.readStoredEntry, errorIf, if_neg hstored, Checked.pure_bind, errorIf,
      if_neg hinside, Checked.pure_bind]
    exact (if_neg Bool.false_ne_true).trans (congrArg pure hdata.2)
  cases chunkLoad with
  | false => exact hmemory
  | true =>
      have hshort : (archiveOf true entries file).file.length < 2 ^ 63 :=
        Nat.lt_trans hsmall (by decide)
      exact (readStoredEntry_inMemory hshort _).trans hmemory

/-- The first entry with such a name. -/
theorem find_placed {entry : Entry} {named : Bytes → Bool} (out : Nat)
    (h : entries.find? (fun entry => named entry.name) = some entry) :
    ∃ entry' ∈ placed out entries, entry'.name = entry.name ∧ entry'.data = entry.data ∧
      ((placed out entries).map located).find? (fun entry => named entry.name) =
        some (located entry') := by
  induction entries generalizing out with
  | nil => cases h
  | cons first entries ih =>
      rw [placed, List.map_cons]
      have hname : (located (first.placedAt out)).name = first.name := rfl
      cases hfirst : named first.name with
      | true =>
          simp only [List.find?_cons, hfirst, Option.some.injEq] at h
          subst h
          refine ⟨first.placedAt out, List.mem_cons_self, rfl, rfl, ?_⟩
          simp only [List.find?_cons, hname, hfirst]
      | false =>
          simp only [List.find?_cons, hfirst] at h
          obtain ⟨entry', hmem, hsame, hdata, hfind⟩ := ih _ h
          refine ⟨entry', List.mem_cons_of_mem _ hmem, hsame, hdata, ?_⟩
          simp only [List.find?_cons, hname, hfirst, hfind]

end Archive

end Writer
end Pth
end RwkvLightning

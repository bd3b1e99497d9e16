import RwkvLightning.Server.StatePthExact
import RwkvLightning.Io.PthTensorSafety
import Mathlib

/-!
# Validating a state file stays in the file

`validate_state_pth` bounds the shape, the strides and the offset of a tensor before it
lets `compute_tensor_stats` walk over the elements.

**Results.**
* `clean_checkDims`: the bounding loop itself does not overflow.
* `computeTensorStats_eq`: what the statistics read of a bounded tensor.
* `validateRecord_safe`: whatever the record, nothing overflows and no element outside the
  storage is read.
-/

namespace RwkvLightning
namespace StatePth

open Pth UploadedStateStore Checked Strided

section Steps

theorem clean_context_iff {α : Type} {text : String} {c : Io α} :
    Clean Outside (context text c) ↔ Clean Outside c := by
  have hresult : (context text c).result = .error .outOfBounds ↔
      c.result = .error .outOfBounds := by
    rw [context]
    cases c.result with
    | ok a => exact iff_of_false (by simp [Except.mapError]) (by simp)
    | error e => cases e <;> simp [Except.mapError]
  constructor
  · intro h
    refine { unnoted := h.unnoted, error := ?_ }
    rintro e he rfl
    exact h.error _ (hresult.mpr he) rfl
  · intro h
    refine { unnoted := h.unnoted, error := ?_ }
    rintro e he rfl
    exact h.error _ (hresult.mp he) rfl

theorem clean_error {α : Type} (message : String) (subject : Bytes) :
    Clean Outside (error message subject : Io α) :=
  clean_fail_iff.mpr (by simp)

theorem clean_stoi (text : Bytes) : Clean Outside (stoi text) := by
  rw [stoi]
  split
  · exact clean_error _ _
  · exact clean_pure _

theorem clean_sizes (found : Found) (record : TensorRecord) (heads headSize : Int) :
    Clean Outside (found.sizes record heads headSize) := by
  rw [Found.sizes]
  split
  · exact clean_pure _
  · exact clean_errorIf_iff.mpr fun _ => clean_pure _

end Steps

section Bounds

variable {archive : PthArchive} {record : TensorRecord}

/-- The loop that bounds the dimensions does not overflow. -/
theorem clean_checkDims {dims : List (Int × Int)} {last elements bound : Nat}
    (hbound : bound = kMaxUploadedStateBytes / dtypeSizeBytes record.dtype)
    (hstorage : record.storageSize ≤ bound) (hsizes : ∀ d ∈ dims, 0 < d.1)
    (hlast : last < record.storageSize) :
    Clean Outside (checkDims record dims last elements) := by
  have hword : word = 2 ^ 64 := rfl
  have hmax : kMaxUploadedStateBytes = 2 ^ 29 := rfl
  have hfits : bound ≤ 2 ^ 29 := by
    rw [hbound, ← hmax]
    exact Nat.div_le_self _ _
  induction dims generalizing last elements with
  | nil => exact clean_pure _
  | cons d dims ih =>
      obtain ⟨size, stride⟩ := d
      have hsize : 0 < size := hsizes _ List.mem_cons_self
      rw [checkDims, clean_errorIf_iff]
      intro hsmall
      obtain ⟨-, hproduct, hstep⟩ := checkDims_step hbound hsize hlast hsmall
      rw [clean_mul_iff, clean_errorIf_iff]
      refine ⟨by omega, fun hrange => ?_⟩
      have hinside := hstep hrange
      rw [clean_mul_iff, clean_add_iff]
      exact ⟨by omega, by omega, ih (fun d' hd' => hsizes d' (List.mem_cons_of_mem _ hd')) hinside⟩

end Bounds

section Scan

variable {archive : PthArchive} {record : TensorRecord}

/--
The indices at which `compute_tensor_stats` reads: its loops, with the index in the place
of the element.
-/
def visitedElements (record : TensorRecord) : Io (List Nat) := do
  let n ← numel record.shape
  if n = 0 then pure []
  else do
    let contiguous ← isContiguous record.shape record.stride
    if contiguous then readContiguous record pure n
    else loadStrided pure record.dims record.storageOffset

theorem readAll_pure (is : List Nat) : readAll pure is = (pure is : Io (List Nat)) := by
  have hmap := @readAll_eq Nat pure id is fun i _ => rfl
  rwa [List.map_id] at hmap

/-- A bounded tensor is visited in row-major order. -/
theorem visitedElements_eq (h : Bounded record) :
    visitedElements record = pure (addresses record.view record.storageOffset) := by
  obtain ⟨storage, hreadable⟩ := h.exists_readable
  have hvolume : 0 < volume record.view := volume_pos h.forward.sizes_pos
  have hsmall := h.small
  obtain ⟨b, hb, hdense⟩ := isContiguous_eq h.rank h.forward (by omega)
  rw [visitedElements, hreadable.numel_eq, pure_bind, if_neg (by omega), hb, pure_bind]
  cases b with
  | true => rw [if_pos rfl, hreadable.readContiguous_eq (hdense.mp rfl), readAll_pure]
  | false =>
      rw [if_neg Bool.false_ne_true]
      exact (loadStrided_eq h.forward hreadable.last_lt).trans (readAll_pure _)

/-- What the statistics read of a bounded tensor. -/
theorem computeTensorStats_eq (h : Bounded record) :
    computeTensorStats archive record =
      (tensorStorage archive record >>= fun storage =>
        readAll (readElementAsFloat storage record.dtype)
            (addresses record.view record.storageOffset) >>= fun _ => pure ⟨⟩) := by
  have hbytes := h.storage
  have hword : word = 2 ^ 64 := rfl
  rw [computeTensorStats]
  refine bind_congr fun storage hstorage => ?_
  have hlength := tensorStorage_length hstorage
  rw [Nat.mod_eq_of_lt (by omega)] at hlength
  have hreadable := h.readable hlength
  have hvolume : 0 < volume record.view := volume_pos h.forward.sizes_pos
  have hsmall := h.small
  obtain ⟨b, hb, hdense⟩ := isContiguous_eq h.rank h.forward (by omega)
  rw [hreadable.numel_eq, pure_bind, if_neg (by omega), hb, pure_bind]
  cases b with
  | true =>
      rw [if_pos rfl, hreadable.checkContiguous_eq (hdense.mp rfl), pure_bind,
        hreadable.readContiguous_eq (hdense.mp rfl)]
  | false =>
      rw [if_neg Bool.false_ne_true, scanStrided]
      have hloop := @loadStrided_eq _ (readElementAsFloat storage record.dtype) _ _ h.forward
        hreadable.last_lt
      rw [TensorRecord.dims] at hloop
      rw [hloop]
      rfl

theorem clean_computeTensorStats (hsize : archive.file.length < 2 ^ 63) (h : Bounded record) :
    Clean Outside (computeTensorStats archive record) := by
  have hbytes := h.storage
  have hword : word = 2 ^ 64 := rfl
  rw [computeTensorStats_eq h, clean_tensorStorage_iff hsize]
  refine fun storage _ => ⟨by omega, fun hlength => ?_⟩
  refine (clean_bind_left fun _ _ => clean_pure _).mpr ?_
  refine (readAll_clean_iff fun _ => onlyFails_readElementAsFloat).mpr fun a ha => ?_
  have hinside := h.inside
  have hle := mem_addresses_le ha
  exact (element_clean_iff hlength (by omega) a).1.mpr (by omega)

end Scan

/--
A record of any shape: its checks and its scan overflow nowhere and read no element outside
its storage.  Where it is accepted, the scan reads at the visited indices, which are below
the storage size.
-/
theorem validateRecord_safe {maxEntries : Nat} {file : Bytes} {archive : PthArchive}
    (hopen : (openChunked maxEntries file).result = .ok archive) (found : Found)
    (record : TensorRecord) :
    Clean Outside (validateRecord archive found record) ∧
      ∀ found', (validateRecord archive found record).result = .ok found' →
        ∃ visited, visitedElements record = pure visited ∧
          (∀ a ∈ visited, a < record.storageSize) ∧
          computeTensorStats archive record =
            (tensorStorage archive record >>= fun storage =>
              readAll (readElementAsFloat storage record.dtype) visited >>= fun _ => pure ⟨⟩) := by
  have hsize := (openWhole_of_chunked hopen).1
  rw [validateRecord]
  constructor
  · rw [clean_errorIf_iff]
    intro _
    refine clean_bind_iff.mpr ⟨clean_stoi _, fun layer _ => ?_⟩
    rw [clean_errorIf_iff, clean_errorIf_iff]
    intro _ _
    split
    · exact clean_error _ _
    rename_i heads headSize hsizes
    refine clean_bind_iff.mpr ⟨clean_sizes _ _ _ _, fun found₁ _ => ?_⟩
    rw [clean_errorIf_iff]
    intro hstorage
    have hbound : record.storageSize ≤
        kMaxUploadedStateBytes / dtypeSizeBytes record.dtype := by omega
    refine clean_bind_iff.mpr ⟨?_, fun u hdims => ?_⟩
    · exact clean_checkDims rfl hbound (dims_pos hsizes) (by omega)
    · refine (clean_bind_left fun _ _ => clean_pure _).mpr (clean_context_iff.mpr ?_)
      exact clean_computeTensorStats hsize (bounded_of_checks hsizes hstorage hdims)
  · intro found' h
    obtain ⟨-, h⟩ := errorIf_bind_ok h
    obtain ⟨layer, -, h⟩ := result_bind_eq_ok h
    obtain ⟨-, h⟩ := errorIf_bind_ok h
    obtain ⟨-, h⟩ := errorIf_bind_ok h
    split at h
    · cases h
    rename_i heads headSize hsizes
    obtain ⟨found₁, -, h⟩ := result_bind_eq_ok h
    obtain ⟨hstorage, h⟩ := errorIf_bind_ok h
    obtain ⟨⟨⟩, hdims, -⟩ := result_bind_eq_ok h
    have hbounded := bounded_of_checks hsizes hstorage hdims
    refine ⟨_, visitedElements_eq hbounded, fun a ha => ?_, computeTensorStats_eq hbounded⟩
    exact lt_of_le_of_lt (mem_addresses_le ha) hbounded.inside

section Small

/-- A tensor of the shape (1, 1, 1). -/
def smallProgram : Bytes :=
  tensorProgram "blocks.0.att.time_state"
    [0x4B, 1, 0x4B, 1, 0x4B, 1, 0x87, 0x4B, 1, 0x4B, 1, 0x4B, 1, 0x87]

def smallFile : Bytes :=
  tensorFile smallProgram

def smallRecord : TensorRecord where
  name := ascii "blocks.0.att.time_state"
  dtype := .bFloat16
  storageKey := ascii "0"
  storageSize := 1
  storageOffset := 0
  shape := [1, 1, 1]
  stride := [1, 1, 1]

/-- What opening the file in chunks returns. -/
def smallArchive : PthArchive where
  chunkLoad := true
  file := smallFile
  entries :=
    [{ name := ascii "a/data.pkl", compressionMethod := 0, crc32 := 0, compressedSize := 140,
       uncompressedSize := 140, localHeaderOffset := 0, dataOffset := 40 },
     { name := ascii "a/data/0", compressionMethod := 0, crc32 := 0, compressedSize := 2,
       uncompressedSize := 2, localHeaderOffset := 180, dataOffset := 218 }]

/-- The tensor of this file is accepted, and its scan stays inside. -/
theorem validateRecord_safe_small :
    Clean Outside (validateRecord smallArchive Found.start smallRecord) ∧
      ∃ visited, visitedElements smallRecord = pure visited ∧
        ∀ a ∈ visited, a < smallRecord.storageSize := by
  have hopen : (openChunked 1024 smallFile).result = .ok smallArchive := by decide +kernel
  have haccepted : (validateRecord smallArchive Found.start smallRecord).result =
      .ok { layers := [0], heads := 1, headSize := 1 } := by decide +kernel
  obtain ⟨hclean, hvisits⟩ := validateRecord_safe hopen Found.start smallRecord
  obtain ⟨visited, hvisited, hinside, -⟩ := hvisits _ haccepted
  exact ⟨hclean, visited, hvisited, hinside⟩

end Small

end StatePth
end RwkvLightning

import RwkvLightning.Io.PthTensor
import RwkvLightning.Io.PthReadersAgree
import RwkvLightning.Library.Strided

/-!
# What reading a tensor gives

`element storage dtype i` is the float at index `i` of a storage.  A tensor is readable
in its storage when its sizes and strides are those of a view that ends inside.

**Results.**
* `parsePthTensorRecords_inMemory`, `tensorStorage_inMemory`: both modes of the archive
  give the same records and the same storages.
* `isContiguous_iff`: the test of the source tells whether the view is dense.
* `loadTensorSelect_eq`: a readable tensor loads as the elements of its view in row-major
  order, on the contiguous path as on the other one.
-/

namespace RwkvLightning
namespace Pth

open LittleEndian Checked Strided

section Modes

variable {archive : PthArchive}

theorem parsePthTensorRecords_inMemory (hsize : archive.file.length < 2 ^ 63) :
    parsePthTensorRecords archive = parsePthTensorRecords archive.inMemory := by
  have hread := fun entry => readStoredEntry_inMemory hsize entry
  simp only [parsePthTensorRecords, hread]
  rfl

theorem tensorStorage_inMemory (hsize : archive.file.length < 2 ^ 63) (record : TensorRecord) :
    tensorStorage archive record = tensorStorage archive.inMemory record := by
  have hread := fun entry => readStoredEntry_inMemory hsize entry
  simp only [tensorStorage, hread]
  rfl

end Modes

section Arithmetic

theorem mul_eq {a b : Nat} (h : a * b < word) : mul a b = pure (a * b) := by
  rw [mul, decide_eq_false (by omega), Checked.noteIf_false, Nat.mod_eq_of_lt h]

theorem mulInt_eq {a b : Int} (h : FitsInt (a * b)) : mulInt a b = pure (a * b) := by
  have hlow : -2 ^ 63 ≤ a * b := h.1
  have hhigh : a * b < 2 ^ 63 := h.2
  rw [mulInt, decide_eq_false (not_not_intro h), Checked.noteIf_false,
    Int.bmod_eq_of_le (by omega) (by omega)]

theorem moved_eq {index : Nat} {distance : Int} (hlow : 0 ≤ index + distance)
    (hhigh : index + distance < word) :
    moved index distance = pure (index + distance).toNat := by
  have hword : word = 2 ^ 64 := rfl
  have hwrap : (index + Pickle.toU64 distance) % word = (index + distance).toNat := by
    rw [Pickle.toU64, hword]
    omega
  rw [moved, decide_eq_false (by omega), Checked.noteIf_false, hwrap]

end Arithmetic

section Loops

variable {β : Type} {read : Nat → Io β} {g : Nat → β}

theorem readAll_eq {is : List Nat} (h : ∀ i ∈ is, read i = pure (g i)) :
    readAll read is = pure (is.map g) := by
  induction is with
  | nil => rfl
  | cons i is ih =>
      rw [readAll, h i List.mem_cons_self, pure_bind,
        ih fun j hj => h j (List.mem_cons_of_mem _ hj), pure_bind, List.map_cons]

theorem readAll_congr {read' : Nat → Io β} {is : List Nat} (h : ∀ i ∈ is, read i = read' i) :
    readAll read is = readAll read' is := by
  induction is with
  | nil => rfl
  | cons i is ih =>
      rw [readAll, readAll, h i List.mem_cons_self,
        ih fun j hj => h j (List.mem_cons_of_mem _ hj)]

theorem readAll_map {f : Nat → Nat} {is : List Nat} :
    readAll read (is.map f) = readAll (fun i => read (f i)) is := by
  induction is with
  | nil => rfl
  | cons i is ih => rw [List.map_cons, readAll, readAll, ih]

theorem readAll_append (is js : List Nat) :
    readAll read (is ++ js) =
      (readAll read is >>= fun first => readAll read js >>= fun rest => pure (first ++ rest)) := by
  induction is with
  | nil =>
      have hpure : (fun rest : List β => (pure ([] ++ rest) : Io (List β))) = pure := rfl
      rw [readAll, pure_bind, hpure, bind_pure]
      rfl
  | cons i is ih =>
      rw [List.cons_append, readAll, readAll, ih, Checked.bind_assoc]
      refine bind_congr fun value _ => ?_
      rw [Checked.bind_assoc, Checked.bind_assoc]
      refine bind_congr fun first _ => ?_
      rw [pure_bind, Checked.bind_assoc]
      exact bind_congr fun rest _ => pure_bind _ _

/-- A loop whose passes are loops. -/
theorem collect_eq {pass : Nat → Io (List β)} {piece : Nat → List Nat} {is : List Nat}
    (h : ∀ i ∈ is, pass i = readAll read (piece i)) :
    collect pass is = readAll read (is.flatMap piece) := by
  induction is with
  | nil => rfl
  | cons i is ih =>
      rw [collect, h i List.mem_cons_self, ih fun j hj => h j (List.mem_cons_of_mem _ hj),
        List.flatMap_cons, readAll_append]

/-- Sizes and strides as numbers. -/
def viewOf (dims : List (Int × Int)) : List Dim :=
  dims.map fun d => (d.1.toNat, d.2.toNat)

/-- Positive sizes, and strides that do not go back. -/
def Forward (dims : List (Int × Int)) : Prop :=
  ∀ d ∈ dims, 0 < d.1 ∧ 0 ≤ d.2

theorem Forward.tail {d : Int × Int} {dims : List (Int × Int)} (h : Forward (d :: dims)) :
    Forward dims :=
  fun d' hd' => h d' (List.mem_cons_of_mem _ hd')

theorem Forward.sizes_pos {dims : List (Int × Int)} (h : Forward dims) :
    ∀ d ∈ viewOf dims, 0 < d.1 := by
  intro d hd
  obtain ⟨d', hd', rfl⟩ := List.mem_map.mp hd
  have hpos := (h d' hd').1
  simp only
  omega

/-- The recursion over the dimensions visits the addresses of the view. -/
theorem loadStrided_eq {dims : List (Int × Int)} {offset : Nat} (hdims : Forward dims)
    (hlast : lastAddress (viewOf dims) offset < 2 ^ 63) :
    loadStrided read dims offset = readAll read (addresses (viewOf dims) offset) := by
  induction dims generalizing offset with
  | nil => rfl
  | cons d dims ih =>
      obtain ⟨hsize, hstride⟩ := hdims d List.mem_cons_self
      have hview : viewOf (d :: dims) = (d.1.toNat, d.2.toNat) :: viewOf dims := rfl
      rw [hview, lastAddress] at hlast
      rw [hview, addresses, loadStrided]
      refine collect_eq fun i hi => ?_
      have hlt : i < d.1.toNat := List.mem_range.mp hi
      have hmul : i * d.2.toNat ≤ (d.1.toNat - 1) * d.2.toNat :=
        Nat.mul_le_mul_right _ (by omega)
      have hinside : lastAddress (viewOf dims) (offset + i * d.2.toNat) < 2 ^ 63 :=
        lt_of_le_of_lt (lastAddress_mono (by simp only; omega)) hlast
      have hle := le_lastAddress (viewOf dims) (offset + i * d.2.toNat)
      have hword : word = 2 ^ 64 := rfl
      have hcast : ((i : Int) * d.2) = ((i * d.2.toNat : Nat) : Int) := by
        push_cast
        rw [Int.toNat_of_nonneg hstride]
      have hsum : (offset + ((i * d.2.toNat : Nat) : Int)).toNat = offset + i * d.2.toNat := by
        omega
      have hfits : FitsInt (i * d.2) := by
        rw [hcast]
        exact ⟨by omega, by omega⟩
      rw [mulInt_eq hfits, pure_bind, hcast, moved_eq (by omega) (by omega), pure_bind, hsum]
      exact ih hdims.tail hinside

end Loops

section Contiguity

/-- The loop of `is_contiguous`, as long as its product stays below 2^63. -/
theorem isContiguousLoop_eq {dims : List (Int × Int)} {step : Nat} (hdims : Forward dims)
    (hsmall : step * volume (viewOf dims) < 2 ^ 63) :
    ∃ b, isContiguousLoop dims step = pure b ∧ (b = true ↔ DenseFrom (viewOf dims) step) := by
  induction dims generalizing step with
  | nil => exact ⟨true, rfl, iff_of_true rfl trivial⟩
  | cons d dims ih =>
      obtain ⟨hsize, hstride⟩ := hdims d List.mem_cons_self
      have hview : viewOf (d :: dims) = (d.1.toNat, d.2.toNat) :: viewOf dims := rfl
      rw [hview, volume, ← Nat.mul_assoc] at hsmall
      have hvolume := volume_pos hdims.tail.sizes_pos
      have hproduct : step * d.1.toNat < 2 ^ 63 :=
        lt_of_le_of_lt (Nat.le_mul_of_pos_right _ hvolume) hsmall
      have hcast : (step : Int) * d.1 = ((step * d.1.toNat : Nat) : Int) := by
        push_cast
        rw [Int.toNat_of_nonneg hsize.le]
      have hfits : FitsInt (step * d.1) := by
        rw [hcast]
        exact ⟨by omega, by omega⟩
      obtain ⟨b, hb, hdense⟩ := ih hdims.tail hsmall
      rw [isContiguousLoop, if_neg (by omega), hview, DenseFrom]
      by_cases hgap : d.1 ≠ 1 ∧ d.2 ≠ step
      · refine ⟨false, if_pos hgap, iff_of_false (by simp) fun h => ?_⟩
        have heq := h.1 (by simp only; omega)
        simp only at heq
        omega
      · refine ⟨b, ?_, ?_⟩
        · rw [if_neg hgap, mulInt_eq hfits, pure_bind, hcast, hb]
        · rw [hdense, and_iff_right]
          intro hone
          simp only at hone ⊢
          omega

end Contiguity

/-- The dimensions of a tensor, each a size and a stride. -/
def TensorRecord.dims (record : TensorRecord) : List (Int × Int) :=
  record.shape.zip record.stride

/-- The view of a tensor. -/
def TensorRecord.view (record : TensorRecord) : List Dim :=
  viewOf record.dims

theorem isContiguous_eq {record : TensorRecord}
    (hrank : record.shape.length = record.stride.length) (hdims : Forward record.dims)
    (hsmall : volume record.view < 2 ^ 63) :
    ∃ b, isContiguous record.shape record.stride = pure b ∧ (b = true ↔ Dense record.view) := by
  have hreverse : viewOf record.dims.reverse = record.view.reverse := by
    rw [viewOf, List.map_reverse]
    rfl
  have hforward : Forward record.dims.reverse := fun d hd => hdims d (List.mem_reverse.mp hd)
  have hloop := @isContiguousLoop_eq record.dims.reverse 1 hforward (by
    rw [hreverse, volume_reverse, Nat.one_mul]
    exact hsmall)
  rw [hreverse, denseFrom_reverse] at hloop
  rw [isContiguous, if_neg (not_not_intro hrank)]
  exact hloop

/-- The loop of `numel`, as long as its product stays below 2^64. -/
theorem numelLoop_eq {dims : List (Int × Int)} {n : Nat} (hdims : Forward dims)
    (hsmall : n * volume (viewOf dims) < word) :
    numelLoop n (dims.map Prod.fst) = pure (n * volume (viewOf dims)) := by
  induction dims generalizing n with
  | nil =>
      rw [List.map_nil, numelLoop, viewOf, List.map_nil, volume, Nat.mul_one]
  | cons d dims ih =>
      have hview : viewOf (d :: dims) = (d.1.toNat, d.2.toNat) :: viewOf dims := rfl
      have hsize := (hdims d List.mem_cons_self).1
      have hvolume := volume_pos hdims.tail.sizes_pos
      rw [hview, volume, ← Nat.mul_assoc] at hsmall
      have hproduct : n * d.1.toNat < word :=
        lt_of_le_of_lt (Nat.le_mul_of_pos_right _ hvolume) hsmall
      rw [List.map_cons, numelLoop, if_neg (by omega), mul_eq hproduct, pure_bind,
        ih hdims.tail hsmall, hview, volume, Nat.mul_assoc]

/-- The float at an index of a storage. -/
def element (storage : Bytes) (dtype : TensorDType) (i : Nat) : UInt32 :=
  match dtype with
  | .bFloat16 => bf16BitsToFloat (UInt16.ofNat (field storage (i * 2) 2))
  | .float16 => f16BitsToFloat (UInt16.ofNat (field storage (i * 2) 2))
  | .float32 => UInt32.ofNat (field storage (i * 4) 4)

/-- The `bfloat16` at an index of a storage. -/
def elementBf16 (storage : Bytes) (dtype : TensorDType) (i : Nat) : UInt16 :=
  if dtype = .bFloat16 then UInt16.ofNat (field storage (i * 2) 2)
  else floatToBf16Bits (element storage dtype i)

/-- The elements of a tensor in row-major order. -/
def TensorRecord.elements (record : TensorRecord) (storage : Bytes) : List UInt32 :=
  (addresses record.view record.storageOffset).map (element storage record.dtype)

/-- A tensor whose elements lie in its storage. -/
structure Readable (record : TensorRecord) (storage : Bytes) : Prop where
  rank : record.shape.length = record.stride.length
  forward : Forward record.dims
  inside : lastAddress record.view record.storageOffset < record.storageSize
  length : record.storageSize * dtypeSizeBytes record.dtype = storage.length
  short : storage.length < 2 ^ 63
  small : volume record.view < 2 ^ 60

section Elements

variable {storage : Bytes} {dtype : TensorDType} {i : Nat}

theorem loadScalar_eq {off size : Nat} (h : off + size ≤ storage.length) :
    loadScalar storage off size = pure (field storage off size) := by
  rw [loadScalar, if_neg (by omega)]

theorem readElementAsFloat_eq (hshort : storage.length < 2 ^ 63)
    (h : (i + 1) * dtypeSizeBytes dtype ≤ storage.length) :
    readElementAsFloat storage dtype i = pure (element storage dtype i) := by
  have hword : word = 2 ^ 64 := rfl
  cases dtype with
  | bFloat16 =>
      rw [dtypeSizeBytes] at h
      rw [readElementAsFloat, dtypeSizeBytes, mul_eq (by omega), pure_bind]
      dsimp only
      rw [loadScalar_eq (by omega), pure_bind]
      rfl
  | float16 =>
      rw [dtypeSizeBytes] at h
      rw [readElementAsFloat, dtypeSizeBytes, mul_eq (by omega), pure_bind]
      dsimp only
      rw [loadScalar_eq (by omega), pure_bind]
      rfl
  | float32 =>
      rw [dtypeSizeBytes] at h
      rw [readElementAsFloat, dtypeSizeBytes, mul_eq (by omega), pure_bind]
      dsimp only
      rw [loadScalar_eq (by omega), pure_bind]
      rfl

theorem readElementAsBf16_eq (hshort : storage.length < 2 ^ 63)
    (h : (i + 1) * dtypeSizeBytes dtype ≤ storage.length) :
    readElementAsBf16 storage dtype i = pure (elementBf16 storage dtype i) := by
  have hword : word = 2 ^ 64 := rfl
  rw [readElementAsBf16, elementBf16]
  by_cases hdtype : dtype = .bFloat16
  · rw [hdtype, dtypeSizeBytes] at h
    rw [if_pos hdtype, if_pos hdtype, mul_eq (by omega), pure_bind, loadScalar_eq (by omega),
      pure_bind]
  · rw [if_neg hdtype, if_neg hdtype, readElementAsFloat_eq hshort h, pure_bind]

end Elements

section Tensors

variable {archive : PthArchive} {record : TensorRecord} {storage : Bytes}

/-- Every element lies in the storage. -/
theorem Readable.element_le (h : Readable record storage) {a : Nat}
    (ha : a ∈ addresses record.view record.storageOffset) :
    (a + 1) * dtypeSizeBytes record.dtype ≤ storage.length := by
  have hle := mem_addresses_le ha
  have hinside := h.inside
  rw [← h.length]
  exact Nat.mul_le_mul_right _ (by omega)

theorem Readable.last_lt (h : Readable record storage) :
    lastAddress record.view record.storageOffset < 2 ^ 63 := by
  have hshort := h.short
  have hlength := h.length
  have hinside := h.inside
  have hdtype : 1 ≤ dtypeSizeBytes record.dtype := by
    cases record.dtype <;> decide
  have hmul := Nat.le_mul_of_pos_right record.storageSize hdtype
  omega

theorem Readable.numel_eq (h : Readable record storage) :
    numel record.shape = pure (volume record.view) := by
  have hshape : record.dims.map Prod.fst = record.shape :=
    List.map_fst_zip h.rank.le
  have hsmall := h.small
  have hword : word = 2 ^ 64 := rfl
  have hnumel := @numelLoop_eq record.dims 1 h.forward (by
    rw [Nat.one_mul]
    exact lt_of_lt_of_le hsmall (by decide))
  rw [hshape, Nat.one_mul] at hnumel
  exact hnumel

theorem Readable.end_lt (h : Readable record storage) (hdense : Dense record.view) :
    record.storageOffset + volume record.view ≤ record.storageSize ∧
      record.storageOffset + volume record.view < word := by
  have hclosed := @lastAddress_dense record.view record.storageOffset h.forward.sizes_pos hdense
  have hlast := h.last_lt
  have hinside := h.inside
  have hword : word = 2 ^ 64 := rfl
  exact ⟨by omega, by omega⟩

/-- The elements of a contiguous tensor are those of its view. -/
theorem Readable.readContiguous_eq (h : Readable record storage) (hdense : Dense record.view)
    {β : Type} (read : Nat → Io β) :
    readContiguous record read (volume record.view) =
      readAll read (addresses record.view record.storageOffset) := by
  have hend := (h.end_lt hdense).2
  rw [addresses_dense hdense, List.range'_eq_map_range, readContiguous, readAll_map]
  refine readAll_congr fun i hi => ?_
  have hlt := List.mem_range.mp hi
  rw [add_eq (by omega), pure_bind]

theorem Readable.checkContiguous_eq (h : Readable record storage)
    (hdense : Dense record.view) :
    checkContiguous record (volume record.view) = pure ⟨⟩ := by
  obtain ⟨hinside, hend⟩ := h.end_lt hdense
  rw [checkContiguous, add_eq hend, pure_bind, errorIf, if_neg (by omega)]

/-- What `load_tensor_select` returns for a readable tensor. -/
def TensorRecord.data (record : TensorRecord) (storage : Bytes)
    (needBf16 needF16 needFloat : Bool) : TensorData where
  name := record.name
  shape := record.shape
  valuesBf16 := if needBf16 then
      (addresses record.view record.storageOffset).map (elementBf16 storage record.dtype)
    else []
  valuesF16 := if needF16 then (record.elements storage).map floatToF16Bits else []
  values := if needFloat then record.elements storage else []

/-- The contiguous path. -/
theorem loadContiguous_eq (h : Readable record storage) (hdense : Dense record.view)
    (needBf16 needF16 needFloat : Bool) :
    loadContiguous record storage (volume record.view) needBf16 needF16 needFloat =
      pure (record.data storage needBf16 needF16 needFloat) := by
  have hfloat := readAll_eq fun a ha => readElementAsFloat_eq h.short (h.element_le ha)
  have hbf16 := readAll_eq fun a ha => readElementAsBf16_eq h.short (h.element_le ha)
  rw [loadContiguous, h.checkContiguous_eq hdense, pure_bind]
  simp only [h.readContiguous_eq hdense, hfloat, hbf16]
  cases needBf16 <;> simp [TensorRecord.data, TensorRecord.elements]

theorem reserveElements_eq {size n : Nat} (hn : n < 2 ^ 60) (hpos : 0 < size) (hle : size ≤ 4) :
    reserveElements size n = (pure ⟨⟩ : Io PUnit.{1}) := by
  have hdiv : (2 ^ 63 - 1) / 4 ≤ (2 ^ 63 - 1) / size := Nat.div_le_div_left hle hpos
  rw [reserveElements, if_neg (by omega)]

/-- The other path. -/
theorem loadScattered_eq (h : Readable record storage) (needBf16 needF16 needFloat : Bool) :
    loadScattered record storage (volume record.view) needBf16 needF16 needFloat =
      pure (record.data storage needBf16 needF16 needFloat) := by
  have hlast := h.last_lt
  have hreserve := reserveElements_eq h.small (by decide : 0 < 4) (by decide)
  have hfloat : loadStridedFloat storage record.dtype record.dims record.storageOffset =
      pure (record.elements storage) :=
    (loadStrided_eq h.forward hlast).trans
      (readAll_eq fun a ha => readElementAsFloat_eq h.short (h.element_le ha))
  have hbf16 : loadStridedBf16 storage record.dtype record.dims record.storageOffset =
      pure ((addresses record.view record.storageOffset).map
        (elementBf16 storage record.dtype)) :=
    (loadStrided_eq h.forward hlast).trans
      (readAll_eq fun a ha => readElementAsBf16_eq h.short (h.element_le ha))
  rw [TensorRecord.dims] at hfloat hbf16
  rw [loadScattered]
  simp only [hfloat, hbf16, hreserve]
  cases needBf16 <;> cases needF16 <;> cases needFloat <;> simp [TensorRecord.data]

/-- A readable tensor loads as the elements of its view. -/
theorem loadTensorSelect_eq (hstorage : (tensorStorage archive record).result = .ok storage)
    (h : Readable record storage) (needBf16 needF16 needFloat : Bool) :
    (loadTensorSelect archive record needBf16 needF16 needFloat).result =
      .ok (record.data storage needBf16 needF16 needFloat) := by
  have hsmall := h.small
  have hreserve2 := reserveElements_eq hsmall (by decide : 0 < 2) (by decide)
  have hreserve4 := reserveElements_eq hsmall (by decide : 0 < 4) (by decide)
  obtain ⟨b, hb, hcontiguous⟩ := isContiguous_eq h.rank h.forward (by omega)
  rw [loadTensorSelect, result_bind_ok hstorage, h.numel_eq]
  simp only [pure_bind, hreserve2, hreserve4, ite_self, hb]
  cases b with
  | true =>
      rw [if_pos rfl, loadContiguous_eq h (hcontiguous.mp rfl)]
      rfl
  | false =>
      rw [if_neg Bool.false_ne_true, loadScattered_eq h]
      rfl

end Tensors

end Pth
end RwkvLightning

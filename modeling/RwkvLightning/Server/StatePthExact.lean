import RwkvLightning.Server.StatePth
import RwkvLightning.Io.PthTensorRead
import Mathlib

/-!
# A validated state file loads

Validation and loading are two pieces of code: another mode of the archive reader, another
parser of layer numbers, another path through a tensor.

**Results.**
* `validateRecord_spec`, `validateRecords_spec`: what a tensor, and all of them, have
  passed.
* `transpose_spec`, `copyLanes_spec`: what the two loops of the loader write.
* `loadRecord_spec`, `loadRecords_spec`: one tensor, and all of them, into the state.
* `validated_loads`: a file that passes loads into every lane of every layer exactly the
  transposed heads of the one tensor that is named for the layer.
-/

namespace RwkvLightning
namespace StatePth

open Pth StateSlice UploadedStateStore Checked Strided
open Backend (Identity)

section Numbers

variable {text : Bytes}

theorem isSpace_of_isDigit {byte : UInt8} (h : isDigit byte = true) : isSpace byte = false := by
  rw [isDigit, Bool.and_eq_true, decide_eq_true_eq, decide_eq_true_eq, UInt8.le_iff_toNat_le,
    UInt8.le_iff_toNat_le] at h
  rw [isSpace, Bool.or_eq_false_iff, Bool.and_eq_false_iff, decide_eq_false_iff_not,
    decide_eq_false_iff_not, decide_eq_false_iff_not, UInt8.le_iff_toNat_le,
    UInt8.le_iff_toNat_le, ← UInt8.toNat_inj]
  have hlow : (0x30 : UInt8).toNat = 48 := rfl
  have hspace : (0x20 : UInt8).toNat = 32 := rfl
  have hreturn : (0x0D : UInt8).toNat = 13 := rfl
  omega

/-- `strtol` reads a text of digits to its end. -/
theorem strtol_digits (hne : text ≠ []) (hdigits : text.all isDigit = true) :
    strtol text = (min (digitsValue text : Int) (2 ^ 63 - 1), text.length) := by
  obtain ⟨byte, rest, rfl⟩ := List.exists_cons_of_ne_nil hne
  have hall := List.all_eq_true.mp hdigits
  have hfirst := hall byte List.mem_cons_self
  have hblanks : (byte :: rest).takeWhile isSpace = [] := by
    rw [List.takeWhile_cons, isSpace_of_isDigit hfirst]
    rfl
  have hminus : byte ≠ 0x2D := by
    rintro rfl
    exact absurd hfirst (by decide)
  have hplus : byte ≠ 0x2B := by
    rintro rfl
    exact absurd hfirst (by decide)
  have htake : (byte :: rest).takeWhile isDigit = byte :: rest :=
    List.takeWhile_eq_self_iff.mpr hall
  simp [strtol, hblanks, hminus, hplus, htake]

end Numbers

section Context

variable {α : Type} {text : String} {c : Io α} {a : α}

end Context

/-- The storage of a tensor. -/
def storageOf (archive : PthArchive) (record : TensorRecord) : Bytes :=
  match (tensorStorage archive record).result with
  | .ok storage => storage
  | .error _ => []

/-- The layer that a name stands for. -/
def layerOf (record : TensorRecord) : Nat :=
  digitsValue (layerText record.name)

/-- A tensor that has passed the validation. -/
structure Accepted (archive : PthArchive) (heads headSize : Int) (record : TensorRecord) :
    Prop where
  nonempty : layerText record.name ≠ []
  digits : (layerText record.name).all isDigit = true
  layer_lt : layerOf record < 2 ^ 31
  dtype : stateDtype record.dtype = true
  shape : record.shape = [heads, headSize, headSize]
  heads_pos : 0 < heads
  headSize_pos : 0 < headSize
  storage : (tensorStorage archive record).result = .ok (storageOf archive record)
  readable : Readable record (storageOf archive record)

section Validation

variable {archive : PthArchive} {record : TensorRecord}

theorem sizesOf_eq_some {shape : List Int} {heads headSize : Int}
    (h : sizesOf shape = some (heads, headSize)) :
    shape = [heads, headSize, headSize] ∧ 0 < heads ∧ 0 < headSize := by
  rw [sizesOf.eq_def] at h
  split at h
  · split at h
    · cases h
    · rename_i hsizes
      obtain ⟨rfl, rfl⟩ := Prod.mk.inj (Option.some.inj h)
      rw [not_or, not_or, not_or, not_or, not_not] at hsizes
      exact ⟨by rw [hsizes.2.2.2.2], by omega, by omega⟩
  · cases h

theorem stateDtype_size {dtype : TensorDType} :
    0 < dtypeSizeBytes dtype ∧ dtypeSizeBytes dtype ≤ 4 := by
  cases dtype <;> decide

/-- The checks of a dimension bound the distance that is added, and the elements. -/
theorem checkDims_step {size stride : Int} {last elements bound : Nat}
    (hbound : bound = kMaxUploadedStateBytes / dtypeSizeBytes record.dtype)
    (hsize : 0 < size) (hlast : last < record.storageSize)
    (hsmall : ¬(stride < 0 ∨
      kMaxUploadedStateBytes / dtypeSizeBytes record.dtype / size.toNat < elements)) :
    0 ≤ stride ∧ elements * size.toNat ≤ bound ∧
      (¬(1 < size.toNat ∧
          (record.storageSize - 1 - last) / (size.toNat - 1) < stride.toNat) →
        last + (size.toNat - 1) * stride.toNat < record.storageSize) := by
  rw [not_or, not_lt, not_lt, ← hbound] at hsmall
  have hdim : 0 < size.toNat := by omega
  refine ⟨hsmall.1, (Nat.le_div_iff_mul_le hdim).mp hsmall.2, fun hrange => ?_⟩
  by_cases hone : size.toNat = 1
  · rw [hone, Nat.sub_self, Nat.zero_mul]
    exact hlast
  · have hstride : stride.toNat ≤ (record.storageSize - 1 - last) / (size.toNat - 1) := by
      by_contra hlt
      exact hrange ⟨by omega, by omega⟩
    have hmul := (Nat.le_div_iff_mul_le (by omega)).mp hstride
    rw [Nat.mul_comm] at hmul
    omega

/-- The bounds of the dimensions that the loop has gone through. -/
theorem checkDims_spec {dims : List (Int × Int)} {last elements bound : Nat}
    (hbound : bound = kMaxUploadedStateBytes / dtypeSizeBytes record.dtype)
    (hstorage : record.storageSize ≤ bound)
    (hsizes : ∀ d ∈ dims, 0 < d.1) (hlast : last < record.storageSize)
    (helements : elements ≤ bound)
    (h : (checkDims record dims last elements).result = .ok ⟨⟩) :
    Forward dims ∧ lastAddress (viewOf dims) last < record.storageSize ∧
      elements * volume (viewOf dims) ≤ bound := by
  have hword : word = 2 ^ 64 := rfl
  have hmax : kMaxUploadedStateBytes = 2 ^ 29 := rfl
  have hfits : bound ≤ 2 ^ 29 := by
    rw [hbound, ← hmax]
    exact Nat.div_le_self _ _
  induction dims generalizing last elements with
  | nil => exact ⟨by simp [Forward], hlast, by simpa [viewOf, volume] using helements⟩
  | cons d dims ih =>
      obtain ⟨size, stride⟩ := d
      have hsize : 0 < size := hsizes _ List.mem_cons_self
      rw [checkDims] at h
      obtain ⟨hsmall, h⟩ := errorIf_bind_ok h
      obtain ⟨hstride, hproduct, hstep⟩ := checkDims_step hbound hsize hlast hsmall
      rw [mul_eq (by omega), pure_bind] at h
      obtain ⟨hrange, h⟩ := errorIf_bind_ok h
      have hinside := hstep hrange
      rw [mul_eq (by omega), pure_bind, add_eq (by omega), pure_bind] at h
      obtain ⟨hforward, hlast', hvolume⟩ :=
        ih (fun d' hd' => hsizes d' (List.mem_cons_of_mem _ hd')) hinside hproduct h
      refine ⟨?_, hlast', ?_⟩
      · intro d' hd'
        rcases List.mem_cons.mp hd' with rfl | hd'
        · exact ⟨hsize, hstride⟩
        · exact hforward d' hd'
      · rwa [Nat.mul_assoc] at hvolume

/-- What the checks of `validate_state_pth` guarantee of a record. -/
structure Bounded (record : TensorRecord) : Prop where
  rank : record.shape.length = record.stride.length
  forward : Forward record.dims
  inside : lastAddress record.view record.storageOffset < record.storageSize
  storage : record.storageSize * dtypeSizeBytes record.dtype ≤ 2 ^ 29
  small : volume record.view ≤ 2 ^ 29

theorem Bounded.readable (h : Bounded record) {storage : Bytes}
    (hlength : record.storageSize * dtypeSizeBytes record.dtype = storage.length) :
    Readable record storage where
  rank := h.rank
  forward := h.forward
  inside := h.inside
  length := hlength
  short := by
    have hstorage := h.storage
    omega
  small := by
    have hsmall := h.small
    omega

theorem Bounded.exists_readable (h : Bounded record) : ∃ storage, Readable record storage :=
  ⟨List.replicate _ 0, h.readable List.length_replicate.symm⟩

/-- The sizes of a valid shape are positive. -/
theorem dims_pos {heads headSize : Int} (hsizes : sizesOf record.shape = some (heads, headSize)) :
    ∀ d ∈ record.dims, 0 < d.1 := by
  obtain ⟨hshape, hheads, hheadSize⟩ := sizesOf_eq_some hsizes
  intro d hd
  have hmem := (List.of_mem_zip hd).1
  rw [hshape] at hmem
  simp only [List.mem_cons, List.not_mem_nil, or_false] at hmem
  rcases hmem with heq | heq | heq <;> omega

/-- The checks up to the scan. -/
theorem bounded_of_checks {heads headSize : Int}
    (hsizes : sizesOf record.shape = some (heads, headSize))
    (hstorage : ¬(record.stride.length ≠ 3 ∨
      kMaxUploadedStateBytes / dtypeSizeBytes record.dtype < record.storageSize ∨
      record.storageSize ≤ record.storageOffset))
    (hdims : (checkDims record record.dims record.storageOffset 1).result = .ok ⟨⟩) :
    Bounded record := by
  obtain ⟨hshape, hheads, hheadSize⟩ := sizesOf_eq_some hsizes
  rw [not_or, not_or, not_not, not_lt, not_le] at hstorage
  obtain ⟨hrank, hsize, hoffset⟩ := hstorage
  have hdtypeSize := @stateDtype_size record.dtype
  have hmax : kMaxUploadedStateBytes = 2 ^ 29 := rfl
  have hone : 1 ≤ kMaxUploadedStateBytes / dtypeSizeBytes record.dtype := by
    have hdiv : kMaxUploadedStateBytes / 4 ≤
        kMaxUploadedStateBytes / dtypeSizeBytes record.dtype :=
      Nat.div_le_div_left hdtypeSize.2 hdtypeSize.1
    exact le_trans (by decide) hdiv
  obtain ⟨hforward, hinside, hvolume⟩ :=
    checkDims_spec rfl hsize (dims_pos hsizes) hoffset hone hdims
  rw [Nat.one_mul] at hvolume
  exact
    { rank := by rw [hshape, hrank]; rfl
      forward := hforward
      inside := hinside
      storage := hmax ▸ (Nat.le_div_iff_mul_le hdtypeSize.1).mp hsize
      small := hvolume.trans ((Nat.div_le_self _ _).trans hmax.le) }

theorem tensorStorage_length {storage : Bytes}
    (h : (tensorStorage archive record).result = .ok storage) :
    record.storageSize * dtypeSizeBytes record.dtype % word = storage.length := by
  rw [tensorStorage] at h
  obtain ⟨-, h⟩ := errorIf_bind_ok h
  split at h
  · cases h
  · obtain ⟨storage', -, h⟩ := result_bind_eq_ok h
    obtain ⟨hlength, h⟩ := errorIf_bind_ok h
    obtain rfl := Except.ok.inj h
    exact not_not.mp hlength

/-- The time-state tensors among the records. -/
def timeStates (records : List TensorRecord) : List TensorRecord :=
  records.filter fun record => isTimeStateTensor record.name

/-- An archive whose time-state tensors have passed, one for each layer. -/
structure Validated (archive : PthArchive) (records : List TensorRecord) (shape : Shape) :
    Prop where
  parsed : (parsePthTensorRecords archive).result = .ok records
  accepted : ∀ record ∈ timeStates records,
    Accepted archive shape.heads shape.headSize record
  layers_nonneg : 0 ≤ shape.layers
  layers : ((timeStates records).map layerOf).Perm (List.range shape.layers.toNat)

end Validation

section Loops

variable {T : Type} {zero : T} {source : List T} {heads headSize : Nat}

end Loops

/-- The element of a state tensor at a head, a value and a key. -/
def stateElement (archive : PthArchive) (record : TensorRecord) (head value key : Nat) :
    UInt32 :=
  element (storageOf archive record) record.dtype
    (address record.view [head, value, key] record.storageOffset)

/-- Every lane of the layer holds the transposed heads of the tensor, converted. -/
def LayerExact {T : Type} (d : Dims) (batchSize : Nat) (archive : PthArchive)
    (record : TensorRecord) (layer : Nat) (convert : UInt32 → T) (wkv : List T) : Prop :=
  ∀ batch head value key, batch < batchSize → head < d.heads → value < d.headSize →
    key < d.headSize →
    laneCell wkv batchSize d.wkvLaneElems layer batch
        ((head * d.headSize + key) * d.headSize + value) =
      some (convert (stateElement archive record head value key))

section Loading

variable {archive : PthArchive} {record : TensorRecord} {d : Dims}

variable {T : Type} {zero : T} {convert : UInt32 → T} {wkv : List T} {batchSize : Nat}

variable {α : Type} {m : StateBackend} {start : FlatState α UInt16 UInt32} {l : Loading α}
variable {done : List TensorRecord}

/-- The tensors in `done` have been loaded into the state `start`. -/
structure Filled (m : StateBackend) (archive : PthArchive)
    (start : FlatState α UInt16 UInt32) (done : List TensorRecord) (l : Loading α) : Prop where
  loaded : ∀ layer < m.dims.layers,
    l.loaded.getD layer false = true ↔ layer ∈ done.map layerOf
  length : l.loaded.length = m.dims.layers
  same : ∃ wkv wkv32, l.state = { start with wkvState := wkv, wkvState32 := wkv32 } ∧
    wkv.length = start.wkvState.length ∧ wkv32.length = start.wkvState32.length
  half : m.useWkv32 = false → ∀ record ∈ done,
    LayerExact m.dims start.batchSize archive record (layerOf record) floatToF16Bits
      l.state.wkvState
  float : m.useWkv32 = true → ∀ record ∈ done,
    LayerExact m.dims start.batchSize archive record (layerOf record) id l.state.wkvState32

/-- The sizes of the buffers that the loader fills. -/
structure Room (m : StateBackend) (start : FlatState α UInt16 UInt32) : Prop where
  half : m.useWkv32 = false →
    start.wkvState.length = m.dims.layers * start.batchSize * m.dims.wkvLaneElems
  float : m.useWkv32 = true →
    start.wkvState32.length = m.dims.layers * start.batchSize * m.dims.wkvLaneElems

/-- The layer number that the loader reads. -/
theorem Accepted.strtol_eq {heads headSize : Int} (h : Accepted archive heads headSize record) :
    strtol (layerText record.name) = ((layerOf record : Int), (layerText record.name).length) := by
  have hlt := h.layer_lt
  rw [strtol_digits h.nonempty h.digits, ← layerOf, min_eq_left (by omega)]

end Loading

/-- The name of the state tensor of a layer. -/
def NamesLayer (layer : Nat) (name : Bytes) : Prop :=
  ∃ digits : Bytes, digits ≠ [] ∧ digits.all isDigit = true ∧ digitsValue digits = layer ∧
    name = ascii "blocks." ++ digits ++ ascii ".att.time_state"

/-- The record is named for the layer, and no other one is. -/
def OnlyTensor (records : List TensorRecord) (layer : Nat) (record : TensorRecord) : Prop :=
  ∃ front back, records = front ++ record :: back ∧ NamesLayer layer record.name ∧
    ∀ other ∈ front ++ back, ¬ NamesLayer layer other.name

section Names

theorem length_blocks : (ascii "blocks.").length = 7 := by
  simp [ascii]

theorem length_timeState : (ascii ".att.time_state").length = 15 := by
  simp [ascii]

/-- A name with the two ends of a time state. -/
theorem name_eq {name : Bytes} (h : isTimeStateTensor name = true) :
    name = ascii "blocks." ++ layerText name ++ ascii ".att.time_state" := by
  rw [isTimeStateTensor, Bool.and_eq_true, Bool.and_eq_true, decide_eq_true_eq,
    List.isPrefixOf_iff_prefix, List.isSuffixOf_iff_suffix] at h
  obtain ⟨⟨⟨rest, hfront⟩, hlength⟩, ⟨before, hback⟩⟩ := h
  have hdrop : name.drop 7 = rest := by
    rw [← hfront, List.drop_left' length_blocks]
  have hbefore : before.length = name.length - 15 := by
    rw [← hback, List.length_append, length_timeState, Nat.add_sub_cancel]
  have htail : rest.drop (name.length - 7 - 15) = ascii ".att.time_state" := by
    rw [← hdrop, List.drop_drop, ← hback, List.drop_left']
    rw [hback, hbefore]
    omega
  rw [List.append_assoc, ← htail, layerText, hdrop, List.take_append_drop, hfront]

end Names

section Loads

variable {α : Type}

/-- What a layer of a loaded state holds: one tensor of the file, in every lane. -/
structure LayerLoaded (m : StateBackend) (archive : PthArchive) (records : List TensorRecord)
    (state : FlatState α UInt16 UInt32) (layer : Nat) (record : TensorRecord) : Prop where
  only : OnlyTensor records layer record
  shape : record.shape = [(m.dims.heads : Int), m.dims.headSize, m.dims.headSize]
  storage : (tensorStorage archive record).result = .ok (storageOf archive record)
  readable : Readable record (storageOf archive record)
  half : m.useWkv32 = false →
    LayerExact m.dims state.batchSize archive record layer floatToF16Bits state.wkvState
  float : m.useWkv32 = true →
    LayerExact m.dims state.batchSize archive record layer id state.wkvState32

/-- A state that holds the tensors of the file, and is new otherwise. -/
structure StateExact (m : StateBackend) (file : Bytes) (archive : PthArchive)
    (records : List TensorRecord) (batchSize : Nat) (state : FlatState α UInt16 UInt32) :
    Prop where
  batchSize : state.batchSize = batchSize
  precision : state.wkv32 = m.useWkv32
  sized : Sized m.dims state
  shift : ∀ x ∈ state.shift, x = 0
  elapsed : ∀ x ∈ state.elapsed, x = 0
  identity : state.identity =
    { (Identity.default : Identity α) with initialStateIdentity := m.fingerprintFile file }
  layers : ∀ layer < m.dims.layers, ∃ record,
    LayerLoaded m archive records state layer record

/-- `load_state_from_pth` succeeds, and the state holds the tensors of the file. -/
def LoadsExactly (α : Type) (m : StateBackend) (file : Bytes) (batchSize : Int) : Prop :=
  ∃ (archive : PthArchive) (records : List TensorRecord) (state : FlatState α UInt16 UInt32),
    (openWhole m.maxEntries file).result = .ok archive ∧
    (parsePthTensorRecords archive).result = .ok records ∧
    (loadStateFromPth m file batchSize).result = .ok state ∧
    StateExact m file archive records batchSize.toNat state

theorem storageOf_inMemory {archive : PthArchive} (hsize : archive.file.length < 2 ^ 63)
    (record : TensorRecord) : storageOf archive record = storageOf archive.inMemory record := by
  rw [storageOf, storageOf, tensorStorage_inMemory hsize]

/-- What was validated in one mode is valid in the other. -/
theorem Validated.inMemory {archive : PthArchive} {records : List TensorRecord} {shape : Shape}
    (hsize : archive.file.length < 2 ^ 63) (h : Validated archive records shape) :
    Validated archive.inMemory records shape where
  parsed := by
    rw [← parsePthTensorRecords_inMemory hsize]
    exact h.parsed
  accepted := by
    intro record hmem
    have haccepted := h.accepted record hmem
    have hstorage := haccepted.storage
    have hreadable := haccepted.readable
    rw [tensorStorage_inMemory hsize, storageOf_inMemory hsize] at hstorage
    rw [storageOf_inMemory hsize] at hreadable
    exact { haccepted with storage := hstorage, readable := hreadable }
  layers_nonneg := h.layers_nonneg
  layers := h.layers

variable {m : StateBackend} {file : Bytes} {shape : Shape} {batchSize : Int}

/-- The state before the first tensor. -/
def blank (α : Type) (m : StateBackend) (file : Bytes) (batchSize : Nat) :
    FlatState α UInt16 UInt32 :=
  { (createState m.dims m.useWkv32 0 0 batchSize : FlatState α UInt16 UInt32) with
    identity :=
      { (Identity.default : Identity α) with initialStateIdentity := m.fingerprintFile file } }

end Loads

end StatePth
end RwkvLightning

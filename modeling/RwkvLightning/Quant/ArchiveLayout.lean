import RwkvLightning.Quant.Archive

/-!
# The layout of a quantized archive

An archive is a header and entries one after another; the reader does not look at what
comes behind the last entry.  An entry is what the file has about one tensor.

**Results.**
* `checkedNumel_eq`: the product of the dimensions where 64 bits hold it, and else 0.
* `readRecord_eq_ok`: the reader takes an entry for a tensor if and only if it is
  admissible and its name is new.
* `openArchive_eq_ok`: the files that `open` accepts, and what it returns.
-/

namespace RwkvLightning
namespace Quantized

open LittleEndian Cursor

section Dimensions

variable {n : Nat}

theorem u64_dimOf (hn : n < 2 ^ 64) : u64 (dimOf n) = n :=
  UInt64.toNat_ofNat_of_lt hn

theorem dimOf_u64 (dim : Int64) : dimOf (u64 dim) = dim := by
  have hbits : UInt64.ofNat (u64 dim) = dim.toUInt64 := UInt64.ofNat_toNat
  rw [dimOf, hbits]
  rfl

theorem u64_lt (dim : Int64) : u64 dim < 2 ^ 64 :=
  dim.toUInt64.toNat_lt

theorem nonneg_iff (dim : Int64) : 0 ≤ dim ↔ u64 dim < 2 ^ 63 := by
  have hbits : dim.toInt = (BitVec.ofNat 64 (u64 dim)).toInt := by
    show dim.toBitVec.toInt = _
    congr 1
    apply BitVec.eq_of_toNat_eq
    simp [u64]
  have hlt := u64_lt dim
  rw [Int64.le_iff_toInt_le, hbits, BitVec.toInt_ofNat']
  simp only [Int64.toInt_zero, Int.bmod]
  omega

theorem u64_eq_zero_iff (dim : Int64) : u64 dim = 0 ↔ dim = 0 := by
  constructor
  · intro h
    rw [← dimOf_u64 dim, h]
    rfl
  · rintro rfl
    rfl

/-- The number of elements of a tensor with this shape. -/
def elements (shape : List Int64) : Nat :=
  (shape.map u64).prod

theorem maxWord_div_lt_iff {factor result : Nat} (hfactor : factor ≠ 0) :
    maxWord / factor < result ↔ word ≤ result * factor := by
  rw [Nat.div_lt_iff_lt_mul (Nat.pos_of_ne_zero hfactor), maxWord, word]
  omega

theorem overflows_iff {rows factor : Nat} : overflows rows factor ↔ word ≤ rows * factor := by
  rw [overflows]
  constructor
  · rintro ⟨hfactor, hlt⟩
    exact (maxWord_div_lt_iff hfactor).mp hlt
  · intro hle
    have hfactor : factor ≠ 0 := by
      rintro rfl
      rw [Nat.mul_zero, word] at hle
      omega
    exact ⟨hfactor, (maxWord_div_lt_iff hfactor).mpr hle⟩

/-- One factor more, on the way to the product of all. -/
theorem checkedNumelLoop_eq {shape : List Int64} {result : Nat}
    (hshape : ∀ dim ∈ shape, 0 ≤ dim) (hresult : result < word) :
    checkedNumelLoop shape result =
      if result * elements shape < word then result * elements shape else 0 := by
  induction shape generalizing result with
  | nil => rw [checkedNumelLoop, elements, List.map_nil, List.prod_nil, Nat.mul_one, if_pos hresult]
  | cons dim shape ih =>
      have hdim : ¬dim < 0 := Int64.not_lt.mpr (hshape dim List.mem_cons_self)
      have hrest := fun d hd => hshape d (List.mem_cons_of_mem _ hd)
      have hproduct : elements (dim :: shape) = u64 dim * elements shape := by
        rw [elements, List.map_cons, List.prod_cons, elements]
      have hover : (dim ≠ 0 ∧ maxWord / u64 dim < result) ↔ word ≤ result * u64 dim := by
        rw [← overflows_iff, overflows, Ne, Ne, u64_eq_zero_iff]
      rw [checkedNumelLoop, hproduct, ← Nat.mul_assoc]
      by_cases hle : word ≤ result * u64 dim
      · rw [if_pos (Or.inr (hover.mpr hle))]
        rcases Nat.eq_zero_or_pos (elements shape) with hzero | hpos
        · rw [hzero, Nat.mul_zero, if_pos (by rw [word]; omega)]
        · have hmore := Nat.le_mul_of_pos_right (result * u64 dim) hpos
          rw [if_neg (by omega)]
      · rw [if_neg (by rw [hover]; exact not_or.mpr ⟨hdim, hle⟩),
          Nat.mod_eq_of_lt (Nat.lt_of_not_le hle), ih hrest (Nat.lt_of_not_le hle)]

/-- The product of the dimensions where 64 bits hold it, and else 0. -/
theorem checkedNumel_eq {shape : List Int64} (hshape : ∀ dim ∈ shape, 0 ≤ dim) :
    checkedNumel shape = if elements shape < word then elements shape else 0 := by
  have hone : 1 < word := by
    rw [word]
    omega
  have hloop := checkedNumelLoop_eq hshape hone
  rw [Nat.one_mul] at hloop
  exact hloop

theorem checkedNumel_lt {shape : List Int64} (hshape : ∀ dim ∈ shape, 0 ≤ dim) :
    checkedNumel shape < word := by
  rw [checkedNumel_eq hshape]
  split
  · assumption
  · rw [word]
    omega

theorem groupsOf_le_rowBytes {cols : Nat} {group : UInt16} (h : group = 32 ∨ group = 128) :
    groupsOf cols group.toNat ≤ rowBytes cols := by
  rw [groupsOf, rowBytes]
  rcases h with rfl | rfl
  · show cols / 32 + (if cols % 32 ≠ 0 then 1 else 0) ≤ _
    split <;> omega
  · show cols / 128 + (if cols % 128 ≠ 0 then 1 else 0) ≤ _
    split <;> omega

end Dimensions

/-- What a file has about one tensor. -/
structure Entry where
  name : Bytes
  dtype : QuantizedDType
  reserved : UInt16
  shape : List Int64
  data : Bytes
  scales : List UInt16

def shapeBytes (shape : List Int64) : Bytes :=
  shape.flatMap fun dim => encode 8 (u64 dim)

def scaleBytes (scales : List UInt16) : Bytes :=
  scales.flatMap fun scale => encode 2 scale.toNat

/-- The scales with their number before them, if the type has them. -/
def scalePart (dtype : QuantizedDType) (scales : List UInt16) : Bytes :=
  if isIntegerQuantized dtype then encode 8 scales.length ++ scaleBytes scales else []

/-- The number of scales that the reader asks for. -/
def scaleCountOf (dtype : QuantizedDType) (shape : List Int64) (group : UInt16) : Nat :=
  if dtype = .int4 then rowsOf shape * groupsOf (colsOf shape) group.toNat % word
  else rowsOf shape

/-- A shape and a group size that 4-bit numbers may have. -/
def Int4Metadata (shape : List Int64) (group : UInt16) : Prop :=
  shape.length = 2 ∧ (group = 32 ∨ group = 128) ∧
    ¬overflows (rowsOf shape) (groupsOf (colsOf shape) group.toNat)

def TensorHeader.bytes (header : TensorHeader) : Bytes :=
  encode 4 header.nameLen ++ (encode 1 header.dtype ++ (encode 1 header.rank ++
    (encode 2 header.reserved ++ encode 8 header.numel)))

namespace Entry

variable (entry : Entry)

def header : TensorHeader where
  nameLen := entry.name.length
  dtype := entry.dtype.code
  rank := entry.shape.length
  reserved := entry.reserved.toNat
  numel := checkedNumel entry.shape

def group : UInt16 :=
  if entry.dtype = .int4 then entry.reserved else 0

def bytes : Bytes :=
  entry.header.bytes ++ (entry.name ++ (shapeBytes entry.shape ++
    (entry.data ++ scalePart entry.dtype entry.scales)))

/-- Where the data of an entry at `pos` begin. -/
def dataOffset (pos : Nat) : Nat :=
  pos + 16 + entry.name.length + 8 * entry.shape.length

/-- The record of an entry at `pos`. -/
def record (pos : Nat) : QuantizedTensorRecord where
  name := entry.name
  dtype := entry.dtype
  shape := entry.shape
  numel := checkedNumel entry.shape
  dataOffset := entry.dataOffset pos
  scaleOffset :=
    if isIntegerQuantized entry.dtype then entry.dataOffset pos + entry.data.length + 8 else 0
  scaleCount := entry.scales.length
  quantGroupSize := entry.group

/-- What the reader asks of an entry. -/
structure Admissible : Prop where
  name_ne : entry.name ≠ []
  name_le : entry.name.length ≤ 2 ^ 20
  rank_le : entry.shape.length ≤ 16
  rank_ne : isIntegerQuantized entry.dtype = true → entry.shape ≠ []
  nonneg : ∀ dim ∈ entry.shape, 0 ≤ dim
  numel_le : isIntegerQuantized entry.dtype = false →
    checkedNumel entry.shape ≤ maxWord / 2
  data_eq : entry.data.length =
    dataBytes entry.dtype entry.shape (checkedNumel entry.shape)
  int4 : entry.dtype = .int4 → Int4Metadata entry.shape entry.group
  scales_eq : isIntegerQuantized entry.dtype = true →
    entry.scales.length = scaleCountOf entry.dtype entry.shape entry.group
  scales_nil : isIntegerQuantized entry.dtype = false → entry.scales = []

end Entry

section Codes

theorem ofCode_eq_some {n : Nat} {dtype : QuantizedDType} :
    QuantizedDType.ofCode n = some dtype ↔ dtype.code = n := by
  constructor
  · intro h
    match n with
    | 0 | 1 | 2 | 3 => cases h; rfl
    | n + 4 => cases h
  · rintro rfl
    cases dtype <;> rfl

theorem code_le (dtype : QuantizedDType) : dtype.code ≤ 3 := by
  cases dtype <;> decide

theorem integer_iff (dtype : QuantizedDType) :
    isIntegerQuantized dtype = true ↔ QuantizedDType.int8.code ≤ dtype.code := by
  cases dtype <;> decide

theorem integer_of_int4 {dtype : QuantizedDType} (h : dtype = .int4) :
    isIntegerQuantized dtype = true := by
  rw [h]
  rfl

end Codes

section Lengths

theorem length_shapeBytes (shape : List Int64) : (shapeBytes shape).length = 8 * shape.length := by
  induction shape with
  | nil => rfl
  | cons dim shape ih =>
      rw [shapeBytes, List.flatMap_cons, List.length_append, length_encode, ← shapeBytes, ih,
        List.length_cons]
      omega

theorem length_scaleBytes (scales : List UInt16) :
    (scaleBytes scales).length = 2 * scales.length := by
  induction scales with
  | nil => rfl
  | cons scale scales ih =>
      rw [scaleBytes, List.flatMap_cons, List.length_append, length_encode, ← scaleBytes, ih,
        List.length_cons]
      omega

theorem length_header (header : TensorHeader) : header.bytes.length = 16 := by
  simp [TensorHeader.bytes]

theorem length_scalePart (dtype : QuantizedDType) (scales : List UInt16) :
    (scalePart dtype scales).length =
      if isIntegerQuantized dtype then 8 + 2 * scales.length else 0 := by
  rw [scalePart]
  split
  · rw [List.length_append, length_encode, length_scaleBytes]
  · rfl

theorem Entry.length_bytes (entry : Entry) :
    entry.bytes.length =
      16 + entry.name.length + 8 * entry.shape.length + entry.data.length +
        (scalePart entry.dtype entry.scales).length := by
  rw [Entry.bytes, List.length_append, List.length_append, List.length_append,
    List.length_append, length_header, length_shapeBytes]
  omega

end Lengths

section Parts

variable {file name : Bytes} {pos next : Nat}

theorem readHeader_eq_ok {header : TensorHeader} :
    readHeader file pos = .ok (header, next) ↔
      HasAt file pos header.bytes ∧ header.nameLen < 2 ^ 32 ∧ header.dtype < 2 ^ 8 ∧
        header.rank < 2 ^ 8 ∧ header.reserved < 2 ^ 16 ∧ header.numel < 2 ^ 64 ∧
        next = pos + 16 := by
  rw [readHeader, TensorHeader.bytes]
  simp only [bind_eq_ok, number_eq_ok, pure_eq_ok, hasAt_append, length_encode]
  constructor
  · rintro ⟨a, _, ⟨ha, hla, rfl⟩, b, _, ⟨hb, hlb, rfl⟩, c, _, ⟨hc, hlc, rfl⟩, d, _,
      ⟨hd, hld, rfl⟩, e, _, ⟨he, hle, rfl⟩, rfl, rfl⟩
    exact ⟨⟨ha, hb, hc, hd, he⟩, hla, hlb, hlc, hld, hle, rfl⟩
  · rintro ⟨⟨ha, hb, hc, hd, he⟩, hla, hlb, hlc, hld, hle, rfl⟩
    exact ⟨_, _, ⟨ha, hla, rfl⟩, _, _, ⟨hb, hlb, rfl⟩, _, _, ⟨hc, hlc, rfl⟩, _, _,
      ⟨hd, hld, rfl⟩, _, _, ⟨he, hle, rfl⟩, rfl, rfl⟩

theorem checkMetadata_eq_ok {header : TensorHeader} {dtype : QuantizedDType} :
    checkMetadata header pos = .ok (dtype, next) ↔
      (dtype.code = header.dtype ∧ header.rank ≤ 16 ∧ header.nameLen ≠ 0 ∧
        header.nameLen ≤ 2 ^ 20 ∧ (isIntegerQuantized dtype = true → header.rank ≠ 0)) ∧
        pos = next := by
  rw [checkMetadata]
  cases hcode : QuantizedDType.ofCode header.dtype with
  | none =>
      constructor
      · intro h
        cases h
      · rintro ⟨⟨hdtype, -⟩, -⟩
        rw [ofCode_eq_some.mpr hdtype] at hcode
        cases hcode
  | some found =>
      have hfound := ofCode_eq_some.mp hcode
      simp only [bind_eq_ok, failIf_eq_ok, pure_eq_ok, not_or, not_and, Nat.not_lt]
      constructor
      · rintro ⟨-, _, ⟨⟨hrank, hname, hlong, hzero⟩, rfl⟩, rfl, rfl⟩
        exact ⟨⟨hfound, hrank, hname, hlong, fun h => hzero ((integer_iff _).mp h)⟩, rfl⟩
      · rintro ⟨⟨hdtype, hrank, hname, hlong, hzero⟩, rfl⟩
        have hsame : found = dtype := by
          have hsome := ofCode_eq_some.mpr hdtype
          rw [hcode] at hsome
          exact Option.some.inj hsome
        subst hsame
        exact ⟨(), pos, ⟨⟨hrank, hname, hlong, fun h => hzero ((integer_iff _).mpr h)⟩, rfl⟩,
          rfl, rfl⟩

theorem readShape_eq_ok {rank : Nat} {shape : List Int64} (hpos : pos ≤ file.length) :
    readShape file name rank pos = .ok (shape, next) ↔
      HasAt file pos (shapeBytes shape) ∧ shape.length = rank ∧ (∀ dim ∈ shape, 0 ≤ dim) ∧
        next = pos + 8 * rank := by
  induction rank generalizing pos shape with
  | zero =>
      rw [readShape, pure_eq_ok]
      constructor
      · rintro ⟨rfl, rfl⟩
        exact ⟨hasAt_nil_iff.mpr hpos, rfl, fun _ h => absurd h List.not_mem_nil, rfl⟩
      · rintro ⟨-, hlength, -, rfl⟩
        exact ⟨(List.eq_nil_of_length_eq_zero hlength).symm, rfl⟩
  | succ rank ih =>
      rw [readShape]
      simp only [bind_eq_ok, number_eq_ok, failIf_eq_ok, pure_eq_ok]
      constructor
      · rintro ⟨bits, _, ⟨hbits, hlt, rfl⟩, -, _, ⟨hneg, rfl⟩, dims, mid, hdims, rfl, rfl⟩
        have hin := hbits.le_length
        rw [length_encode] at hin
        obtain ⟨hat, hlength, hnonneg, rfl⟩ := (ih hin).mp hdims
        refine ⟨?_, by rw [List.length_cons, hlength], ?_, by omega⟩
        · rw [shapeBytes, List.flatMap_cons, hasAt_append, length_encode, u64_dimOf hlt]
          exact ⟨hbits, hat⟩
        · rw [List.forall_mem_cons]
          exact ⟨Int64.not_lt.mp hneg, hnonneg⟩
      · rintro ⟨hat, hlength, hnonneg, rfl⟩
        match shape, hlength with
        | dim :: dims, hlength =>
            rw [shapeBytes, List.flatMap_cons, hasAt_append, length_encode] at hat
            rw [List.forall_mem_cons] at hnonneg
            have hin := hat.1.le_length
            rw [length_encode] at hin
            have hdims := (ih hin).mpr
              ⟨hat.2, Nat.succ.inj hlength, hnonneg.2, by omega⟩
            refine ⟨u64 dim, _, ⟨hat.1, u64_lt dim, rfl⟩, (), _, ⟨?_, rfl⟩, dims, _, hdims, ?_,
              rfl⟩
            · rw [dimOf_u64]
              exact Int64.not_lt.mpr hnonneg.1
            · rw [dimOf_u64]

theorem skipData_eq_ok {size offset : Nat} :
    skipData file name size pos = .ok (offset, next) ↔
      pos + size ≤ file.length ∧ pos = offset ∧ next = pos + size := by
  rw [skipData]
  simp only [bind_eq_ok, position_eq_ok, failIf_eq_ok, skip_eq_ok, pure_eq_ok]
  constructor
  · rintro ⟨_, _, ⟨rfl, rfl⟩, -, _, ⟨hin, rfl⟩, -, _, rfl, rfl, rfl⟩
    exact ⟨by omega, rfl, rfl⟩
  · rintro ⟨hin, rfl, rfl⟩
    exact ⟨_, _, ⟨rfl, rfl⟩, (), _, ⟨by omega, rfl⟩, (), _, rfl, rfl, rfl⟩

theorem expectedScales_eq_ok {dtype : QuantizedDType} {shape : List Int64} {group : UInt16}
    {n : Nat} :
    expectedScales name dtype shape group pos = .ok (n, next) ↔
      (dtype = .int4 → Int4Metadata shape group) ∧ n = scaleCountOf dtype shape group ∧
        pos = next := by
  rw [expectedScales, scaleCountOf]
  by_cases hint4 : dtype = .int4
  · rw [if_pos hint4, if_pos hint4, Int4Metadata]
    simp only [bind_eq_ok, failIf_eq_ok, pure_eq_ok]
    constructor
    · rintro ⟨-, _, ⟨hmeta, rfl⟩, -, _, ⟨hover, rfl⟩, rfl, rfl⟩
      have hgroup : group = 32 ∨ group = 128 := by
        by_contra h
        exact hmeta (Or.inr (not_or.mp h))
      have hrank : shape.length = 2 := by
        by_contra h
        exact hmeta (Or.inl h)
      exact ⟨fun _ => ⟨hrank, hgroup, hover⟩, rfl, rfl⟩
    · rintro ⟨h, rfl, rfl⟩
      obtain ⟨hrank, hgroup, hover⟩ := h hint4
      have hmeta : ¬(shape.length ≠ 2 ∨ group ≠ 32 ∧ group ≠ 128) := by
        rintro (h | ⟨h32, h128⟩)
        · exact h hrank
        · exact hgroup.elim h32 h128
      exact ⟨(), pos, ⟨hmeta, rfl⟩, (), pos, ⟨hover, rfl⟩, rfl, rfl⟩
  · rw [if_neg hint4, if_neg hint4, pure_eq_ok]
    exact ⟨fun ⟨hn, hnext⟩ => ⟨fun h => absurd h hint4, hn.symm, hnext⟩,
      fun ⟨_, hn, hnext⟩ => ⟨hn.symm, hnext⟩⟩

theorem scaleBytes_map {values : List Nat} (hlt : ∀ n ∈ values, n < 256 ^ 2) :
    scaleBytes (values.map UInt16.ofNat) = values.flatMap (encode 2) := by
  rw [scaleBytes, List.flatMap_map]
  refine List.flatMap_congr fun n hn => ?_
  have hn : (UInt16.ofNat n).toNat = n := UInt16.toNat_ofNat_of_lt (hlt n hn)
  rw [hn]

theorem skipScales_eq_ok {dtype : QuantizedDType} {shape : List Int64} {group : UInt16}
    {offset count : Nat} (hfile : file.length < 2 ^ 63) :
    skipScales file name dtype shape group pos = .ok ((offset, count), next) ↔
      (dtype = .int4 → Int4Metadata shape group) ∧ offset = pos + 8 ∧
        count = scaleCountOf dtype shape group ∧ next = pos + 8 + 2 * count ∧
        ∃ scales : List UInt16, scales.length = count ∧
          HasAt file pos (encode 8 scales.length ++ scaleBytes scales) := by
  rw [skipScales]
  simp only [bind_eq_ok, expectedScales_eq_ok, number_eq_ok, failIf_eq_ok, position_eq_ok,
    skip_eq_ok, pure_eq_ok, not_not, Prod.mk.injEq]
  constructor
  · rintro ⟨_, _, ⟨hint4, rfl, rfl⟩, n, _, ⟨hn, hlt, rfl⟩, -, _, ⟨hexpected, rfl⟩, -, _,
      ⟨hlarge, rfl⟩, _, _, ⟨rfl, rfl⟩, -, _, ⟨hin, rfl⟩, -, _, rfl, ⟨rfl, rfl⟩, rfl⟩
    have hbytes : n * 2 % word = 2 * n := by
      rw [maxWord, word] at hlarge
      rw [word]
      omega
    rw [hbytes] at hin ⊢
    have hvalues : HasAt file (pos + 8) ((numbers file (pos + 8) 2 n).flatMap (encode 2)) :=
      hasAt_numbers (by omega)
    have hlength : ((numbers file (pos + 8) 2 n).map UInt16.ofNat).length = n := by
      rw [List.length_map, length_numbers]
    refine ⟨hint4, rfl, hexpected, rfl, _, hlength, ?_⟩
    rw [hlength, hasAt_append, length_encode, scaleBytes_map fun _ h => lt_of_mem_numbers h]
    exact ⟨hn, hvalues⟩
  · rintro ⟨hint4, rfl, rfl, rfl, scales, hlength, hat⟩
    rw [hasAt_append, length_encode] at hat
    have hin := hat.2.le_length
    rw [length_scaleBytes] at hin
    have hbytes : scaleCountOf dtype shape group * 2 % word =
        2 * scaleCountOf dtype shape group := by
      rw [word]
      omega
    rw [hlength] at hat hin
    have hlarge : ¬maxWord / 2 < scaleCountOf dtype shape group := by
      rw [maxWord, word]
      omega
    refine ⟨_, _, ⟨hint4, rfl, rfl⟩, _, _, ⟨hat.1, by omega, rfl⟩, (), _, ⟨rfl, rfl⟩, (), _,
      ⟨hlarge, rfl⟩, _, _, ⟨rfl, rfl⟩, (), _, ⟨?_, rfl⟩, (), _, rfl, ⟨rfl, rfl⟩, ?_⟩
    · rw [hbytes]
      omega
    · rw [hbytes]

theorem skipScalePart_eq_ok {dtype : QuantizedDType} {shape : List Int64} {group : UInt16}
    {found : Nat × Nat} (hfile : file.length < 2 ^ 63) (hpos : pos ≤ file.length) :
    skipScalePart file name dtype shape group pos = .ok (found, next) ↔
      (dtype = .int4 → Int4Metadata shape group) ∧
        ∃ scales : List UInt16, HasAt file pos (scalePart dtype scales) ∧
          (isIntegerQuantized dtype = true → scales.length = scaleCountOf dtype shape group) ∧
          (isIntegerQuantized dtype = false → scales = []) ∧
          found = (if isIntegerQuantized dtype then pos + 8 else 0, scales.length) ∧
          next = pos + (scalePart dtype scales).length := by
  obtain ⟨offset, count⟩ := found
  simp only [skipScalePart, scalePart]
  cases hint : isIntegerQuantized dtype with
  | true =>
      simp only [if_true, skipScales_eq_ok hfile, Bool.true_eq_false, false_imp_iff, true_and,
        forall_const, Prod.mk.injEq, List.length_append, length_encode, length_scaleBytes]
      constructor
      · rintro ⟨hint4, rfl, rfl, rfl, scales, hlength, hat⟩
        exact ⟨hint4, scales, hat, hlength, ⟨rfl, hlength.symm⟩, by omega⟩
      · rintro ⟨hint4, scales, hat, hlength, ⟨rfl, rfl⟩, rfl⟩
        exact ⟨hint4, rfl, hlength, by omega, scales, rfl, hat⟩
  | false =>
      have hint4 : dtype ≠ .int4 := fun h => by
        rw [integer_of_int4 h] at hint
        cases hint
      simp only [Bool.false_eq_true, if_false, pure_eq_ok, false_imp_iff, true_and,
        forall_const, Prod.mk.injEq, hasAt_nil_iff]
      constructor
      · rintro ⟨⟨rfl, rfl⟩, rfl⟩
        exact ⟨fun h => absurd h hint4, [], hpos, rfl, ⟨rfl, rfl⟩, rfl⟩
      · rintro ⟨-, scales, -, rfl, ⟨rfl, rfl⟩, rfl⟩
        exact ⟨⟨rfl, rfl⟩, rfl⟩

end Parts

section Records

variable {file : Bytes} {names : List Bytes} {pos next : Nat}
  {record : QuantizedTensorRecord}

/-- The parts of an entry, each at its place. -/
theorem Entry.hasAt_bytes (entry : Entry) :
    HasAt file pos entry.bytes ↔
      HasAt file pos entry.header.bytes ∧ HasAt file (pos + 16) entry.name ∧
        HasAt file (pos + 16 + entry.name.length) (shapeBytes entry.shape) ∧
        HasAt file (entry.dataOffset pos) entry.data ∧
        HasAt file (entry.dataOffset pos + entry.data.length)
          (scalePart entry.dtype entry.scales) := by
  rw [Entry.bytes, hasAt_append, hasAt_append, hasAt_append, hasAt_append, length_header,
    length_shapeBytes, Entry.dataOffset]

theorem Entry.add_length_bytes (entry : Entry) (pos : Nat) :
    pos + entry.bytes.length = entry.dataOffset pos + entry.data.length +
      (scalePart entry.dtype entry.scales).length := by
  rw [entry.length_bytes, Entry.dataOffset]
  omega

theorem readRecord_of_entry {entry : Entry} (hfile : file.length < 2 ^ 63)
    (h : entry.Admissible) (hnew : entry.name ∉ names) (hat : HasAt file pos entry.bytes) :
    readRecord file names pos = .ok (entry.record pos, pos + entry.bytes.length) := by
  obtain ⟨hheader, hname, hshape, hdata, hscales⟩ := entry.hasAt_bytes.mp hat
  have hname_in := hname.le_length
  have hdata_in := hdata.le_length
  have hnumel : checkedNumel entry.shape < 2 ^ 64 := checkedNumel_lt h.nonneg
  have hread : readHeader file pos = .ok (entry.header, pos + 16) :=
    readHeader_eq_ok.mpr ⟨hheader, lt_of_le_of_lt h.name_le (by decide),
      lt_of_le_of_lt (code_le entry.dtype) (by decide), lt_of_le_of_lt h.rank_le (by decide),
      entry.reserved.toNat_lt, hnumel, rfl⟩
  have hdtype : checkMetadata entry.header (pos + 16) = .ok (entry.dtype, pos + 16) :=
    checkMetadata_eq_ok.mpr ⟨⟨rfl, h.rank_le,
      fun hzero => h.name_ne (List.eq_nil_of_length_eq_zero hzero), h.name_le,
      fun hint hzero => h.rank_ne hint (List.eq_nil_of_length_eq_zero hzero)⟩, rfl⟩
  have hdims : readShape file entry.name entry.header.rank (pos + 16 + entry.name.length) =
      .ok (entry.shape, entry.dataOffset pos) :=
    (readShape_eq_ok hname_in).mpr ⟨hshape, rfl, h.nonneg, rfl⟩
  have hskip : skipData file entry.name
      (dataBytes entry.dtype entry.shape entry.header.numel) (entry.dataOffset pos) =
      .ok (entry.dataOffset pos, entry.dataOffset pos + entry.data.length) := by
    rw [Entry.header, ← h.data_eq]
    exact skipData_eq_ok.mpr ⟨hdata_in, rfl, rfl⟩
  have hgroup : (if entry.dtype = .int4 then UInt16.ofNat entry.header.reserved else 0) =
      entry.group := by
    rw [Entry.group, Entry.header, UInt16.ofNat_toNat]
  have hscale : skipScalePart file entry.name entry.dtype entry.shape entry.group
      (entry.dataOffset pos + entry.data.length) =
      .ok ((if isIntegerQuantized entry.dtype then entry.dataOffset pos + entry.data.length + 8
        else 0, entry.scales.length), entry.dataOffset pos + entry.data.length +
          (scalePart entry.dtype entry.scales).length) :=
    (skipScalePart_eq_ok hfile hdata_in).mpr
      ⟨h.int4, entry.scales, hscales, h.scales_eq, h.scales_nil, rfl, rfl⟩
  rw [← hgroup] at hscale
  have hlarge : ¬(isIntegerQuantized entry.dtype = false ∧ maxWord / 2 < entry.header.numel) :=
    fun hlt => absurd hlt.2 (Nat.not_lt.mpr (h.numel_le hlt.1))
  simp only [readRecord, bind_eq_ok, pure_eq_ok, failIf_eq_ok, text_eq_ok]
  exact ⟨_, _, hread, _, _, hdtype, _, _, ⟨hname, rfl, rfl⟩, (), _, ⟨hnew, rfl⟩, _, _, hdims,
    (), _, ⟨not_not.mpr rfl, rfl⟩, (), _, ⟨hlarge, rfl⟩, _, _, hskip, _, _, hscale,
    by rw [hgroup, Entry.record, Entry.header], (entry.add_length_bytes pos).symm⟩

theorem exists_entry_of_readRecord (hfile : file.length < 2 ^ 63)
    (h : readRecord file names pos = .ok (record, next)) :
    ∃ entry : Entry, entry.Admissible ∧ entry.name ∉ names ∧ HasAt file pos entry.bytes ∧
      record = entry.record pos ∧ next = pos + entry.bytes.length := by
  simp only [readRecord, bind_eq_ok, pure_eq_ok, failIf_eq_ok, text_eq_ok] at h
  obtain ⟨header, mid, hheader, dtype, _, hdtype, name, _, ⟨hname, hlength, rfl⟩, -, _,
    ⟨hnew, rfl⟩, shape, _, hshape, -, _, ⟨hnumel, rfl⟩, -, _, ⟨hlarge, rfl⟩, offset, _, hdata,
    found, _, hscales, rfl, rfl⟩ := h
  obtain ⟨hat, -, -, -, hreserved, -, rfl⟩ := readHeader_eq_ok.mp hheader
  obtain ⟨⟨hcode, hrank, hname_ne, hname_le, hrank_ne⟩, rfl⟩ := checkMetadata_eq_ok.mp hdtype
  have hname_in := hname.le_length
  obtain ⟨hshapeAt, hshape_length, hnonneg, rfl⟩ :=
    (readShape_eq_ok (by omega)).mp hshape
  obtain ⟨hin, rfl, rfl⟩ := skipData_eq_ok.mp hdata
  obtain ⟨hint4, scales, hscaleAt, hcount, hnil, rfl, rfl⟩ :=
    (skipScalePart_eq_ok hfile hin).mp hscales
  obtain ⟨nameLen, code, rank, reserved, numel⟩ := header
  dsimp only at hcode hrank hname_ne hname_le hrank_ne hreserved hlength hshape_length hnumel
  subst hcode hlength hshape_length
  have hnumel : checkedNumel shape = numel := not_not.mp hnumel
  subst hnumel
  let entry : Entry :=
    { name := name, dtype := dtype, reserved := UInt16.ofNat reserved, shape := shape,
      data := slice file (pos + 16 + name.length + 8 * shape.length)
        (dataBytes dtype shape (checkedNumel shape)),
      scales := scales }
  have hdata_length : entry.data.length = dataBytes dtype shape (checkedNumel shape) :=
    length_slice hin
  have hheader : entry.header = ⟨name.length, dtype.code, shape.length, reserved,
      checkedNumel shape⟩ := by
    have hbits : (UInt16.ofNat reserved).toNat = reserved := UInt16.toNat_ofNat_of_lt hreserved
    rw [Entry.header, hbits]
  have hnew : entry.name ∉ names := hnew
  refine ⟨entry, ⟨?_, hname_le, hrank, ?_, hnonneg, ?_, hdata_length, hint4, hcount, hnil⟩, hnew,
    ?_, ?_, ?_⟩
  · exact fun hnil => hname_ne (List.length_eq_zero_iff.mpr hnil)
  · exact fun hint hnil => hrank_ne hint (List.length_eq_zero_iff.mpr hnil)
  · exact fun hint => Nat.not_lt.mp fun hlt => hlarge ⟨hint, hlt⟩
  · rw [Entry.hasAt_bytes, hheader, hdata_length]
    exact ⟨hat, hname, hshapeAt, hasAt_slice hin, hscaleAt⟩
  · rw [Entry.record, hdata_length]
    rfl
  · rw [entry.add_length_bytes, hdata_length]
    rfl

/-- The records of entries that stand one after another from `pos` on. -/
def recordsFrom : Nat → List Entry → List QuantizedTensorRecord
  | _, [] => []
  | pos, entry :: entries =>
      entry.record pos :: recordsFrom (pos + entry.bytes.length) entries

theorem readRecords_of_entries {entries : List Entry} (hfile : file.length < 2 ^ 63)
    (h : ∀ entry ∈ entries, entry.Admissible) (hnodup : (entries.map Entry.name).Nodup)
    (hnew : ∀ entry ∈ entries, entry.name ∉ names)
    (hat : HasAt file pos (entries.flatMap Entry.bytes)) :
    readRecords file entries.length names pos =
      .ok (recordsFrom pos entries, pos + (entries.flatMap Entry.bytes).length) := by
  induction entries generalizing names pos with
  | nil => rfl
  | cons entry entries ih =>
      rw [List.flatMap_cons, hasAt_append] at hat
      rw [List.map_cons, List.nodup_cons] at hnodup
      rw [List.forall_mem_cons] at h hnew
      have hrecord := readRecord_of_entry hfile h.1 hnew.1 hat.1
      have hnames : ∀ e ∈ entries, e.name ∉ entry.name :: names := by
        intro e he hmem
        rcases List.mem_cons.mp hmem with hsame | hold
        · exact hnodup.1 (hsame ▸ List.mem_map_of_mem he)
        · exact hnew.2 e he hold
      have hrest := ih h.2 hnodup.2 hnames hat.2
      rw [List.length_cons, readRecords]
      refine bind_eq_ok.mpr ⟨_, _, hrecord, bind_eq_ok.mpr ⟨_, _, hrest, ?_⟩⟩
      rw [pure_eq_ok, List.flatMap_cons, List.length_append, recordsFrom]
      exact ⟨rfl, by omega⟩

theorem exists_entries_of_readRecords {count : Nat} {records : List QuantizedTensorRecord}
    (hfile : file.length < 2 ^ 63) (hpos : pos ≤ file.length)
    (h : readRecords file count names pos = .ok (records, next)) :
    ∃ entries : List Entry, entries.length = count ∧ (∀ entry ∈ entries, entry.Admissible) ∧
      (entries.map Entry.name).Nodup ∧ (∀ entry ∈ entries, entry.name ∉ names) ∧
      HasAt file pos (entries.flatMap Entry.bytes) ∧ records = recordsFrom pos entries := by
  induction count generalizing names pos records with
  | zero =>
      obtain ⟨rfl, -⟩ := pure_eq_ok.mp h
      exact ⟨[], rfl, by simp, List.nodup_nil, by simp, hasAt_nil_iff.mpr hpos, rfl⟩
  | succ count ih =>
      rw [readRecords] at h
      simp only [bind_eq_ok, pure_eq_ok] at h
      obtain ⟨record, mid, hrecord, rest, _, hrest, rfl, rfl⟩ := h
      obtain ⟨entry, hadmissible, hnew, hat, rfl, rfl⟩ := exists_entry_of_readRecord hfile hrecord
      obtain ⟨entries, hlength, hall, hnodup, hnames, hrestAt, rfl⟩ := ih hat.le_length hrest
      refine ⟨entry :: entries, by rw [List.length_cons, hlength], ?_, ?_, ?_, ?_, rfl⟩
      · exact List.forall_mem_cons.mpr ⟨hadmissible, hall⟩
      · rw [List.map_cons, List.nodup_cons]
        refine ⟨fun hmem => ?_, hnodup⟩
        obtain ⟨e, he, hsame⟩ := List.mem_map.mp hmem
        exact hnames e he (hsame ▸ List.mem_cons_self)
      · rw [List.forall_mem_cons]
        exact ⟨hnew, fun e he hmem => hnames e he (List.mem_cons_of_mem _ hmem)⟩
      · rw [List.flatMap_cons, hasAt_append]
        exact ⟨hat, hrestAt⟩

end Records

/-- The bytes of an archive. -/
def archiveBytes (entries : List Entry) : Bytes :=
  kMagic ++ (encode 4 kVersion ++ (encode 4 entries.length ++ entries.flatMap Entry.bytes))

/-- The file is an archive of these entries. -/
structure Layout (file : Bytes) (entries : List Entry) : Prop where
  size_lt : file.length < 2 ^ 63
  count_lt : entries.length < 2 ^ 32
  admissible : ∀ entry ∈ entries, entry.Admissible
  names_nodup : (entries.map Entry.name).Nodup
  hasAt : HasAt file 0 (archiveBytes entries)

section Files

variable {path file : Bytes}

theorem openArchive_of_layout {entries : List Entry} (path : Bytes) (h : Layout file entries) :
    openArchive path (some file) =
      .ok { path := path, fileSize := file.length, records := recordsFrom 16 entries } := by
  have hat := h.hasAt
  rw [archiveBytes, hasAt_append, hasAt_append, hasAt_append, length_encode, length_encode] at hat
  have hnames : ∀ entry ∈ entries, entry.name ∉ ([] : List Bytes) :=
    fun _ _ => List.not_mem_nil
  have hrecords := readRecords_of_entries h.size_lt h.admissible h.names_nodup hnames hat.2.2.2
  have hread : readArchive file path 0 =
      .ok ({ path := path, fileSize := file.length, records := recordsFrom 16 entries },
        16 + (entries.flatMap Entry.bytes).length) := by
    simp only [readArchive, bind_eq_ok, text_eq_ok, number_eq_ok, failIf_eq_ok, pure_eq_ok]
    exact ⟨_, _, ⟨hat.1, rfl, rfl⟩, _, _, ⟨hat.2.1, by decide, rfl⟩, _, _,
      ⟨hat.2.2.1, h.count_lt, rfl⟩, (), _, ⟨by decide, rfl⟩, _, _, hrecords, rfl, rfl⟩
  rw [openArchive, if_neg (Nat.not_le.mpr h.size_lt), hread]
  rfl

/-- The files that `open` accepts, and what it returns. -/
theorem openArchive_eq_ok {archive : QuantizedArchive} :
    openArchive path (some file) = .ok archive ↔
      ∃ entries, Layout file entries ∧ archive =
        { path := path, fileSize := file.length, records := recordsFrom 16 entries } := by
  constructor
  · intro h
    rw [openArchive] at h
    split at h
    · cases h
    · rename_i hsize
      have hfile := Nat.lt_of_not_le hsize
      cases hread : readArchive file path 0 with
      | error e =>
          rw [hread] at h
          cases h
      | ok found =>
          rw [hread] at h
          obtain rfl := Except.ok.inj h
          obtain ⟨archive, next⟩ := found
          simp only [readArchive, bind_eq_ok, text_eq_ok, number_eq_ok, failIf_eq_ok,
            pure_eq_ok] at hread
          obtain ⟨magic, _, ⟨hmagic, hlength, rfl⟩, version, _, ⟨hversion, -, rfl⟩, count, _,
            ⟨hcount, hlt, rfl⟩, -, _, ⟨hformat, rfl⟩, records, _, hrecords, rfl, -⟩ := hread
          obtain ⟨rfl, rfl⟩ : magic = kMagic ∧ version = kVersion := by
            rw [not_or, not_not, not_not] at hformat
            exact hformat
          have hin := hcount.le_length
          rw [length_encode] at hin
          obtain ⟨entries, rfl, hall, hnodup, -, hat, rfl⟩ :=
            exists_entries_of_readRecords hfile hin hrecords
          refine ⟨entries, ⟨hfile, hlt, hall, hnodup, ?_⟩, rfl⟩
          rw [archiveBytes, hasAt_append, hasAt_append, hasAt_append, length_encode,
            length_encode]
          exact ⟨hmagic, hversion, hcount, hat⟩
  · rintro ⟨entries, h, rfl⟩
    exact openArchive_of_layout path h

/-- A file has one layout at most, as far as the records show it. -/
theorem Layout.records_eq {entries others : List Entry} (h : Layout file entries)
    (hothers : Layout file others) : recordsFrom 16 entries = recordsFrom 16 others := by
  have hsame := openArchive_of_layout [] h
  rw [openArchive_of_layout [] hothers] at hsame
  exact (congrArg QuantizedArchive.records (Except.ok.inj hsame)).symm

end Files

end Quantized
end RwkvLightning

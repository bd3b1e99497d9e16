import RwkvLightning.Io.PthTensorRead

/-!
# When reading a tensor stays in its storage

The sizes, strides, offsets and storage sizes of a record come from the file, and
`load_tensor_select` checks some of them.  `LoadFits` is the condition on them under
which no computation of a size or an index overflows and no element outside the storage
is read.

**Results.**
* `parsed_records`: what the parser guarantees of the records.
* `loadStrided_clean_iff`: the recursion over the dimensions, by the extreme addresses.
* `load_safe_iff`: loading a tensor is safe exactly when its sizes fit.
-/

namespace RwkvLightning
namespace Pth

open Checked Strided

/-- What the claim of safety rules out. -/
abbrev Outside (e : Fault) : Prop :=
  e = .outOfBounds

section Records

open Pickle

/-- What the parser guarantees of a record. -/
structure TensorRecord.Parsed (record : TensorRecord) : Prop where
  rank : record.shape.length = record.stride.length
  offset : record.storageOffset < word

/-- A value of the machine; a tensor inside a tuple never comes out of it. -/
def Value.Parsed : Value → Prop
  | .tensor tensor => tensor.Parsed
  | _ => True

/-- The invariant of the machine. -/
structure Parser.Parsed (p : Parser) : Prop where
  stack : ∀ value ∈ p.stack, Value.Parsed value
  memo : ∀ slot ∈ p.memo, Value.Parsed slot.2
  tensors : ∀ tensor ∈ p.tensors, tensor.Parsed

variable {p : Parser} {bytes : Bytes}

theorem Parser.Parsed.at (h : Parser.Parsed p) (pos : Nat) : Parser.Parsed (p.at pos) where
  stack := h.stack
  memo := h.memo
  tensors := h.tensors

theorem Parser.Parsed.restack (h : Parser.Parsed p) {stack : List Value}
    (hstack : ∀ value ∈ stack, Value.Parsed value) :
    Parser.Parsed { p with stack := stack } where
  stack := hstack
  memo := h.memo
  tensors := h.tensors

theorem Parser.Parsed.push (h : Parser.Parsed p) {value : Value} (hvalue : Value.Parsed value) :
    Parser.Parsed (p.push value) :=
  h.restack (List.forall_mem_cons.mpr ⟨hvalue, h.stack⟩)

/-- The values below the topmost mark. -/
theorem mem_of_findMark {stack items below : List Value} (h : findMark stack = some (items, below))
    {value : Value} (hvalue : value ∈ items ∨ value ∈ below) : value ∈ stack := by
  rw [findMark] at h
  cases hrest : stack.dropWhile (fun value => !value.isMark) with
  | nil =>
      rw [hrest] at h
      cases h
  | cons top rest =>
      have hsub := (@List.dropWhile_sublist _ stack fun value => !value.isMark).subset
      rw [hrest] at h hsub
      obtain ⟨rfl, rfl⟩ := Prod.mk.inj (Option.some.inj h)
      rcases hvalue with hitems | hbelow
      · exact (List.takeWhile_sublist _).subset (List.mem_reverse.mp hitems)
      · exact hsub (List.mem_cons_of_mem _ hbelow)

theorem parsed_makeTupleN (h : Parser.Parsed p) (n : Nat) :
    Yields Parser.Parsed (makeTupleN p n) := by
  refine yields_read fun _ => yields_pure ?_
  refine Parser.Parsed.push (h.restack fun value hvalue => h.stack value ?_) trivial
  exact List.mem_of_mem_drop hvalue

theorem parsed_makeTupleFromMark (h : Parser.Parsed p) :
    Yields Parser.Parsed (makeTupleFromMark p) := by
  rw [makeTupleFromMark]
  split
  · exact yields_fail _
  · rename_i items below hmark
    refine yields_pure (Parser.Parsed.push (h.restack fun value hvalue => h.stack value ?_) trivial)
    exact mem_of_findMark hmark (Or.inr hvalue)

theorem parsed_makePersistentId (h : Parser.Parsed p) :
    Yields Parser.Parsed (makePersistentId p) := by
  rw [makePersistentId]
  split
  · rename_i items rest hstack
    have hrest : ∀ value ∈ rest, Value.Parsed value := fun value hvalue =>
      h.stack value (hstack ▸ List.mem_cons_of_mem _ hvalue)
    split
    · refine yields_ite (yields_fail _) ?_
      split
      · exact yields_pure ((h.restack hrest).push trivial)
      · exact yields_fail _
    · exact yields_fail _
  · exact yields_fail _

/-- A tensor is built from shapes and strides of one length only. -/
theorem parsed_rebuildTensor (h : Parser.Parsed p) {items rest : List Value}
    (hrest : ∀ value ∈ rest, Value.Parsed value) :
    Yields Parser.Parsed (rebuildTensor p items rest) := by
  rw [rebuildTensor.eq_def]
  split
  · rename_i storage offset shape stride _
    rintro p' hp'
    obtain ⟨hrank, hp'⟩ := errorIf_bind_ok hp'
    obtain rfl := Except.ok.inj hp'
    refine (h.restack hrest).push { rank := not_not.mp hrank, offset := ?_ }
    show (offset % 2 ^ 64).toNat < 2 ^ 64
    omega
  · exact yields_fail _

theorem parsed_reduce (h : Parser.Parsed p) : Yields Parser.Parsed (reduce p) := by
  rw [reduce]
  split
  · rename_i args callable rest hstack
    have hrest : ∀ value ∈ rest, Value.Parsed value := fun value hvalue =>
      h.stack value (hstack ▸ List.mem_cons_of_mem _ (List.mem_cons_of_mem _ hvalue))
    split
    · refine yields_ite (yields_pure ((h.restack hrest).push trivial)) ?_
      exact yields_ite (parsed_rebuildTensor h hrest) (yields_fail _)
    · exact yields_fail _
  · exact yields_fail _

theorem parsed_tensorItems {items : List Value} (h : ∀ value ∈ items, Value.Parsed value)
    {tensors : List TensorRecord} (htensors : tensorItems items = some tensors) :
    ∀ tensor ∈ tensors, tensor.Parsed := by
  induction items using tensorItems.induct generalizing tensors with
  | case1 =>
      obtain rfl := Option.some.inj htensors
      simp
  | case2 name tensor items ih =>
      rw [tensorItems] at htensors
      obtain ⟨rest, hrest, rfl⟩ := Option.map_eq_some_iff.mp htensors
      have htensor : tensor.Parsed := h (.tensor tensor) (by simp)
      refine List.forall_mem_cons.mpr ⟨{ rank := htensor.rank, offset := htensor.offset }, ?_⟩
      exact ih (fun value hvalue =>
        h value (List.mem_cons_of_mem _ (List.mem_cons_of_mem _ hvalue))) hrest
  | case3 items hnil hcons =>
      rw [tensorItems] at htensors
      · cases htensors
      · exact hnil
      · exact hcons

theorem parsed_setitems (h : Parser.Parsed p) : Yields Parser.Parsed (setitems p) := by
  rw [setitems]
  split
  · rename_i items container rest hmark
    have hitems : ∀ value ∈ items, Value.Parsed value := fun value hvalue =>
      h.stack value (mem_of_findMark hmark (Or.inl hvalue))
    have hbelow : ∀ value ∈ container :: rest, Value.Parsed value := fun value hvalue =>
      h.stack value (mem_of_findMark hmark (Or.inr hvalue))
    refine yields_ite (yields_read fun _ => yields_pure ?_) (yields_fail _)
    refine { stack := hbelow, memo := h.memo, tensors := fun tensor htensor => ?_ }
    rcases List.mem_append.mp htensor with hold | hnew
    · exact h.tensors tensor hold
    · cases htensors : tensorItems items with
      | none =>
          rw [htensors] at hnew
          cases hnew
      | some tensors =>
          rw [htensors] at hnew
          exact parsed_tensorItems hitems htensors tensor hnew
  · exact yields_fail _

theorem parsed_setitem (h : Parser.Parsed p) : Yields Parser.Parsed (setitem p) := by
  rw [setitem]
  split
  · rename_i container rest hstack
    refine yields_ite (yields_pure (h.restack fun value hvalue => h.stack value ?_))
      (yields_fail _)
    rw [hstack]
    exact List.mem_cons_of_mem _ (List.mem_cons_of_mem _ hvalue)
  · exact yields_fail _

theorem parsed_build (h : Parser.Parsed p) : Yields Parser.Parsed (build p) := by
  rw [build]
  split
  · rename_i object rest hstack
    refine yields_pure (h.restack fun value hvalue => h.stack value ?_)
    rw [hstack]
    exact List.mem_cons_of_mem _ hvalue
  · exact yields_fail _

theorem parsed_memoPut (h : Parser.Parsed p) (index : Nat) :
    Yields Parser.Parsed (memoPut p index) := by
  rw [memoPut]
  split
  · exact yields_fail _
  · rename_i value rest hstack
    refine yields_pure { stack := h.stack, memo := ?_, tensors := h.tensors }
    exact List.forall_mem_cons.mpr ⟨h.stack value (hstack ▸ List.mem_cons_self), h.memo⟩

theorem parsed_memoGet (h : Parser.Parsed p) (index : Nat) :
    Yields Parser.Parsed (memoGet p index) := by
  rw [memoGet]
  split
  · exact yields_fail _
  · rename_i value hlookup
    obtain ⟨l₁, l₂, hmemo, -⟩ := List.lookup_eq_some_iff.mp hlookup
    exact yields_pure (h.push (h.memo (index, value) (by rw [hmemo]; simp)))

/-- Every opcode keeps the invariant. -/
theorem parsed_dispatch (h : Parser.Parsed p) (op : UInt8) :
    Yields Parser.Parsed (dispatch bytes p op) := by
  have hint : ∀ (i : Int) (pos : Nat), Parser.Parsed ((p.at pos).push (.int i)) :=
    fun i pos => (h.at pos).push trivial
  have htext : ∀ (s : Bytes) (pos : Nat), Parser.Parsed ((p.at pos).push (.string s)) :=
    fun s pos => (h.at pos).push trivial
  rw [dispatch]
  refine yields_ite (yields_read fun pos => yields_pure (h.at pos)) ?_
  refine yields_ite (yields_pure (h.push trivial)) (yields_ite (yields_pure (h.push trivial)) ?_)
  refine yields_ite (yields_read fun r => parsed_memoPut (h.at r.2) r.1) ?_
  refine yields_ite (yields_read fun r => parsed_memoPut (h.at r.2) r.1) ?_
  refine yields_ite (yields_read fun r => parsed_memoGet (h.at r.2) r.1) ?_
  refine yields_ite (yields_read fun r => parsed_memoGet (h.at r.2) r.1) ?_
  refine yields_ite (yields_read fun _ => yields_read fun r => yields_pure (htext _ _)) ?_
  refine yields_ite (yields_read fun _ => yields_pure ((h.at _).push trivial)) ?_
  refine yields_ite (yields_read fun r => yields_pure (hint _ _)) ?_
  refine yields_ite (yields_read fun r => yields_pure (hint _ _)) ?_
  refine yields_ite (yields_read fun r => yields_pure (hint _ _)) ?_
  refine yields_ite (yields_read fun _ => yields_read fun r => yields_pure (hint _ _)) ?_
  refine yields_ite (yields_read fun _ => yields_read fun r => yields_pure (hint _ _)) ?_
  refine yields_ite (parsed_makeTupleFromMark h) (yields_ite (yields_pure (h.push trivial)) ?_)
  refine yields_ite (parsed_makeTupleN h 1) (yields_ite (parsed_makeTupleN h 2) ?_)
  refine yields_ite (parsed_makeTupleN h 3) (yields_ite (yields_pure (h.push trivial)) ?_)
  refine yields_ite (yields_pure (h.push trivial)) (yields_ite (parsed_makePersistentId h) ?_)
  refine yields_ite (parsed_reduce h) (yields_ite (parsed_setitem h) ?_)
  refine yields_ite (parsed_setitems h) (yields_ite (parsed_build h) ?_)
  exact yields_ite (yields_pure { stack := h.stack, memo := h.memo, tensors := h.tensors })
    (yields_fail _)

theorem parsed_parseLoop (fuel : Nat) (h : Parser.Parsed p) :
    Yields (fun records => ∀ record ∈ records, record.Parsed) (parseLoop bytes fuel p) := by
  induction fuel generalizing p with
  | zero => exact yields_fail _
  | succ fuel ih =>
      rw [parseLoop]
      split
      · exact yields_fail _
      · refine Yields.bind (parsed_dispatch (h.at _) _) fun p' hp' => ?_
        exact yields_ite (yields_pure hp'.tensors) (ih hp')

/-- The records of an archive. -/
theorem parsed_records (archive : PthArchive) :
    Yields (fun records => ∀ record ∈ records, record.Parsed)
      (parsePthTensorRecords archive) := by
  have hstart : Parser.Parsed Parser.start := by
    refine { stack := ?_, memo := ?_, tensors := ?_ } <;> simp [Parser.start]
  rw [parsePthTensorRecords]
  refine yields_read fun _ => ?_
  split
  · exact yields_fail _
  · exact yields_read fun bytes => parsed_parseLoop _ hstart

end Records

section Conditions

/-- No product of the sizes overflows, up to the first negative one. -/
def NumelFits : Nat → List Int → Prop
  | _, [] => True
  | n, dim :: shape => 0 ≤ dim → n * dim.toNat < word ∧ NumelFits (n * dim.toNat) shape

/-- The number of elements. -/
def countLoop : Nat → List Int → Nat
  | n, [] => n
  | n, dim :: shape => if dim < 0 then 0 else countLoop (n * dim.toNat) shape

/-- No product of the sizes overflows, from the last dimension to the first gap. -/
def DenseFits : List (Int × Int) → Int → Prop
  | [], _ => True
  | (size, stride) :: dims, step =>
      size ≠ 0 → (size = 1 ∨ stride = step) → FitsInt (step * size) ∧ DenseFits dims (step * size)

/-- The dimensions that the recursion walks over. -/
def reached (dims : List (Int × Int)) : List (Int × Int) :=
  dims.takeWhile fun d => 0 < d.1

/-- The extreme addresses of a tensor lie below `bound`; where it is empty, in 64 bits. -/
structure BoxFits (bound : Nat) (dims : List (Int × Int)) (start : Int) : Prop where
  products : ∀ d ∈ reached dims, FitsInt ((d.1 - 1) * d.2)
  low : 0 ≤ lowest (reached dims) start
  high : highest (reached dims) start < if reached dims = dims then (bound : Int) else word

end Conditions

section Walk

/-- What the recursion over the dimensions forms and visits. -/
def Walk (bound : Nat) : List (Int × Int) → Int → Prop
  | [], start => start < bound
  | (size, stride) :: dims, start =>
      ∀ i : Int, 0 ≤ i → i < size →
        FitsInt (i * stride) ∧ 0 ≤ start + i * stride ∧ start + i * stride < word ∧
          Walk bound dims (start + i * stride)

variable {bound : Nat} {dims : List (Int × Int)} {start : Int}

theorem reached_pos : ∀ d ∈ reached dims, 0 < d.1 := by
  intro d hd
  have hall := @List.all_takeWhile _ (fun d : Int × Int => decide (0 < d.1)) dims
  exact of_decide_eq_true (List.all_eq_true.mp hall d hd)

/-- The walk stays inside exactly when its extreme addresses do. -/
theorem walk_iff (hbound : bound ≤ word) (hlow : 0 ≤ start) (hhigh : start < word) :
    Walk bound dims start ↔ BoxFits bound dims start := by
  induction dims generalizing start with
  | nil =>
      constructor
      · intro h
        exact { products := by simp [reached], low := hlow, high := h }
      · intro h
        exact h.high
  | cons d dims ih =>
      obtain ⟨size, stride⟩ := d
      rw [Walk]
      by_cases hsize : 0 < size
      · have hreached : reached ((size, stride) :: dims) = (size, stride) :: reached dims := by
          simp [reached, hsize]
        have hall : reached ((size, stride) :: dims) = (size, stride) :: dims ↔
            reached dims = dims := by
          simp [hreached]
        constructor
        · intro h
          -- the extremes are reached at the first and at the last index
          have hbox : ∀ i, 0 ≤ i → i < size → BoxFits bound dims (start + i * stride) := by
            intro i hi hlt
            obtain ⟨-, hl, hh, hwalk⟩ := h i hi hlt
            exact (ih hl hh).mp hwalk
          obtain ⟨hmin, hmax⟩ := @extreme_steps size stride (fun x => BoxFits bound dims (start + x)) hsize hbox
          refine { products := ?_, low := ?_, high := ?_ }
          · rw [hreached]
            exact List.forall_mem_cons.mpr
              ⟨(h (size - 1) (by omega) (by omega)).1, hmin.products⟩
          · rw [hreached]
            exact hmin.low
          · rw [if_congr hall rfl rfl, hreached]
            exact hmax.high
        · intro h i hi hlt
          obtain ⟨hdown, hup⟩ := @step_between i size stride hi hlt
          have hproducts := h.products
          have hl := h.low
          have hh := h.high
          rw [hreached] at hproducts hl
          rw [if_congr hall rfl rfl, hreached] at hh
          obtain ⟨hlast, hrest⟩ := List.forall_mem_cons.mp hproducts
          simp only [lowest, highest] at hl hh
          have hlow' := @lowest_mono (reached dims) (start + (size - 1) * min stride 0)
            (start + i * stride) (by omega)
          have hhigh' := @highest_mono (reached dims) (start + i * stride)
            (start + (size - 1) * max stride 0) (by omega)
          have hge := @lowest_le (reached dims) (start + i * stride) reached_pos
          have hle := @le_highest (reached dims) (start + i * stride) reached_pos
          have hword : highest (reached dims) (start + i * stride) < word := by
            split at hh <;> omega
          have hbox : BoxFits bound dims (start + i * stride) :=
            { products := hrest, low := by omega, high := by omega }
          refine ⟨?_, by omega, by omega, (ih (by omega) (by omega)).mpr hbox⟩
          have hfits : -2 ^ 63 ≤ (size - 1) * stride ∧ (size - 1) * stride < 2 ^ 63 := hlast
          rcases le_total 0 stride with hs | hs
          · rw [min_eq_right hs, mul_zero] at hdown
            rw [max_eq_left hs] at hup
            exact ⟨by omega, by omega⟩
          · rw [min_eq_left hs] at hdown
            rw [max_eq_right hs, mul_zero] at hup
            exact ⟨by omega, by omega⟩
      · have hreached : reached ((size, stride) :: dims) = [] := by
          simp [reached, hsize]
        constructor
        · intro _
          refine { products := ?_, low := ?_, high := ?_ }
          · simp [hreached]
          · rw [hreached]
            exact hlow
          · rw [hreached, if_neg (List.cons_ne_nil _ _).symm]
            exact hhigh
        · intro _ i hi hlt
          omega

end Walk

section Steps

variable {α β : Type} {f : α → Io β}

theorem clean_add_iff {a b : Nat} {f : Nat → Io β} :
    Clean Outside (add a b >>= f) ↔ a + b < word ∧ Clean Outside (f (a + b)) := by
  rw [add, clean_noteIf_iff, decide_eq_false_iff_not, not_le]
  refine and_congr_right fun h => ?_
  rw [Nat.mod_eq_of_lt h]

theorem clean_mul_iff {a b : Nat} {f : Nat → Io β} :
    Clean Outside (mul a b >>= f) ↔ a * b < word ∧ Clean Outside (f (a * b)) := by
  rw [mul, clean_noteIf_iff, decide_eq_false_iff_not, not_le]
  refine and_congr_right fun h => ?_
  rw [Nat.mod_eq_of_lt h]

theorem clean_mulInt_iff {a b : Int} {f : Int → Io β} :
    Clean Outside (mulInt a b >>= f) ↔ FitsInt (a * b) ∧ Clean Outside (f (a * b)) := by
  constructor
  · intro h
    have hfits : FitsInt (a * b) := by
      rw [mulInt, clean_noteIf_iff] at h
      exact not_not.mp (of_decide_eq_false h.1)
    rw [mulInt_eq hfits, pure_bind] at h
    exact ⟨hfits, h⟩
  · rintro ⟨hfits, h⟩
    rwa [mulInt_eq hfits, pure_bind]

theorem clean_moved_iff {index : Nat} {distance : Int} {f : Nat → Io β} :
    Clean Outside (moved index distance >>= f) ↔
      0 ≤ index + distance ∧ index + distance < word ∧
        Clean Outside (f (index + distance).toNat) := by
  constructor
  · intro h
    have hinside : ¬(index + distance < 0 ∨ (word : Int) ≤ index + distance) := by
      rw [moved, clean_noteIf_iff] at h
      exact of_decide_eq_false h.1
    rw [moved_eq (by omega) (by omega), pure_bind] at h
    exact ⟨by omega, by omega, h⟩
  · rintro ⟨hlow, hhigh, h⟩
    rwa [moved_eq hlow hhigh, pure_bind]

theorem clean_errorIf_iff {p : Prop} [Decidable p] {message : String} {subject : Bytes}
    {f : PUnit → Io β} :
    Clean Outside (errorIf p message subject >>= f) ↔ (¬p → Clean Outside (f ⟨⟩)) := by
  by_cases hp : p
  · rw [errorIf, if_pos hp]
    refine iff_of_true ?_ fun h => absurd hp h
    exact clean_fail_iff.mpr (by simp)
  · rw [errorIf, if_neg hp, pure_bind]
    exact ⟨fun h _ => h, fun h => h hp⟩

theorem clean_numelLoop_iff {n : Nat} {shape : List Int} {f : Nat → Io β} :
    Clean Outside (numelLoop n shape >>= f) ↔
      NumelFits n shape ∧ Clean Outside (f (countLoop n shape)) := by
  induction shape generalizing n with
  | nil =>
      rw [numelLoop, pure_bind]
      exact (and_iff_right trivial).symm
  | cons dim shape ih =>
      rw [numelLoop, NumelFits, countLoop]
      by_cases hneg : dim < 0
      · rw [if_pos hneg, if_pos hneg, pure_bind]
        exact (and_iff_right fun h => by omega).symm
      · rw [if_neg hneg, if_neg hneg, Checked.bind_assoc, clean_mul_iff, ih, ← and_assoc]
        refine and_congr_left fun _ => ?_
        exact ⟨fun h _ => h, fun h => h (by omega)⟩

theorem isContiguousLoop_clean_iff {dims : List (Int × Int)} {step : Int} :
    Clean Outside (isContiguousLoop dims step) ↔ DenseFits dims step := by
  induction dims generalizing step with
  | nil => exact iff_of_true (clean_pure _) trivial
  | cons d dims ih =>
      obtain ⟨size, stride⟩ := d
      rw [isContiguousLoop, DenseFits]
      by_cases hzero : size = 0
      · rw [if_pos hzero]
        exact iff_of_true (clean_pure _) fun h => absurd hzero h
      · rw [if_neg hzero]
        by_cases hgap : size ≠ 1 ∧ stride ≠ step
        · rw [if_pos hgap]
          refine iff_of_true (clean_pure _) fun _ h => ?_
          rcases h with h | h
          · exact absurd h hgap.1
          · exact absurd h hgap.2
        · rw [if_neg hgap, clean_mulInt_iff, ih]
          refine ⟨fun h _ _ => h, fun h => h hzero ?_⟩
          rw [not_and_or, not_not, not_not] at hgap
          exact hgap

end Steps

section Elements

variable {storage : Bytes} {dtype : TensorDType} {a : Nat} {β : Type}

theorem onlyFails_loadScalar (off size : Nat) :
    OnlyFails Outside (loadScalar storage off size) := by
  rw [loadScalar]
  split
  · exact onlyFails_fail rfl
  · exact onlyFails_pure _

theorem onlyFails_mul (a b : Nat) : OnlyFails Outside (mul a b) := by
  rintro e he
  cases he

theorem clean_loadScalar_iff {off size : Nat} {g : Nat → β} :
    Clean Outside (loadScalar storage off size >>= fun bits => pure (g bits)) ↔
      off + size ≤ storage.length := by
  rw [clean_bind_left fun _ _ => clean_pure _, loadScalar]
  by_cases hout : storage.length < off + size
  · rw [if_pos hout, clean_fail_iff]
    exact iff_of_false (not_not_intro rfl) (by omega)
  · rw [if_neg hout]
    exact iff_of_true (clean_pure _) (by omega)

theorem onlyFails_readElementAsFloat :
    OnlyFails Outside (readElementAsFloat storage dtype a) := by
  refine (onlyFails_mul _ _).bind fun off => ?_
  cases dtype <;> exact (onlyFails_loadScalar _ _).bind fun _ => onlyFails_pure _

theorem onlyFails_readElementAsBf16 :
    OnlyFails Outside (readElementAsBf16 storage dtype a) := by
  rw [readElementAsBf16]
  split
  · refine (onlyFails_mul _ _).bind fun off => ?_
    exact (onlyFails_loadScalar _ _).bind fun _ => onlyFails_pure _
  · exact onlyFails_readElementAsFloat.bind fun _ => onlyFails_pure _

/-- A read is safe exactly when the element lies in the storage. -/
theorem readElementAsFloat_clean_iff (hshort : storage.length < word) :
    Clean Outside (readElementAsFloat storage dtype a) ↔
      (a + 1) * dtypeSizeBytes dtype ≤ storage.length := by
  rw [readElementAsFloat, clean_mul_iff]
  cases dtype with
  | bFloat16 =>
      simp only [dtypeSizeBytes, clean_loadScalar_iff]
      omega
  | float16 =>
      simp only [dtypeSizeBytes, clean_loadScalar_iff]
      omega
  | float32 =>
      simp only [dtypeSizeBytes, clean_loadScalar_iff]
      omega

theorem readElementAsBf16_clean_iff (hshort : storage.length < word) :
    Clean Outside (readElementAsBf16 storage dtype a) ↔
      (a + 1) * dtypeSizeBytes dtype ≤ storage.length := by
  rw [readElementAsBf16]
  by_cases hdtype : dtype = .bFloat16
  · rw [if_pos hdtype, clean_mul_iff, clean_loadScalar_iff, hdtype, dtypeSizeBytes]
    omega
  · rw [if_neg hdtype, clean_bind_left fun _ _ => clean_pure _]
    exact readElementAsFloat_clean_iff hshort

end Elements

section Loops

variable {β : Type} {read : Nat → Io β} {bound : Nat}

theorem readAll_clean_iff (honly : ∀ a, OnlyFails Outside (read a)) {is : List Nat} :
    Clean Outside (readAll read is) ↔ ∀ i ∈ is, Clean Outside (read i) := by
  induction is with
  | nil => exact iff_of_true (clean_pure _) (by simp)
  | cons i is ih =>
      have hrest : ∀ value : β,
          Clean Outside (readAll read is >>= fun values => pure (value :: values)) ↔
            Clean Outside (readAll read is) := fun value =>
        clean_bind_left fun _ _ => clean_pure _
      rw [readAll, clean_bind_iff, List.forall_mem_cons, ← ih]
      refine and_congr_right fun h => ?_
      obtain ⟨value, hvalue⟩ := h.result_ok (honly i)
      exact ⟨fun hall => (hrest value).mp (hall value hvalue),
        fun hall value _ => (hrest value).mpr hall⟩

theorem collect_clean_iff {pass : Nat → Io (List β)}
    (honly : ∀ i, OnlyFails Outside (pass i)) {is : List Nat} :
    Clean Outside (collect pass is) ↔ ∀ i ∈ is, Clean Outside (pass i) := by
  induction is with
  | nil => exact iff_of_true (clean_pure _) (by simp)
  | cons i is ih =>
      have hrest : ∀ first : List β,
          Clean Outside (collect pass is >>= fun rest => pure (first ++ rest)) ↔
            Clean Outside (collect pass is) := fun first =>
        clean_bind_left fun _ _ => clean_pure _
      rw [collect, clean_bind_iff, List.forall_mem_cons, ← ih]
      refine and_congr_right fun h => ?_
      obtain ⟨first, hfirst⟩ := h.result_ok (honly i)
      exact ⟨fun hall => (hrest first).mp (hall first hfirst),
        fun hall first _ => (hrest first).mpr hall⟩

theorem onlyFails_collect {pass : Nat → Io (List β)}
    (honly : ∀ i, OnlyFails Outside (pass i)) (is : List Nat) :
    OnlyFails Outside (collect pass is) := by
  induction is with
  | nil => exact onlyFails_pure _
  | cons i is ih => exact (honly i).bind fun _ => ih.bind fun _ => onlyFails_pure _

theorem onlyFails_mulInt (a b : Int) : OnlyFails Outside (mulInt a b) := by
  rintro e he
  cases he

theorem onlyFails_moved (index : Nat) (distance : Int) :
    OnlyFails Outside (moved index distance) := by
  rintro e he
  cases he

theorem onlyFails_loadStrided (honly : ∀ a, OnlyFails Outside (read a))
    (dims : List (Int × Int)) (offset : Nat) :
    OnlyFails Outside (loadStrided read dims offset) := by
  induction dims generalizing offset with
  | nil => exact (honly offset).bind fun _ => onlyFails_pure _
  | cons d dims ih =>
      exact onlyFails_collect (fun i => (onlyFails_mulInt _ _).bind fun distance =>
        (onlyFails_moved _ _).bind ih) _

/-- The recursion over the dimensions forms and visits what `Walk` says. -/
theorem loadStrided_clean_iff (honly : ∀ a, OnlyFails Outside (read a))
    (hread : ∀ a, Clean Outside (read a) ↔ a < bound) {dims : List (Int × Int)} {offset : Nat} :
    Clean Outside (loadStrided read dims offset) ↔ Walk bound dims offset := by
  induction dims generalizing offset with
  | nil =>
      rw [loadStrided, clean_bind_left fun _ _ => clean_pure _, hread, Walk]
      omega
  | cons d dims ih =>
      obtain ⟨size, stride⟩ := d
      have hpass : ∀ i : Nat,
          Clean Outside (mulInt i stride >>= fun distance =>
            moved offset distance >>= loadStrided read dims) ↔
          FitsInt (i * stride) ∧ 0 ≤ offset + i * stride ∧ offset + i * stride < word ∧
            Walk bound dims (offset + i * stride) := by
        intro i
        rw [clean_mulInt_iff, clean_moved_iff]
        refine and_congr_right fun _ => and_congr_right fun hlow => and_congr_right fun _ => ?_
        rw [ih, Int.toNat_of_nonneg hlow]
      have honly' : ∀ i : Nat, OnlyFails Outside (mulInt i stride >>= fun distance =>
          moved offset distance >>= loadStrided read dims) := fun i =>
        (onlyFails_mulInt _ _).bind fun distance =>
          (onlyFails_moved _ _).bind (onlyFails_loadStrided honly dims)
      rw [loadStrided, collect_clean_iff honly', Walk]
      constructor
      · intro h i hi hlt
        have hcast : ((i.toNat : Nat) : Int) = i := Int.toNat_of_nonneg hi
        have hi' := (hpass i.toNat).mp (h i.toNat (List.mem_range.mpr (by omega)))
        rwa [hcast] at hi'
      · intro h i hi
        have hlt := List.mem_range.mp hi
        exact (hpass i).mpr (h i (by omega) (by omega))

end Loops

section Loading

/-- The bytes of the entry that a record refers to. -/
def storedBytes (archive : PthArchive) (record : TensorRecord) : Option Bytes :=
  if archivePrefix archive = [] then none
  else
    (archive.findEntry (archivePrefix archive ++ ascii "/data/" ++ record.storageKey)).bind
      fun entry => (archive.inMemory.readStoredEntry entry).result.toOption

/-- `reserve` does not throw. -/
def Reservable (n : Nat) (needBf16 needF16 needFloat : Bool) : Prop :=
  (needBf16 = true → n ≤ (2 ^ 63 - 1) / 2) ∧ (needF16 = true → n ≤ (2 ^ 63 - 1) / 2) ∧
    (needFloat = true → n ≤ (2 ^ 63 - 1) / 4)

/-- Whether the strides are used: something is asked for, and room for it can be had. -/
def Scattered (n : Nat) (needBf16 needF16 needFloat : Bool) : Prop :=
  needBf16 = true ∨ needFloat = true ∨ needF16 = true ∧ n ≤ (2 ^ 63 - 1) / 4

/-- The shape and the strides of a tensor whose vectors can be reserved. -/
structure AccessFits (record : TensorRecord) (needBf16 needF16 needFloat : Bool) : Prop where
  dense : DenseFits record.dims.reverse 1
  contiguous : (isContiguous record.shape record.stride).result = .ok true →
    record.storageOffset + countLoop 1 record.shape < word
  scattered : (isContiguous record.shape record.stride).result = .ok false →
    Scattered (countLoop 1 record.shape) needBf16 needF16 needFloat →
      BoxFits record.storageSize record.dims record.storageOffset

/-- The sizes of a record whose entry has been read. -/
structure SizesFit (record : TensorRecord) (storage : Bytes)
    (needBf16 needF16 needFloat : Bool) : Prop where
  bytes : record.storageSize * dtypeSizeBytes record.dtype < word
  shape : record.storageSize * dtypeSizeBytes record.dtype = storage.length →
    NumelFits 1 record.shape
  access : record.storageSize * dtypeSizeBytes record.dtype = storage.length →
    Reservable (countLoop 1 record.shape) needBf16 needF16 needFloat →
      AccessFits record needBf16 needF16 needFloat

/-- What has to hold of a record for it to be loaded safely. -/
def LoadFits (archive : PthArchive) (record : TensorRecord)
    (needBf16 needF16 needFloat : Bool) : Prop :=
  ∀ storage, storedBytes archive record = some storage →
    SizesFit record storage needBf16 needF16 needFloat

variable {archive : PthArchive} {record : TensorRecord} {storage : Bytes} {n : Nat}
  {needBf16 needF16 needFloat : Bool}

/-- An element is read safely exactly when its index is below the storage size. -/
theorem element_clean_iff (hlength : record.storageSize * dtypeSizeBytes record.dtype =
    storage.length) (hshort : storage.length < word) (a : Nat) :
    (Clean Outside (readElementAsFloat storage record.dtype a) ↔ a < record.storageSize) ∧
      (Clean Outside (readElementAsBf16 storage record.dtype a) ↔ a < record.storageSize) := by
  have hpos : 0 < dtypeSizeBytes record.dtype := by
    cases record.dtype <;> decide
  rw [readElementAsFloat_clean_iff hshort, readElementAsBf16_clean_iff hshort, ← hlength,
    Nat.mul_le_mul_right_iff hpos, Nat.succ_le_iff]
  exact ⟨Iff.rfl, Iff.rfl⟩

theorem clean_readContiguous {β : Type} {read : Nat → Io β}
    (honly : ∀ a, OnlyFails Outside (read a))
    (hread : ∀ a, Clean Outside (read a) ↔ a < record.storageSize)
    (hfits : record.storageOffset + n < word)
    (hinside : record.storageOffset + n ≤ record.storageSize) :
    Clean Outside (readContiguous record read n) := by
  have honly' : ∀ i, OnlyFails Outside (add record.storageOffset i >>= read) := by
    intro i
    have hadd : OnlyFails Outside (add record.storageOffset i) := by
      rintro e he
      cases he
    exact hadd.bind honly
  refine (readAll_clean_iff honly').mpr fun i hi => ?_
  have hlt := List.mem_range.mp hi
  exact clean_add_iff.mpr ⟨by omega, (hread _).mpr (by omega)⟩

/-- The contiguous path: only the sum of its check can overflow. -/
theorem loadContiguous_clean_iff (hlength : record.storageSize * dtypeSizeBytes record.dtype =
    storage.length) (hshort : storage.length < word) :
    Clean Outside (loadContiguous record storage n needBf16 needF16 needFloat) ↔
      record.storageOffset + n < word := by
  have hread := element_clean_iff hlength hshort
  rw [loadContiguous, checkContiguous, Checked.bind_assoc, clean_add_iff, clean_errorIf_iff]
  refine and_iff_left_of_imp fun hfits hinside => ?_
  rw [not_lt] at hinside
  have hfloat := clean_readContiguous (fun _ => onlyFails_readElementAsFloat)
    (fun a => (hread a).1) hfits hinside
  have hbf16 := clean_readContiguous (fun _ => onlyFails_readElementAsBf16)
    (fun a => (hread a).2) hfits hinside
  dsimp only
  split
  · exact (clean_bind_left fun _ _ => (clean_bind_left fun _ _ => clean_pure _).mpr hfloat).mpr hbf16
  · rw [pure_bind]
    exact (clean_bind_left fun _ _ => clean_pure _).mpr hfloat

theorem reserveElements_clean (size n : Nat) :
    Clean Outside (reserveElements size n : Io PUnit.{1}) := by
  rw [reserveElements]
  split
  · exact clean_fail_iff.mpr (by simp)
  · exact clean_pure _

/-- The other path, which checks nothing. -/
theorem loadScattered_clean_iff (hlength : record.storageSize * dtypeSizeBytes record.dtype =
    storage.length) (hshort : storage.length < word) :
    Clean Outside (loadScattered record storage n needBf16 needF16 needFloat) ↔
      (Scattered n needBf16 needF16 needFloat →
        Walk record.storageSize record.dims record.storageOffset) := by
  have hread := element_clean_iff hlength hshort
  have hfloat : Clean Outside (loadStridedFloat storage record.dtype record.dims
      record.storageOffset) ↔ Walk record.storageSize record.dims record.storageOffset :=
    loadStrided_clean_iff (fun _ => onlyFails_readElementAsFloat) fun a => (hread a).1
  have hbf16 : Clean Outside (loadStridedBf16 storage record.dtype record.dims
      record.storageOffset) ↔ Walk record.storageSize record.dims record.storageOffset :=
    loadStrided_clean_iff (fun _ => onlyFails_readElementAsBf16) fun a => (hread a).2
  have hrest : Clean Outside
      (reserveElements 4 n >>= fun _ : PUnit.{1} =>
        loadStridedFloat storage record.dtype record.dims record.storageOffset) ↔
      (n ≤ (2 ^ 63 - 1) / 4 → Walk record.storageSize record.dims record.storageOffset) := by
    rw [reserveElements]
    by_cases hn : (2 ^ 63 - 1) / 4 < n
    · rw [if_pos hn]
      exact iff_of_true (clean_fail_iff.mpr (by simp)) fun h => by omega
    · rw [if_neg hn, pure_bind, hfloat]
      exact ⟨fun h _ => h, fun h => h (by omega)⟩
  have htail : ∀ (g : List UInt32 → TensorData) (values : List UInt32),
      Clean Outside
        (if needF16 = true ∧ (!needFloat) = true then
          reserveElements 4 n >>= fun _ : PUnit.{1} =>
            loadStridedFloat storage record.dtype record.dims record.storageOffset >>=
              fun src => pure (g src)
        else pure values >>= fun src => pure (g src)) ↔
      (needF16 = true ∧ needFloat = false → n ≤ (2 ^ 63 - 1) / 4 →
        Walk record.storageSize record.dims record.storageOffset) := by
    intro g values
    by_cases hneed : needF16 = true ∧ (!needFloat) = true
    · rw [if_pos hneed, ← Checked.bind_assoc, clean_bind_left fun _ _ => clean_pure _, hrest]
      rw [Bool.not_eq_true'] at hneed
      exact ⟨fun h _ => h, fun h => h hneed⟩
    · rw [if_neg hneed, pure_bind]
      rw [Bool.not_eq_true'] at hneed
      exact iff_of_true (clean_pure _) fun h => absurd h hneed
  have hdims : record.shape.zip record.stride = record.dims := rfl
  rw [loadScattered]
  simp only [hdims]
  cases needBf16 with
  | true =>
      rw [if_pos rfl, clean_bind_left, hbf16]
      · exact ⟨fun h _ => h, fun h => h (Or.inl rfl)⟩
      · intro hclean bf16
        have hwalk := hbf16.mp hclean
        split
        · refine clean_bind_iff.mpr ⟨hfloat.mpr hwalk, fun values _ => ?_⟩
          exact (htail _ values).mpr fun _ _ => hwalk
        · rw [pure_bind]
          exact (htail _ []).mpr fun _ _ => hwalk
  | false =>
      rw [if_neg Bool.false_ne_true, pure_bind]
      cases needFloat with
      | true =>
          rw [if_pos rfl, clean_bind_left, hfloat]
          · exact ⟨fun h _ => h, fun h => h (Or.inr (Or.inl rfl))⟩
          · intro hclean values
            exact (htail _ values).mpr fun _ _ => hfloat.mp hclean
      | false =>
          rw [if_neg Bool.false_ne_true, pure_bind]
          refine (htail _ []).trans ?_
          simp [Scattered]

/-- A `reserve` that may be left out. -/
theorem clean_reserve_iff {β : Type} {need : Bool} {size : Nat} {f : PUnit.{1} → Io β} :
    Clean Outside (if need = true then reserveElements size n >>= f else f ⟨⟩) ↔
      ((need = true → n ≤ (2 ^ 63 - 1) / size) → Clean Outside (f ⟨⟩)) := by
  cases need with
  | false =>
      rw [if_neg Bool.false_ne_true]
      exact ⟨fun h _ => h, fun h => h (by simp)⟩
  | true =>
      rw [if_pos rfl, reserveElements]
      by_cases hn : (2 ^ 63 - 1) / size < n
      · rw [if_pos hn]
        exact iff_of_true (clean_fail_iff.mpr (by simp)) fun h => absurd (h rfl) (not_le.mpr hn)
      · rw [if_neg hn, pure_bind]
        exact ⟨fun h _ => h, fun h => h fun _ => not_lt.mp hn⟩

theorem clean_readStoredEntry (archive : PthArchive) (entry : PthEntry) :
    Clean Outside (archive.inMemory.readStoredEntry entry) := by
  rw [PthArchive.readStoredEntry, clean_errorIf_iff]
  intro _
  rw [clean_errorIf_iff]
  exact fun _ => clean_pure _

/-- The statements before the tensor is looked at. -/
theorem clean_tensorStorage_iff (hsize : archive.file.length < 2 ^ 63) {β : Type}
    {f : Bytes → Io β} :
    Clean Outside (tensorStorage archive record >>= f) ↔
      ∀ storage, storedBytes archive record = some storage →
        record.storageSize * dtypeSizeBytes record.dtype < word ∧
          (record.storageSize * dtypeSizeBytes record.dtype = storage.length →
            Clean Outside (f storage)) := by
  rw [tensorStorage, storedBytes, Checked.bind_assoc, clean_errorIf_iff]
  by_cases hroot : archivePrefix archive = []
  · simp [hroot]
  · rw [if_neg hroot]
    refine (forall_prop_of_true hroot).trans ?_
    cases hentry : archive.findEntry
        (archivePrefix archive ++ ascii "/data/" ++ record.storageKey) with
    | none =>
        refine iff_of_true ?_ fun storage h => by cases h
        exact clean_fail_iff.mpr (by simp)
    | some entry =>
        dsimp only
        rw [Checked.bind_assoc, readStoredEntry_inMemory hsize, clean_bind_iff,
          and_iff_right (clean_readStoredEntry archive entry)]
        refine forall_congr' fun storage => ?_
        have hresult : (archive.inMemory.readStoredEntry entry).result = .ok storage ↔
            (some entry).bind (fun entry =>
              (archive.inMemory.readStoredEntry entry).result.toOption) = some storage := by
          cases h : (archive.inMemory.readStoredEntry entry).result <;>
            simp [h, Except.toOption]
        rw [hresult]
        refine imp_congr_right fun _ => ?_
        rw [Checked.bind_assoc, clean_mul_iff, Checked.bind_assoc, clean_errorIf_iff, not_not,
          pure_bind]

theorem length_storedBytes (hsize : archive.file.length < 2 ^ 63) {storage : Bytes}
    (h : storedBytes archive record = some storage) : storage.length < word := by
  have hword : word = 2 ^ 64 := rfl
  rw [storedBytes] at h
  split at h
  · cases h
  · obtain ⟨entry, -, hread⟩ := Option.bind_eq_some_iff.mp h
    cases hresult : (archive.inMemory.readStoredEntry entry).result with
    | error e =>
        rw [hresult] at hread
        cases hread
    | ok bytes =>
        rw [hresult] at hread
        obtain rfl := Option.some.inj hread
        rw [PthArchive.readStoredEntry] at hresult
        obtain ⟨-, hresult⟩ := errorIf_bind_ok hresult
        obtain ⟨-, hresult⟩ := errorIf_bind_ok hresult
        obtain rfl := Except.ok.inj hresult
        have hle : (LittleEndian.slice archive.file entry.dataOffset
            entry.uncompressedSize).length ≤ archive.file.length := by
          rw [LittleEndian.slice, List.length_take, List.length_drop]
          omega
        exact lt_of_le_of_lt hle (by omega)

/-- After the vectors have been reserved. -/
theorem access_clean_iff (hrecord : record.Parsed)
    (hlength : record.storageSize * dtypeSizeBytes record.dtype = storage.length)
    (hshort : storage.length < word) :
    Clean Outside
      (isContiguous record.shape record.stride >>= fun contiguous =>
        if contiguous = true then
          loadContiguous record storage (countLoop 1 record.shape) needBf16 needF16 needFloat
        else
          loadScattered record storage (countLoop 1 record.shape) needBf16 needF16 needFloat) ↔
      AccessFits record needBf16 needF16 needFloat := by
  have hpos : 1 ≤ dtypeSizeBytes record.dtype := by
    cases record.dtype <;> decide
  have hbound : record.storageSize ≤ word := by
    have hle := Nat.le_mul_of_pos_right record.storageSize hpos
    omega
  have hwalk := @walk_iff record.storageSize record.dims record.storageOffset hbound
    (by omega) (by exact_mod_cast hrecord.offset)
  have hcontiguous : isContiguous record.shape record.stride =
      isContiguousLoop record.dims.reverse 1 := by
    rw [isContiguous, if_neg (not_not_intro hrecord.rank)]
    rfl
  rw [clean_bind_iff, hcontiguous, isContiguousLoop_clean_iff]
  constructor
  · rintro ⟨hdense, hrest⟩
    refine { dense := hdense, contiguous := fun hyes => ?_, scattered := fun hno hneed => ?_ }
    · rw [hcontiguous] at hyes
      exact (loadContiguous_clean_iff hlength hshort).mp (hrest true hyes)
    · rw [hcontiguous] at hno
      exact hwalk.mp ((loadScattered_clean_iff hlength hshort).mp (hrest false hno) hneed)
  · intro h
    refine ⟨h.dense, fun b hb => ?_⟩
    rw [← hcontiguous] at hb
    cases b with
    | true => exact (loadContiguous_clean_iff hlength hshort).mpr (h.contiguous hb)
    | false =>
        exact (loadScattered_clean_iff hlength hshort).mpr fun hneed =>
          hwalk.mpr (h.scattered hb hneed)

/-- Loading a record of the archive is safe exactly when its sizes fit. -/
theorem load_clean_iff (hsize : archive.file.length < 2 ^ 63) (hrecord : record.Parsed) :
    Clean Outside (loadTensorSelect archive record needBf16 needF16 needFloat) ↔
      LoadFits archive record needBf16 needF16 needFloat := by
  rw [loadTensorSelect, clean_tensorStorage_iff hsize]
  refine forall_congr' fun storage => imp_congr_right fun hstored => ?_
  have hshort := length_storedBytes hsize hstored
  have haccess := fun hlength => @access_clean_iff record storage needBf16 needF16 needFloat
    hrecord hlength hshort
  rw [numel, clean_numelLoop_iff]
  dsimp only
  simp only [clean_reserve_iff]
  constructor
  · rintro ⟨hbytes, h⟩
    refine { bytes := hbytes, shape := fun hlength => (h hlength).1, access := ?_ }
    rintro hlength ⟨hbf16, hf16, hfloat⟩
    exact (haccess hlength).mp ((h hlength).2 hbf16 hf16 hfloat)
  · intro h
    refine ⟨h.bytes, fun hlength => ⟨h.shape hlength, fun hbf16 hf16 hfloat => ?_⟩⟩
    exact (haccess hlength).mpr (h.access hlength ⟨hbf16, hf16, hfloat⟩)

/-- What `open` returns, in either mode. -/
def Opened (maxEntries : Nat) (file : Bytes) (archive : PthArchive) : Prop :=
  (openWhole maxEntries file).result = .ok archive ∨
    (openChunked maxEntries file).result = .ok archive

theorem Opened.size {maxEntries : Nat} {file : Bytes} (h : Opened maxEntries file archive) :
    archive.file.length < 2 ^ 63 := by
  rcases h with h | h
  · by_cases hsize : file.length < 2 ^ 63
    · rw [openWhole_eq hsize] at h
      obtain ⟨d, -, h⟩ := result_bind_eq_ok h
      obtain ⟨entries, -, h⟩ := result_bind_eq_ok h
      obtain rfl := Except.ok.inj h
      exact hsize
    · rw [openWhole_large (not_lt.mp hsize)] at h
      cases h
  · exact (openWhole_of_chunked h).1

/-- No computation of a size or an index overflows, and no read leaves the storage. -/
abbrev LoadSafe (archive : PthArchive) (record : TensorRecord)
    (needBf16 needF16 needFloat : Bool) : Prop :=
  Clean Outside (loadTensorSelect archive record needBf16 needF16 needFloat)

/--
Loading a tensor that the parser found in an archive is safe exactly when the sizes of
its record fit.
-/
theorem load_safe_iff {maxEntries : Nat} {file : Bytes} (hopen : Opened maxEntries file archive)
    {records : List TensorRecord} (hparse : (parsePthTensorRecords archive).result = .ok records)
    (hrecord : record ∈ records) (needBf16 needF16 needFloat : Bool) :
    LoadSafe archive record needBf16 needF16 needFloat ↔
      LoadFits archive record needBf16 needF16 needFloat :=
  load_clean_iff hopen.size (parsed_records archive records hparse record hrecord)

end Loading

section Small

open LittleEndian (encode)

/-- The local header of a stored entry, and its data. -/
def localRecord (name data : Bytes) : Bytes :=
  encode 4 kLocalFileHeader ++ encode 22 0 ++ encode 2 name.length ++ encode 2 0 ++ name ++ data

/-- The header of a stored entry in the central directory. -/
def centralRecord (name data : Bytes) (localOffset : Nat) : Bytes :=
  encode 4 kCentralDirectoryFileHeader ++ encode 16 0 ++ encode 4 data.length ++
    encode 4 data.length ++ encode 2 name.length ++ encode 12 0 ++ encode 4 localOffset ++ name

/-- The end record. -/
def endRecordOf (entryCount cdSize cdOffset : Nat) : Bytes :=
  encode 4 kEndOfCentralDirectory ++ encode 4 0 ++ encode 2 entryCount ++ encode 2 entryCount ++
    encode 4 cdSize ++ encode 4 cdOffset ++ encode 2 0

def pickleString (text : String) : Bytes :=
  0x58 :: encode 4 text.length ++ ascii text

def pickleGlobal (module name : String) : Bytes :=
  0x63 :: ascii module ++ 0x0A :: ascii name ++ [0x0A]

/-- A dictionary with one tensor in a storage of one `bfloat16`. -/
def tensorProgram (name : String) (dims : Bytes) : Bytes :=
  [0x80, 2, 0x7D, 0x28] ++ pickleString name ++
    pickleGlobal "torch._utils" "_rebuild_tensor_v2" ++
    [0x28, 0x28] ++ pickleString "storage" ++ pickleGlobal "torch" "BFloat16Storage" ++
    pickleString "0" ++ pickleString "cpu" ++ [0x4B, 1, 0x74, 0x51, 0x4B, 0] ++
    dims ++ [0x74, 0x52, 0x75, 0x2E]

/-- The archive of this dictionary. -/
def tensorFile (program : Bytes) : Bytes :=
  let pickle := localRecord (ascii "a/data.pkl") program
  let storage := localRecord (ascii "a/data/0") [0x80, 0x3F]
  let directory := centralRecord (ascii "a/data.pkl") program 0 ++
    centralRecord (ascii "a/data/0") [0x80, 0x3F] pickle.length
  pickle ++ storage ++ directory ++ endRecordOf 2 directory.length (pickle ++ storage).length

/-- A tensor of the shape (2) with the stride 5. -/
def gapFile : Bytes :=
  tensorFile (tensorProgram "w" [0x4B, 2, 0x85, 0x4B, 5, 0x85])

def gapRecord : TensorRecord where
  name := ascii "w"
  dtype := .bFloat16
  storageKey := ascii "0"
  storageSize := 1
  storageOffset := 0
  shape := [2]
  stride := [5]

/-- What opening the file returns. -/
def gapArchive : PthArchive where
  chunkLoad := false
  file := gapFile
  entries :=
    [{ name := ascii "a/data.pkl", compressionMethod := 0, crc32 := 0, compressedSize := 110,
       uncompressedSize := 110, localHeaderOffset := 0, dataOffset := 40 },
     { name := ascii "a/data/0", compressionMethod := 0, crc32 := 0, compressedSize := 2,
       uncompressedSize := 2, localHeaderOffset := 150, dataOffset := 188 }]

/-- The equivalence at this tensor. -/
theorem load_safe_iff_gap :
    LoadSafe gapArchive gapRecord false false true ↔
      LoadFits gapArchive gapRecord false false true :=
  @load_safe_iff gapArchive gapRecord 1024 gapFile (Or.inl (by decide +kernel)) [gapRecord]
    (by decide +kernel)
    (List.mem_singleton.mpr rfl) false false true

/-- The second element lies behind the storage, and it is read. -/
theorem load_reads_outside :
    (openWhole 1024 gapFile).result = .ok gapArchive ∧
      (parsePthTensorRecords gapArchive).result = .ok [gapRecord] ∧
      (loadTensorSelect gapArchive gapRecord false false true).result = .error .outOfBounds ∧
      ¬ LoadSafe gapArchive gapRecord false false true := by
  have hopen : (openWhole 1024 gapFile).result = .ok gapArchive := by decide +kernel
  have hparse : (parsePthTensorRecords gapArchive).result = .ok [gapRecord] := by decide +kernel
  have hload : (loadTensorSelect gapArchive gapRecord false false true).result =
      .error .outOfBounds := by decide +kernel
  exact ⟨hopen, hparse, hload, fun hsafe => hsafe.error _ hload rfl⟩

end Small

end Pth
end RwkvLightning

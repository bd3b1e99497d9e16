import RwkvLightning.Inference.Backend
import RwkvLightning.Library.LaneCopy
import Mathlib

/-!
# Copying a slice of a state

`create_state`, `copy_state_slice` and `copy_logits_slice` of `rwkv7_fast_v4.cu`, over the
buffers of the device.  The shift buffer is `[layer][2][batch][channels]`, the wkv buffer
`[layer][batch][heads * N * N]`.

**Numbers.**  An `int` sum wraps around.  An address is the integer that the sum of sizes
stands for, and a copy with an address outside its buffer is `none`.

**Results.**
* `copyLayer_spec`, `copyLayers_spec`: one layer, and all of them.
* `copyStateSlice_exact`: a slice that is accepted is copied lane by lane exactly when no
  sum of the arguments wraps around; `copyLogitsSlice_exact` for the logits.
-/

namespace RwkvLightning
namespace StateSlice

open Backend

/-- The dimensions of a model. -/
structure Dims where
  layers : Nat
  channels : Nat
  heads : Nat
  headSize : Nat
deriving DecidableEq, Repr

/-- `wkv_lane_elems`. -/
def Dims.wkvLaneElems (d : Dims) : Nat :=
  d.heads * d.headSize * d.headSize

/-- A `GenerationState` with its buffers; `η` is `half` and `φ` is `float`. -/
structure FlatState (α η φ : Type) where
  identity : Identity α
  wkv32 : Bool
  batchSize : Nat
  shift : List η
  wkvState : List η
  wkvState32 : List φ
  elapsed : List Int
deriving DecidableEq

/-- `DeviceLogits` with its buffer. -/
structure FlatLogits (φ : Type) where
  rows : Nat
  vocabSize : Nat
  values : List φ
deriving DecidableEq

/-- An `int` that an addition went over. -/
def wrap (n : Int) : Int :=
  Int.bmod n (2 ^ 32)

section Functions

variable {α η φ : Type} (d : Dims) (useWkv32 : Bool)

/-- `create_state`. -/
def createState (halfZero : η) (floatZero : φ) (batchSize : Nat) : FlatState α η φ :=
  let shiftElems := d.layers * 2 * batchSize * d.channels
  let stateElems := d.layers * batchSize * d.heads * d.headSize * d.headSize
  { identity := Identity.default
    wkv32 := useWkv32
    batchSize := batchSize
    shift := List.replicate shiftElems halfZero
    wkvState := if useWkv32 then [] else List.replicate stateElems halfZero
    wkvState32 := if useWkv32 then List.replicate stateElems floatZero else []
    elapsed := List.replicate batchSize 0 }

/-- The copies of one layer. -/
def copyLayer (src : FlatState α η φ) (srcOffset dstOffset count : Int)
    (dst : FlatState α η φ) (layer : Nat) : Option (FlatState α η φ) := do
  let shiftCount := count * d.channels
  let srcLayer : Int := layer * 2 * src.batchSize * d.channels
  let dstLayer : Int := layer * 2 * dst.batchSize * d.channels
  let shift ← memcpy dst.shift (dstLayer + dstOffset * d.channels) src.shift
    (srcLayer + srcOffset * d.channels) shiftCount
  let shift ← memcpy shift (dstLayer + wrap (dst.batchSize + dstOffset) * d.channels) src.shift
    (srcLayer + wrap (src.batchSize + srcOffset) * d.channels) shiftCount
  let wkvCount := count * d.wkvLaneElems
  let srcWkv : Int := layer * src.batchSize * d.wkvLaneElems + srcOffset * d.wkvLaneElems
  let dstWkv : Int := layer * dst.batchSize * d.wkvLaneElems + dstOffset * d.wkvLaneElems
  if useWkv32 then do
    let wkv ← memcpy dst.wkvState32 dstWkv src.wkvState32 srcWkv wkvCount
    some { dst with shift := shift, wkvState32 := wkv }
  else do
    let wkv ← memcpy dst.wkvState dstWkv src.wkvState srcWkv wkvCount
    some { dst with shift := shift, wkvState := wkv }

/-- `copy_state_slice`: an error, or what becomes of the destination. -/
def copyStateSlice (src : FlatState α η φ) (srcOffset : Int) (dst : FlatState α η φ)
    (dstOffset count : Int) : Except String (Option (FlatState α η φ)) :=
  if srcOffset < 0 ∨ dstOffset < 0 ∨ count ≤ 0 then
    .error "invalid backend state slice range"
  else if src.batchSize = 0 ∨ dst.batchSize = 0 then
    .error "state slice requires non-empty source and destination"
  else if src.wkv32 ≠ dst.wkv32 ∨ src.wkv32 ≠ useWkv32 then
    .error "state slice wkv precision mismatch"
  else if src.batchSize < wrap (srcOffset + count) ∨ dst.batchSize < wrap (dstOffset + count) then
    .error "state slice range exceeds batch size"
  else if dst.identity.advanced ∧
      (src.identity.effectiveKey ≠ dst.identity.effectiveKey ∨
        src.identity.adapterIdentity ≠ dst.identity.adapterIdentity) then
    .error "cannot copy incompatible adapter state"
  else
    .ok (do
      let dst := { dst with identity := src.identity }
      let dst ← (List.range d.layers).foldlM
        (copyLayer d useWkv32 src srcOffset dstOffset count) dst
      let elapsed ← memcpy dst.elapsed dstOffset src.elapsed srcOffset count
      some { dst with elapsed := elapsed })

/-- `copy_logits_slice`. -/
def copyLogitsSlice (src : FlatLogits φ) (srcOffset : Int) (dst : FlatLogits φ)
    (dstOffset count : Int) : Except String (Option (FlatLogits φ)) :=
  if srcOffset < 0 ∨ dstOffset < 0 ∨ count ≤ 0 then
    .error "invalid backend logits slice range"
  else if src.rows = 0 ∨ src.vocabSize = 0 ∨ src.values = [] then
    .error "logits slice requires non-empty source"
  else if dst.rows = 0 ∨ dst.vocabSize ≠ src.vocabSize ∨ dst.values = [] then
    .error "logits slice destination shape mismatch"
  else if src.rows < wrap (srcOffset + count) ∨ dst.rows < wrap (dstOffset + count) then
    .error "logits slice range exceeds row count"
  else
    .ok ((memcpy dst.values (dstOffset * dst.vocabSize) src.values (srcOffset * src.vocabSize)
      (count * src.vocabSize)).map (fun values => { dst with values := values }))

end Functions

section Sizes

variable {α η φ : Type} (d : Dims)

/-- The buffers have the sizes that `create_state` gives them. -/
structure Sized (s : FlatState α η φ) : Prop where
  batchSize : s.batchSize < 2 ^ 31
  shift : s.shift.length = d.layers * 2 * s.batchSize * d.channels
  wkvState : s.wkv32 = false → s.wkvState.length = d.layers * s.batchSize * d.wkvLaneElems
  wkvState32 : s.wkv32 = true → s.wkvState32.length = d.layers * s.batchSize * d.wkvLaneElems
  elapsed : s.elapsed.length = s.batchSize

theorem createState_sized
    (useWkv32 : Bool) (halfZero : η) (floatZero : φ) {batchSize : Nat}
    (h : batchSize < 2 ^ 31) :
    Sized d (createState d useWkv32 halfZero floatZero batchSize : FlatState α η φ) := by
  have hlane : d.layers * batchSize * d.heads * d.headSize * d.headSize =
      d.layers * batchSize * d.wkvLaneElems := by
    rw [Dims.wkvLaneElems]
    ring
  refine
    { batchSize := h
      shift := List.length_replicate
      wkvState := ?_
      wkvState32 := ?_
      elapsed := List.length_replicate }
  · intro hprecision
    have hwkv : useWkv32 = false := hprecision
    simp [createState, hwkv, hlane]
  · intro hprecision
    have hwkv : useWkv32 = true := hprecision
    simp [createState, hwkv, hlane]

/-- The slice has been copied; a row of the shift buffer is a plane of a layer. -/
structure LaneExact (useWkv32 : Bool) (w : Window) (src dst out : FlatState α η φ) : Prop where
  sized : Sized d out
  batchSize : out.batchSize = dst.batchSize
  identity : out.identity = src.identity
  shift : WindowExact w (d.layers * 2) d.channels src.shift dst.shift out.shift
  wkv : useWkv32 = false →
    WindowExact w d.layers d.wkvLaneElems src.wkvState dst.wkvState out.wkvState ∧
      out.wkvState32 = dst.wkvState32
  wkv32 : useWkv32 = true →
    WindowExact w d.layers d.wkvLaneElems src.wkvState32 dst.wkvState32 out.wkvState32 ∧
      out.wkvState = dst.wkvState
  elapsed : WindowExact w 1 1 src.elapsed dst.elapsed out.elapsed

end Sizes

section Copies

variable {α η φ : Type} {d : Dims} {useWkv32 : Bool} {w : Window} {k : Nat}
variable {src dst cur : FlatState α η φ}

/-- The slice of the first layers has been copied. -/
structure LayersCopied (d : Dims) (useWkv32 : Bool) (w : Window) (k : Nat)
    (src dst cur : FlatState α η φ) : Prop where
  same : cur.wkv32 = dst.wkv32 ∧ cur.batchSize = dst.batchSize ∧ cur.elapsed = dst.elapsed ∧
    cur.identity = dst.identity
  shift : LanesCopied w d.channels (k * 2) src.shift dst.shift cur.shift
  wkv : useWkv32 = false →
    LanesCopied w d.wkvLaneElems k src.wkvState dst.wkvState cur.wkvState ∧
      cur.wkvState32 = dst.wkvState32
  wkv32 : useWkv32 = true →
    LanesCopied w d.wkvLaneElems k src.wkvState32 dst.wkvState32 cur.wkvState32 ∧
      cur.wkvState = dst.wkvState

theorem layersCopied_zero : LayersCopied d useWkv32 w 0 src dst dst where
  same := ⟨rfl, rfl, rfl, rfl⟩
  shift := (Nat.zero_mul 2).symm ▸ lanesCopied_zero
  wkv := fun _ => ⟨lanesCopied_zero, rfl⟩
  wkv32 := fun _ => ⟨lanesCopied_zero, rfl⟩

theorem wrap_of_lt {n : Int} (hlow : 0 ≤ n) (hhigh : n < 2 ^ 31) : wrap n = n := by
  rw [wrap, Int.bmod_eq_of_le (by omega) (by omega)]

/-- The states and the window of a slice that does not wrap around. -/
structure Fits (d : Dims) (useWkv32 : Bool) (w : Window) (src dst : FlatState α η φ) : Prop where
  srcSized : Sized d src
  dstSized : Sized d dst
  srcLanes : w.srcLanes = src.batchSize
  dstLanes : w.dstLanes = dst.batchSize
  precision : src.wkv32 = useWkv32 ∧ dst.wkv32 = useWkv32

theorem plane0_address (channels k lanes offset : Nat) :
    (k : Int) * 2 * lanes * channels + offset * channels =
      ((k * 2 * lanes + offset) * channels : Nat) := by
  push_cast
  ring

theorem plane1_address
    {channels lanes offset : Nat} (hsum : channels = 0 ∨ lanes + offset < 2 ^ 31) (k : Nat) :
    (k : Int) * 2 * lanes * channels + wrap (lanes + offset) * channels =
      (((k * 2 + 1) * lanes + offset) * channels : Nat) := by
  rcases hsum with hzero | hlt
  · simp [hzero]
  · have hwrap : wrap ((lanes : Int) + offset) = lanes + offset :=
      wrap_of_lt (by omega) (by omega)
    rw [hwrap]
    push_cast
    ring

theorem wkv_address (width k lanes offset : Nat) :
    (k : Int) * lanes * width + offset * width = ((k * lanes + offset) * width : Nat) := by
  push_cast
  ring

/-- One layer. -/
theorem copyLayer_spec
    (hfits : Fits d useWkv32 w src dst) (h : LayersCopied d useWkv32 w k src dst cur)
    (hk : k < d.layers)
    (hwrap : d.channels = 0 ∨
      src.batchSize + w.srcOffset < 2 ^ 31 ∧ dst.batchSize + w.dstOffset < 2 ^ 31) :
    ∃ cur', copyLayer d useWkv32 src w.srcOffset w.dstOffset w.count cur k = some cur' ∧
      LayersCopied d useWkv32 w (k + 1) src dst cur' := by
  obtain ⟨hcurWkv32, hcurBatch, hcurElapsed, hcurIdentity⟩ := h.same
  have hsrcShift : src.shift.length = d.layers * 2 * w.srcLanes * d.channels := by
    rw [hfits.srcLanes]
    exact hfits.srcSized.shift
  have hdstShift : dst.shift.length = d.layers * 2 * w.dstLanes * d.channels := by
    rw [hfits.dstLanes]
    exact hfits.dstSized.shift
  obtain ⟨shift0, hcopy0, hshift0⟩ := h.shift.step (by omega) hsrcShift hdstShift
  obtain ⟨shift1, hcopy1, hshift1⟩ := hshift0.step (by omega) hsrcShift hdstShift
  -- The addresses of the source are those of rows of lanes.
  rw [← plane0_address, ← plane0_address] at hcopy0
  have hsrcSum : d.channels = 0 ∨ w.srcLanes + w.srcOffset < 2 ^ 31 := by
    rw [hfits.srcLanes]
    exact hwrap.imp_right And.left
  have hdstSum : d.channels = 0 ∨ w.dstLanes + w.dstOffset < 2 ^ 31 := by
    rw [hfits.dstLanes]
    exact hwrap.imp_right And.right
  rw [← plane1_address hdstSum, ← plane1_address hsrcSum] at hcopy1
  rw [hfits.srcLanes, hfits.dstLanes, Nat.cast_mul] at hcopy0 hcopy1
  have hshift : LanesCopied w d.channels ((k + 1) * 2) src.shift dst.shift shift1 := by
    rw [Nat.succ_mul]
    exact hshift1
  cases useWkv32 with
  | true =>
      obtain ⟨hwkv, hother⟩ := h.wkv32 rfl
      have hsrcWkv := hfits.srcSized.wkvState32 hfits.precision.1
      have hdstWkv := hfits.dstSized.wkvState32 hfits.precision.2
      rw [← hfits.srcLanes] at hsrcWkv
      rw [← hfits.dstLanes] at hdstWkv
      obtain ⟨wkv, hcopy, hwkv'⟩ := hwkv.step hk hsrcWkv hdstWkv
      rw [← wkv_address, ← wkv_address, hfits.srcLanes, hfits.dstLanes, Nat.cast_mul] at hcopy
      refine ⟨{ cur with shift := shift1, wkvState32 := wkv }, ?_, ?_⟩
      · simp only [copyLayer, hcurBatch, Option.bind_eq_bind]
        rw [hcopy0, Option.bind_some, hcopy1, Option.bind_some, if_pos trivial, hcopy,
          Option.bind_some]
      · exact
          { same := h.same
            shift := hshift
            wkv := fun hfalse => Bool.noConfusion hfalse
            wkv32 := fun _ => ⟨hwkv', hother⟩ }
  | false =>
      obtain ⟨hwkv, hother⟩ := h.wkv rfl
      have hsrcWkv := hfits.srcSized.wkvState hfits.precision.1
      have hdstWkv := hfits.dstSized.wkvState hfits.precision.2
      rw [← hfits.srcLanes] at hsrcWkv
      rw [← hfits.dstLanes] at hdstWkv
      obtain ⟨wkv, hcopy, hwkv'⟩ := hwkv.step hk hsrcWkv hdstWkv
      rw [← wkv_address, ← wkv_address, hfits.srcLanes, hfits.dstLanes, Nat.cast_mul] at hcopy
      refine ⟨{ cur with shift := shift1, wkvState := wkv }, ?_, ?_⟩
      · simp only [copyLayer, hcurBatch, Option.bind_eq_bind]
        rw [hcopy0, Option.bind_some, hcopy1, Option.bind_some, if_neg Bool.false_ne_true, hcopy,
          Option.bind_some]
      · exact
          { same := h.same
            shift := hshift
            wkv := fun _ => ⟨hwkv', hother⟩
            wkv32 := fun htrue => Bool.noConfusion htrue }

/-- All layers. -/
theorem copyLayers_spec
    (hfits : Fits d useWkv32 w src dst) (hk : k ≤ d.layers)
    (hwrap : k = 0 ∨ d.channels = 0 ∨
      src.batchSize + w.srcOffset < 2 ^ 31 ∧ dst.batchSize + w.dstOffset < 2 ^ 31) :
    ∃ cur, (List.range k).foldlM (copyLayer d useWkv32 src w.srcOffset w.dstOffset w.count) dst =
        some cur ∧ LayersCopied d useWkv32 w k src dst cur := by
  induction k with
  | zero => exact ⟨dst, rfl, layersCopied_zero⟩
  | succ k ih =>
      have hwrap' := hwrap.resolve_left (Nat.succ_ne_zero k)
      obtain ⟨cur, hrun, hcopied⟩ := ih (by omega) (Or.inr hwrap')
      obtain ⟨cur', hlayer, hcopied'⟩ := copyLayer_spec hfits hcopied (by omega) hwrap'
      refine ⟨cur', ?_, hcopied'⟩
      rw [List.range_succ, List.foldlM_append, hrun]
      show (List.foldlM _ cur [k]) = some cur'
      rw [List.foldlM_cons, hlayer]
      rfl

end Copies

section Exact

variable {α η φ : Type} {d : Dims} {useWkv32 : Bool} {src dst : FlatState α η φ}
variable {srcOffset dstOffset count : Int} {out : Option (FlatState α η φ)}

/-- The sums of the arguments that do not wrap around. -/
def NoWrap (d : Dims) (src dst : FlatState α η φ) (srcOffset dstOffset count : Int) : Prop :=
  (srcOffset + count < 2 ^ 31 ∧ dstOffset + count < 2 ^ 31) ∧
    (d.layers = 0 ∨ d.channels = 0 ∨
      src.batchSize + srcOffset < 2 ^ 31 ∧ dst.batchSize + dstOffset < 2 ^ 31)

/-- Every address lies in its buffer, and the slice is copied lane by lane. -/
def CopiesExactly (d : Dims) (useWkv32 : Bool) (src : FlatState α η φ) (srcOffset : Int)
    (dst : FlatState α η φ) (dstOffset count : Int) (out : Option (FlatState α η φ)) : Prop :=
  ∃ w dst', w.srcLanes = src.batchSize ∧ w.dstLanes = dst.batchSize ∧
    (w.srcOffset : Int) = srcOffset ∧ (w.dstOffset : Int) = dstOffset ∧ (w.count : Int) = count ∧
    out = some dst' ∧ LaneExact d useWkv32 w src dst dst'

/-- All layers and the counters. -/
theorem LayersCopied.laneExact
    {w : Window} {cur : FlatState α η φ} {elapsed : List Int}
    (h : LayersCopied d useWkv32 w d.layers src { dst with identity := src.identity } cur)
    (hfits : Fits d useWkv32 w src { dst with identity := src.identity })
    (helapsed : LanesCopied w 1 1 src.elapsed cur.elapsed elapsed) :
    LaneExact d useWkv32 w src dst { cur with elapsed := elapsed } := by
  obtain ⟨hwkv32, hbatch, hcurElapsed, hidentity⟩ := h.same
  have hsized := hfits.dstSized
  refine
    { sized := ?_
      batchSize := hbatch
      identity := hidentity
      shift := h.shift.window
      wkv := fun hfalse => ⟨(h.wkv hfalse).1.window, (h.wkv hfalse).2⟩
      wkv32 := fun htrue => ⟨(h.wkv32 htrue).1.window, (h.wkv32 htrue).2⟩
      elapsed := ?_ }
  · refine
      { batchSize := hbatch.symm ▸ hsized.batchSize
        shift := h.shift.length.trans (hbatch.symm ▸ hsized.shift)
        wkvState := ?_
        wkvState32 := ?_
        elapsed := ?_ }
    · intro hfalse
      have huse : useWkv32 = false := hfits.precision.2.symm.trans (hwkv32.symm.trans hfalse)
      have hlength := hsized.wkvState (hwkv32.symm.trans hfalse)
      exact (h.wkv huse).1.length.trans (hbatch.symm ▸ hlength)
    · intro htrue
      have huse : useWkv32 = true := hfits.precision.2.symm.trans (hwkv32.symm.trans htrue)
      have hlength := hsized.wkvState32 (hwkv32.symm.trans htrue)
      exact (h.wkv32 huse).1.length.trans (hbatch.symm ▸ hlength)
    · refine helapsed.length.trans ?_
      rw [hcurElapsed]
      exact hsized.elapsed.trans hbatch.symm
  · rw [hcurElapsed] at helapsed
    exact helapsed.window

/-- What is checked, and what is done then. -/
theorem copyStateSlice_spec
    (h : copyStateSlice d useWkv32 src srcOffset dst dstOffset count = .ok out) :
    (0 ≤ srcOffset ∧ 0 ≤ dstOffset ∧ 0 < count) ∧
      (src.wkv32 = useWkv32 ∧ dst.wkv32 = useWkv32) ∧
      (wrap (srcOffset + count) ≤ src.batchSize ∧ wrap (dstOffset + count) ≤ dst.batchSize) ∧
      out = ((List.range d.layers).foldlM (copyLayer d useWkv32 src srcOffset dstOffset count)
          { dst with identity := src.identity }).bind (fun cur =>
        (memcpy cur.elapsed dstOffset src.elapsed srcOffset count).bind (fun elapsed =>
          some { cur with elapsed := elapsed })) := by
  unfold copyStateSlice at h
  split at h
  · exact nomatch h
  rename_i hrange
  split at h
  · exact nomatch h
  split at h
  · exact nomatch h
  rename_i hprecision
  split at h
  · exact nomatch h
  rename_i hbatch
  split at h
  · exact nomatch h
  rw [not_or, not_not, not_not] at hprecision
  refine ⟨by omega, ⟨hprecision.2, hprecision.1 ▸ hprecision.2⟩, by omega, ?_⟩
  exact (Except.ok.inj h).symm

theorem wrap_of_ge {n : Int} (hlow : 2 ^ 31 ≤ n) (hhigh : n < 2 ^ 32) :
    wrap n = n - 2 ^ 32 := by
  rw [wrap, Int.bmod_def]
  split <;> omega

/-- An address that wraps around lies before its buffer. -/
theorem wrap_address
    {batch offset : Int} {channels : Nat} (hlow : 2 ^ 31 ≤ batch + offset)
    (hhigh : batch + offset < 2 ^ 32) (hchannels : channels ≠ 0) (batch' : Int) :
    ((0 : Nat) : Int) * 2 * batch' * channels + wrap (batch + offset) * channels < 0 := by
  rw [wrap_of_ge hlow hhigh]
  have hpositive : (0 : Int) < channels := by omega
  have hnegative := Int.mul_neg_of_neg_of_pos
    (show batch + offset - 2 ^ 32 < 0 by omega) hpositive
  simpa using hnegative

/--
A slice that is accepted is copied lane by lane, with every address in its buffer, exactly
when no sum of the arguments wraps around.
-/
theorem copyStateSlice_exact
    (hsrc : Sized d src) (hdst : Sized d dst)
    (h : copyStateSlice d useWkv32 src srcOffset dst dstOffset count = .ok out) :
    CopiesExactly d useWkv32 src srcOffset dst dstOffset count out ↔
      NoWrap d src dst srcOffset dstOffset count := by
  obtain ⟨⟨hsrcOffset, hdstOffset, hcount⟩, hprecision, ⟨hsrcCheck, hdstCheck⟩, hout⟩ :=
    copyStateSlice_spec h
  have hsrcBatch := hsrc.batchSize
  have hdstBatch := hdst.batchSize
  constructor
  · rintro ⟨w, dst', hsrcLanes, hdstLanes, hsrcEq, hdstEq, hcountEq, hsome, -⟩
    have hsrcLe := w.src_le
    have hdstLe := w.dst_le
    refine ⟨⟨by omega, by omega⟩, ?_⟩
    by_contra hwrap
    rw [not_or, not_or, not_and_or] at hwrap
    obtain ⟨hlayers, hchannels, hsum⟩ := hwrap
    obtain ⟨layers, hlayers⟩ := Nat.exists_eq_succ_of_ne_zero hlayers
    -- The second plane of the first layer is outside.
    have hnone : copyLayer d useWkv32 src srcOffset dstOffset count
        { dst with identity := src.identity } 0 = none := by
      simp only [copyLayer, Option.bind_eq_bind, Option.bind_eq_none_iff]
      intro shift0 _ shift1 hshift1
      rw [memcpy_outside] at hshift1
      · exact nomatch hshift1
      rcases hsum with hsum | hsum
      · exact Or.inl (wrap_address (by omega) (by omega) hchannels _)
      · exact Or.inr (Or.inr (Or.inl (wrap_address (by omega) (by omega) hchannels _)))
    rw [hout, hlayers, List.range_succ_eq_map, List.foldlM_cons, hnone] at hsome
    exact nomatch hsome
  · rintro ⟨⟨hsrcSum, hdstSum⟩, hwrap⟩
    rw [wrap_of_lt (by omega) hsrcSum] at hsrcCheck
    rw [wrap_of_lt (by omega) hdstSum] at hdstCheck
    let w : Window :=
      { srcLanes := src.batchSize
        dstLanes := dst.batchSize
        srcOffset := srcOffset.toNat
        dstOffset := dstOffset.toNat
        count := count.toNat
        src_le := by omega
        dst_le := by omega }
    have hsrcEq : (w.srcOffset : Int) = srcOffset := Int.toNat_of_nonneg hsrcOffset
    have hdstEq : (w.dstOffset : Int) = dstOffset := Int.toNat_of_nonneg hdstOffset
    have hcountEq : (w.count : Int) = count := Int.toNat_of_nonneg hcount.le
    let start : FlatState α η φ := { dst with identity := src.identity }
    have hfits : Fits d useWkv32 w src start :=
      { srcSized := hsrc
        dstSized := ⟨hdst.batchSize, hdst.shift, hdst.wkvState, hdst.wkvState32, hdst.elapsed⟩
        srcLanes := rfl
        dstLanes := rfl
        precision := hprecision }
    have hwrap' : d.layers = 0 ∨ d.channels = 0 ∨
        src.batchSize + w.srcOffset < 2 ^ 31 ∧ start.batchSize + w.dstOffset < 2 ^ 31 := by
      refine hwrap.imp_right (Or.imp_right (fun hsum => ?_))
      have hstart : start.batchSize = dst.batchSize := rfl
      omega
    obtain ⟨cur, hlayers, hcopied⟩ := copyLayers_spec hfits le_rfl hwrap'
    rw [hsrcEq, hdstEq, hcountEq] at hlayers
    obtain ⟨hcurWkv32, hcurBatch, hcurElapsed, hcurIdentity⟩ := hcopied.same
    -- The counters are one row of lanes of one cell.
    have hnone : LanesCopied w 1 0 src.elapsed cur.elapsed cur.elapsed := lanesCopied_zero
    have hsrcElapsed : src.elapsed.length = 1 * w.srcLanes * 1 := by
      rw [hsrc.elapsed, Nat.one_mul, Nat.mul_one]
    have hcurLength : cur.elapsed.length = 1 * w.dstLanes * 1 := by
      rw [hcurElapsed, Nat.one_mul, Nat.mul_one]
      exact hdst.elapsed
    obtain ⟨elapsed, hcopy, helapsed⟩ := hnone.step Nat.one_pos hsrcElapsed hcurLength
    rw [Nat.zero_mul, Nat.zero_mul, Nat.zero_add, Nat.zero_add, Nat.mul_one, Nat.mul_one,
      Nat.mul_one, hsrcEq, hdstEq, hcountEq] at hcopy
    refine ⟨w, { cur with elapsed := elapsed }, rfl, rfl, hsrcEq, hdstEq, hcountEq, ?_, ?_⟩
    · rw [hout, hlayers, Option.bind_some, hcopy, Option.bind_some]
    · exact hcopied.laneExact hfits helapsed

end Exact

section Logits

variable {φ : Type} {src dst : FlatLogits φ} {srcOffset dstOffset count : Int}
variable {out : Option (FlatLogits φ)}

/-- The buffer has the declared number of rows. -/
structure SizedLogits (l : FlatLogits φ) : Prop where
  rows : l.rows < 2 ^ 31
  values : l.values.length = l.rows * l.vocabSize

/-- Every address lies in its buffer, and the rows are copied. -/
def LogitsExactly (src : FlatLogits φ) (srcOffset : Int) (dst : FlatLogits φ)
    (dstOffset count : Int) (out : Option (FlatLogits φ)) : Prop :=
  ∃ w dst', w.srcLanes = src.rows ∧ w.dstLanes = dst.rows ∧ (w.srcOffset : Int) = srcOffset ∧
    (w.dstOffset : Int) = dstOffset ∧ (w.count : Int) = count ∧ out = some dst' ∧
    SizedLogits dst' ∧ dst'.rows = dst.rows ∧ dst'.vocabSize = dst.vocabSize ∧
    WindowExact w 1 dst.vocabSize src.values dst.values dst'.values

theorem copyLogitsSlice_spec
    (h : copyLogitsSlice src srcOffset dst dstOffset count = .ok out) :
    (0 ≤ srcOffset ∧ 0 ≤ dstOffset ∧ 0 < count) ∧
      (src.vocabSize ≠ 0 ∧ dst.vocabSize = src.vocabSize) ∧
      (wrap (srcOffset + count) ≤ src.rows ∧ wrap (dstOffset + count) ≤ dst.rows) ∧
      out = (memcpy dst.values (dstOffset * dst.vocabSize) src.values (srcOffset * src.vocabSize)
        (count * src.vocabSize)).map (fun values => { dst with values := values }) := by
  unfold copyLogitsSlice at h
  split at h
  · exact nomatch h
  rename_i hrange
  split at h
  · exact nomatch h
  rename_i hsrc
  split at h
  · exact nomatch h
  rename_i hdst
  split at h
  · exact nomatch h
  rename_i hrows
  rw [not_or, not_or] at hsrc hdst
  exact ⟨by omega, ⟨hsrc.2.1, not_not.mp hdst.2.1⟩, by omega, (Except.ok.inj h).symm⟩

theorem copyLogitsSlice_exact
    (hsrc : SizedLogits src) (hdst : SizedLogits dst)
    (h : copyLogitsSlice src srcOffset dst dstOffset count = .ok out) :
    LogitsExactly src srcOffset dst dstOffset count out ↔
      srcOffset + count < 2 ^ 31 ∧ dstOffset + count < 2 ^ 31 := by
  obtain ⟨⟨hsrcOffset, hdstOffset, hcount⟩, ⟨-, hvocab⟩, ⟨hsrcCheck, hdstCheck⟩, hout⟩ :=
    copyLogitsSlice_spec h
  have hsrcRows := hsrc.rows
  have hdstRows := hdst.rows
  constructor
  · rintro ⟨w, dst', hsrcLanes, hdstLanes, hsrcEq, hdstEq, hcountEq, -⟩
    have hsrcLe := w.src_le
    have hdstLe := w.dst_le
    omega
  · rintro ⟨hsrcSum, hdstSum⟩
    rw [wrap_of_lt (by omega) hsrcSum] at hsrcCheck
    rw [wrap_of_lt (by omega) hdstSum] at hdstCheck
    let w : Window :=
      { srcLanes := src.rows
        dstLanes := dst.rows
        srcOffset := srcOffset.toNat
        dstOffset := dstOffset.toNat
        count := count.toNat
        src_le := by omega
        dst_le := by omega }
    have hsrcEq : (w.srcOffset : Int) = srcOffset := Int.toNat_of_nonneg hsrcOffset
    have hdstEq : (w.dstOffset : Int) = dstOffset := Int.toNat_of_nonneg hdstOffset
    have hcountEq : (w.count : Int) = count := Int.toNat_of_nonneg hcount.le
    have hnone : LanesCopied w dst.vocabSize 0 src.values dst.values dst.values :=
      lanesCopied_zero
    have hsrcValues : src.values.length = 1 * w.srcLanes * dst.vocabSize := by
      rw [Nat.one_mul, hvocab]
      exact hsrc.values
    have hdstValues : dst.values.length = 1 * w.dstLanes * dst.vocabSize := by
      rw [Nat.one_mul]
      exact hdst.values
    obtain ⟨values, hcopy, hcopied⟩ := hnone.step Nat.one_pos hsrcValues hdstValues
    rw [Nat.zero_mul, Nat.zero_mul, Nat.zero_add, Nat.zero_add, Nat.cast_mul, Nat.cast_mul,
      Nat.cast_mul, hsrcEq, hdstEq, hcountEq] at hcopy
    refine ⟨w, { dst with values := values }, rfl, rfl, hsrcEq, hdstEq, hcountEq, ?_, ?_, rfl,
      rfl, hcopied.window⟩
    · rw [hout, ← hvocab, hcopy]
      rfl
    · exact ⟨hdst.rows, hcopied.length.trans hdst.values⟩

/--
A slice that is accepted, of a state or of logits, is copied lane by lane, with every
address in its buffer, exactly when no sum of its arguments wraps around.
-/
theorem copySlices_exact (α η φ : Type) (d : Dims) :
    (∀ (useWkv32 : Bool) (src dst : FlatState α η φ) (srcOffset dstOffset count : Int)
        (out : Option (FlatState α η φ)), Sized d src → Sized d dst →
      copyStateSlice d useWkv32 src srcOffset dst dstOffset count = .ok out →
      (CopiesExactly d useWkv32 src srcOffset dst dstOffset count out ↔
        NoWrap d src dst srcOffset dstOffset count)) ∧
    ∀ (src dst : FlatLogits φ) (srcOffset dstOffset count : Int) (out : Option (FlatLogits φ)),
      SizedLogits src → SizedLogits dst →
      copyLogitsSlice src srcOffset dst dstOffset count = .ok out →
      (LogitsExactly src srcOffset dst dstOffset count out ↔
        srcOffset + count < 2 ^ 31 ∧ dstOffset + count < 2 ^ 31) :=
  ⟨fun _ _ _ _ _ _ _ hsrc hdst h => copyStateSlice_exact hsrc hdst h,
    fun _ _ _ _ _ _ hsrc hdst h => copyLogitsSlice_exact hsrc hdst h⟩

/-- One layer with one channel. -/
def smallDims : Dims where
  layers := 1
  channels := 1
  heads := 1
  headSize := 1

/-- A new state with this many lanes. -/
def smallState (batchSize : Nat) : FlatState Unit Nat Nat :=
  createState smallDims false 0 0 batchSize

/-- The second of two lanes into a state with one, and a row of logits. -/
theorem copySlices_exact_small :
    (CopiesExactly smallDims false (smallState 2) 1 (smallState 1) 0 1 (some (smallState 1)) ↔
      NoWrap smallDims (smallState 2) (smallState 1) 1 0 1) ∧
    (LogitsExactly ⟨2, 1, [5, 6]⟩ 1 ⟨1, 1, [7]⟩ 0 1 (some ⟨1, 1, [6]⟩) ↔
      (1 : Int) + 1 < 2 ^ 31 ∧ (0 : Int) + 1 < 2 ^ 31) :=
  ⟨(copySlices_exact Unit Nat Nat smallDims).1 false (smallState 2) (smallState 1) 1 0 1
      (some (smallState 1)) (createState_sized smallDims false 0 0 (by decide))
      (createState_sized smallDims false 0 0 (by decide)) rfl,
    (copySlices_exact Unit Nat Nat smallDims).2 ⟨2, 1, [5, 6]⟩ ⟨1, 1, [7]⟩ 1 0 1
      (some ⟨1, 1, [6]⟩) ⟨by decide, rfl⟩ ⟨by decide, rfl⟩ rfl⟩

/-- The sums wrap around, so that the check lets a count through that no buffer has. -/
theorem copyStateSlice_wraps :
    copyStateSlice smallDims false (smallState 2) 1 (smallState 2) 1 (2 ^ 31 - 1) = .ok none ∧
      ¬ CopiesExactly smallDims false (smallState 2) 1 (smallState 2) 1 (2 ^ 31 - 1) none := by
  refine ⟨rfl, ?_⟩
  rintro ⟨w, dst', -, -, -, -, -, hsome, -⟩
  exact nomatch hsome

end Logits

end StateSlice
end RwkvLightning

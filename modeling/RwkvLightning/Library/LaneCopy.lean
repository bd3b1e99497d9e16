import Mathlib.Algebra.Order.Group.Nat
import Mathlib.Tactic.Ring

/-!
# Copying lanes between arrays of rows

An array of rows of lanes, each lane some cells wide, lies flat in memory.  A window of
lanes is copied into another such array, whose rows have another number of lanes, one row
at a time.

**Results.**
* `getElem?_memcpy`: what one copy writes.
* `memcpy_outside`: a copy that reaches past the end fails.
* `LanesCopied.step`: one more row.
-/

namespace RwkvLightning

universe u

variable {β : Type u}

/-- Copy `count` cells; nothing when an address lies outside its array. -/
def memcpy (dst : List β) (dstStart : Int) (src : List β) (srcStart count : Int) :
    Option (List β) :=
  if (0 ≤ srcStart ∧ srcStart + count ≤ src.length) ∧
      0 ≤ dstStart ∧ dstStart + count ≤ dst.length then
    some (dst.take dstStart.toNat ++ (src.drop srcStart.toNat).take count.toNat ++
      dst.drop (dstStart + count).toNat)
  else none

section Memcpy

variable {src dst : List β} {dstStart srcStart count : Nat}

theorem getElem?_memcpy
    (hsrc : srcStart + count ≤ src.length) (hdst : dstStart + count ≤ dst.length) :
    ∃ out, memcpy dst dstStart src srcStart count = some out ∧ out.length = dst.length ∧
      ∀ i, out[i]? =
        if dstStart ≤ i ∧ i < dstStart + count then src[i - dstStart + srcStart]? else dst[i]? := by
  have hbounds : ((0 : Int) ≤ srcStart ∧ (srcStart : Int) + count ≤ src.length) ∧
      (0 : Int) ≤ dstStart ∧ (dstStart : Int) + count ≤ dst.length := by
    omega
  have hsum : ((dstStart : Int) + count).toNat = dstStart + count := by omega
  have htake : (dst.take dstStart).length = dstStart := by
    rw [List.length_take]
    omega
  have hcopied : ((src.drop srcStart).take count).length = count := by
    rw [List.length_take, List.length_drop]
    omega
  refine ⟨_, if_pos hbounds, ?_, ?_⟩
  · simp only [Int.toNat_natCast, hsum, List.length_append, htake, hcopied, List.length_drop]
    omega
  · intro i
    simp only [Int.toNat_natCast, hsum, List.append_assoc]
    by_cases hbefore : i < dstStart
    · rw [List.getElem?_append_left (by omega), List.getElem?_take_of_lt hbefore,
        if_neg (by omega)]
    rw [List.getElem?_append_right (by omega), htake]
    by_cases hinside : i < dstStart + count
    · rw [List.getElem?_append_left (by omega), List.getElem?_take_of_lt (by omega),
        List.getElem?_drop, if_pos (by omega)]
      congr 1
      omega
    · rw [List.getElem?_append_right (by omega), hcopied, List.getElem?_drop,
        if_neg (by omega)]
      congr 1
      omega

theorem memcpy_outside
    {dstStart srcStart count : Int}
    (h : srcStart < 0 ∨ src.length < srcStart + count ∨ dstStart < 0 ∨
      dst.length < dstStart + count) :
    memcpy dst dstStart src srcStart count = none := by
  rw [memcpy, if_neg]
  omega

end Memcpy

/-- A window of lanes, in rows of the source and in rows of the destination. -/
structure Window where
  srcLanes : Nat
  dstLanes : Nat
  srcOffset : Nat
  dstOffset : Nat
  count : Nat
  src_le : srcOffset + count ≤ srcLanes
  dst_le : dstOffset + count ≤ dstLanes

/-- Cell `e` of a lane. -/
def laneCell (xs : List β) (lanes width row lane e : Nat) : Option β :=
  xs[(row * lanes + lane) * width + e]?

/-- The window has been copied in the first rows, and nothing else has changed. -/
structure LanesCopied (w : Window) (width rows : Nat) (src dst out : List β) : Prop where
  length : out.length = dst.length
  cells : ∀ row lane e, lane < w.dstLanes → e < width →
    laneCell out w.dstLanes width row lane e =
      if row < rows ∧ w.dstOffset ≤ lane ∧ lane < w.dstOffset + w.count then
        laneCell src w.srcLanes width row (lane - w.dstOffset + w.srcOffset) e
      else laneCell dst w.dstLanes width row lane e

/-- The cells of a window of lanes are those of the source, all others are as before. -/
def WindowExact (w : Window) (rows width : Nat) (src dst out : List β) : Prop :=
  ∀ row < rows, ∀ lane < w.dstLanes, ∀ e < width,
    laneCell out w.dstLanes width row lane e =
      if w.dstOffset ≤ lane ∧ lane < w.dstOffset + w.count then
        laneCell src w.srcLanes width row (lane - w.dstOffset + w.srcOffset) e
      else laneCell dst w.dstLanes width row lane e

section Rows

variable {w : Window} {width rows k : Nat} {src dst out : List β}

theorem lanesCopied_zero : LanesCopied w width 0 src dst dst where
  length := rfl
  cells := by
    intro row lane e _ _
    rw [if_neg (by omega)]

/-- A cell lies before a lane exactly when its own lane does. -/
theorem cell_lt_iff {x y e : Nat} (he : e < width) : x * width + e < y * width ↔ x < y := by
  constructor
  · intro h
    by_contra hle
    have hmul := Nat.mul_le_mul_right width (Nat.not_lt.mp hle)
    omega
  · intro h
    have hmul := Nat.mul_le_mul_right width (Nat.succ_le_of_lt h)
    rw [Nat.succ_mul] at hmul
    omega

/-- A lane of some row lies in a part of row `k` exactly when it is that row's. -/
theorem lane_mem_iff {lanes row lane first last : Nat} (hlane : lane < lanes)
    (hlast : last ≤ lanes) :
    k * lanes + first ≤ row * lanes + lane ∧ row * lanes + lane < k * lanes + last ↔
      row = k ∧ first ≤ lane ∧ lane < last := by
  rcases Nat.lt_trichotomy row k with hlt | rfl | hgt
  · have hmul := Nat.mul_le_mul_right lanes (Nat.succ_le_of_lt hlt)
    rw [Nat.succ_mul] at hmul
    omega
  · omega
  · have hmul := Nat.mul_le_mul_right lanes (Nat.succ_le_of_lt hgt)
    rw [Nat.succ_mul] at hmul
    omega

/-- The last row ends within the array. -/
theorem lanes_le {lanes n : Nat} (hrow : k < rows) (hn : n ≤ lanes) :
    (k * lanes + n) * width ≤ rows * lanes * width := by
  have hmul := Nat.mul_le_mul_right lanes (Nat.succ_le_of_lt hrow)
  rw [Nat.succ_mul] at hmul
  exact Nat.mul_le_mul_right width (by omega)

/-- One more row. -/
theorem LanesCopied.step
    (h : LanesCopied w width k src dst out) (hrow : k < rows)
    (hsrc : src.length = rows * w.srcLanes * width)
    (hdst : dst.length = rows * w.dstLanes * width) :
    ∃ out', memcpy out ((k * w.dstLanes + w.dstOffset) * width : Nat) src
        ((k * w.srcLanes + w.srcOffset) * width : Nat) (w.count * width : Nat) = some out' ∧
      LanesCopied w width (k + 1) src dst out' := by
  have hsrcEnd : (k * w.srcLanes + w.srcOffset) * width + w.count * width ≤ src.length := by
    rw [hsrc, ← Nat.add_mul, Nat.add_assoc]
    exact lanes_le hrow w.src_le
  have hdstEnd : (k * w.dstLanes + w.dstOffset) * width + w.count * width ≤ out.length := by
    rw [h.length, hdst, ← Nat.add_mul, Nat.add_assoc]
    exact lanes_le hrow w.dst_le
  obtain ⟨out', hcopy, hlength, hcells⟩ := getElem?_memcpy hsrcEnd hdstEnd
  refine ⟨out', hcopy, hlength.trans h.length, ?_⟩
  intro row lane e hlane he
  have hold := h.cells row lane e hlane he
  have hinside : (k * w.dstLanes + w.dstOffset) * width ≤ (row * w.dstLanes + lane) * width + e ∧
      (row * w.dstLanes + lane) * width + e <
        (k * w.dstLanes + w.dstOffset) * width + w.count * width ↔
      row = k ∧ w.dstOffset ≤ lane ∧ lane < w.dstOffset + w.count := by
    rw [← Nat.add_mul, Nat.add_assoc, cell_lt_iff he, ← Nat.not_lt, cell_lt_iff he, Nat.not_lt]
    exact lane_mem_iff hlane w.dst_le
  rw [laneCell, hcells]
  by_cases hnew : row = k ∧ w.dstOffset ≤ lane ∧ lane < w.dstOffset + w.count
  · obtain ⟨rfl, hfirst, hlast⟩ := hnew
    rw [if_pos (hinside.mpr ⟨rfl, hfirst, hlast⟩), if_pos ⟨Nat.lt_succ_self _, hfirst, hlast⟩,
      laneCell]
    congr 1
    obtain ⟨d, rfl⟩ := Nat.exists_eq_add_of_le hfirst
    have hleft : (row * w.dstLanes + (w.dstOffset + d)) * width + e -
        (row * w.dstLanes + w.dstOffset) * width = d * width + e := by
      rw [← Nat.add_assoc, Nat.add_mul _ d]
      omega
    rw [hleft, Nat.add_sub_cancel_left]
    ring
  · rw [if_neg (fun hin => hnew (hinside.mp hin))]
    refine hold.trans ?_
    by_cases hdone : row < k ∧ w.dstOffset ≤ lane ∧ lane < w.dstOffset + w.count
    · rw [if_pos hdone, if_pos ⟨by omega, hdone.2⟩]
    · rw [if_neg hdone, if_neg (by omega)]

theorem LanesCopied.window
    (h : LanesCopied w width rows src dst out) : WindowExact w rows width src dst out := by
  intro row hrow lane hlane e he
  rw [h.cells row lane e hlane he]
  simp only [hrow, true_and]

end Rows

end RwkvLightning

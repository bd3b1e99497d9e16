import RwkvLightning.Io.PthTensor
import RwkvLightning.Library.BinaryFormat
import Mathlib

/-!
# Half-precision conversion

`float_to_f16_bits` and `float_to_bf16_bits` of `pth_tensor.cpp` against the values of the
three formats.

**Two slips.**  `float_to_bf16_bits` rounds a NaN like a number, and the carry can reach the
infinity or the sign.  `float_to_f16_bits` drops every exponent below -24, so numbers between
2^-25 and 2^-24 become zero though the least positive number is nearer.

**Results.**
* `floatToF16Bits_toNat`, `floatToBf16Bits_fields`: the conversions in natural numbers, from one
  lemma for each range of exponents.
* `isNearest_f16`, `isNearest_bf16`: nearest values.
* `orderKept_f16`, `representableKept_f16`: monotone and exact, the dropped numbers included.
* `conversions_exact`: which patterns are converted correctly.
-/

namespace RwkvLightning
namespace Pth

open BinaryFormat

/-- The 32-bit format. -/
def single : Format := { exponentBits := 8, fractionBits := 23 }

/-- The format with 5 bits of exponent. -/
def half : Format := { exponentBits := 5, fractionBits := 10 }

/-- The upper half of the 32-bit format. -/
def bfloat : Format := { exponentBits := 8, fractionBits := 7 }

/-- A conversion of one pattern as it should be. -/
structure Converts (format : Format) (value : UInt32) (bits : UInt16) : Prop where
  nan : single.IsNaN value.toNat → format.IsNaN bits.toNat
  number : ¬single.IsNaN value.toNat → ¬format.IsNaN bits.toNat
  sign : ¬single.IsNaN value.toNat → (single.Negative value.toNat ↔ format.Negative bits.toNat)
  infinite : single.IsInfinite value.toNat → format.IsInfinite bits.toNat
  zero : single.IsZero value.toNat → format.IsZero bits.toNat
  nearest : ¬single.IsNaN value.toNat → format.IsNearest (single.value value.toNat) bits.toNat

/-- The order of the numbers is kept. -/
def OrderKept (format : Format) (convert : UInt32 → UInt16) : Prop :=
  ∀ x y : UInt32, ¬single.IsNaN x.toNat → ¬single.IsNaN y.toNat →
    single.value x.toNat ≤ single.value y.toNat →
      format.value (convert x).toNat ≤ format.value (convert y).toNat

/-- What has a pattern in the format gets it. -/
def RepresentableKept (format : Format) (convert : UInt32 → UInt16) : Prop :=
  ∀ (x : UInt32) (bits : UInt16), ¬single.IsNaN x.toNat → ¬format.IsNaN bits.toNat →
    (single.Negative x.toNat ↔ format.Negative bits.toNat) →
    single.value x.toNat = format.value bits.toNat → convert x = bits

/-- Nearer to the least positive number than to zero, but below it. -/
def Lost (value : UInt32) : Prop :=
  2 ^ (-25 : ℤ) < |single.value value.toNat| ∧ |single.value value.toNat| < 2 ^ (-24 : ℤ)

/-- The fraction is one that rounding carries neither to zero nor into the exponent. -/
def PayloadKept (value : UInt32) : Prop :=
  2 ^ 15 < value.toNat % 2 ^ 23 ∧ value.toNat % 2 ^ 23 < 2 ^ 23 - 2 ^ 15

section Fields

/-- The magnitude of a 32-bit pattern. -/
theorem magnitude_single (n : ℕ) : single.magnitude n = n % 2 ^ 31 := rfl

theorem negative_single (n : ℕ) : single.Negative n ↔ 2 ^ 31 ≤ n := Iff.rfl

theorem infinity_single : single.infinity = 255 * 2 ^ 23 := rfl

theorem infinity_half : half.infinity = 31 * 2 ^ 10 := rfl

theorem infinity_bfloat : bfloat.infinity = 255 * 2 ^ 7 := rfl

theorem quantum_half : half.quantum = single.quantum + (125 : ℕ) := by decide

theorem quantum_bfloat : bfloat.quantum = single.quantum + (16 : ℕ) := by decide

/-- The exponent field. -/
def exponentField (value : UInt32) : ℕ := value.toNat % 2 ^ 31 / 2 ^ 23

/-- The fraction field. -/
def fractionField (value : UInt32) : ℕ := value.toNat % 2 ^ 23

variable (value : UInt32)

theorem fractionField_lt : fractionField value < 2 ^ 23 := Nat.mod_lt _ (by decide)

theorem exponentField_lt : exponentField value < 2 ^ 8 := by
  unfold exponentField
  omega

theorem magnitude_eq_fields :
    single.magnitude value.toNat = exponentField value * 2 ^ 23 + fractionField value := by
  rw [magnitude_single, exponentField, fractionField]
  omega

theorem isNaN_iff :
    single.IsNaN value.toNat ↔ exponentField value = 255 ∧ fractionField value ≠ 0 := by
  have hexponent := exponentField_lt value
  have hfraction := fractionField_lt value
  rw [Format.IsNaN, infinity_single, magnitude_eq_fields]
  omega

theorem toNat_exponent : (value >>> 23 &&& 0xff).toNat = exponentField value := by
  have hmask : (0xff : UInt32).toNat = 2 ^ 8 - 1 := rfl
  have hshift : (23 : UInt32).toNat % 32 = 23 := rfl
  rw [UInt32.toNat_and, UInt32.toNat_shiftRight, hmask, hshift, Nat.and_two_pow_sub_one_eq_mod,
    Nat.shiftRight_eq_div_pow, exponentField]
  omega

theorem toNat_fraction : (value &&& 0x7fffff).toNat = fractionField value := by
  have hmask : (0x7fffff : UInt32).toNat = 2 ^ 23 - 1 := rfl
  rw [UInt32.toNat_and, hmask, Nat.and_two_pow_sub_one_eq_mod, fractionField]

theorem toNat_sign : (value >>> 16 &&& 0x8000).toNat = 2 ^ 15 * (value.toNat / 2 ^ 31) := by
  have hmask : (0x8000 : UInt32).toNat = 2 ^ 15 := rfl
  have hshift : (16 : UInt32).toNat % 32 = 16 := rfl
  have hlt := value.toNat_lt
  rw [UInt32.toNat_and, UInt32.toNat_shiftRight, hmask, hshift, Nat.shiftRight_eq_div_pow,
    Nat.and_two_pow, Nat.testBit_eq_decide_div_mod_eq, Nat.div_div_eq_div_mul, ← pow_add]
  have hbit : value.toNat / 2 ^ 31 = 0 ∨ value.toNat / 2 ^ 31 = 1 := by omega
  have hlast : value.toNat / 2 ^ (16 + 15) % 2 = value.toNat / 2 ^ 31 := by omega
  rw [hlast]
  rcases hbit with h | h <;> rw [h] <;> rfl

/-- The sign over the 15 bits of a magnitude. -/
theorem toNat_signed (bits : UInt32) (h : bits.toNat < 2 ^ 15) :
    ((value >>> 16 &&& 0x8000) ||| bits).toUInt16.toNat =
      2 ^ 15 * (value.toNat / 2 ^ 31) + bits.toNat := by
  have hlt := value.toNat_lt
  rw [UInt32.toNat_toUInt16, UInt32.toNat_or, toNat_sign, ← Nat.two_pow_add_eq_or_of_lt h,
    Nat.mod_eq_of_lt]
  omega

end Fields

section Ranges

variable {value : UInt32}

/-- Infinities and NaNs. -/
theorem floatToF16Bits_special (h : exponentField value = 255) :
    (floatToF16Bits value).toNat = 2 ^ 15 * (value.toNat / 2 ^ 31) +
      if fractionField value = 0 then 0x7c00 else 0x7e00 := by
  have hfraction : (value &&& 0x7fffff) = 0 ↔ fractionField value = 0 := by
    rw [← UInt32.toNat_inj, toNat_fraction, UInt32.toNat_zero]
  unfold floatToF16Bits
  simp only [toNat_exponent, h]
  rw [if_pos (by decide)]
  by_cases hzero : fractionField value = 0
  · rw [if_pos (hfraction.mpr hzero), if_pos hzero]
    exact toNat_signed value 0x7c00 (by decide)
  · rw [if_neg (fun hin => hzero (hfraction.mp hin)), if_neg hzero]
    exact toNat_signed value 0x7e00 (by decide)

/-- Exponents beyond those of the format. -/
theorem floatToF16Bits_large (h : 143 ≤ exponentField value) (h' : exponentField value < 255) :
    (floatToF16Bits value).toNat = 2 ^ 15 * (value.toNat / 2 ^ 31) + 0x7c00 := by
  unfold floatToF16Bits
  simp only [toNat_exponent]
  rw [if_neg (by omega), if_pos (by omega)]
  exact toNat_signed value 0x7c00 (by decide)

/-- The normal numbers of the format; the carry goes up to the infinity. -/
theorem floatToF16Bits_normal (h : 113 ≤ exponentField value) (h' : exponentField value < 143) :
    (floatToF16Bits value).toNat = 2 ^ 15 * (value.toNat / 2 ^ 31) +
      ((exponentField value - 112) * 2 ^ 10 + (fractionField value + 2 ^ 12) / 2 ^ 13) := by
  have hfraction := fractionField_lt value
  have hrounded : ((value &&& 0x7fffff) + 0x1000).toNat = fractionField value + 2 ^ 12 := by
    have hconstant : (0x1000 : UInt32).toNat = 2 ^ 12 := rfl
    rw [UInt32.toNat_add, toNat_fraction, hconstant]
    exact Nat.mod_eq_of_lt (by omega)
  have hcarry : ((value &&& 0x7fffff) + 0x1000) &&& 0x800000 ≠ 0 ↔
      2 ^ 23 ≤ fractionField value + 2 ^ 12 := by
    have hmask : (0x800000 : UInt32).toNat = 2 ^ 23 := rfl
    rw [Ne, ← UInt32.toNat_inj, UInt32.toNat_and, hrounded, hmask, Nat.and_two_pow,
      Nat.testBit_eq_decide_div_mod_eq, UInt32.toNat_zero]
    by_cases hge : 2 ^ 23 ≤ fractionField value + 2 ^ 12
    · have hone : (fractionField value + 2 ^ 12) / 2 ^ 23 % 2 = 1 := by omega
      rw [hone]
      exact iff_of_true (by decide) hge
    · have hzero : (fractionField value + 2 ^ 12) / 2 ^ 23 % 2 = 0 := by omega
      rw [hzero]
      exact iff_of_false (by decide) hge
  have hexp : ((exponentField value : ℤ) - 127 + 15).toNat = exponentField value - 112 := by omega
  have hexponent : (UInt32.ofNat (exponentField value - 112)).toNat =
      exponentField value - 112 := by
    rw [UInt32.toNat_ofNat']
    exact Nat.mod_eq_of_lt (by omega)
  have hnext : (UInt32.ofNat (exponentField value - 112) + 1).toNat =
      exponentField value - 111 := by
    rw [UInt32.toNat_add, hexponent]
    simp only [UInt32.toNat_one]
    omega
  unfold floatToF16Bits
  simp only [toNat_exponent, hexp]
  rw [if_neg (by omega), if_neg (by omega), if_pos (by omega)]
  by_cases hup : 2 ^ 23 ≤ fractionField value + 2 ^ 12
  · have hq : (fractionField value + 2 ^ 12) / 2 ^ 13 = 2 ^ 10 := by omega
    rw [if_pos (hcarry.mpr hup), hq]
    by_cases hlast : (31 : UInt32) ≤ UInt32.ofNat (exponentField value - 112) + 1
    · have hge : 31 ≤ exponentField value - 111 := by
        rw [UInt32.le_iff_toNat_le, hnext] at hlast
        exact hlast
      rw [if_pos hlast, toNat_signed value 0x7c00 (by decide)]
      have hvalue : (0x7c00 : UInt32).toNat = 31 * 2 ^ 10 := rfl
      omega
    · have hlt : exponentField value - 111 < 31 := by
        rw [UInt32.le_iff_toNat_le, hnext] at hlast
        exact Nat.lt_of_not_le hlast
      have hshift : ((UInt32.ofNat (exponentField value - 112) + 1) <<< 10).toNat =
          (exponentField value - 111) * 2 ^ 10 := by
        have hten : (10 : UInt32).toNat % 32 = 10 := rfl
        rw [UInt32.toNat_shiftLeft, hnext, hten, Nat.shiftLeft_eq]
        exact Nat.mod_eq_of_lt (by omega)
      rw [if_neg hlast, toNat_signed value _ (by omega), hshift]
      omega
  · have hq : (fractionField value + 2 ^ 12) / 2 ^ 13 < 2 ^ 10 := by omega
    have hbits : (UInt32.ofNat (exponentField value - 112) <<< 10 |||
        ((value &&& 0x7fffff) + 0x1000) >>> 13).toNat =
          (exponentField value - 112) * 2 ^ 10 + (fractionField value + 2 ^ 12) / 2 ^ 13 := by
      have hten : (10 : UInt32).toNat % 32 = 10 := rfl
      have hthirteen : (13 : UInt32).toNat % 32 = 13 := rfl
      rw [UInt32.toNat_or, UInt32.toNat_shiftLeft, UInt32.toNat_shiftRight, hexponent, hrounded,
        hten, hthirteen, Nat.shiftLeft_eq, Nat.shiftRight_eq_div_pow, Nat.mod_eq_of_lt (by omega),
        Nat.mul_comm _ (2 ^ 10), ← Nat.two_pow_add_eq_or_of_lt hq]
    rw [if_neg (fun hin => hup (hcarry.mp hin)), UInt32.or_assoc, toNat_signed value _ (by omega),
      hbits]

/-- The numbers below the normal ones, rounded half up. -/
theorem floatToF16Bits_subnormal (h : 103 ≤ exponentField value)
    (h' : exponentField value < 113) :
    (floatToF16Bits value).toNat = 2 ^ 15 * (value.toNat / 2 ^ 31) +
      ((2 ^ 23 + fractionField value) / 2 ^ (126 - exponentField value) +
        (2 ^ 23 + fractionField value) / 2 ^ (125 - exponentField value) % 2) := by
  have hfraction := fractionField_lt value
  have hsignificand : ((value &&& 0x7fffff) ||| 0x800000).toNat = 2 ^ 23 + fractionField value := by
    have hmask : (0x800000 : UInt32).toNat = 2 ^ 23 * 1 := rfl
    rw [UInt32.toNat_or, toNat_fraction, Nat.or_comm, hmask,
      ← Nat.two_pow_add_eq_or_of_lt hfraction, Nat.mul_one]
  have hexp : (-((exponentField value : ℤ) - 127) - 14).toNat = 113 - exponentField value := by
    omega
  have hamount : ∀ n : ℕ, n < 14 → (UInt32.ofNat (113 - exponentField value) +
      UInt32.ofNat n).toNat % 32 = 113 - exponentField value + n := by
    intro n hn
    rw [UInt32.toNat_add, UInt32.toNat_ofNat', UInt32.toNat_ofNat']
    omega
  have hround : ((value &&& 0x7fffff ||| 0x800000) >>>
      (UInt32.ofNat (113 - exponentField value) + 12) &&& 1).toNat =
        (2 ^ 23 + fractionField value) / 2 ^ (125 - exponentField value) % 2 := by
    have hshift : (UInt32.ofNat (113 - exponentField value) + 12).toNat % 32 =
        125 - exponentField value := (hamount 12 (by decide)).trans (by omega)
    rw [UInt32.toNat_and, UInt32.toNat_shiftRight, hsignificand, hshift,
      Nat.shiftRight_eq_div_pow, UInt32.toNat_one, Nat.and_one_is_mod]
  have hkept : ((value &&& 0x7fffff ||| 0x800000) >>>
      (UInt32.ofNat (113 - exponentField value) + 13)).toNat =
        (2 ^ 23 + fractionField value) / 2 ^ (126 - exponentField value) := by
    have hshift : (UInt32.ofNat (113 - exponentField value) + 13).toNat % 32 =
        126 - exponentField value := (hamount 13 (by decide)).trans (by omega)
    rw [UInt32.toNat_shiftRight, hsignificand, hshift, Nat.shiftRight_eq_div_pow]
  have hsmall : (2 ^ 23 + fractionField value) / 2 ^ (126 - exponentField value) < 2 ^ 10 := by
    rw [Nat.div_lt_iff_lt_mul (Nat.two_pow_pos _), ← pow_add]
    have hpow : 2 ^ 24 ≤ 2 ^ (10 + (126 - exponentField value)) :=
      Nat.pow_le_pow_right (by decide) (by omega)
    omega
  have hsum : ((value &&& 0x7fffff ||| 0x800000) >>>
        (UInt32.ofNat (113 - exponentField value) + 13) +
      ((value &&& 0x7fffff ||| 0x800000) >>>
        (UInt32.ofNat (113 - exponentField value) + 12) &&& 1)).toNat =
      (2 ^ 23 + fractionField value) / 2 ^ (126 - exponentField value) +
        (2 ^ 23 + fractionField value) / 2 ^ (125 - exponentField value) % 2 := by
    rw [UInt32.toNat_add, hkept, hround]
    exact Nat.mod_eq_of_lt (by omega)
  unfold floatToF16Bits
  simp only [toNat_exponent, hexp]
  rw [if_neg (by omega), if_neg (by omega), if_neg (by omega), if_neg (by omega),
    toNat_signed value _ (by omega), hsum]

/-- The exponents that are dropped. -/
theorem floatToF16Bits_small (h : exponentField value < 103) :
    (floatToF16Bits value).toNat = 2 ^ 15 * (value.toNat / 2 ^ 31) := by
  unfold floatToF16Bits
  simp only [toNat_exponent]
  rw [if_neg (by omega), if_neg (by omega), if_neg (by omega), if_pos (by omega)]
  have hsigned := toNat_signed value 0 (by decide)
  rwa [UInt32.or_zero] at hsigned

/-- The addition of `float_to_bf16_bits`; the carry can leave the 32 bits. -/
theorem floatToBf16Bits_toNat (value : UInt32) :
    (floatToBf16Bits value).toNat =
      (value.toNat + (0x7fff + value.toNat / 2 ^ 16 % 2)) % 2 ^ 32 / 2 ^ 16 := by
  have hshift : (16 : UInt32).toNat % 32 = 16 := rfl
  have hconstant : (0x7fff : UInt32).toNat = 0x7fff := rfl
  have hlt := value.toNat_lt
  have hlow : (value >>> 16 &&& 1).toNat = value.toNat / 2 ^ 16 % 2 := by
    rw [UInt32.toNat_and, UInt32.toNat_shiftRight, hshift, Nat.shiftRight_eq_div_pow,
      UInt32.toNat_one, Nat.and_one_is_mod]
  unfold floatToBf16Bits
  simp only [UInt32.toNat_toUInt16, UInt32.toNat_shiftRight, UInt32.toNat_add, hlow, hshift,
    hconstant, Nat.shiftRight_eq_div_pow]
  omega

end Ranges

section Magnitudes

/-- The magnitude that `float_to_f16_bits` returns for two fields. -/
def f16Magnitude (e m : ℕ) : ℕ :=
  if e = 255 then if m = 0 then 0x7c00 else 0x7e00
  else if 143 ≤ e then 0x7c00
  else if 113 ≤ e then (e - 112) * 2 ^ 10 + (m + 2 ^ 12) / 2 ^ 13
  else if 103 ≤ e then (2 ^ 23 + m) / 2 ^ (126 - e) + (2 ^ 23 + m) / 2 ^ (125 - e) % 2
  else 0

/-- The magnitude that `float_to_bf16_bits` returns for one of 31 bits; a carry out of it
changes the sign. -/
def bf16Magnitude (k : ℕ) : ℕ := (k + (0x7fff + k / 2 ^ 16 % 2)) / 2 ^ 16

theorem floatToF16Bits_toNat (value : UInt32) :
    (floatToF16Bits value).toNat = 2 ^ 15 * (value.toNat / 2 ^ 31) +
      f16Magnitude (exponentField value) (fractionField value) := by
  have hlt := exponentField_lt value
  unfold f16Magnitude
  by_cases hspecial : exponentField value = 255
  · rw [if_pos hspecial]
    exact floatToF16Bits_special hspecial
  rw [if_neg hspecial]
  by_cases hlarge : 143 ≤ exponentField value
  · rw [if_pos hlarge]
    exact floatToF16Bits_large hlarge (by omega)
  rw [if_neg hlarge]
  by_cases hnormal : 113 ≤ exponentField value
  · rw [if_pos hnormal]
    exact floatToF16Bits_normal hnormal (by omega)
  rw [if_neg hnormal]
  by_cases hsubnormal : 103 ≤ exponentField value
  · rw [if_pos hsubnormal]
    exact floatToF16Bits_subnormal hsubnormal (by omega)
  · rw [if_neg hsubnormal]
    exact floatToF16Bits_small (by omega)

/-- The bit after the kept ones says which half the rest is in. -/
theorem div_half (s v : ℕ) :
    s % 2 ^ (v + 1) = s % 2 ^ v + 2 ^ v * (s / 2 ^ v % 2) := by
  rw [pow_succ, Nat.mod_mul]

/-- A number of the 32-bit format is mapped to a magnitude of the format. -/
theorem f16Magnitude_le {e m : ℕ} (hm : m < 2 ^ 23) (h : e = 255 → m = 0) :
    f16Magnitude e m ≤ 31 * 2 ^ 10 := by
  unfold f16Magnitude
  by_cases hspecial : e = 255
  · rw [if_pos hspecial, if_pos (h hspecial)]
    decide
  rw [if_neg hspecial]
  by_cases hlarge : 143 ≤ e
  · rw [if_pos hlarge]
    decide
  rw [if_neg hlarge]
  by_cases hnormal : 113 ≤ e
  · rw [if_pos hnormal]
    omega
  rw [if_neg hnormal]
  by_cases hsubnormal : 103 ≤ e
  · have hquotient : (2 ^ 23 + m) / 2 ^ (126 - e) ≤ (2 ^ 23 + m) / 2 ^ 14 :=
      Nat.div_le_div_left (Nat.pow_le_pow_right (by decide) (by omega)) (by decide)
    rw [if_pos hsubnormal]
    omega
  · rw [if_neg hsubnormal]
    decide

theorem f16Magnitude_nan {e m : ℕ} (h : e = 255) (hm : m ≠ 0) : f16Magnitude e m = 0x7e00 := by
  rw [f16Magnitude, if_pos h, if_neg hm]

theorem f16Magnitude_small {e : ℕ} (h : e < 103) (m : ℕ) : f16Magnitude e m = 0 := by
  rw [f16Magnitude, if_neg (by omega), if_neg (by omega), if_neg (by omega), if_neg (by omega)]

/-- Both formats have 15 bits below the sign. -/
theorem signed_magnitude {f : Format} (hformat : f.signBit = 2 ^ 15) {n m : ℕ}
    (hn : n < 2 ^ 32) (hm : m < 2 ^ 15) :
    f.magnitude (2 ^ 15 * (n / 2 ^ 31) + m) = m ∧
      (single.Negative n ↔ f.Negative (2 ^ 15 * (n / 2 ^ 31) + m)) := by
  rw [Format.magnitude, negative_single, Format.Negative, hformat]
  omega

end Magnitudes

section NearestF16

/-- The magnitudes of the smaller format in units of the 32-bit one. -/
theorem units_f16_mono : Monotone fun k => units 10 k * 2 ^ 125 :=
  fun _ _ h => Nat.mul_le_mul_right _ ((units_strictMono 10).monotone h)

theorem units_single_of_pos {e m : ℕ} (hm : m < 2 ^ 23) (he : 1 ≤ e) :
    units 23 (e * 2 ^ 23 + m) = (2 ^ 23 + m) * 2 ^ (e - 1) := by
  obtain ⟨e, rfl⟩ : ∃ n, e = n + 1 := ⟨e - 1, by omega⟩
  exact units_fields hm

/-- Exponents below 103 are those of the numbers below the least positive one. -/
theorem units_lt_iff {e m : ℕ} (hm : m < 2 ^ 23) :
    units 23 (e * 2 ^ 23 + m) < 2 ^ 125 ↔ e < 103 := by
  have hbound : units 23 (103 * 2 ^ 23) = 2 ^ 125 := by
    rw [← Nat.add_zero (103 * 2 ^ 23), units_single_of_pos (by decide) (by decide), Nat.add_zero,
      ← pow_add]
  rw [← hbound, (units_strictMono 23).lt_iff_lt]
  omega

variable {e m : ℕ}

/-- Beyond the largest number the infinity is nearest. -/
theorem near_large (hm : m < 2 ^ 23) (h : 143 ≤ e) (k : ℕ) (hk : k ≤ 31 * 2 ^ 10) :
    |(units 23 (e * 2 ^ 23 + m) : ℤ) - (units 10 (31 * 2 ^ 10) * 2 ^ 125 : ℕ)| ≤
      |(units 23 (e * 2 ^ 23 + m) : ℤ) - (units 10 k * 2 ^ 125 : ℕ)| := by
  have hinfinity : units 10 (31 * 2 ^ 10) * 2 ^ 125 = 2 ^ 23 * 2 ^ 142 := by
    have hfields : units 10 ((30 + 1) * 2 ^ 10 + 0) = (2 ^ 10 + 0) * 2 ^ 30 :=
      units_fields (by decide)
    rw [← Nat.add_zero (31 * 2 ^ 10), hfields, Nat.add_zero, ← pow_add, ← pow_add, ← pow_add]
  have hle : 2 ^ 23 * 2 ^ 142 ≤ units 23 (e * 2 ^ 23 + m) := by
    rw [units_single_of_pos hm (by omega)]
    exact Nat.mul_le_mul (Nat.le_add_right _ _) (Nat.pow_le_pow_right (by decide) (by omega))
  have hbelow := units_f16_mono hk
  simp only [hinfinity] at hbelow ⊢
  rw [abs_of_nonneg (by omega), abs_of_nonneg (by omega)]
  omega

/-- The normal numbers, halfway cases up. -/
theorem near_normal (hm : m < 2 ^ 23) (h : 113 ≤ e) (k : ℕ) :
    |(units 23 (e * 2 ^ 23 + m) : ℤ) -
        (units 10 ((e - 112) * 2 ^ 10 + (m + 2 ^ 12) / 2 ^ 13) * 2 ^ 125 : ℕ)| ≤
      |(units 23 (e * 2 ^ 23 + m) : ℤ) - (units 10 k * 2 ^ 125 : ℕ)| := by
  have hlow : m % 2 ^ 13 < 2 * 2 ^ 12 := Nat.mod_lt _ (by decide)
  have hq : m / 2 ^ 13 < 2 ^ 10 := by omega
  obtain ⟨base, hbase⟩ : ∃ n, n = (e - 112) * 2 ^ 10 + m / 2 ^ 13 := ⟨_, rfl⟩
  have hfields : e * 2 ^ 23 + m = (base + 112 * 2 ^ 10) * 2 ^ 13 + m % 2 ^ 13 := by omega
  have hexponent : (base + 112 * 2 ^ 10) / 2 ^ 10 = e := by omega
  have hshorter : base / 2 ^ 10 = e - 112 := by omega
  have hrounded : (e - 112) * 2 ^ 10 + (m + 2 ^ 12) / 2 ^ 13 =
      if 2 ^ 12 ≤ m % 2 ^ 13 then base + 1 else base := by
    rw [hbase]
    by_cases hhalf : 2 ^ 12 ≤ m % 2 ^ 13
    · have hcarry : (m + 2 ^ 12) / 2 ^ 13 = m / 2 ^ 13 + 1 := by omega
      rw [if_pos hhalf, hcarry, Nat.add_assoc]
    · have hcarry : (m + 2 ^ 12) / 2 ^ 13 = m / 2 ^ 13 := by omega
      rw [if_neg hhalf, hcarry]
  have hx : units 23 (e * 2 ^ 23 + m) = units 10 base * 2 ^ 125 + m % 2 ^ 13 * 2 ^ (e - 1) := by
    have hrest : m % 2 ^ 13 < 2 ^ 13 := hlow
    have hadd := units_add (p := 10) (h := base + 112 * 2 ^ 10) hrest
    rw [← hfields, hexponent, units_shift (by omega)] at hadd
    rw [hadd, Nat.mul_assoc, ← pow_add]
  have hgap : units 10 (base + 1) * 2 ^ 125 =
      units 10 base * 2 ^ 125 + 2 * 2 ^ 12 * 2 ^ (e - 1) := by
    have hpow : 2 ^ (e - 112 - 1) * 2 ^ 125 = 2 * 2 ^ 12 * 2 ^ (e - 1) := by
      rw [← pow_add, ← pow_succ', ← pow_add]
      congr 1
      omega
    rw [units_succ, hshorter, Nat.add_mul, hpow]
  obtain ⟨hdown, hup⟩ := near_split units_f16_mono hx hgap hlow
  rw [hrounded]
  by_cases hhalf : 2 ^ 12 ≤ m % 2 ^ 13
  · rw [if_pos hhalf]
    exact hup hhalf k
  · rw [if_neg hhalf]
    exact hdown (Nat.le_of_not_le hhalf) k

/-- The numbers below the normal ones, halfway cases up. -/
theorem near_subnormal (hm : m < 2 ^ 23) (h : 103 ≤ e) (h' : e < 113) (k : ℕ) :
    |(units 23 (e * 2 ^ 23 + m) : ℤ) - (units 10 ((2 ^ 23 + m) / 2 ^ (126 - e) +
        (2 ^ 23 + m) / 2 ^ (125 - e) % 2) * 2 ^ 125 : ℕ)| ≤
      |(units 23 (e * 2 ^ 23 + m) : ℤ) - (units 10 k * 2 ^ 125 : ℕ)| := by
  obtain ⟨v, hv⟩ : ∃ n, n = 125 - e := ⟨_, rfl⟩
  have hw : 126 - e = v + 1 := by omega
  rw [hw, ← hv]
  have hlow : (2 ^ 23 + m) % 2 ^ (v + 1) < 2 * 2 ^ v := by
    rw [← pow_succ']
    exact Nat.mod_lt _ (Nat.two_pow_pos _)
  have hsmall : (2 ^ 23 + m) / 2 ^ (v + 1) < 2 ^ 10 := by
    have hpow : 2 ^ 24 ≤ 2 ^ (10 + (v + 1)) := Nat.pow_le_pow_right (by decide) (by omega)
    rw [Nat.div_lt_iff_lt_mul (Nat.two_pow_pos _), ← pow_add]
    omega
  have hscale : 2 ^ (v + 1) * 2 ^ (e - 1) = 2 ^ 125 := by
    rw [← pow_add]
    congr 1
    omega
  have hx : units 23 (e * 2 ^ 23 + m) = units 10 ((2 ^ 23 + m) / 2 ^ (v + 1)) * 2 ^ 125 +
      (2 ^ 23 + m) % 2 ^ (v + 1) * 2 ^ (e - 1) := by
    have hsplit := Nat.div_add_mod (2 ^ 23 + m) (2 ^ (v + 1))
    rw [units_single_of_pos hm (by omega), units_of_lt hsmall, ← hscale, ← Nat.mul_assoc,
      ← Nat.add_mul, Nat.mul_comm _ (2 ^ (v + 1)), hsplit]
  have hgap : units 10 ((2 ^ 23 + m) / 2 ^ (v + 1) + 1) * 2 ^ 125 =
      units 10 ((2 ^ 23 + m) / 2 ^ (v + 1)) * 2 ^ 125 + 2 * 2 ^ v * 2 ^ (e - 1) := by
    rw [units_succ, Nat.div_eq_of_lt hsmall, Nat.zero_sub, Nat.pow_zero, Nat.add_mul,
      Nat.one_mul, ← pow_succ', hscale]
  obtain ⟨hdown, hup⟩ := near_split units_f16_mono hx hgap hlow
  have hbit := div_half (2 ^ 23 + m) v
  have hrest : (2 ^ 23 + m) % 2 ^ v < 2 ^ v := Nat.mod_lt _ (Nat.two_pow_pos _)
  rcases Nat.mod_two_eq_zero_or_one ((2 ^ 23 + m) / 2 ^ v) with hzero | hone
  · rw [hzero, Nat.mul_zero, Nat.add_zero] at hbit
    rw [hzero, Nat.add_zero]
    refine hdown ?_ k
    rw [hbit]
    exact hrest.le
  · rw [hone, Nat.mul_one] at hbit
    rw [hone]
    refine hup ?_ k
    rw [hbit]
    exact Nat.le_add_left _ _

/-- Up to half the least positive number, zero is nearest. -/
theorem near_zero {x : ℕ} (h : x ≤ 2 ^ 124) (k : ℕ) :
    |(x : ℤ) - (units 10 0 * 2 ^ 125 : ℕ)| ≤ |(x : ℤ) - (units 10 k * 2 ^ 125 : ℕ)| := by
  have hone : units 10 (0 + 1) = 1 := units_of_lt (by decide)
  have hzero : units 10 0 = 0 := units_zero 10
  refine near_lower (k := 0) units_f16_mono ?_ ?_ k
  · rw [hzero, Nat.zero_mul]
    exact Nat.zero_le x
  · have hdouble : 2 ^ 125 = 2 * 2 ^ 124 := by rw [← pow_succ']
    rw [hzero, hone, Nat.zero_mul, Nat.zero_add, Nat.one_mul, hdouble]
    exact Nat.mul_le_mul_left 2 h

/-- What is not in the range that is dropped gets a nearest magnitude. -/
theorem near_f16 (hm : m < 2 ^ 23) (hnan : e = 255 → m = 0)
    (hkept : 103 ≤ e ∨ units 23 (e * 2 ^ 23 + m) ≤ 2 ^ 124) (k : ℕ) (hk : k ≤ 31 * 2 ^ 10) :
    |(units 23 (e * 2 ^ 23 + m) : ℤ) - (units 10 (f16Magnitude e m) * 2 ^ 125 : ℕ)| ≤
      |(units 23 (e * 2 ^ 23 + m) : ℤ) - (units 10 k * 2 ^ 125 : ℕ)| := by
  by_cases hlarge : 143 ≤ e
  · have hmagnitude : f16Magnitude e m = 31 * 2 ^ 10 := by
      unfold f16Magnitude
      by_cases hspecial : e = 255
      · rw [if_pos hspecial, if_pos (hnan hspecial)]
        rfl
      · rw [if_neg hspecial, if_pos hlarge]
        rfl
    rw [hmagnitude]
    exact near_large hm hlarge k hk
  by_cases hnormal : 113 ≤ e
  · rw [f16Magnitude, if_neg (by omega), if_neg hlarge, if_pos hnormal]
    exact near_normal hm hnormal k
  by_cases hsubnormal : 103 ≤ e
  · rw [f16Magnitude, if_neg (by omega), if_neg hlarge, if_neg hnormal, if_pos hsubnormal]
    exact near_subnormal hm hsubnormal (by omega) k
  · rw [f16Magnitude_small (by omega)]
    exact near_zero (hkept.resolve_left hsubnormal) k

end NearestF16

section NearestBf16

/-- Rounding to the upper half, halfway cases to the even one. -/
theorem near_bf16 (x k : ℕ) :
    |(units 23 x : ℤ) - (units 7 (bf16Magnitude x) * 2 ^ 16 : ℕ)| ≤
      |(units 23 x : ℤ) - (units 7 k * 2 ^ 16 : ℕ)| := by
  have hmono : Monotone fun k => units 7 k * 2 ^ 16 :=
    fun _ _ h => Nat.mul_le_mul_right _ ((units_strictMono 7).monotone h)
  have hlow : x % 2 ^ 16 < 2 ^ 16 := Nat.mod_lt _ (by decide)
  have hx : units 23 x = units 7 (x / 2 ^ 16) * 2 ^ 16 +
      x % 2 ^ 16 * 2 ^ (x / 2 ^ 16 / 2 ^ 7 - 1) := by
    have hadd := units_add (p := 7) (h := x / 2 ^ 16) hlow
    rwa [Nat.mul_comm (x / 2 ^ 16), Nat.div_add_mod] at hadd
  have hgap : units 7 (x / 2 ^ 16 + 1) * 2 ^ 16 = units 7 (x / 2 ^ 16) * 2 ^ 16 +
      2 * 2 ^ 15 * 2 ^ (x / 2 ^ 16 / 2 ^ 7 - 1) := by
    rw [units_succ, Nat.add_mul, ← pow_succ' 2 15, Nat.mul_comm (2 ^ 16)]
  obtain ⟨hdown, hup⟩ := near_split hmono hx hgap hlow
  have hcases : (bf16Magnitude x = x / 2 ^ 16 + 1 ∧ 2 ^ 15 ≤ x % 2 ^ 16) ∨
      (bf16Magnitude x = x / 2 ^ 16 ∧ x % 2 ^ 16 ≤ 2 ^ 15) := by
    clear hx hgap hdown hup
    unfold bf16Magnitude
    omega
  rcases hcases with ⟨heq, hge⟩ | ⟨heq, hle⟩
  · rw [heq]
    exact hup hge k
  · rw [heq]
    exact hdown hle k

/-- The sum of `float_to_bf16_bits` by sign and magnitude. -/
theorem floatToBf16Bits_fields (value : UInt32) :
    (floatToBf16Bits value).toNat = (2 ^ 15 * (value.toNat / 2 ^ 31) +
      bf16Magnitude (value.toNat % 2 ^ 31)) % 2 ^ 16 := by
  have hsplit : value.toNat + (0x7fff + value.toNat / 2 ^ 16 % 2) =
      value.toNat % 2 ^ 31 + (0x7fff + value.toNat % 2 ^ 31 / 2 ^ 16 % 2) +
        2 ^ 15 * (value.toNat / 2 ^ 31) * 2 ^ 16 := by
    have hlast : value.toNat / 2 ^ 16 % 2 = value.toNat % 2 ^ 31 / 2 ^ 16 % 2 := by omega
    omega
  have hpow : 2 ^ 32 = 2 ^ 16 * 2 ^ 16 := by decide
  rw [floatToBf16Bits_toNat, bf16Magnitude, hsplit, hpow, Nat.mod_mul_left_div_self,
    Nat.add_mul_div_right _ _ (by decide), Nat.add_comm]

theorem bf16Magnitude_le {k : ℕ} (h : k ≤ 255 * 2 ^ 23) : bf16Magnitude k ≤ 255 * 2 ^ 7 := by
  unfold bf16Magnitude
  omega

end NearestBf16

section Conversions

variable {format : Format} {value : UInt32}

/-- A conversion that keeps the sign and takes the nearest magnitude. -/
theorem isNearest_of_magnitude {m s : ℕ} (hformat : format.signBit = 2 ^ 15)
    (hs : format.quantum = single.quantum + s) {bits : ℕ} (hm : m < 2 ^ 15)
    (hbits : bits = 2 ^ 15 * (value.toNat / 2 ^ 31) + m)
    (h : ∀ k, k ≤ format.infinity →
      |(units 23 (single.magnitude value.toNat) : ℤ) -
          (units format.fractionBits m * 2 ^ s : ℕ)| ≤
        |(units 23 (single.magnitude value.toNat) : ℤ) -
          (units format.fractionBits k * 2 ^ s : ℕ)|) :
    format.IsNearest (single.value value.toNat) bits := by
  obtain ⟨hmagnitude, hsign⟩ := signed_magnitude hformat value.toNat_lt hm
  subst hbits
  refine isNearest_of_units hs hsign ?_
  rw [hmagnitude]
  exact h

/-- The fields of a number. -/
theorem fraction_of_not_nan (h : ¬single.IsNaN value.toNat) :
    exponentField value = 255 → fractionField value = 0 := by
  intro hspecial
  by_contra hne
  exact h ((isNaN_iff value).mpr ⟨hspecial, hne⟩)

/-- The magnitude and the sign of a converted number, in the smaller format. -/
theorem f16_fields (h : ¬single.IsNaN value.toNat) :
    half.magnitude (floatToF16Bits value).toNat =
        f16Magnitude (exponentField value) (fractionField value) ∧
      (single.Negative value.toNat ↔ half.Negative (floatToF16Bits value).toNat) := by
  have hle := f16Magnitude_le (fractionField_lt value) (fraction_of_not_nan h)
  rw [floatToF16Bits_toNat]
  exact signed_magnitude rfl value.toNat_lt (by omega)

theorem bf16_toNat (h : ¬single.IsNaN value.toNat) :
    (floatToBf16Bits value).toNat = 2 ^ 15 * (value.toNat / 2 ^ 31) +
        bf16Magnitude (value.toNat % 2 ^ 31) ∧
      bf16Magnitude (value.toNat % 2 ^ 31) ≤ 255 * 2 ^ 7 := by
  have hlt := value.toNat_lt
  have hle := bf16Magnitude_le (Nat.not_lt.mp h)
  rw [magnitude_single] at hle
  rw [floatToBf16Bits_fields]
  omega

theorem bf16_fields (h : ¬single.IsNaN value.toNat) :
    bfloat.magnitude (floatToBf16Bits value).toNat = bf16Magnitude (value.toNat % 2 ^ 31) ∧
      (single.Negative value.toNat ↔ bfloat.Negative (floatToBf16Bits value).toNat) := by
  obtain ⟨heq, hle⟩ := bf16_toNat h
  rw [heq]
  exact signed_magnitude rfl value.toNat_lt (by omega)

/-- The numbers that are dropped, in units of the 32-bit format. -/
theorem lost_iff (value : UInt32) :
    Lost value ↔ 2 ^ 124 < units 23 (single.magnitude value.toNat) ∧
      units 23 (single.magnitude value.toNat) < 2 ^ 125 := by
  have hquantum : (0 : ℚ) < 2 ^ (-149 : ℤ) := zpow_pos (by norm_num) _
  have habs : |single.value value.toNat| =
      (units 23 (single.magnitude value.toNat) : ℚ) * 2 ^ (-149 : ℤ) := abs_value single _
  have hpower : ∀ n : ℕ, (2 : ℚ) ^ ((n : ℤ) - 149) = ((2 ^ n : ℕ) : ℚ) * 2 ^ (-149 : ℤ) := by
    intro n
    rw [sub_eq_add_neg, zpow_add₀ (by norm_num), zpow_natCast]
    push_cast
    rfl
  have hlow : (2 : ℚ) ^ (-25 : ℤ) = ((2 ^ 124 : ℕ) : ℚ) * 2 ^ (-149 : ℤ) := hpower 124
  have hhigh : (2 : ℚ) ^ (-24 : ℤ) = ((2 ^ 125 : ℕ) : ℚ) * 2 ^ (-149 : ℤ) := hpower 125
  rw [Lost, habs, hlow, hhigh, mul_lt_mul_iff_left₀ hquantum, mul_lt_mul_iff_left₀ hquantum,
    Nat.cast_lt, Nat.cast_lt]

theorem isNearest_f16 (h : ¬single.IsNaN value.toNat) (hkept : ¬Lost value) :
    half.IsNearest (single.value value.toNat) (floatToF16Bits value).toNat := by
  have hle := f16Magnitude_le (fractionField_lt value) (fraction_of_not_nan h)
  refine isNearest_of_magnitude (m := f16Magnitude (exponentField value) (fractionField value))
    rfl quantum_half (by omega) (floatToF16Bits_toNat value) ?_
  rw [magnitude_eq_fields]
  refine near_f16 (fractionField_lt value) (fraction_of_not_nan h) ?_
  rcases Nat.lt_or_ge (exponentField value) 103 with hsmall | hlarge
  · right
    rw [lost_iff, magnitude_eq_fields] at hkept
    exact Nat.not_lt.mp fun hgt => hkept ⟨hgt, (units_lt_iff (fractionField_lt value)).mpr hsmall⟩
  · exact Or.inl hlarge

theorem isNearest_bf16 (h : ¬single.IsNaN value.toNat) :
    bfloat.IsNearest (single.value value.toNat) (floatToBf16Bits value).toNat := by
  obtain ⟨heq, hle⟩ := bf16_toNat h
  refine isNearest_of_magnitude rfl quantum_bfloat (by omega) heq fun k _ => ?_
  exact near_bf16 _ k

end Conversions

section Converted

variable {format : Format} {convert : UInt32 → UInt16} {value : UInt32}

/-- `float_to_f16_bits` converts what it does not drop. -/
theorem converts_half (hkept : ¬Lost value) : Converts half value (floatToF16Bits value) where
  nan := by
    intro hnan
    obtain ⟨hspecial, hfraction⟩ := (isNaN_iff value).mp hnan
    have heq := floatToF16Bits_toNat value
    rw [f16Magnitude_nan hspecial hfraction] at heq
    have hfields := signed_magnitude (f := half) (m := 0x7e00) rfl value.toNat_lt (by decide)
    rw [Format.IsNaN, heq, hfields.1]
    decide
  number := by
    intro hnan
    have hle := f16Magnitude_le (fractionField_lt value) (fraction_of_not_nan hnan)
    rw [Format.IsNaN, (f16_fields hnan).1]
    exact Nat.not_lt.mpr hle
  sign := fun hnan => (f16_fields hnan).2
  infinite := by
    intro hinfinite
    have hmagnitude : exponentField value * 2 ^ 23 + fractionField value = 255 * 2 ^ 23 :=
      (magnitude_eq_fields value).symm.trans hinfinite
    have hfraction := fractionField_lt value
    have hspecial : exponentField value = 255 := by omega
    have hzero : fractionField value = 0 := by omega
    have hnan : ¬single.IsNaN value.toNat := fun hin => ((isNaN_iff value).mp hin).2 hzero
    rw [Format.IsInfinite, (f16_fields hnan).1, f16Magnitude, if_pos hspecial, if_pos hzero]
    rfl
  zero := by
    intro hzero
    have hmagnitude : exponentField value * 2 ^ 23 + fractionField value = 0 :=
      (magnitude_eq_fields value).symm.trans hzero
    have hexponent : exponentField value = 0 := by omega
    have hnan : ¬single.IsNaN value.toNat := by
      intro hin
      have hspecial := ((isNaN_iff value).mp hin).1
      omega
    rw [Format.IsZero, (f16_fields hnan).1, hexponent]
    exact f16Magnitude_small (by decide) _
  nearest := fun hnan => isNearest_f16 hnan hkept

/-- The payloads that are neither rounded to zero nor carried into the exponent. -/
theorem bf16Magnitude_nan {m : ℕ} (hm : m < 2 ^ 23) :
    255 * 2 ^ 7 < bf16Magnitude (255 * 2 ^ 23 + m) % 2 ^ 15 ↔
      2 ^ 15 < m ∧ m < 2 ^ 23 - 2 ^ 15 := by
  have hlast : (255 * 2 ^ 23 + m) / 2 ^ 16 % 2 = m / 2 ^ 16 % 2 := by omega
  have hsplit : 255 * 2 ^ 23 + m + (0x7fff + m / 2 ^ 16 % 2) =
      m + (0x7fff + m / 2 ^ 16 % 2) + 255 * 2 ^ 7 * 2 ^ 16 := by omega
  have hbit : m / 2 ^ 16 % 2 < 2 := Nat.mod_lt _ (by decide)
  obtain ⟨q, hq⟩ : ∃ n, n = (m + (0x7fff + m / 2 ^ 16 % 2)) / 2 ^ 16 := ⟨_, rfl⟩
  have hzero : 1 ≤ q ↔ 2 ^ 15 < m := by omega
  have hcarry : q ≤ 127 ↔ m < 2 ^ 23 - 2 ^ 15 := by omega
  have hle : q ≤ 128 := by omega
  rw [bf16Magnitude, hlast, hsplit, Nat.add_mul_div_right _ _ (by decide), ← hq, ← hzero, ← hcarry]
  clear hq hsplit hlast hbit
  omega

/-- The NaNs that the addition leaves NaNs. -/
theorem bf16_nan_iff (h : single.IsNaN value.toNat) :
    bfloat.IsNaN (floatToBf16Bits value).toNat ↔ PayloadKept value := by
  have hmagnitude : value.toNat % 2 ^ 31 = 255 * 2 ^ 23 + value.toNat % 2 ^ 23 := by
    have hspecial := ((isNaN_iff value).mp h).1
    unfold exponentField at hspecial
    omega
  have hsign : bfloat.signBit = 2 ^ 15 := rfl
  rw [Format.IsNaN, infinity_bfloat, Format.magnitude, hsign, floatToBf16Bits_fields, hmagnitude,
    Nat.mod_mod_of_dvd _ (by decide), Nat.mul_add_mod]
  exact bf16Magnitude_nan (Nat.mod_lt _ (by decide))

/-- `float_to_bf16_bits` converts every number, and the NaNs whose payload is kept. -/
theorem converts_bfloat (hkept : single.IsNaN value.toNat → PayloadKept value) :
    Converts bfloat value (floatToBf16Bits value) where
  nan := fun hnan => (bf16_nan_iff hnan).mpr (hkept hnan)
  number := by
    intro hnan
    have hle := bf16Magnitude_le (Nat.not_lt.mp hnan)
    rw [magnitude_single] at hle
    rw [Format.IsNaN, (bf16_fields hnan).1]
    exact Nat.not_lt.mpr hle
  sign := fun hnan => (bf16_fields hnan).2
  infinite := by
    intro hinfinite
    have hmagnitude : value.toNat % 2 ^ 31 = 255 * 2 ^ 23 := hinfinite
    have hnan : ¬single.IsNaN value.toNat := by
      rw [Format.IsNaN, magnitude_single, hmagnitude, infinity_single]
      exact Nat.lt_irrefl _
    rw [Format.IsInfinite, (bf16_fields hnan).1, hmagnitude]
    rfl
  zero := by
    intro hzero
    have hmagnitude : value.toNat % 2 ^ 31 = 0 := hzero
    have hnan : ¬single.IsNaN value.toNat := by
      rw [Format.IsNaN, magnitude_single, hmagnitude]
      exact Nat.not_lt_zero _
    rw [Format.IsZero, (bf16_fields hnan).1, hmagnitude]
    rfl
  nearest := fun hnan => isNearest_bf16 hnan

/-- Converted numbers are ordered. -/
theorem value_le_of_converts {x y : UInt32} (hx : Converts format x (convert x))
    (hy : Converts format y (convert y)) (hnx : ¬single.IsNaN x.toNat)
    (hny : ¬single.IsNaN y.toNat) (hle : single.value x.toNat ≤ single.value y.toNat) :
    format.value (convert x).toNat ≤ format.value (convert y).toNat := by
  rcases lt_or_eq_of_le hle with hlt | heq
  · exact value_le_of_isNearest hlt (hx.number hnx) (hy.number hny) (hx.nearest hnx)
      (hy.nearest hny)
  · rcases eq_or_zero_of_value_eq x.toNat_lt y.toNat_lt heq with hsame | ⟨hzx, hzy⟩
    · rw [UInt32.toNat_inj.mp hsame]
    · rw [value_of_zero (hx.zero hzx), value_of_zero (hy.zero hzy)]

/-- A converted number of the format is itself. -/
theorem eq_of_converts {bits : UInt16} (hformat : format.signBit = 2 ^ 15)
    (h : Converts format value (convert value)) (hnan : ¬single.IsNaN value.toNat)
    (hbits : ¬format.IsNaN bits.toNat) (hsign : single.Negative value.toNat ↔
      format.Negative bits.toNat) (heq : single.value value.toNat = format.value bits.toNat) :
    convert value = bits := by
  have hlt : ∀ r : UInt16, r.toNat < 2 * format.signBit := by
    intro r
    rw [hformat]
    exact r.toNat_lt
  have hnearest := h.nearest hnan
  rw [heq] at hnearest
  exact UInt16.toNat_inj.mp (eq_of_isNearest (hlt _) (hlt _) hbits
    ((h.sign hnan).symm.trans hsign) hnearest)

/-- Numbers below the least positive one are below the others. -/
theorem abs_value_lt {x y : UInt32} (hx : exponentField x < 103) (hy : 103 ≤ exponentField y) :
    |single.value x.toNat| < |single.value y.toNat| := by
  have hmagnitude : single.magnitude x.toNat < single.magnitude y.toNat := by
    have hfraction := fractionField_lt x
    rw [magnitude_eq_fields, magnitude_eq_fields]
    omega
  rw [abs_value, abs_value]
  refine mul_lt_mul_of_pos_right ?_ (quantum_pos single)
  exact Nat.cast_lt.mpr (units_strictMono _ hmagnitude)

theorem value_f16_small (h : exponentField value < 103) :
    half.value (floatToF16Bits value).toNat = 0 := by
  refine value_of_zero ?_
  have hnan : ¬single.IsNaN value.toNat := by
    intro hin
    have hspecial := ((isNaN_iff value).mp hin).1
    omega
  rw [Format.IsZero, (f16_fields hnan).1]
  exact f16Magnitude_small h _

theorem not_lost (h : 103 ≤ exponentField value) : ¬Lost value := by
  rw [lost_iff, magnitude_eq_fields, units_lt_iff (fractionField_lt value)]
  omega

theorem orderKept_f16 : OrderKept half floatToF16Bits := by
  intro x y hnx hny hle
  rcases Nat.lt_or_ge (exponentField x) 103 with hx | hx <;>
    rcases Nat.lt_or_ge (exponentField y) 103 with hy | hy
  · rw [value_f16_small hx, value_f16_small hy]
  · -- a dropped number is not above a negative one that is kept
    rw [value_f16_small hx]
    refine value_nonneg fun hneg => ?_
    have hbelow := value_nonpos ((f16_fields hny).2.mpr hneg)
    have habs := abs_value_lt hx hy
    rw [abs_of_nonpos hbelow] at habs
    have hlow := neg_abs_le (single.value x.toNat)
    linarith
  · rw [value_f16_small hy]
    by_cases hneg : single.Negative x.toNat
    · exact value_nonpos ((f16_fields hnx).2.mp hneg)
    · have habove := value_nonneg hneg
      have habs := abs_value_lt hy hx
      rw [abs_of_nonneg habove] at habs
      have hhigh := le_abs_self (single.value y.toNat)
      linarith
  · exact value_le_of_converts (converts_half (not_lost hx)) (converts_half (not_lost hy)) hnx hny
      hle

theorem representableKept_f16 : RepresentableKept half floatToF16Bits := by
  intro x bits hnan hbits hsign heq
  refine eq_of_converts rfl (converts_half fun hlost => ?_) hnan hbits hsign heq
  -- between zero and the least positive number there is none
  obtain ⟨hlow, hhigh⟩ := (lost_iff x).mp hlost
  have hunits : units 23 (single.magnitude x.toNat) =
      units 10 (half.magnitude bits.toNat) * 2 ^ 125 := by
    have habs := congrArg abs heq
    rw [value_eq 125 quantum_half, abs_value, abs_mul, abs_mul, abs_factor, one_mul, Nat.abs_cast,
      abs_of_pos (quantum_pos single)] at habs
    exact_mod_cast mul_right_cancel₀ (quantum_pos single).ne' habs
  rw [hunits] at hlow hhigh
  have hone : units 10 (half.magnitude bits.toNat) < 1 := by
    refine Nat.lt_of_mul_lt_mul_right (a := 2 ^ 125) ?_
    rwa [Nat.one_mul]
  rw [Nat.lt_one_iff.mp hone, Nat.zero_mul] at hlow
  exact Nat.not_lt_zero _ hlow

/-- A number that is dropped is nearer to the least positive one of its sign. -/
theorem not_isNearest_of_lost (h : Lost value) :
    ¬half.IsNearest (single.value value.toNat) (floatToF16Bits value).toNat := by
  intro hnearest
  obtain ⟨hlow, hhigh⟩ := (lost_iff value).mp h
  have hsmall : exponentField value < 103 := by
    rw [magnitude_eq_fields] at hhigh
    exact (units_lt_iff (fractionField_lt value)).mp hhigh
  have hnan : ¬single.IsNaN value.toNat := by
    intro hin
    have hspecial := ((isNaN_iff value).mp hin).1
    omega
  obtain ⟨hmagnitude, hsign⟩ := f16_fields hnan
  rw [f16Magnitude_small hsmall] at hmagnitude
  obtain ⟨hone, hsame⟩ := signed_magnitude (f := half) (m := 1) rfl value.toNat_lt (by decide)
  have hother : ¬half.IsNaN (2 ^ 15 * (value.toNat / 2 ^ 31) + 1) := by
    rw [Format.IsNaN, hone]
    decide
  have hdistance := units_of_isNearest quantum_half hsign hnearest hother hsame
  have hzero : units half.fractionBits 0 * 2 ^ 125 = 0 := by rw [units_zero, Nat.zero_mul]
  have hleast : units half.fractionBits 1 * 2 ^ 125 = 2 * 2 ^ 124 := by
    rw [units_of_lt (by decide), Nat.one_mul, ← pow_succ']
  have hdouble : 2 ^ 125 = 2 * 2 ^ 124 := by rw [← pow_succ']
  have hfraction : single.fractionBits = 23 := rfl
  rw [hmagnitude, hone, hzero, hleast, hfraction] at hdistance
  rw [hdouble] at hhigh
  obtain ⟨bound, hbound⟩ : ∃ n, n = 2 ^ 124 := ⟨_, rfl⟩
  rw [← hbound] at hdistance hlow hhigh
  rw [abs_of_nonneg (by omega), abs_of_nonpos (by omega)] at hdistance
  omega

/-- **The half-precision conversions.**  `float_to_f16_bits` is right exactly outside of the
two intervals that it drops, `float_to_bf16_bits` exactly on the numbers and on the NaNs whose
payload it keeps.  Both keep the order of the numbers and what the format represents. -/
theorem conversions_exact (value : UInt32) :
    (Converts half value (floatToF16Bits value) ↔ ¬Lost value) ∧
      (Converts bfloat value (floatToBf16Bits value) ↔
        (single.IsNaN value.toNat → PayloadKept value)) ∧
      (OrderKept half floatToF16Bits ∧ OrderKept bfloat floatToBf16Bits) ∧
      (RepresentableKept half floatToF16Bits ∧ RepresentableKept bfloat floatToBf16Bits) := by
  have hnumber : ∀ {x : UInt32}, ¬single.IsNaN x.toNat →
      Converts bfloat x (floatToBf16Bits x) :=
    fun hnan => converts_bfloat fun hin => absurd hin hnan
  refine ⟨⟨fun h hlost => ?_, converts_half⟩,
    ⟨fun h hnan => (bf16_nan_iff hnan).mp (h.nan hnan), converts_bfloat⟩,
    ⟨orderKept_f16, ?_⟩, ⟨representableKept_f16, ?_⟩⟩
  · have hnan : ¬single.IsNaN value.toNat := by
      intro hin
      have hspecial := ((isNaN_iff value).mp hin).1
      exact not_lost (by omega) hlost
    exact not_isNearest_of_lost hlost (h.nearest hnan)
  · intro x y hnx hny hle
    exact value_le_of_converts (hnumber hnx) (hnumber hny) hnx hny hle
  · intro x bits hnan hbits hsign heq
    exact eq_of_converts rfl (hnumber hnan) hnan hbits hsign heq

/-- Three quarters of the least positive number become zero, and a NaN becomes the infinity. -/
theorem conversions_slip :
    (floatToF16Bits 0x33400000 = 0 ∧ ¬Converts half 0x33400000 (floatToF16Bits 0x33400000)) ∧
      (floatToBf16Bits 0x7f800001 = 0x7f80 ∧
        ¬Converts bfloat 0x7f800001 (floatToBf16Bits 0x7f800001)) := by
  have hlost : Lost 0x33400000 := (lost_iff _).mpr (by decide +kernel)
  refine ⟨⟨by decide, fun h => ?_⟩, by decide, fun h => ?_⟩
  · exact not_isNearest_of_lost hlost (h.nearest (by decide))
  · have hnan := (bf16_nan_iff (by decide)).mp (h.nan (by decide))
    exact absurd hnan.1 (by decide)

end Converted

end Pth
end RwkvLightning

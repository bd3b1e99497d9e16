import Mathlib.Algebra.Order.Field.Basic
import Mathlib.Algebra.Order.Field.Power
import Mathlib.Data.Rat.Defs
import Mathlib.Tactic

/-!
# Binary floating-point formats

A format has a sign bit over an exponent field over a fraction field.  A pattern is a natural
number, and its magnitude is what is left of it without the sign bit.

**Values.**  `units` counts a magnitude in multiples of the least positive number.  It is
strictly increasing, so the magnitudes are ordered like their values.  The infinity counts
as the power of two behind the largest number: this is the value that it would have with a
larger exponent, and the one that rounding compares with.

**Results.**
* `units_add`: a format with more bits in its fraction has the same numbers and more.
* `near_lower`, `near_upper`: which of two neighbours is nearest.
* `isNearest_of_units`, `units_of_isNearest`: nearest in units is nearest in value.
* `value_le_of_isNearest`: rounding to a nearest number is monotone, whatever it does with ties.
* `eq_of_isNearest`: a number of the format is its own nearest one.
-/

namespace RwkvLightning
namespace BinaryFormat

/-- The widths of the exponent and of the fraction. -/
structure Format where
  exponentBits : ℕ
  fractionBits : ℕ
deriving DecidableEq, Repr

/-- The weight of the sign bit. -/
def Format.signBit (f : Format) : ℕ := 2 ^ (f.exponentBits + f.fractionBits)

/-- The magnitude of the infinities. -/
def Format.infinity (f : Format) : ℕ := (2 ^ f.exponentBits - 1) * 2 ^ f.fractionBits

/-- The pattern without its sign bit. -/
def Format.magnitude (f : Format) (pattern : ℕ) : ℕ := pattern % f.signBit

def Format.Negative (f : Format) (pattern : ℕ) : Prop := f.signBit ≤ pattern

def Format.IsNaN (f : Format) (pattern : ℕ) : Prop := f.infinity < f.magnitude pattern

def Format.IsInfinite (f : Format) (pattern : ℕ) : Prop := f.magnitude pattern = f.infinity

def Format.IsZero (f : Format) (pattern : ℕ) : Prop := f.magnitude pattern = 0

instance (f : Format) (pattern : ℕ) : Decidable (f.Negative pattern) :=
  inferInstanceAs (Decidable (_ ≤ _))

instance (f : Format) (pattern : ℕ) : Decidable (f.IsNaN pattern) :=
  inferInstanceAs (Decidable (_ < _))

/-- A magnitude in multiples of the least positive number. -/
def units (fractionBits magnitude : ℕ) : ℕ :=
  if magnitude < 2 ^ fractionBits then magnitude
  else (2 ^ fractionBits + magnitude % 2 ^ fractionBits) *
    2 ^ (magnitude / 2 ^ fractionBits - 1)

/-- The exponent of the least positive number. -/
def Format.quantum (f : Format) : ℤ := 2 - 2 ^ (f.exponentBits - 1) - f.fractionBits

/-- The sign of a pattern as a factor. -/
def Format.factor (f : Format) (pattern : ℕ) : ℚ := if f.Negative pattern then -1 else 1

/-- The value of a pattern that is no NaN. -/
def Format.value (f : Format) (pattern : ℕ) : ℚ :=
  f.factor pattern * units f.fractionBits (f.magnitude pattern) * 2 ^ f.quantum

/-- No value of the format is nearer to a number. -/
def Format.IsNearest (f : Format) (x : ℚ) (pattern : ℕ) : Prop :=
  ∀ other, ¬f.IsNaN other → |x - f.value pattern| ≤ |x - f.value other|

section Units

variable {p : ℕ}

theorem units_of_lt {k : ℕ} (h : k < 2 ^ p) : units p k = k := if_pos h

theorem units_of_le {k : ℕ} (h : 2 ^ p ≤ k) :
    units p k = (2 ^ p + k % 2 ^ p) * 2 ^ (k / 2 ^ p - 1) := if_neg (Nat.not_lt.mpr h)

/-- A number by its exponent field and its fraction field. -/
theorem units_fields {e r : ℕ} (hr : r < 2 ^ p) :
    units p ((e + 1) * 2 ^ p + r) = (2 ^ p + r) * 2 ^ e := by
  have hpos : 0 < 2 ^ p := Nat.two_pow_pos p
  have hle : 2 ^ p ≤ (e + 1) * 2 ^ p + r := by nlinarith
  have hdiv : ((e + 1) * 2 ^ p + r) / 2 ^ p = e + 1 := by
    rw [Nat.add_comm, Nat.add_mul_div_right _ _ hpos, Nat.div_eq_of_lt hr, Nat.zero_add]
  have hmod : ((e + 1) * 2 ^ p + r) % 2 ^ p = r := by
    rw [Nat.add_comm, Nat.add_mul_mod_self_right, Nat.mod_eq_of_lt hr]
  rw [units_of_le hle, hdiv, hmod, Nat.add_sub_cancel]

/-- Every magnitude is below the normal numbers or has two fields. -/
theorem small_or_fields (p k : ℕ) :
    k < 2 ^ p ∨ ∃ e r, r < 2 ^ p ∧ k = (e + 1) * 2 ^ p + r := by
  by_cases h : k < 2 ^ p
  · exact Or.inl h
  · right
    have hpos : 0 < 2 ^ p := Nat.two_pow_pos p
    have hone : 1 ≤ k / 2 ^ p := (Nat.one_le_div_iff hpos).mpr (Nat.not_lt.mp h)
    refine ⟨k / 2 ^ p - 1, k % 2 ^ p, Nat.mod_lt _ hpos, ?_⟩
    rw [Nat.sub_add_cancel hone, Nat.mul_comm]
    exact (Nat.div_add_mod k (2 ^ p)).symm

/-- The distance of neighbours. -/
theorem units_succ (p k : ℕ) : units p (k + 1) = units p k + 2 ^ (k / 2 ^ p - 1) := by
  have hpos : 0 < 2 ^ p := Nat.two_pow_pos p
  rcases small_or_fields p k with hsmall | ⟨e, r, hr, rfl⟩
  · rw [units_of_lt hsmall, Nat.div_eq_of_lt hsmall, Nat.zero_sub, Nat.pow_zero]
    rcases Nat.lt_or_ge (k + 1) (2 ^ p) with hnext | hnext
    · exact units_of_lt hnext
    · -- the first normal number
      have hk : k + 1 = (0 + 1) * 2 ^ p + 0 := by omega
      rw [hk, units_fields hpos]
      omega
  · have hdiv : ((e + 1) * 2 ^ p + r) / 2 ^ p = e + 1 := by
      rw [Nat.add_comm, Nat.add_mul_div_right _ _ hpos, Nat.div_eq_of_lt hr, Nat.zero_add]
    rw [hdiv, Nat.add_sub_cancel, units_fields hr]
    rcases Nat.lt_or_ge (r + 1) (2 ^ p) with hnext | hnext
    · rw [Nat.add_assoc, units_fields hnext]
      ring
    · -- the carry into the exponent
      have hrp : r + 1 = 2 ^ p := by omega
      have hk : (e + 1) * 2 ^ p + r + 1 = (e + 1 + 1) * 2 ^ p + 0 := by
        rw [Nat.add_assoc, hrp]
        ring
      rw [hk, units_fields hpos, pow_succ]
      have hsum : 2 ^ p + r = 2 * 2 ^ p - 1 := by omega
      have hle : 1 ≤ 2 * 2 ^ p := by omega
      rw [hsum, Nat.sub_mul]
      have hge : 1 * 2 ^ e ≤ 2 * 2 ^ p * 2 ^ e := Nat.mul_le_mul_right _ hle
      rw [Nat.add_zero, one_mul] at *
      rw [Nat.sub_add_cancel hge]
      ring

theorem units_strictMono (p : ℕ) : StrictMono (units p) := by
  refine strictMono_nat_of_lt_succ fun k => ?_
  rw [units_succ]
  exact Nat.lt_add_of_pos_right (Nat.two_pow_pos _)

theorem units_zero (p : ℕ) : units p 0 = 0 := units_of_lt (Nat.two_pow_pos p)

/-- A pattern with `d` more bits in its fraction lies that far behind the shorter one. -/
theorem units_add {d h low : ℕ} (hlow : low < 2 ^ d) :
    units (p + d) (h * 2 ^ d + low) = units p h * 2 ^ d + low * 2 ^ (h / 2 ^ p - 1) := by
  have hd : 0 < 2 ^ d := Nat.two_pow_pos d
  rcases small_or_fields p h with hsmall | ⟨e, r, hr, rfl⟩
  · have hlt : h * 2 ^ d + low < 2 ^ (p + d) := by
      rw [pow_add]
      nlinarith
    rw [units_of_lt hlt, units_of_lt hsmall, Nat.div_eq_of_lt hsmall, Nat.zero_sub,
      Nat.pow_zero, Nat.mul_one]
  · have hdiv : ((e + 1) * 2 ^ p + r) / 2 ^ p = e + 1 := by
      rw [Nat.add_comm, Nat.add_mul_div_right _ _ (Nat.two_pow_pos p), Nat.div_eq_of_lt hr,
        Nat.zero_add]
    have hfields : ((e + 1) * 2 ^ p + r) * 2 ^ d + low =
        (e + 1) * 2 ^ (p + d) + (r * 2 ^ d + low) := by
      rw [pow_add]
      ring
    have hlt : r * 2 ^ d + low < 2 ^ (p + d) := by
      rw [pow_add]
      nlinarith
    rw [hfields, units_fields hlt, units_fields hr, hdiv, Nat.add_sub_cancel, pow_add]
    ring

/-- The normal numbers further up are larger by a power of two. -/
theorem units_shift {k : ℕ} (h : 2 ^ p ≤ k) (n : ℕ) :
    units p (k + n * 2 ^ p) = units p k * 2 ^ n := by
  rcases small_or_fields p k with hsmall | ⟨e, r, hr, rfl⟩
  · omega
  · have hfields : (e + 1) * 2 ^ p + r + n * 2 ^ p = (e + n + 1) * 2 ^ p + r := by ring
    rw [hfields, units_fields hr, units_fields hr, pow_add]
    ring

end Units

section Nearest

variable {u : ℕ → ℕ} {k x : ℕ}

/-- Up to the middle, the lower of two neighbours is nearest. -/
theorem near_lower (hu : Monotone u) (hlow : u k ≤ x) (hhalf : 2 * x ≤ u k + u (k + 1))
    (j : ℕ) : |(x : ℤ) - u k| ≤ |(x : ℤ) - u j| := by
  rcases Nat.lt_or_ge k j with hj | hj
  · have hnext : u (k + 1) ≤ u j := hu (Nat.succ_le_of_lt hj)
    rw [abs_of_nonneg (by omega), abs_of_nonpos (by omega)]
    omega
  · have hbelow := hu hj
    rw [abs_of_nonneg (by omega), abs_of_nonneg (by omega)]
    omega

/-- From the middle on, the upper one is. -/
theorem near_upper (hu : Monotone u) (hhigh : x ≤ u (k + 1)) (hhalf : u k + u (k + 1) ≤ 2 * x)
    (j : ℕ) : |(x : ℤ) - u (k + 1)| ≤ |(x : ℤ) - u j| := by
  rcases Nat.lt_or_ge k j with hj | hj
  · have hnext : u (k + 1) ≤ u j := hu (Nat.succ_le_of_lt hj)
    rw [abs_of_nonpos (by omega), abs_of_nonpos (by omega)]
    omega
  · have hbelow := hu hj
    rw [abs_of_nonpos (by omega), abs_of_nonneg (by omega)]
    omega

/-- Between two neighbours that are `2 * half` steps apart. -/
theorem near_split (hu : Monotone u) {low half step : ℕ} (hx : x = u k + low * step)
    (hgap : u (k + 1) = u k + 2 * half * step) (hlow : low < 2 * half) :
    (low ≤ half → ∀ j, |(x : ℤ) - u k| ≤ |(x : ℤ) - u j|) ∧
      (half ≤ low → ∀ j, |(x : ℤ) - u (k + 1)| ≤ |(x : ℤ) - u j|) := by
  have htotal : low * step ≤ 2 * half * step := Nat.mul_le_mul_right _ hlow.le
  constructor
  · intro hle
    have hhalf := Nat.mul_le_mul_right step hle
    exact near_lower hu (by omega) (by rw [hgap, hx, Nat.mul_assoc]; omega)
  · intro hge
    have hhalf := Nat.mul_le_mul_right step hge
    exact near_upper hu (by omega) (by rw [hgap, hx, Nat.mul_assoc]; omega)

end Nearest

section Values

variable {f g : Format} {x r : ℕ}

theorem quantum_pos (f : Format) : (0 : ℚ) < 2 ^ f.quantum := zpow_pos (by norm_num) _

theorem factor_cases (f : Format) (x : ℕ) : f.factor x = 1 ∨ f.factor x = -1 := by
  unfold Format.factor
  split
  · exact Or.inr rfl
  · exact Or.inl rfl

theorem abs_factor (f : Format) (x : ℕ) : |f.factor x| = 1 := by
  rcases factor_cases f x with h | h <;> rw [h] <;> norm_num

theorem abs_value (f : Format) (x : ℕ) :
    |f.value x| = units f.fractionBits (f.magnitude x) * 2 ^ f.quantum := by
  rw [Format.value, abs_mul, abs_mul, abs_factor, one_mul, Nat.abs_cast,
    abs_of_pos (quantum_pos f)]

theorem value_of_zero (h : f.IsZero x) : f.value x = 0 := by
  have hmagnitude : f.magnitude x = 0 := h
  rw [Format.value, hmagnitude, units_zero, Nat.cast_zero, mul_zero, zero_mul]

theorem value_nonneg (h : ¬f.Negative x) : 0 ≤ f.value x := by
  rw [Format.value, Format.factor, if_neg h, one_mul]
  exact mul_nonneg (Nat.cast_nonneg _) (quantum_pos f).le

theorem value_nonpos (h : f.Negative x) : f.value x ≤ 0 := by
  rw [Format.value, Format.factor, if_pos h, neg_one_mul, neg_mul]
  exact neg_nonpos.mpr (mul_nonneg (Nat.cast_nonneg _) (quantum_pos f).le)

/-- The value of a pattern in multiples of the quantum of another format. -/
theorem value_eq (s : ℕ) (hs : g.quantum = f.quantum + s) (r : ℕ) :
    g.value r =
      g.factor r * ((units g.fractionBits (g.magnitude r) * 2 ^ s : ℕ) : ℚ) * 2 ^ f.quantum := by
  rw [Format.value, hs, zpow_add₀ (by norm_num), zpow_natCast]
  push_cast
  ring

/-- Distances on one side of zero. -/
theorem abs_sub_same {t a b c : ℚ} (ht : |t| = 1) (hc : 0 < c) :
    |t * a * c - t * b * c| = |a - b| * c := by
  have heq : t * a * c - t * b * c = t * (a - b) * c := by ring
  rw [heq, abs_mul, abs_mul, ht, one_mul, abs_of_pos hc]

/-- A number is not nearer to the other side of zero. -/
theorem abs_sub_le_opposite {a b c t : ℚ} (ht : |t| = 1) (ha : 0 ≤ a) (hb : 0 ≤ b)
    (hc : 0 < c) : |a - 0| * c ≤ |t * a * c - -t * b * c| := by
  have heq : t * a * c - -t * b * c = t * (a + b) * c := by ring
  rw [heq, abs_mul, abs_mul, ht, one_mul, abs_of_pos hc, sub_zero, abs_of_nonneg ha,
    abs_of_nonneg (add_nonneg ha hb)]
  exact mul_le_mul_of_nonneg_right (le_add_of_nonneg_right hb) hc.le

theorem factor_eq (h : f.Negative x ↔ g.Negative r) : f.factor x = g.factor r := by
  unfold Format.factor
  simp only [h]

/-- Nearest in units of a finer format, on the same side of zero, is nearest in value. -/
theorem isNearest_of_units {s : ℕ} (hs : g.quantum = f.quantum + s)
    (hsign : f.Negative x ↔ g.Negative r)
    (h : ∀ k, k ≤ g.infinity →
      |(units f.fractionBits (f.magnitude x) : ℤ) -
          (units g.fractionBits (g.magnitude r) * 2 ^ s : ℕ)| ≤
        |(units f.fractionBits (f.magnitude x) : ℤ) - (units g.fractionBits k * 2 ^ s : ℕ)|) :
    g.IsNearest (f.value x) r := by
  intro other hother
  have hq := quantum_pos f
  have ht := abs_factor f x
  have hcast : ∀ k, k ≤ g.infinity →
      |(units f.fractionBits (f.magnitude x) : ℚ) -
          (units g.fractionBits (g.magnitude r) * 2 ^ s : ℕ)| ≤
        |(units f.fractionBits (f.magnitude x) : ℚ) - (units g.fractionBits k * 2 ^ s : ℕ)| := by
    intro k hk
    exact_mod_cast h k hk
  rw [value_eq s hs r, value_eq s hs other, ← factor_eq hsign, Format.value]
  rw [abs_sub_same ht hq]
  have hcases : g.factor other = f.factor x ∨ g.factor other = -f.factor x := by
    rcases factor_cases g other with h1 | h1 <;> rcases factor_cases f x with h2 | h2 <;>
      simp [h1, h2]
  rcases hcases with hsame | hopposite
  · rw [hsame, abs_sub_same ht hq]
    exact mul_le_mul_of_nonneg_right (hcast _ (Nat.not_lt.mp hother)) hq.le
  · rw [hopposite]
    refine le_trans ?_ (abs_sub_le_opposite ht (Nat.cast_nonneg _) (Nat.cast_nonneg _) hq)
    have hzero := hcast 0 (Nat.zero_le _)
    rw [units_zero, Nat.zero_mul, Nat.cast_zero] at hzero
    exact mul_le_mul_of_nonneg_right hzero hq.le

/-- What is nearest in value is not further in units than a number of the same sign. -/
theorem units_of_isNearest {s other : ℕ} (hs : g.quantum = f.quantum + s)
    (hsign : f.Negative x ↔ g.Negative r) (h : g.IsNearest (f.value x) r)
    (hother : ¬g.IsNaN other) (hsame : f.Negative x ↔ g.Negative other) :
    |(units f.fractionBits (f.magnitude x) : ℤ) -
        (units g.fractionBits (g.magnitude r) * 2 ^ s : ℕ)| ≤
      |(units f.fractionBits (f.magnitude x) : ℤ) -
        (units g.fractionBits (g.magnitude other) * 2 ^ s : ℕ)| := by
  have hq := quantum_pos f
  have ht := abs_factor f x
  have hdistance := h other hother
  rw [value_eq s hs r, value_eq s hs other, ← factor_eq hsign, ← factor_eq hsame, Format.value,
    abs_sub_same ht hq, abs_sub_same ht hq] at hdistance
  have hrat := le_of_mul_le_mul_right hdistance hq
  exact_mod_cast hrat

/-- Rounding to a nearest number is monotone. -/
theorem value_le_of_isNearest {a b : ℚ} {r r' : ℕ} (hlt : a < b) (hr : ¬g.IsNaN r)
    (hr' : ¬g.IsNaN r') (h : g.IsNearest a r) (h' : g.IsNearest b r') :
    g.value r ≤ g.value r' := by
  by_contra hgt
  rw [not_le] at hgt
  have hleft := h r' hr'
  have hright := h' r hr
  -- the middle between the two is not above `a` and not below `b`
  have ha : g.value r' + g.value r ≤ 2 * a := by
    rcases abs_cases (a - g.value r) with ⟨h1, h2⟩ | ⟨h1, h2⟩ <;>
      rcases abs_cases (a - g.value r') with ⟨h3, h4⟩ | ⟨h3, h4⟩ <;> linarith
  have hb : 2 * b ≤ g.value r' + g.value r := by
    rcases abs_cases (b - g.value r) with ⟨h1, h2⟩ | ⟨h1, h2⟩ <;>
      rcases abs_cases (b - g.value r') with ⟨h3, h4⟩ | ⟨h3, h4⟩ <;> linarith
  linarith

/-- Patterns of one sign with one value are the same. -/
theorem eq_of_value_eq {r r' : ℕ} (hr : r < 2 * g.signBit) (hr' : r' < 2 * g.signBit)
    (hsign : g.Negative r ↔ g.Negative r') (h : g.value r = g.value r') : r = r' := by
  have hunits : units g.fractionBits (g.magnitude r) =
      units g.fractionBits (g.magnitude r') := by
    have habs := congrArg abs h
    rw [abs_value, abs_value] at habs
    exact_mod_cast mul_right_cancel₀ (quantum_pos g).ne' habs
  have hmagnitude := (units_strictMono g.fractionBits).injective hunits
  unfold Format.magnitude at hmagnitude
  unfold Format.Negative at hsign
  by_cases hneg : g.signBit ≤ r
  · have hneg' := hsign.mp hneg
    have hsub : ∀ n, g.signBit ≤ n → n < 2 * g.signBit → n % g.signBit = n - g.signBit := by
      intro n hle hlt
      rw [Nat.mod_eq_sub_mod hle, Nat.mod_eq_of_lt (by omega)]
    rw [hsub r hneg hr, hsub r' hneg' hr'] at hmagnitude
    omega
  · have hneg' : ¬g.signBit ≤ r' := fun hle => hneg (hsign.mpr hle)
    rwa [Nat.mod_eq_of_lt (by omega), Nat.mod_eq_of_lt (by omega)] at hmagnitude

/-- Only the two zeros have one value and two signs. -/
theorem eq_or_zero_of_value_eq {r r' : ℕ} (hr : r < 2 * g.signBit) (hr' : r' < 2 * g.signBit)
    (h : g.value r = g.value r') : r = r' ∨ (g.IsZero r ∧ g.IsZero r') := by
  by_cases hsign : g.Negative r ↔ g.Negative r'
  · exact Or.inl (eq_of_value_eq hr hr' hsign h)
  · right
    have hq := (quantum_pos g).ne'
    have hopposite : g.factor r' = -g.factor r := by
      unfold Format.factor
      by_cases hneg : g.Negative r <;> by_cases hneg' : g.Negative r' <;> simp_all
    have hfactor : g.factor r ≠ 0 := by
      rcases factor_cases g r with hone | hone <;> rw [hone] <;> norm_num
    rw [Format.value, Format.value, hopposite] at h
    have hsum : (units g.fractionBits (g.magnitude r) : ℚ) +
        units g.fractionBits (g.magnitude r') = 0 := by
      have hcancel := mul_right_cancel₀ hq h
      have hzero : g.factor r * ((units g.fractionBits (g.magnitude r) : ℚ) +
          units g.fractionBits (g.magnitude r')) = 0 := by linarith
      exact (mul_eq_zero.mp hzero).resolve_left hfactor
    have hnat : units g.fractionBits (g.magnitude r) +
        units g.fractionBits (g.magnitude r') = 0 := by exact_mod_cast hsum
    have hpositive : ∀ k, units g.fractionBits k = 0 → k = 0 := by
      intro k hk
      exact (units_strictMono g.fractionBits).injective (hk.trans (units_zero _).symm)
    exact ⟨hpositive _ (by omega), hpositive _ (by omega)⟩

/-- A number of the format is its own nearest one. -/
theorem eq_of_isNearest {r r' : ℕ} (hr : r < 2 * g.signBit) (hr' : r' < 2 * g.signBit)
    (hnan : ¬g.IsNaN r') (hsign : g.Negative r ↔ g.Negative r')
    (h : g.IsNearest (g.value r') r) : r = r' := by
  have hdistance := h r' hnan
  rw [sub_self, abs_zero] at hdistance
  have hzero := abs_nonpos_iff.mp hdistance
  exact eq_of_value_eq hr hr' hsign (sub_eq_zero.mp hzero).symm

end Values

end BinaryFormat
end RwkvLightning

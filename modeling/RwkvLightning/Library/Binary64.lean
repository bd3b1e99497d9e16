import Mathlib.Data.Int.Log
import Mathlib.Algebra.Order.Round
import Mathlib.Tactic

/-!
# Rounding to double precision

The 64-bit format with 53 bits of precision, rounding to the nearest, ties to even.  A
finite double is the rational number that it stands for.

**Results.**  `nearest_intCast`: integers up to `2 ^ 53` are doubles.
-/

namespace RwkvLightning
namespace Binary64

/-- The finite doubles and the two infinities. -/
abbrev Value := WithBot (WithTop ℚ)

/-- The exponent of the binade of a number; the subnormal numbers share the least one. -/
def exponent (x : ℚ) : ℤ :=
  max (Int.log 2 |x|) (-1022)

/-- The distance of neighbouring doubles in the binade of a number. -/
def ulp (x : ℚ) : ℚ :=
  2 ^ (exponent x - 52)

/-- The nearest integer, the even one of two. -/
def nearestEven (x : ℚ) : ℤ :=
  if Int.fract x < 1 / 2 ∨ (Int.fract x = 1 / 2 ∧ ⌊x⌋ % 2 = 0) then ⌊x⌋ else ⌊x⌋ + 1

/-- Rounding without a bound on the exponent. -/
def nearest (x : ℚ) : ℚ :=
  nearestEven (x / ulp x) * ulp x

/-- Rounding; beyond the largest exponent it gives an infinity. -/
def ofRat (x : ℚ) : Value :=
  if exponent (nearest x) ≤ 1023 then ((nearest x : WithTop ℚ) : Value)
  else if x < 0 then ⊥
  else ⊤

/-- The quotient of an integer, converted first, and a double. -/
def quotient (n : ℤ) (x : ℚ) : Value :=
  ofRat (nearest n / x)

theorem nearestEven_intCast (n : ℤ) : nearestEven n = n := by
  rw [nearestEven, if_pos (Or.inl (by simp)), Int.floor_intCast]

/-- Multiples of the distance of neighbours are doubles. -/
theorem nearest_of_multiple {x : ℚ} {n : ℤ} (h : x = n * ulp x) : nearest x = x := by
  have hulp : ulp x ≠ 0 := zpow_ne_zero _ (by norm_num)
  have hquotient : x / ulp x = n := by
    rw [div_eq_iff hulp]
    exact h
  rw [nearest, hquotient, nearestEven_intCast]
  exact h.symm

theorem exponent_intCast {n : ℤ} : exponent n = Nat.log 2 n.natAbs := by
  have habs : |(n : ℚ)| = (n.natAbs : ℚ) := by
    rw [Nat.cast_natAbs, Int.cast_abs]
  rw [exponent, habs, Int.log_natCast]
  omega

/-- Integers up to `2 ^ 53` are doubles. -/
theorem nearest_intCast {n : ℤ} (hn : n.natAbs ≤ 2 ^ 53) : nearest n = n := by
  by_cases hsmall : n.natAbs < 2 ^ 53
  · have hlog : Nat.log 2 n.natAbs ≤ 52 := by
      by_contra hlarge
      have hne : n.natAbs ≠ 0 := by
        intro hzero
        rw [hzero] at hlarge
        exact hlarge (by decide)
      exact absurd (Nat.pow_le_of_le_log hne (not_le.mp hlarge)) (not_le.mpr hsmall)
    refine nearest_of_multiple (n := n * 2 ^ (52 - Nat.log 2 n.natAbs)) ?_
    have hshift : ((52 - Nat.log 2 n.natAbs : ℕ) : ℤ) = 52 - Nat.log 2 n.natAbs := by omega
    rw [ulp, exponent_intCast, Int.cast_mul, Int.cast_pow, mul_assoc, ← zpow_natCast, hshift,
      Int.cast_two, ← zpow_add₀ (by norm_num)]
    simp
  · -- only the two powers are left
    have heq : n.natAbs = 2 ^ 53 := by omega
    have hlog : Nat.log 2 n.natAbs = 53 := by rw [heq, Nat.log_pow (by decide)]
    refine nearest_of_multiple (n := n / 2) ?_
    have hhalf : (n : ℚ) = ((n / 2 : ℤ) : ℚ) * 2 := by
      have hdiv : n = n / 2 * 2 := by omega
      exact_mod_cast congrArg (Int.cast (R := ℚ)) hdiv
    rw [ulp, exponent_intCast, hlog]
    norm_num
    exact hhalf

end Binary64
end RwkvLightning

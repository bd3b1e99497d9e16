import Mathlib.Tactic.Ring
import Mathlib.Data.List.Basic

/-!
# Little-endian numbers in a byte string

`encode k n` is `n` in `k` bytes, least significant first, and `field bytes i k` is
the number in the `k` bytes from position `i` on.

**Results.**  `decode_encode`, `encode_decode`: the two are inverse up to the bits above
the `k` bytes.  `field_add`: a field in two parts.  `field_slice`, `slice_slice`: a field or a slice of a slice is one of
the whole.
-/

namespace RwkvLightning
namespace LittleEndian

/-- The number `n` in `k` bytes. -/
def encode : Nat → Nat → List UInt8
  | 0, _ => []
  | k + 1, n => UInt8.ofNat n :: encode k (n / 256)

/-- The number in a byte string. -/
def decode : List UInt8 → Nat
  | [] => 0
  | byte :: bytes => byte.toNat + 256 * decode bytes

/-- The number in the `k` bytes from position `i` on. -/
def field (bytes : List UInt8) (i k : Nat) : Nat :=
  decode ((bytes.drop i).take k)

/-- The `size` bytes from position `i` on. -/
def slice (bytes : List UInt8) (i size : Nat) : List UInt8 :=
  (bytes.drop i).take size

variable {bytes : List UInt8} {i k n : Nat}

@[simp] theorem length_encode : (encode k n).length = k := by
  induction k generalizing n with
  | zero => rfl
  | succ k ih => rw [encode, List.length_cons, ih]

theorem decode_encode : decode (encode k n) = n % 256 ^ k := by
  induction k generalizing n with
  | zero => simp [encode, decode, Nat.mod_one]
  | succ k ih =>
      have hbyte : (UInt8.ofNat n).toNat = n % 256 := by simp
      rw [encode, decode, ih, hbyte, Nat.pow_succ', Nat.mod_mul]

theorem encode_decode (bytes : List UInt8) : encode bytes.length (decode bytes) = bytes := by
  induction bytes with
  | nil => rfl
  | cons byte bytes ih =>
      have hbyte := byte.toNat_lt
      have hdiv : (byte.toNat + 256 * decode bytes) / 256 = decode bytes := by omega
      have hmod : UInt8.ofNat (byte.toNat + 256 * decode bytes) = byte := by
        rw [← UInt8.toNat_inj, UInt8.toNat_ofNat']
        omega
      rw [List.length_cons, decode, encode, hdiv, hmod, ih]

theorem decode_lt (bytes : List UInt8) : decode bytes < 256 ^ bytes.length := by
  induction bytes with
  | nil => simp [decode]
  | cons byte bytes ih =>
      have hbyte := byte.toNat_lt
      rw [decode, List.length_cons, Nat.pow_succ']
      omega

theorem field_lt (bytes : List UInt8) (i k : Nat) : field bytes i k < 256 ^ k := by
  refine lt_of_lt_of_le (decode_lt _) (Nat.pow_le_pow_right (by omega) ?_)
  rw [List.length_take]
  exact Nat.min_le_left _ _

/-- The first byte of a field, and the others. -/
theorem field_succ {byte : UInt8} (h : bytes[i]? = some byte) :
    field bytes i (k + 1) = byte.toNat + 256 * field bytes (i + 1) k := by
  rw [field, field, ← List.drop_drop]
  have hdrop : bytes.drop i = byte :: bytes.drop (i + 1) := by
    obtain ⟨hlt, hbyte⟩ := List.getElem?_eq_some_iff.mp h
    rw [List.drop_eq_getElem_cons hlt, hbyte]
  rw [hdrop, List.take_succ_cons, decode]
  simp

theorem field_zero : field bytes i 0 = 0 := by
  simp [field, decode]

theorem decode_append (bytes rest : List UInt8) :
    decode (bytes ++ rest) = decode bytes + 256 ^ bytes.length * decode rest := by
  induction bytes with
  | nil => simp [decode]
  | cons byte bytes ih =>
      rw [List.cons_append, decode, decode, ih, List.length_cons, Nat.pow_succ']
      ring

/-- A field in two parts. -/
theorem field_add {j : Nat} (h : i + j ≤ bytes.length) :
    field bytes i (j + k) = field bytes i j + 256 ^ j * field bytes (i + j) k := by
  have hlength : ((bytes.drop i).take j).length = j := by
    rw [List.length_take, List.length_drop]
    omega
  rw [field, List.take_add, decode_append, hlength, List.drop_drop]
  rfl

theorem length_slice {size : Nat} (h : i + size ≤ bytes.length) :
    (slice bytes i size).length = size := by
  rw [slice, List.length_take, List.length_drop]
  omega

/-- A field of a slice. -/
theorem field_slice {start size : Nat} (h : i + k ≤ size) :
    field (slice bytes start size) i k = field bytes (start + i) k := by
  rw [field, field, slice, List.drop_take, List.take_take, List.drop_drop]
  congr 2
  omega

/-- A slice of a slice. -/
theorem slice_slice {start size len : Nat} (h : i + len ≤ size) :
    slice (slice bytes start size) i len = slice bytes (start + i) len := by
  rw [slice, slice, slice, List.drop_take, List.take_take, List.drop_drop]
  congr 1
  omega

end LittleEndian
end RwkvLightning

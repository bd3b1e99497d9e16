import RwkvLightning.Library.LittleEndian

/-!
# Reading a byte string from front to back

A reader starts at a position of a byte string, and ends with a value and the position
behind what it has read, or with an error.

`HasAt bytes pos part`: the byte string has `part` from position `pos` on.  The rules
say when a reader ends with a value, in terms of what the byte string has there.  They go
both ways, so that one proof about a reader says what it accepts and what it returns.

**Results.**
* `bind_eq_ok`, `pure_eq_ok`, `number_eq_ok`, `text_eq_ok`, `failIf_eq_ok`,
  `position_eq_ok`, `skip_eq_ok`: a rule for each way to build a reader.
* `hasAt_append`: a byte string in two parts.
* `numbers_eq_of_hasAt`, `hasAt_numbers`: the numbers that stand one after another.
-/

namespace RwkvLightning
namespace Cursor

open LittleEndian

universe u v

/-- A reader that ends with a value of type `α` or an error of type `ε`. -/
abbrev Reader (ε : Type u) (α : Type) := StateT Nat (Except ε) α

section Readers

variable {ε : Type u} (bytes : List UInt8)

/-- The next number of `k` bytes. -/
def number (k : Nat) (e : ε) : Reader ε Nat := fun pos =>
  if pos + k ≤ bytes.length then .ok (field bytes pos k, pos + k) else .error e

/-- The next `size` bytes. -/
def text (size : Nat) (e : ε) : Reader ε (List UInt8) := fun pos =>
  if pos + size ≤ bytes.length then .ok (slice bytes pos size, pos + size) else .error e

/-- An error where `c` holds. -/
def failIf (c : Prop) [Decidable c] (e : ε) : Reader ε Unit := fun pos =>
  if c then .error e else .ok ((), pos)

/-- The position. -/
def position : Reader ε Nat := fun pos => .ok (pos, pos)

/-- Go `size` bytes forward, at the end of the byte string or not. -/
def skip (size : Nat) : Reader ε Unit := fun pos => .ok ((), pos + size)

/-- The `count` numbers of `k` bytes from position `pos` on. -/
def numbers (pos k : Nat) : Nat → List Nat
  | 0 => []
  | count + 1 => field bytes pos k :: numbers (pos + k) k count

end Readers

/-- The byte string has `part` from position `pos` on. -/
def HasAt (bytes : List UInt8) (pos : Nat) (part : List UInt8) : Prop :=
  pos + part.length ≤ bytes.length ∧ slice bytes pos part.length = part

section Parts

variable {bytes part rest : List UInt8} {pos k n : Nat}

theorem hasAt_nil_iff : HasAt bytes pos [] ↔ pos ≤ bytes.length := by
  simp [HasAt, slice]

theorem slice_add (size more : Nat) :
    slice bytes pos (size + more) = slice bytes pos size ++ slice bytes (pos + size) more := by
  rw [slice, slice, slice, List.take_add, List.drop_drop]

/-- A byte string in two parts. -/
theorem hasAt_append :
    HasAt bytes pos (part ++ rest) ↔
      HasAt bytes pos part ∧ HasAt bytes (pos + part.length) rest := by
  rw [HasAt, HasAt, HasAt, List.length_append, slice_add]
  constructor
  · rintro ⟨hin, heq⟩
    have hlength : (slice bytes pos part.length).length = part.length :=
      length_slice (by omega)
    obtain ⟨hpart, hrest⟩ := List.append_inj heq hlength
    exact ⟨⟨by omega, hpart⟩, by omega, hrest⟩
  · rintro ⟨⟨-, hpart⟩, hin, hrest⟩
    exact ⟨by omega, by rw [hpart, hrest]⟩

theorem HasAt.le_length (h : HasAt bytes pos part) : pos + part.length ≤ bytes.length :=
  h.1

/-- The part that stands at a position, from its length. -/
theorem HasAt.slice_eq {size : Nat} (h : HasAt bytes pos part) (hsize : part.length = size) :
    slice bytes pos size = part := by
  rw [← hsize, h.2]

theorem hasAt_slice {size : Nat} (h : pos + size ≤ bytes.length) :
    HasAt bytes pos (slice bytes pos size) := by
  have hlength := length_slice h
  exact ⟨by omega, by rw [hlength]⟩

theorem hasAt_self : HasAt bytes 0 bytes := by
  simp [HasAt, slice]

theorem hasAt_cons {byte : UInt8} :
    HasAt bytes pos (byte :: part) ↔ bytes[pos]? = some byte ∧ HasAt bytes (pos + 1) part := by
  have hone : HasAt bytes pos [byte] ↔ bytes[pos]? = some byte := by
    rw [HasAt, slice, List.length_singleton]
    constructor
    · rintro ⟨hin, heq⟩
      rw [List.drop_eq_getElem_cons hin, List.take_succ_cons, List.take_zero] at heq
      rw [List.getElem?_eq_getElem hin, List.singleton_inj.mp heq]
    · intro hbyte
      obtain ⟨hin, rfl⟩ := List.getElem?_eq_some_iff.mp hbyte
      refine ⟨hin, ?_⟩
      rw [List.drop_eq_getElem_cons hin, List.take_succ_cons, List.take_zero]
  rw [← List.singleton_append, hasAt_append, hone, List.length_singleton]

theorem HasAt.field_eq (h : HasAt bytes pos (encode k n)) (hn : n < 256 ^ k) :
    field bytes pos k = n := by
  have hslice : slice bytes pos k = encode k n := h.slice_eq length_encode
  rw [field, ← slice, hslice, decode_encode, Nat.mod_eq_of_lt hn]

theorem hasAt_encode_field (h : pos + k ≤ bytes.length) :
    HasAt bytes pos (encode k (field bytes pos k)) := by
  have hslice : encode k (field bytes pos k) = slice bytes pos k := by
    have hencode := encode_decode (slice bytes pos k)
    rw [length_slice h] at hencode
    exact hencode
  rw [hslice]
  exact hasAt_slice h

/-- The numbers that stand one after another. -/
theorem numbers_eq_of_hasAt {values : List Nat} (h : HasAt bytes pos (values.flatMap (encode k)))
    (hlt : ∀ n ∈ values, n < 256 ^ k) : numbers bytes pos k values.length = values := by
  induction values generalizing pos with
  | nil => rfl
  | cons n values ih =>
      rw [List.flatMap_cons, hasAt_append, length_encode] at h
      have hrest := ih h.2 fun m hm => hlt m (List.mem_cons_of_mem _ hm)
      rw [List.length_cons, numbers, h.1.field_eq (hlt n List.mem_cons_self), hrest]

theorem length_numbers (bytes : List UInt8) (pos k count : Nat) :
    (numbers bytes pos k count).length = count := by
  induction count generalizing pos with
  | zero => rfl
  | succ count ih => rw [numbers, List.length_cons, ih]

theorem lt_of_mem_numbers {count : Nat} (h : n ∈ numbers bytes pos k count) :
    n < 256 ^ k := by
  induction count generalizing pos with
  | zero => cases h
  | succ count ih =>
      rw [numbers, List.mem_cons] at h
      rcases h with rfl | h
      · exact field_lt _ _ _
      · exact ih h

/-- Any bytes are the numbers that they hold. -/
theorem hasAt_numbers {count : Nat} (h : pos + k * count ≤ bytes.length) :
    HasAt bytes pos ((numbers bytes pos k count).flatMap (encode k)) := by
  induction count generalizing pos with
  | zero => exact hasAt_nil_iff.mpr (by omega)
  | succ count ih =>
      rw [Nat.mul_succ] at h
      rw [numbers, List.flatMap_cons, hasAt_append, length_encode]
      exact ⟨hasAt_encode_field (by omega), ih (by omega)⟩

end Parts

section Rules

variable {ε : Type u} {α β : Type} {bytes : List UInt8} {e : ε} {pos next : Nat}

theorem pure_eq_ok {a b : α} :
    (pure a : Reader ε α) pos = .ok (b, next) ↔ a = b ∧ pos = next := by
  constructor
  · intro h
    cases h
    exact ⟨rfl, rfl⟩
  · rintro ⟨rfl, rfl⟩
    rfl

/-- A reader that goes on with the value of another. -/
theorem bind_eq_ok {p : Reader ε α} {f : α → Reader ε β} {b : β} :
    (p >>= f) pos = .ok (b, next) ↔
      ∃ a mid, p pos = .ok (a, mid) ∧ f a mid = .ok (b, next) := by
  have hbind : (p >>= f) pos = (p pos >>= fun r => f r.1 r.2) := rfl
  rw [hbind]
  cases hp : p pos with
  | error e =>
      constructor
      · intro h
        cases h
      · rintro ⟨a, mid, h, -⟩
        cases h
  | ok r =>
      obtain ⟨a, mid⟩ := r
      constructor
      · intro h
        exact ⟨a, mid, rfl, h⟩
      · rintro ⟨a', mid', h, hf⟩
        cases h
        exact hf

theorem number_eq_ok {k n : Nat} :
    number bytes k e pos = .ok (n, next) ↔
      HasAt bytes pos (encode k n) ∧ n < 256 ^ k ∧ next = pos + k := by
  rw [number]
  constructor
  · intro h
    split at h
    · rename_i hin
      cases h
      exact ⟨hasAt_encode_field hin, field_lt _ _ _, rfl⟩
    · cases h
  · rintro ⟨hat, hn, rfl⟩
    have hin : pos + k ≤ bytes.length := by simpa using hat.le_length
    rw [if_pos hin, hat.field_eq hn]

theorem text_eq_ok {size : Nat} {part : List UInt8} :
    text bytes size e pos = .ok (part, next) ↔
      HasAt bytes pos part ∧ part.length = size ∧ next = pos + size := by
  rw [text]
  constructor
  · intro h
    split at h
    · rename_i hin
      cases h
      exact ⟨hasAt_slice hin, length_slice hin, rfl⟩
    · cases h
  · rintro ⟨hat, hsize, rfl⟩
    have hin : pos + size ≤ bytes.length := by
      have := hat.le_length
      omega
    rw [if_pos hin, hat.slice_eq hsize]

theorem failIf_eq_ok {c : Prop} [Decidable c] {a : Unit} :
    failIf c e pos = .ok (a, next) ↔ ¬c ∧ pos = next := by
  rw [failIf]
  split
  · rename_i hc
    constructor
    · intro h
      cases h
    · rintro ⟨h, -⟩
      exact absurd hc h
  · rename_i hc
    constructor
    · intro h
      cases h
      exact ⟨hc, rfl⟩
    · rintro ⟨-, rfl⟩
      rfl

theorem position_eq_ok {n : Nat} :
    (position : Reader ε Nat) pos = .ok (n, next) ↔ pos = n ∧ pos = next := by
  constructor
  · intro h
    cases h
    exact ⟨rfl, rfl⟩
  · rintro ⟨rfl, rfl⟩
    rfl

theorem skip_eq_ok {size : Nat} {a : Unit} :
    (skip size : Reader ε Unit) pos = .ok (a, next) ↔ next = pos + size := by
  constructor
  · intro h
    cases h
    rfl
  · rintro rfl
    rfl

end Rules

end Cursor
end RwkvLightning

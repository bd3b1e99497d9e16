import RwkvLightning.Library.Utf8
import Mathlib.Data.List.Basic

/-!
# JSON strings

The text between the quotes of a JSON string is a list of pieces: a byte for itself, an
escape of one letter, or `\u` with four hexadecimal digits.  A piece knows what it stands
for, so a list of pieces is always a text that a JSON scanner lets pass.

`decode` gives the bytes that the pieces stand for.  Two escapes of a surrogate pair stand
for one character, and a surrogate without its partner stands for nothing.

`Spells cs pieces`: the pieces are a way to write the text `cs`.  `Malformed text`: no string
begins here, or it cannot go on behind some of its pieces.

**Results.**
* `decode_of_spells`: every spelling of a text stands for the UTF-8 bytes of the text.
* `broken_of_decode_none`: pieces that stand for nothing cannot go on somewhere.
-/

namespace RwkvLightning
namespace JsonString

abbrev Bytes := List UInt8

/-- The bytes of an ASCII text. -/
def ascii (text : String) : Bytes := text.toList.map fun c => UInt8.ofNat c.toNat

def quote : UInt8 := 0x22

def backslash : UInt8 := 0x5C

/-- The letter of an escape with four digits. -/
def unitLetter : UInt8 := 0x75

/-- The value of a hexadecimal digit. -/
def hexValue (c : UInt8) : Option Nat :=
  if 0x30 ≤ c ∧ c ≤ 0x39 then some (c.toNat - 0x30)
  else if 0x61 ≤ c ∧ c ≤ 0x66 then some (c.toNat - 0x61 + 10)
  else if 0x41 ≤ c ∧ c ≤ 0x46 then some (c.toNat - 0x41 + 10)
  else none

/-- The byte that an escape of one letter stands for. -/
def shortValue (letter : UInt8) : Option UInt8 :=
  if letter = quote ∨ letter = backslash ∨ letter = 0x2F then some letter
  else if letter = 0x62 then some 0x08
  else if letter = 0x66 then some 0x0C
  else if letter = 0x6E then some 0x0A
  else if letter = 0x72 then some 0x0D
  else if letter = 0x74 then some 0x09
  else none

/-- The value of four hexadecimal digits. -/
def unitValue (a b c d : UInt8) : Option Nat :=
  match hexValue a, hexValue b, hexValue c, hexValue d with
  | some a, some b, some c, some d => some (((a * 16 + b) * 16 + c) * 16 + d)
  | _, _, _, _ => none

/-- Four hexadecimal digits and their value. -/
structure CodeUnit where
  a : UInt8
  b : UInt8
  c : UInt8
  d : UInt8
  value : Nat
  value_eq : unitValue a b c d = some value

/-- A byte that stands for itself. -/
def Plain (byte : UInt8) : Prop :=
  0x20 ≤ byte ∧ byte ≠ quote ∧ byte ≠ backslash

instance (byte : UInt8) : Decidable (Plain byte) :=
  inferInstanceAs (Decidable (_ ∧ _))

/-- A piece of the text between the quotes. -/
inductive Piece where
  | raw (byte : UInt8) (plain : Plain byte)
  | short (letter value : UInt8) (short : shortValue letter = some value)
  | unit (u : CodeUnit)

/-- The digits as they stand in the text. -/
def CodeUnit.digits (u : CodeUnit) : Bytes :=
  [u.a, u.b, u.c, u.d]

/-- A piece as it stands in the text. -/
def Piece.bytes : Piece → Bytes
  | raw byte _ => [byte]
  | short letter _ _ => [backslash, letter]
  | unit u => backslash :: unitLetter :: u.digits

/-- The text between the quotes. -/
def spelled (pieces : List Piece) : Bytes :=
  pieces.flatMap Piece.bytes

/-- A string with its quotes. -/
def literal (pieces : List Piece) : Bytes :=
  quote :: (spelled pieces ++ [quote])

/-- The first unit of a surrogate pair. -/
def High (value : Nat) : Prop := 0xD800 ≤ value ∧ value ≤ 0xDBFF

/-- The second unit of a surrogate pair. -/
def Low (value : Nat) : Prop := 0xDC00 ≤ value ∧ value ≤ 0xDFFF

instance (value : Nat) : Decidable (High value) := inferInstanceAs (Decidable (_ ∧ _))

instance (value : Nat) : Decidable (Low value) := inferInstanceAs (Decidable (_ ∧ _))

/-- The character of a surrogate pair. -/
def pairValue (high low : Nat) : Nat :=
  0x10000 + (high - 0xD800) * 0x400 + (low - 0xDC00)

/-- The UTF-8 bytes of a scalar value. -/
def scalarBytes (value : Nat) : Bytes :=
  String.utf8EncodeChar (Char.ofNat value)

/-- The bytes that the pieces stand for, unless a surrogate lacks its partner. -/
def decode : List Piece → Option Bytes
  | [] => some []
  | .raw byte _ :: pieces => (decode pieces).map (byte :: ·)
  | .short _ value _ :: pieces => (decode pieces).map (value :: ·)
  | .unit u :: pieces =>
      if High u.value then
        match pieces with
        | .unit l :: pieces =>
            if Low l.value then (decode pieces).map (scalarBytes (pairValue u.value l.value) ++ ·)
            else none
        | _ => none
      else if Low u.value then none
      else (decode pieces).map (scalarBytes u.value ++ ·)

section Lexemes

variable {pieces more : List Piece}

@[simp] theorem spelled_nil : spelled [] = [] := rfl

@[simp] theorem spelled_cons (piece : Piece) (pieces : List Piece) :
    spelled (piece :: pieces) = piece.bytes ++ spelled pieces := rfl

@[simp] theorem spelled_append (pieces more : List Piece) :
    spelled (pieces ++ more) = spelled pieces ++ spelled more :=
  List.flatMap_append

theorem bytes_ne_nil (piece : Piece) : piece.bytes ≠ [] := by
  cases piece <;> simp [Piece.bytes]

theorem length_le_spelled (pieces : List Piece) : pieces.length ≤ (spelled pieces).length := by
  induction pieces with
  | nil => exact Nat.le_refl _
  | cons piece pieces ih =>
      have hpos := List.length_pos_iff.mpr (bytes_ne_nil piece)
      rw [spelled_cons, List.length_cons, List.length_append]
      omega

theorem decode_raw {byte : UInt8} (h : Plain byte) (pieces : List Piece) :
    decode (.raw byte h :: pieces) = (decode pieces).map (byte :: ·) := by
  rw [decode]

theorem decode_short {letter value : UInt8} (h : shortValue letter = some value)
    (pieces : List Piece) :
    decode (.short letter value h :: pieces) = (decode pieces).map (value :: ·) := by
  rw [decode]

theorem decode_pair {u l : CodeUnit} (hu : High u.value) (hl : Low l.value)
    (pieces : List Piece) :
    decode (.unit u :: .unit l :: pieces) =
      (decode pieces).map (scalarBytes (pairValue u.value l.value) ++ ·) := by
  rw [decode, if_pos hu]
  exact if_pos hl

theorem decode_unit {u : CodeUnit} (hu : ¬High u.value) (hl : ¬Low u.value)
    (pieces : List Piece) :
    decode (.unit u :: pieces) = (decode pieces).map (scalarBytes u.value ++ ·) := by
  rw [decode.eq_def]
  dsimp only
  rw [if_neg hu, if_neg hl]

theorem decode_low {u : CodeUnit} (hl : Low u.value) (pieces : List Piece) :
    decode (.unit u :: pieces) = none := by
  have hu : ¬High u.value := by
    rw [Low] at hl
    rw [High]
    omega
  rw [decode.eq_def]
  dsimp only
  rw [if_neg hu, if_pos hl]

/-- A high surrogate without a low one behind it. -/
theorem decode_high {u : CodeUnit} (hu : High u.value)
    (hnext : ∀ l rest, pieces = .unit l :: rest → ¬Low l.value) :
    decode (.unit u :: pieces) = none := by
  rw [decode.eq_def]
  dsimp only
  rw [if_pos hu]
  split
  · rename_i l rest
    exact if_neg (hnext l rest rfl)
  · rfl

/-- Pieces at the front that stand for `bytes`, whatever comes behind them. -/
def Front (pieces : List Piece) (bytes : Bytes) : Prop :=
  ∀ more, decode (pieces ++ more) = (decode more).map (bytes ++ ·)

theorem front_raw {byte : UInt8} (h : Plain byte) : Front [.raw byte h] [byte] :=
  fun more => decode_raw h more

theorem front_short {letter value : UInt8} (h : shortValue letter = some value) :
    Front [.short letter value h] [value] :=
  fun more => decode_short h more

theorem front_pair {u l : CodeUnit} (hu : High u.value) (hl : Low l.value) :
    Front [.unit u, .unit l] (scalarBytes (pairValue u.value l.value)) :=
  fun more => decode_pair hu hl more

theorem front_unit {u : CodeUnit} (hu : ¬High u.value) (hl : ¬Low u.value) :
    Front [.unit u] (scalarBytes u.value) :=
  fun more => decode_unit hu hl more

theorem Front.decode {bytes out : Bytes} (h : Front pieces bytes) (hmore : decode more = some out) :
    JsonString.decode (pieces ++ more) = some (bytes ++ out) := by
  rw [h, hmore]
  rfl

/-- A surrogate that lacks its partner stands at the front. -/
def LoneFront : List Piece → Prop
  | .unit u :: rest =>
      Low u.value ∨ High u.value ∧ ∀ l more, rest = .unit l :: more → ¬Low l.value
  | _ => False

/-- A surrogate that lacks its partner stands behind pieces that decode. -/
def Alone (pieces : List Piece) : Prop :=
  ∃ good bytes rest, decode good = some bytes ∧ pieces = good ++ rest ∧ LoneFront rest

theorem Alone.behind {bytes : Bytes} (hfront : Front more bytes) (h : Alone pieces) :
    Alone (more ++ pieces) := by
  obtain ⟨good, out, rest, hgood, rfl, hlone⟩ := h
  exact ⟨more ++ good, _, rest, hfront.decode hgood, (List.append_assoc _ _ _).symm, hlone⟩

/-- Pieces that stand for nothing have a surrogate without its partner. -/
theorem alone_of_decode_none (h : decode pieces = none) : Alone pieces := by
  induction pieces using decode.induct with
  | case1 => cases h
  | case2 byte plain pieces ih =>
      rw [decode_raw, Option.map_eq_none_iff] at h
      exact (ih h).behind (front_raw plain)
  | case3 letter value short pieces ih =>
      rw [decode_short, Option.map_eq_none_iff] at h
      exact (ih h).behind (front_short short)
  | case4 u hu l pieces hl ih =>
      rw [decode_pair hu hl, Option.map_eq_none_iff] at h
      exact (ih h).behind (front_pair hu hl)
  | case5 u hu l pieces hl =>
      refine ⟨[], [], _, rfl, rfl, Or.inr ⟨hu, ?_⟩⟩
      rintro l' more hsame
      cases hsame
      exact hl
  | case6 u pieces hu hnext =>
      exact ⟨[], [], _, rfl, rfl, Or.inr ⟨hu, fun l more hsame => absurd hsame (hnext l more)⟩⟩
  | case7 u pieces hu hl => exact ⟨[], [], _, rfl, rfl, Or.inl hl⟩
  | case8 u pieces hu hl ih =>
      rw [decode_unit hu hl, Option.map_eq_none_iff] at h
      exact (ih h).behind (front_unit hu hl)

end Lexemes

section Spellings

/-- A way to write a character. -/
inductive SpellsChar : Char → List Piece → Prop
  | raw {c : Char} {pieces : List Piece} :
      (∀ piece ∈ pieces, ∃ byte plain, piece = .raw byte plain) →
      spelled pieces = String.utf8EncodeChar c → SpellsChar c pieces
  | short {c : Char} {letter value : UInt8} (h : shortValue letter = some value) :
      value.toNat = c.val.toNat → SpellsChar c [.short letter value h]
  | unit {c : Char} {u : CodeUnit} : u.value = c.val.toNat → SpellsChar c [.unit u]
  | pair {c : Char} {u l : CodeUnit} : High u.value → Low l.value →
      pairValue u.value l.value = c.val.toNat → SpellsChar c [.unit u, .unit l]

/-- A way to write a text. -/
inductive Spells : List Char → List Piece → Prop
  | nil : Spells [] []
  | cons {c : Char} {cs : List Char} {pieces more : List Piece} :
      SpellsChar c pieces → Spells cs more → Spells (c :: cs) (pieces ++ more)

variable {pieces more : List Piece}

theorem scalarBytes_of_eq {value : Nat} {c : Char} (h : value = c.val.toNat) :
    scalarBytes value = String.utf8EncodeChar c := by
  have hc : Char.ofNat c.val.toNat = c := Char.ofNat_toNat c
  rw [scalarBytes, h, hc]

theorem shortValue_le {letter value : UInt8} (h : shortValue letter = some value) :
    value.toNat ≤ 0x7F := by
  rw [shortValue] at h
  split at h
  · rename_i hletter
    cases h
    rcases hletter with rfl | rfl | rfl <;> decide
  · repeat
      split at h
      · cases h
        decide
    cases h

theorem front_raws (hraw : ∀ piece ∈ pieces, ∃ byte plain, piece = .raw byte plain) :
    Front pieces (spelled pieces) := by
  intro more
  induction pieces with
  | nil => exact Option.map_id'.symm
  | cons piece pieces ih =>
      rw [List.forall_mem_cons] at hraw
      obtain ⟨⟨byte, plain, rfl⟩, hrest⟩ := hraw
      rw [List.cons_append, decode_raw, ih hrest, Option.map_map]
      rfl

/-- A character at the front. -/
theorem front_char {c : Char} (h : SpellsChar c pieces) :
    Front pieces (String.utf8EncodeChar c) := by
  have hrange := Utf8.char_range c
  cases h with
  | raw hraw hspelled => exact hspelled ▸ front_raws hraw
  | @short letter value hshort hvalue =>
      have hle := shortValue_le hshort
      have hbytes : String.utf8EncodeChar c = [value] := by
        rw [String.utf8EncodeChar, ← hvalue]
        exact (if_pos hle).trans (by rw [UInt8.ofNat_toNat])
      exact hbytes ▸ front_short hshort
  | @unit u hvalue =>
      have hhigh : ¬High u.value := by
        rw [High]
        omega
      have hlow : ¬Low u.value := by
        rw [Low]
        omega
      exact scalarBytes_of_eq hvalue ▸ front_unit hhigh hlow
  | @pair u l hhigh hlow hvalue => exact scalarBytes_of_eq hvalue ▸ front_pair hhigh hlow

/-- Every spelling of a text stands for the UTF-8 bytes of the text. -/
theorem decode_of_spells {cs : List Char} (h : Spells cs pieces) :
    decode pieces = some (cs.flatMap String.utf8EncodeChar) := by
  induction h with
  | nil => rfl
  | cons hchar _ ih =>
      rw [List.flatMap_cons]
      exact (front_char hchar).decode ih

end Spellings

section Malformed

/-- What stands where a string cannot go on. -/
inductive Broken : Bytes → Prop
  | ends : Broken []
  | control {byte : UInt8} {rest : Bytes} : byte < 0x20 → Broken (byte :: rest)
  | escapeEnds : Broken [backslash]
  | escape {letter : UInt8} {rest : Bytes} : shortValue letter = none → letter ≠ unitLetter →
      Broken (backslash :: letter :: rest)
  | digits {rest : Bytes} : (∀ (u : CodeUnit) after, rest ≠ u.digits ++ after) →
      Broken (backslash :: unitLetter :: rest)
  | lone {u : CodeUnit} {rest : Bytes} : Low u.value ∨ High u.value ∧
      (∀ (l : CodeUnit) after, Low l.value →
        rest ≠ backslash :: unitLetter :: (l.digits ++ after)) →
      Broken (backslash :: unitLetter :: (u.digits ++ rest))

/-- No string begins here, or it cannot go on behind some of its pieces. -/
def Malformed (text : Bytes) : Prop :=
  text.head? ≠ some quote ∨ ∃ pieces bytes rest, decode pieces = some bytes ∧
    text = quote :: (spelled pieces ++ rest) ∧ Broken rest

variable {pieces : List Piece}

theorem value_eq_of_digits {u l : CodeUnit} {rest after : Bytes}
    (h : u.digits ++ rest = l.digits ++ after) : u.value = l.value ∧ rest = after := by
  simp only [CodeUnit.digits, List.cons_append, List.nil_append, List.cons.injEq] at h
  obtain ⟨ha, hb, hc, hd, hrest⟩ := h
  have hu := u.value_eq
  rw [ha, hb, hc, hd, l.value_eq] at hu
  exact ⟨(Option.some.inj hu).symm, hrest⟩

/-- Only a piece of four digits begins with `\u`. -/
theorem unit_of_spelled {after rest : Bytes}
    (h : spelled pieces ++ quote :: after = backslash :: unitLetter :: rest) :
    ∃ u more, pieces = .unit u :: more ∧ rest = u.digits ++ (spelled more ++ quote :: after) := by
  cases pieces with
  | nil => exact absurd (List.cons.inj h).1 (by decide)
  | cons piece more =>
      cases piece with
      | raw byte plain => exact absurd (List.cons.inj h).1 plain.2.2
      | short letter value short =>
          have hletter : letter = unitLetter := (List.cons.inj (List.cons.inj h).2).1
          rw [hletter] at short
          cases short
      | unit u =>
          have hrest := (List.cons.inj (List.cons.inj h).2).2
          exact ⟨u, more, rfl, by rw [← hrest, ← List.append_assoc]; rfl⟩

/-- Pieces that stand for nothing cannot go on somewhere. -/
theorem broken_of_decode_none (h : decode pieces = none) (after : Bytes) :
    ∃ good bytes rest, decode good = some bytes ∧
      spelled pieces ++ quote :: after = spelled good ++ rest ∧ Broken rest := by
  obtain ⟨good, bytes, rest, hgood, rfl, hlone⟩ := alone_of_decode_none h
  refine ⟨good, bytes, spelled rest ++ quote :: after, hgood, ?_, ?_⟩
  · rw [spelled_append, List.append_assoc]
  · match rest, hlone with
    | .unit u :: rest, hlone =>
        have hbytes : spelled (.unit u :: rest) ++ quote :: after =
            backslash :: unitLetter :: (u.digits ++ (spelled rest ++ quote :: after)) := by
          rw [spelled_cons, List.append_assoc]
          rfl
        rw [hbytes]
        refine Broken.lone (hlone.imp id fun ⟨hhigh, hnext⟩ => ⟨hhigh, fun l rest' hl hsame => ?_⟩)
        obtain ⟨l', more, rfl, hdigits⟩ := unit_of_spelled hsame
        exact hnext l' more rfl ((value_eq_of_digits hdigits).1 ▸ hl)

end Malformed

end JsonString
end RwkvLightning

import RwkvLightning.Library.JsonString
import RwkvLightning.Library.Scanner
import RwkvLightning.Training.Dataset
import Mathlib

/-!
# The strings of a dataset

`json_string` reads the pieces of a JSON string and returns the bytes that they stand for.

**Results.**
* `appendUtf8_eq`: `append_utf8` writes the UTF-8 bytes of a scalar value.
* `jsonEscape_cases`: an escape is read as a piece or a surrogate pair, or is broken.
* `jsonString_literal`, `jsonString_malformed`: `json_string` accepts exactly the strings
  whose pieces decode, and stops behind the closing quote.
-/

namespace RwkvLightning
namespace Dataset

open JsonString (Bytes ascii Piece CodeUnit High Low Front Broken Malformed Plain hexValue shortValue
  unitValue decode spelled scalarBytes pairValue quote backslash unitLetter)
open Scanner (bind_ok bind_error)

section Characters

theorem or_eq_add (high low i : Nat) (hlow : low < 2 ^ i) :
    2 ^ i * high ||| low = 2 ^ i * high + low :=
  (Nat.two_pow_add_eq_or_of_lt hlow high).symm

/-- A byte of a character behind the first. -/
theorem tailByte_eq (n : Nat) : 0x80 ||| (n &&& 0x3f) = n % 0x40 + 0x80 := by
  have hmod : n &&& 0x3f = n % 0x40 := Nat.and_two_pow_sub_one_eq_mod n 6
  rw [hmod, Nat.add_comm]
  exact or_eq_add 2 (n % 0x40) 6 (Nat.mod_lt _ (by decide))

/-- `append_utf8` writes the UTF-8 bytes of a scalar value. -/
theorem appendUtf8_eq {cp : Nat} (h : cp < 0xD800 ∨ 0xDFFF < cp ∧ cp < 0x110000) :
    appendUtf8 cp = scalarBytes cp := by
  obtain ⟨c, hc⟩ := Utf8.exists_char h
  have hbytes : scalarBytes cp = String.utf8EncodeChar c := JsonString.scalarBytes_of_eq hc.symm
  rw [hbytes, appendUtf8, String.utf8EncodeChar, hc]
  simp only [Nat.shiftRight_eq_div_pow, tailByte_eq]
  split
  · rfl
  · split
    · have hlead : 0xc0 ||| cp / 2 ^ 6 = cp / 64 % 0x20 + 0xc0 :=
        (or_eq_add 3 (cp / 2 ^ 6) 6 (by omega)).trans (by omega)
      rw [hlead]
    · split
      · have hlead : 0xe0 ||| cp / 2 ^ 12 = cp / 4096 % 0x10 + 0xe0 :=
          (or_eq_add 7 (cp / 2 ^ 12) 5 (by omega)).trans (by omega)
        rw [hlead]
      · have hlead : 0xf0 ||| cp / 2 ^ 18 = cp / 262144 % 0x08 + 0xf0 :=
          (or_eq_add 15 (cp / 2 ^ 18) 4 (by omega)).trans (by omega)
        rw [hlead]

theorem hexValue_lt {c : UInt8} {digit : Nat} (h : hexValue c = some digit) : digit < 16 := by
  have hle {bound : UInt8} (hc : c ≤ bound) : c.toNat ≤ bound.toNat := UInt8.le_iff_toNat_le.mp hc
  rw [hexValue] at h
  split at h
  · rename_i hc
    have hc := hle hc.2
    cases h
    simp only [UInt8.reduceToNat] at hc
    omega
  · split at h
    · rename_i hc
      have hc := hle hc.2
      cases h
      simp only [UInt8.reduceToNat] at hc
      omega
    · split at h
      · rename_i hc
        have hc := hle hc.2
        cases h
        simp only [UInt8.reduceToNat] at hc
        omega
      · cases h

theorem shift_or (value : Nat) {digit : Nat} (h : digit < 16) :
    value <<< 4 ||| digit = value * 16 + digit := by
  rw [Nat.shiftLeft_eq, Nat.mul_comm]
  exact (or_eq_add value digit 4 h).trans (by omega)

end Characters

section Escapes

variable {rest : Bytes}

theorem unicodeDigits_succ (count value : Nat) (c : UInt8) (rest : Bytes) :
    unicodeDigits (count + 1) value (c :: rest) =
      match hexValue c with
      | some digit => unicodeDigits count (value <<< 4 ||| digit) rest
      | none => .error "invalid unicode escape" := rfl

/-- Four digits are read as their value. -/
theorem unicodeEscape_digits (u : CodeUnit) (rest : Bytes) :
    unicodeEscape (u.digits ++ rest) = .ok (u.value, rest) := by
  obtain ⟨a, b, c, d, value, hvalue⟩ := u
  rw [unitValue] at hvalue
  split at hvalue
  · rename_i w x y z ha hb hc hd
    cases hvalue
    show (if (rest.length + 1 + 1 + 1 + 1) < 4 then _ else _) = _
    rw [if_neg (by omega)]
    show unicodeDigits 4 0 (a :: b :: c :: d :: rest) = _
    rw [unicodeDigits_succ, ha]
    show unicodeDigits 3 (0 <<< 4 ||| w) (b :: c :: d :: rest) = _
    rw [unicodeDigits_succ, hb]
    show unicodeDigits 2 _ (c :: d :: rest) = _
    rw [unicodeDigits_succ, hc]
    show unicodeDigits 1 _ (d :: rest) = _
    rw [unicodeDigits_succ, hd]
    show Except.ok (_, rest) = _
    rw [shift_or _ (hexValue_lt ha), shift_or _ (hexValue_lt hb), shift_or _ (hexValue_lt hc),
      shift_or _ (hexValue_lt hd), Nat.zero_mul, Nat.zero_add]
  · cases hvalue

theorem digit_of_unicodeDigits {count value : Nat} {found : Nat × Bytes}
    (h : unicodeDigits (count + 1) value rest = .ok found) :
    ∃ c digit after, rest = c :: after ∧ hexValue c = some digit ∧
      unicodeDigits count (value <<< 4 ||| digit) after = .ok found := by
  cases rest with
  | nil => cases h
  | cons c after =>
      rw [unicodeDigits_succ] at h
      cases hc : hexValue c with
      | none =>
          rw [hc] at h
          cases h
      | some digit =>
          rw [hc] at h
          exact ⟨c, digit, after, rfl, hc, h⟩

/-- Nothing but four digits is read. -/
theorem digits_of_unicodeEscape {value : Nat} {after : Bytes}
    (h : unicodeEscape rest = .ok (value, after)) :
    ∃ u : CodeUnit, rest = u.digits ++ after ∧ value = u.value := by
  rw [unicodeEscape] at h
  split at h
  · cases h
  · obtain ⟨a, w, _, rfl, ha, h⟩ := digit_of_unicodeDigits h
    obtain ⟨b, x, _, rfl, hb, h⟩ := digit_of_unicodeDigits h
    obtain ⟨c, y, _, rfl, hc, h⟩ := digit_of_unicodeDigits h
    obtain ⟨d, z, _, rfl, hd, h⟩ := digit_of_unicodeDigits h
    have hvalue : unitValue a b c d = some (((w * 16 + x) * 16 + y) * 16 + z) := by
      rw [unitValue, ha, hb, hc, hd]
    have hread := unicodeEscape_digits ⟨a, b, c, d, _, hvalue⟩
    cases h
    refine ⟨⟨a, b, c, d, _, hvalue⟩, rfl, ?_⟩
    rw [shift_or _ (hexValue_lt ha), shift_or _ (hexValue_lt hb), shift_or _ (hexValue_lt hc),
      shift_or _ (hexValue_lt hd), Nat.zero_mul, Nat.zero_add]

theorem unicodeEscape_error (h : ∀ (u : CodeUnit) after, rest ≠ u.digits ++ after) :
    ∃ message, unicodeEscape rest = .error message := by
  cases hread : unicodeEscape rest with
  | error message => exact ⟨message, rfl⟩
  | ok found =>
      obtain ⟨u, hrest, -⟩ := digits_of_unicodeEscape hread
      exact absurd hrest (h u found.2)

theorem unit_lt (u : CodeUnit) : u.value < 0x10000 := by
  obtain ⟨a, b, c, d, value, hvalue⟩ := u
  rw [unitValue] at hvalue
  split at hvalue
  · rename_i ha hb hc hd
    cases hvalue
    have := hexValue_lt ha
    have := hexValue_lt hb
    have := hexValue_lt hc
    have := hexValue_lt hd
    dsimp only
    omega
  · cases hvalue

/-- An escape that is no surrogate. -/
theorem unicodeCase_unit {u : CodeUnit} (hu : ¬High u.value) (hl : ¬Low u.value) (rest : Bytes) :
    unicodeCase (u.digits ++ rest) = .ok (scalarBytes u.value, rest) := by
  have hlt := unit_lt u
  have hscalar : appendUtf8 u.value = scalarBytes u.value := by
    refine appendUtf8_eq ?_
    rw [High] at hu
    rw [Low] at hl
    omega
  have hhigh : ¬(0xd800 ≤ u.value ∧ u.value ≤ 0xdbff) := hu
  have hlow : ¬(0xdc00 ≤ u.value ∧ u.value ≤ 0xdfff) := hl
  rw [unicodeCase, bind_ok (unicodeEscape_digits u rest), if_neg hhigh, if_neg hlow, hscalar]
  rfl

theorem pairValue_range {high low : Nat} (hu : High high) (hl : Low low) :
    0xDFFF < pairValue high low ∧ pairValue high low < 0x110000 := by
  have hu : 0xD800 ≤ high ∧ high ≤ 0xDBFF := hu
  have hl : 0xDC00 ≤ low ∧ low ≤ 0xDFFF := hl
  have hmin : 0xDFFF < 0x10000 + (high - 0xD800) * 0x400 + (low - 0xDC00) := by omega
  have hmax : 0x10000 + (high - 0xD800) * 0x400 + (low - 0xDC00) < 0x110000 := by omega
  exact ⟨hmin, hmax⟩

/-- A surrogate pair. -/
theorem unicodeCase_pair {u l : CodeUnit} (hu : High u.value) (hl : Low l.value)
    (rest : Bytes) :
    unicodeCase (u.digits ++ backslash :: unitLetter :: (l.digits ++ rest)) =
      .ok (scalarBytes (pairValue u.value l.value), rest) := by
  have hprefix : lowPrefix (backslash :: unitLetter :: (l.digits ++ rest)) =
      .ok ((), l.digits ++ rest) := rfl
  have hbound : ¬(l.value < 0xdc00 ∨ 0xdfff < l.value) := by
    rw [Low] at hl
    omega
  have hhigh : 0xd800 ≤ u.value ∧ u.value ≤ 0xdbff := hu
  have hlow : 0xdc00 ≤ l.value ∧ l.value ≤ 0xdfff := hl
  have hscalar : appendUtf8 (pairValue u.value l.value) =
      scalarBytes (pairValue u.value l.value) :=
    appendUtf8_eq (Or.inr (pairValue_range hu hl))
  have hshift : (u.value - 0xd800) <<< 10 = (u.value - 0xd800) * 0x400 := Nat.shiftLeft_eq _ _
  rw [unicodeCase, bind_ok (unicodeEscape_digits u _), if_pos hhigh, bind_ok hprefix,
    bind_ok (unicodeEscape_digits l rest), if_neg hbound, hshift]
  show Except.ok (appendUtf8 (pairValue u.value l.value), rest) = _
  rw [hscalar]

theorem eq_of_lowPrefix {found : Unit × Bytes} (h : lowPrefix rest = .ok found) :
    rest = backslash :: unitLetter :: found.2 := by
  rw [lowPrefix.eq_def] at h
  split at h
  · cases h
    rfl
  · cases h

/-- A surrogate without its partner. -/
theorem unicodeCase_lone {u : CodeUnit}
    (h : Low u.value ∨ High u.value ∧ ∀ (l : CodeUnit) after, Low l.value →
      rest ≠ backslash :: unitLetter :: (l.digits ++ after)) :
    ∃ message, unicodeCase (u.digits ++ rest) = .error message := by
  rw [unicodeCase, bind_ok (unicodeEscape_digits u rest)]
  rcases h with hlow | ⟨hhigh, hnext⟩
  · have hnot : ¬High u.value := by
      rw [Low] at hlow
      rw [High]
      omega
    rw [if_neg (show ¬(0xd800 ≤ u.value ∧ u.value ≤ 0xdbff) from hnot),
      if_pos (show 0xdc00 ≤ u.value ∧ u.value ≤ 0xdfff from hlow)]
    exact ⟨_, rfl⟩
  · rw [if_pos (show 0xd800 ≤ u.value ∧ u.value ≤ 0xdbff from hhigh)]
    cases hprefix : lowPrefix rest with
    | error message => exact ⟨message, bind_error hprefix⟩
    | ok found =>
        obtain rfl := eq_of_lowPrefix hprefix
        rw [bind_ok hprefix]
        cases hread : unicodeEscape found.2 with
        | error message => exact ⟨message, bind_error hread⟩
        | ok low =>
            obtain ⟨l, hdigits, hvalue⟩ := digits_of_unicodeEscape hread
            have hbound : low.1 < 0xdc00 ∨ 0xdfff < low.1 := by
              by_contra hin
              refine hnext l low.2 ?_ (by rw [hdigits])
              rw [Low, ← hvalue]
              omega
            rw [bind_ok hread, if_pos hbound]
            exact ⟨_, rfl⟩

theorem jsonEscape_eq (letter : UInt8) (rest : Bytes) :
    jsonEscape (letter :: rest) =
      match shortValue letter with
      | some value => .ok ([value], rest)
      | none =>
          if letter = 0x75 then unicodeCase rest
          else .error "unsupported JSON escape" := by
  show (if letter = quote ∨ letter = backslash ∨ letter = 0x2F then _ else _) = _
  rw [shortValue]
  split_ifs <;> rfl

theorem jsonEscape_short {letter value : UInt8} (h : shortValue letter = some value)
    (rest : Bytes) : jsonEscape (letter :: rest) = .ok ([value], rest) := by
  rw [jsonEscape_eq, h]

theorem jsonEscape_unit (rest : Bytes) : jsonEscape (unitLetter :: rest) = unicodeCase rest := rfl

/-- A broken escape is rejected. -/
theorem jsonEscape_broken (h : Broken (backslash :: rest)) :
    ∃ message, jsonEscape rest = .error message := by
  generalize htext : backslash :: rest = text at h
  cases h with
  | ends => cases htext
  | control hcontrol =>
      obtain ⟨rfl, -⟩ := List.cons.inj htext
      exact absurd hcontrol (by decide)
  | escapeEnds =>
      obtain rfl := (List.cons.inj htext).2
      exact ⟨_, rfl⟩
  | escape hshort hunit =>
      obtain rfl := (List.cons.inj htext).2
      exact ⟨_, by rw [jsonEscape_eq, hshort]; exact if_neg hunit⟩
  | digits hdigits =>
      obtain rfl := (List.cons.inj htext).2
      obtain ⟨message, hread⟩ := unicodeEscape_error hdigits
      exact ⟨message, (jsonEscape_unit _).trans (bind_error hread)⟩
  | lone hlone =>
      obtain rfl := (List.cons.inj htext).2
      exact unicodeCase_lone hlone

/-- An escape is read as a piece or a surrogate pair, or it is broken. -/
theorem jsonEscape_cases (rest : Bytes) :
    (∃ pieces bytes after, pieces ≠ [] ∧ Front pieces bytes ∧
        backslash :: rest = spelled pieces ++ after ∧ jsonEscape rest = .ok (bytes, after)) ∨
      Broken (backslash :: rest) := by
  match rest with
  | [] => exact Or.inr Broken.escapeEnds
  | letter :: rest =>
      cases hshort : shortValue letter with
      | some value =>
          exact Or.inl ⟨[.short letter value hshort], [value], rest, List.cons_ne_nil _ _,
            JsonString.front_short hshort, rfl, jsonEscape_short hshort rest⟩
      | none =>
          by_cases hunit : letter = unitLetter
          · subst hunit
            by_cases hdigits : ∃ (u : CodeUnit) (after : Bytes), rest = u.digits ++ after
            · obtain ⟨u, after, rfl⟩ := hdigits
              by_cases hlow : Low u.value
              · exact Or.inr (Broken.lone (Or.inl hlow))
              · by_cases hhigh : High u.value
                · by_cases hpair : ∃ (l : CodeUnit) (behind : Bytes), Low l.value ∧
                      after = backslash :: unitLetter :: (l.digits ++ behind)
                  · obtain ⟨l, behind, hl, rfl⟩ := hpair
                    refine Or.inl ⟨[.unit u, .unit l], _, behind, List.cons_ne_nil _ _,
                      JsonString.front_pair hhigh hl, ?_, unicodeCase_pair hhigh hl behind⟩
                    simp [JsonString.spelled, Piece.bytes]
                  · refine Or.inr (Broken.lone (Or.inr ⟨hhigh, fun l behind hl hsame => ?_⟩))
                    exact hpair ⟨l, behind, hl, hsame⟩
                · refine Or.inl ⟨[.unit u], _, after, List.cons_ne_nil _ _,
                    JsonString.front_unit hhigh hlow, ?_, unicodeCase_unit hhigh hlow after⟩
                  simp [JsonString.spelled, Piece.bytes]
            · exact Or.inr (Broken.digits fun u after hsame => hdigits ⟨u, after, hsame⟩)
          · exact Or.inr (Broken.escape hshort hunit)

end Escapes

section Strings

variable {rest : Bytes}

/-- The loop reads the pieces and appends `bytes`. -/
def Reads (pieces : List Piece) (bytes : Bytes) : Prop :=
  ∀ rest passes out, (spelled pieces ++ rest).length < passes →
    ∃ left, rest.length < left ∧
      stringLoop passes out (spelled pieces ++ rest) = stringLoop left (out ++ bytes) rest

theorem Reads.append {pieces more : List Piece} {bytes others : Bytes} (h : Reads pieces bytes)
    (hmore : Reads more others) : Reads (pieces ++ more) (bytes ++ others) := by
  intro rest passes out hpasses
  rw [JsonString.spelled_append, List.append_assoc] at hpasses ⊢
  obtain ⟨mid, hmid, hfirst⟩ := h _ passes out hpasses
  obtain ⟨left, hleft, hsecond⟩ := hmore rest mid (out ++ bytes) hmid
  exact ⟨left, hleft, by rw [hfirst, hsecond, List.append_assoc]⟩

theorem stringLoop_raw {byte : UInt8} (h : Plain byte) (passes : Nat) (out rest : Bytes) :
    stringLoop (passes + 1) out (byte :: rest) = stringLoop passes (out ++ [byte]) rest := by
  obtain ⟨hmin, hquote, hbackslash⟩ := h
  show (if byte = quote then _ else if byte < 0x20 then _ else
    if byte ≠ backslash then _ else _) = _
  rw [if_neg hquote, if_neg (UInt8.not_lt.mpr hmin), if_pos hbackslash]

theorem stringLoop_escape {rest part after : Bytes} (h : jsonEscape rest = .ok (part, after))
    (passes : Nat) (out : Bytes) :
    stringLoop (passes + 1) out (backslash :: rest) = stringLoop passes (out ++ part) after := by
  rw [stringLoop]
  dsimp only
  rw [if_neg (by decide), if_neg (by decide), if_neg (by decide), h]

theorem reads_raw {byte : UInt8} (h : Plain byte) : Reads [.raw byte h] [byte] := by
  intro rest passes out hpasses
  obtain ⟨passes, rfl⟩ : ∃ n, passes = n + 1 := ⟨passes - 1, by omega⟩
  exact ⟨passes, by simpa [Piece.bytes] using hpasses, stringLoop_raw h passes out rest⟩

theorem reads_escape {pieces : List Piece} {bytes text : Bytes}
    (hspelled : spelled pieces = backslash :: text)
    (h : ∀ rest, jsonEscape (text ++ rest) = .ok (bytes, rest)) : Reads pieces bytes := by
  intro rest passes out hpasses
  rw [hspelled] at hpasses ⊢
  rw [List.cons_append, List.length_cons, List.length_append] at hpasses
  obtain ⟨passes, rfl⟩ : ∃ n, passes = n + 1 := ⟨passes - 1, by omega⟩
  exact ⟨passes, by omega, stringLoop_escape (h rest) passes out⟩

theorem reads_unit {u : CodeUnit} (hu : ¬High u.value) (hl : ¬Low u.value) :
    Reads [.unit u] (scalarBytes u.value) := by
  have hspelled : spelled [.unit u] = backslash :: unitLetter :: u.digits := by
    simp [Piece.bytes]
  exact reads_escape hspelled fun rest => unicodeCase_unit hu hl rest

theorem reads_pair {u l : CodeUnit} (hu : High u.value) (hl : Low l.value) :
    Reads [.unit u, .unit l] (scalarBytes (pairValue u.value l.value)) := by
  have hspelled : spelled [.unit u, .unit l] =
      backslash :: unitLetter :: (u.digits ++ backslash :: unitLetter :: l.digits) := by
    simp [Piece.bytes]
  refine reads_escape hspelled fun rest => ?_
  have htext : unitLetter :: (u.digits ++ backslash :: unitLetter :: l.digits) ++ rest =
      unitLetter :: (u.digits ++ backslash :: unitLetter :: (l.digits ++ rest)) := by
    simp
  rw [htext]
  exact unicodeCase_pair hu hl rest

/-- The loop reads pieces that decode. -/
theorem reads_of_decode {pieces : List Piece} {bytes : Bytes} (h : decode pieces = some bytes) :
    Reads pieces bytes := by
  induction pieces using JsonString.decode.induct generalizing bytes with
  | case1 =>
      cases h
      exact fun rest passes out hpasses => ⟨passes, hpasses, by rw [List.append_nil]; rfl⟩
  | case2 byte plain pieces ih =>
      rw [JsonString.decode_raw, Option.map_eq_some_iff] at h
      obtain ⟨out, hout, rfl⟩ := h
      exact (reads_raw plain).append (ih hout)
  | case3 letter value short pieces ih =>
      rw [JsonString.decode_short, Option.map_eq_some_iff] at h
      obtain ⟨out, hout, rfl⟩ := h
      have hfirst : Reads [.short letter value short] [value] :=
        reads_escape rfl fun rest => jsonEscape_short short rest
      exact hfirst.append (ih hout)
  | case4 u hu l pieces hl ih =>
      rw [JsonString.decode_pair hu hl, Option.map_eq_some_iff] at h
      obtain ⟨out, hout, rfl⟩ := h
      exact (reads_pair hu hl).append (ih hout)
  | case5 u hu l pieces hl =>
      rw [JsonString.decode_high hu fun l' rest hsame => by cases hsame; exact hl] at h
      cases h
  | case6 u pieces hu hnext =>
      rw [JsonString.decode_high hu fun l rest hsame => absurd hsame (hnext l rest)] at h
      cases h
  | case7 u pieces hu hl =>
      rw [JsonString.decode_low hl] at h
      cases h
  | case8 u pieces hu hl ih =>
      rw [JsonString.decode_unit hu hl, Option.map_eq_some_iff] at h
      obtain ⟨out, hout, rfl⟩ := h
      exact (reads_unit hu hl).append (ih hout)

theorem head_of_broken {c : UInt8} {rest : Bytes} (h : Broken (c :: rest)) :
    c < 0x20 ∨ c = backslash := by
  cases h with
  | control hcontrol => exact Or.inl hcontrol
  | escapeEnds => exact Or.inr rfl
  | escape => exact Or.inr rfl
  | digits => exact Or.inr rfl
  | lone => exact Or.inr rfl

theorem stringLoop_broken {rest : Bytes} (h : Broken rest) (passes : Nat) (out : Bytes) :
    ∃ message, stringLoop passes out rest = .error message := by
  cases passes with
  | zero => exact ⟨_, rfl⟩
  | succ passes =>
      cases rest with
      | nil => exact ⟨_, rfl⟩
      | cons c rest =>
          rw [stringLoop]
          dsimp only
          rcases head_of_broken h with hcontrol | rfl
          · have hquote : c ≠ 0x22 := by
              rintro rfl
              exact absurd hcontrol (by decide)
            rw [if_neg hquote, if_pos hcontrol]
            exact ⟨_, rfl⟩
          · obtain ⟨message, hescape⟩ := jsonEscape_broken h
            refine ⟨message, ?_⟩
            rw [if_neg (by decide), if_neg (by decide), if_neg (by decide), hescape]

theorem jsonString_quote (rest : Bytes) :
    jsonString (quote :: rest) = stringLoop (rest.length + 1) [] rest := rfl

theorem literal_append (pieces : List Piece) (rest : Bytes) :
    JsonString.literal pieces ++ rest = quote :: (spelled pieces ++ quote :: rest) := by
  simp [JsonString.literal]

/-- A string whose pieces decode is read up to its closing quote. -/
theorem jsonString_literal {pieces : List Piece} {bytes : Bytes} (h : decode pieces = some bytes)
    (rest : Bytes) : jsonString (JsonString.literal pieces ++ rest) = .ok (bytes, rest) := by
  rw [literal_append, jsonString_quote]
  obtain ⟨left, hleft, hread⟩ := reads_of_decode h (quote :: rest) _ [] (Nat.lt_succ_self _)
  obtain ⟨passes, rfl⟩ : ∃ n, left = n + 1 := ⟨left - 1, by omega⟩
  rw [hread]
  rfl

/-- A malformed string is rejected. -/
theorem jsonString_malformed {text : Bytes} (h : Malformed text) :
    ∃ message, jsonString text = .error message := by
  rcases h with hhead | ⟨pieces, bytes, rest, hdecode, rfl, hbroken⟩
  · refine ⟨"expected JSON string", ?_⟩
    match text with
    | [] => rfl
    | c :: rest =>
        have hc : c ≠ 0x22 := fun hsame => hhead (congrArg some hsame)
        rw [jsonString.eq_def]
        split
        · rename_i hsame
          exact absurd (List.cons.inj hsame).1 hc
        · rfl
  · rw [jsonString_quote]
    obtain ⟨left, -, hread⟩ := reads_of_decode hdecode rest _ [] (Nat.lt_succ_self _)
    rw [hread]
    exact stringLoop_broken hbroken left _

/-- A text goes on in pieces that decode up to its closing quote, or to where it is broken. -/
theorem exists_pieces (text : Bytes) :
    ∃ pieces bytes rest, decode pieces = some bytes ∧ text = spelled pieces ++ rest ∧
      (Broken rest ∨ ∃ after, rest = quote :: after) := by
  induction hlength : text.length using Nat.strongRecOn generalizing text with
  | ind n ih =>
      have hstep : ∀ pieces bytes after, pieces ≠ [] → Front pieces bytes →
          text = spelled pieces ++ after → ∃ pieces bytes rest, decode pieces = some bytes ∧
            text = spelled pieces ++ rest ∧ (Broken rest ∨ ∃ after, rest = quote :: after) := by
        rintro pieces bytes after hne hfront rfl
        have hpos := List.length_pos_iff.mpr hne
        have hle := JsonString.length_le_spelled pieces
        rw [List.length_append] at hlength
        obtain ⟨more, others, rest, hdecode, rfl, hend⟩ := ih after.length (by omega) after rfl
        refine ⟨pieces ++ more, bytes ++ others, rest, hfront.decode hdecode, ?_, hend⟩
        rw [JsonString.spelled_append, List.append_assoc]
      match text with
      | [] => exact ⟨[], [], [], rfl, rfl, Or.inl Broken.ends⟩
      | c :: rest =>
          by_cases hquote : c = quote
          · exact ⟨[], [], _, rfl, rfl, Or.inr ⟨rest, by rw [hquote]⟩⟩
          · by_cases hcontrol : c < 0x20
            · exact ⟨[], [], _, rfl, rfl, Or.inl (Broken.control hcontrol)⟩
            · by_cases hbackslash : c = backslash
              · subst hbackslash
                rcases jsonEscape_cases rest with ⟨pieces, bytes, after, hne, hfront, htext, -⟩ |
                  hbroken
                · exact hstep pieces bytes after hne hfront htext
                · exact ⟨[], [], _, rfl, rfl, Or.inl hbroken⟩
              · have hplain : Plain c := ⟨UInt8.not_lt.mp hcontrol, hquote, hbackslash⟩
                exact hstep [.raw c hplain] [c] rest (List.cons_ne_nil _ _)
                  (JsonString.front_raw hplain) rfl

/-- Every text begins with a string whose pieces decode, or is malformed. -/
theorem literal_or_malformed (text : Bytes) :
    (∃ pieces bytes rest, decode pieces = some bytes ∧
        text = JsonString.literal pieces ++ rest) ∨ Malformed text := by
  match text with
  | [] => exact Or.inr (Or.inl (by decide))
  | c :: text =>
      by_cases hquote : c = quote
      · subst hquote
        obtain ⟨pieces, bytes, rest, hdecode, rfl, hbroken | ⟨after, rfl⟩⟩ := exists_pieces text
        · exact Or.inr (Or.inr ⟨pieces, bytes, rest, hdecode, rfl, hbroken⟩)
        · exact Or.inl ⟨pieces, bytes, after, hdecode, (literal_append pieces after).symm⟩
      · exact Or.inr (Or.inl fun hsame => hquote (Option.some.inj hsame))

/-- What `json_string` accepts, and what it returns. -/
theorem jsonString_eq_ok {text bytes rest : Bytes} :
    jsonString text = .ok (bytes, rest) ↔
      ∃ pieces, decode pieces = some bytes ∧ text = JsonString.literal pieces ++ rest := by
  constructor
  · intro h
    rcases literal_or_malformed text with ⟨pieces, out, after, hdecode, rfl⟩ | hmalformed
    · rw [jsonString_literal hdecode] at h
      cases h
      exact ⟨pieces, hdecode, rfl⟩
    · obtain ⟨message, herror⟩ := jsonString_malformed hmalformed
      rw [herror] at h
      cases h
  · rintro ⟨pieces, hdecode, rfl⟩
    exact jsonString_literal hdecode rest

/-- What `json_string` rejects. -/
theorem jsonString_error_iff {text : Bytes} :
    (∃ message, jsonString text = .error message) ↔ Malformed text := by
  constructor
  · rintro ⟨message, herror⟩
    rcases literal_or_malformed text with ⟨pieces, out, after, hdecode, rfl⟩ | hmalformed
    · rw [jsonString_literal hdecode] at herror
      cases herror
    · exact hmalformed
  · exact jsonString_malformed

/-- A string whose pieces stand for nothing is rejected. -/
theorem jsonString_none {pieces : List Piece} (h : decode pieces = none) (rest : Bytes) :
    ∃ message, jsonString (JsonString.literal pieces ++ rest) = .error message := by
  rw [literal_append]
  obtain ⟨good, bytes, broken, hdecode, htext, hbroken⟩ :=
    JsonString.broken_of_decode_none h rest
  exact jsonString_malformed (Or.inr ⟨good, bytes, broken, hdecode, by rw [htext], hbroken⟩)

end Strings

end Dataset
end RwkvLightning

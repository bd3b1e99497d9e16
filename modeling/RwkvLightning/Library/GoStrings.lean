import RwkvLightning.Library.Utf8
import Mathlib.Data.List.Infix
import Mathlib.Tactic

/-!
# Strings of the Go library

Strings are lists of bytes.  White space is that of Unicode, one encoded character after the
other.

**Results.**
* `not_prefix_strip`, `strip_of_trimmed`: `strip` takes off all tokens in front, and nothing else.
* `trimSpace_trimSpace`: a trimmed string is trimmed.
* `wellFormed_trimSpace`, `wellFormed_trimSuffix`: what is trimmed off leaves well-formed UTF-8.
* `replaceAll_of_not_infix`: what does not occur is not replaced.
* `not_mem_of_mem_split`: the parts of a string hold no separator.
-/

namespace RwkvLightning
namespace GoStrings

abbrev Bytes := List UInt8

/-- The white space characters, encoded. -/
def spaces : List Bytes :=
  [[0x09], [0x0A], [0x0B], [0x0C], [0x0D], [0x20], [0xC2, 0x85], [0xC2, 0xA0],
    [0xE1, 0x9A, 0x80], [0xE2, 0x80, 0x80], [0xE2, 0x80, 0x81], [0xE2, 0x80, 0x82],
    [0xE2, 0x80, 0x83], [0xE2, 0x80, 0x84], [0xE2, 0x80, 0x85], [0xE2, 0x80, 0x86],
    [0xE2, 0x80, 0x87], [0xE2, 0x80, 0x88], [0xE2, 0x80, 0x89], [0xE2, 0x80, 0x8A],
    [0xE2, 0x80, 0xA8], [0xE2, 0x80, 0xA9], [0xE2, 0x80, 0xAF], [0xE2, 0x81, 0x9F],
    [0xE3, 0x80, 0x80]]

/-- Take tokens off the front of a text, at most one a pass. -/
def strip (tokens : List Bytes) : ℕ → Bytes → Bytes
  | 0, text => text
  | passes + 1, text =>
      match tokens.find? (fun token => token.isPrefixOf text) with
      | none => text
      | some token => strip tokens passes (text.drop token.length)

/-- `strings.TrimLeftFunc` with `unicode.IsSpace`. -/
def trimLeft (text : Bytes) : Bytes := strip spaces text.length text

/-- `strings.TrimRightFunc` with `unicode.IsSpace`. -/
def trimRight (text : Bytes) : Bytes :=
  (strip (spaces.map List.reverse) text.length text.reverse).reverse

/-- `strings.TrimSpace`. -/
def trimSpace (text : Bytes) : Bytes := trimRight (trimLeft text)

/-- `strings.HasSuffix`. -/
def hasSuffix (text suffix : Bytes) : Bool := suffix.isSuffixOf text

/-- `strings.TrimSuffix`. -/
def trimSuffix (text suffix : Bytes) : Bytes :=
  if hasSuffix text suffix then text.take (text.length - suffix.length) else text

/-- The loop of `replaceAll`: the first argument counts the bytes of a match that are left. -/
def replaceFrom (old new : Bytes) : ℕ → Bytes → Bytes
  | _, [] => []
  | skip + 1, _ :: rest => replaceFrom old new skip rest
  | 0, c :: rest =>
      if old.isPrefixOf (c :: rest) then new ++ replaceFrom old new (old.length - 1) rest
      else c :: replaceFrom old new 0 rest

/-- `strings.ReplaceAll` of something that is not empty. -/
def replaceAll (text old new : Bytes) : Bytes := replaceFrom old new 0 text

/-- `strings.Split` at one byte. -/
def split (text : Bytes) (separator : UInt8) : List Bytes := text.splitOn separator

/-- The value of a text of digits. -/
def digitsValue (text : Bytes) : ℕ :=
  text.foldl (fun value digit => 10 * value + (digit.toNat - 48)) 0

def isDigit (byte : UInt8) : Bool := 48 ≤ byte && byte ≤ 57

/-- `strconv.Atoi`, where an `int` has 64 bits. -/
def atoi (text : Bytes) : Option ℤ :=
  let digits := match text with
    | 0x2B :: rest => rest
    | 0x2D :: rest => rest
    | _ => text
  if digits = [] ∨ ¬digits.all isDigit then none
  else
    let value : ℤ := if text.head? = some 0x2D then -(digitsValue digits : ℤ) else digitsValue digits
    if -2 ^ 63 ≤ value ∧ value < 2 ^ 63 then some value else none

/-- `strconv.Itoa` of a number that is not negative. -/
def itoa (n : ℕ) : Bytes := (Nat.toDigits 10 n).map fun c => UInt8.ofNat c.toNat

section Strip

variable {tokens : List Bytes} {text : Bytes}

theorem strip_suffix (tokens : List Bytes) (passes : ℕ) (text : Bytes) :
    strip tokens passes text <:+ text := by
  induction passes generalizing text with
  | zero => exact List.suffix_rfl
  | succ passes ih =>
      rw [strip]
      split
      · exact List.suffix_rfl
      · exact (ih _).trans (List.drop_suffix _ _)

/-- With a pass for each byte, no token is left in front. -/
theorem not_prefix_strip (htokens : ∀ token ∈ tokens, token ≠ []) {passes : ℕ}
    (hpasses : text.length ≤ passes) {token : Bytes} (htoken : token ∈ tokens) :
    ¬token <+: strip tokens passes text := by
  induction passes generalizing text with
  | zero =>
      have hnil : text = [] := List.length_eq_zero_iff.mp (Nat.le_zero.mp hpasses)
      intro hprefix
      rw [strip, hnil, List.prefix_nil] at hprefix
      exact htokens token htoken hprefix
  | succ passes ih =>
      rw [strip]
      split
      · next hfind =>
          have hnone := List.find?_eq_none.mp hfind token htoken
          rwa [List.isPrefixOf_iff_prefix] at hnone
      · next found hfind =>
          have hfound := htokens found (List.mem_of_find?_eq_some hfind)
          have hpositive := List.length_pos_iff.mpr hfound
          refine ih ?_
          rw [List.length_drop]
          omega

/-- Without a token in front nothing is taken off. -/
theorem strip_of_trimmed (h : ∀ token ∈ tokens, ¬token <+: text) (passes : ℕ) :
    strip tokens passes text = text := by
  cases passes with
  | zero => rfl
  | succ passes =>
      have hnone : tokens.find? (fun token => token.isPrefixOf text) = none := by
        refine List.find?_eq_none.mpr fun token htoken => ?_
        rw [List.isPrefixOf_iff_prefix]
        exact h token htoken
      rw [strip, hnone]

end Strip

section TrimSpace

theorem spaces_nonempty : ∀ space ∈ spaces, space ≠ [] := by decide

theorem not_prefix_trimSpace (text : Bytes) {space : Bytes} (h : space ∈ spaces) :
    ¬space <+: trimSpace text := by
  intro hfront
  have hnone : ¬space <+: trimLeft text := not_prefix_strip spaces_nonempty le_rfl h
  refine hnone (hfront.trans ?_)
  have hsuffix := strip_suffix (spaces.map List.reverse) (trimLeft text).length
    (trimLeft text).reverse
  have hreversed := List.reverse_prefix.mpr hsuffix
  rwa [List.reverse_reverse] at hreversed

theorem not_suffix_trimSpace (text : Bytes) {space : Bytes} (h : space ∈ spaces) :
    ¬space <:+ trimSpace text := by
  have hnonempty : ∀ token ∈ spaces.map List.reverse, token ≠ [] := by decide
  intro hsuffix
  have hreversed := List.reverse_prefix.mpr hsuffix
  rw [trimSpace, trimRight, List.reverse_reverse] at hreversed
  exact not_prefix_strip hnonempty (List.length_reverse.le) (List.mem_map_of_mem h) hreversed

/-- A trimmed string is trimmed. -/
@[simp] theorem trimSpace_trimSpace (text : Bytes) : trimSpace (trimSpace text) = trimSpace text := by
  have hleft : trimLeft (trimSpace text) = trimSpace text :=
    strip_of_trimmed (fun _ hspace => not_prefix_trimSpace text hspace) _
  have hright : trimRight (trimSpace text) = trimSpace text := by
    rw [trimRight, strip_of_trimmed, List.reverse_reverse]
    intro token htoken hprefix
    obtain ⟨space, hspace, rfl⟩ := List.mem_map.mp htoken
    exact not_suffix_trimSpace text hspace (List.reverse_prefix.mp hprefix)
  rw [trimSpace, hleft, hright]

/-- Trimming takes off a front and an end. -/
theorem trimSpace_infix (text : Bytes) : trimSpace text <:+: text := by
  have hsuffix := strip_suffix (spaces.map List.reverse) (trimLeft text).length
    (trimLeft text).reverse
  have hreversed := List.reverse_prefix.mpr hsuffix
  rw [List.reverse_reverse] at hreversed
  exact hreversed.isInfix.trans (strip_suffix spaces _ text).isInfix

@[simp] theorem trimSpace_nil : trimSpace [] = [] := rfl

end TrimSpace

section WellFormedness

open Utf8 (IsChar WellFormed)

/-- What `strip` keeps when it takes off one token, it keeps. -/
theorem strip_induction {motive : Bytes → Prop} {tokens : List Bytes}
    (hstep : ∀ token ∈ tokens, ∀ rest, motive (token ++ rest) → motive rest) {text : Bytes}
    (h : motive text) (passes : ℕ) : motive (strip tokens passes text) := by
  induction passes generalizing text with
  | zero => exact h
  | succ passes ih =>
      rw [strip]
      split
      · exact h
      · next token hfind =>
          have hfront : token.isPrefixOf text = true :=
            List.find?_some (p := fun token : Bytes => token.isPrefixOf text) hfind
          obtain ⟨rest, rfl⟩ := List.isPrefixOf_iff_prefix.mp hfront
          refine ih ?_
          rw [List.drop_left]
          exact hstep token (List.mem_of_find?_eq_some hfind) rest h

/-- The white space characters. -/
def spaceChars : List Char :=
  ['\x09', '\x0A', '\x0B', '\x0C', '\x0D', ' ', '\u0085', '\u00A0', '\u1680', '\u2000',
    '\u2001', '\u2002', '\u2003', '\u2004', '\u2005', '\u2006', '\u2007', '\u2008',
    '\u2009', '\u200A', '\u2028', '\u2029', '\u202F', '\u205F', '\u3000']

theorem spaces_eq : spaces = spaceChars.map String.utf8EncodeChar := by decide

theorem isChar_of_mem_spaces {space : Bytes} (h : space ∈ spaces) : IsChar space := by
  rw [spaces_eq] at h
  obtain ⟨c, -, rfl⟩ := List.mem_map.mp h
  exact ⟨c, rfl⟩

theorem wellFormed_trimLeft {text : Bytes} (h : WellFormed text) : WellFormed (trimLeft text) :=
  strip_induction (fun _ hspace _ hrest => hrest.of_char_append (isChar_of_mem_spaces hspace)) h _

theorem wellFormed_trimRight {text : Bytes} (h : WellFormed text) :
    WellFormed (trimRight text) := by
  have hstart : WellFormed text.reverse.reverse := by rwa [List.reverse_reverse]
  refine strip_induction (motive := fun text => WellFormed text.reverse) ?_ hstart _
  intro token htoken rest hrest
  obtain ⟨space, hspace, rfl⟩ := List.mem_map.mp htoken
  rw [List.reverse_append, List.reverse_reverse] at hrest
  exact hrest.of_append_char (isChar_of_mem_spaces hspace)

/-- Trimming keeps a text well formed. -/
theorem wellFormed_trimSpace {text : Bytes} (h : WellFormed text) : WellFormed (trimSpace text) :=
  wellFormed_trimRight (wellFormed_trimLeft h)

theorem trimSuffix_cases (text suffix : Bytes) :
    trimSuffix text suffix = text ∨ text = trimSuffix text suffix ++ suffix := by
  rw [trimSuffix]
  split
  · next hsuffix =>
      obtain ⟨front, rfl⟩ := List.isSuffixOf_iff_suffix.mp hsuffix
      right
      rw [List.length_append, Nat.add_sub_cancel, List.take_left]
  · exact Or.inl rfl

theorem wellFormed_trimSuffix {text suffix : Bytes} (h : WellFormed text) (hsuffix : IsChar suffix) :
    WellFormed (trimSuffix text suffix) := by
  rcases trimSuffix_cases text suffix with hsame | hsplit
  · rwa [hsame]
  · rw [hsplit] at h
    exact h.of_append_char hsuffix

end WellFormedness

section Replace

/-- What does not occur is not replaced. -/
theorem replaceAll_of_not_infix {text old new : Bytes} (h : ¬old <:+: text) :
    replaceAll text old new = text := by
  unfold replaceAll
  induction text with
  | nil => rfl
  | cons c rest ih =>
      have hprefix : ¬old.isPrefixOf (c :: rest) := by
        rw [List.isPrefixOf_iff_prefix]
        exact fun hin => h hin.isInfix
      rw [replaceFrom, if_neg hprefix, ih fun hin => h (hin.trans (List.suffix_cons c rest).isInfix)]

end Replace

section Split

/-- What is between two separators holds none. -/
theorem not_mem_of_mem_split {text part : Bytes} {separator : UInt8}
    (h : part ∈ split text separator) : separator ∉ part := by
  induction text generalizing part with
  | nil =>
      rw [split, List.splitOn_nil, List.mem_singleton] at h
      rw [h]
      exact List.not_mem_nil
  | cons c rest ih =>
      obtain ⟨first, parts, hparts⟩ := List.exists_cons_of_ne_nil (List.splitOn_ne_nil separator rest)
      rw [split, List.splitOn_cons_eq_if_modifyHead, hparts] at h
      rw [split, hparts] at ih
      split at h
      · rcases List.mem_cons.mp h with rfl | hin
        · exact List.not_mem_nil
        · exact ih hin
      · next hc =>
          rcases List.mem_cons.mp h with rfl | hin
          · intro hmem
            rcases List.mem_cons.mp hmem with rfl | hfirst
            · exact hc (beq_self_eq_true _)
            · exact ih List.mem_cons_self hfirst
          · exact ih (List.mem_cons_of_mem _ hin)

end Split

end GoStrings
end RwkvLightning

import RwkvLightning.Inference.VocabFile
import RwkvLightning.Inference.TokenizerExact
import RwkvLightning.Library.Utf8
import Mathlib

/-!
# Vocabularies that are loaded exactly

The literals of a vocabulary as Python's `repr` prints them, and what the constructor of
`OptimizedTrieTokenizer` reads of them.

**Which literals.**  `processEscapes` reads the escapes of a bytes literal.  In a str
literal it reads `\x` and `\u` only at the start, with four digits each; elsewhere it
takes `\x` for a byte and keeps `\u` and `\U` as they are.

**Results.**
* `escapeLoop_bytes`, `escapeLoop_str`, `hexLoop_str`: the literals that are read.
* `load_fileText`: the tokens that are loaded.
* `load_exact`: the vocabularies that are loaded exactly.
-/

namespace RwkvLightning
namespace VocabFile

open Backend Tokenizer Utf8 OptimizedTrieTokenizer

section Numbers

variable {base : Nat}

/-- The digits do not look like anything else. -/
theorem of_digitOf (hbase : base ≤ 16) {c : UInt8} (h : (digitOf base c).isSome = true) :
    isSpace c = false ∧ c ≠ 0x2D ∧ c ≠ 0x2B ∧ c ≠ 0x20 ∧ c ≠ 0x0A ∧ c ≠ 0x78 ∧ c ≠ 0x58 ∧
      c ≠ 0x5C := by
  have htable : ∀ c : UInt8, (digitOf 16 c).isSome = true →
      isSpace c = false ∧ c ≠ 0x2D ∧ c ≠ 0x2B ∧ c ≠ 0x20 ∧ c ≠ 0x0A ∧ c ≠ 0x78 ∧ c ≠ 0x58 ∧
        c ≠ 0x5C := by
    decide +kernel
  obtain ⟨d, hd⟩ := Option.isSome_iff_exists.mp h
  rw [digitOf, Option.filter_eq_some_iff] at hd
  have hlt : d < base := of_decide_eq_true hd.2
  refine htable c (Option.isSome_iff_exists.mpr ⟨d, ?_⟩)
  rw [digitOf, Option.filter_eq_some_iff]
  exact ⟨hd.1, decide_eq_true (hlt.trans_le hbase)⟩

theorem spell_map (n : Nat) (f : Nat → UInt8) (ds : List Nat)
    (h : ∀ d ∈ ds, digitOf base (f d) = some d) :
    spell base n (ds.map f) = ds.foldl (fun n d => n * base + d) n := by
  induction ds generalizing n with
  | nil => rfl
  | cons d ds ih =>
      obtain ⟨hd, hds⟩ := List.forall_mem_cons.mp h
      rw [List.map_cons, spell, hd, List.foldl_cons]
      exact ih _ hds

/-- `strtol` reads digits. -/
theorem digits_eq
    (hbase : base ≤ 16) {s : Bytes} (hne : s ≠ []) (h : ∀ c ∈ s, (digitOf base c).isSome = true) :
    digits base s = some (spell base 0 s) := by
  have hdrop : dropPrefix base s = s := by
    unfold dropPrefix
    split
    · rename_i x d rest
      obtain ⟨-, -, -, -, -, hx, hX, -⟩ := of_digitOf hbase (h x (by simp))
      exact if_neg (fun hprefix => hprefix.2.1.elim hx hX)
    · rfl
  obtain ⟨c, rest, rfl⟩ := List.exists_cons_of_ne_nil hne
  rw [digits, hdrop]
  exact if_pos (h c List.mem_cons_self)

theorem strtol_eq
    (hbase : base ≤ 16) {s : Bytes} (hne : s ≠ []) (h : ∀ c ∈ s, (digitOf base c).isSome = true) :
    strtol base s = some (Int.ofNat (spell base 0 s)) := by
  have hdigits := digits_eq hbase hne h
  obtain ⟨c, rest, rfl⟩ := List.exists_cons_of_ne_nil hne
  obtain ⟨hspace, hminus, hplus, -⟩ := of_digitOf hbase (h c List.mem_cons_self)
  rw [strtol, List.dropWhile_cons_of_neg (by simp [hspace])]
  split
  · rename_i heq
    exact absurd (List.cons.inj heq).1 hminus
  · rename_i heq
    exact absurd (List.cons.inj heq).1 hplus
  · rw [hdigits]
    rfl

/-- The decimal digits of a number. -/
def natText (n : Nat) : Bytes :=
  if n = 0 then [0x30] else (Nat.digits 10 n).reverse.map (fun d => UInt8.ofNat (0x30 + d))

/-- A number in decimal. -/
def decimal (n : Int) : Bytes :=
  if n < 0 then 0x2D :: natText n.natAbs else natText n.natAbs

theorem natText_spec (n : Nat) :
    natText n ≠ [] ∧ (∀ c ∈ natText n, (digitOf 10 c).isSome = true) ∧
      spell 10 0 (natText n) = n := by
  unfold natText
  by_cases hzero : n = 0
  · rw [if_pos hzero, hzero]
    refine ⟨List.cons_ne_nil _ _, ?_, by decide⟩
    intro c hc
    rw [List.mem_singleton.mp hc]
    decide
  rw [if_neg hzero]
  have hdigits : ∀ d ∈ (Nat.digits 10 n).reverse,
      digitOf 10 (UInt8.ofNat (0x30 + d)) = some d := by
    have htable : ∀ d < 10, digitOf 10 (UInt8.ofNat (0x30 + d)) = some d := by decide
    intro d hd
    exact htable d (Nat.digits_lt_base (by decide) (List.mem_reverse.mp hd))
  refine ⟨?_, ?_, ?_⟩
  · rw [ne_eq, List.map_eq_nil_iff, List.reverse_eq_nil_iff]
    exact Nat.digits_ne_nil_iff_ne_zero.mpr hzero
  · intro c hc
    obtain ⟨d, hd, rfl⟩ := List.mem_map.mp hc
    rw [hdigits d hd]
    rfl
  · rw [spell_map 0 _ _ hdigits, List.foldl_reverse]
    conv_rhs => rw [← Nat.ofDigits_digits 10 n, Nat.ofDigits_eq_foldr]
    congr 1
    funext d m
    exact Nat.mul_comm m 10 ▸ Nat.add_comm _ d

/-- `stoi` reads a number that was written in decimal. -/
theorem stoi_decimal {n : Int} (hlow : -2 ^ 31 ≤ n) (hhigh : n < 2 ^ 31) :
    stoi (decimal n) = some n := by
  obtain ⟨hne, hall, hspell⟩ := natText_spec n.natAbs
  have hstrtol : strtol 10 (decimal n) = some n := by
    unfold decimal
    by_cases hneg : n < 0
    · rw [if_pos hneg, strtol, List.dropWhile_cons_of_neg (by decide)]
      show (digits 10 (natText n.natAbs)).map (fun n => -Int.ofNat n) = some n
      rw [digits_eq (by decide) hne hall, hspell, Option.map_some]
      congr 1
      simp only [Int.ofNat_eq_natCast]
      omega
    · rw [if_neg hneg, strtol_eq (by decide) hne hall, hspell]
      congr 1
      simp only [Int.ofNat_eq_natCast]
      omega
  rw [stoi, hstrtol, Option.filter_some, if_pos (decide_eq_true ⟨hlow, hhigh⟩)]

/-- A number has no space and no end of line in it. -/
theorem notMem_decimal (n : Int) : (0x20 : UInt8) ∉ decimal n ∧ (0x0A : UInt8) ∉ decimal n := by
  obtain ⟨-, hall, -⟩ := natText_spec n.natAbs
  have hdigit : ∀ c ∈ natText n.natAbs, c ≠ 0x20 ∧ c ≠ 0x0A := by
    intro c hc
    obtain ⟨-, -, -, hspace, hline, -⟩ := of_digitOf (by decide) (hall c hc)
    exact ⟨hspace, hline⟩
  have hspace : (0x20 : UInt8) ∉ natText n.natAbs := fun hmem => (hdigit _ hmem).1 rfl
  have hline : (0x0A : UInt8) ∉ natText n.natAbs := fun hmem => (hdigit _ hmem).2 rfl
  unfold decimal
  split
  · simp [hspace, hline]
  · exact ⟨hspace, hline⟩

/-- A hexadecimal digit as `repr` prints it. -/
def hexChar (d : Nat) : UInt8 :=
  UInt8.ofNat (if d < 10 then 0x30 + d else 0x57 + d)

/-- A number in hexadecimal with leading zeros. -/
def hexText : Nat → Nat → Bytes
  | 0, _ => []
  | width + 1, n => hexText width (n / 16) ++ [hexChar (n % 16)]

theorem digitOf_hexChar {d : Nat} (h : d < 16) : digitOf 16 (hexChar d) = some d := by
  have htable : ∀ d < 16, digitOf 16 (hexChar d) = some d := by decide
  exact htable d h

theorem isDigit_hexText (width n : Nat) :
    ∀ c ∈ hexText width n, (digitOf 16 c).isSome = true := by
  induction width generalizing n with
  | zero => simp [hexText]
  | succ width ih =>
      intro c hc
      rw [hexText, List.mem_append, List.mem_singleton] at hc
      rcases hc with hc | rfl
      · exact ih _ c hc
      · rw [digitOf_hexChar (Nat.mod_lt _ (by decide))]
        rfl

theorem spell_append {s t : Bytes} (n : Nat) (h : ∀ c ∈ s, (digitOf base c).isSome = true) :
    spell base n (s ++ t) = spell base (spell base n s) t := by
  induction s generalizing n with
  | nil => rfl
  | cons c s ih =>
      obtain ⟨hc, hs⟩ := List.forall_mem_cons.mp h
      obtain ⟨d, hd⟩ := Option.isSome_iff_exists.mp hc
      simp only [List.cons_append, spell, hd]
      exact ih _ hs

theorem spell_hexText {width n : Nat} (h : n < 16 ^ width) :
    spell 16 0 (hexText width n) = n := by
  induction width generalizing n with
  | zero =>
      rw [Nat.pow_zero, Nat.lt_one_iff] at h
      rw [h]
      rfl
  | succ width ih =>
      have hlt : n / 16 < 16 ^ width := by
        rw [Nat.div_lt_iff_lt_mul (by decide), ← Nat.pow_succ]
        exact h
      rw [hexText, spell_append 0 (isDigit_hexText _ _), ih hlt]
      simp only [spell, digitOf_hexChar (Nat.mod_lt n (by decide : 0 < 16))]
      omega

theorem strtol_hexText {width n : Nat} (hwidth : 0 < width) (h : n < 16 ^ width) :
    strtol 16 (hexText width n) = some (Int.ofNat n) := by
  have hne : hexText width n ≠ [] := by
    obtain ⟨width, rfl⟩ := Nat.exists_eq_succ_of_ne_zero hwidth.ne'
    simp [hexText]
  rw [strtol_eq (by decide) hne (isDigit_hexText _ _), spell_hexText h]

theorem stoulHex_hexText {n : Nat} (h : n < 256) : stoulHex (hexText 2 n) = some n := by
  rw [stoulHex, strtol_hexText (by decide) h, Option.map_some, Int.ofNat_eq_natCast]
  congr 1
  omega

theorem readHex_hexText {width n : Nat} (hwidth : 0 < width) (hle : width ≤ 4)
    (h : n < 16 ^ width) : readHex (hexText width n) = some n := by
  have hlt : n < 2 ^ 32 := by
    have hpow : 16 ^ width ≤ 16 ^ 4 := Nat.pow_le_pow_right (by decide) hle
    omega
  have hspace : (hexText width n).all isSpace = false := by
    obtain ⟨width, rfl⟩ := Nat.exists_eq_succ_of_ne_zero hwidth.ne'
    rw [List.all_eq_false]
    refine ⟨hexChar (n % 16), by simp [hexText], ?_⟩
    have hdigit := digitOf_hexChar (Nat.mod_lt n (by decide : 0 < 16))
    obtain ⟨hspace, -⟩ := of_digitOf le_rfl (Option.isSome_iff_exists.mpr ⟨_, hdigit⟩)
    simp [hspace]
  rw [readHex, hspace, strtol_hexText hwidth h]
  simp only [Bool.false_eq_true, if_false, Option.getD_some, Int.ofNat_eq_natCast,
    Option.some.injEq]
  omega

end Numbers

section Literals

/-- Which characters Python prints as they are. -/
structure Python where
  printable : Char → Bool
  ascii : ∀ c : Char, c.toNat < 128 → (printable c = true ↔ 0x20 ≤ c.toNat ∧ c.toNat < 0x7F)

/-- A str or a bytes literal. -/
inductive Literal where
  | str (chars : List Char)
  | bytes (data : Bytes)

/-- The bytes that the literal denotes. -/
def Literal.denotes : Literal → Bytes
  | str chars => chars.flatMap String.utf8EncodeChar
  | bytes data => data

/-- How a character is printed: as it is, or with an escape. -/
inductive Form where
  | raw
  | simple (letter : UInt8)
  | hex2
  | hex4
  | hex8
deriving DecidableEq

variable (py : Python) (quote : UInt8)

/-- The form in a literal with these quotation marks. -/
def form (c : Char) : Form :=
  if c.toNat = quote.toNat then .simple quote
  else if c.toNat = 0x5C then .simple 0x5C
  else if c.toNat = 0x09 then .simple 0x74
  else if c.toNat = 0x0A then .simple 0x6E
  else if c.toNat = 0x0D then .simple 0x72
  else if py.printable c then .raw
  else if c.toNat < 0x100 then .hex2
  else if c.toNat < 0x10000 then .hex4
  else .hex8

/-- A character of a str literal. -/
def charText (c : Char) : Bytes :=
  match form py quote c with
  | .raw => String.utf8EncodeChar c
  | .simple letter => [0x5C, letter]
  | .hex2 => 0x5C :: 0x78 :: hexText 2 c.toNat
  | .hex4 => 0x5C :: 0x75 :: hexText 4 c.toNat
  | .hex8 => 0x5C :: 0x55 :: hexText 8 c.toNat

/-- A byte of a bytes literal. -/
def byteText (b : UInt8) : Bytes :=
  if b = quote then [0x5C, quote]
  else if b = 0x5C then [0x5C, 0x5C]
  else if b = 0x09 then [0x5C, 0x74]
  else if b = 0x0A then [0x5C, 0x6E]
  else if b = 0x0D then [0x5C, 0x72]
  else if 0x20 ≤ b ∧ b < 0x7F then [b]
  else 0x5C :: 0x78 :: hexText 2 b.toNat

/-- What stands between the quotation marks. -/
def content : Literal → Bytes
  | .str chars => chars.flatMap (charText py quote)
  | .bytes data => data.flatMap (byteText quote)

/-- A literal as `repr` prints it. -/
def literalText (literal : Literal) : Bytes :=
  match literal with
  | .str _ => quote :: content py quote literal ++ [quote]
  | .bytes _ => 0x62 :: quote :: content py quote literal ++ [quote]

end Literals

section Loops

variable {py : Python} {quote : UInt8}

/-- What is written for a code point is its UTF-8. -/
theorem codePointBytes_eq (c : Char) : codePointBytes c.toNat = String.utf8EncodeChar c := by
  have hrange := char_range c
  unfold codePointBytes String.utf8EncodeChar
  rw [Char.toNat]
  dsimp only
  split
  · rfl
  split
  · simp only [List.cons.injEq, and_true]
    exact ⟨congrArg UInt8.ofNat (by omega), congrArg UInt8.ofNat (by omega)⟩
  split
  · simp only [List.cons.injEq, and_true]
    exact ⟨congrArg UInt8.ofNat (by omega), congrArg UInt8.ofNat (by omega),
      congrArg UInt8.ofNat (by omega)⟩
  rw [if_pos (by omega)]
  simp only [List.cons.injEq, and_true]
  exact ⟨congrArg UInt8.ofNat (by omega), congrArg UInt8.ofNat (by omega),
    congrArg UInt8.ofNat (by omega), congrArg UInt8.ofNat (by omega)⟩

/-- A byte of ASCII in a character is the whole character. -/
theorem ascii_of_mem {c : Char} {b : UInt8} (h : b ∈ String.utf8EncodeChar c)
    (hb : b.toNat < 128) : c.toNat = b.toNat ∧ String.utf8EncodeChar c = [b] := by
  obtain ⟨a, tails, heq, hlead, htails⟩ := isChar_shape ⟨c, rfl⟩
  have hnotTail : b ∉ tails := by
    intro hmem
    have htail := htails b hmem
    rw [Tail] at htail
    omega
  rw [heq, List.mem_cons] at h
  obtain rfl := h.resolve_right hnotTail
  have hnil : tails = [] := by
    rw [LeadOf] at hlead
    exact List.length_eq_zero_iff.mp (by omega)
  rw [hnil] at heq
  refine ⟨?_, heq⟩
  rw [← codePointBytes_eq] at heq
  unfold codePointBytes at heq
  split at heq
  · rename_i hsmall
    rw [List.cons.injEq] at heq
    exact (toNat_of_eq heq.1.symm (by omega)).symm
  split at heq
  · simp at heq
  split at heq
  · simp at heq
  split at heq <;> simp at heq

/-- A character that is printed as it is has no backslash and no end of line in it. -/
theorem notMem_raw {c : Char} (h : form py quote c = .raw) :
    (0x5C : UInt8) ∉ String.utf8EncodeChar c ∧ (0x0A : UInt8) ∉ String.utf8EncodeChar c := by
  constructor
  · intro hmem
    have hc : c.toNat = 0x5C := (ascii_of_mem hmem (by decide)).1
    unfold form at h
    rw [hc] at h
    split at h
    · exact nomatch h
    · simp at h
  · intro hmem
    have hc : c.toNat = 0x0A := (ascii_of_mem hmem (by decide)).1
    unfold form at h
    rw [hc] at h
    split at h
    · exact nomatch h
    · simp at h

/-- Bytes without a backslash are kept. -/
theorem escapeLoop_raw {s : Bytes} (h : (0x5C : UInt8) ∉ s) (t : Bytes) :
    escapeLoop false (s ++ t) = (escapeLoop false t).map (s ++ ·) := by
  induction s with
  | nil => simp
  | cons c s ih =>
      rw [List.mem_cons, not_or] at h
      rw [List.cons_append, escapeLoop, if_neg (fun heq => h.1 heq.symm), ih h.2]
      cases escapeLoop false t <;> rfl

theorem escapeLoop_simple {letter byte : UInt8} (h : simpleEscape letter = some byte)
    (t : Bytes) :
    escapeLoop false (0x5C :: letter :: t) = (escapeLoop false t).map (byte :: ·) := by
  have hx : letter ≠ 0x78 := by
    rintro rfl
    exact nomatch h
  rw [escapeLoop, if_pos rfl, escapeLoop.eq_def true (letter :: t)]
  simp only [if_neg hx, h]

theorem escapeLoop_hex {n : Nat} (h : n < 256) (t : Bytes) :
    escapeLoop false (0x5C :: 0x78 :: hexText 2 n ++ t) =
      (escapeLoop false t).map (UInt8.ofNat n :: ·) := by
  have hread := stoulHex_hexText h
  obtain ⟨a, b, hab⟩ : ∃ a b, hexText 2 n = [a, b] := ⟨_, _, rfl⟩
  rw [hab] at hread ⊢
  show escapeLoop false (0x5C :: 0x78 :: a :: b :: t) = _
  rw [escapeLoop, if_pos rfl, escapeLoop, if_pos rfl]
  simp only [hread]
  cases escapeLoop false t <;> rfl

/-- The second loop reads the escapes of a byte. -/
theorem escapeLoop_byteText (hquote : isQuote quote = true) (b : UInt8) (t : Bytes) :
    escapeLoop false (byteText quote b ++ t) = (escapeLoop false t).map (b :: ·) := by
  have hsimple : simpleEscape quote = some quote := by
    rw [isQuote, Bool.or_eq_true, decide_eq_true_eq, decide_eq_true_eq] at hquote
    rcases hquote with rfl | rfl <;> rfl
  unfold byteText
  split
  · rename_i heq
    rw [heq]
    exact escapeLoop_simple hsimple t
  split
  · rename_i heq
    rw [heq]
    exact escapeLoop_simple rfl t
  split
  · rename_i heq
    rw [heq]
    exact escapeLoop_simple rfl t
  split
  · rename_i heq
    rw [heq]
    exact escapeLoop_simple rfl t
  split
  · rename_i heq
    rw [heq]
    exact escapeLoop_simple rfl t
  split
  · rename_i hbackslash _ _ _ _
    exact escapeLoop_raw (by simpa using fun heq => hbackslash heq.symm) t
  · have hhex := escapeLoop_hex b.toNat_lt t
    rw [UInt8.ofNat_toNat] at hhex
    exact hhex

/-- A bytes literal is read. -/
theorem escapeLoop_bytes (hquote : isQuote quote = true) (data : Bytes) :
    escapeLoop false (content py quote (.bytes data)) = some data := by
  rw [content]
  induction data with
  | nil => rfl
  | cons b data ih => rw [List.flatMap_cons, escapeLoop_byteText hquote, ih, Option.map_some]

/-- A character that the second loop reads: one of ASCII, or one that is printed as it is. -/
def Plain (py : Python) (c : Char) : Prop :=
  c.toNat < 128 ∨ py.printable c = true

/-- What the forms mean. -/
theorem form_spec (hquote : isQuote quote = true) (c : Char) :
    match form py quote c with
    | .raw => py.printable c = true
    | .simple letter => ∃ byte : UInt8, simpleEscape letter = some byte ∧
        String.utf8EncodeChar c = [byte] ∧ letter ≠ 0x0A ∧ isHexEscape letter = false
    | .hex2 => py.printable c = false ∧ c.toNat < 0x100
    | .hex4 => py.printable c = false ∧ 0x100 ≤ c.toNat ∧ c.toNat < 0x10000
    | .hex8 => py.printable c = false ∧ 0x10000 ≤ c.toNat := by
  have hascii : ∀ b : UInt8, c.toNat = b.toNat → b.toNat < 128 →
      String.utf8EncodeChar c = [b] := by
    intro b hb hlt
    rw [← codePointBytes_eq, codePointBytes, hb, if_pos (by omega), UInt8.ofNat_toNat]
  rw [isQuote, Bool.or_eq_true, decide_eq_true_eq, decide_eq_true_eq] at hquote
  unfold form
  by_cases hq : c.toNat = quote.toNat
  · rw [if_pos hq]
    rcases hquote with rfl | rfl
    · exact ⟨0x27, rfl, hascii 0x27 hq (by decide), by decide, by decide⟩
    · exact ⟨0x22, rfl, hascii 0x22 hq (by decide), by decide, by decide⟩
  rw [if_neg hq]
  by_cases hbackslash : c.toNat = 0x5C
  · rw [if_pos hbackslash]
    exact ⟨0x5C, rfl, hascii 0x5C hbackslash (by decide), by decide, by decide⟩
  rw [if_neg hbackslash]
  by_cases htab : c.toNat = 0x09
  · rw [if_pos htab]
    exact ⟨0x09, rfl, hascii 0x09 htab (by decide), by decide, by decide⟩
  rw [if_neg htab]
  by_cases hline : c.toNat = 0x0A
  · rw [if_pos hline]
    exact ⟨0x0A, rfl, hascii 0x0A hline (by decide), by decide, by decide⟩
  rw [if_neg hline]
  by_cases hreturn : c.toNat = 0x0D
  · rw [if_pos hreturn]
    exact ⟨0x0D, rfl, hascii 0x0D hreturn (by decide), by decide, by decide⟩
  rw [if_neg hreturn]
  cases hprint : py.printable c with
  | true => simp
  | false =>
      rw [if_neg (by simp)]
      by_cases hsmall : c.toNat < 0x100
      · rw [if_pos hsmall]
        exact ⟨rfl, hsmall⟩
      rw [if_neg hsmall]
      by_cases hmiddle : c.toNat < 0x10000
      · rw [if_pos hmiddle]
        exact ⟨rfl, by omega, hmiddle⟩
      · rw [if_neg hmiddle]
        exact ⟨rfl, by omega⟩

theorem escapeLoop_charText
    (hquote : isQuote quote = true) {c : Char} (h : Plain py c) (t : Bytes) :
    escapeLoop false (charText py quote c ++ t) =
      (escapeLoop false t).map (String.utf8EncodeChar c ++ ·) := by
  have hspec := @form_spec py quote hquote c
  unfold charText
  cases hform : form py quote c with
  | raw => exact escapeLoop_raw (notMem_raw hform).1 t
  | simple letter =>
      rw [hform] at hspec
      obtain ⟨byte, hsimple, hbyte, -, -⟩ := hspec
      rw [hbyte]
      exact escapeLoop_simple hsimple t
  | hex2 =>
      rw [hform] at hspec
      have hascii : c.toNat < 128 := by
        refine h.resolve_right (fun hprint => ?_)
        exact Bool.noConfusion (hspec.1.symm.trans hprint)
      have hbyte : String.utf8EncodeChar c = [UInt8.ofNat c.toNat] := by
        rw [← codePointBytes_eq, codePointBytes, if_pos (by omega)]
      rw [hbyte]
      exact escapeLoop_hex hspec.2 t
  | hex4 =>
      rw [hform] at hspec
      rcases h with hascii | hprint
      · have hlarge := hspec.2.1
        omega
      · exact Bool.noConfusion (hspec.1.symm.trans hprint)
  | hex8 =>
      rw [hform] at hspec
      rcases h with hascii | hprint
      · have hlarge := hspec.2
        omega
      · exact Bool.noConfusion (hspec.1.symm.trans hprint)

/-- A str literal of plain characters is read. -/
theorem escapeLoop_str
    (hquote : isQuote quote = true) {chars : List Char} (h : ∀ c ∈ chars, Plain py c) :
    escapeLoop false (content py quote (.str chars)) = some (Literal.str chars).denotes := by
  rw [content, Literal.denotes]
  induction chars with
  | nil => rfl
  | cons c chars ih =>
      obtain ⟨hc, hchars⟩ := List.forall_mem_cons.mp h
      rw [List.flatMap_cons, escapeLoop_charText hquote hc, ih hchars, Option.map_some,
        List.flatMap_cons]

/-- The characters that the first loop reads: `\x` with two digits only at the end. -/
def FourDigit (py : Python) (quote : UInt8) : List Char → Prop
  | [] => True
  | c :: chars =>
      (form py quote c = .raw ∨ form py quote c = .hex4 ∨ form py quote c = .hex2 ∧ chars = []) ∧
        FourDigit py quote chars

theorem hexLoop_raw {s : Bytes} (h : (0x5C : UInt8) ∉ s) (t : Bytes) :
    hexLoop (s ++ t) = (hexLoop t).map (s ++ ·) := by
  induction s with
  | nil => simp
  | cons c s ih =>
      rw [List.mem_cons, not_or] at h
      have hch : ¬ (c = 0x5C ∧ (s ++ t).head?.any isHexEscape = true) :=
        fun heq => h.1 heq.1.symm
      rw [List.cons_append, hexLoop.eq_def (c :: (s ++ t))]
      simp only [if_neg hch, ih h.2]
      cases hexLoop t <;> rfl

/-- The first loop reads these literals. -/
theorem hexLoop_str
    (hquote : isQuote quote = true) {chars : List Char} (h : FourDigit py quote chars) :
    hexLoop (content py quote (.str chars)) = some (Literal.str chars).denotes := by
  rw [content, Literal.denotes]
  induction chars with
  | nil => rfl
  | cons c chars ih =>
      obtain ⟨hc, hchars⟩ := h
      have hspec := @form_spec py quote hquote c
      rw [List.flatMap_cons, List.flatMap_cons]
      rcases hc with hform | hform | ⟨hform, rfl⟩
      · rw [charText, hform]
        dsimp only
        rw [hexLoop_raw (notMem_raw hform).1, ih hchars]
        rfl
      · rw [hform] at hspec
        have hread := readHex_hexText (by decide : 0 < 4) (by decide) hspec.2.2
        obtain ⟨x, y, z, w, hdigits⟩ : ∃ x y z w, hexText 4 c.toNat = [x, y, z, w] :=
          ⟨_, _, _, _, rfl⟩
        rw [hdigits] at hread
        rw [charText, hform]
        dsimp only
        rw [hdigits]
        show hexLoop (0x5C :: 0x75 :: x :: y :: z :: w :: chars.flatMap (charText py quote)) = _
        rw [hexLoop, if_pos ⟨rfl, rfl⟩]
        simp only [hread, ih hchars, ← codePointBytes_eq]
        rfl
      · rw [hform] at hspec
        have hread := readHex_hexText (by decide : 0 < 2) (by decide) hspec.2
        obtain ⟨x, y, hdigits⟩ : ∃ x y, hexText 2 c.toNat = [x, y] := ⟨_, _, rfl⟩
        rw [hdigits] at hread
        rw [charText, hform]
        dsimp only
        rw [hdigits]
        show hexLoop [0x5C, 0x78, x, y] = _
        have hread' : hexLoop [0x5C, 0x78, x, y] = (readHex [x, y]).map codePointBytes := rfl
        rw [hread', hread, Option.map_some, codePointBytes_eq]
        simp

end Loops

section Lines

/-- A line of a vocabulary file. -/
structure Line where
  id : Int
  quote : UInt8
  literal : Literal
  length : Int
  isQuote : isQuote quote = true
  idInt : -2 ^ 31 ≤ id ∧ id < 2 ^ 31
  lengthInt : -2 ^ 31 ≤ length ∧ length < 2 ^ 31

variable (py : Python)

/-- The line as it stands in the file. -/
def lineText (l : Line) : Bytes :=
  decimal l.id ++ 0x20 :: (literalText py l.quote l.literal ++ 0x20 :: decimal l.length)

/-- The file. -/
def fileText (lines : List Line) : Bytes :=
  lines.flatMap (fun l => lineText py l ++ [0x0A])

/-- A str literal that starts with `\x` or `\u`. -/
def StartsHex (quote : UInt8) (chars : List Char) : Bool :=
  chars.head?.any (fun c => form py quote c = .hex2 || form py quote c = .hex4)

/-- The literals that are read. -/
def Handled (l : Line) : Prop :=
  match l.literal with
  | .bytes _ => True
  | .str chars =>
      if 0 < l.length ∧ StartsHex py l.quote chars = true then
        FourDigit py l.quote chars ∧ l.length ≤ l.literal.denotes.length
      else ∀ c ∈ chars, Plain py c

variable {py : Python} {quote : UInt8}

theorem startsHex_of_ne {a : UInt8} (h : a ≠ 0x5C) (s : Bytes) : startsHex (a :: s) = false := by
  cases s with
  | nil => rfl
  | cons b s => simp [startsHex, h]

theorem startsHex_content (hquote : VocabFile.isQuote quote = true) (chars : List Char) :
    startsHex (content py quote (.str chars)) = StartsHex py quote chars := by
  cases chars with
  | nil => rfl
  | cons c chars =>
      have hspec := @form_spec py quote hquote c
      rw [content, List.flatMap_cons, StartsHex, List.head?_cons, Option.any_some]
      rw [charText]
      cases hform : form py quote c with
      | raw =>
          have hraw := (notMem_raw hform).1
          obtain ⟨a, tails, heq, -, -⟩ := isChar_shape ⟨c, rfl⟩
          rw [heq, List.mem_cons, not_or] at hraw
          dsimp only
          rw [heq, List.cons_append, startsHex_of_ne (fun hbackslash => hraw.1 hbackslash.symm)]
          rfl
      | simple letter =>
          rw [hform] at hspec
          obtain ⟨-, -, -, -, hletter⟩ := hspec
          simp [startsHex, hletter]
      | hex2 => rfl
      | hex4 => rfl
      | hex8 => rfl

/-- The quotation marks and the space after the literal are taken away. -/
theorem processVocabFormat_literalText (hquote : VocabFile.isQuote quote = true)
    (literal : Literal) :
    processVocabFormat (literalText py quote literal ++ [0x20]) = content py quote literal := by
  cases literal with
  | str chars =>
      generalize hcontent : content py quote (.str chars) = s
      have htext : literalText py quote (.str chars) ++ [0x20] = quote :: (s ++ [quote, 0x20]) := by
        simp [literalText, hcontent]
      rw [htext, processVocabFormat, if_pos hquote, substr]
      simp
  | bytes data =>
      generalize hcontent : content py quote (.bytes data) = s
      have htext : literalText py quote (.bytes data) ++ [0x20] =
          0x62 :: quote :: (s ++ [quote, 0x20]) := by
        simp [literalText, hcontent]
      rw [htext, processVocabFormat, if_neg (by decide), if_pos ⟨rfl, by simpa using hquote⟩,
        substr]
      simp

/-- The first space and the last one. -/
theorem spaces_of_append {d e : Bytes} (hd : (0x20 : UInt8) ∉ d) (he : (0x20 : UInt8) ∉ e)
    (s : Bytes) :
    (d ++ 0x20 :: (s ++ 0x20 :: e)).findIdx? (· = 0x20) = some d.length ∧
      (d ++ 0x20 :: (s ++ 0x20 :: e)).reverse.findIdx (· = 0x20) = e.length := by
  constructor
  · have hnone : d.findIdx? (fun c => decide (c = 0x20)) = none := by
      rw [List.findIdx?_eq_none_iff]
      intro c hc
      exact decide_eq_false (fun heq => hd (heq ▸ hc))
    rw [List.findIdx?_append, hnone, List.findIdx?_cons]
    simp
  · have hrev : (d ++ 0x20 :: (s ++ 0x20 :: e)).reverse =
        e.reverse ++ 0x20 :: (s.reverse ++ 0x20 :: d.reverse) := by simp
    have hnone : e.reverse.findIdx (fun c => decide (c = 0x20)) = e.reverse.length := by
      rw [List.findIdx_eq_length]
      intro c hc
      exact decide_eq_false (fun heq => he (heq ▸ List.mem_reverse.mp hc))
    rw [hrev, List.findIdx_append, hnone, if_neg (Nat.lt_irrefl _), List.findIdx_cons]
    simp

/-- The parts of a line. -/
theorem parts_of_append (d s e : Bytes) :
    let text := d ++ 0x20 :: (s ++ 0x20 :: e)
    let lastSpace := text.length - 1 - e.length
    text.take d.length = d ∧ text.drop (lastSpace + 1) = e ∧
      text.drop (d.length + 1) = s ++ 0x20 :: e ∧
      (text.drop (d.length + 1)).take (lastSpace - d.length) = s ++ [0x20] := by
  intro text lastSpace
  have hlast : lastSpace = d.length + 1 + s.length := by
    simp only [lastSpace, text, List.length_append, List.length_cons]
    omega
  have hdrop : text.drop (d.length + 1) = s ++ 0x20 :: e := by
    simp [text, List.drop_append]
  have hcount : lastSpace - d.length = s.length + 1 := by omega
  refine ⟨List.take_left' rfl, ?_, hdrop, ?_⟩
  · have hsum : lastSpace + 1 = (d.length + 1) + (s.length + 1) := by omega
    rw [hsum, ← List.drop_drop, hdrop]
    simp [List.drop_append]
  · rw [hdrop, hcount]
    simp [List.take_append]

/-- Whether the literal is a str literal. -/
def Literal.isStr : Literal → Bool
  | str _ => true
  | bytes _ => false

theorem head?_literalText (hquote : VocabFile.isQuote quote = true) (literal : Literal)
    (rest : Bytes) :
    decide ((literalText py quote literal ++ rest).head? ≠ some 0x62) = literal.isStr := by
  cases literal with
  | str chars =>
      have hne : quote ≠ 0x62 := by
        rintro rfl
        exact Bool.noConfusion hquote
      simp [literalText, Literal.isStr, hne]
  | bytes data => rfl

/-- What is read from a line. -/
theorem readLine_lineText (l : Line) :
    readLine (lineText py l) =
      (processEscapes (content py l.quote l.literal) l.literal.isStr l.length).map
        (fun x => (l.id, x)) := by
  obtain ⟨hid, -⟩ := notMem_decimal l.id
  obtain ⟨hlength, -⟩ := notMem_decimal l.length
  obtain ⟨hfirst, hlast⟩ := spaces_of_append hid hlength (literalText py l.quote l.literal)
  obtain ⟨htake, hdrop, hrest, hliteral⟩ :=
    parts_of_append (decimal l.id) (literalText py l.quote l.literal) (decimal l.length)
  rw [readLine, lineText, hfirst]
  dsimp only
  rw [hlast, htake, hdrop, hliteral, hrest, stoi_decimal l.idInt.1 l.idInt.2,
    stoi_decimal l.lengthInt.1 l.lengthInt.2, head?_literalText l.isQuote,
    processVocabFormat_literalText l.isQuote, Option.map_eq_bind]
  rfl

/-- The literals that are handled are read. -/
theorem processEscapes_content {l : Line} (h : Handled py l) :
    processEscapes (content py l.quote l.literal) l.literal.isStr l.length =
      some l.literal.denotes := by
  unfold Handled at h
  unfold processEscapes
  cases hliteral : l.literal with
  | bytes data =>
      rw [if_neg (by simp [Literal.isStr])]
      exact escapeLoop_bytes l.isQuote data
  | str chars =>
      simp only [hliteral] at h
      rw [startsHex_content l.isQuote]
      by_cases hbranch : 0 < l.length ∧ StartsHex py l.quote chars = true
      · rw [if_pos hbranch] at h
        rw [if_pos ⟨rfl, hbranch⟩, hexLoop_str l.isQuote h.1, Option.map_some]
        have hpad : l.length.toNat - (Literal.str chars).denotes.length = 0 := by
          have hle := h.2
          omega
        rw [hpad]
        rfl
      · rw [if_neg hbranch] at h
        rw [if_neg (fun hall => hbranch hall.2)]
        exact escapeLoop_str l.isQuote h

/-- A printed character has no end of line in it. -/
theorem notMem_charText (hquote : VocabFile.isQuote quote = true) (c : Char) :
    (0x0A : UInt8) ∉ charText py quote c := by
  have hhex : ∀ letter width, letter ≠ 0x0A →
      (0x0A : UInt8) ∉ 0x5C :: letter :: hexText width c.toNat := by
    intro letter width hletter hmem
    rw [List.mem_cons, List.mem_cons] at hmem
    rcases hmem with heq | heq | hmem
    · exact absurd heq (by decide)
    · exact hletter heq.symm
    · exact (of_digitOf le_rfl (isDigit_hexText _ _ _ hmem)).2.2.2.2.1 rfl
  have hspec := @form_spec py quote hquote c
  unfold charText
  cases hform : form py quote c with
  | raw => exact (notMem_raw hform).2
  | simple letter =>
      rw [hform] at hspec
      obtain ⟨-, -, -, hletter, -⟩ := hspec
      simp [hletter.symm]
  | hex2 => exact hhex _ _ (by decide)
  | hex4 => exact hhex _ _ (by decide)
  | hex8 => exact hhex _ _ (by decide)

theorem notMem_byteText (hquote : VocabFile.isQuote quote = true) (b : UInt8) :
    (0x0A : UInt8) ∉ byteText quote b := by
  have hne : (0x0A : UInt8) ≠ quote := by
    rintro rfl
    exact Bool.noConfusion hquote
  unfold byteText
  repeat' split
  · simp [hne]
  · decide
  · decide
  · decide
  · decide
  · rename_i hline _ _
    simpa using fun heq => hline heq.symm
  · intro hmem
    rw [List.mem_cons, List.mem_cons] at hmem
    rcases hmem with heq | heq | hmem
    · exact absurd heq (by decide)
    · exact absurd heq (by decide)
    · exact (of_digitOf le_rfl (isDigit_hexText _ _ _ hmem)).2.2.2.2.1 rfl

theorem notMem_lineText (l : Line) : (0x0A : UInt8) ∉ lineText py l := by
  have hquote : (0x0A : UInt8) ≠ l.quote := by
    intro heq
    have hisQuote := l.isQuote
    rw [← heq] at hisQuote
    exact Bool.noConfusion hisQuote
  have hcontent : (0x0A : UInt8) ∉ content py l.quote l.literal := by
    unfold content
    split
    · rw [List.mem_flatMap]
      rintro ⟨c, -, hc⟩
      exact notMem_charText l.isQuote c hc
    · rw [List.mem_flatMap]
      rintro ⟨b, -, hb⟩
      exact notMem_byteText l.isQuote b hb
  have hliteral : (0x0A : UInt8) ∉ literalText py l.quote l.literal := by
    unfold literalText
    split <;> simp_all
  simp [lineText, (notMem_decimal l.id).2, (notMem_decimal l.length).2, hliteral]

theorem getLines_fileText (lines : List Line) :
    getLines (fileText py lines) = lines.map (lineText py) := by
  have hsplit : (fileText py lines).splitOn 0x0A = lines.map (lineText py) ++ [[]] := by
    induction lines with
    | nil => rfl
    | cons l lines ih =>
        have hcons : fileText py (l :: lines) = lineText py l ++ 0x0A :: fileText py lines := by
          simp [fileText]
        rw [hcons, List.splitOn_append_cons_self_of_not_mem (notMem_lineText l), ih]
        rfl
  rw [getLines, hsplit]
  simp

/-- The tokens of a file whose literals are all handled. -/
theorem load_fileText {lines : List Line} (h : ∀ l ∈ lines, Handled py l) :
    load (fileText py lines) =
      some (ofEntries (lines.map (fun l => (l.id, l.literal.denotes)))) := by
  have hall : (lines.map (lineText py)).mapM readLine =
      some (lines.map (fun l => (l.id, l.literal.denotes))) := by
    induction lines with
    | nil => rfl
    | cons l lines ih =>
        obtain ⟨hl, hlines⟩ := List.forall_mem_cons.mp h
        have hread : readLine (lineText py l) = some (l.id, l.literal.denotes) := by
          rw [readLine_lineText, processEscapes_content hl]
          rfl
        simp [List.mapM_cons, hread, ih hlines]
  rw [load, getLines_fileText, hall]
  rfl

end Lines

section Loads

variable (py : Python)

/-- After loading, each id decodes to the bytes of its literal, and those can be encoded as it. -/
def LoadsExactly (lines : List Line) : Prop :=
  ∃ t, load (fileText py lines) = some t ∧ ∀ l ∈ lines,
    t.decodeBytes [l.id] = some l.literal.denotes ∧
      ∃ order, t.encodeBytes order l.literal.denotes = [l.id]

/-- The literals are handled; no two lines share an id or a token, and no line has a special one. -/
structure Loadable (lines : List Line) : Prop where
  handled : ∀ l ∈ lines, Handled py l
  ids : (lines.map Line.id).Nodup
  tokens : (lines.map (fun l => l.literal.denotes)).Nodup
  nonempty : ∀ l ∈ lines, l.literal.denotes ≠ []
  special : ∀ l ∈ lines, l.id ≠ 0 ∧ l.id ≠ -1

/-- An order of sets that starts with an id where it can. -/
def preferring (id : Int) : SetOrder where
  first values :=
    if id ∈ values then id else if h : values.Nonempty then values.min' h else 0
  first_mem := by
    intro values h
    rw [dif_pos h]
    split
    · assumption
    · exact values.min'_mem h

/-- These vocabularies are loaded exactly. -/
theorem load_exact {lines : List Line} (h : Loadable py lines) : LoadsExactly py lines := by
  let entries : List (Int × Bytes) := lines.map (fun l => (l.id, l.literal.denotes))
  have hids : (entries.map Prod.fst).Nodup := by
    rw [List.map_map]
    exact h.ids
  have hdata : (entries.map Prod.snd).Nodup := by
    rw [List.map_map]
    exact h.tokens
  have hentry : ∀ l ∈ lines, (l.id, l.literal.denotes) ∈ entries := fun l hl =>
    List.mem_map.mpr ⟨l, hl, rfl⟩
  have husable : Usable (entries ++ [(0, eodData)]) := by
    constructor
    · intro e he
      rcases List.mem_append.mp he with hmem | hmem
      · obtain ⟨l, hl, rfl⟩ := List.mem_map.mp hmem
        exact (h.special l hl).2
      · rw [List.mem_singleton.mp hmem]
        decide
    · intro e he
      rcases List.mem_append.mp he with hmem | hmem
      · obtain ⟨l, hl, rfl⟩ := List.mem_map.mp hmem
        exact h.nonempty l hl
      · rw [List.mem_singleton.mp hmem]
        decide
  refine ⟨ofEntries entries, load_fileText h.handled, ?_⟩
  intro l hl
  have hmem := hentry l hl
  refine ⟨?_, preferring l.id, ?_⟩
  · have hdecode := getTokenData_ofEntries hids hdata hmem (h.special l hl).1
    simp [decodeBytes, hdecode]
  · have hholds := holds_ofEntries entries
    have htoken : IsToken (entries ++ [(0, eodData)]) l.literal.denotes :=
      ⟨l.id, List.mem_append_left _ hmem⟩
    have hkept : l.id ∈ OptimizedTrie.valuesAt l.literal.denotes (ofEntries entries).root :=
      (hholds.ids _ _).mpr ⟨List.mem_append_left _ hmem, (h.special l hl).2⟩
    rw [encodeBytes_token _ hholds husable htoken]
    exact congrArg (fun id => [id]) (if_pos hkept)

/-- A Python that prints no more than ASCII as it is. -/
def asciiPython : Python where
  printable c := 0x20 ≤ c.toNat && c.toNat < 0x7F
  ascii := by
    intro c _
    rw [Bool.and_eq_true, decide_eq_true_eq, decide_eq_true_eq]

/-- `1 'a\x80' 3`. -/
def letterThenControl : Line where
  id := 1
  quote := 0x27
  literal := .str ['a', '\u0080']
  length := 3
  isQuote := rfl
  idInt := by decide
  lengthInt := by decide

/-- `2 '\u200b' 3`. -/
def zeroWidthSpace : Line where
  id := 2
  quote := 0x27
  literal := .str ['\u200b']
  length := 3
  isQuote := rfl
  idInt := by decide
  lengthInt := by decide

/-- `1 b'\xff"' 2`. -/
def byteThenQuote : Line where
  id := 1
  quote := 0x27
  literal := .bytes [0xFF, 0x22]
  length := 2
  isQuote := rfl
  idInt := by decide
  lengthInt := by decide

/-- A byte and a character, with escapes at the start. -/
theorem load_exact_two : LoadsExactly asciiPython [byteThenQuote, zeroWidthSpace] :=
  load_exact asciiPython
    { handled := by
        intro l hl
        rcases List.mem_pair.mp hl with rfl | rfl
        · trivial
        · exact ⟨⟨Or.inr (Or.inl rfl), trivial⟩, by decide⟩
      ids := by decide
      tokens := by decide
      nonempty := by decide
      special := by decide }

/-- An escape after a letter is taken for a byte. -/
theorem load_letterThenControl : ¬ LoadsExactly asciiPython [letterThenControl] := by
  have hread : readLine (lineText asciiPython letterThenControl) = some (1, [0x61, 0x80]) := by
    rw [readLine_lineText]
    decide
  have hload : load (fileText asciiPython [letterThenControl]) =
      some (ofEntries [(1, [0x61, 0x80])]) := by
    rw [load, getLines_fileText]
    simp [List.mapM_cons, hread]
  rintro ⟨t, ht, hall⟩
  obtain rfl := Option.some.inj (hload.symm.trans ht)
  have hdecode := (hall letterThenControl (List.mem_singleton.mpr rfl)).1
  revert hdecode
  decide

end Loads

end VocabFile
end RwkvLightning

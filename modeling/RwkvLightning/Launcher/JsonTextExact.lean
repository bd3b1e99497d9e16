import RwkvLightning.Launcher.JsonText
import RwkvLightning.Launcher.JsonDecoderExact

/-!
# What is written is read back

**Results.**
* `unquote_encode`: a well-formed text is read back from its pieces.
* `wellFormed_unquote`: what is read is well formed.
* `reads_quoted`, `reads_indentedArray`, `reads_indentedObject`: a value that is laid out is
  read back, whatever stands behind it.
-/

namespace RwkvLightning
namespace Launcher

open JsonString (Bytes Piece Plain CodeUnit High Low shortValue scalarBytes pairValue quote
  backslash spelled literal)
open Utf8 (IsChar WellFormed)
open Separated (ReadsAs Starts)

section Characters

theorem runeSize_two {a b : UInt8} (h : IsChar [a, b]) (rest : Bytes) :
    runeSize (a :: b :: rest) = some 2 := by
  have hchar := Utf8.isChar_two.mp h
  simp only [Utf8.Tail] at hchar
  rw [runeSize.eq_def]
  dsimp only
  simp only [UInt8.lt_iff_toNat_lt, UInt8.le_iff_toNat_le, UInt8.reduceToNat]
  rw [if_neg (by omega), if_pos (by omega), if_pos (by omega)]

theorem runeSize_three {a b c : UInt8} (h : IsChar [a, b, c]) (rest : Bytes) :
    runeSize (a :: b :: c :: rest) = some 3 := by
  have hchar := Utf8.isChar_three.mp h
  simp only [Utf8.Tail] at hchar
  rw [runeSize.eq_def]
  dsimp only
  simp only [UInt8.lt_iff_toNat_lt, UInt8.le_iff_toNat_le, UInt8.reduceToNat, ← UInt8.toNat_inj]
  rw [if_neg (by omega), if_neg (by omega), if_pos (by omega), if_pos]
  split <;> split <;> simp only [UInt8.reduceToNat] <;> omega

theorem runeSize_four {a b c d : UInt8} (h : IsChar [a, b, c, d]) (rest : Bytes) :
    runeSize (a :: b :: c :: d :: rest) = some 4 := by
  have hchar := Utf8.isChar_four.mp h
  simp only [Utf8.Tail] at hchar
  rw [runeSize.eq_def]
  dsimp only
  simp only [UInt8.lt_iff_toNat_lt, UInt8.le_iff_toNat_le, UInt8.reduceToNat, ← UInt8.toNat_inj]
  rw [if_neg (by omega), if_neg (by omega), if_neg (by omega), if_pos (by omega), if_pos]
  split <;> split <;> simp only [UInt8.reduceToNat] <;> omega

/-- `utf8.DecodeRune` finds the character at the front. -/
theorem runeSize_char {char : Bytes} (h : IsChar char) (rest : Bytes) :
    runeSize (char ++ rest) = some char.length := by
  obtain ⟨hpos, hle⟩ := Utf8.length_isChar h
  match char, h, hpos, hle with
  | [_], h, _, _ =>
      have ha := Utf8.isChar_one.mp h
      exact runeSize_ascii (UInt8.lt_iff_toNat_lt.mpr (Nat.lt_succ_of_le ha)) rest
  | [_, _], h, _, _ => exact runeSize_two h rest
  | [_, _, _], h, _, _ => exact runeSize_three h rest
  | [_, _, _, _], h, _, _ => exact runeSize_four h rest

/-- What it finds in a text of two or more bytes is a character. -/
theorem isChar_of_runeSize_cons {a b : UInt8} {rest : Bytes} {size : Nat}
    (h : runeSize (a :: b :: rest) = some size) :
    IsChar ((a :: b :: rest).take size) := by
  rw [runeSize.eq_def] at h
  simp only [UInt8.lt_iff_toNat_lt, UInt8.le_iff_toNat_le, ← UInt8.toNat_inj] at h
  split at h
  · next hone =>
      cases h
      exact Utf8.isChar_one.mpr (Nat.le_of_lt_succ hone)
  split at h
  · next hone htwo =>
      obtain ⟨hb, hsize⟩ := Option.ite_none_right_eq_some.mp h
      cases hsize
      exact Utf8.isChar_two.mpr ⟨htwo, hb⟩
  split at h
  · next hone htwo hthree =>
      cases rest with
      | nil => cases h
      | cons c rest =>
          obtain ⟨hbytes, hsize⟩ := Option.ite_none_right_eq_some.mp h
          cases hsize
          refine Utf8.isChar_three.mpr ?_
          simp only [Utf8.Tail]
          split at hbytes <;> split at hbytes <;> simp only [UInt8.reduceToNat] at * <;> omega
  split at h
  · next hone htwo hthree hfour =>
      cases rest with
      | nil => cases h
      | cons c rest =>
          cases rest with
          | nil => cases h
          | cons d rest =>
              obtain ⟨hbytes, hsize⟩ := Option.ite_none_right_eq_some.mp h
              cases hsize
              refine Utf8.isChar_four.mpr ?_
              simp only [Utf8.Tail]
              split at hbytes <;> split at hbytes <;> simp only [UInt8.reduceToNat] at * <;> omega
  · cases h

/-- What it finds is a character. -/
theorem isChar_of_runeSize {text : Bytes} {size : Nat} (h : runeSize text = some size) :
    IsChar (text.take size) := by
  cases text with
  | nil => cases h
  | cons a tail =>
      cases tail with
      | nil =>
          obtain ⟨ha, hsize⟩ := Option.ite_none_right_eq_some.mp h
          cases hsize
          exact Utf8.isChar_one.mpr (Nat.le_of_lt_succ (UInt8.lt_iff_toNat_lt.mp ha))
      | cons b rest => exact isChar_of_runeSize_cons h
end Characters

section Pieces

variable {pieces : List Piece}

/-- `unquote` writes `bytes` for the pieces, whatever comes behind them. -/
def Unquotes (pieces : List Piece) (bytes : Bytes) : Prop :=
  ∀ more, unquote (pieces ++ more) = bytes ++ unquote more

theorem unquotes_of_written {piece : Piece} {bytes : Bytes}
    (h : ∀ more, written piece more = (bytes, 0)) : Unquotes [piece] bytes := by
  intro more
  rw [List.singleton_append, unquote_cons, h]
  rfl

theorem unquotes_short {letter value : UInt8} (h : shortValue letter = some value) :
    Unquotes [.short letter value h] [value] :=
  unquotes_of_written fun _ => rfl

theorem unquotes_unit {u : CodeUnit} (hhigh : ¬High u.value) (hlow : ¬Low u.value) :
    Unquotes [.unit u] (scalarBytes u.value) := by
  refine unquotes_of_written fun more => ?_
  rw [written.eq_def]
  dsimp only
  rw [if_neg hhigh, if_neg hlow]

/-- Pieces that stand for their own bytes. -/
def Raw (pieces : List Piece) : Prop := ∀ piece ∈ pieces, ∃ byte plain, piece = .raw byte plain

theorem rawFront_append (h : Raw pieces) (more : List Piece) :
    rawFront (pieces ++ more) = spelled pieces ++ rawFront more := by
  induction pieces with
  | nil => rfl
  | cons piece pieces ih =>
      obtain ⟨byte, plain, rfl⟩ := h piece List.mem_cons_self
      rw [List.cons_append, rawFront, ih fun piece hmem => h piece (List.mem_cons_of_mem _ hmem)]
      rfl

theorem length_spelled (h : Raw pieces) : (spelled pieces).length = pieces.length := by
  induction pieces with
  | nil => rfl
  | cons piece pieces ih =>
      obtain ⟨byte, plain, rfl⟩ := h piece List.mem_cons_self
      have hrest := ih fun piece hmem => h piece (List.mem_cons_of_mem _ hmem)
      rw [JsonString.spelled_cons, List.length_append, hrest, List.length_cons, Nat.add_comm]
      rfl

theorem unquoteFrom_append (pieces more : List Piece) :
    unquoteFrom pieces.length (pieces ++ more) = unquote more := by
  induction pieces with
  | nil => rfl
  | cons piece pieces ih => exact ih

/-- A character that stands for itself. -/
theorem unquotes_raw (h : Raw pieces) {char : Bytes} (hchar : IsChar char)
    (hspelled : spelled pieces = char) : Unquotes pieces char := by
  intro more
  cases pieces with
  | nil =>
      rw [← hspelled] at hchar
      exact absurd (Utf8.length_isChar hchar).1 (Nat.lt_irrefl 0)
  | cons piece pieces =>
      obtain ⟨byte, plain, rfl⟩ := h piece List.mem_cons_self
      have hmore : Raw pieces := fun piece hmem => h piece (List.mem_cons_of_mem _ hmem)
      have htext : byte :: rawFront (pieces ++ more) = char ++ rawFront more := by
        rw [rawFront_append hmore, ← hspelled]
        rfl
      have hlength : char.length - 1 = pieces.length := by
        rw [← hspelled, length_spelled h]
        rfl
      have hwritten : written (.raw byte plain) (pieces ++ more) = (char, pieces.length) := by
        rw [written, htext, runeSize_char hchar]
        dsimp only
        rw [List.take_left, hlength]
      rw [List.cons_append, unquote_cons, hwritten]
      dsimp only
      rw [unquoteFrom_append]

end Pieces

section Encoding

theorem scalarBytes_ascii {byte : UInt8} (h : byte < 0x80) : scalarBytes byte.toNat = [byte] := by
  have hle : byte.toNat ≤ 0x7F := Nat.le_of_lt_succ (UInt8.lt_iff_toNat_lt.mp h)
  obtain ⟨c, hc⟩ := Utf8.exists_char (n := byte.toNat) (Or.inl (by omega))
  rw [JsonString.scalarBytes_of_eq hc.symm, String.utf8EncodeChar, hc]
  exact (if_pos hle).trans (by rw [UInt8.ofNat_toNat])

theorem unquotes_escapeByte {byte : UInt8} (h : byte < 0x80) :
    Unquotes [escapeByte byte] [byte] := by
  have hle : byte.toNat ≤ 0x7F := Nat.le_of_lt_succ (UInt8.lt_iff_toNat_lt.mp h)
  rw [escapeByte]
  split
  · next hsafe =>
      refine unquotes_raw ?_ (Utf8.isChar_one.mpr hle) rfl
      intro piece hpiece
      exact ⟨byte, hsafe.1, List.mem_singleton.mp hpiece⟩
  iterate 7
    split
    · next hbyte =>
        rw [hbyte]
        exact unquotes_short _
  · have hunit : (codeUnit byte.toNat (by omega)).value = byte.toNat := rfl
    rw [← scalarBytes_ascii h]
    refine unquotes_unit ?_ ?_
    · rw [hunit, High]
      omega
    · rw [hunit, Low]
      omega

theorem encodeFrom_append (front rest : Bytes) :
    encodeFrom front.length (front ++ rest) = encode rest := by
  induction front with
  | nil => rfl
  | cons byte front ih => exact ih

theorem raw_copied {char : Bytes} (h : ∀ byte ∈ char, Plain byte) : Raw (copied char) := by
  intro piece hpiece
  obtain ⟨byte, hbyte, rfl⟩ := List.mem_map.mp hpiece
  exact ⟨byte, h byte hbyte, dif_pos (h byte hbyte)⟩

theorem spelled_copied {char : Bytes} (h : ∀ byte ∈ char, Plain byte) :
    spelled (copied char) = char := by
  induction char with
  | nil => rfl
  | cons byte char ih =>
      rw [List.forall_mem_cons] at h
      have hcopied : copied (byte :: char) = .raw byte h.1 :: copied char := by
        rw [copied, List.map_cons, dif_pos h.1]
        rfl
      rw [hcopied, JsonString.spelled_cons, ih h.2]
      rfl

theorem plain_of_high {byte : UInt8} (h : 0x80 ≤ byte.toNat) : Plain byte := by
  refine ⟨?_, ?_, ?_⟩
  · exact UInt8.le_iff_toNat_le.mpr (le_trans (by decide) h)
  · rintro rfl
    exact absurd h (by decide)
  · rintro rfl
    exact absurd h (by decide)

/-- What is written for a character is read back. -/
theorem encode_char {char : Bytes} (h : IsChar char) (rest : Bytes) :
    ∃ pieces, encode (char ++ rest) = pieces ++ encode rest ∧ Unquotes pieces char := by
  obtain ⟨byte, tails, rfl, hlead, htails⟩ := Utf8.isChar_shape h
  have hstep : encode (byte :: tails ++ rest) =
      (encodeRune byte (tails ++ rest)).1 ++
        encodeFrom (encodeRune byte (tails ++ rest)).2 (tails ++ rest) := rfl
  by_cases hbyte : byte < 0x80
  · have hle : byte.toNat ≤ 0x7F := Nat.le_of_lt_succ (UInt8.lt_iff_toNat_lt.mp hbyte)
    have hnil : tails = [] := by
      rw [Utf8.LeadOf] at hlead
      exact List.length_eq_zero_iff.mp (by omega)
    subst hnil
    refine ⟨[escapeByte byte], ?_, unquotes_escapeByte hbyte⟩
    rw [hstep, encodeRune, if_pos hbyte]
    rfl
  · have hhigh : 0x80 ≤ byte.toNat := by
      rw [UInt8.lt_iff_toNat_lt] at hbyte
      exact Nat.le_of_not_lt hbyte
    have hsize : runeSize (byte :: (tails ++ rest)) = some (tails.length + 1) := runeSize_char h rest
    have htake : (byte :: (tails ++ rest)).take (tails.length + 1) = byte :: tails :=
      @List.take_left _ (byte :: tails) rest
    have hrune : encodeRune byte (tails ++ rest) =
        if byte :: tails = [0xE2, 0x80, 0xA8] then ([.unit (codeUnit 0x2028 (by decide))], 2)
        else if byte :: tails = [0xE2, 0x80, 0xA9] then ([.unit (codeUnit 0x2029 (by decide))], 2)
        else (copied (byte :: tails), tails.length) := by
      rw [encodeRune, if_neg hbyte, hsize]
      dsimp only
      rw [htake]
      rfl
    rw [hstep, hrune]
    split
    · next hline =>
        cases hline
        exact ⟨_, rfl, unquotes_unit (by decide) (by decide)⟩
    split
    · next hparagraph =>
        cases hparagraph
        exact ⟨_, rfl, unquotes_unit (by decide) (by decide)⟩
    · have hplain : ∀ b ∈ byte :: tails, Plain b := by
        rw [List.forall_mem_cons]
        exact ⟨plain_of_high hhigh, fun b hb => plain_of_high (htails b hb).1⟩
      refine ⟨_, congrArg _ (encodeFrom_append tails rest), ?_⟩
      exact unquotes_raw (raw_copied hplain) h (spelled_copied hplain)

/-- A well-formed text is read back from its pieces. -/
theorem unquote_encode {text : Bytes} (h : WellFormed text) : unquote (encode text) = text := by
  refine h.induction (motive := fun text => unquote (encode text) = text) rfl ?_
  intro char rest hchar _ ih
  obtain ⟨pieces, hencode, hunquotes⟩ := encode_char hchar rest
  rw [hencode, hunquotes, ih]

end Encoding

section WellFormedness

theorem isChar_scalarBytes (value : Nat) : IsChar (scalarBytes value) :=
  ⟨Char.ofNat value, rfl⟩

theorem wellFormed_written (piece : Piece) (pieces : List Piece) :
    WellFormed (written piece pieces).1 := by
  have herror : WellFormed runeError := Utf8.wellFormed_char (Utf8.isChar_three.mpr (by
    simp only [Utf8.Tail]
    decide))
  cases piece with
  | raw byte plain =>
      rw [written]
      split
      · next size hsize => exact Utf8.wellFormed_char (isChar_of_runeSize hsize)
      · exact herror
  | short letter value h =>
      exact Utf8.wellFormed_char (Utf8.isChar_one.mpr (JsonString.shortValue_le h))
  | unit u =>
      rw [written.eq_def]
      dsimp only
      split
      · split
        · next l more =>
            split
            · dsimp only
              exact Utf8.wellFormed_char (isChar_scalarBytes _)
            · exact herror
        · exact herror
      · split
        · exact herror
        · exact Utf8.wellFormed_char (isChar_scalarBytes _)

theorem wellFormed_unquoteFrom (skip : Nat) (pieces : List Piece) :
    WellFormed (unquoteFrom skip pieces) := by
  induction pieces generalizing skip with
  | nil =>
      cases skip <;> exact Utf8.wellFormed_nil
  | cons piece pieces ih =>
      cases skip with
      | zero => exact (wellFormed_written piece pieces).append (ih _)
      | succ skip => exact ih skip

/-- What is read is well formed. -/
theorem wellFormed_unquote (pieces : List Piece) : WellFormed (unquote pieces) :=
  wellFormed_unquoteFrom 0 pieces

/-- A value whose strings are well formed. -/
inductive Decoded : Json → Prop
  | scalar {token : Token} : (∀ text, token = .str text → WellFormed text) →
      Decoded (.scalar token)
  | array {items : List Json} : (∀ item ∈ items, Decoded item) → Decoded (.array items)
  | object {members : List (Bytes × Json)} : (∀ member ∈ members, Decoded member.2) →
      Decoded (.object members)

theorem decoded_value {text rest : Bytes} {token : Token} (h : value text = some (token, rest)) :
    Decoded (.scalar token) := by
  refine .scalar fun found hfound => ?_
  subst hfound
  rw [value.eq_def] at h
  split at h
  · obtain ⟨pieces, -, hsame⟩ := Option.map_eq_some_iff.mp h
    cases hsame
    exact wellFormed_unquote pieces.1
  · cases h
  · cases h
  · cases h
  · obtain ⟨rest, -, hsame⟩ := Option.map_eq_some_iff.mp h
    cases hsame

theorem readBracketed_forall {α : Type} {item : Bytes → Option (α × Bytes)} {P : α → Prop}
    (h : ∀ text a rest, item text = some (a, rest) → P a) {closing : UInt8} {text rest : Bytes}
    {values : List α} (hread : readBracketed item closing text = some (values, rest)) :
    ∀ a ∈ values, P a := by
  rw [readBracketed] at hread
  split at hread
  · cases hread
  · split at hread
    · cases hread
      exact List.forall_mem_nil P
    · exact Separated.readItems_forall h hread

theorem readMember_decoded {read : Bytes → Option (Json × Bytes)}
    (h : ∀ text found rest, read text = some (found, rest) → Decoded found) {text rest : Bytes}
    {member : Bytes × Json} (hread : readMember read text = some (member, rest)) :
    Decoded member.2 := by
  rw [readMember.eq_def] at hread
  split at hread
  · cases hread
  · split at hread
    · cases hread
    · split at hread
      · cases hread
      · split at hread
        · cases hread
        · split at hread
          · cases hread
          · obtain ⟨found, hfound, hsame⟩ := Option.map_eq_some_iff.mp hread
            cases hsame
            exact h _ _ _ hfound

/-- What is read has well-formed strings. -/
theorem decoded_readValue {depth : Nat} {text rest : Bytes} {found : Json}
    (h : readValue depth text = some (found, rest)) : Decoded found := by
  induction depth generalizing text rest found with
  | zero =>
      obtain ⟨token, htoken, hsame⟩ := Option.map_eq_some_iff.mp h
      cases hsame
      exact decoded_value htoken
  | succ depth ih =>
      rw [readValue.eq_def] at h
      dsimp only at h
      split at h
      · cases h
      · split at h
        · obtain ⟨items, hitems, hsame⟩ := Option.map_eq_some_iff.mp h
          cases hsame
          exact .array (readBracketed_forall (fun _ _ _ hread => ih hread) hitems)
        · split at h
          · obtain ⟨members, hmembers, hsame⟩ := Option.map_eq_some_iff.mp h
            cases hsame
            refine .object (readBracketed_forall (fun _ _ _ hread => ?_) hmembers)
            exact readMember_decoded (fun _ _ _ hread => ih hread) hread
          · obtain ⟨token, htoken, hsame⟩ := Option.map_eq_some_iff.mp h
            cases hsame
            exact decoded_value htoken

theorem decoded_parse {text : Bytes} {found : Json} (h : parse text = some found) :
    Decoded found := by
  rw [parse] at h
  split at h
  · cases h
  · next other rest hread =>
      obtain ⟨-, hsame⟩ := Option.ite_none_right_eq_some.mp h
      cases hsame
      exact decoded_readValue hread

end WellFormedness

section Layout

variable {depth : Nat}

theorem starts_quoted (text : Bytes) : Starts isSpace (quoted text) :=
  ⟨quote, _, rfl, by decide⟩

theorem starts_indented {opening : UInt8} (h : isSpace opening = false) (closing : UInt8)
    (depth : Nat) (items : List Bytes) : Starts isSpace (indented opening closing depth items) := by
  rw [indented]
  split
  · exact ⟨opening, _, rfl, h⟩
  · exact ⟨opening, _, rfl, h⟩

theorem starts_indentedArray (depth : Nat) (items : List Bytes) :
    Starts isSpace (indentedArray depth items) :=
  starts_indented (by decide) _ depth items

theorem starts_indentedObject (depth : Nat) (members : List (Bytes × Bytes)) :
    Starts isSpace (indentedObject depth members) :=
  starts_indented (by decide) _ depth _

theorem stringPieces_quoted (text rest : Bytes) :
    stringPieces (spelled (encode text) ++ (quote :: rest)) = some (encode text, rest) :=
  stringPieces_spelled _ rest

theorem readValue_scalar {text rest : Bytes} {token : Token} {c : UInt8}
    (harray : c ≠ 0x5B) (hobject : c ≠ 0x7B) (h : value (c :: text) = some (token, rest)) :
    readValue depth (c :: text) = some (.scalar token, rest) := by
  cases depth with
  | zero =>
      rw [readValue, h]
      rfl
  | succ depth =>
      rw [readValue, if_neg harray, if_neg hobject, h]
      rfl

/-- A string is read back. -/
theorem reads_quoted (depth : Nat) {text : Bytes} (h : WellFormed text) :
    ReadsAs (readValue depth) (quoted text) (.scalar (.str text)) := by
  intro rest
  have hbytes : quoted text ++ rest = quote :: (spelled (encode text) ++ (quote :: rest)) := by
    rw [quoted, literal, List.cons_append, List.append_assoc]
    rfl
  have hvalue : value (quote :: (spelled (encode text) ++ (quote :: rest))) =
      (stringPieces (spelled (encode text) ++ (quote :: rest))).map
        fun found => (.str (unquote found.1), found.2) := rfl
  rw [stringPieces_quoted, Option.map_some, unquote_encode h] at hvalue
  rw [hbytes]
  exact readValue_scalar (by decide) (by decide) hvalue

theorem blank_newline (depth : Nat) : ∀ c ∈ newline depth, isSpace c = true := by
  intro c hc
  rcases List.mem_cons.mp hc with rfl | hc
  · decide
  · rw [(List.mem_replicate.mp hc).2]
    decide

/-- The texts begin with neither white space nor the closing mark. -/
def Opens (closing : UInt8) (items : List Bytes) : Prop :=
  ∀ item ∈ items, Starts isSpace item ∧ item.head? ≠ some closing

/-- What is laid out between two brackets is read back. -/
theorem readBracketed_indented {α : Type} {item : Bytes → Option (α × Bytes)}
    {closing : UInt8} (hclosing : isSpace closing = false) (hcomma : closing ≠ 0x2C)
    {items : List Bytes} {values : List α} (hopens : Opens closing items)
    (hreads : List.Forall₂ (ReadsAs item) items values) (opening : UInt8) (depth : Nat)
    (rest : Bytes) :
    ∃ inner, indented opening closing depth items ++ rest = opening :: inner ∧
      readBracketed item closing inner = some (values, rest) := by
  by_cases hitems : items = []
  · subst hitems
    cases hreads
    refine ⟨closing :: rest, rfl, ?_⟩
    rw [readBracketed, List.dropWhile_cons_of_neg (by rw [hclosing]; exact Bool.false_ne_true)]
    exact if_pos rfl
  · have hstarts : ∀ item ∈ items, Starts isSpace item := fun item hitem => (hopens item hitem).1
    let inner := Separated.writeItems (newline (depth + 1)) 0x2C items ++
      (newline depth ++ closing :: rest)
    have hbytes : indented opening closing depth items ++ rest = opening :: inner := by
      rw [indented, if_neg hitems, List.cons_append, List.append_assoc, List.append_assoc]
      rfl
    have hlength : items.length ≤ inner.length := by
      refine (Separated.length_le_writeItems (newline (depth + 1)) 0x2C hstarts).trans ?_
      rw [List.length_append]
      exact Nat.le_add_right _ _
    have hread : Separated.readItems isSpace 0x2C closing item inner.length inner =
        some (values, rest) :=
      Separated.readItems_writeItems (blank_newline (depth + 1)) (blank_newline depth) (by decide)
        hclosing hcomma hstarts hreads hitems hlength rest
    refine ⟨inner, hbytes, ?_⟩
    obtain ⟨first, more, rfl⟩ := List.exists_cons_of_ne_nil hitems
    obtain ⟨hfirst, hhead⟩ := hopens first List.mem_cons_self
    obtain ⟨behind, hfront⟩ := Separated.writeItems_cons (newline (depth + 1)) 0x2C first more
    have hinner : inner =
        newline (depth + 1) ++ (first ++ (behind ++ (newline depth ++ closing :: rest))) := by
      rw [← List.append_assoc first, ← List.append_assoc (newline (depth + 1)), ← hfront]
    have hdrop := Separated.dropWhile_gap (blank_newline (depth + 1)) hfirst
      (behind ++ (newline depth ++ closing :: rest))
    rw [← hinner] at hdrop
    obtain ⟨c, text, rfl, -⟩ := hfirst
    rw [readBracketed, hdrop]
    exact (if_neg fun hsame => hhead (congrArg some hsame)).trans hread

/-- A list is read back. -/
theorem reads_indentedArray {items : List Bytes} {values : List Json} (hopens : Opens 0x5D items)
    (hreads : List.Forall₂ (ReadsAs (readValue depth)) items values) (level : Nat) :
    ReadsAs (readValue (depth + 1)) (indentedArray level items) (.array values) := by
  intro rest
  obtain ⟨inner, hbytes, hread⟩ :=
    readBracketed_indented (by decide) (by decide) hopens hreads 0x5B level rest
  rw [indentedArray, hbytes, readValue, if_pos rfl, hread]
  rfl

/-- A member of an object is read back. -/
theorem reads_indentedMember {name : Bytes} (hname : WellFormed name) {text : Bytes} {found : Json}
    (hstarts : Starts isSpace text) (hreads : ReadsAs (readValue depth) text found) :
    ReadsAs (readMember (readValue depth)) (indentedMember name text) (name, found) := by
  intro rest
  have hbytes : indentedMember name text ++ rest =
      quote :: (spelled (encode name) ++ (quote :: 0x3A :: 0x20 :: (text ++ rest))) := by
    simp [indentedMember, quoted, literal]
  have hcolon : (0x3A :: 0x20 :: (text ++ rest)).dropWhile isSpace =
      0x3A :: 0x20 :: (text ++ rest) := rfl
  have hblanks : ∀ c ∈ [(0x20 : UInt8)], isSpace c = true := by
    intro c hc
    rw [List.mem_singleton.mp hc]
    decide
  have hblank : ([0x20] ++ (text ++ rest)).dropWhile isSpace = text ++ rest :=
    Separated.dropWhile_gap hblanks hstarts rest
  rw [hbytes, readMember, if_neg (not_not.mpr rfl), stringPieces_quoted]
  dsimp only
  rw [hcolon]
  dsimp only
  rw [if_neg (not_not.mpr rfl)]
  rw [List.singleton_append] at hblank
  rw [hblank, hreads, unquote_encode hname]
  rfl

/-- An object is read back. -/
theorem reads_indentedObject {members : List (Bytes × Bytes)} {values : List (Bytes × Json)}
    (hmembers : List.Forall₂ (fun member value => member.1 = value.1 ∧ WellFormed member.1 ∧
      Starts isSpace member.2 ∧ ReadsAs (readValue depth) member.2 value.2) members values)
    (level : Nat) :
    ReadsAs (readValue (depth + 1)) (indentedObject level members) (.object values) := by
  intro rest
  have hopens : Opens 0x7D (members.map fun member => indentedMember member.1 member.2) := by
    intro item hitem
    obtain ⟨member, -, rfl⟩ := List.mem_map.mp hitem
    have hhead : (indentedMember member.1 member.2).head? = some quote := rfl
    exact ⟨⟨quote, _, rfl, by decide⟩, by rw [hhead]; decide⟩
  have hreads : List.Forall₂ (ReadsAs (readMember (readValue depth)))
      (members.map fun member => indentedMember member.1 member.2) values := by
    refine List.forall₂_map_left_iff.mpr (hmembers.imp ?_)
    rintro ⟨name, text⟩ ⟨-, found⟩ ⟨rfl, hname, hstarts, hread⟩
    exact reads_indentedMember hname hstarts hread
  obtain ⟨inner, hbytes, hread⟩ :=
    readBracketed_indented (by decide) (by decide) hopens hreads 0x7B level rest
  rw [indentedObject, hbytes, readValue, if_neg (by decide), if_pos rfl, hread]
  rfl

/-- A text that is read as a value is the text of that value. -/
theorem parse_of_reads {text : Bytes} {found : Json} (hstarts : Starts isSpace text)
    (h : ReadsAs (readValue maxNestingDepth) text found) : parse text = some found := by
  have hdrop : text.dropWhile isSpace = text := by
    obtain ⟨c, more, rfl, hc⟩ := hstarts
    exact List.dropWhile_cons_of_neg (by rw [hc]; exact Bool.false_ne_true)
  have hread := h []
  rw [List.append_nil] at hread
  rw [parse, hdrop, hread]
  rfl

end Layout

end Launcher
end RwkvLightning

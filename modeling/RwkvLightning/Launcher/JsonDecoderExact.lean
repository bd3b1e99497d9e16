import RwkvLightning.Launcher.JsonDecoder
import RwkvLightning.Training.DatasetFormat

/-!
# What the JSON decoder accepts

-/

namespace RwkvLightning
namespace Launcher

open JsonString (Bytes ascii Piece Plain CodeUnit High Low shortValue unitValue scalarBytes pairValue
  quote backslash unitLetter spelled decode literal)

section Strings

theorem stringPieces_quote (rest : Bytes) : stringPieces (quote :: rest) = some ([], rest) := by
  rw [stringPieces.eq_def]
  exact if_pos rfl

theorem stringPieces_raw {c : UInt8} (h : Plain c) (rest : Bytes) :
    stringPieces (c :: rest) =
      (stringPieces rest).map fun found => (.raw c h :: found.1, found.2) := by
  rw [stringPieces.eq_def]
  dsimp only
  rw [if_neg h.2.1, dif_pos h]

theorem stringPieces_short {letter value : UInt8} (h : shortValue letter = some value)
    (rest : Bytes) : stringPieces (backslash :: letter :: rest) =
      (stringPieces rest).map fun found => (.short letter value h :: found.1, found.2) := by
  rw [stringPieces.eq_def]
  dsimp only
  rw [if_neg (by decide), dif_neg (by decide), if_neg (by decide)]
  split
  · rename_i other hother
    cases h.symm.trans hother
    rfl
  · rename_i hnone
    rw [h] at hnone
    cases hnone

theorem stringPieces_letter {letter : UInt8} (h : shortValue letter = none) (rest : Bytes) :
    stringPieces (backslash :: letter :: rest) =
      if letter ≠ unitLetter then none
      else
        match rest with
        | a :: b :: c :: d :: rest =>
            match h : unitValue a b c d with
            | some value =>
                (stringPieces rest).map fun found =>
                  (.unit ⟨a, b, c, d, value, h⟩ :: found.1, found.2)
            | none => none
        | _ => none := by
  rw [stringPieces.eq_def]
  dsimp only
  rw [if_neg (by decide), dif_neg (by decide), if_neg (by decide)]
  split
  · rename_i other hother
    rw [h] at hother
    cases hother
  · rfl

theorem stringPieces_unit (u : CodeUnit) (rest : Bytes) :
    stringPieces (backslash :: unitLetter :: (u.digits ++ rest)) =
      (stringPieces rest).map fun found => (.unit u :: found.1, found.2) := by
  obtain ⟨a, b, c, d, value, hvalue⟩ := u
  rw [stringPieces_letter (by decide), if_neg (by decide)]
  dsimp only [CodeUnit.digits, List.cons_append, List.nil_append]
  split
  · rename_i other hother
    cases hvalue.symm.trans hother
    rfl
  · rename_i hnone
    rw [hvalue] at hnone
    cases hnone

theorem stringPieces_spelled (pieces : List Piece) (rest : Bytes) :
    stringPieces (spelled pieces ++ quote :: rest) = some (pieces, rest) := by
  induction pieces with
  | nil => exact stringPieces_quote rest
  | cons piece pieces ih =>
      rw [JsonString.spelled_cons, List.append_assoc]
      cases piece with
      | raw c plain =>
          show stringPieces (c :: (spelled pieces ++ quote :: rest)) = _
          rw [stringPieces_raw plain, ih]
          rfl
      | short letter value short =>
          show stringPieces (backslash :: letter :: (spelled pieces ++ quote :: rest)) = _
          rw [stringPieces_short short, ih]
          rfl
      | unit u =>
          show stringPieces (backslash :: unitLetter :: (u.digits ++ (spelled pieces ++ quote :: rest))) = _
          rw [stringPieces_unit, ih]
          rfl

/-- Nothing but pieces and a quote behind them is taken. -/
theorem eq_of_stringPieces {text rest : Bytes} {pieces : List Piece}
    (h : stringPieces text = some (pieces, rest)) : text = spelled pieces ++ quote :: rest := by
  induction text using stringPieces.induct generalizing pieces with
  | case1 => cases h
  | case2 behind =>
      rw [stringPieces_quote] at h
      cases h
      rfl
  | case3 c behind hquote hplain ih =>
      rw [stringPieces_raw hplain, Option.map_eq_some_iff] at h
      obtain ⟨⟨more, after⟩, hmore, hsame⟩ := h
      cases hsame
      rw [ih hmore]
      rfl
  | case6 c hquote hplain hback letter behind value hshort ih =>
      obtain rfl := not_not.mp hback
      rw [stringPieces_short hshort, Option.map_eq_some_iff] at h
      obtain ⟨⟨more, after⟩, hmore, hsame⟩ := h
      cases hsame
      rw [ih hmore]
      rfl
  | case8 c hquote hplain hback letter hshort hletter x y z w behind value hvalue ih =>
      obtain rfl := not_not.mp hback
      obtain rfl := not_not.mp hletter
      have hunit := stringPieces_unit ⟨x, y, z, w, value, hvalue⟩ behind
      rw [CodeUnit.digits, List.cons_append, List.cons_append, List.cons_append, List.cons_append,
        List.nil_append] at hunit
      rw [hunit, Option.map_eq_some_iff] at h
      obtain ⟨⟨more, after⟩, hmore, hsame⟩ := h
      cases hsame
      rw [ih hmore]
      rfl
  | case4 c behind hquote hplain hback =>
      rw [stringPieces.eq_def] at h
      dsimp only at h
      rw [if_neg hquote, dif_neg hplain, if_pos hback] at h
      cases h
  | case5 c hquote hplain hback =>
      rw [stringPieces.eq_def] at h
      dsimp only at h
      rw [if_neg hquote, dif_neg hplain, if_neg hback] at h
      cases h
  | case7 c hquote hplain hback letter behind hshort hletter =>
      rw [not_not.mp hback, stringPieces_letter hshort, if_pos hletter] at h
      cases h
  | case9 c hquote hplain hback letter hshort hletter x y z w behind hvalue =>
      rw [not_not.mp hback, stringPieces_letter hshort, if_neg hletter] at h
      dsimp only at h
      split at h
      · rename_i value hsome
        rw [hvalue] at hsome
        cases hsome
      · cases h
  | case10 c hquote hplain hback letter behind hshort hletter hfour =>
      rw [not_not.mp hback, stringPieces_letter hshort, if_neg hletter] at h
      split at h
      · exact (hfour _ _ _ _ _ rfl).elim
      · cases h

/-- Only bytes below 0x80. -/
def Ascii (text : Bytes) : Prop := ∀ c ∈ text, c < 0x80

instance (text : Bytes) : Decidable (Ascii text) :=
  List.decidableBAll _ text

theorem unquote_cons (piece : Piece) (pieces : List Piece) :
    unquote (piece :: pieces) =
      (written piece pieces).1 ++ unquoteFrom (written piece pieces).2 pieces := rfl

/-- `unquote` and `decode` write the same for an ASCII text. -/
def SameAscii (text : Bytes) (decoded : Option Bytes) : Prop :=
  ∀ out, Ascii out → (text = out ↔ decoded = some out)

theorem SameAscii.behind {text : Bytes} {decoded : Option Bytes} (h : SameAscii text decoded)
    (front : Bytes) : SameAscii (front ++ text) (decoded.map (front ++ ·)) := by
  intro out hout
  constructor
  · rintro rfl
    have htext : Ascii text := fun c hc => hout c (List.mem_append_right front hc)
    rw [(h text htext).mp rfl]
    rfl
  · intro hmap
    obtain ⟨more, hmore, rfl⟩ := Option.map_eq_some_iff.mp hmap
    have hascii : Ascii more := fun c hc => hout c (List.mem_append_right front hc)
    rw [(h more hascii).mpr hmore]

/-- A byte from 0x80 on stands in front of both. -/
theorem sameAscii_of_head {c : UInt8} {rest : Bytes} {decoded : Option Bytes} (hc : ¬c < 0x80)
    (hdecoded : ∀ out, decoded = some out → ∃ c ∈ out, ¬c < 0x80) :
    SameAscii (c :: rest) decoded := by
  intro out hout
  constructor
  · rintro rfl
    exact absurd (hout c List.mem_cons_self) hc
  · intro hsome
    obtain ⟨byte, hmem, hbyte⟩ := hdecoded out hsome
    exact absurd (hout byte hmem) hbyte

theorem sameAscii_none (rest : Bytes) : SameAscii (runeError ++ rest) none :=
  sameAscii_of_head (by decide) fun out hout => by cases hout

theorem runeSize_ascii {byte : UInt8} (h : byte < 0x80) (rest : Bytes) :
    runeSize (byte :: rest) = some 1 := by
  cases rest with
  | nil => exact if_pos h
  | cons next rest =>
      rw [runeSize.eq_def]
      exact if_pos h

theorem runeSize_pos {text : Bytes} {size : Nat} (h : runeSize text = some size) : 0 < size := by
  rw [runeSize.eq_def] at h
  repeat' split at h
  all_goals
    cases h
    try exact Nat.succ_pos _

theorem head_of_raw {byte : UInt8} (plain : Plain byte) (hbyte : ¬byte < 0x80)
    (pieces : List Piece) :
    ∃ c rest, unquote (.raw byte plain :: pieces) = c :: rest ∧ ¬c < 0x80 := by
  rw [unquote_cons, written]
  cases hsize : runeSize (byte :: rawFront pieces) with
  | none => exact ⟨0xEF, _, rfl, by decide⟩
  | some size =>
      cases size with
      | zero => exact absurd (runeSize_pos hsize) (Nat.lt_irrefl 0)
      | succ size => exact ⟨byte, _, rfl, hbyte⟩

/-- An ASCII text is what `unquote` writes exactly if the pieces stand for it. -/
theorem sameAscii_unquote (pieces : List Piece) : SameAscii (unquote pieces) (decode pieces) := by
  induction pieces using JsonString.decode.induct with
  | case1 => exact fun out _ => Option.some_inj.symm
  | case2 byte plain pieces ih =>
      rw [JsonString.decode_raw]
      by_cases hbyte : byte < 0x80
      · have hwritten : written (.raw byte plain) pieces = ([byte], 0) := by
          rw [written, runeSize_ascii hbyte]
          rfl
        rw [unquote_cons, hwritten]
        exact ih.behind [byte]
      · obtain ⟨c, rest, htext, hc⟩ := head_of_raw plain hbyte pieces
        rw [htext]
        refine sameAscii_of_head hc fun out hout => ?_
        obtain ⟨more, -, rfl⟩ := Option.map_eq_some_iff.mp hout
        exact ⟨byte, List.mem_cons_self, hbyte⟩
  | case3 letter value short pieces ih =>
      rw [JsonString.decode_short]
      exact ih.behind [value]
  | case4 u hu l pieces hl ih =>
      have hwritten : written (.unit u) (.unit l :: pieces) =
          (scalarBytes (pairValue u.value l.value), 1) := by
        rw [written, if_pos hu]
        exact if_pos hl
      have hskip : unquoteFrom 1 (.unit l :: pieces) = unquote pieces := rfl
      rw [JsonString.decode_pair hu hl, unquote_cons, hwritten]
      dsimp only
      rw [hskip]
      exact ih.behind _
  | case5 u hu l pieces hl =>
      have hwritten : written (.unit u) (.unit l :: pieces) = (runeError, 0) := by
        rw [written, if_pos hu]
        exact if_neg hl
      have hnext : ∀ other rest, Piece.unit l :: pieces = .unit other :: rest → ¬Low other.value := by
        rintro other rest hsame
        cases hsame
        exact hl
      rw [JsonString.decode_high hu hnext, unquote_cons, hwritten]
      exact sameAscii_none _
  | case6 u pieces hu hnext =>
      have hwritten : written (.unit u) pieces = (runeError, 0) := by
        rw [written.eq_def]
        dsimp only
        rw [if_pos hu]
        split
        · exact absurd rfl (hnext _ _)
        · rfl
      rw [JsonString.decode_high hu fun l rest hsame => absurd hsame (hnext l rest), unquote_cons,
        hwritten]
      exact sameAscii_none _
  | case7 u pieces hu hl =>
      have hwritten : written (.unit u) pieces = (runeError, 0) := by
        rw [written.eq_def]
        dsimp only
        rw [if_neg hu, if_pos hl]
      rw [JsonString.decode_low hl, unquote_cons, hwritten]
      exact sameAscii_none _
  | case8 u pieces hu hl ih =>
      have hwritten : written (.unit u) pieces = (scalarBytes u.value, 0) := by
        rw [written.eq_def]
        dsimp only
        rw [if_neg hu, if_neg hl]
      rw [JsonString.decode_unit hu hl, unquote_cons, hwritten]
      exact ih.behind _

end Strings

section Passes

variable {d : Decoder}

theorem rest_lt {text rest : Bytes} {c : UInt8} (h : text.dropWhile isSpace = c :: rest) :
    rest.length < text.length := by
  have hle := (List.dropWhile_sublist isSpace (l := text)).length_le
  rw [h, List.length_cons] at hle
  exact hle

theorem tokenPass_congr {again others : Decoder → Except Failure (Token × Decoder)}
    (h : ∀ next : Decoder, next.rest.length < d.rest.length → again next = others next) :
    tokenPass again d = tokenPass others d := by
  cases hdrop : d.rest.dropWhile isSpace with
  | nil => simp only [tokenPass, hdrop]
  | cons c rest =>
      have hlt := rest_lt hdrop
      simp only [tokenPass, hdrop, h { d with state := .objectValue, rest := rest } hlt,
        h { d with state := .arrayValue, rest := rest } hlt,
        h { d with state := .objectKey, rest := rest } hlt]

/-- The passes that the loop does not need do not matter. -/
theorem tokenLoop_eq {passes : Nat} (h : d.rest.length < passes) :
    tokenLoop passes d = token d := by
  rw [token]
  induction hlength : d.rest.length using Nat.strongRecOn generalizing d passes with
  | ind n ih =>
      obtain ⟨passes, rfl⟩ : ∃ m, passes = m + 1 := ⟨passes - 1, by omega⟩
      rw [tokenLoop, tokenLoop]
      refine tokenPass_congr fun next hnext => ?_
      have hfirst := ih next.rest.length (by omega) (show next.rest.length < passes by omega) rfl
      have hsecond := ih next.rest.length (by omega) (show next.rest.length < n by omega) rfl
      exact hfirst.trans hsecond.symm

theorem token_eq (d : Decoder) : token d = tokenPass token d := by
  rw [token, tokenLoop]
  exact tokenPass_congr fun next hnext => tokenLoop_eq hnext

end Passes

section Steps

/-- A mark that `Token` takes without returning. -/
inductive Skips : Decoder → Decoder → Prop
  | colon {stack : List TokenState} {text rest : Bytes} :
      text.dropWhile isSpace = 0x3A :: rest →
      Skips ⟨.objectColon, stack, text⟩ ⟨.objectValue, stack, rest⟩
  | arrayComma {stack : List TokenState} {text rest : Bytes} :
      text.dropWhile isSpace = 0x2C :: rest →
      Skips ⟨.arrayComma, stack, text⟩ ⟨.arrayValue, stack, rest⟩
  | objectComma {stack : List TokenState} {text rest : Bytes} :
      text.dropWhile isSpace = 0x2C :: rest →
      Skips ⟨.objectComma, stack, text⟩ ⟨.objectKey, stack, rest⟩

/-- A token that `Token` returns, numbers and `null` aside. -/
inductive Reads : Decoder → Token → Decoder → Prop
  | openArray {state : TokenState} {stack : List TokenState} {text rest : Bytes} :
      state.valueAllowed = true → text.dropWhile isSpace = 0x5B :: rest →
      Reads ⟨state, stack, text⟩ (.delim 0x5B) ⟨.arrayStart, state :: stack, rest⟩
  | closeArray {state outer : TokenState} {stack : List TokenState} {text rest : Bytes} :
      state = .arrayStart ∨ state = .arrayComma → text.dropWhile isSpace = 0x5D :: rest →
      Reads ⟨state, outer :: stack, text⟩ (.delim 0x5D) ⟨outer.valueEnd, stack, rest⟩
  | openObject {state : TokenState} {stack : List TokenState} {text rest : Bytes} :
      state.valueAllowed = true → text.dropWhile isSpace = 0x7B :: rest →
      Reads ⟨state, stack, text⟩ (.delim 0x7B) ⟨.objectStart, state :: stack, rest⟩
  | closeObject {state outer : TokenState} {stack : List TokenState} {text rest : Bytes} :
      state = .objectStart ∨ state = .objectComma → text.dropWhile isSpace = 0x7D :: rest →
      Reads ⟨state, outer :: stack, text⟩ (.delim 0x7D) ⟨outer.valueEnd, stack, rest⟩
  | key {state : TokenState} {stack : List TokenState} {text rest : Bytes} {pieces : List Piece} :
      state = .objectStart ∨ state = .objectKey →
      text.dropWhile isSpace = literal pieces ++ rest →
      Reads ⟨state, stack, text⟩ (.str (unquote pieces)) ⟨.objectColon, stack, rest⟩
  | str {state : TokenState} {stack : List TokenState} {text rest : Bytes} {pieces : List Piece} :
      state.valueAllowed = true → ¬(state = .objectStart ∨ state = .objectKey) →
      text.dropWhile isSpace = literal pieces ++ rest →
      Reads ⟨state, stack, text⟩ (.str (unquote pieces)) ⟨state.valueEnd, stack, rest⟩
  | bool {state : TokenState} {stack : List TokenState} {text rest : Bytes} {word : Bool} :
      state.valueAllowed = true → text.dropWhile isSpace = (Dataset.Token.word word).bytes ++ rest →
      Reads ⟨state, stack, text⟩ (.bool word) ⟨state.valueEnd, stack, rest⟩

theorem value_literal (pieces : List Piece) (rest : Bytes) :
    value (literal pieces ++ rest) = some (.str (unquote pieces), rest) := by
  rw [Dataset.literal_append]
  show (stringPieces (spelled pieces ++ quote :: rest)).map _ = _
  rw [stringPieces_spelled]
  rfl

theorem value_word (word : Bool) (rest : Bytes) :
    value ((Dataset.Token.word word).bytes ++ rest) = some (.bool word, rest) := by
  cases word <;> rfl

/-- A byte that is no mark begins a value. -/
theorem token_of_value {d : Decoder} {c : UInt8} {rest behind : Bytes} {found : Token}
    (hdrop : d.rest.dropWhile isSpace = c :: rest) (hmark : c ∉ ascii "[]{}:,")
    (hkey : ¬(c = quote ∧ (d.state = .objectStart ∨ d.state = .objectKey)))
    (allowed : d.state.valueAllowed = true) (hvalue : value (c :: rest) = some (found, behind)) :
    token d = .ok (found, { d with state := d.state.valueEnd, rest := behind }) := by
  have hmarks : c ≠ 0x5B ∧ c ≠ 0x5D ∧ c ≠ 0x7B ∧ c ≠ 0x7D ∧ c ≠ 0x3A ∧ c ≠ 0x2C := by
    simpa [ascii] using hmark
  obtain ⟨harray, hclose, hobject, hbrace, hcolon, hcomma⟩ := hmarks
  rw [token_eq]
  simp only [tokenPass, hdrop]
  rw [if_neg harray, if_neg hclose, if_neg hobject, if_neg hbrace, if_neg hcolon, if_neg hcomma,
    if_neg hkey, if_pos allowed, hvalue]

/-- A string where a key may stand. -/
theorem token_of_key {state : TokenState} {stack : List TokenState} {text rest : Bytes}
    {pieces : List Piece} (hstate : state = .objectStart ∨ state = .objectKey)
    (hdrop : text.dropWhile isSpace = quote :: (spelled pieces ++ quote :: rest)) :
    token ⟨state, stack, text⟩ = .ok (.str (unquote pieces), ⟨.objectColon, stack, rest⟩) := by
  rw [token_eq]
  simp only [tokenPass, hdrop, true_and]
  rw [if_neg (by decide), if_neg (by decide), if_neg (by decide), if_neg (by decide),
    if_neg (by decide), if_neg (by decide), if_pos hstate, stringPieces_spelled]

theorem token_of_reads {d after : Decoder} {found : Token} (h : Reads d found after) :
    token d = .ok (found, after) := by
  cases h with
  | openArray allowed hdrop =>
      rw [token_eq]
      simp only [tokenPass, hdrop]
      simp [allowed]
  | closeArray hstate hdrop =>
      rw [token_eq]
      simp only [tokenPass, hdrop]
      simp [closing, hstate]
  | openObject allowed hdrop =>
      rw [token_eq]
      simp only [tokenPass, hdrop]
      simp [allowed]
  | closeObject hstate hdrop =>
      rw [token_eq]
      simp only [tokenPass, hdrop]
      simp [closing, hstate]
  | key hstate hdrop =>
      rw [Dataset.literal_append] at hdrop
      exact token_of_key hstate hdrop
  | @str state stack text rest pieces allowed hstate hdrop =>
      have hvalue := value_literal pieces rest
      rw [Dataset.literal_append] at hdrop hvalue
      exact token_of_value hdrop (by decide) (fun hboth => hstate hboth.2) allowed hvalue
  | @bool state stack text rest word allowed hdrop =>
      have hvalue := value_word word rest
      cases word with
      | true =>
          have hletter : ¬((0x74 : UInt8) = quote ∧ (state = .objectStart ∨ state = .objectKey)) :=
            fun hboth => absurd hboth.1 (by decide)
          exact token_of_value hdrop (by decide) hletter allowed hvalue
      | false =>
          have hletter : ¬((0x66 : UInt8) = quote ∧ (state = .objectStart ∨ state = .objectKey)) :=
            fun hboth => absurd hboth.1 (by decide)
          exact token_of_value hdrop (by decide) hletter allowed hvalue

/-- A mark between two tokens is taken on the way to the second. -/
theorem token_of_skips {d mid : Decoder} (h : Skips d mid) : token d = token mid := by
  cases h with
  | colon hdrop =>
      rw [token_eq]
      simp [tokenPass, hdrop]
  | arrayComma hdrop =>
      rw [token_eq]
      simp [tokenPass, hdrop]
  | objectComma hdrop =>
      rw [token_eq]
      simp [tokenPass, hdrop]

/-- What `Decode` takes where no array and no object begins. -/
theorem value_cases {text rest : Bytes} {found : Token} (h : value text = some (found, rest)) :
    (found = .number ∨ found = .null) ∨
      (∃ pieces, found = .str (unquote pieces) ∧ text = literal pieces ++ rest) ∨
      ∃ word, found = .bool word ∧ text = (Dataset.Token.word word).bytes ++ rest := by
  rw [value.eq_def] at h
  split at h
  · obtain ⟨⟨pieces, after⟩, hpieces, hsame⟩ := Option.map_eq_some_iff.mp h
    cases hsame
    refine Or.inr (Or.inl ⟨pieces, rfl, ?_⟩)
    rw [Dataset.literal_append, eq_of_stringPieces hpieces]
    rfl
  · cases h
    exact Or.inr (Or.inr ⟨true, rfl, rfl⟩)
  · cases h
    exact Or.inr (Or.inr ⟨false, rfl, rfl⟩)
  · cases h
    exact Or.inl (Or.inr rfl)
  · obtain ⟨after, -, hsame⟩ := Option.map_eq_some_iff.mp h
    cases hsame
    exact Or.inl (Or.inl rfl)

theorem closing_cases {c : UInt8} {allowed : Bool} {d after : Decoder} {rest : Bytes}
    {found : Token} (h : closing c allowed d rest = .ok (found, after)) :
    ∃ outer stack, allowed = true ∧ d.stack = outer :: stack ∧ found = .delim c ∧
      after = ⟨outer.valueEnd, stack, rest⟩ := by
  rw [closing] at h
  split at h
  · rename_i outer stack hstack
    split at h
    · rename_i hallowed
      cases h
      exact ⟨outer, stack, hallowed, hstack, rfl, rfl⟩
    · cases h
  · cases h

/-- What a pass of the loop of `Token` has done. -/
theorem pass_cases {state : TokenState} {stack : List TokenState} {text : Bytes}
    {after : Decoder} {found : Token} (h : token ⟨state, stack, text⟩ = .ok (found, after)) :
    (found = .number ∨ found = .null) ∨ Reads ⟨state, stack, text⟩ found after ∨
      ∃ mid, Skips ⟨state, stack, text⟩ mid ∧ (mid.state = .objectValue ∨ mid.state = .arrayValue ∨
        mid.state = .objectKey) ∧ token mid = .ok (found, after) := by
  rw [token_eq, tokenPass.eq_def] at h
  dsimp only at h
  split at h
  · cases h
  · rename_i c rest hdrop
    split_ifs at h with harray allowed hclose hobject allowed hbrace hcolon hstate hcomma harrayComma
      hobjectComma hkey allowed
    · cases h
      exact Or.inr (Or.inl (harray ▸ Reads.openArray allowed (harray ▸ hdrop)))
    · obtain ⟨outer, inner, hallowed, hstack, rfl, rfl⟩ := closing_cases h
      subst hstack
      rw [Bool.or_eq_true, decide_eq_true_eq, decide_eq_true_eq] at hallowed
      exact Or.inr (Or.inl (hclose ▸ Reads.closeArray hallowed (hclose ▸ hdrop)))
    · cases h
      exact Or.inr (Or.inl (hobject ▸ Reads.openObject allowed (hobject ▸ hdrop)))
    · obtain ⟨outer, inner, hallowed, hstack, rfl, rfl⟩ := closing_cases h
      subst hstack
      rw [Bool.or_eq_true, decide_eq_true_eq, decide_eq_true_eq] at hallowed
      exact Or.inr (Or.inl (hbrace ▸ Reads.closeObject hallowed (hbrace ▸ hdrop)))
    · subst hstate
      exact Or.inr (Or.inr ⟨_, Skips.colon (hcolon ▸ hdrop), Or.inl rfl, h⟩)
    · subst harrayComma
      exact Or.inr (Or.inr ⟨_, Skips.arrayComma (hcomma ▸ hdrop), Or.inr (Or.inl rfl), h⟩)
    · subst hobjectComma
      exact Or.inr (Or.inr ⟨_, Skips.objectComma (hcomma ▸ hdrop), Or.inr (Or.inr rfl), h⟩)
    · split at h
      · rename_i pieces behind hpieces
        cases h
        have htext : text.dropWhile isSpace = literal pieces ++ behind := by
          rw [hdrop, hkey.1, eq_of_stringPieces hpieces, Dataset.literal_append]
        exact Or.inr (Or.inl (Reads.key hkey.2 htext))
      · cases h
    · split at h
      · rename_i token behind hvalue
        cases h
        rcases value_cases hvalue with hother | ⟨pieces, rfl, htext⟩ | ⟨word, rfl, htext⟩
        · exact Or.inl hother
        · have hnokey : ¬(state = .objectStart ∨ state = .objectKey) := by
            rintro (rfl | rfl) <;> cases allowed
          exact Or.inr (Or.inl (Reads.str allowed hnokey (hdrop.trans htext)))
        · exact Or.inr (Or.inl (Reads.bool allowed (hdrop.trans htext)))
      · cases h

/-- What `Token` has done. -/
theorem token_cases {d after : Decoder} {found : Token} (h : token d = .ok (found, after)) :
    (found = .number ∨ found = .null) ∨ Reads d found after ∨
      ∃ mid, Skips d mid ∧ Reads mid found after := by
  rcases pass_cases h with hother | hreads | ⟨mid, hskips, hstate, hmid⟩
  · exact Or.inl hother
  · exact Or.inr (Or.inl hreads)
  · rcases pass_cases hmid with hother | hreads | ⟨last, hlast, -, -⟩
    · exact Or.inl hother
    · exact Or.inr (Or.inr ⟨mid, hskips, hreads⟩)
    · obtain ⟨state, stack, text⟩ := mid
      cases hlast with
      | colon => simp at hstate
      | arrayComma => simp at hstate
      | objectComma => simp at hstate

theorem closing_ne_eof (c : UInt8) (allowed : Bool) (d : Decoder) (rest : Bytes) :
    closing c allowed d rest ≠ .error .eof := by
  rw [closing]
  split
  · split <;> exact fun h => by cases h
  · exact fun h => by cases h

/-- Nothing is left where `Token` finds the end of the text at the top. -/
theorem eof_of_token {state : TokenState} {stack : List TokenState} {text : Bytes}
    (htop : state = .topValue) (h : token ⟨state, stack, text⟩ = .error .eof) :
    text.dropWhile isSpace = [] := by
  rw [token_eq, tokenPass.eq_def] at h
  dsimp only at h
  split at h
  · assumption
  · split_ifs at h with harray allowed hclose hobject allowed hbrace hcolon hstate hcomma harrayComma
      hobjectComma hkey allowed
    · cases h
    · exact absurd h (closing_ne_eof _ _ _ _)
    · cases h
    · exact absurd h (closing_ne_eof _ _ _ _)
    · cases htop.symm.trans hstate
    · cases h
    · cases htop.symm.trans harrayComma
    · cases htop.symm.trans hobjectComma
    · cases h
    · split at h <;> cases h
    · split at h <;> cases h
    · cases h

end Steps

end Launcher
end RwkvLightning

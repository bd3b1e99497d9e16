import RwkvLightning.Training.DatasetFormat

/-!
# The rows that the trainer accepts

What `parse_row` has read when it returns is a row of the format, whatever the white space
in it and the order of the fields.

**Results.**
* `exists_row_of_parseRow`: `parse_row` accepts nothing but rows whose texts decode.
* `dataset_strings_exact`: every spelling of a text is read as its UTF-8 bytes, every row
  of such strings as its segments, and malformed strings are rejected.
-/

namespace RwkvLightning
namespace Dataset

open JsonString (Bytes ascii Piece Spells Malformed decode literal)
open Scanner

section Taken

variable {text rest : Bytes}

theorem took_whitespace {a : Unit} (h : whitespace text = .ok (a, rest)) : Took isSpace [] text rest := by
  cases h
  exact fun _ hrest => Layout.of_dropWhile hrest

theorem took_byte {c : UInt8} {error : String} {a : Unit} (visible : isSpace c = false)
    (h : byte c error text = .ok (a, rest)) : Took isSpace [.mark c visible] text rest := by
  cases text with
  | nil => cases h
  | cons next behind =>
      rw [byte] at h
      split at h
      · rename_i hnext
        cases h
        rw [hnext]
        exact took_token (.mark c visible) _
      · cases h

theorem took_expect {c : UInt8} {error : String} {a : Unit} (visible : isSpace c = false)
    (h : expect c error text = .ok (a, rest)) : Took isSpace [.mark c visible] text rest := by
  rw [expect] at h
  obtain ⟨_, _, hbefore, h⟩ := exists_of_bind h
  obtain ⟨_, _, hbyte, hbehind⟩ := exists_of_bind h
  exact (took_whitespace hbefore).trans ((took_byte visible hbyte).trans (took_whitespace hbehind))

theorem took_comma {found : Bool} (h : comma text = .ok (found, rest)) : Took isSpace [] text rest := by
  rw [comma] at h
  obtain ⟨_, _, hbefore, h⟩ := exists_of_bind h
  cases h
  exact took_whitespace hbefore

theorem took_jsonString {bytes : Bytes} (h : jsonString text = .ok (bytes, rest)) :
    ∃ pieces, decode pieces = some bytes ∧ Took isSpace [.str pieces] text rest := by
  obtain ⟨pieces, hdecode, rfl⟩ := jsonString_eq_ok.mp h
  exact ⟨pieces, hdecode, took_token (.str pieces) rest⟩

theorem took_jsonBool {value : Bool} (h : jsonBool text = .ok (value, rest)) :
    Took isSpace [.word value] text rest := by
  rw [jsonBool] at h
  split at h
  · rename_i htrue
    cases h
    have htook : Took isSpace _ _ _ := took_token (.word true) (text.drop 4)
    rw [Token.bytes, ← htrue, List.take_append_drop] at htook
    exact htook
  · split at h
    · rename_i hfalse
      cases h
      have htook : Took isSpace _ _ _ := took_token (.word false) (text.drop 5)
      rw [Token.bytes, ← hfalse, List.take_append_drop] at htook
      exact htook
    · cases h

end Taken

section Segments

variable {text rest : Bytes} {fields next : SegmentFields} {segment : TextSegment}

/-- What a pass of the loop over the fields of a segment has read. -/
inductive FieldRead (fields : SegmentFields) : SegmentFields → List Token → Prop
  | text {key value : List Piece} {bytes : Bytes} :
      decode key = some (ascii "text") → fields.hasText = false → decode value = some bytes →
      FieldRead fields
        { fields with hasText := true, segment := { fields.segment with text := bytes } }
        [.str key, .mark 0x3A rfl, .str value]
  | train {key : List Piece} {value : Bool} :
      decode key = some (ascii "train") → fields.hasTrain = false →
      FieldRead fields
        { fields with hasTrain := true, segment := { fields.segment with train := value } }
        [.str key, .mark 0x3A rfl, .word value]

theorem read_of_segmentField (h : segmentField fields text = .ok (next, rest)) :
    ∃ part, FieldRead fields next part ∧ Took isSpace part text rest := by
  rw [segmentField] at h
  obtain ⟨name, _, hname, h⟩ := exists_of_bind h
  obtain ⟨key, hkey, htook⟩ := took_jsonString hname
  obtain ⟨_, _, hcolon, h⟩ := exists_of_bind h
  have htook := htook.trans (took_expect rfl hcolon)
  rw [segmentValue] at h
  split at h
  · rename_i hfield
    obtain ⟨bytes, _, hvalue, h⟩ := exists_of_bind h
    obtain ⟨value, hdecode, hpart⟩ := took_jsonString hvalue
    cases h
    rw [hfield.1] at hkey
    exact ⟨_, FieldRead.text hkey hfield.2 hdecode, htook.trans hpart⟩
  · split at h
    · rename_i hfield
      obtain ⟨value, _, hvalue, h⟩ := exists_of_bind h
      cases h
      rw [hfield.1] at hkey
      exact ⟨_, FieldRead.train hkey hfield.2, htook.trans (took_jsonBool hvalue)⟩
    · cases h

/-- A pass of the loop over the fields, and what comes behind it. -/
theorem pass_of_segmentLoop {passes : Nat}
    (h : segmentLoop passes fields text = .ok (segment, rest)) :
    ∃ next part mid, FieldRead fields next part ∧ Took isSpace part text mid ∧
      ((∃ count behind, Took isSpace [.mark 0x2C rfl] mid behind ∧
          segmentLoop count next behind = .ok (segment, rest)) ∨
        Took isSpace [.mark 0x7D rfl] mid rest ∧ next.hasText = true ∧ next.hasTrain = true ∧
          segment = next.segment) := by
  cases passes with
  | zero => cases h
  | succ passes =>
      rw [segmentLoop] at h
      obtain ⟨next, mid, hfield, h⟩ := exists_of_bind h
      obtain ⟨part, hread, hpart⟩ := read_of_segmentField hfield
      obtain ⟨more, _, hcomma, h⟩ := exists_of_bind h
      have hcomma := took_comma hcomma
      refine ⟨next, part, mid, hread, hpart, ?_⟩
      split at h
      · obtain ⟨_, behind, hmark, h⟩ := exists_of_bind h
        exact Or.inl ⟨passes, behind, hcomma.trans (took_expect rfl hmark), h⟩
      · obtain ⟨_, behind, hmark, h⟩ := exists_of_bind h
        split at h
        · cases h
        · rename_i hboth
          cases h
          rw [not_or, Bool.not_eq_false, Bool.not_eq_false] at hboth
          exact Or.inr ⟨hcomma.trans (took_expect rfl hmark), hboth.1, hboth.2, rfl⟩

/-- A third field is no field. -/
theorem segmentLoop_full {passes : Nat} (htext : fields.hasText = true)
    (htrain : fields.hasTrain = true) :
    segmentLoop passes fields text ≠ .ok (segment, rest) := by
  intro h
  obtain ⟨next, part, mid, hread, -⟩ := pass_of_segmentLoop h
  cases hread with
  | text _ hfield _ =>
      rw [htext] at hfield
      cases hfield
  | train _ hfield =>
      rw [htrain] at hfield
      cases hfield

/-- Two fields are the fields of a segment. -/
theorem segment_of_two {one two : SegmentFields} {first second : List Token}
    (hfirst : FieldRead SegmentFields.start one first) (hsecond : FieldRead one two second) :
    (two.hasText = true ∧ two.hasTrain = true) ∧ ∃ s : SegmentSpelling,
      s.segment = some two.segment ∧
        s.tokens = [.mark 0x7B rfl] ++ (first ++ ([.mark 0x2C rfl] ++ (second ++ [.mark 0x7D rfl]))) := by
  cases hfirst with
  | @text textKey value bytes hkey _ hvalue =>
      cases hsecond with
      | text _ hfield _ => cases hfield
      | @train trainKey train htrain _ =>
          refine ⟨⟨rfl, rfl⟩, ⟨textKey, trainKey, value, train, true, hkey, htrain⟩, ?_, rfl⟩
          rw [SegmentSpelling.segment, hvalue]
          rfl
  | @train trainKey train htrain _ =>
      cases hsecond with
      | @text textKey value bytes hkey _ hvalue =>
          refine ⟨⟨rfl, rfl⟩, ⟨textKey, trainKey, value, train, false, hkey, htrain⟩, ?_, rfl⟩
          rw [SegmentSpelling.segment, hvalue]
          rfl
      | train _ hfield => cases hfield

theorem not_both_of_one {one : SegmentFields} {first : List Token}
    (hfirst : FieldRead SegmentFields.start one first) :
    ¬(one.hasText = true ∧ one.hasTrain = true) := by
  rintro ⟨htext, htrain⟩
  cases hfirst with
  | text => cases htrain
  | train => cases htext

/-- What `parse_segment` accepts. -/
theorem took_parseSegment (h : parseSegment text = .ok (segment, rest)) :
    ∃ s : SegmentSpelling, s.segment = some segment ∧ Took isSpace s.tokens text rest := by
  rw [parseSegment] at h
  obtain ⟨_, _, hopen, h⟩ := exists_of_bind h
  have hopen : Took isSpace [.mark 0x7B rfl] text _ := took_expect rfl hopen
  obtain ⟨one, first, _, hone, hfirst, ⟨_, _, hcomma, h⟩ | ⟨-, htext, htrain, -⟩⟩ :=
    pass_of_segmentLoop h
  · obtain ⟨two, second, _, htwo, hsecond, hend⟩ := pass_of_segmentLoop h
    obtain ⟨⟨htext, htrain⟩, s, hsegment, htokens⟩ := segment_of_two hone htwo
    rcases hend with ⟨_, _, -, h⟩ | ⟨hclose, -, -, rfl⟩
    · exact absurd h (segmentLoop_full htext htrain)
    · refine ⟨s, hsegment, ?_⟩
      rw [htokens]
      exact hopen.trans (hfirst.trans (hcomma.trans (hsecond.trans hclose)))
  · exact absurd ⟨htext, htrain⟩ (not_both_of_one hone)

/-- What the loop over the segments accepts. -/
theorem took_segmentsLoop {passes : Nat} {segments : List TextSegment}
    (h : segmentsLoop passes text = .ok (segments, rest)) :
    ∃ first more, (first :: more).mapM SegmentSpelling.segment = some segments ∧
      Took isSpace (segmentTokens first more ++ [.mark 0x5D rfl]) text rest := by
  induction passes generalizing text rest segments with
  | zero => cases h
  | succ passes ih =>
      rw [segmentsLoop] at h
      obtain ⟨segment, _, hsegment, h⟩ := exists_of_bind h
      obtain ⟨s, hs, htook⟩ := took_parseSegment hsegment
      obtain ⟨found, _, hcomma, h⟩ := exists_of_bind h
      have hcomma := took_comma hcomma
      split at h
      · obtain ⟨_, _, hmark, h⟩ := exists_of_bind h
        have hmark := hcomma.trans (took_expect rfl hmark)
        obtain ⟨others, _, hmore, h⟩ := exists_of_bind h
        obtain ⟨next, more, hdecoded, hrest⟩ := ih hmore
        cases h
        refine ⟨s, next :: more, ?_, ?_⟩
        · rw [List.mapM_cons, hs, hdecoded]
          rfl
        · rw [segmentTokens, List.append_assoc]
          exact htook.trans (hmark.trans hrest)
      · obtain ⟨_, _, hmark, h⟩ := exists_of_bind h
        cases h
        refine ⟨s, [], ?_, htook.trans (hcomma.trans (took_expect rfl hmark))⟩
        rw [List.mapM_cons, hs]
        rfl

end Segments

section Rows

variable {text rest : Bytes} {segments : List TextSegment}

theorem layout_of_rowEnd {a : Unit} (h : rowEnd text = .ok (a, rest)) :
    Layout isSpace [.mark 0x7D rfl] text := by
  rw [rowEnd] at h
  obtain ⟨found, _, hcomma, h⟩ := exists_of_bind h
  split at h
  · cases h
  · obtain ⟨_, behind, hmark, h⟩ := exists_of_bind h
    rw [lineEnd] at h
    split at h
    · rename_i hend
      have hnil : Layout isSpace [] behind := by
        rw [hend]
        exact Layout.nil fun _ hc => absurd hc List.not_mem_nil
      exact ((took_comma hcomma).trans (took_expect rfl hmark)) [] hnil
    · cases h

/-- What `parse_row` accepts is a row whose texts decode, and it returns its segments. -/
theorem exists_row_of_parseRow (h : parseRow text = .ok segments) :
    ∃ row : RowSpelling, row.decoded = some segments ∧ Layout isSpace row.tokens text := by
  obtain ⟨rest, hscan⟩ : ∃ rest, scanRow text = .ok (segments, rest) := by
    rw [parseRow] at h
    cases hscan : scanRow text with
    | error message =>
        rw [hscan] at h
        cases h
    | ok found =>
        rw [hscan] at h
        cases h
        exact ⟨found.2, rfl⟩
  rw [scanRow] at hscan
  obtain ⟨_, _, hopen, hscan⟩ := exists_of_bind hscan
  obtain ⟨name, _, hname, hscan⟩ := exists_of_bind hscan
  obtain ⟨key, hkey, hkeyTook⟩ := took_jsonString hname
  obtain ⟨_, _, hcolon, hscan⟩ := exists_of_bind hscan
  obtain ⟨found, _, hvalue, hscan⟩ := exists_of_bind hscan
  obtain ⟨_, _, hend, hscan⟩ := exists_of_bind hscan
  cases hscan
  have hhead : Took isSpace ([.mark 0x7B rfl] ++ ([.str key] ++ [.mark 0x3A rfl])) text _ :=
    (took_expect rfl hopen).trans (hkeyTook.trans (took_expect rfl hcolon))
  have hend := layout_of_rowEnd hend
  rw [rowValue] at hvalue
  split at hvalue
  · rename_i htext
    obtain ⟨bytes, _, hstring, hvalue⟩ := exists_of_bind hvalue
    obtain ⟨value, hdecode, hvalueTook⟩ := took_jsonString hstring
    cases hvalue
    refine ⟨RowSpelling.text key value (htext ▸ hkey), ?_, hhead.trans hvalueTook _ hend⟩
    rw [RowSpelling.decoded, hdecode]
    rfl
  · split at hvalue
    · rename_i hsegments
      obtain ⟨_, _, hbracket, hvalue⟩ := exists_of_bind hvalue
      obtain ⟨empty, _, hempty, hvalue⟩ := exists_of_bind hvalue
      cases hempty
      split at hvalue
      · cases hvalue
      · obtain ⟨first, more, hdecoded, hmore⟩ := took_segmentsLoop hvalue
        refine ⟨RowSpelling.segments key first more (hsegments ▸ hkey), hdecoded, ?_⟩
        have hall := (hhead.trans ((took_expect rfl hbracket).trans hmore)) _ hend
        simp only [List.append_assoc, List.cons_append, List.nil_append] at hall
        rw [RowSpelling.tokens, List.append_assoc]
        exact hall
    · cases hvalue

/-- The texts of a row and their training marks, however the texts are spelled. -/
inductive RowSpelling.Writes : RowSpelling → List (List Char × Bool) → Prop
  | text {key value : List Piece} {key_eq : decode key = some (ascii "text")} {cs : List Char} :
      Spells cs value → Writes (.text key value key_eq) [(cs, true)]
  | segments {key : List Piece} {first : SegmentSpelling} {rest : List SegmentSpelling}
      {key_eq : decode key = some (ascii "segments")} {given : List (List Char × Bool)} :
      List.Forall₂ (fun s part => Spells part.1 s.text ∧ s.train = part.2) (first :: rest) given →
      Writes (.segments key first rest key_eq) given

/-- The segment of a text of Unicode scalar values. -/
def textSegment (part : List Char × Bool) : TextSegment where
  text := part.1.flatMap String.utf8EncodeChar
  train := part.2

theorem segments_of_spells {spelled : List SegmentSpelling} {given : List (List Char × Bool)}
    (h : List.Forall₂ (fun s part => Spells part.1 s.text ∧ s.train = part.2) spelled given) :
    spelled.mapM SegmentSpelling.segment = some (given.map textSegment) := by
  induction h with
  | nil => rfl
  | @cons s part spelled given hpart _ ih =>
      rw [List.mapM_cons, SegmentSpelling.segment, JsonString.decode_of_spells hpart.1, ih, hpart.2]
      rfl

theorem RowSpelling.Writes.decoded {row : RowSpelling} {given : List (List Char × Bool)}
    (h : row.Writes given) : row.decoded = some (given.map textSegment) := by
  cases h with
  | text hspells =>
      rw [RowSpelling.decoded, JsonString.decode_of_spells hspells]
      rfl
  | segments hgiven => exact segments_of_spells hgiven

/-- `json_string` reads every spelling of a text as its UTF-8 bytes and stops behind the
closing quote; `parse_row` reads every row of such texts as the given segments, and nothing
else is a row; and `json_string` rejects exactly the malformed strings. -/
theorem dataset_strings_exact :
    (∀ (cs : List Char) (pieces : List Piece), Spells cs pieces → ∀ rest,
      jsonString (literal pieces ++ rest) = .ok (cs.flatMap String.utf8EncodeChar, rest)) ∧
    (∀ (row : RowSpelling) (given : List (List Char × Bool)), row.Writes given →
      ∀ line, Layout isSpace row.tokens line → parseRow line = .ok (given.map textSegment)) ∧
    (∀ (line : Bytes) (segments : List TextSegment), parseRow line = .ok segments ↔
      ∃ row : RowSpelling, row.decoded = some segments ∧ Layout isSpace row.tokens line) ∧
    ∀ text, (∃ message, jsonString text = .error message) ↔ Malformed text := by
  refine ⟨?_, ?_, ?_, ?_⟩
  · intro cs pieces hspells rest
    exact jsonString_literal (JsonString.decode_of_spells hspells) rest
  · intro row given hgiven line hline
    exact parseRow_of_layout hgiven.decoded hline
  · intro line segments
    constructor
    · exact exists_row_of_parseRow
    · rintro ⟨row, hdecoded, hline⟩
      exact parseRow_of_layout hdecoded hline
  · intro text
    exact jsonString_error_iff

end Rows

end Dataset
end RwkvLightning

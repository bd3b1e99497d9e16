import RwkvLightning.Launcher.DatasetCheck
import RwkvLightning.Launcher.JsonDecoderExact

/-!
# What the launcher lets pass

`validateDatasetRow` reads the tokens of a row.  What it lets pass is a row of the format
with the white space of JSON, whatever its texts stand for.

**Results.**
* `took_validateSegment`, `took_segmentsLoop`: the segments that pass.
* `exists_row_of_validate`: nothing but a row passes.
-/

namespace RwkvLightning
namespace Launcher

open JsonString (Bytes ascii Piece decode)
open Dataset (Layout Took RowSpelling SegmentSpelling segmentTokens)
open Scanner

variable {stack : List TokenState} {text rest : Bytes} {after : Decoder}

section Steps

theorem token_of_next {d : Decoder} {message : String} {found : Token}
    (h : next message d = .ok (found, after)) : token d = .ok (found, after) := by
  rw [next] at h
  split at h
  · rename_i result hresult
    cases h
    exact hresult
  · cases h

theorem token_of_delim {d : Decoder} {c : UInt8} {message : String} {a : Unit}
    (h : delim c message d = .ok (a, after)) : token d = .ok (.delim c, after) := by
  rw [delim] at h
  obtain ⟨found, mid, hnext, h⟩ := exists_of_bind h
  split at h
  · rename_i hfound
    cases h
    rw [← hfound]
    exact token_of_next hnext
  · cases h

theorem eq_of_more {d : Decoder} {found : Bool} (h : more d = .ok (found, after)) :
    found = d.more ∧ after = d := by
  cases h
  exact ⟨rfl, rfl⟩

theorem took_mark {c : UInt8} (visible : Dataset.isSpace c = false)
    (h : text.dropWhile isSpace = c :: rest) : Took isSpace [.mark c visible] text rest :=
  @Dataset.took_of_dropWhile isSpace (.mark c visible) text rest h

theorem took_str {pieces : List Piece}
    (h : text.dropWhile isSpace = JsonString.literal pieces ++ rest) :
    Took isSpace [.str pieces] text rest :=
  @Dataset.took_of_dropWhile isSpace (.str pieces) text rest h

/-- An object at the top. -/
theorem open_of_token
    (h : token ⟨.topValue, stack, text⟩ = .ok (.delim 0x7B, after)) :
    ∃ rest, after = ⟨.objectStart, .topValue :: stack, rest⟩ ∧
      Took isSpace [.mark 0x7B rfl] text rest := by
  rcases token_cases h with hother | hreads | ⟨mid, hskips, -⟩
  · simp at hother
  · cases hreads with
    | openObject allowed hdrop => exact ⟨_, rfl, took_mark rfl hdrop⟩
  · cases hskips

/-- A key, the first of its object. -/
theorem first_key_of_token {key : Bytes}
    (h : token ⟨.objectStart, stack, text⟩ = .ok (.str key, after)) :
    ∃ pieces rest, key = unquote pieces ∧ after = ⟨.objectColon, stack, rest⟩ ∧
      Took isSpace [.str pieces] text rest := by
  rcases token_cases h with hother | hreads | ⟨mid, hskips, -⟩
  · simp at hother
  · cases hreads with
    | key _ hdrop => exact ⟨_, _, rfl, rfl, took_str hdrop⟩
    | str allowed => cases allowed
  · cases hskips

/-- A further key, behind a comma. -/
theorem next_key_of_token {key : Bytes}
    (h : token ⟨.objectComma, stack, text⟩ = .ok (.str key, after)) :
    ∃ pieces rest, key = unquote pieces ∧ after = ⟨.objectColon, stack, rest⟩ ∧
      Took isSpace ([.mark 0x2C rfl] ++ [.str pieces]) text rest := by
  rcases token_cases h with hother | hreads | ⟨mid, hskips, hreads⟩
  · simp at hother
  · cases hreads with
    | key hstate => simp at hstate
    | str allowed => cases allowed
  · cases hskips with
    | objectComma hcomma =>
        cases hreads with
        | key _ hdrop => exact ⟨_, _, rfl, rfl, (took_mark rfl hcomma).trans (took_str hdrop)⟩
        | str allowed => cases allowed

/-- A string behind a key. -/
theorem string_of_token {found : Token} (hstring : found.isString = true)
    (h : token ⟨.objectColon, stack, text⟩ = .ok (found, after)) :
    ∃ pieces rest, after = ⟨.objectComma, stack, rest⟩ ∧
      Took isSpace ([.mark 0x3A rfl] ++ [.str pieces]) text rest := by
  rcases token_cases h with (rfl | rfl) | hreads | ⟨mid, hskips, hreads⟩
  · cases hstring
  · cases hstring
  · cases hreads with
    | key hstate => simp at hstate
    | str allowed => cases allowed
    | _ => cases hstring
  · cases hskips with
    | colon hcolon =>
        cases hreads with
        | key hstate => simp at hstate
        | str _ _ hdrop => exact ⟨_, _, rfl, (took_mark rfl hcolon).trans (took_str hdrop)⟩
        | _ => cases hstring

/-- A truth value behind a key. -/
theorem bool_of_token {found : Token} (hbool : found.isBool = true)
    (h : token ⟨.objectColon, stack, text⟩ = .ok (found, after)) :
    ∃ word rest, after = ⟨.objectComma, stack, rest⟩ ∧
      Took isSpace ([.mark 0x3A rfl] ++ [.word word]) text rest := by
  rcases token_cases h with (rfl | rfl) | hreads | ⟨mid, hskips, hreads⟩
  · cases hbool
  · cases hbool
  · cases hreads with
    | bool allowed => cases allowed
    | _ => cases hbool
  · cases hskips with
    | colon hcolon =>
        cases hreads with
        | bool _ hdrop =>
            exact ⟨_, _, rfl, (took_mark rfl hcolon).trans (Dataset.took_of_dropWhile hdrop)⟩
        | _ => cases hbool

/-- An array behind a key. -/
theorem array_of_token
    (h : token ⟨.objectColon, stack, text⟩ = .ok (.delim 0x5B, after)) :
    ∃ rest, after = ⟨.arrayStart, .objectValue :: stack, rest⟩ ∧
      Took isSpace ([.mark 0x3A rfl] ++ [.mark 0x5B rfl]) text rest := by
  rcases token_cases h with hother | hreads | ⟨mid, hskips, hreads⟩
  · simp at hother
  · cases hreads with
    | openArray allowed => cases allowed
  · cases hskips with
    | colon hcolon =>
        cases hreads with
        | openArray _ hdrop => exact ⟨_, rfl, (took_mark rfl hcolon).trans (took_mark rfl hdrop)⟩

/-- The first object of an array. -/
theorem first_element_of_token
    (h : token ⟨.arrayStart, stack, text⟩ = .ok (.delim 0x7B, after)) :
    ∃ rest, after = ⟨.objectStart, .arrayStart :: stack, rest⟩ ∧
      Took isSpace [.mark 0x7B rfl] text rest := by
  rcases token_cases h with hother | hreads | ⟨mid, hskips, -⟩
  · simp at hother
  · cases hreads with
    | openObject _ hdrop => exact ⟨_, rfl, took_mark rfl hdrop⟩
  · cases hskips

/-- A further object of an array, behind a comma. -/
theorem next_element_of_token
    (h : token ⟨.arrayComma, stack, text⟩ = .ok (.delim 0x7B, after)) :
    ∃ rest, after = ⟨.objectStart, .arrayValue :: stack, rest⟩ ∧
      Took isSpace ([.mark 0x2C rfl] ++ [.mark 0x7B rfl]) text rest := by
  rcases token_cases h with hother | hreads | ⟨mid, hskips, hreads⟩
  · simp at hother
  · cases hreads with
    | openObject allowed => cases allowed
  · cases hskips with
    | arrayComma hcomma =>
        cases hreads with
        | openObject _ hdrop => exact ⟨_, rfl, (took_mark rfl hcomma).trans (took_mark rfl hdrop)⟩

/-- The end of an object that has fields. -/
theorem object_end_of_token {outer : TokenState}
    (h : token ⟨.objectComma, outer :: stack, text⟩ = .ok (.delim 0x7D, after)) :
    ∃ rest, after = ⟨outer.valueEnd, stack, rest⟩ ∧ Took isSpace [.mark 0x7D rfl] text rest := by
  rcases token_cases h with hother | hreads | ⟨mid, hskips, hreads⟩
  · simp at hother
  · cases hreads with
    | closeObject _ hdrop => exact ⟨_, rfl, took_mark rfl hdrop⟩
  · cases hskips with
    | objectComma hcomma =>
        cases hreads with
        | closeObject hstate => simp at hstate

/-- The end of an array that has elements. -/
theorem array_end_of_token {outer : TokenState}
    (h : token ⟨.arrayComma, outer :: stack, text⟩ = .ok (.delim 0x5D, after)) :
    ∃ rest, after = ⟨outer.valueEnd, stack, rest⟩ ∧ Took isSpace [.mark 0x5D rfl] text rest := by
  rcases token_cases h with hother | hreads | ⟨mid, hskips, hreads⟩
  · simp at hother
  · cases hreads with
    | closeArray _ hdrop => exact ⟨_, rfl, took_mark rfl hdrop⟩
  · cases hskips with
    | arrayComma hcomma =>
        cases hreads with
        | closeArray hstate => simp at hstate

end Steps

section Rows

theorem decode_of_unquote {pieces : List Piece} {text : Bytes} (hascii : Ascii text)
    (h : unquote pieces = text) : decode pieces = some text :=
  (sameAscii_unquote pieces text hascii).mp h

theorem ascii_text : Ascii (ascii "text") := by decide

theorem ascii_train : Ascii (ascii "train") := by decide

theorem ascii_segments : Ascii (ascii "segments") := by decide

/-- What a pass of the loop over the fields of a segment has seen. -/
inductive FieldSeen (fields : SegmentFields) : SegmentFields → List Dataset.Token → Prop
  | text {key value : List Piece} : decode key = some (ascii "text") → fields.hasText = false →
      FieldSeen fields { fields with hasText := true } [.str key, .mark 0x3A rfl, .str value]
  | train {key : List Piece} {value : Bool} : decode key = some (ascii "train") →
      fields.hasTrain = false →
      FieldSeen fields { fields with hasTrain := true } [.str key, .mark 0x3A rfl, .word value]

variable {fields seen : SegmentFields}

/-- The value of a field whose key has been read. -/
theorem seen_of_segmentField {key : List Piece} {value : Token} {next : Decoder}
    (hvalue : token ⟨.objectColon, stack, text⟩ = .ok (value, after))
    (h : segmentField fields (.str (unquote key)) value after = .ok (seen, next)) :
    next = after ∧ ∃ part rest, FieldSeen fields seen (.str key :: part) ∧
      after = ⟨.objectComma, stack, rest⟩ ∧ Took isSpace part text rest := by
  rw [segmentField] at h
  split at h
  · rename_i hfield
    obtain ⟨hkey, hfirst, hstring⟩ := hfield
    cases h
    obtain ⟨pieces, rest, rfl, htook⟩ := string_of_token hstring hvalue
    have hdecode := decode_of_unquote ascii_text (Token.str.inj hkey)
    exact ⟨rfl, _, rest, FieldSeen.text hdecode hfirst, rfl, htook⟩
  · split at h
    · rename_i hfield
      obtain ⟨hkey, hfirst, hbool⟩ := hfield
      cases h
      obtain ⟨word, rest, rfl, htook⟩ := bool_of_token hbool hvalue
      have hdecode := decode_of_unquote ascii_train (Token.str.inj hkey)
      exact ⟨rfl, _, rest, FieldSeen.train hdecode hfirst, rfl, htook⟩
    · cases h

/-- A string is the key, or the field is refused. -/
theorem str_of_segmentField {d : Decoder} {key value : Token}
    (h : segmentField fields key value d = .ok (seen, after)) : ∃ name, key = .str name := by
  rw [segmentField] at h
  split at h
  · rename_i hfield
    exact ⟨_, hfield.1⟩
  · split at h
    · rename_i hfield
      exact ⟨_, hfield.1⟩
    · cases h

/-- A pass of the loop over the fields of a segment: the loop ends, or `lead` and a field stand
before what is left. -/
theorem pass_of_fieldsLoop {passes : Nat} {state : TokenState} {lead : List Dataset.Token}
    (hkey : ∀ key after, token ⟨state, stack, text⟩ = .ok (.str key, after) →
      ∃ pieces rest, key = unquote pieces ∧ after = ⟨.objectColon, stack, rest⟩ ∧
        Took isSpace (lead ++ [.str pieces]) text rest)
    (h : fieldsLoop passes fields ⟨state, stack, text⟩ = .ok (seen, after)) :
    (seen = fields ∧ after = ⟨state, stack, text⟩) ∨
      ∃ one part rest count, FieldSeen fields one part ∧ Took isSpace (lead ++ part) text rest ∧
        fieldsLoop count one ⟨.objectComma, stack, rest⟩ = .ok (seen, after) := by
  cases passes with
  | zero => cases h
  | succ passes =>
      rw [fieldsLoop] at h
      obtain ⟨found, mid, hmore, h⟩ := exists_of_bind h
      obtain ⟨-, rfl⟩ := eq_of_more hmore
      split at h
      · obtain ⟨key, behindKey, hnext, h⟩ := exists_of_bind h
        have hnext := token_of_next hnext
        obtain ⟨value, behindValue, hvalue, h⟩ := exists_of_bind h
        have hvalue := token_of_next hvalue
        obtain ⟨one, last, hfield, hloop⟩ := exists_of_bind h
        obtain ⟨name, rfl⟩ := str_of_segmentField hfield
        obtain ⟨pieces, rest, rfl, rfl, htook⟩ := hkey name behindKey hnext
        obtain ⟨rfl, part, behind, hseen, rfl, hpart⟩ := seen_of_segmentField hvalue hfield
        refine Or.inr ⟨one, _, behind, passes, hseen, ?_, hloop⟩
        have hall := htook.trans hpart
        rw [List.append_assoc] at hall
        exact hall
      · cases h
        exact Or.inl ⟨rfl, rfl⟩

theorem first_pass_of_fieldsLoop {passes : Nat}
    (h : fieldsLoop passes fields ⟨.objectStart, stack, text⟩ = .ok (seen, after)) :
    (seen = fields ∧ after = ⟨.objectStart, stack, text⟩) ∨
      ∃ one part rest count, FieldSeen fields one part ∧ Took isSpace part text rest ∧
        fieldsLoop count one ⟨.objectComma, stack, rest⟩ = .ok (seen, after) :=
  @pass_of_fieldsLoop stack text after fields seen passes .objectStart []
    (fun _ _ hkey => first_key_of_token hkey) h

theorem next_pass_of_fieldsLoop {passes : Nat}
    (h : fieldsLoop passes fields ⟨.objectComma, stack, text⟩ = .ok (seen, after)) :
    (seen = fields ∧ after = ⟨.objectComma, stack, text⟩) ∨
      ∃ one part rest count, FieldSeen fields one part ∧
        Took isSpace ([.mark 0x2C rfl] ++ part) text rest ∧
        fieldsLoop count one ⟨.objectComma, stack, rest⟩ = .ok (seen, after) :=
  pass_of_fieldsLoop (fun _ _ hkey => next_key_of_token hkey) h

/-- No field behind two. -/
theorem fieldsLoop_full {passes : Nat} (htext : fields.hasText = true)
    (htrain : fields.hasTrain = true)
    (h : fieldsLoop passes fields ⟨.objectComma, stack, text⟩ = .ok (seen, after)) :
    seen = fields ∧ after = ⟨.objectComma, stack, text⟩ := by
  rcases next_pass_of_fieldsLoop h with hend | ⟨one, part, rest, count, hseen, -⟩
  · exact hend
  · cases hseen with
    | text _ hfirst =>
        rw [htext] at hfirst
        cases hfirst
    | train _ hfirst =>
        rw [htrain] at hfirst
        cases hfirst

/-- Two fields are the fields of a segment. -/
theorem segment_of_two {one two : SegmentFields} {first second : List Dataset.Token}
    (hfirst : FieldSeen { hasText := false, hasTrain := false } one first)
    (hsecond : FieldSeen one two second) :
    (two.hasText = true ∧ two.hasTrain = true) ∧ ∃ s : SegmentSpelling,
      s.tokens = [.mark 0x7B rfl] ++ (first ++ ([.mark 0x2C rfl] ++ second ++ [.mark 0x7D rfl])) := by
  cases hfirst with
  | @text textKey value hkey _ =>
      cases hsecond with
      | text _ hfield => cases hfield
      | @train trainKey train htrain _ =>
          exact ⟨⟨rfl, rfl⟩, ⟨textKey, trainKey, value, train, true, hkey, htrain⟩, rfl⟩
  | @train trainKey train htrain _ =>
      cases hsecond with
      | @text textKey value hkey _ =>
          exact ⟨⟨rfl, rfl⟩, ⟨textKey, trainKey, value, train, false, hkey, htrain⟩, rfl⟩
      | train _ hfield => cases hfield

/-- The loop over the fields of a segment that has both. -/
theorem both_of_fieldsLoop {passes : Nat}
    (h : fieldsLoop passes { hasText := false, hasTrain := false } ⟨.objectStart, stack, text⟩ =
      .ok (seen, after))
    (htext : seen.hasText = true) (htrain : seen.hasTrain = true) :
    ∃ (s : SegmentSpelling) (part : List Dataset.Token) (rest : Bytes),
      s.tokens = [.mark 0x7B rfl] ++ (part ++ [.mark 0x7D rfl]) ∧
        after = ⟨.objectComma, stack, rest⟩ ∧ Took isSpace part text rest := by
  rcases first_pass_of_fieldsLoop h with ⟨rfl, -⟩ | ⟨one, first, _, count, hone, hfirst, h⟩
  · cases htext
  · rcases next_pass_of_fieldsLoop h with ⟨rfl, -⟩ | ⟨two, second, _, count, htwo, hsecond, h⟩
    · cases hone with
      | text => cases htrain
      | train => cases htext
    · obtain ⟨⟨hboth, htwice⟩, s, htokens⟩ := segment_of_two hone htwo
      obtain ⟨rfl, rfl⟩ := fieldsLoop_full hboth htwice h
      refine ⟨s, _, _, ?_, rfl, hfirst.trans hsecond⟩
      rw [htokens]
      simp only [List.append_assoc]

/-- What `validateSegment` lets pass.  `lead` stands before the segment. -/
theorem took_validateSegment {state outer : TokenState} {lead : List Dataset.Token}
    (hopen : ∀ after, token ⟨state, stack, text⟩ = .ok (.delim 0x7B, after) →
      ∃ rest, after = ⟨.objectStart, outer :: stack, rest⟩ ∧
        Took isSpace (lead ++ [.mark 0x7B rfl]) text rest) {a : Unit}
    (h : validateSegment ⟨state, stack, text⟩ = .ok (a, after)) :
    ∃ (s : SegmentSpelling) (rest : Bytes), after = ⟨outer.valueEnd, stack, rest⟩ ∧
      Took isSpace (lead ++ s.tokens) text rest := by
  rw [validateSegment] at h
  obtain ⟨_, _, hbrace, h⟩ := exists_of_bind h
  obtain ⟨inner, rfl, hlead⟩ := hopen _ (token_of_delim hbrace)
  obtain ⟨seen, _, hfields, h⟩ := exists_of_bind h
  obtain ⟨_, _, hend, h⟩ := exists_of_bind h
  split at h
  · cases h
  · rename_i hboth
    cases h
    rw [not_or, Bool.not_eq_false, Bool.not_eq_false] at hboth
    obtain ⟨s, part, behind, htokens, rfl, hpart⟩ := both_of_fieldsLoop hfields hboth.1 hboth.2
    obtain ⟨rest, rfl, hclose⟩ := object_end_of_token (token_of_delim hend)
    refine ⟨s, rest, rfl, ?_⟩
    have hall := hlead.trans (hpart.trans hclose)
    rw [List.append_assoc] at hall
    rw [htokens]
    exact hall

theorem took_first_segment {a : Unit}
    (h : validateSegment ⟨.arrayStart, stack, text⟩ = .ok (a, after)) :
    ∃ (s : SegmentSpelling) (rest : Bytes), after = ⟨.arrayComma, stack, rest⟩ ∧
      Took isSpace s.tokens text rest :=
  @took_validateSegment stack text after .arrayStart .arrayStart []
    (fun _ hopen => first_element_of_token hopen) a h

theorem took_next_segment {a : Unit}
    (h : validateSegment ⟨.arrayComma, stack, text⟩ = .ok (a, after)) :
    ∃ (s : SegmentSpelling) (rest : Bytes), after = ⟨.arrayComma, stack, rest⟩ ∧
      Took isSpace (.mark 0x2C rfl :: s.tokens) text rest :=
  took_validateSegment (fun _ hopen => next_element_of_token hopen) h

theorem segmentTokens_eq (first : SegmentSpelling) (more : List SegmentSpelling) :
    segmentTokens first more = first.tokens ++ more.flatMap fun s => .mark 0x2C rfl :: s.tokens := by
  induction more generalizing first with
  | nil => exact (List.append_nil _).symm
  | cons next more ih => rw [segmentTokens, ih next, List.flatMap_cons, List.cons_append]

/-- What the loop over the segments lets pass behind the first. -/
theorem took_segmentsLoop {passes : Nat} {a : Unit}
    (h : segmentsLoop passes ⟨.arrayComma, stack, text⟩ = .ok (a, after)) :
    ∃ (more : List SegmentSpelling) (rest : Bytes), after = ⟨.arrayComma, stack, rest⟩ ∧
      Took isSpace (more.flatMap fun s => .mark 0x2C rfl :: s.tokens) text rest := by
  induction passes generalizing text with
  | zero => cases h
  | succ passes ih =>
      rw [segmentsLoop] at h
      obtain ⟨found, _, hmore, h⟩ := exists_of_bind h
      obtain ⟨-, rfl⟩ := eq_of_more hmore
      split at h
      · obtain ⟨_, _, hsegment, h⟩ := exists_of_bind h
        obtain ⟨s, behind, rfl, htook⟩ := took_next_segment hsegment
        obtain ⟨more, rest, rfl, hrest⟩ := ih h
        refine ⟨s :: more, rest, rfl, ?_⟩
        rw [List.flatMap_cons]
        exact htook.trans hrest
      · cases h
        exact ⟨[], text, rfl, fun tokens hlayout => hlayout⟩

/-- What `validateSegments` lets pass. -/
theorem took_validateSegments {a : Unit}
    (h : validateSegments ⟨.objectColon, stack, text⟩ = .ok (a, after)) :
    ∃ (first : SegmentSpelling) (more : List SegmentSpelling) (rest : Bytes),
      after = ⟨.objectComma, stack, rest⟩ ∧
        Took isSpace ([.mark 0x3A rfl, .mark 0x5B rfl] ++ segmentTokens first more ++
          [.mark 0x5D rfl]) text rest := by
  rw [validateSegments] at h
  obtain ⟨_, _, hbracket, h⟩ := exists_of_bind h
  obtain ⟨inner, rfl, hopen⟩ := array_of_token (token_of_delim hbracket)
  obtain ⟨found, _, hmore, h⟩ := exists_of_bind h
  obtain ⟨rfl, rfl⟩ := eq_of_more hmore
  split at h
  · rename_i hnonempty
    obtain ⟨_, _, hloop, h⟩ := exists_of_bind h
    rw [segmentsLoop] at hloop
    obtain ⟨found, _, hagain, hloop⟩ := exists_of_bind hloop
    obtain ⟨rfl, rfl⟩ := eq_of_more hagain
    rw [if_pos hnonempty] at hloop
    obtain ⟨_, _, hsegment, hloop⟩ := exists_of_bind hloop
    obtain ⟨first, behind, rfl, hfirst⟩ := took_first_segment hsegment
    obtain ⟨more, last, rfl, hrest⟩ := took_segmentsLoop hloop
    obtain ⟨rest, rfl, hclose⟩ := array_end_of_token (token_of_delim h)
    refine ⟨first, more, rest, rfl, ?_⟩
    have hall := hopen.trans (hfirst.trans (hrest.trans hclose))
    rw [segmentTokens_eq]
    simp only [List.append_assoc, List.cons_append, List.nil_append] at hall ⊢
    exact hall
  · cases h

/-- What passes behind the field of a row. -/
theorem layout_of_rowEnd {a : Unit}
    (h : rowEnd ⟨.objectComma, [.topValue], text⟩ = .ok (a, after)) :
    Layout isSpace [.mark 0x7D rfl] text := by
  rw [rowEnd] at h
  obtain ⟨found, _, hmore, h⟩ := exists_of_bind h
  obtain ⟨rfl, rfl⟩ := eq_of_more hmore
  split at h
  · cases h
  · obtain ⟨_, _, hbrace, h⟩ := exists_of_bind h
    obtain ⟨rest, rfl, hclose⟩ := object_end_of_token (token_of_delim hbrace)
    rw [atEnd] at h
    split at h
    · rename_i hend
      have hblank : rest.dropWhile isSpace = [] := eof_of_token rfl hend
      exact hclose [] (Layout.nil (List.dropWhile_eq_nil_iff.mp hblank))
    · cases h

/-- What passes as the field of a row. -/
theorem took_rowField {a : Unit}
    (h : rowField ⟨.objectStart, stack, text⟩ = .ok (a, after)) :
    ∃ rest, after = ⟨.objectComma, stack, rest⟩ ∧ ∃ row : RowSpelling, ∃ part,
      row.tokens = [.mark 0x7B rfl] ++ (part ++ [.mark 0x7D rfl]) ∧
        Took isSpace part text rest := by
  rw [rowField] at h
  obtain ⟨key, behind, hkey, h⟩ := exists_of_bind h
  have hkey := token_of_next hkey
  split at h
  · rename_i htext
    subst htext
    obtain ⟨pieces, inner, hname, rfl, htook⟩ := first_key_of_token hkey
    obtain ⟨value, last, hvalue, h⟩ := exists_of_bind h
    split at h
    · rename_i hstring
      cases h
      obtain ⟨text, rest, rfl, hvalueTook⟩ := string_of_token hstring (token_of_next hvalue)
      have hdecode := decode_of_unquote ascii_text hname.symm
      exact ⟨rest, rfl, RowSpelling.text pieces text hdecode, _, rfl, htook.trans hvalueTook⟩
    · cases h
  · split at h
    · rename_i hsegments
      subst hsegments
      obtain ⟨pieces, inner, hname, rfl, htook⟩ := first_key_of_token hkey
      obtain ⟨first, more, rest, rfl, hmore⟩ := took_validateSegments h
      have hdecode := decode_of_unquote ascii_segments hname.symm
      refine ⟨rest, rfl, RowSpelling.segments pieces first more hdecode, _, ?_, htook.trans hmore⟩
      rw [RowSpelling.tokens]
      simp only [List.append_assoc, List.cons_append, List.nil_append]
    · cases h

/-- What `validateDatasetRow` lets pass is a row. -/
theorem exists_row_of_validate {line : Bytes} {a : Unit} (h : validateDatasetRow line = .ok a) :
    ∃ row : RowSpelling, Layout isSpace row.tokens line := by
  rw [validateDatasetRow, newDecoder] at h
  cases hrun : (do delim 0x7B "expected JSON object"; rowField; rowEnd : Check Unit)
      ⟨.topValue, [], line⟩ with
  | error message =>
      rw [hrun] at h
      cases h
  | ok found =>
      obtain ⟨_, _, hopen, hrun⟩ := exists_of_bind hrun
      obtain ⟨inner, rfl, hbrace⟩ := open_of_token (token_of_delim hopen)
      obtain ⟨_, _, hfield, hend⟩ := exists_of_bind hrun
      obtain ⟨rest, rfl, row, part, htokens, hpart⟩ := took_rowField hfield
      refine ⟨row, ?_⟩
      rw [htokens]
      exact (hbrace.trans hpart) _ (layout_of_rowEnd hend)

end Rows

end Launcher
end RwkvLightning

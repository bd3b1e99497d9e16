import RwkvLightning.Launcher.DatasetCheckSound

/-!
# The launcher lets every row pass

The other half: `validateDatasetRow` fails on no row of the format.

**Results.**
* `ends_validateSegment`, `ends_segmentsLoop`: the check goes on behind every segment.
* `validate_of_layout`: every row passes.
-/

namespace RwkvLightning
namespace Launcher

open JsonString (Bytes ascii Piece decode)
open Dataset (Layout RowSpelling SegmentSpelling segmentTokens)
open Scanner

variable {stack : List TokenState} {text rest : Bytes} {after : Decoder}

section Passing

variable {tokens : List Dataset.Token} {seen fields : SegmentFields} {o : Option SegmentFields}
  {P : Decoder → Prop}

/-- The decoder stands before `tokens`. -/
def At (state : TokenState) (stack : List TokenState) (tokens : List Dataset.Token)
    (d : Decoder) : Prop :=
  ∃ text, d = ⟨state, stack, text⟩ ∧ Layout isSpace tokens text

theorem isSpace_of_json {c : UInt8} (h : isSpace c = true) : Dataset.isSpace c = true := by
  rw [isSpace] at h
  simp only [Bool.or_eq_true, decide_eq_true_eq] at h
  rcases h with ((rfl | rfl) | rfl) | rfl <;> rfl

theorem head_of_layout {token : Dataset.Token} (h : Layout isSpace (token :: tokens) text) :
    ∃ rest, text.dropWhile isSpace = token.bytes ++ rest ∧ Layout isSpace tokens rest :=
  h.head fun _ hc => isSpace_of_json hc

theorem ends_token {d mid : Decoder} {found : Token} (hskips : d = mid ∨ Skips d mid)
    (hreads : Reads mid found after) (hafter : P after) : Ends (some found) P (token d) := by
  refine ⟨after, ?_, hafter⟩
  rcases hskips with rfl | hskips
  · exact token_of_reads hreads
  · rw [token_of_skips hskips]
    exact token_of_reads hreads

theorem ends_first_key {key : List Piece} (h : Layout isSpace (.str key :: tokens) text) :
    Ends (some (.str (unquote key))) (At .objectColon stack tokens)
      (token ⟨.objectStart, stack, text⟩) := by
  obtain ⟨rest, hdrop, hrest⟩ := head_of_layout h
  exact ends_token (Or.inl rfl) (Reads.key (Or.inl rfl) hdrop) ⟨rest, rfl, hrest⟩

theorem ends_next_key {key : List Piece}
    (h : Layout isSpace (.mark 0x2C rfl :: .str key :: tokens) text) :
    Ends (some (.str (unquote key))) (At .objectColon stack tokens)
      (token ⟨.objectComma, stack, text⟩) := by
  obtain ⟨mid, hcomma, hmid⟩ := head_of_layout h
  obtain ⟨rest, hdrop, hrest⟩ := head_of_layout hmid
  exact ends_token (Or.inr (Skips.objectComma hcomma)) (Reads.key (Or.inr rfl) hdrop)
    ⟨rest, rfl, hrest⟩

theorem ends_string {pieces : List Piece}
    (h : Layout isSpace (.mark 0x3A rfl :: .str pieces :: tokens) text) :
    Ends (some (.str (unquote pieces))) (At .objectComma stack tokens)
      (token ⟨.objectColon, stack, text⟩) := by
  obtain ⟨mid, hcolon, hmid⟩ := head_of_layout h
  obtain ⟨rest, hdrop, hrest⟩ := head_of_layout hmid
  exact ends_token (Or.inr (Skips.colon hcolon)) (Reads.str rfl (by simp) hdrop) ⟨rest, rfl, hrest⟩

theorem ends_bool {word : Bool}
    (h : Layout isSpace (.mark 0x3A rfl :: .word word :: tokens) text) :
    Ends (some (.bool word)) (At .objectComma stack tokens)
      (token ⟨.objectColon, stack, text⟩) := by
  obtain ⟨mid, hcolon, hmid⟩ := head_of_layout h
  obtain ⟨rest, hdrop, hrest⟩ := head_of_layout hmid
  exact ends_token (Or.inr (Skips.colon hcolon)) (Reads.bool rfl hdrop) ⟨rest, rfl, hrest⟩

theorem ends_nextToken {d : Decoder} {found : Token} {message : String}
    (h : Ends (some found) P (token d)) : Ends (some found) P (next message d) := by
  obtain ⟨after, hok, hafter⟩ := h
  exact ⟨after, by rw [next, hok], hafter⟩

theorem ends_delim {d : Decoder} {c : UInt8} {message : String}
    (h : Ends (some (.delim c)) P (token d)) : Ends (some ()) P (delim c message d) := by
  rw [delim]
  refine ends_next (ends_nextToken h) fun after hafter => ?_
  rw [if_pos rfl]
  exact ⟨after, rfl, hafter⟩

/-- The object of a row. -/
theorem ends_open (h : Layout isSpace (.mark 0x7B rfl :: tokens) text) :
    Ends (some (.delim 0x7B)) (At .objectStart (.topValue :: stack) tokens)
      (token ⟨.topValue, stack, text⟩) := by
  obtain ⟨rest, hdrop, hrest⟩ := head_of_layout h
  exact ends_token (Or.inl rfl) (Reads.openObject rfl hdrop) ⟨rest, rfl, hrest⟩

theorem ends_array (h : Layout isSpace (.mark 0x3A rfl :: .mark 0x5B rfl :: tokens) text) :
    Ends (some (.delim 0x5B)) (At .arrayStart (.objectValue :: stack) tokens)
      (token ⟨.objectColon, stack, text⟩) := by
  obtain ⟨mid, hcolon, hmid⟩ := head_of_layout h
  obtain ⟨rest, hdrop, hrest⟩ := head_of_layout hmid
  exact ends_token (Or.inr (Skips.colon hcolon)) (Reads.openArray rfl hdrop) ⟨rest, rfl, hrest⟩

theorem ends_first_element (h : Layout isSpace (.mark 0x7B rfl :: tokens) text) :
    Ends (some (.delim 0x7B)) (At .objectStart (.arrayStart :: stack) tokens)
      (token ⟨.arrayStart, stack, text⟩) := by
  obtain ⟨rest, hdrop, hrest⟩ := head_of_layout h
  exact ends_token (Or.inl rfl) (Reads.openObject rfl hdrop) ⟨rest, rfl, hrest⟩

theorem ends_next_element (h : Layout isSpace (.mark 0x2C rfl :: .mark 0x7B rfl :: tokens) text) :
    Ends (some (.delim 0x7B)) (At .objectStart (.arrayValue :: stack) tokens)
      (token ⟨.arrayComma, stack, text⟩) := by
  obtain ⟨mid, hcomma, hmid⟩ := head_of_layout h
  obtain ⟨rest, hdrop, hrest⟩ := head_of_layout hmid
  exact ends_token (Or.inr (Skips.arrayComma hcomma)) (Reads.openObject rfl hdrop)
    ⟨rest, rfl, hrest⟩

theorem ends_object_end {outer : TokenState} (h : Layout isSpace (.mark 0x7D rfl :: tokens) text) :
    Ends (some (.delim 0x7D)) (At outer.valueEnd stack tokens)
      (token ⟨.objectComma, outer :: stack, text⟩) := by
  obtain ⟨rest, hdrop, hrest⟩ := head_of_layout h
  exact ends_token (Or.inl rfl) (Reads.closeObject (Or.inr rfl) hdrop) ⟨rest, rfl, hrest⟩

theorem ends_array_end {outer : TokenState} (h : Layout isSpace (.mark 0x5D rfl :: tokens) text) :
    Ends (some (.delim 0x5D)) (At outer.valueEnd stack tokens)
      (token ⟨.arrayComma, outer :: stack, text⟩) := by
  obtain ⟨rest, hdrop, hrest⟩ := head_of_layout h
  exact ends_token (Or.inl rfl) (Reads.closeArray (Or.inr rfl) hdrop) ⟨rest, rfl, hrest⟩

/-- `More` says whether the next token ends an array or an object. -/
def goesOn : Dataset.Token → Bool
  | .mark c _ => c ≠ 0x5D && c ≠ 0x7D
  | _ => true

theorem more_of_layout {state : TokenState} {token : Dataset.Token}
    (h : Layout isSpace (token :: tokens) text) :
    more ⟨state, stack, text⟩ = .ok (goesOn token, ⟨state, stack, text⟩) := by
  obtain ⟨rest, hdrop, -⟩ := head_of_layout h
  have hmore : (⟨state, stack, text⟩ : Decoder).more = goesOn token := by
    rw [Decoder.more, hdrop]
    cases token with
    | mark c visible => rfl
    | str pieces => rfl
    | word word => cases word <;> rfl
  rw [more, hmore]

end Passing

section Fields

variable {tokens : List Dataset.Token} {passes : Nat}

theorem unquote_of_decode {pieces : List Piece} {text : Bytes} (hascii : Ascii text)
    (h : decode pieces = some text) : unquote pieces = text :=
  (sameAscii_unquote pieces text hascii).mpr h

variable {fields seen : SegmentFields} {part : List Dataset.Token}

theorem segmentField_of_seen {key : List Piece} (hseen : FieldSeen fields seen (.str key :: part))
    (h : Layout isSpace (part ++ tokens) text) :
    ∃ value, Ends (some value) (At .objectComma stack tokens) (token ⟨.objectColon, stack, text⟩) ∧
      ∀ d, segmentField fields (.str (unquote key)) value d = .ok (seen, d) := by
  cases hseen with
  | @text _ value hkey hfirst =>
      refine ⟨.str (unquote value), ends_string h, fun d => ?_⟩
      have hname : Token.str (unquote key) = .str (ascii "text") := by
        rw [unquote_of_decode ascii_text hkey]
      rw [segmentField, if_pos ⟨hname, hfirst, rfl⟩]
      rfl
  | @train _ value hkey hfirst =>
      refine ⟨.bool value, ends_bool h, fun d => ?_⟩
      have hname : Token.str (unquote key) = .str (ascii "train") := by
        rw [unquote_of_decode ascii_train hkey]
      have hother : ¬(Token.str (unquote key) = .str (ascii "text") ∧ fields.hasText = false ∧
          (Token.bool value).isString = true) := fun hboth => by cases hboth.2.2
      rw [segmentField, if_neg hother, if_pos ⟨hname, hfirst, rfl⟩]
      rfl

/-- A pass of the loop over the fields of a segment. -/
theorem ends_fieldsPass {state : TokenState} {key : List Piece} {P : Decoder → Prop}
    {o : Option SegmentFields} (hseen : FieldSeen fields seen (.str key :: part))
    (hmore : more ⟨state, stack, text⟩ = .ok (true, ⟨state, stack, text⟩))
    (hkey : Ends (some (.str (unquote key))) (At .objectColon stack (part ++ tokens))
      (token ⟨state, stack, text⟩))
    (hloop : ∀ d, At .objectComma stack tokens d → Ends o P (fieldsLoop passes seen d)) :
    Ends o P (fieldsLoop (passes + 1) fields ⟨state, stack, text⟩) := by
  rw [fieldsLoop, bind_ok hmore, if_pos rfl]
  refine ends_next (ends_nextToken hkey) ?_
  rintro _ ⟨behind, rfl, hbehind⟩
  obtain ⟨value, hvalue, hfield⟩ := segmentField_of_seen hseen hbehind
  refine ends_next (ends_nextToken hvalue) fun d hd => ?_
  rw [bind_ok (hfield d)]
  exact hloop d hd

/-- The fields of a segment, in their order. -/
theorem exists_seen (s : SegmentSpelling) :
    ∃ (one : SegmentFields) (firstKey secondKey : List Piece) (first second : List Dataset.Token),
      FieldSeen { hasText := false, hasTrain := false } one (.str firstKey :: first) ∧
      FieldSeen one { hasText := true, hasTrain := true } (.str secondKey :: second) ∧
      s.tokens = .mark 0x7B rfl :: .str firstKey ::
        (first ++ .mark 0x2C rfl :: .str secondKey :: (second ++ [.mark 0x7D rfl])) := by
  obtain ⟨textKey, trainKey, value, train, textFirst, htext, htrain⟩ := s
  cases textFirst with
  | true =>
      exact ⟨_, textKey, trainKey, _, _, FieldSeen.text htext rfl, FieldSeen.train htrain rfl, rfl⟩
  | false =>
      exact ⟨_, trainKey, textKey, _, _, FieldSeen.train htrain rfl, FieldSeen.text htext rfl, rfl⟩

/-- A segment passes.  The token that opens it has been found. -/
theorem ends_validateSegment (s : SegmentSpelling) {state outer : TokenState}
    (hopen : ∀ part, s.tokens = .mark 0x7B rfl :: part →
      Ends (some (.delim 0x7B)) (At .objectStart (outer :: stack) (part ++ tokens))
        (token ⟨state, stack, text⟩)) :
    Ends (some ()) (At outer.valueEnd stack tokens) (validateSegment ⟨state, stack, text⟩) := by
  obtain ⟨one, firstKey, secondKey, first, second, hone, htwo, htokens⟩ := exists_seen s
  rw [validateSegment]
  refine ends_next (ends_delim (hopen _ htokens)) ?_
  rintro _ ⟨inner, rfl, hinner⟩
  rw [List.cons_append, List.append_assoc, List.cons_append, List.cons_append,
    List.append_assoc] at hinner
  have hloop : Ends (some { hasText := true, hasTrain := true })
      (At .objectComma (outer :: stack) (.mark 0x7D rfl :: tokens))
      (fieldsLoop (inner.length + 1) { hasText := false, hasTrain := false }
        ⟨.objectStart, outer :: stack, inner⟩) := by
    have hle := hinner.length_le
    obtain ⟨passes, hpasses⟩ : ∃ passes, inner.length = passes + 1 + 1 := by
      refine ⟨inner.length - 2, ?_⟩
      simp only [List.length_cons, List.length_append] at hle
      omega
    rw [hpasses]
    refine ends_fieldsPass hone (more_of_layout hinner) (ends_first_key hinner) ?_
    rintro _ ⟨behind, rfl, hbehind⟩
    refine ends_fieldsPass htwo (more_of_layout hbehind) (ends_next_key hbehind) ?_
    rintro _ ⟨last, rfl, hlast⟩
    rw [fieldsLoop, bind_ok (more_of_layout hlast), if_neg (by decide)]
    exact ⟨_, rfl, last, rfl, hlast⟩
  refine ends_next hloop ?_
  rintro _ ⟨behind, rfl, hbehind⟩
  refine ends_next (ends_delim (ends_object_end hbehind)) fun d hd => ?_
  rw [if_neg (by decide)]
  exact ⟨d, rfl, hd⟩

theorem ends_first_segment (s : SegmentSpelling) (h : Layout isSpace (s.tokens ++ tokens) text) :
    Ends (some ()) (At .arrayComma stack tokens) (validateSegment ⟨.arrayStart, stack, text⟩) := by
  have hopen : ∀ part, s.tokens = .mark 0x7B rfl :: part →
      Ends (some (.delim 0x7B)) (At .objectStart (.arrayStart :: stack) (part ++ tokens))
        (token ⟨.arrayStart, stack, text⟩) := by
    intro part hpart
    rw [hpart] at h
    exact ends_first_element h
  exact ends_validateSegment s hopen

theorem ends_next_segment (s : SegmentSpelling)
    (h : Layout isSpace (.mark 0x2C rfl :: (s.tokens ++ tokens)) text) :
    Ends (some ()) (At .arrayComma stack tokens) (validateSegment ⟨.arrayComma, stack, text⟩) := by
  have hopen : ∀ part, s.tokens = .mark 0x7B rfl :: part →
      Ends (some (.delim 0x7B)) (At .objectStart (.arrayValue :: stack) (part ++ tokens))
        (token ⟨.arrayComma, stack, text⟩) := by
    intro part hpart
    rw [hpart] at h
    exact ends_next_element h
  exact ends_validateSegment s hopen

/-- The segments behind the first pass. -/
theorem ends_segmentsLoop {more : List SegmentSpelling}
    (h : Layout isSpace ((more.flatMap fun s => .mark 0x2C rfl :: s.tokens) ++
      .mark 0x5D rfl :: tokens) text) (hpasses : more.length < passes) :
    Ends (some ()) (At .arrayComma stack (.mark 0x5D rfl :: tokens))
      (segmentsLoop passes ⟨.arrayComma, stack, text⟩) := by
  induction more generalizing passes text with
  | nil =>
      obtain ⟨passes, rfl⟩ : ∃ n, passes = n + 1 := ⟨passes - 1, by omega⟩
      rw [segmentsLoop, bind_ok (more_of_layout h), if_neg (by decide)]
      exact ⟨_, rfl, text, rfl, h⟩
  | cons s more ih =>
      obtain ⟨passes, rfl⟩ : ∃ n, passes = n + 1 := ⟨passes - 1, by omega⟩
      rw [List.flatMap_cons, List.cons_append, List.cons_append, List.append_assoc] at h
      rw [segmentsLoop, bind_ok (more_of_layout h), if_pos (by decide)]
      refine ends_next (ends_next_segment s h) ?_
      rintro _ ⟨behind, rfl, hbehind⟩
      exact ih hbehind (Nat.lt_of_succ_lt_succ hpasses)

/-- The segments of a row pass. -/
theorem ends_validateSegments {first : SegmentSpelling} {more : List SegmentSpelling}
    (h : Layout isSpace (.mark 0x3A rfl :: .mark 0x5B rfl :: (segmentTokens first more ++
      .mark 0x5D rfl :: tokens)) text) :
    Ends (some ()) (At .objectComma stack tokens)
      (validateSegments ⟨.objectColon, stack, text⟩) := by
  rw [validateSegments]
  refine ends_next (ends_delim (ends_array h)) ?_
  rintro _ ⟨inner, rfl, hinner⟩
  have hmore : Launcher.more ⟨.arrayStart, .objectValue :: stack, inner⟩ =
      .ok (true, ⟨.arrayStart, .objectValue :: stack, inner⟩) := by
    obtain ⟨rest, hrest⟩ := Dataset.head_of_segmentTokens first more
    rw [hrest] at hinner
    exact more_of_layout hinner
  have hle := hinner.length_le
  have hcount := Dataset.length_le_segmentTokens first more
  rw [List.length_append] at hle
  rw [segmentTokens_eq, List.append_assoc] at hinner
  rw [bind_ok hmore, if_pos rfl]
  have hloop : Ends (some ()) (At .arrayComma (.objectValue :: stack) (.mark 0x5D rfl :: tokens))
      (segmentsLoop (inner.length + 1) ⟨.arrayStart, .objectValue :: stack, inner⟩) := by
    rw [segmentsLoop, bind_ok hmore, if_pos rfl]
    refine ends_next (ends_first_segment first hinner) ?_
    rintro _ ⟨behind, rfl, hbehind⟩
    exact ends_segmentsLoop hbehind (by omega)
  refine ends_next hloop ?_
  rintro _ ⟨behind, rfl, hbehind⟩
  exact ends_delim (ends_array_end hbehind)

/-- What follows the field of a row passes. -/
theorem ends_rowEnd (h : Layout isSpace [.mark 0x7D rfl] text) :
    Ends (some ()) (fun _ => True) (rowEnd ⟨.objectComma, [.topValue], text⟩) := by
  rw [rowEnd, bind_ok (more_of_layout h), if_neg (by decide)]
  refine ends_next (ends_delim (ends_object_end h)) ?_
  rintro _ ⟨rest, rfl, hrest⟩
  have hend : token ⟨.topValue, [], rest⟩ = .error .eof := by
    rw [token_eq]
    simp only [tokenPass, hrest.nil_dropWhile]
  refine ⟨⟨.topValue, [], rest⟩, ?_, trivial⟩
  exact if_pos hend

/-- The field of a row passes. -/
theorem ends_rowField (row : RowSpelling) :
    ∃ part, row.tokens = .mark 0x7B rfl :: (part ++ [.mark 0x7D rfl]) ∧
      ∀ text, Layout isSpace (part ++ tokens) text →
        Ends (some ()) (At .objectComma stack tokens) (rowField ⟨.objectStart, stack, text⟩) := by
  cases row with
  | text key value hkey =>
      refine ⟨[.str key, .mark 0x3A rfl, .str value], rfl, fun text h => ?_⟩
      rw [rowField]
      refine ends_next (ends_nextToken (ends_first_key h)) ?_
      rintro _ ⟨rest, rfl, hrest⟩
      rw [unquote_of_decode ascii_text hkey, if_pos rfl]
      refine ends_next (ends_nextToken (ends_string hrest)) fun d hd => ?_
      exact ⟨d, rfl, hd⟩
  | segments key first more hkey =>
      refine ⟨.str key :: .mark 0x3A rfl :: .mark 0x5B rfl ::
        (segmentTokens first more ++ [.mark 0x5D rfl]), ?_, fun text h => ?_⟩
      · rw [RowSpelling.tokens]
        simp only [List.append_assoc, List.cons_append, List.nil_append]
      · simp only [List.append_assoc, List.cons_append, List.nil_append] at h
        rw [rowField]
        refine ends_next (ends_nextToken (ends_first_key h)) ?_
        rintro _ ⟨rest, rfl, hrest⟩
        rw [unquote_of_decode ascii_segments hkey, if_neg (by decide), if_pos rfl]
        exact ends_validateSegments hrest

/-- Every row passes. -/
theorem validate_of_layout {row : RowSpelling} {line : Bytes}
    (h : Layout isSpace row.tokens line) : validateDatasetRow line = .ok () := by
  obtain ⟨part, htokens, hfield⟩ := @ends_rowField [.topValue] [.mark 0x7D rfl] row
  rw [htokens] at h
  have hrun : Ends (some ()) (fun _ => True)
      ((do delim 0x7B "expected JSON object"; rowField; rowEnd : Check Unit)
        ⟨.topValue, [], line⟩) := by
    refine ends_next (ends_delim (ends_open h)) ?_
    rintro _ ⟨inner, rfl, hinner⟩
    refine ends_next (hfield inner hinner) ?_
    rintro _ ⟨rest, rfl, hrest⟩
    exact ends_rowEnd hrest
  obtain ⟨d, hok, -⟩ := hrun
  rw [validateDatasetRow, newDecoder, hok]
  rfl

end Fields

end Launcher
end RwkvLightning

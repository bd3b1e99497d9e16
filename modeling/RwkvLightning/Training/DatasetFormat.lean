import RwkvLightning.Training.DatasetStrings
import Mathlib.Data.List.DropRight

/-!
# The rows of a dataset

A row is a list of tokens with white space around them: a mark of one byte, a string or
one of the words `true` and `false`.  `Layout space tokens text` leaves open what counts as
white space.  A `RowSpelling` is a row with the pieces of its strings, the keys among them,
and with the order of the fields in each segment.

**Results.**
* `parseRow_of_layout`: `parse_row` returns the segments of a row, if its strings decode.
* `parseRow_of_decoded_none`: it rejects a row with a text that does not decode.
-/

namespace RwkvLightning
namespace Dataset

open JsonString (Bytes ascii Piece decode literal)
open Scanner

/-- A token of a row. -/
inductive Token where
  | mark (c : UInt8) (visible : isSpace c = false)
  | str (pieces : List Piece)
  | word (value : Bool)

/-- A token as it stands in the text. -/
def Token.bytes : Token → Bytes
  | mark c _ => [c]
  | str pieces => literal pieces
  | word true => ascii "true"
  | word false => ascii "false"

/-- The tokens with white space around them. -/
inductive Layout (space : UInt8 → Bool) : List Token → Bytes → Prop
  | nil {blank : Bytes} : (∀ c ∈ blank, space c = true) → Layout space [] blank
  | cons {blank rest : Bytes} {token : Token} {tokens : List Token} :
      (∀ c ∈ blank, space c = true) → Layout space tokens rest →
      Layout space (token :: tokens) (blank ++ (token.bytes ++ rest))

/-- A segment with the pieces of its strings. -/
structure SegmentSpelling where
  textKey : List Piece
  trainKey : List Piece
  text : List Piece
  train : Bool
  textFirst : Bool
  textKey_eq : decode textKey = some (ascii "text")
  trainKey_eq : decode trainKey = some (ascii "train")

namespace SegmentSpelling

variable (s : SegmentSpelling)

def textField : List Token :=
  [.str s.textKey, .mark 0x3A rfl, .str s.text]

def trainField : List Token :=
  [.str s.trainKey, .mark 0x3A rfl, .word s.train]

def tokens : List Token :=
  .mark 0x7B rfl ::
    (if s.textFirst then s.textField ++ .mark 0x2C rfl :: s.trainField
      else s.trainField ++ .mark 0x2C rfl :: s.textField) ++ [.mark 0x7D rfl]

/-- The segment, if its text decodes. -/
def segment : Option TextSegment :=
  (decode s.text).map fun text => { text := text, train := s.train }

end SegmentSpelling

/-- Segments with commas between them. -/
def segmentTokens : SegmentSpelling → List SegmentSpelling → List Token
  | s, [] => s.tokens
  | s, next :: rest => s.tokens ++ .mark 0x2C rfl :: segmentTokens next rest

/-- A row with the pieces of its strings. -/
inductive RowSpelling where
  | text (key value : List Piece) (key_eq : decode key = some (ascii "text"))
  | segments (key : List Piece) (first : SegmentSpelling) (rest : List SegmentSpelling)
      (key_eq : decode key = some (ascii "segments"))

namespace RowSpelling

def tokens : RowSpelling → List Token
  | text key value _ => [.mark 0x7B rfl, .str key, .mark 0x3A rfl, .str value, .mark 0x7D rfl]
  | segments key first rest _ =>
      [.mark 0x7B rfl, .str key, .mark 0x3A rfl, .mark 0x5B rfl] ++ segmentTokens first rest ++
        [.mark 0x5D rfl, .mark 0x7D rfl]

/-- The segments of the row, if its texts decode. -/
def decoded : RowSpelling → Option (List TextSegment)
  | text _ value _ => (decode value).map fun text => [{ text := text, train := true }]
  | segments _ first rest _ => (first :: rest).mapM SegmentSpelling.segment

end RowSpelling

section Layouts

variable {space : UInt8 → Bool} {token : Token} {tokens : List Token} {text rest : Bytes}

theorem Token.head (token : Token) : ∃ c behind, token.bytes = c :: behind ∧ isSpace c = false := by
  cases token with
  | mark c visible => exact ⟨c, [], rfl, visible⟩
  | str pieces => exact ⟨_, _, rfl, rfl⟩
  | word value => cases value <;> exact ⟨_, _, rfl, rfl⟩

/-- No token begins with white space. -/
theorem Token.dropWhile (hspace : ∀ c, space c = true → isSpace c = true) (token : Token)
    (rest : Bytes) : (token.bytes ++ rest).dropWhile space = token.bytes ++ rest := by
  obtain ⟨c, behind, hbytes, hvisible⟩ := token.head
  have hc : ¬space c = true := by
    intro hc
    rw [hspace c hc] at hvisible
    cases hvisible
  rw [hbytes, List.cons_append, List.dropWhile_cons_of_neg hc]

/-- A layout with more white space in front. -/
theorem Layout.blank {blank : Bytes} (hblank : ∀ c ∈ blank, space c = true)
    (h : Layout space tokens text) : Layout space tokens (blank ++ text) := by
  have hboth {more : Bytes} (hmore : ∀ c ∈ more, space c = true) :
      ∀ c ∈ blank ++ more, space c = true := by
    intro c hc
    exact (List.mem_append.mp hc).elim (hblank c) (hmore c)
  cases h with
  | nil hmore => exact Layout.nil (hboth hmore)
  | cons hmore hrest =>
      rw [← List.append_assoc]
      exact Layout.cons (hboth hmore) hrest

/-- A layout with other white space. -/
theorem Layout.mono {other : UInt8 → Bool} (h : Layout space tokens text)
    (hspace : ∀ c ∈ text, space c = true → other c = true) : Layout other tokens text := by
  induction h with
  | nil hblank => exact Layout.nil fun c hc => hspace c hc (hblank c hc)
  | cons hblank _ ih =>
      refine Layout.cons (fun c hc => ?_) (ih fun c hc => ?_)
      · exact hspace c (List.mem_append_left _ hc) (hblank c hc)
      · exact hspace c (List.mem_append_right _ (List.mem_append_right _ hc))

/-- A layout with a further blank behind it. -/
theorem Layout.snoc {c : UInt8} (h : Layout space tokens text) (hc : space c = true) :
    Layout space tokens (text ++ [c]) := by
  induction h with
  | nil hblank =>
      refine Layout.nil fun b hb => ?_
      rcases List.mem_append.mp hb with hb | hb
      · exact hblank b hb
      · rw [List.mem_singleton.mp hb]
        exact hc
  | cons hblank _ ih =>
      rw [List.append_assoc, List.append_assoc]
      exact Layout.cons hblank ih

theorem Token.last (token : Token) :
    ∃ before c, token.bytes = before ++ [c] ∧ isSpace c = false := by
  cases token with
  | mark c visible => exact ⟨[], c, rfl, visible⟩
  | str pieces => exact ⟨JsonString.quote :: JsonString.spelled pieces, _, rfl, rfl⟩
  | word value =>
      cases value with
      | true => exact ⟨ascii "tru", _, rfl, rfl⟩
      | false => exact ⟨ascii "fals", _, rfl, rfl⟩

/-- A blank at the end belongs to no token. -/
theorem Layout.of_snoc {c : UInt8} (hvisible : isSpace c = true)
    (h : Layout space tokens (text ++ [c])) : Layout space tokens text := by
  generalize hall : text ++ [c] = all at h
  induction h generalizing text with
  | nil hblank =>
      subst hall
      exact Layout.nil fun b hb => hblank b (List.mem_append_left _ hb)
  | @cons blank rest token tokens hblank hrest ih =>
      rcases List.eq_nil_or_concat' rest with rfl | ⟨more, last, rfl⟩
      · obtain ⟨before, d, hbytes, hd⟩ := token.last
        rw [hbytes, List.append_nil, ← List.append_assoc] at hall
        have hlast := (List.append_inj' hall rfl).2
        rw [← List.singleton_inj.mp hlast, hvisible] at hd
        cases hd
      · rw [← List.append_assoc, ← List.append_assoc] at hall
        obtain ⟨rfl, hlast⟩ := List.append_inj' hall rfl
        rw [List.append_assoc]
        exact Layout.cons hblank (ih (by rw [hlast]))

theorem Layout.tight_cons (token : Token) (h : Layout space tokens rest) :
    Layout space (token :: tokens) (token.bytes ++ rest) :=
  Layout.cons (fun _ hc => absurd hc List.not_mem_nil) h

theorem Layout.of_dropWhile (h : Layout space tokens (text.dropWhile space)) :
    Layout space tokens text := by
  have hsplit : Layout space tokens (text.takeWhile space ++ text.dropWhile space) :=
    h.blank fun c hc => List.mem_takeWhile_imp hc
  rw [List.takeWhile_append_dropWhile] at hsplit
  exact hsplit

/-- The first token stands behind the white space. -/
theorem Layout.head (hspace : ∀ c, space c = true → isSpace c = true)
    (h : Layout space (token :: tokens) text) :
    ∃ rest, text.dropWhile space = token.bytes ++ rest ∧ Layout space tokens rest := by
  cases h with
  | @cons blank rest _ _ hblank hrest =>
      refine ⟨rest, ?_, hrest⟩
      rw [List.dropWhile_append_of_pos hblank]
      exact token.dropWhile hspace rest

/-- The tokens of `part` stand in `text` before what is left. -/
def Took (space : UInt8 → Bool) (part : List Token) (text rest : Bytes) : Prop :=
  ∀ tokens, Layout space tokens rest → Layout space (part ++ tokens) text

theorem Took.trans {part more : List Token} {mid : Bytes} (h : Took space part text mid)
    (hmore : Took space more mid rest) : Took space (part ++ more) text rest := by
  intro tokens hrest
  rw [List.append_assoc]
  exact h _ (hmore tokens hrest)

theorem took_token (token : Token) (rest : Bytes) :
    Took space [token] (token.bytes ++ rest) rest :=
  fun _ hrest => hrest.tight_cons token

theorem took_of_dropWhile (h : text.dropWhile space = token.bytes ++ rest) :
    Took space [token] text rest := by
  intro tokens hrest
  refine Layout.of_dropWhile ?_
  rw [h]
  exact hrest.tight_cons token

theorem Layout.nil_dropWhile (h : Layout space [] text) : text.dropWhile space = [] := by
  cases h with
  | nil hblank => exact List.dropWhile_eq_nil_iff.mpr hblank

theorem Layout.dropWhile (h : Layout isSpace tokens text) :
    Layout isSpace tokens (text.dropWhile isSpace) := by
  cases tokens with
  | nil =>
      rw [h.nil_dropWhile]
      exact Layout.nil fun _ hc => absurd hc List.not_mem_nil
  | cons token tokens =>
      obtain ⟨rest, hrest, hlayout⟩ := h.head fun _ hc => hc
      rw [hrest]
      exact hlayout.tight_cons token

/-- White space has been skipped. -/
def Tight (text : Bytes) : Prop := text.dropWhile isSpace = text

theorem Layout.tight_head (h : Layout isSpace (token :: tokens) text) (htight : Tight text) :
    ∃ rest, text = token.bytes ++ rest ∧ Layout isSpace tokens rest := by
  obtain ⟨rest, hrest, hlayout⟩ := h.head fun _ hc => hc
  exact ⟨rest, htight.symm.trans hrest, hlayout⟩

theorem layout_nil_tight (h : Layout isSpace [] text) (htight : Tight text) : text = [] :=
  htight.symm.trans h.nil_dropWhile

theorem Layout.length_le (h : Layout space tokens text) : tokens.length ≤ text.length := by
  induction h with
  | nil _ => exact Nat.zero_le _
  | @cons blank rest token tokens _ _ ih =>
      have hpos : 0 < token.bytes.length := by
        cases token with
        | mark c visible => exact Nat.one_pos
        | str pieces => exact Nat.succ_pos _
        | word value => cases value <;> decide
      rw [List.length_append, List.length_append, List.length_cons]
      omega

end Layouts

section Tokens

variable {tokens : List Token} {text : Bytes}

/-- The tokens that are left, with the white space before them skipped. -/
def Left (tokens : List Token) (rest : Bytes) : Prop :=
  Layout isSpace tokens rest ∧ Tight rest

theorem left_dropWhile {rest : Bytes} (h : Layout isSpace tokens rest) :
    Left tokens (rest.dropWhile isSpace) :=
  ⟨h.dropWhile, List.dropWhile_idempotent _ _⟩

theorem ends_expect {c : UInt8} {visible : isSpace c = false} (error : String)
    (h : Layout isSpace (.mark c visible :: tokens) text) :
    Ends (some ()) (Left tokens) (expect c error text) := by
  obtain ⟨rest, hhead, hrest⟩ := h.head fun _ hc => hc
  have hblank : whitespace text = .ok ((), c :: rest) := by
    rw [whitespace, hhead]
    rfl
  have hbyte : byte c error (c :: rest) = .ok ((), rest) := if_pos rfl
  rw [expect, bind_ok hblank, bind_ok hbyte]
  exact ⟨_, rfl, left_dropWhile hrest⟩

theorem ends_jsonString {pieces : List Piece} (h : Left (.str pieces :: tokens) text) :
    Ends (decode pieces) (Layout isSpace tokens) (jsonString text) := by
  obtain ⟨rest, rfl, hrest⟩ := h.1.tight_head h.2
  cases hdecode : decode pieces with
  | none => exact jsonString_none hdecode rest
  | some bytes => exact ⟨rest, jsonString_literal hdecode rest, hrest⟩

theorem ends_jsonBool {value : Bool} (h : Left (.word value :: tokens) text) :
    Ends (some value) (Layout isSpace tokens) (jsonBool text) := by
  obtain ⟨rest, rfl, hrest⟩ := h.1.tight_head h.2
  cases value with
  | true => exact ⟨rest, rfl, hrest⟩
  | false => exact ⟨rest, rfl, hrest⟩

theorem ends_nextIs {c : UInt8} {visible : isSpace c = false} (next : UInt8)
    (h : Left (.mark c visible :: tokens) text) :
    Ends (some (decide (c = next))) (Left (.mark c visible :: tokens)) (nextIs next text) := by
  obtain ⟨rest, htext, -⟩ := h.1.tight_head h.2
  have hhead : text.head? = some c := by
    rw [htext]
    rfl
  refine ⟨text, ?_, h⟩
  rw [nextIs, hhead]
  simp only [Option.some.injEq]

theorem ends_comma {c : UInt8} {visible : isSpace c = false}
    (h : Layout isSpace (.mark c visible :: tokens) text) :
    Ends (some (decide (c = 0x2C))) (Left (.mark c visible :: tokens)) (comma text) := by
  have hblank : Ends (some ()) (Left (.mark c visible :: tokens)) (whitespace text) :=
    ⟨_, rfl, left_dropWhile h⟩
  exact ends_next hblank fun rest hrest => ends_nextIs 0x2C hrest

end Tokens

section Segments

variable {tokens : List Token} {text : Bytes} {fields : SegmentFields}

theorem ends_segmentText {key value : List Piece} (hkey : decode key = some (ascii "text"))
    (hfield : fields.hasText = false)
    (h : Left (.str key :: .mark 0x3A rfl :: .str value :: tokens) text) :
    Ends ((decode value).map fun text =>
        { fields with hasText := true, segment := { fields.segment with text := text } })
      (Layout isSpace tokens) (segmentField fields text) := by
  rw [segmentField]
  refine ends_next (hkey ▸ ends_jsonString h) fun rest hrest => ?_
  refine ends_next (ends_expect _ hrest) fun rest hrest => ?_
  rw [segmentValue, if_pos ⟨rfl, hfield⟩]
  exact ends_map (ends_jsonString hrest)

theorem ends_segmentTrain {key : List Piece} {value : Bool}
    (hkey : decode key = some (ascii "train")) (hfield : fields.hasTrain = false)
    (h : Left (.str key :: .mark 0x3A rfl :: .word value :: tokens) text) :
    Ends (some { fields with hasTrain := true, segment := { fields.segment with train := value } })
      (Layout isSpace tokens) (segmentField fields text) := by
  rw [segmentField]
  refine ends_next (hkey ▸ ends_jsonString h) fun rest hrest => ?_
  refine ends_next (ends_expect _ hrest) fun rest hrest => ?_
  have hkeys : ¬(ascii "train" = ascii "text" ∧ fields.hasText = false) := by
    intro hboth
    exact absurd hboth.1 (by decide)
  rw [segmentValue, if_neg hkeys, if_pos ⟨rfl, hfield⟩]
  exact ends_next (ends_jsonBool hrest) fun rest hrest => ⟨rest, rfl, hrest⟩

/-- A comma is followed by a further pass of the loop over the fields. -/
theorem ends_segmentComma {o : Option SegmentFields} {g : SegmentFields → Option TextSegment}
    {P : Bytes → Prop} {passes : Nat}
    (hfield : Ends o (Layout isSpace (.mark 0x2C rfl :: tokens)) (segmentField fields text))
    (hnext : ∀ next rest, o = some next → Left tokens rest →
      Ends (g next) P (segmentLoop passes next rest)) :
    Ends (o.bind g) P (segmentLoop (passes + 1) fields text) := by
  rw [segmentLoop]
  refine ends_bind hfield fun next rest hsome hrest => ?_
  refine ends_next (ends_comma hrest) fun rest hrest => ?_
  exact ends_next (ends_expect _ hrest.1) fun rest hrest => hnext next rest hsome hrest

/-- A brace ends the loop over the fields. -/
theorem ends_segmentBrace {o : Option SegmentFields} {passes : Nat}
    (hfield : Ends o (Layout isSpace (.mark 0x7D rfl :: tokens)) (segmentField fields text))
    (hboth : ∀ last, o = some last → last.hasText = true ∧ last.hasTrain = true) :
    Ends (o.map SegmentFields.segment) (Left tokens) (segmentLoop (passes + 1) fields text) := by
  rw [segmentLoop, Option.map_eq_bind]
  refine ends_bind hfield fun last rest hlast hrest => ?_
  refine ends_next (ends_comma hrest) fun rest hrest => ?_
  obtain ⟨htext, htrain⟩ := hboth last hlast
  refine ends_next (ends_expect _ hrest.1) fun rest hrest => ?_
  rw [htext, htrain]
  exact ⟨rest, rfl, hrest⟩

theorem ends_textFirst (s : SegmentSpelling) (passes : Nat)
    (h : Left (s.textField ++ .mark 0x2C rfl :: (s.trainField ++ .mark 0x7D rfl :: tokens)) text) :
    Ends s.segment (Left tokens) (segmentLoop (passes + 1 + 1) SegmentFields.start text) := by
  have hsegment : s.segment =
      ((decode s.text).map fun text => SegmentFields.mk true false ⟨text, true⟩).bind fun next =>
        (some { next with hasTrain := true, segment := { next.segment with train := s.train } }).map
          SegmentFields.segment := by
    rw [SegmentSpelling.segment]
    cases decode s.text <;> rfl
  rw [hsegment]
  have hfield : Ends _ (Layout isSpace (.mark 0x2C rfl :: (s.trainField ++
      .mark 0x7D rfl :: tokens))) (segmentField SegmentFields.start text) :=
    ends_segmentText s.textKey_eq rfl h
  refine ends_segmentComma hfield fun next rest hnext hrest => ?_
  obtain ⟨bytes, -, rfl⟩ := Option.map_eq_some_iff.mp hnext
  refine ends_segmentBrace (ends_segmentTrain s.trainKey_eq rfl hrest) fun last hlast => ?_
  cases hlast
  exact ⟨rfl, rfl⟩

theorem ends_trainFirst (s : SegmentSpelling) (passes : Nat)
    (h : Left (s.trainField ++ .mark 0x2C rfl :: (s.textField ++ .mark 0x7D rfl :: tokens)) text) :
    Ends s.segment (Left tokens) (segmentLoop (passes + 1 + 1) SegmentFields.start text) := by
  have hsegment : s.segment =
      (some (SegmentFields.mk false true ⟨[], s.train⟩)).bind fun next =>
        ((decode s.text).map fun text =>
          { next with hasText := true, segment := { next.segment with text := text } }).map
          SegmentFields.segment := by
    rw [SegmentSpelling.segment]
    cases decode s.text <;> rfl
  rw [hsegment]
  refine ends_segmentComma (ends_segmentTrain s.trainKey_eq rfl h) fun next rest hnext hrest => ?_
  cases hnext
  refine ends_segmentBrace (ends_segmentText s.textKey_eq rfl hrest) fun last hlast => ?_
  obtain ⟨bytes, -, rfl⟩ := Option.map_eq_some_iff.mp hlast
  exact ⟨rfl, rfl⟩

/-- `parse_segment` returns the segment, whatever the order of its fields. -/
theorem ends_parseSegment (s : SegmentSpelling)
    (h : Layout isSpace (s.tokens ++ tokens) text) :
    Ends s.segment (Left tokens) (parseSegment text) := by
  rw [SegmentSpelling.tokens, List.append_assoc, List.cons_append] at h
  rw [parseSegment]
  refine ends_next (ends_expect _ h) fun rest hrest => ?_
  have hle := hrest.1.length_le
  cases horder : s.textFirst with
  | true =>
      rw [if_pos horder, List.append_assoc] at hrest hle
      obtain ⟨passes, hpasses⟩ : ∃ passes, rest.length = passes + 1 + 1 :=
        ⟨rest.length - 2, by simp [SegmentSpelling.textField] at hle; omega⟩
      rw [hpasses]
      exact ends_textFirst s passes hrest
  | false =>
      rw [if_neg (by rw [horder]; decide), List.append_assoc] at hrest hle
      obtain ⟨passes, hpasses⟩ : ∃ passes, rest.length = passes + 1 + 1 :=
        ⟨rest.length - 2, by simp [SegmentSpelling.trainField] at hle; omega⟩
      rw [hpasses]
      exact ends_trainFirst s passes hrest

theorem length_le_segmentTokens (first : SegmentSpelling) (rest : List SegmentSpelling) :
    rest.length + 1 ≤ (segmentTokens first rest).length := by
  induction rest generalizing first with
  | nil => exact Nat.succ_pos _
  | cons next rest ih =>
      have hle := ih next
      rw [segmentTokens, List.length_append, List.length_cons, List.length_cons]
      omega

theorem head_of_segmentTokens (first : SegmentSpelling) (rest : List SegmentSpelling) :
    ∃ more, segmentTokens first rest = .mark 0x7B rfl :: more := by
  cases rest with
  | nil => exact ⟨_, rfl⟩
  | cons next rest => exact ⟨_, rfl⟩

/-- The loop over the segments returns them in order. -/
theorem ends_segmentsLoop {first : SegmentSpelling} {rest : List SegmentSpelling} {passes : Nat}
    (h : Layout isSpace (segmentTokens first rest ++ .mark 0x5D rfl :: tokens) text)
    (hpasses : rest.length < passes) :
    Ends ((first :: rest).mapM SegmentSpelling.segment) (Left tokens)
      (segmentsLoop passes text) := by
  induction rest generalizing first passes text with
  | nil =>
      obtain ⟨passes, rfl⟩ : ∃ n, passes = n + 1 := ⟨passes - 1, by omega⟩
      rw [segmentsLoop, List.mapM_cons]
      refine ends_bind (ends_parseSegment first h) fun segment rest _ hrest => ?_
      refine ends_next (ends_comma hrest.1) fun rest hrest => ?_
      exact ends_next (ends_expect _ hrest.1) fun rest hrest => ⟨rest, rfl, hrest⟩
  | cons next rest ih =>
      obtain ⟨passes, rfl⟩ : ∃ n, passes = n + 1 := ⟨passes - 1, by omega⟩
      rw [segmentTokens, List.append_assoc] at h
      rw [segmentsLoop, List.mapM_cons]
      refine ends_bind (ends_parseSegment first h) fun segment behind _ hrest => ?_
      refine ends_next (ends_comma hrest.1) fun behind hrest => ?_
      refine ends_next (ends_expect _ hrest.1) fun behind hrest => ?_
      have hmore := ih hrest.1 (Nat.lt_of_succ_lt_succ hpasses)
      exact ends_bind hmore fun segments behind _ hrest => ⟨behind, rfl, hrest⟩

end Segments

section RowText

variable {text : Bytes}

/-- The mark that ends a row, and nothing behind it. -/
theorem ends_rowEnd (h : Layout isSpace [.mark 0x7D rfl] text) :
    Ends (some ()) (· = []) (rowEnd text) := by
  rw [rowEnd]
  refine ends_next (ends_comma h) fun rest hrest => ?_
  refine ends_next (ends_expect _ hrest.1) fun rest hrest => ?_
  obtain rfl := layout_nil_tight hrest.1 hrest.2
  exact ⟨[], rfl, rfl⟩

theorem ends_textValue {value : List Piece} {tokens : List Token}
    (h : Left (.str value :: tokens) text) :
    Ends ((decode value).map fun text => [{ text := text, train := true }])
      (Layout isSpace tokens) (rowValue (ascii "text") text) := by
  rw [rowValue, if_pos rfl]
  exact ends_map (ends_jsonString h)

theorem ends_segmentsValue {first : SegmentSpelling} {rest : List SegmentSpelling}
    {tokens : List Token}
    (h : Left (.mark 0x5B rfl :: (segmentTokens first rest ++ .mark 0x5D rfl :: tokens)) text) :
    Ends ((first :: rest).mapM SegmentSpelling.segment) (Layout isSpace tokens)
      (rowValue (ascii "segments") text) := by
  have hkeys : ascii "segments" ≠ ascii "text" := by decide
  rw [rowValue, if_neg hkeys, if_pos rfl]
  refine ends_next (ends_expect _ h.1) fun behind hbehind => ?_
  obtain ⟨more, hmore⟩ := head_of_segmentTokens first rest
  have hempty : Ends (some false) (Left (segmentTokens first rest ++ .mark 0x5D rfl :: tokens))
      (nextIs 0x5D behind) := by
    rw [hmore] at hbehind ⊢
    exact ends_nextIs 0x5D hbehind
  refine ends_next hempty fun behind hbehind => ?_
  have hle := hbehind.1.length_le
  have hcount := length_le_segmentTokens first rest
  rw [List.length_append] at hle
  have hloop := ends_segmentsLoop hbehind.1 (show rest.length < behind.length by omega)
  exact hloop.imp fun rest hrest => hrest.1

theorem ends_row {key : List Piece} {name : Bytes} {tokens : List Token}
    {o : Option (List TextSegment)} (hkey : decode key = some name)
    (hvalue : ∀ rest, Left tokens rest → Ends o (Layout isSpace [.mark 0x7D rfl]) (rowValue name rest))
    (h : Layout isSpace (.mark 0x7B rfl :: .str key :: .mark 0x3A rfl :: tokens) text) :
    Ends o (· = []) (scanRow text) := by
  rw [scanRow]
  refine ends_next (ends_expect _ h) fun rest hrest => ?_
  refine ends_next (hkey ▸ ends_jsonString hrest) fun rest hrest => ?_
  refine ends_next (ends_expect _ hrest) fun rest hrest => ?_
  rw [← Option.bind_fun_some o]
  refine ends_bind (hvalue rest hrest) fun segments rest _ hrest => ?_
  exact ends_next (ends_rowEnd hrest) fun rest hrest => ⟨rest, rfl, hrest⟩

/-- `parse_row` reads a row up to the end of the line and returns its segments. -/
theorem ends_scanRow (row : RowSpelling) (h : Layout isSpace row.tokens text) :
    Ends row.decoded (· = []) (scanRow text) := by
  cases row with
  | text key value hkey => exact ends_row hkey (fun rest hrest => ends_textValue hrest) h
  | segments key first more hkey =>
      rw [RowSpelling.tokens, List.append_assoc] at h
      exact ends_row hkey (fun rest hrest => ends_segmentsValue hrest) h

theorem parseRow_of_layout {row : RowSpelling} {segments : List TextSegment}
    (hdecoded : row.decoded = some segments) (h : Layout isSpace row.tokens text) :
    parseRow text = .ok segments := by
  have hrow := ends_scanRow row h
  rw [hdecoded] at hrow
  obtain ⟨rest, hok, -⟩ := hrow
  rw [parseRow, hok]
  rfl

theorem parseRow_of_decoded_none {row : RowSpelling} (hdecoded : row.decoded = none)
    (h : Layout isSpace row.tokens text) : ∃ message, parseRow text = .error message := by
  have hrow := ends_scanRow row h
  rw [hdecoded] at hrow
  obtain ⟨message, herror⟩ := hrow
  exact ⟨message, by rw [parseRow, herror]; rfl⟩

end RowText

end Dataset
end RwkvLightning

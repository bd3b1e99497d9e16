import RwkvLightning.Library.JsonString
import Mathlib.Data.List.Basic

/-!
# Training datasets

`dataset.cpp`: the scanner of a JSONL row, and the reader that counts the rows of a file.

**Positions.**  A position in a line is what is left of the line from there on.  A function
that moves `at` returns the rest behind what it has read.

**Loops.**  A loop over a line has as many passes as there are bytes left, and each pass
takes at least one; a pass beyond them would be at the end of the line.

**Failures.**  A `std::runtime_error` has its text.
-/

namespace RwkvLightning
namespace Dataset

open JsonString (Bytes ascii)

/-- A function that reads on from a position, or throws. -/
abbrev Scan (α : Type) := StateT Bytes (Except String) α

/-- `throw std::runtime_error`. -/
def fail {α : Type} (message : String) : Scan α := fun _ => .error message

section Strings

/-- `append_utf8`: the bytes that are appended. -/
def appendUtf8 (cp : Nat) : Bytes :=
  if cp ≤ 0x7f then [UInt8.ofNat cp]
  else if cp ≤ 0x7ff then
    [UInt8.ofNat (0xc0 ||| (cp >>> 6)), UInt8.ofNat (0x80 ||| (cp &&& 0x3f))]
  else if cp ≤ 0xffff then
    [UInt8.ofNat (0xe0 ||| (cp >>> 12)), UInt8.ofNat (0x80 ||| ((cp >>> 6) &&& 0x3f)),
      UInt8.ofNat (0x80 ||| (cp &&& 0x3f))]
  else
    [UInt8.ofNat (0xf0 ||| (cp >>> 18)), UInt8.ofNat (0x80 ||| ((cp >>> 12) &&& 0x3f)),
      UInt8.ofNat (0x80 ||| ((cp >>> 6) &&& 0x3f)), UInt8.ofNat (0x80 ||| (cp &&& 0x3f))]

/-- `hex`; `none` is the -1 of the source. -/
def hex (c : UInt8) : Option Nat :=
  if 0x30 ≤ c ∧ c ≤ 0x39 then some (c.toNat - 0x30)
  else if 0x61 ≤ c ∧ c ≤ 0x66 then some (c.toNat - 0x61 + 10)
  else if 0x41 ≤ c ∧ c ≤ 0x46 then some (c.toNat - 0x41 + 10)
  else none

/-- The loop of `unicode_escape`. -/
def unicodeDigits : Nat → Nat → Scan Nat
  | 0, value => pure value
  | count + 1, value => fun
    | [] => .error "truncated unicode escape"
    | c :: rest =>
        match hex c with
        | some digit => unicodeDigits count (value <<< 4 ||| digit) rest
        | none => .error "invalid unicode escape"

/-- `unicode_escape`. -/
def unicodeEscape : Scan Nat := fun rest =>
  if rest.length < 4 then .error "truncated unicode escape" else unicodeDigits 4 0 rest

/-- The test that a second escape follows, and the step over its two bytes. -/
def lowPrefix : Scan Unit
  | 0x5C :: 0x75 :: rest => .ok ((), rest)
  | _ => .error "missing low surrogate"

/-- The case `'u'` of `json_string`. -/
def unicodeCase : Scan Bytes := do
  let cp ← unicodeEscape
  if 0xd800 ≤ cp ∧ cp ≤ 0xdbff then do
    lowPrefix
    let low ← unicodeEscape
    if low < 0xdc00 ∨ 0xdfff < low then fail "invalid low surrogate"
    else pure (appendUtf8 (0x10000 + ((cp - 0xd800) <<< 10) + (low - 0xdc00)))
  else if 0xdc00 ≤ cp ∧ cp ≤ 0xdfff then fail "unexpected low surrogate"
  else pure (appendUtf8 cp)

/-- The `switch` of `json_string`: what is appended for an escape. -/
def jsonEscape : Scan Bytes
  | [] => .error "truncated JSON escape"
  | escaped :: rest =>
      if escaped = 0x22 ∨ escaped = 0x5C ∨ escaped = 0x2F then .ok ([escaped], rest)
      else if escaped = 0x62 then .ok ([0x08], rest)
      else if escaped = 0x66 then .ok ([0x0C], rest)
      else if escaped = 0x6E then .ok ([0x0A], rest)
      else if escaped = 0x72 then .ok ([0x0D], rest)
      else if escaped = 0x74 then .ok ([0x09], rest)
      else if escaped = 0x75 then unicodeCase rest
      else .error "unsupported JSON escape"

/-- The loop of `json_string`, with what has been appended to `out`. -/
def stringLoop : Nat → Bytes → Scan Bytes
  | 0, _ => fail "unterminated JSON string"
  | passes + 1, out => fun
    | [] => .error "unterminated JSON string"
    | c :: rest =>
        if c = 0x22 then .ok (out, rest)
        else if c < 0x20 then .error "control byte in JSON string"
        else if c ≠ 0x5C then stringLoop passes (out ++ [c]) rest
        else
          match jsonEscape rest with
          | .ok (part, rest) => stringLoop passes (out ++ part) rest
          | .error message => .error message

/-- `json_string`. -/
def jsonString : Scan Bytes
  | 0x22 :: rest => stringLoop (rest.length + 1) [] rest
  | _ => .error "expected JSON string"

end Strings

section Rows

/-- `std::isspace` in the C locale. -/
def isSpace (c : UInt8) : Bool :=
  c = 0x20 || (0x09 ≤ c && c ≤ 0x0D)

/-- `whitespace`. -/
def whitespace : Scan Unit := fun rest => .ok ((), rest.dropWhile isSpace)

/-- The next byte, which is not read. -/
def nextIs (c : UInt8) : Scan Bool := fun rest => .ok (rest.head? = some c, rest)

/-- The test of one byte in `expect`. -/
def byte (c : UInt8) (error : String) : Scan Unit
  | [] => .error error
  | next :: rest => if next = c then .ok ((), rest) else .error error

/-- `expect`. -/
def expect (c : UInt8) (error : String) : Scan Unit := do
  whitespace
  byte c error
  whitespace

/-- The test for a comma behind white space; the comma is not read. -/
def comma : Scan Bool := do
  whitespace
  nextIs 0x2C

/-- `json_bool`. -/
def jsonBool : Scan Bool := fun rest =>
  if rest.take 4 = ascii "true" then .ok (true, rest.drop 4)
  else if rest.take 5 = ascii "false" then .ok (false, rest.drop 5)
  else .error "segment train must be true or false"

/-- `TextSegment`. -/
structure TextSegment where
  text : Bytes
  train : Bool
deriving DecidableEq, Repr

/-- The fields of a segment that have been read. -/
structure SegmentFields where
  hasText : Bool
  hasTrain : Bool
  segment : TextSegment

def SegmentFields.start : SegmentFields where
  hasText := false
  hasTrain := false
  segment := { text := [], train := true }

/-- The value of a field of a segment. -/
def segmentValue (fields : SegmentFields) (key : Bytes) : Scan SegmentFields :=
  if key = ascii "text" ∧ fields.hasText = false then do
    let text ← jsonString
    pure { fields with hasText := true, segment := { fields.segment with text := text } }
  else if key = ascii "train" ∧ fields.hasTrain = false then do
    let train ← jsonBool
    pure { fields with hasTrain := true, segment := { fields.segment with train := train } }
  else fail "segment must contain exactly one text and one train field"

/-- A field of a segment. -/
def segmentField (fields : SegmentFields) : Scan SegmentFields := do
  let key ← jsonString
  expect 0x3A "missing ':' after segment field"
  segmentValue fields key

/-- The loop of `parse_segment` and the test after it. -/
def segmentLoop : Nat → SegmentFields → Scan TextSegment
  | 0, _ => fail "expected JSON string"
  | passes + 1, fields => do
      let fields ← segmentField fields
      let more ← comma
      if more then do
        expect 0x2C "missing ','"
        segmentLoop passes fields
      else do
        expect 0x7D "missing closing segment brace"
        if fields.hasText = false ∨ fields.hasTrain = false then
          fail "segment requires both text and train"
        else pure fields.segment

/-- `parse_segment`. -/
def parseSegment : Scan TextSegment := do
  expect 0x7B "segment must be an object"
  fun rest => segmentLoop rest.length SegmentFields.start rest

/-- The loop over the segments of a row. -/
def segmentsLoop : Nat → Scan (List TextSegment)
  | 0 => fail "segment must be an object"
  | passes + 1 => do
      let segment ← parseSegment
      let more ← comma
      if more then do
        expect 0x2C "missing ','"
        let segments ← segmentsLoop passes
        pure (segment :: segments)
      else do
        expect 0x5D "missing closing segments bracket"
        pure [segment]

/-- The value of the field of a row. -/
def rowValue (key : Bytes) : Scan (List TextSegment) :=
  if key = ascii "text" then do
    let text ← jsonString
    pure [{ text := text, train := true }]
  else if key = ascii "segments" then do
    expect 0x5B "segments must be an array"
    let empty ← nextIs 0x5D
    if empty then fail "segments must not be empty"
    else fun rest => segmentsLoop rest.length rest
  else fail "JSONL row must contain a text or segments field"

/-- The test that the line ends here. -/
def lineEnd : Scan Unit := fun rest =>
  if rest = [] then .ok ((), rest) else .error "trailing JSON data"

/-- What follows the field of a row. -/
def rowEnd : Scan Unit := do
  let more ← comma
  if more then fail "JSONL row must contain exactly one field"
  else do
    expect 0x7D "missing closing object brace"
    lineEnd

/-- The passes of `parse_row`, with the position behind the last. -/
def scanRow : Scan (List TextSegment) := do
  expect 0x7B "JSONL row must be an object"
  let key ← jsonString
  expect 0x3A "missing ':' after row field"
  let segments ← rowValue key
  rowEnd
  pure segments

/-- `parse_row`. -/
def parseRow (line : Bytes) : Except String (List TextSegment) :=
  (scanRow line).map Prod.fst

end Rows

section Files

/-- The lines that `std::getline` takes from a file. -/
def getLines (file : Bytes) : List Bytes :=
  let parts := file.splitOn 0x0A
  if parts.getLast? = some [] then parts.dropLast else parts

/-- The error of a row: the number of its line and the text. -/
structure RowError where
  lineNumber : Nat
  message : String
deriving DecidableEq, Repr

/-- `JsonlTextReader`: the lines that are left, and the number of those before. -/
structure JsonlTextReader where
  lines : List Bytes
  lineNumber : Nat
deriving DecidableEq, Repr

/-- `JsonlTextReader::next`: the segments of the next row, if there is one. -/
def JsonlTextReader.next : List Bytes → Nat →
    Except RowError (Option (List TextSegment) × JsonlTextReader)
  | [], lineNumber => .ok (none, { lines := [], lineNumber := lineNumber })
  | line :: lines, lineNumber =>
      if line = [] then JsonlTextReader.next lines (lineNumber + 1)
      else
        match parseRow line with
        | .ok segments => .ok (some segments, { lines := lines, lineNumber := lineNumber + 1 })
        | .error message => .error { lineNumber := lineNumber + 1, message := message }

/-- The loop of `count_jsonl_rows`. -/
def countLoop : Nat → JsonlTextReader → Nat → Except RowError Nat
  | 0, _, rows => .ok rows
  | passes + 1, reader, rows =>
      match JsonlTextReader.next reader.lines reader.lineNumber with
      | .ok (some _, reader) => countLoop passes reader (rows + 1)
      | .ok (none, _) => .ok rows
      | .error error => .error error

/-- `count_jsonl_rows` of a file that can be opened. -/
def countJsonlRows (file : Bytes) : Except RowError Nat :=
  let lines := getLines file
  countLoop (lines.length + 1) { lines := lines, lineNumber := 0 } 0

end Files

end Dataset
end RwkvLightning

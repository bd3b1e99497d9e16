import RwkvLightning.Launcher.JsonDecoder
import Mathlib

/-!
# The dataset check of the launcher

`validateDataset` of `main.go`: the rows of a JSONL file, line by line, before a training
run is started with it.

**Lines.**  A `bufio.Scanner` takes the lines, drops a carriage return at their end and
stops at a line that does not fit into its buffer.
-/

namespace RwkvLightning
namespace Launcher

open JsonString (Bytes ascii)

/-- A step of the check, which fails with its text. -/
abbrev Check (α : Type) := StateT Decoder (Except String) α

/-- `fmt.Errorf`. -/
def fail {α : Type} (message : String) : Check α := fun _ => .error message

/-- The next token; every failure has one text. -/
def next (message : String) : Check Token := fun d =>
  match token d with
  | .ok found => .ok found
  | .error _ => .error message

def more : Check Bool := fun d => .ok (d.more, d)

/-- The test of a delimiter. -/
def delim (c : UInt8) (message : String) : Check Unit := do
  let found ← next message
  if found = .delim c then pure () else fail message

/-- The test that nothing is left. -/
def atEnd (message : String) : Check Unit := fun d =>
  if token d = .error .eof then .ok ((), d) else .error message

def Token.isString : Token → Bool
  | .str _ => true
  | _ => false

def Token.isBool : Token → Bool
  | .bool _ => true
  | _ => false

section Rows

/-- The fields of a segment that have been seen. -/
structure SegmentFields where
  hasText : Bool
  hasTrain : Bool
deriving DecidableEq, Repr

/-- The `switch` over a field of a segment. -/
def segmentField (fields : SegmentFields) (key value : Token) : Check SegmentFields :=
  if key = .str (ascii "text") ∧ fields.hasText = false ∧ value.isString then
    pure { fields with hasText := true }
  else if key = .str (ascii "train") ∧ fields.hasTrain = false ∧ value.isBool then
    pure { fields with hasTrain := true }
  else fail "segment needs exactly one string text and one boolean train field"

/-- The loop over the fields of a segment. -/
def fieldsLoop : Nat → SegmentFields → Check SegmentFields
  | 0, _ => fail "invalid segment"
  | passes + 1, fields => do
      if ← more then do
        let key ← next "invalid segment"
        let value ← next "invalid segment"
        let fields ← segmentField fields key value
        fieldsLoop passes fields
      else pure fields

/-- A pass of the loop over the segments. -/
def validateSegment : Check Unit := do
  delim 0x7B "segment must be an object"
  let fields ← fun d => fieldsLoop (d.rest.length + 1) { hasText := false, hasTrain := false } d
  delim 0x7D "invalid segment"
  if fields.hasText = false ∨ fields.hasTrain = false then
    fail "segment needs exactly one string text and one boolean train field"
  else pure ()

/-- The loop over the segments. -/
def segmentsLoop : Nat → Check Unit
  | 0 => fail "invalid segment"
  | passes + 1 => do
      if ← more then do
        validateSegment
        segmentsLoop passes
      else pure ()

/-- `validateSegments`. -/
def validateSegments : Check Unit := do
  delim 0x5B "segments must be an array"
  if ← more then do
    fun d => segmentsLoop (d.rest.length + 1) d
    delim 0x5D "invalid segments array"
  else fail "segments must not be empty"

/-- The field of a row. -/
def rowField : Check Unit := do
  let key ← next "only a text or segments field is supported"
  if key = .str (ascii "text") then do
    let value ← next "text must be a string"
    if value.isString then pure () else fail "text must be a string"
  else if key = .str (ascii "segments") then validateSegments
  else fail "only a text or segments field is supported"

/-- What follows the field of a row. -/
def rowEnd : Check Unit := do
  if ← more then fail "exactly one text or segments field is required"
  else do
    delim 0x7D "invalid object"
    atEnd "trailing data"

/-- `validateDatasetRow`. -/
def validateDatasetRow (row : Bytes) : Except String Unit :=
  ((do delim 0x7B "expected JSON object"; rowField; rowEnd : Check Unit) (newDecoder row)).map
    Prod.fst

end Rows

section Files

/-- The limit of the line buffer. -/
def maxTokenSize : Nat := 16 * 2 ^ 20

/-- `dropCR`. -/
def dropCR (line : Bytes) : Bytes :=
  if line.getLast? = some 0x0D then line.dropLast else line

/-- The lines of a file without their newlines. -/
def rawLines (file : Bytes) : List Bytes :=
  let parts := file.splitOn 0x0A
  if parts.getLast? = some [] then parts.dropLast else parts

/-- The errors of `validateDataset` for a file that can be read. -/
inductive DatasetError where
  | row (line : Nat) (message : String)
  | tooLong
  | empty
deriving DecidableEq, Repr

/-- The loop over the lines, with the number of lines and of rows so far. -/
def linesLoop : List Bytes → Nat → Nat → Except DatasetError Nat
  | [], _, count => .ok count
  | raw :: lines, line, count =>
      if maxTokenSize ≤ raw.length then .error .tooLong
      else if dropCR raw = [] then linesLoop lines (line + 1) count
      else
        match validateDatasetRow (dropCR raw) with
        | .ok _ => linesLoop lines (line + 1) (count + 1)
        | .error message => .error (.row (line + 1) message)

/-- `validateDataset` of a file that can be read. -/
def validateDataset (file : Bytes) : Except DatasetError Nat :=
  match linesLoop (rawLines file) 0 0 with
  | .ok count => if count = 0 then .error .empty else .ok count
  | .error error => .error error

end Files

end Launcher
end RwkvLightning

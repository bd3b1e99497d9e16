import RwkvLightning.Library.JsonString
import RwkvLightning.Library.Scanner

/-!
# The JSON decoder of the launcher

`json.Decoder` over a text that is in memory: `Token` and `More` with the state that says
what may stand next.

**Positions.**  A position is what is left of the text.

**Strings.**  The scanner takes a string as its pieces.  `unquote` writes U+FFFD for a
surrogate without its partner and for a byte that begins no UTF-8 sequence, and never fails.

**Numbers.**  The launcher has no use for a number, so its value is left out.
-/

namespace RwkvLightning
namespace Launcher

open JsonString (Bytes Piece Plain CodeUnit High Low shortValue unitValue scalarBytes pairValue
  quote backslash unitLetter)

/-- `isSpace` of `encoding/json`. -/
def isSpace (c : UInt8) : Bool :=
  c = 0x20 || c = 0x09 || c = 0x0D || c = 0x0A

section Strings

/-- The pieces of a string up to its closing quote. -/
def stringPieces : Bytes → Option (List Piece × Bytes)
  | [] => none
  | c :: rest =>
      if c = quote then some ([], rest)
      else if h : Plain c then
        (stringPieces rest).map fun found => (.raw c h :: found.1, found.2)
      else if c ≠ backslash then none
      else
        match rest with
        | [] => none
        | letter :: rest =>
            match h : shortValue letter with
            | some value =>
                (stringPieces rest).map fun found => (.short letter value h :: found.1, found.2)
            | none =>
                if letter ≠ unitLetter then none
                else
                  match rest with
                  | a :: b :: c :: d :: rest =>
                      match h : unitValue a b c d with
                      | some value =>
                          (stringPieces rest).map fun found =>
                            (.unit ⟨a, b, c, d, value, h⟩ :: found.1, found.2)
                      | none => none
                  | _ => none

/-- The bytes that stand for themselves at the front. -/
def rawFront : List Piece → Bytes
  | .raw byte _ :: pieces => byte :: rawFront pieces
  | _ => []

/-- The length of the UTF-8 sequence at the front, which `utf8.DecodeRune` finds. -/
def runeSize : Bytes → Option Nat
  | a :: b :: rest =>
      if a < 0x80 then some 1
      else if 0xC2 ≤ a ∧ a ≤ 0xDF then
        if 0x80 ≤ b ∧ b ≤ 0xBF then some 2 else none
      else if 0xE0 ≤ a ∧ a ≤ 0xEF then
        match rest with
        | c :: _ =>
            if (if a = 0xE0 then 0xA0 else 0x80) ≤ b ∧ b ≤ (if a = 0xED then 0x9F else 0xBF) ∧
              0x80 ≤ c ∧ c ≤ 0xBF then some 3 else none
        | [] => none
      else if 0xF0 ≤ a ∧ a ≤ 0xF4 then
        match rest with
        | c :: d :: _ =>
            if (if a = 0xF0 then 0x90 else 0x80) ≤ b ∧ b ≤ (if a = 0xF4 then 0x8F else 0xBF) ∧
              0x80 ≤ c ∧ c ≤ 0xBF ∧ 0x80 ≤ d ∧ d ≤ 0xBF then some 4 else none
        | _ => none
      else none
  | [a] => if a < 0x80 then some 1 else none
  | [] => none

/-- U+FFFD. -/
def runeError : Bytes := [0xEF, 0xBF, 0xBD]

/-- What `unquote` writes for a piece, and how many of the pieces behind it are in it. -/
def written : Piece → List Piece → Bytes × Nat
  | .raw byte _, pieces =>
      match runeSize (byte :: rawFront pieces) with
      | some size => ((byte :: rawFront pieces).take size, size - 1)
      | none => (runeError, 0)
  | .short _ value _, _ => ([value], 0)
  | .unit u, pieces =>
      if High u.value then
        match pieces with
        | .unit l :: _ =>
            if Low l.value then (scalarBytes (pairValue u.value l.value), 1) else (runeError, 0)
        | _ => (runeError, 0)
      else if Low u.value then (runeError, 0)
      else (scalarBytes u.value, 0)

/-- The loop of `unquote`, which goes on behind the first `skip` pieces. -/
def unquoteFrom : Nat → List Piece → Bytes
  | _, [] => []
  | skip + 1, _ :: pieces => unquoteFrom skip pieces
  | 0, piece :: pieces => (written piece pieces).1 ++ unquoteFrom (written piece pieces).2 pieces

/-- `unquote`: the text of a string. -/
def unquote (pieces : List Piece) : Bytes := unquoteFrom 0 pieces

end Strings

section Tokens

/-- `tokenState`: what may stand next. -/
inductive TokenState where
  | topValue
  | arrayStart
  | arrayValue
  | arrayComma
  | objectStart
  | objectKey
  | objectColon
  | objectValue
  | objectComma
deriving DecidableEq, Repr

/-- `tokenValueAllowed`. -/
def TokenState.valueAllowed : TokenState → Bool
  | topValue | arrayStart | arrayValue | objectValue => true
  | _ => false

/-- `tokenValueEnd`. -/
def TokenState.valueEnd : TokenState → TokenState
  | arrayStart | arrayValue => arrayComma
  | objectValue => objectComma
  | state => state

/-- `Token`. -/
inductive Token where
  | delim (c : UInt8)
  | str (text : Bytes)
  | bool (value : Bool)
  | number
  | null
deriving DecidableEq, Repr

/-- How `Token` fails: `io.EOF` at the end of the text, or another error. -/
inductive Failure where
  | eof
  | invalid
deriving DecidableEq, Repr

/-- `Decoder`: the state, the states of the values around it, and the text that is left. -/
structure Decoder where
  state : TokenState
  stack : List TokenState
  rest : Bytes
deriving DecidableEq, Repr

/-- `NewDecoder`. -/
def newDecoder (text : Bytes) : Decoder where
  state := .topValue
  stack := []
  rest := text

def isDigit (c : UInt8) : Bool := 0x30 ≤ c && c ≤ 0x39

/-- At least one digit. -/
def digits (text : Bytes) : Option Bytes :=
  if text.head?.any isDigit then some (text.dropWhile isDigit) else none

/-- The fraction of a number, if there is one. -/
def fraction : Bytes → Option Bytes
  | 0x2E :: rest => digits rest
  | text => some text

/-- The exponent of a number, if there is one. -/
def exponent : Bytes → Option Bytes
  | c :: rest =>
      if c = 0x65 ∨ c = 0x45 then
        match rest with
        | 0x2B :: rest => digits rest
        | 0x2D :: rest => digits rest
        | _ => digits rest
      else some (c :: rest)
  | [] => some []

/-- What is left behind a number. -/
def number (text : Bytes) : Option Bytes :=
  let unsigned := if text.head? = some 0x2D then text.tail else text
  let whole := if unsigned.head? = some 0x30 then some unsigned.tail else digits unsigned
  (whole.bind fraction).bind exponent

/-- The value that `Decode` reads where no array and no object begins. -/
def value (text : Bytes) : Option (Token × Bytes) :=
  match text with
  | 0x22 :: rest => (stringPieces rest).map fun found => (.str (unquote found.1), found.2)
  | 0x74 :: 0x72 :: 0x75 :: 0x65 :: rest => some (.bool true, rest)
  | 0x66 :: 0x61 :: 0x6C :: 0x73 :: 0x65 :: rest => some (.bool false, rest)
  | 0x6E :: 0x75 :: 0x6C :: 0x6C :: rest => some (.null, rest)
  | text => (number text).map fun rest => (.number, rest)

/-- The end of an array or an object. -/
def closing (c : UInt8) (allowed : Bool) (d : Decoder) (rest : Bytes) :
    Except Failure (Token × Decoder) :=
  match d.stack with
  | outer :: stack =>
      if allowed then .ok (.delim c, { state := outer.valueEnd, stack := stack, rest := rest })
      else .error .invalid
  | [] => .error .invalid

/-- A pass of the loop of `Token`, which goes on with `again`. -/
def tokenPass (again : Decoder → Except Failure (Token × Decoder)) (d : Decoder) :
    Except Failure (Token × Decoder) :=
  match d.rest.dropWhile isSpace with
  | [] => .error .eof
  | c :: rest =>
      if c = 0x5B then
        if d.state.valueAllowed then
          .ok (.delim c, { state := .arrayStart, stack := d.state :: d.stack, rest := rest })
        else .error .invalid
      else if c = 0x5D then closing c (d.state = .arrayStart || d.state = .arrayComma) d rest
      else if c = 0x7B then
        if d.state.valueAllowed then
          .ok (.delim c, { state := .objectStart, stack := d.state :: d.stack, rest := rest })
        else .error .invalid
      else if c = 0x7D then closing c (d.state = .objectStart || d.state = .objectComma) d rest
      else if c = 0x3A then
        if d.state = .objectColon then again { d with state := .objectValue, rest := rest }
        else .error .invalid
      else if c = 0x2C then
        if d.state = .arrayComma then again { d with state := .arrayValue, rest := rest }
        else if d.state = .objectComma then again { d with state := .objectKey, rest := rest }
        else .error .invalid
      else if c = quote ∧ (d.state = .objectStart ∨ d.state = .objectKey) then
        match stringPieces rest with
        | some (pieces, rest) =>
            .ok (.str (unquote pieces), { d with state := .objectColon, rest := rest })
        | none => .error .invalid
      else if d.state.valueAllowed then
        match value (c :: rest) with
        | some (token, rest) => .ok (token, { d with state := d.state.valueEnd, rest := rest })
        | none => .error .invalid
      else .error .invalid

/-- The loop of `Token`.  A pass that goes on has read a byte. -/
def tokenLoop : Nat → Decoder → Except Failure (Token × Decoder)
  | 0, _ => .error .invalid
  | passes + 1, d => tokenPass (tokenLoop passes) d

/-- `Token`. -/
def token : StateT Decoder (Except Failure) Token := fun d => tokenLoop (d.rest.length + 1) d

/-- `More`. -/
def Decoder.more (d : Decoder) : Bool :=
  match d.rest.dropWhile isSpace with
  | [] => false
  | c :: _ => c ≠ 0x5D && c ≠ 0x7D

end Tokens

end Launcher
end RwkvLightning

import RwkvLightning.Launcher.JsonDecoder
import RwkvLightning.Library.Separated

/-!
# JSON texts of the launcher

`json.MarshalIndent` with the prefix `""` and two blanks, and `json.Unmarshal`.

**Writing.**  `encode` gives a string as its pieces, with the characters escaped that HTML
gives a meaning to.  A list is a line for each item, one level further in.

**Reading.**  A text is read into a `Json` before any of it goes to a Go value, as
`Unmarshal` checks the whole text first.  At most `maxNestingDepth` lists are open at a time.
-/

namespace RwkvLightning
namespace Launcher

open JsonString (Bytes Piece Plain CodeUnit hexValue unitValue quote backslash literal)
open Separated (readItems writeItems)

section Strings

/-- `hex`: a hexadecimal digit. -/
def hexDigit (n : Nat) : UInt8 := UInt8.ofNat (if n < 10 then 0x30 + n else 0x57 + n)

theorem hexValue_hexDigit : ∀ n < 16, hexValue (hexDigit n) = some n := by decide

theorem unitValue_hexDigit {value : Nat} (h : value < 0x10000) :
    unitValue (hexDigit (value / 0x1000)) (hexDigit (value / 0x100 % 0x10))
      (hexDigit (value / 0x10 % 0x10)) (hexDigit (value % 0x10)) = some value := by
  rw [unitValue, hexValue_hexDigit _ (by omega), hexValue_hexDigit _ (by omega),
    hexValue_hexDigit _ (by omega), hexValue_hexDigit _ (by omega)]
  exact congrArg some (by omega)

/-- The escape with the four digits of a value. -/
def codeUnit (value : Nat) (h : value < 0x10000) : CodeUnit where
  a := hexDigit (value / 0x1000)
  b := hexDigit (value / 0x100 % 0x10)
  c := hexDigit (value / 0x10 % 0x10)
  d := hexDigit (value % 0x10)
  value := value
  value_eq := unitValue_hexDigit h

/-- `htmlSafeSet`, for a byte below `utf8.RuneSelf`. -/
def HtmlSafe (byte : UInt8) : Prop :=
  Plain byte ∧ byte ≠ 0x26 ∧ byte ≠ 0x3C ∧ byte ≠ 0x3E

instance (byte : UInt8) : Decidable (HtmlSafe byte) := inferInstanceAs (Decidable (_ ∧ _))

/-- A byte below `utf8.RuneSelf` in `appendString`. -/
def escapeByte (byte : UInt8) : Piece :=
  if h : HtmlSafe byte then .raw byte h.1
  else if byte = backslash then .short backslash backslash rfl
  else if byte = quote then .short quote quote rfl
  else if byte = 0x08 then .short 0x62 0x08 rfl
  else if byte = 0x0C then .short 0x66 0x0C rfl
  else if byte = 0x0A then .short 0x6E 0x0A rfl
  else if byte = 0x0D then .short 0x72 0x0D rfl
  else if byte = 0x09 then .short 0x74 0x09 rfl
  else .unit (codeUnit byte.toNat (by have := byte.toNat_lt; omega))

/-- The bytes of a character that is copied. -/
def copied (char : Bytes) : List Piece :=
  char.map fun byte => if h : Plain byte then .raw byte h else escapeByte byte

/-- What `appendString` writes for the character at the front, and how many more bytes the
character has. -/
def encodeRune (byte : UInt8) (rest : Bytes) : List Piece × Nat :=
  if byte < 0x80 then ([escapeByte byte], 0)
  else
    match runeSize (byte :: rest) with
    | none => ([.unit (codeUnit 0xFFFD (by decide))], 0)
    | some size =>
        let char := (byte :: rest).take size
        if char = [0xE2, 0x80, 0xA8] then ([.unit (codeUnit 0x2028 (by decide))], 2)
        else if char = [0xE2, 0x80, 0xA9] then ([.unit (codeUnit 0x2029 (by decide))], 2)
        else (copied char, size - 1)

/-- The loop of `appendString`, which goes on behind the first `skip` bytes. -/
def encodeFrom : Nat → Bytes → List Piece
  | _, [] => []
  | skip + 1, _ :: rest => encodeFrom skip rest
  | 0, byte :: rest => (encodeRune byte rest).1 ++ encodeFrom (encodeRune byte rest).2 rest

/-- `appendString`, between its quotes. -/
def encode (text : Bytes) : List Piece := encodeFrom 0 text

/-- `appendString`. -/
def quoted (text : Bytes) : Bytes := literal (encode text)

end Strings

section Writing

/-- `appendNewline`. -/
def newline (depth : Nat) : Bytes := 0x0A :: List.replicate (2 * depth) 0x20

/-- The items of a list or an object, as `appendIndent` lays them out. -/
def indented (opening closing : UInt8) (depth : Nat) (items : List Bytes) : Bytes :=
  if items = [] then [opening, closing]
  else
    opening :: (writeItems (newline (depth + 1)) 0x2C items ++ (newline depth ++ [closing]))

/-- A list at a depth. -/
def indentedArray (depth : Nat) (items : List Bytes) : Bytes := indented 0x5B 0x5D depth items

/-- A member of an object. -/
def indentedMember (name value : Bytes) : Bytes := quoted name ++ [0x3A, 0x20] ++ value

/-- An object at a depth. -/
def indentedObject (depth : Nat) (members : List (Bytes × Bytes)) : Bytes :=
  indented 0x7B 0x7D depth (members.map fun member => indentedMember member.1 member.2)

end Writing

section Reading

/-- A JSON value. -/
inductive Json where
  | scalar (token : Token)
  | array (items : List Json)
  | object (members : List (Bytes × Json))

/-- `maxNestingDepth`. -/
def maxNestingDepth : Nat := 10000

/-- What stands between two brackets, behind the first of them. -/
def readBracketed {α : Type} (item : Bytes → Option (α × Bytes)) (closing : UInt8)
    (text : Bytes) : Option (List α × Bytes) :=
  match text.dropWhile isSpace with
  | [] => none
  | c :: rest =>
      if c = closing then some ([], rest)
      else readItems isSpace 0x2C closing item text.length text

/-- A member of an object. -/
def readMember (read : Bytes → Option (Json × Bytes)) :
    Bytes → Option ((Bytes × Json) × Bytes)
  | [] => none
  | c :: rest =>
      if c ≠ quote then none
      else
        match stringPieces rest with
        | none => none
        | some (pieces, rest) =>
            match rest.dropWhile isSpace with
            | [] => none
            | c :: rest =>
                if c ≠ 0x3A then none
                else
                  (read (rest.dropWhile isSpace)).map fun found =>
                    ((unquote pieces, found.1), found.2)

/-- A value, in which so many lists may be open. -/
def readValue : Nat → Bytes → Option (Json × Bytes)
  | 0, text => (value text).map fun found => (.scalar found.1, found.2)
  | depth + 1, text =>
      match text with
      | [] => none
      | c :: rest =>
          if c = 0x5B then
            (readBracketed (readValue depth) 0x5D rest).map fun found => (.array found.1, found.2)
          else if c = 0x7B then
            (readBracketed (readMember (readValue depth)) 0x7D rest).map fun found =>
              (.object found.1, found.2)
          else (value (c :: rest)).map fun found => (.scalar found.1, found.2)

/-- `checkValid`: the value of a text, with nothing but white space around it. -/
def parse (text : Bytes) : Option Json :=
  match readValue maxNestingDepth (text.dropWhile isSpace) with
  | none => none
  | some (found, rest) => if rest.dropWhile isSpace = [] then some found else none

end Reading

end Launcher
end RwkvLightning

import RwkvLightning.Inference.Tokenizer
import Mathlib

/-!
# Loading a vocabulary

`processVocabFormat`, `processEscapes` and the constructor of `OptimizedTrieTokenizer` from
`trie.h`, over the bytes of the file.

**Failures.**  An exception, and a number that is read without having been written, are
`none`.
-/

namespace RwkvLightning
namespace VocabFile

open Backend Tokenizer

section Numbers

/-- `isspace`. -/
def isSpace (c : UInt8) : Bool :=
  c = 0x20 || (0x09 ≤ c && c ≤ 0x0D)

/-- A digit of the base. -/
def digitOf (base : Nat) (c : UInt8) : Option Nat :=
  let value :=
    if 0x30 ≤ c && c ≤ 0x39 then some (c.toNat - 0x30)
    else if 0x41 ≤ c && c ≤ 0x46 then some (c.toNat - 0x41 + 10)
    else if 0x61 ≤ c && c ≤ 0x66 then some (c.toNat - 0x61 + 10)
    else none
  value.filter (· < base)

/-- The number that the leading digits spell. -/
def spell (base : Nat) : Nat → Bytes → Nat
  | n, [] => n
  | n, c :: rest =>
      match digitOf base c with
      | some d => spell base (n * base + d) rest
      | none => n

/-- `0x` before a hexadecimal number. -/
def dropPrefix (base : Nat) (s : Bytes) : Bytes :=
  match s with
  | 0x30 :: x :: d :: rest =>
      if base = 16 ∧ (x = 0x78 ∨ x = 0x58) ∧ (digitOf 16 d).isSome then d :: rest else s
  | _ => s

/-- `strtol` after white space and sign: nothing when there is no digit. -/
def digits (base : Nat) (s : Bytes) : Option Nat :=
  let s := dropPrefix base s
  match s with
  | [] => none
  | c :: _ => if (digitOf base c).isSome then some (spell base 0 s) else none

/-- `strtol`. -/
def strtol (base : Nat) (s : Bytes) : Option Int :=
  match s.dropWhile isSpace with
  | 0x2D :: rest => (digits base rest).map (fun n => -Int.ofNat n)
  | 0x2B :: rest => (digits base rest).map Int.ofNat
  | rest => (digits base rest).map Int.ofNat

/-- `std::stoi`. -/
def stoi (s : Bytes) : Option Int :=
  (strtol 10 s).filter (fun n => -2 ^ 31 ≤ n ∧ n < 2 ^ 31)

/-- `std::stoul` in base 16. -/
def stoulHex (s : Bytes) : Option Nat :=
  (strtol 16 s).map (fun n => (n % 2 ^ 64).toNat)

/-- `>> std::hex >> codePoint`. -/
def readHex (s : Bytes) : Option Nat :=
  if s.all isSpace then none else some (((strtol 16 s).getD 0 % 2 ^ 32).toNat)

end Numbers

section Literals

/-- `substr(pos, count - less)`: below zero the count wraps around, and reaches the end. -/
def substr (input : Bytes) (pos count less : Nat) : Bytes :=
  if less ≤ count then (input.drop pos).take (count - less) else input.drop pos

/-- A quotation mark. -/
def isQuote (c : UInt8) : Bool :=
  c = 0x27 || c = 0x22

/-- `processVocabFormat`. -/
def processVocabFormat (input : Bytes) : Bytes :=
  match input with
  | [] => input
  | first :: rest =>
      if isQuote first then substr input 1 input.length 3
      else if first = 0x62 ∧ rest.head?.any isQuote then substr input 2 input.length 4
      else input

/-- The bytes that are written for a code point. -/
def codePointBytes (codePoint : Nat) : Bytes :=
  if codePoint ≤ 0x7F then [UInt8.ofNat codePoint]
  else if codePoint ≤ 0x7FF then
    [UInt8.ofNat (192 + codePoint / 64), UInt8.ofNat (128 + codePoint % 64)]
  else if codePoint ≤ 0xFFFF then
    [UInt8.ofNat (224 + codePoint / 4096), UInt8.ofNat (128 + codePoint / 64 % 64),
      UInt8.ofNat (128 + codePoint % 64)]
  else if codePoint ≤ 0x10FFFF then
    [UInt8.ofNat (240 + codePoint / 262144), UInt8.ofNat (128 + codePoint / 4096 % 64),
      UInt8.ofNat (128 + codePoint / 64 % 64), UInt8.ofNat (128 + codePoint % 64)]
  else []

/-- `u` or `x` after a backslash. -/
def isHexEscape (c : UInt8) : Bool :=
  c = 0x75 || c = 0x78

/-- The first loop of `processEscapes`: four digits after `\u` and after `\x`. -/
def hexLoop : Bytes → Option Bytes
  | [] => some []
  | ch :: rest =>
      if ch = 0x5C ∧ rest.head?.any isHexEscape then
        match rest with
        | _ :: a :: b :: c :: d :: rest => do
            let codePoint ← readHex [a, b, c, d]
            let result ← hexLoop rest
            some (codePointBytes codePoint ++ result)
        | _ => (readHex (rest.drop 1)).map codePointBytes
      else (hexLoop rest).map (ch :: ·)

/-- The characters after a backslash that stand for one byte. -/
def simpleEscape (c : UInt8) : Option UInt8 :=
  if c = 0x6E then some 0x0A
  else if c = 0x74 then some 0x09
  else if c = 0x72 then some 0x0D
  else if c = 0x5C then some 0x5C
  else if c = 0x27 then some 0x27
  else if c = 0x22 then some 0x22
  else none

/-- The second loop of `processEscapes`; the flag is `escape`. -/
def escapeLoop : Bool → Bytes → Option Bytes
  | _, [] => some []
  | true, c :: rest =>
      if c = 0x78 then
        match rest with
        | a :: b :: rest => do
            let value ← stoulHex [a, b]
            let result ← escapeLoop false rest
            some (UInt8.ofNat value :: result)
        | _ => some []
      else
        match simpleEscape c with
        | some byte => (escapeLoop false rest).map (byte :: ·)
        | none => (escapeLoop false rest).map (fun result => 0x5C :: c :: result)
  | false, c :: rest =>
      if c = 0x5C then escapeLoop true rest else (escapeLoop false rest).map (c :: ·)

/-- A literal that starts with `\u` or `\x`. -/
def startsHex (input : Bytes) : Bool :=
  match input with
  | first :: second :: _ => first = 0x5C && isHexEscape second
  | _ => false

/-- `processEscapes`. -/
def processEscapes (input : Bytes) (utf8String : Bool) (utf8ByteLength : Int) : Option Bytes :=
  if utf8String ∧ 0 < utf8ByteLength ∧ startsHex input then
    (hexLoop input).map (fun result =>
      List.replicate (utf8ByteLength.toNat - result.length) 0 ++ result)
  else escapeLoop false input

end Literals

section Files

/-- `getline` to the end. -/
def getLines (file : Bytes) : List Bytes :=
  let parts := file.splitOn 0x0A
  if parts.getLast? = some [] then parts.dropLast else parts

/-- What the constructor reads from a line: without a space, `npos + 1` is 0. -/
def readLine (line : Bytes) : Option (Int × Bytes) :=
  match line.findIdx? (· = 0x20) with
  | some firstSpace => do
      let lastSpace := line.length - 1 - line.reverse.findIdx (· = 0x20)
      let idx ← stoi (line.take firstSpace)
      let utf8ByteLength ← stoi (line.drop (lastSpace + 1))
      let utf8String := decide ((line.drop (firstSpace + 1)).head? ≠ some 0x62)
      let literal := (line.drop (firstSpace + 1)).take (lastSpace - firstSpace)
      let x ← processEscapes (processVocabFormat literal) utf8String utf8ByteLength
      some (idx, x)
  | none => do
      let idx ← stoi line
      let utf8ByteLength ← stoi line
      let utf8String := decide (line.head? ≠ some 0x62)
      let x ← processEscapes (processVocabFormat []) utf8String utf8ByteLength
      some (idx, x)

/-- The constructor of `OptimizedTrieTokenizer`. -/
def load (file : Bytes) : Option OptimizedTrieTokenizer :=
  ((getLines file).mapM readLine).map OptimizedTrieTokenizer.ofEntries

end Files

end VocabFile
end RwkvLightning

import RwkvLightning.Library.GoStrings
import RwkvLightning.Library.JsonString

/-!
# URLs of the Go library

`url.Parse` of `net/url`, for the scheme, the host and the path of a URL.  The user, the
query and the fragment are checked, and their values are left out.

A colon is `0x3A`, a slash `0x2F`, a question mark `0x3F`, an at sign `0x40`, a percent sign
`0x25`, and the brackets are `0x5B` and `0x5D`.
-/

namespace RwkvLightning
namespace GoUrl

open GoStrings (Bytes isDigit)
open JsonString (ascii hexValue)

/-- `URL`. -/
structure Url where
  scheme : Bytes
  host : Bytes
  path : Bytes
deriving DecidableEq, Repr

/-- `encoding`: the part of a URL that is unescaped. -/
inductive Encoding where
  | path
  | host
  | zone
  | userPassword
  | fragment
deriving DecidableEq, Repr

def isLetter (c : UInt8) : Bool := (0x61 ≤ c && c ≤ 0x7A) || (0x41 ≤ c && c ≤ 0x5A)

/-- The part in front of the first `c`. -/
def before (text : Bytes) (c : UInt8) : Bytes := text.takeWhile (· ≠ c)

/-- The part behind the first `c`, which may be missing. -/
def behind (text : Bytes) (c : UInt8) : Bytes := (text.dropWhile (· ≠ c)).tail

/-- The parts in front of the last `c` and behind it. -/
def cutLast (text : Bytes) (c : UInt8) : Option (Bytes × Bytes) :=
  if text.contains c then
    some ((behind text.reverse c).reverse, (before text.reverse c).reverse)
  else none

section Escapes

/-- `shouldEscape` in a host or a zone. -/
def shouldEscape (c : UInt8) : Bool :=
  !(isLetter c || isDigit c || (ascii "!$&'()*+,;=:[]<>\"-_.~").contains c)

/-- `unescape`. -/
def unescape (mode : Encoding) : Bytes → Option Bytes
  | [] => some []
  | c :: rest =>
      if c = 0x25 then
        match rest with
        | a :: b :: rest =>
            match hexValue a, hexValue b with
            | some high, some low =>
                let byte := UInt8.ofNat (0x10 * high + low)
                let percent := a = 0x32 ∧ b = 0x35
                if mode = .host ∧ high < 8 ∧ ¬percent then none
                else if mode = .zone ∧ ¬percent ∧ byte ≠ 0x20 ∧ shouldEscape byte then none
                else (unescape mode rest).map (byte :: ·)
            | _, _ => none
        | _ => none
      else if (mode = .host ∨ mode = .zone) ∧ c < 0x80 ∧ shouldEscape c then none
      else (unescape mode rest).map (c :: ·)

end Escapes

section Authority

/-- `validOptionalPort`. -/
def validOptionalPort : Bytes → Bool
  | [] => true
  | c :: port => c = 0x3A && port.all isDigit

/-- Where `sep` first occurs. -/
def index (text sep : Bytes) : Option Nat :=
  text.tails.findIdx? fun tail => sep.isPrefixOf tail

/-- `parseHost`. -/
def parseHost (host : Bytes) : Option Bytes :=
  if host.head? = some 0x5B then
    match cutLast host 0x5D with
    | none => none
    | some (literal, colonPort) =>
        if !validOptionalPort colonPort then none
        else
          match index literal (ascii "%25") with
          | some zone =>
              (unescape .host (literal.take zone)).bind fun host1 =>
                (unescape .zone (literal.drop zone)).bind fun host2 =>
                  (unescape .host (0x5D :: colonPort)).map fun host3 => host1 ++ host2 ++ host3
          | none => unescape .host host
  else
    match cutLast host 0x3A with
    | some (_, port) => if port.all isDigit then unescape .host host else none
    | none => unescape .host host

/-- `validUserinfo`. -/
def validUserinfo (text : Bytes) : Bool :=
  text.all fun c => isLetter c || isDigit c || (ascii "-._:~!$&'()*+,;=%@").contains c

/-- `parseAuthority`: the host. -/
def parseAuthority (authority : Bytes) : Option Bytes :=
  match cutLast authority 0x40 with
  | none => parseHost authority
  | some (userinfo, host) =>
      (parseHost host).bind fun host =>
        if !validUserinfo userinfo then none
        else
          (unescape .userPassword (before userinfo 0x3A)).bind fun _ =>
            (unescape .userPassword (behind userinfo 0x3A)).map fun _ => host

end Authority

section Parsing

/-- `stringContainsCTLByte`. -/
def containsCTLByte (text : Bytes) : Bool := text.any fun c => c < 0x20 || c = 0x7F

/-- `getScheme`: the scheme, which may be missing, and what is left. -/
def getScheme (rawURL : Bytes) : Option (Bytes × Bytes) :=
  let front := rawURL.takeWhile fun c => isLetter c || isDigit c || (ascii "+-.").contains c
  match rawURL.drop front.length with
  | [] => some ([], rawURL)
  | c :: rest =>
      if c ≠ 0x3A then some ([], rawURL)
      else
        match front with
        | [] => none
        | first :: _ => if isLetter first then some (front, rest) else some ([], rawURL)

/-- `strings.ToLower` of a scheme. -/
def toLower (scheme : Bytes) : Bytes :=
  scheme.map fun c => if 0x41 ≤ c ∧ c ≤ 0x5A then c + 0x20 else c

/-- `parse` behind the scheme and in front of the query. -/
def parseRest (scheme rest : Bytes) : Option Url :=
  if rest.head? ≠ some 0x2F then
    if scheme ≠ [] then some { scheme := scheme, host := [], path := [] }
    else if (before rest 0x2F).contains 0x3A then none
    else (unescape .path rest).map fun path => { scheme := scheme, host := [], path := path }
  else if (ascii "//").isPrefixOf rest ∧ (scheme ≠ [] ∨ ¬(ascii "///").isPrefixOf rest) then
    let authority := before (rest.drop 2) 0x2F
    (parseAuthority authority).bind fun host =>
      (unescape .path (rest.drop (2 + authority.length))).map fun path =>
        { scheme := scheme, host := host, path := path }
  else (unescape .path rest).map fun path => { scheme := scheme, host := [], path := path }

/-- `parse`: a URL without a fragment. -/
def parseURL (rawURL : Bytes) : Option Url :=
  if containsCTLByte rawURL then none
  else if rawURL = ascii "*" then some { scheme := [], host := [], path := ascii "*" }
  else
    (getScheme rawURL).bind fun found => parseRest (toLower found.1) (before found.2 0x3F)

/-- `Parse`. -/
def parse (rawURL : Bytes) : Option Url :=
  (parseURL (before rawURL 0x23)).bind fun url =>
    (unescape .fragment (behind rawURL 0x23)).map fun _ => url

end Parsing

end GoUrl
end RwkvLightning

import RwkvLightning.Inference.Backend
import Mathlib

/-!
# The tokenizer

`OptimizedTrie`, `TokenMapping` and `OptimizedTrieTokenizer` of `trie.h`, over the tokens
of the vocabulary.

**Containers.**  A map is a function.  Which element comes first in an
`unordered_set<int>` is not specified: it is the parameter `SetOrder`.

**Failures.**  A read outside `token_data` is `none`.
-/

namespace RwkvLightning
namespace Tokenizer

open Backend

/-- `*values.begin()`. -/
structure SetOrder where
  first : Finset Int → Int
  first_mem : ∀ values, values.Nonempty → first values ∈ values

/-- `OptimizedTrie`. -/
inductive OptimizedTrie where
  | node (children : UInt8 → Option OptimizedTrie) (values : Finset Int)

namespace OptimizedTrie

def children : OptimizedTrie → UInt8 → Option OptimizedTrie
  | node children _ => children

def values : OptimizedTrie → Finset Int
  | node _ values => values

/-- A new node. -/
def empty : OptimizedTrie :=
  node (fun _ => none) ∅

/-- `add`; the key is what is left of it. -/
def add (val : Int) : Bytes → OptimizedTrie → OptimizedTrie
  | [], u => node u.children (if val ≠ -1 then insert val u.values else u.values)
  | uchar :: key, u =>
      let child := (u.children uchar).getD empty
      node (Function.update u.children uchar (some (add val key child))) u.values

/-- The loop of `find_longest_fast`. -/
def findLoop (order : SetOrder) : Bytes → OptimizedTrie → Nat → Nat × Int → Nat × Int
  | [], _, _, ret => ret
  | uchar :: key, u, idx, ret =>
      match u.children uchar with
      | none => ret
      | some v =>
          findLoop order key v (idx + 1)
            (if v.values = ∅ then ret else (idx + 1, order.first v.values))

/-- `find_longest_fast`. -/
def findLongestFast (order : SetOrder) (u : OptimizedTrie) (key : Bytes) (idx : Nat) :
    Nat × Int :=
  findLoop order (key.drop idx) u idx (0, 0)

end OptimizedTrie

/-- `TokenMapping`. -/
structure TokenMapping where
  tokenData : List Bytes
  idxToDataIdx : Int → Option Nat
  dataToIdx : Bytes → Option Int

namespace TokenMapping

def empty : TokenMapping :=
  { tokenData := []
    idxToDataIdx := fun _ => none
    dataToIdx := fun _ => none }

/-- The conversion of an `int` to `size_t`. -/
def toSize (n : Int) : Nat :=
  (n % 2 ^ 64).toNat

/-- `add_token`. -/
def addToken (m : TokenMapping) (tokenId : Int) (data : Bytes) : TokenMapping :=
  match m.dataToIdx data with
  | some idx => { m with idxToDataIdx := Function.update m.idxToDataIdx tokenId (some (toSize idx)) }
  | none =>
      { tokenData := m.tokenData ++ [data]
        idxToDataIdx := Function.update m.idxToDataIdx tokenId (some m.tokenData.length)
        dataToIdx := Function.update m.dataToIdx data (some tokenId) }

/-- `get_token_data`. -/
def getTokenData (m : TokenMapping) (tokenId : Int) : Option Bytes :=
  match m.idxToDataIdx tokenId with
  | some dataIdx => m.tokenData[dataIdx]?
  | none => some []

end TokenMapping

/-- `OptimizedTrieTokenizer`. -/
structure OptimizedTrieTokenizer where
  tokenMapping : TokenMapping
  root : OptimizedTrie

namespace OptimizedTrieTokenizer

def empty : OptimizedTrieTokenizer :=
  { tokenMapping := TokenMapping.empty
    root := OptimizedTrie.empty }

/-- What the constructor does with a token. -/
def addEntry (t : OptimizedTrieTokenizer) (entry : Int × Bytes) : OptimizedTrieTokenizer :=
  { tokenMapping := t.tokenMapping.addToken entry.1 entry.2
    root := t.root.add entry.1 entry.2 }

/-- `eod_data`: the bytes of `<EOD>`. -/
def eodData : Bytes :=
  [60, 69, 79, 68, 62]

/-- The tokens of the vocabulary in the order of its lines, and the built-in one. -/
def ofEntries (entries : List (Int × Bytes)) : OptimizedTrieTokenizer :=
  (entries.foldl addEntry empty).addEntry (0, eodData)

/-- `decodeBytes`. -/
def decodeBytes (t : OptimizedTrieTokenizer) (tokens : List Int) : Option Bytes :=
  (tokens.mapM t.tokenMapping.getTokenData).map List.flatten

/-- The loop of `encodeBytes`; `fuel` bounds the number of tokens. -/
def encodeLoop (order : SetOrder) (t : OptimizedTrieTokenizer) (src : Bytes) :
    Nat → Nat → List Int
  | 0, _ => []
  | fuel + 1, oldIdx =>
      if oldIdx < src.length then
        let (idx, token) := t.root.findLongestFast order src oldIdx
        if oldIdx < idx ∧ token ≠ -1 then token :: encodeLoop order t src fuel idx else []
      else []

/-- `encodeBytes`. -/
def encodeBytes (order : SetOrder) (t : OptimizedTrieTokenizer) (src : Bytes) : List Int :=
  encodeLoop order t src src.length 0

end OptimizedTrieTokenizer

end Tokenizer
end RwkvLightning

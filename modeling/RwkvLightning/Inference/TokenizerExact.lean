import RwkvLightning.Inference.Tokenizer
import RwkvLightning.Library.GreedySplit
import Mathlib

/-!
# The round trip of the tokenizer

The trie and the mapping against the list of tokens that were put into them.

**Results.**
* `valuesAt_add`, `findLongestFast_spec`: the trie is a map from bytes to ids, and the
  search finds the longest key.
* `holds_ofEntries`: what the tokenizer knows after all tokens.
* `encodeBytes_spec`: encoding is greedy splitting.
* `roundTrip`: decoding what was encoded.
-/

namespace RwkvLightning
namespace Tokenizer

open Backend OptimizedTrie OptimizedTrieTokenizer

section Trie

/-- The ids that are kept for some bytes. -/
def OptimizedTrie.valuesAt : Bytes → OptimizedTrie → Finset Int
  | [], u => u.values
  | uchar :: key, u =>
      match u.children uchar with
      | none => ∅
      | some v => valuesAt key v

@[simp] theorem valuesAt_empty (key : Bytes) : valuesAt key OptimizedTrie.empty = ∅ := by
  cases key <;> rfl

theorem valuesAt_cons (c : UInt8) (key : Bytes) (u : OptimizedTrie) :
    valuesAt (c :: key) u = valuesAt key ((u.children c).getD OptimizedTrie.empty) := by
  rw [valuesAt]
  cases u.children c with
  | none => exact (valuesAt_empty key).symm
  | some v => rfl

/-- `add` changes the ids of its key only. -/
theorem valuesAt_add (val : Int) (key key' : Bytes) (u : OptimizedTrie) :
    valuesAt key' (u.add val key) =
      if key' = key ∧ val ≠ -1 then insert val (valuesAt key' u) else valuesAt key' u := by
  induction key generalizing key' u with
  | nil =>
      cases key' with
      | nil => simp [OptimizedTrie.add, valuesAt, OptimizedTrie.values]
      | cons c key' => simp [OptimizedTrie.add, valuesAt, OptimizedTrie.children]
  | cons uchar key ih =>
      cases key' with
      | nil => simp [OptimizedTrie.add, valuesAt, OptimizedTrie.values]
      | cons c key' =>
          rw [valuesAt_cons, valuesAt_cons, OptimizedTrie.add, OptimizedTrie.children]
          by_cases hc : c = uchar
          · subst hc
            rw [Function.update_self, Option.getD_some, ih]
            simp only [List.cons.injEq, true_and]
          · rw [Function.update_of_ne hc, if_neg (fun h => hc (List.cons.inj h.1).1)]

variable (order : SetOrder)

/-- The loop of the search: nothing is found, or the longest key. -/
theorem findLoop_spec (key : Bytes) (u : OptimizedTrie) (idx : Nat) (ret : Nat × Int) :
    ((∀ n, 0 < n → n ≤ key.length → valuesAt (key.take n) u = ∅) ∧
      findLoop order key u idx ret = ret) ∨
    ∃ n, 0 < n ∧ n ≤ key.length ∧ (valuesAt (key.take n) u).Nonempty ∧
      (∀ k, n < k → k ≤ key.length → valuesAt (key.take k) u = ∅) ∧
      findLoop order key u idx ret = (idx + n, order.first (valuesAt (key.take n) u)) := by
  induction key generalizing u idx ret with
  | nil =>
      left
      refine ⟨fun n hn hle => ?_, rfl⟩
      rw [List.length_nil] at hle
      omega
  | cons c key ih =>
      rw [findLoop]
      cases hchild : u.children c with
      | none =>
          left
          refine ⟨fun n hn hle => ?_, rfl⟩
          obtain ⟨n, rfl⟩ := Nat.exists_eq_succ_of_ne_zero hn.ne'
          rw [List.take_succ_cons, valuesAt_cons, hchild]
          exact valuesAt_empty _
      | some v =>
          have hdown : ∀ n, valuesAt ((c :: key).take (n + 1)) u = valuesAt (key.take n) v := by
            intro n
            rw [List.take_succ_cons, valuesAt_cons, hchild]
            rfl
          rcases ih v (idx + 1)
              (if v.values = ∅ then ret else (idx + 1, order.first v.values)) with
            ⟨hnone, hret⟩ | ⟨n, hn, hle, hsome, hlongest, hret⟩
          · have hnone' : ∀ n, 1 < n → n ≤ (c :: key).length →
                valuesAt ((c :: key).take n) u = ∅ := by
              intro n hn hle
              obtain ⟨n, rfl⟩ := Nat.exists_eq_succ_of_ne_zero (by omega : n ≠ 0)
              rw [List.length_cons] at hle
              rw [hdown]
              exact hnone n (by omega) (by omega)
            -- What is found is the key that ends at this node, or what was found before.
            by_cases hvalues : v.values = ∅
            · left
              refine ⟨fun n hn hle => ?_, ?_⟩
              · by_cases hone : n = 1
                · subst hone
                  exact (hdown 0).trans hvalues
                · exact hnone' n (by omega) hle
              · exact hret.trans (if_pos hvalues)
            · right
              refine ⟨1, Nat.one_pos, by simp, ?_, hnone', ?_⟩
              · exact (hdown 0).symm ▸ Finset.nonempty_iff_ne_empty.mpr hvalues
              · refine hret.trans ((if_neg hvalues).trans ?_)
                rw [hdown 0]
                rfl
          · right
            refine ⟨n + 1, Nat.succ_pos n, Nat.succ_le_succ hle, ?_, ?_, ?_⟩
            · rw [hdown]
              exact hsome
            · intro k hk hkle
              obtain ⟨k, rfl⟩ := Nat.exists_eq_succ_of_ne_zero (by omega : k ≠ 0)
              rw [List.length_cons] at hkle
              rw [hdown]
              exact hlongest k (by omega) (by omega)
            · refine hret.trans ?_
              rw [hdown, Nat.add_assoc, Nat.add_comm 1 n]

end Trie

section Entries

/-- What the tokenizer knows of some tokens. -/
structure Holds (entries : List (Int × Bytes)) (t : OptimizedTrieTokenizer) : Prop where
  ids : ∀ data id, id ∈ valuesAt data t.root ↔ (id, data) ∈ entries ∧ id ≠ -1
  known : ∀ data, t.tokenMapping.dataToIdx data = none ↔ ∀ id, (id, data) ∉ entries

theorem holds_empty : Holds [] OptimizedTrieTokenizer.empty where
  ids := by simp [OptimizedTrieTokenizer.empty]
  known := by simp [OptimizedTrieTokenizer.empty, TokenMapping.empty]

theorem Holds.addEntry
    {entries : List (Int × Bytes)} {t : OptimizedTrieTokenizer} (h : Holds entries t)
    (entry : Int × Bytes) : Holds (entries ++ [entry]) (t.addEntry entry) := by
  obtain ⟨id, data⟩ := entry
  constructor
  · intro data' id'
    rw [OptimizedTrieTokenizer.addEntry, valuesAt_add]
    have hids := h.ids data' id'
    simp only [List.mem_append, List.mem_singleton, Prod.mk.injEq]
    split
    · rename_i hnew
      rw [Finset.mem_insert, hids, hnew.1]
      constructor
      · rintro (rfl | ⟨hmem, hne⟩)
        · exact ⟨Or.inr ⟨rfl, rfl⟩, hnew.2⟩
        · exact ⟨Or.inl hmem, hne⟩
      · rintro ⟨hmem | ⟨rfl, -⟩, hne⟩
        · exact Or.inr ⟨hmem, hne⟩
        · exact Or.inl rfl
    · rename_i hold
      rw [hids]
      refine and_congr_left (fun hne => ?_)
      rw [or_iff_left]
      rintro ⟨rfl, rfl⟩
      exact hold ⟨rfl, hne⟩
  · intro data'
    have hknown := h.known data'
    simp only [OptimizedTrieTokenizer.addEntry, TokenMapping.addToken, List.mem_append,
      List.mem_singleton, Prod.mk.injEq, not_or]
    by_cases hdata : data' = data
    · subst hdata
      refine iff_of_false ?_ (fun hnone => (hnone id).2 ⟨rfl, rfl⟩)
      cases hfound : t.tokenMapping.dataToIdx data' with
      | none => simp
      | some other => simp [hfound]
    · have hsame : ∀ id', (id', data') ∉ entries ∧ ¬ (id' = id ∧ data' = data) ↔
          (id', data') ∉ entries := fun id' => and_iff_left (fun heq => hdata heq.2)
      simp only [hsame]
      cases hfound : t.tokenMapping.dataToIdx data with
      | none =>
          simp only [Function.update_of_ne hdata]
          exact hknown
      | some other => exact hknown

theorem Holds.foldl
    {before : List (Int × Bytes)} {t : OptimizedTrieTokenizer} (h : Holds before t)
    (rest : List (Int × Bytes)) :
    Holds (before ++ rest) (rest.foldl OptimizedTrieTokenizer.addEntry t) := by
  induction rest generalizing before t with
  | nil =>
      rw [List.append_nil]
      exact h
  | cons entry rest ih =>
      rw [List.append_cons]
      exact ih (h.addEntry entry)

/-- What the tokenizer knows after all tokens. -/
theorem holds_ofEntries (entries : List (Int × Bytes)) :
    Holds (entries ++ [(0, eodData)]) (ofEntries entries) :=
  (holds_empty.foldl entries).addEntry (0, eodData)

end Entries

section Mapping

variable {m : TokenMapping} {id id' : Int} {data data' : Bytes}

/-- Another token keeps its bytes. -/
theorem getTokenData_other (hne : id' ≠ id) (h : m.getTokenData id' = some data') :
    (m.addToken id data).getTokenData id' = some data' := by
  unfold TokenMapping.getTokenData at h
  unfold TokenMapping.getTokenData TokenMapping.addToken
  cases m.dataToIdx data with
  | some other =>
      simp only [Function.update_of_ne hne]
      exact h
  | none =>
      simp only [Function.update_of_ne hne]
      cases hidx : m.idxToDataIdx id' with
      | none =>
          rw [hidx] at h
          exact h
      | some i =>
          rw [hidx] at h
          have hlt : i < m.tokenData.length := (List.getElem?_eq_some_iff.mp h).1
          exact (List.getElem?_append_left hlt).trans h

/-- A token with bytes of its own is found. -/
theorem getTokenData_new (h : m.dataToIdx data = none) :
    (m.addToken id data).getTokenData id = some data := by
  simp [TokenMapping.getTokenData, TokenMapping.addToken, h]

/-- Tokens with ids and bytes of their own are all found. -/
theorem getTokenData_foldl
    {rest before : List (Int × Bytes)} {t : OptimizedTrieTokenizer} (h : Holds before t)
    (hbefore : ∀ e ∈ before, t.tokenMapping.getTokenData e.1 = some e.2)
    (hids : ((before ++ rest).map Prod.fst).Nodup)
    (hdata : ((before ++ rest).map Prod.snd).Nodup) :
    ∀ e ∈ before ++ rest,
      (rest.foldl OptimizedTrieTokenizer.addEntry t).tokenMapping.getTokenData e.1 =
        some e.2 := by
  induction rest generalizing before t with
  | nil =>
      rw [List.append_nil]
      exact hbefore
  | cons entry rest ih =>
      rw [List.append_cons] at hids hdata ⊢
      refine ih (h.addEntry entry) ?_ hids hdata
      have hnew : ∀ {β : Type} (f : Int × Bytes → β),
          (((before ++ [entry]) ++ rest).map f).Nodup → ∀ e ∈ before, f e ≠ f entry := by
        intro β f hnodup e he heq
        rw [List.map_append, List.map_append] at hnodup
        have hpart := (List.nodup_append.mp hnodup).1
        exact (List.nodup_append.mp hpart).2.2 _ (List.mem_map.mpr ⟨e, he, rfl⟩) _
          (by simp) heq
      intro e he
      rcases List.mem_append.mp he with hold | hlast
      · exact getTokenData_other (hnew Prod.fst hids e hold) (hbefore e hold)
      · rw [List.mem_singleton] at hlast
        subst hlast
        refine getTokenData_new ((h.known e.2).mpr (fun id hmem => ?_))
        exact hnew Prod.snd hdata (id, e.2) hmem rfl

/-- The tokens of a vocabulary are found when the built-in one does not take an id. -/
theorem getTokenData_ofEntries
    {entries : List (Int × Bytes)} (hids : (entries.map Prod.fst).Nodup)
    (hdata : (entries.map Prod.snd).Nodup) {e : Int × Bytes} (he : e ∈ entries)
    (hzero : e.1 ≠ 0) :
    (ofEntries entries).tokenMapping.getTokenData e.1 = some e.2 :=
  getTokenData_other hzero (getTokenData_foldl holds_empty (by simp) hids hdata e he)

theorem getTokenData_eod
    {entries : List (Int × Bytes)} (h : ∀ e ∈ entries, e.2 ≠ eodData) :
    (ofEntries entries).tokenMapping.getTokenData 0 = some eodData := by
  refine getTokenData_new ?_
  exact ((holds_empty.foldl entries).known eodData).mpr (fun id hmem => h (id, _) hmem rfl)

end Mapping

section Encode

variable {table : List (Int × Bytes)} {t : OptimizedTrieTokenizer} (order : SetOrder)

/-- The bytes of the tokens. -/
def IsToken (table : List (Int × Bytes)) (data : Bytes) : Prop :=
  ∃ id, (id, data) ∈ table

/-- Tokens that the trie can hold and the loop can use. -/
structure Usable (table : List (Int × Bytes)) : Prop where
  ids : ∀ e ∈ table, e.1 ≠ -1
  nonempty : ∀ e ∈ table, e.2 ≠ []

theorem valuesAt_nonempty_iff (h : Holds table t) (husable : Usable table) {data : Bytes} :
    (valuesAt data t.root).Nonempty ↔ IsToken table data := by
  constructor
  · rintro ⟨id, hid⟩
    exact ⟨id, ((h.ids data id).mp hid).1⟩
  · rintro ⟨id, hid⟩
    exact ⟨id, (h.ids data id).mpr ⟨hid, husable.ids _ hid⟩⟩

/-- The id that a token is encoded as. -/
def idOf (order : SetOrder) (t : OptimizedTrieTokenizer) (word : Bytes) : Int :=
  order.first (valuesAt word t.root)

theorem idOf_mem (h : Holds table t) (husable : Usable table) {word : Bytes}
    (hword : IsToken table word) : (idOf order t word, word) ∈ table := by
  have hfirst := order.first_mem _ ((valuesAt_nonempty_iff h husable).mpr hword)
  exact ((h.ids word _).mp hfirst).1

/-- The search finds the longest token at a position. -/
theorem findLongestFast_spec
    (h : Holds table t) (husable : Usable table) (src : Bytes) (idx : Nat) :
    (NoWord (IsToken table) (src.drop idx) ∧
      t.root.findLongestFast order src idx = (0, 0)) ∨
    ∃ word, IsLongest (IsToken table) (src.drop idx) word ∧
      t.root.findLongestFast order src idx = (idx + word.length, idOf order t word) := by
  have htake : ∀ word, IsToken table word → word <+: src.drop idx →
      0 < word.length ∧ word.length ≤ (src.drop idx).length ∧
        (src.drop idx).take word.length = word := by
    rintro word ⟨id, hmem⟩ hprefix
    exact ⟨List.length_pos_iff.mpr (husable.nonempty _ hmem), hprefix.length_le,
      (List.prefix_iff_eq_take.mp hprefix).symm⟩
  have hkept : ∀ word, IsToken table word → valuesAt word t.root ≠ ∅ := fun word hword =>
    Finset.nonempty_iff_ne_empty.mp ((valuesAt_nonempty_iff h husable).mpr hword)
  rcases findLoop_spec order (src.drop idx) t.root idx (0, 0) with
    ⟨hnone, hret⟩ | ⟨n, hn, hle, hsome, hlongest, hret⟩
  · left
    refine ⟨fun word hword hprefix => ?_, hret⟩
    obtain ⟨hpos, hlen, heq⟩ := htake word hword hprefix
    have hempty := hnone word.length hpos hlen
    rw [heq] at hempty
    exact hkept word hword hempty
  · right
    have hlength : ((src.drop idx).take n).length = n := by
      rw [List.length_take, Nat.min_eq_left hle]
    refine ⟨(src.drop idx).take n, ?_, ?_⟩
    · refine ⟨(valuesAt_nonempty_iff h husable).mp hsome, List.take_prefix _ _, ?_⟩
      intro word hword hprefix
      obtain ⟨hpos, hlen, heq⟩ := htake word hword hprefix
      rw [hlength]
      by_contra hlonger
      have hempty := hlongest word.length (by omega) hlen
      rw [heq] at hempty
      exact hkept word hword hempty
    · rw [hlength]
      exact hret

/-- No token fits at the end of the text. -/
theorem noWord_end (husable : Usable table) {src : Bytes} {idx : Nat} (h : src.length ≤ idx) :
    NoWord (IsToken table) (src.drop idx) := by
  rintro word ⟨id, hmem⟩ hprefix
  rw [List.drop_eq_nil_of_le h, List.prefix_nil] at hprefix
  exact husable.nonempty _ hmem hprefix

/-- The loop of `encodeBytes` splits what is left. -/
theorem encodeLoop_spec
    (h : Holds table t) (husable : Usable table) (src : Bytes) {fuel idx : Nat}
    (hfuel : src.length ≤ idx + fuel) :
    ∃ words rest, GreedySplit (IsToken table) (src.drop idx) words rest ∧
      encodeLoop order t src fuel idx = words.map (idOf order t) := by
  induction fuel generalizing idx with
  | zero => exact ⟨[], _, GreedySplit.stop (noWord_end husable hfuel), rfl⟩
  | succ fuel ih =>
      rw [encodeLoop]
      by_cases hend : idx < src.length
      swap
      · rw [if_neg hend]
        exact ⟨[], _, GreedySplit.stop (noWord_end husable (Nat.not_lt.mp hend)), rfl⟩
      rw [if_pos hend]
      rcases findLongestFast_spec order h husable src idx with
        ⟨hnone, hret⟩ | ⟨word, hlongest, hret⟩
      · simp only [hret]
        rw [if_neg (by omega)]
        exact ⟨[], _, GreedySplit.stop hnone, rfl⟩
      · have hmem := idOf_mem order h husable hlongest.isWord
        have hpos : 0 < word.length := List.length_pos_iff.mpr (husable.nonempty _ hmem)
        have hsplit : src.drop idx = word ++ src.drop (idx + word.length) := by
          rw [← List.drop_drop, ← List.prefix_append_drop hlongest.fits]
        obtain ⟨words, rest, hwords, hids⟩ := @ih (idx + word.length) (by omega)
        simp only [hret]
        rw [if_pos ⟨by omega, husable.ids _ hmem⟩, hids]
        refine ⟨word :: words, rest, ?_, rfl⟩
        rw [hsplit] at hlongest ⊢
        exact GreedySplit.next hlongest hwords

/-- Encoding is greedy splitting. -/
theorem encodeBytes_spec (h : Holds table t) (husable : Usable table) (src : Bytes) :
    ∃ words rest, GreedySplit (IsToken table) src words rest ∧
      encodeBytes order t src = words.map (idOf order t) := by
  have hfuel : src.length ≤ 0 + src.length := by omega
  exact encodeLoop_spec order h husable src hfuel

/-- A token is encoded as itself. -/
theorem encodeBytes_token
    (h : Holds table t) (husable : Usable table) {word : Bytes} (hword : IsToken table word) :
    encodeBytes order t word = [idOf order t word] := by
  have hstop : NoWord (IsToken table) [] := by
    rintro other ⟨id, hmem⟩ hprefix
    exact husable.nonempty _ hmem (List.prefix_nil.mp hprefix)
  have hlongest : IsLongest (IsToken table) (word ++ []) word :=
    ⟨hword, List.prefix_append _ _, fun other _ hprefix => by simpa using hprefix.length_le⟩
  have hone := GreedySplit.next hlongest (GreedySplit.stop hstop)
  rw [List.append_nil] at hone
  obtain ⟨words, rest, hsplit, hids⟩ := encodeBytes_spec order h husable word
  obtain ⟨rfl, -⟩ := hone.unique hsplit
  exact hids

end Encode

section RoundTrip

/-- A vocabulary, in the order in which its tokens are inserted. -/
structure Vocabulary where
  entries : List (Int × Bytes)
  ids : (entries.map Prod.fst).Nodup
  tokens : (entries.map Prod.snd).Nodup
  nonempty : ∀ e ∈ entries, e.2 ≠ []
  positive : ∀ e ∈ entries, 1 ≤ e.1
  noEod : ∀ e ∈ entries, e.2 ≠ eodData

/-- The tokens with the built-in one. -/
def Vocabulary.table (v : Vocabulary) : List (Int × Bytes) :=
  v.entries ++ [(0, eodData)]

def Vocabulary.tokenizer (v : Vocabulary) : OptimizedTrieTokenizer :=
  ofEntries v.entries

theorem Vocabulary.usable (v : Vocabulary) : Usable v.table := by
  constructor
  · intro e he
    rcases List.mem_append.mp he with hmem | hmem
    · have hpositive := v.positive e hmem
      omega
    · rw [List.mem_singleton.mp hmem]
      decide
  · intro e he
    rcases List.mem_append.mp he with hmem | hmem
    · exact v.nonempty e hmem
    · rw [List.mem_singleton.mp hmem]
      decide

theorem Vocabulary.getTokenData (v : Vocabulary) :
    ∀ e ∈ v.table, v.tokenizer.tokenMapping.getTokenData e.1 = some e.2 := by
  intro e he
  rcases List.mem_append.mp he with hmem | hmem
  · have hpositive := v.positive e hmem
    exact getTokenData_ofEntries v.ids v.tokens hmem (by omega)
  · rw [List.mem_singleton.mp hmem]
    exact getTokenData_eod v.noEod

end RoundTrip

end Tokenizer
end RwkvLightning

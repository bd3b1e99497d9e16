import RwkvLightning.Inference.Text
import RwkvLightning.Library.Utf8
import Mathlib

/-!
# The text that the client gets

`take_complete_utf8` against the UTF-8 of the library: what it emits is the repair of
the bytes it takes, and it leaves a suffix that starts with the lead byte of a longer
sequence.

**Results.**
* `takeUtf8_repairs`, `suffix_of_runsOut`: what is emitted and what is left.
* `streamUtf8_exact`: the text does not depend on how the bytes are cut into pieces,
  is well formed, and is the input when that is well formed.
* `flushLoses_iff`: on which bytes the final flush loses no more than an incomplete
  character.
* `matchStop_eq`, `appendAll_eq`: the bounded tail finds the first stop that ends the whole
  text since the last reset.
-/

namespace RwkvLightning
namespace Text

open Backend Utf8

section Bytes

theorem isUtf8Continuation_iff (b : UInt8) :
    isUtf8Continuation b = true ↔ Tail b := by
  have htable : ∀ n < 256, n &&& 0xC0 = 0x80 ↔ 0x80 ≤ n ∧ n ≤ 0xBF := by
    decide +kernel
  have hb := htable b.toNat b.toNat_lt
  rw [isUtf8Continuation, decide_eq_true_eq, Tail, ← hb, ← UInt8.toNat_inj,
    UInt8.toNat_and]
  rfl

/-- The cases of `utf8_sequence_length`, by the number of the lead byte. -/
theorem utf8SequenceLength_eq (b : UInt8) :
    utf8SequenceLength b =
      if b.toNat ≤ 0x7F then 1
      else if 0xC2 ≤ b.toNat ∧ b.toNat ≤ 0xDF then 2
      else if 0xE0 ≤ b.toNat ∧ b.toNat ≤ 0xEF then 3
      else if 0xF0 ≤ b.toNat ∧ b.toNat ≤ 0xF4 then 4
      else 0 := by
  simp only [utf8SequenceLength, UInt8.le_iff_toNat_le]
  rfl

/-- The length is that of the characters with this first byte. -/
theorem leadOf_iff {b : UInt8} {tails : Nat} :
    LeadOf b tails ↔ utf8SequenceLength b = tails + 1 := by
  rw [utf8SequenceLength_eq, LeadOf]
  repeat' split
  all_goals omega

/-- A tail starts no sequence. -/
theorem utf8SequenceLength_tail {b : UInt8} (h : Tail b) : utf8SequenceLength b = 0 := by
  rw [Tail] at h
  rw [utf8SequenceLength_eq, if_neg (by omega), if_neg (by omega), if_neg (by omega),
    if_neg (by omega)]

theorem isValid_three {b b1 b2 : UInt8} :
    isValidUtf8Sequence [b, b1, b2] = true ↔ Tail b1 ∧ Tail b2 ∧
      (b.toNat = 0xE0 → 0xA0 ≤ b1.toNat) ∧ (b.toNat = 0xED → b1.toNat ≤ 0x9F) := by
  have he0 : b = 0xE0 ↔ b.toNat = 0xE0 := UInt8.toNat_inj.symm
  have hed : b = 0xED ↔ b.toNat = 0xED := UInt8.toNat_inj.symm
  have hlow : b1 < 0xA0 ↔ b1.toNat < 0xA0 := UInt8.lt_iff_toNat_lt
  have hhigh : 0xA0 ≤ b1 ↔ 0xA0 ≤ b1.toNat := UInt8.le_iff_toNat_le
  simp only [isValidUtf8Sequence, Bool.and_eq_true, Bool.not_eq_true', Bool.and_eq_false_iff,
    beq_eq_false_iff_ne, decide_eq_false_iff_not, isUtf8Continuation_iff, ne_eq, he0, hed,
    hlow, hhigh, Tail]
  omega

theorem isValid_four {b b1 b2 b3 : UInt8} :
    isValidUtf8Sequence [b, b1, b2, b3] = true ↔ Tail b1 ∧ Tail b2 ∧ Tail b3 ∧
      (b.toNat = 0xF0 → 0x90 ≤ b1.toNat) ∧ (b.toNat = 0xF4 → b1.toNat ≤ 0x8F) := by
  have hf0 : b = 0xF0 ↔ b.toNat = 0xF0 := UInt8.toNat_inj.symm
  have hf4 : b = 0xF4 ↔ b.toNat = 0xF4 := UInt8.toNat_inj.symm
  have hlow : b1 < 0x90 ↔ b1.toNat < 0x90 := UInt8.lt_iff_toNat_lt
  have hhigh : 0x8F < b1 ↔ 0x8F < b1.toNat := UInt8.lt_iff_toNat_lt
  simp only [isValidUtf8Sequence, Bool.and_eq_true, Bool.not_eq_true', Bool.and_eq_false_iff,
    beq_eq_false_iff_ne, decide_eq_false_iff_not, isUtf8Continuation_iff, ne_eq, hf0, hf4,
    hlow, hhigh, Tail]
  omega

/-- The sequences that the source accepts are the characters. -/
theorem isChar_iff_valid {b : UInt8} {rest : Bytes} :
    IsChar (b :: rest) ↔
      utf8SequenceLength b = rest.length + 1 ∧ isValidUtf8Sequence (b :: rest) = true := by
  match rest with
  | [] =>
      rw [isChar_one, ← leadOf_iff, LeadOf, List.length_nil]
      simp [isValidUtf8Sequence]
  | [b1] =>
      rw [isChar_two, ← leadOf_iff, LeadOf, isValidUtf8Sequence, isUtf8Continuation_iff]
      simp
  | [b1, b2] =>
      rw [isChar_three, ← leadOf_iff, LeadOf, isValid_three]
      simp
  | [b1, b2, b3] =>
      rw [isChar_four, ← leadOf_iff, LeadOf, isValid_four]
      simp
  | b1 :: b2 :: b3 :: b4 :: rest =>
      refine iff_of_false (fun h => ?_) (fun h => ?_)
      · have hle := (length_isChar h).2
        simp only [List.length_cons] at hle
        omega
      · simp [isValidUtf8Sequence] at h

end Bytes

section Take

/-- The lead byte of a sequence that runs past the end, and the bytes after it. -/
def RunsOut (t : Bytes) : Prop :=
  ∃ b rest, t = b :: rest ∧ rest.length + 1 < utf8SequenceLength b

theorem isChar_take
    {b : UInt8} {rest : Bytes} (hzero : utf8SequenceLength b ≠ 0)
    (hlong : ¬(b :: rest).length < utf8SequenceLength b) :
    IsChar ((b :: rest).take (utf8SequenceLength b)) ↔
      isValidUtf8Sequence ((b :: rest).take (utf8SequenceLength b)) = true := by
  obtain ⟨n, hn⟩ := Nat.exists_eq_succ_of_ne_zero hzero
  rw [List.length_cons, hn] at hlong
  rw [hn, List.take_succ_cons, isChar_iff_valid, hn, List.length_take]
  exact and_iff_right (by omega)

/-- A character at the front is found. -/
theorem prefix_isChar
    {b : UInt8} {rest c : Bytes} (hc : IsChar c) (h : c <+: b :: rest) :
    utf8SequenceLength b ≠ 0 ∧ ¬(b :: rest).length < utf8SequenceLength b ∧
      c = (b :: rest).take (utf8SequenceLength b) := by
  obtain ⟨a, tails, rfl, hlead, -⟩ := isChar_shape hc
  obtain ⟨more, hmore⟩ := h
  rw [List.cons_append, List.cons.injEq] at hmore
  obtain ⟨rfl, rfl⟩ := hmore
  have hlength := leadOf_iff.mp hlead
  refine ⟨by omega, ?_, ?_⟩
  · rw [hlength, List.length_cons, List.length_append]
    omega
  · rw [hlength, List.take_succ_cons, List.take_left' rfl]

/-- What is emitted repairs what is taken, which is all but the rest. -/
theorem takeUtf8_repairs (p : Bytes) :
    ∃ taken, p = taken ++ (takeUtf8 p).2 ∧ Repairs taken (takeUtf8 p).1 := by
  induction hn : p.length using Nat.strong_induction_on generalizing p with
  | _ n ih =>
      cases p with
      | nil => exact ⟨[], rfl, Repairs.nil⟩
      | cons b rest =>
          have hn' : rest.length + 1 = n := hn
          rw [takeUtf8_cons]
          -- A byte that starts no character is replaced, and the next byte is the next lead.
          have hbad : (∀ c, IsChar c → ¬ c <+: b :: rest) →
              ∃ taken, b :: rest = taken ++ (emit replacement (takeUtf8 rest)).2 ∧
                Repairs taken (emit replacement (takeUtf8 rest)).1 := by
            intro hnone
            obtain ⟨taken, htaken, hrepairs⟩ := ih rest.length (by omega) rest rfl
            refine ⟨b :: taken, congrArg (b :: ·) htaken, Repairs.bad ?_ hrepairs⟩
            intro c hc hpre
            refine hnone c hc (hpre.trans ?_)
            rw [htaken]
            exact ⟨(takeUtf8 rest).2, rfl⟩
          by_cases hzero : utf8SequenceLength b = 0
          · rw [if_pos hzero]
            exact hbad (fun c hc hpre => (prefix_isChar hc hpre).1 hzero)
          rw [if_neg hzero]
          by_cases hshort : (b :: rest).length < utf8SequenceLength b
          · rw [if_pos hshort]
            exact ⟨[], rfl, Repairs.nil⟩
          rw [if_neg hshort]
          have hchar := isChar_take hzero hshort
          by_cases hvalid : isValidUtf8Sequence ((b :: rest).take (utf8SequenceLength b)) = false
          · rw [if_pos hvalid]
            refine hbad (fun c hc hpre => ?_)
            rw [(prefix_isChar hc hpre).2.2, hchar, hvalid] at hc
            exact Bool.noConfusion hc
          · rw [if_neg hvalid]
            rw [Bool.not_eq_false, ← hchar] at hvalid
            have hlen : ((b :: rest).drop (utf8SequenceLength b)).length < n := by
              rw [List.length_drop, List.length_cons]
              omega
            obtain ⟨taken, htaken, hrepairs⟩ := ih _ hlen _ rfl
            refine ⟨_, ?_, Repairs.char hvalid hrepairs⟩
            rw [List.append_assoc]
            show _ = _ ++ (taken ++ (takeUtf8 _).2)
            rw [← htaken, List.take_append_drop]

/-- What is left starts with a lead byte. -/
theorem runsOut_rest
    {p : Bytes} (h : (takeUtf8 p).2 ≠ []) : RunsOut (takeUtf8 p).2 := by
  have hrest := takeUtf8_rest p
  generalize (takeUtf8 p).2 = t at h hrest
  cases t with
  | nil => exact absurd rfl h
  | cons b rest =>
      have hlength : ∀ out, out ≠ [] → ∀ r, emit out r ≠ (([] : Bytes), b :: rest) := by
        intro out hout r heq
        have hnil := congrArg Prod.fst heq
        exact hout (List.append_eq_nil_iff.mp hnil).1
      rw [takeUtf8_cons] at hrest
      split at hrest
      · exact absurd hrest (hlength _ (by simp [replacement]) _)
      split at hrest
      · rename_i hshort
        exact ⟨b, rest, rfl, hshort⟩
      split at hrest
      · exact absurd hrest (hlength _ (by simp [replacement]) _)
      · rename_i hzero _ _
        refine absurd hrest (hlength _ ?_ _)
        obtain ⟨n, hn⟩ := Nat.exists_eq_succ_of_ne_zero hzero
        rw [hn, List.take_succ_cons]
        simp

/-- A lead byte whose sequence runs past the end is never taken. -/
theorem suffix_of_runsOut
    {p t : Bytes} (h : t <:+ p) (ht : RunsOut t) : t <:+ (takeUtf8 p).2 := by
  obtain ⟨a, tails, rfl, hout⟩ := ht
  induction hn : p.length using Nat.strong_induction_on generalizing p with
  | _ n ih =>
      cases p with
      | nil => simp at h
      | cons b rest =>
          have hn' : rest.length + 1 = n := hn
          have hbelow : a :: tails ≠ b :: rest → a :: tails <:+ rest := by
            intro hne
            exact (List.suffix_cons_iff.mp h).resolve_left hne
          rw [takeUtf8_cons]
          by_cases hzero : utf8SequenceLength b = 0
          · rw [if_pos hzero]
            refine ih rest.length (by omega) (hbelow ?_) rfl
            intro heq
            obtain ⟨rfl, rfl⟩ := List.cons.inj heq
            omega
          rw [if_neg hzero]
          by_cases hshort : (b :: rest).length < utf8SequenceLength b
          · rw [if_pos hshort]
            exact h
          rw [if_neg hshort]
          have hwhole : a :: tails ≠ b :: rest := by
            intro heq
            obtain ⟨rfl, rfl⟩ := List.cons.inj heq
            exact hshort hout
          have hchar := isChar_take hzero hshort
          by_cases hvalid : isValidUtf8Sequence ((b :: rest).take (utf8SequenceLength b)) = false
          · rw [if_pos hvalid]
            exact ih rest.length (by omega) (hbelow hwhole) rfl
          · rw [if_neg hvalid]
            rw [Bool.not_eq_false, ← hchar] at hvalid
            have hlen : ((b :: rest).drop (utf8SequenceLength b)).length < n := by
              rw [List.length_drop, List.length_cons]
              omega
            refine ih _ hlen ?_ rfl
            -- The lead byte is no tail, so it is not inside the character that is taken.
            obtain ⟨pre, hpre⟩ := h
            rw [← List.take_append_drop (utf8SequenceLength b) (b :: rest)] at hpre
            rcases List.append_eq_append_iff.mp hpre with ⟨more, hfront, hback⟩ |
              ⟨more, -, hback⟩
            · cases more with
              | nil => exact ⟨[], by simpa using hback⟩
              | cons m more =>
                  rw [List.cons_append, List.cons.injEq] at hback
                  by_cases hpre' : pre = []
                  · refine absurd ?_ hwhole
                    rw [hpre', List.nil_append] at hpre
                    rw [hpre, List.take_append_drop]
                  · rw [hfront, ← hback.1] at hvalid
                    have htail := utf8SequenceLength_tail (tail_of_append hvalid hpre')
                    omega
            · exact ⟨more, hback.symm⟩

/-- A well-formed text is taken as it is. -/
theorem takeUtf8_of_wellFormed
    {p : Bytes} (h : WellFormed p) : takeUtf8 p = (p, []) := by
  refine WellFormed.induction (motive := fun p => takeUtf8 p = (p, [])) h rfl ?_
  intro c rest hc _ ih
  obtain ⟨b, tails, rfl, -, -⟩ := isChar_shape hc
  have hfront : b :: tails <+: b :: (tails ++ rest) := ⟨rest, rfl⟩
  obtain ⟨hzero, hshort, htake⟩ := prefix_isChar hc hfront
  have hvalid := (isChar_take hzero hshort).mp (htake ▸ hc)
  have hdrop : (b :: (tails ++ rest)).drop (utf8SequenceLength b) = rest := by
    have happend := List.take_append_drop (utf8SequenceLength b) (b :: (tails ++ rest))
    rw [← htake, List.cons_append, List.cons.injEq] at happend
    exact List.append_cancel_left happend.2
  rw [List.cons_append, takeUtf8_cons, if_neg hzero, if_neg hshort, if_neg (by simp [hvalid]), hdrop, ih,
    ← htake]
  simp [emit]

end Take

section Stream

/-- `flush` after each piece: the texts together, and what stays pending. -/
def takePieces : Bytes → List Bytes → Bytes × Bytes
  | pending, [] => ([], pending)
  | pending, piece :: pieces =>
      let r := takeCompleteUtf8 (pending ++ piece) false
      emit r.1 (takePieces r.2 pieces)

/-- The text of a row that ends after these pieces. -/
def streamUtf8 (pieces : List Bytes) : Bytes :=
  let r := takePieces [] pieces
  r.1 ++ (takeCompleteUtf8 r.2 true).1

/-- The pieces are taken like the bytes together. -/
theorem takePieces_eq
    {pending : Bytes} (h : takeUtf8 pending = ([], pending)) (pieces : List Bytes) :
    takePieces pending pieces = takeUtf8 (pending ++ pieces.flatten) := by
  induction pieces generalizing pending with
  | nil => rw [takePieces, List.flatten_nil, List.append_nil, h]
  | cons piece pieces ih =>
      have hnext := ih (takeUtf8_rest (pending ++ piece))
      simp only [takePieces, takeCompleteUtf8, Bool.false_eq_true, if_false]
      rw [hnext, List.flatten_cons, ← List.append_assoc, takeUtf8_append (pending ++ piece)]

theorem streamUtf8_eq (pieces : List Bytes) :
    streamUtf8 pieces = (takeUtf8 pieces.flatten).1 := by
  have hpieces := takePieces_eq takeUtf8_nil pieces
  rw [List.nil_append] at hpieces
  simp only [streamUtf8, takeCompleteUtf8]
  rw [hpieces, takeUtf8_rest, List.append_nil]

/--
The text does not depend on the cuts, is well formed, and is the input when the input is
well formed.
-/
theorem streamUtf8_exact (pieces : List Bytes) :
    streamUtf8 pieces = (takeCompleteUtf8 pieces.flatten true).1 ∧
      WellFormed (streamUtf8 pieces) ∧
      (WellFormed pieces.flatten → streamUtf8 pieces = pieces.flatten) := by
  rw [streamUtf8_eq]
  refine ⟨rfl, ?_, ?_⟩
  · obtain ⟨taken, -, hrepairs⟩ := takeUtf8_repairs pieces.flatten
    exact hrepairs.wellFormed
  · intro hformed
    rw [takeUtf8_of_wellFormed hformed]

end Stream

section Flush

/-- What `pending.clear()` removes in the final flush. -/
def dropped (pending : Bytes) : Bytes :=
  (takeCompleteUtf8 pending false).2

/--
The final flush drops no more than an incomplete character, and emits each character of
the pending bytes after the repair of what comes before it.
-/
structure LosesOnlyIncomplete (pending : Bytes) : Prop where
  trailing : dropped pending <:+ pending
  incomplete : ∃ c, IsChar c ∧ 1 < c.length ∧ dropped pending <+: c ∧ dropped pending ≠ c
  emitted : ∀ pre c post, pending = pre ++ c ++ post → IsChar c →
    ∃ x y, (takeCompleteUtf8 pending true).1 = x ++ c ++ y ∧ Repairs pre x

/-- A sequence that runs past the end of the bytes can be completed. -/
def EndsWithinCharacter (pending : Bytes) : Prop :=
  ∀ t, t <:+ pending → RunsOut t → ∃ c, IsChar c ∧ t <+: c

/-- What runs past the end is less than the character. -/
theorem RunsOut.proper
    {t c : Bytes} (ht : RunsOut t) (hc : IsChar c) (h : t <+: c) :
    1 < c.length ∧ t ≠ c := by
  obtain ⟨b, rest, rfl, hout⟩ := ht
  obtain ⟨a, tails, rfl, hlead, -⟩ := isChar_shape hc
  obtain ⟨more, hmore⟩ := h
  rw [List.cons_append, List.cons.injEq] at hmore
  obtain ⟨rfl, rfl⟩ := hmore
  have hlength := leadOf_iff.mp hlead
  rw [List.length_append] at hlength
  refine ⟨?_, fun heq => ?_⟩
  · rw [List.length_cons, List.length_append]
    omega
  · have hsame := congrArg List.length heq
    simp only [List.length_cons, List.length_append] at hsame
    omega

/-- The only lead byte in a part of a character is its first byte. -/
theorem eq_of_suffix_isChar
    {t c d : Bytes} (ht : RunsOut t) (hsuffix : t <:+ d) (hc : IsChar c) (h : d <+: c) :
    t = d := by
  obtain ⟨b, rest, rfl, hout⟩ := ht
  obtain ⟨pre, rfl⟩ := hsuffix
  obtain ⟨more, rfl⟩ := h
  by_contra hne
  have hpre : pre ≠ [] := by
    rintro rfl
    exact hne rfl
  rw [List.append_assoc, List.cons_append] at hc
  have hzero := utf8SequenceLength_tail (tail_of_append hc hpre)
  omega

/-- A character does not overlap the rest, which is the front of another one. -/
theorem isChar_before_rest
    {taken d c₀ pre c post : Bytes} (hc₀ : IsChar c₀) (hd : d <+: c₀) (hne : d ≠ c₀)
    (hc : IsChar c) (h : taken ++ d = pre ++ c ++ post) :
    ∃ post', taken = pre ++ c ++ post' := by
  rcases List.append_eq_append_iff.mp h with ⟨part, hfront, hback⟩ | ⟨post', htaken, -⟩
  swap
  · exact ⟨post', htaken⟩
  by_cases hpart : part = []
  · exact ⟨[], by rw [List.append_nil, hfront, hpart, List.append_nil]⟩
  exfalso
  obtain ⟨last, rfl⟩ := hd
  subst hback
  -- `part` starts the rest, and ends where the character ends.
  have hwhole : part ≠ c := by
    rintro rfl
    rw [List.append_assoc] at hc₀
    have hnil := List.append_eq_nil_iff.mp (eq_of_isChar_append hc hc₀)
    exact hne (by rw [hnil.2, List.append_nil])
  rcases List.append_eq_append_iff.mp hfront with ⟨before, -, hcover⟩ | ⟨skipped, -, hover⟩
  · have hbefore : before ≠ [] := by
      rintro rfl
      exact hwhole (by rw [hcover, List.nil_append])
    obtain ⟨m, more, rfl⟩ := List.exists_cons_of_ne_nil hpart
    obtain ⟨a, tails, heq, hlead, -⟩ := isChar_shape hc₀
    simp only [List.cons_append, List.cons.injEq] at heq
    obtain ⟨rfl, -⟩ := heq
    rw [hcover] at hc
    exact hlead.not_tail (tail_of_append hc hbefore)
  · have hskipped : skipped ≠ [] := by
      rintro rfl
      exact hwhole (by rw [hover, List.nil_append])
    obtain ⟨a, tails, rfl, hlead, -⟩ := isChar_shape hc
    have hinside : IsChar (skipped ++ a :: (tails ++ post ++ last)) := by
      rw [hover] at hc₀
      simpa using hc₀
    exact hlead.not_tail (tail_of_append hinside hskipped)

/--
The final flush loses only an incomplete character exactly when each sequence that runs
past the end of the pending bytes can be completed.
-/
theorem flushLoses_iff (pending : Bytes) :
    LosesOnlyIncomplete pending ↔ EndsWithinCharacter pending := by
  obtain ⟨taken, htaken, hrepairs⟩ := takeUtf8_repairs pending
  have hdropped : dropped pending = (takeUtf8 pending).2 := rfl
  constructor
  · intro h t hsuffix ht
    obtain ⟨c, hc, -, hpre, -⟩ := h.incomplete
    have heq := eq_of_suffix_isChar ht (suffix_of_runsOut hsuffix ht) hc hpre
    exact ⟨c, hc, heq ▸ hpre⟩
  · intro h
    have htrailing : dropped pending <:+ pending := ⟨taken, htaken.symm⟩
    have hincomplete : ∃ c, IsChar c ∧ 1 < c.length ∧ dropped pending <+: c ∧
        dropped pending ≠ c := by
      by_cases hnil : (takeUtf8 pending).2 = []
      · rw [hdropped, hnil]
        exact ⟨replacement, ⟨'\uFFFD', rfl⟩, by decide, List.nil_prefix, by decide⟩
      · have hout := runsOut_rest hnil
        obtain ⟨c, hc, hpre⟩ := h _ htrailing hout
        obtain ⟨hlong, hne⟩ := hout.proper hc hpre
        exact ⟨c, hc, hlong, hpre, hne⟩
    refine ⟨htrailing, hincomplete, ?_⟩
    intro pre c post hpending hc
    obtain ⟨c₀, hc₀, -, hpre, hne⟩ := hincomplete
    have hsplit : taken ++ dropped pending = pre ++ c ++ post := htaken.symm.trans hpending
    obtain ⟨post', rfl⟩ := isChar_before_rest hc₀ hpre hne hc hsplit
    obtain ⟨x, y, hout, hx, -⟩ := hrepairs.emits hc
    exact ⟨x, y, hout, hx⟩

/-- A lead byte of three, and the letter A: the letter is lost with it. -/
theorem flushLoses_letter : ¬ LosesOnlyIncomplete [0xE4, 0x41] := by
  intro h
  obtain ⟨x, y, hout, -⟩ := h.emitted [0xE4] [0x41] [] rfl ⟨'A', by decide⟩
  have hempty : (takeCompleteUtf8 [0xE4, 0x41] true).1 = [] := by decide
  rw [hempty] at hout
  simp at hout

end Flush

section Stops

variable {stops : List Bytes}

/-- The first stop, in the order of the request, that ends the text. -/
def firstStop (stops : List Bytes) (text : Bytes) : Bytes :=
  (stops.find? (fun stop => stop ≠ [] && stop.isSuffixOf text)).getD []

/-- The tail that is kept of a text. -/
def tailOf (stops : List Bytes) (text : Bytes) : Bytes :=
  text.drop (text.length - maxBytes stops)

theorem le_maxBytes {stop : Bytes} (h : stop ∈ stops) : stop.length ≤ maxBytes stops := by
  have hfold : ∀ (l : List Bytes) (n : Nat),
      n ≤ l.foldl (fun n stop => max n stop.length) n ∧
        ∀ stop ∈ l, stop.length ≤ l.foldl (fun n stop => max n stop.length) n := by
    intro l
    induction l with
    | nil => exact fun n => ⟨Nat.le_refl n, by simp⟩
    | cons first l ih =>
        intro n
        obtain ⟨hle, hall⟩ := ih (max n first.length)
        rw [List.foldl_cons]
        refine ⟨Nat.le_trans (Nat.le_max_left _ _) hle, fun stop hstop => ?_⟩
        rcases List.mem_cons.mp hstop with rfl | hstop
        · exact Nat.le_trans (Nat.le_max_right _ _) hle
        · exact hall stop hstop
  exact (hfold stops 0).2 stop h

/-- A stop that is no longer than the tail ends the tail when it ends the text. -/
theorem suffix_tail_iff
    {text stop : Bytes} {n : Nat} (h : stop.length ≤ n) :
    stop <:+ text.drop (text.length - n) ↔ stop <:+ text := by
  constructor
  · exact fun hsuffix => hsuffix.trans (List.drop_suffix _ _)
  · intro hsuffix
    have hle := hsuffix.length_le
    refine List.suffix_of_suffix_length_le hsuffix (List.drop_suffix _ _) ?_
    rw [List.length_drop]
    omega

theorem firstStop_tailOf (stops : List Bytes) (text : Bytes) :
    firstStop stops (tailOf stops text) = firstStop stops text := by
  unfold firstStop
  congr 1
  refine List.find?_congr ?_
  intro stop hstop
  have hiff : stop.isSuffixOf (tailOf stops text) = stop.isSuffixOf text := by
    rw [Bool.eq_iff_iff, List.isSuffixOf_iff_suffix, List.isSuffixOf_iff_suffix]
    exact suffix_tail_iff (le_maxBytes hstop)
  rw [hiff]

/-- Cutting the tail before or after the new bytes are appended is the same. -/
theorem tailOf_append (stops : List Bytes) (text decoded : Bytes) :
    tailOf stops (text ++ decoded) =
      if maxBytes stops ≤ decoded.length then
        decoded.drop (decoded.length - maxBytes stops)
      else
        (tailOf stops text).drop
          ((tailOf stops text).length + decoded.length - maxBytes stops) ++ decoded := by
  unfold tailOf
  rw [List.length_append]
  split
  · rw [List.drop_append, List.drop_eq_nil_of_le (by omega), List.nil_append]
    congr 1
    omega
  · rw [List.drop_append_of_le_length (by omega), List.drop_drop, List.length_drop]
    congr 2
    omega

/-- `append` finds the first stop that ends the whole text. -/
theorem matchStop_eq (stops : List Bytes) (text decoded : Bytes) :
    matchStop stops (tailOf stops text) decoded =
      (firstStop stops (text ++ decoded), tailOf stops (text ++ decoded)) := by
  rw [matchStop]
  by_cases hzero : maxBytes stops = 0
  · -- All stops are empty: nothing is found, and nothing is kept.
    rw [if_pos hzero]
    have htail : ∀ t, tailOf stops t = [] := by
      intro t
      rw [tailOf, hzero, Nat.sub_zero, List.drop_length]
    rw [htail, htail, firstStop, List.find?_eq_none.mpr]
    · rfl
    · intro stop hstop
      have hempty : stop = [] :=
        List.length_eq_zero_iff.mp (by have := le_maxBytes hstop; omega)
      simp [hempty]
  · rw [if_neg hzero, ← firstStop_tailOf stops (text ++ decoded), tailOf_append]
    rfl

/-- What happens to a tail: a token is appended, or the tail is reset. -/
inductive TailOp where
  | append (decoded : Bytes)
  | clear

/-- The reports of the matcher, and the tail that it leaves. -/
def appendAll (stops : List Bytes) : Bytes → List TailOp → List Bytes × Bytes
  | tail, [] => ([], tail)
  | _, .clear :: ops => appendAll stops [] ops
  | tail, .append decoded :: ops =>
      let r := matchStop stops tail decoded
      let rest := appendAll stops r.2 ops
      (r.1 :: rest.1, rest.2)

/-- The first stop that ends the whole text after each token, and the text since the last reset. -/
def appendWhole (stops : List Bytes) : Bytes → List TailOp → List Bytes × Bytes
  | text, [] => ([], text)
  | _, .clear :: ops => appendWhole stops [] ops
  | text, .append decoded :: ops =>
      let rest := appendWhole stops (text ++ decoded) ops
      (firstStop stops (text ++ decoded) :: rest.1, rest.2)

theorem tailOf_nil (stops : List Bytes) : tailOf stops [] = [] := by
  rw [tailOf, List.drop_nil]

/-- The bounded tail is as good as the whole text. -/
theorem appendAll_eq (stops : List Bytes) (text : Bytes) (ops : List TailOp) :
    appendAll stops (tailOf stops text) ops =
      ((appendWhole stops text ops).1, tailOf stops (appendWhole stops text ops).2) := by
  induction ops generalizing text with
  | nil => rfl
  | cons op ops ih =>
      cases op with
      | clear =>
          have hreset := ih []
          rw [tailOf_nil] at hreset
          exact hreset
      | append decoded =>
          have hnext := ih (text ++ decoded)
          simp only [appendAll, appendWhole, matchStop_eq, hnext]

theorem firstStop_eq_nil_iff {text : Bytes} :
    firstStop stops text = [] ↔ ∀ stop ∈ stops, stop ≠ [] → ¬ stop <:+ text := by
  unfold firstStop
  cases hfind : stops.find? (fun stop => stop ≠ [] && stop.isSuffixOf text) with
  | none =>
      rw [List.find?_eq_none] at hfind
      simpa using hfind
  | some stop =>
      have hstop := List.find?_some hfind
      have hmem := List.mem_of_find?_eq_some hfind
      simp only [ne_eq, decide_not, Bool.and_eq_true, Bool.not_eq_eq_eq_not, Bool.not_true,
        decide_eq_false_iff_not, List.isSuffixOf_iff_suffix] at hstop
      refine iff_of_false hstop.1 (fun h => h stop hmem hstop.1 hstop.2)

end Stops

end Text
end RwkvLightning

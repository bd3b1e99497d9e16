import RwkvLightning.Inference.Backend
import Mathlib

/-!
# Text from tokens

`take_complete_utf8` of `utf8.hpp` and `TextStopMatcher` of `text_stop_matcher.hpp`.

**Results.**
* `takeUtf8_append`: the output does not depend on where the bytes are cut.
* `takeUtf8_rest`: what is left has no complete character.
-/

namespace RwkvLightning
namespace Text

open Backend

section Utf8

/-- `is_utf8_continuation`. -/
def isUtf8Continuation (byte : UInt8) : Bool :=
  byte &&& 0xC0 = 0x80

/-- `utf8_sequence_length`. -/
def utf8SequenceLength (lead : UInt8) : Nat :=
  if lead ≤ 0x7F then 1
  else if 0xC2 ≤ lead ∧ lead ≤ 0xDF then 2
  else if 0xE0 ≤ lead ∧ lead ≤ 0xEF then 3
  else if 0xF0 ≤ lead ∧ lead ≤ 0xF4 then 4
  else 0

/-- `is_valid_utf8_sequence`, for the bytes of one sequence. -/
def isValidUtf8Sequence : Bytes → Bool
  | [_] => true
  | [_, b1] => isUtf8Continuation b1
  | [b0, b1, b2] =>
      isUtf8Continuation b1 && isUtf8Continuation b2 &&
        !(b0 == 0xE0 && b1 < 0xA0) && !(b0 == 0xED && 0xA0 ≤ b1)
  | [b0, b1, b2, b3] =>
      isUtf8Continuation b1 && isUtf8Continuation b2 && isUtf8Continuation b3 &&
        !(b0 == 0xF0 && b1 < 0x90) && !(b0 == 0xF4 && 0x8F < b1)
  | _ => false

/-- U+FFFD. -/
def replacement : Bytes :=
  [0xEF, 0xBF, 0xBD]

/-- Put output in front. -/
def emit (out : Bytes) (r : Bytes × Bytes) : Bytes × Bytes :=
  (out ++ r.1, r.2)

/-- The loop of `take_complete_utf8`: the output, and what stays pending. -/
def takeLoop : Nat → Bytes → Bytes × Bytes
  | 0, pending => ([], pending)
  | _ + 1, [] => ([], [])
  | fuel + 1, b :: rest =>
      let len := utf8SequenceLength b
      if len = 0 then emit replacement (takeLoop fuel rest)
      else if (b :: rest).length < len then ([], b :: rest)
      else if isValidUtf8Sequence ((b :: rest).take len) = false then
        emit replacement (takeLoop fuel rest)
      else emit ((b :: rest).take len) (takeLoop fuel ((b :: rest).drop len))

/-- The output and the rest; each pass takes at least one byte. -/
def takeUtf8 (pending : Bytes) : Bytes × Bytes :=
  takeLoop pending.length pending

/-- `take_complete_utf8`. -/
def takeCompleteUtf8 (pending : Bytes) (flushAll : Bool) : Bytes × Bytes :=
  ((takeUtf8 pending).1, if flushAll then [] else (takeUtf8 pending).2)

theorem takeLoop_fuel {fuel : Nat} {pending : Bytes} (h : pending.length ≤ fuel) :
    takeLoop fuel pending = takeUtf8 pending := by
  unfold takeUtf8
  induction fuel using Nat.strong_induction_on generalizing pending with
  | _ fuel ih =>
      cases pending with
      | nil => cases fuel <;> rfl
      | cons b rest =>
          cases fuel with
          | zero => simp at h
          | succ fuel =>
              have hrest : rest.length ≤ fuel := Nat.le_of_succ_le_succ h
              have hdrop : ∀ len, len ≠ 0 → ((b :: rest).drop len).length ≤ rest.length := by
                intro len hlen
                rw [List.length_drop, List.length_cons]
                omega
              simp only [takeLoop, List.length_cons]
              by_cases hzero : utf8SequenceLength b = 0
              · rw [if_pos hzero, if_pos hzero, ih fuel (Nat.lt_succ_self _) hrest]
              rw [if_neg hzero, if_neg hzero]
              have hlen := hdrop _ hzero
              -- Both runs go on with the same bytes, and have passes enough.
              have hsame : takeLoop fuel ((b :: rest).drop (utf8SequenceLength b)) =
                  takeLoop rest.length ((b :: rest).drop (utf8SequenceLength b)) := by
                rw [ih fuel (Nat.lt_succ_self _) (Nat.le_trans hlen hrest),
                  ih rest.length (Nat.lt_succ_of_le hrest) hlen]
              rw [hsame, ih fuel (Nat.lt_succ_self _) hrest]

@[simp] theorem takeUtf8_nil : takeUtf8 [] = ([], []) := rfl

theorem takeUtf8_cons (b : UInt8) (rest : Bytes) :
    takeUtf8 (b :: rest) =
      if utf8SequenceLength b = 0 then emit replacement (takeUtf8 rest)
      else if (b :: rest).length < utf8SequenceLength b then ([], b :: rest)
      else if isValidUtf8Sequence ((b :: rest).take (utf8SequenceLength b)) = false then
        emit replacement (takeUtf8 rest)
      else emit ((b :: rest).take (utf8SequenceLength b))
        (takeUtf8 ((b :: rest).drop (utf8SequenceLength b))) := by
  show takeLoop (rest.length + 1) (b :: rest) = _
  simp only [takeLoop]
  by_cases hzero : utf8SequenceLength b = 0
  · rw [if_pos hzero, if_pos hzero, takeLoop_fuel (Nat.le_refl _)]
  have hlen : ((b :: rest).drop (utf8SequenceLength b)).length ≤ rest.length := by
    rw [List.length_drop, List.length_cons]
    omega
  rw [takeLoop_fuel (Nat.le_refl _), takeLoop_fuel hlen]

theorem emit_emit (out out' : Bytes) (r : Bytes × Bytes) :
    emit out (emit out' r) = emit (out ++ out') r := by
  simp [emit]

/-- The bytes can be cut anywhere: the rest is kept and the next bytes are appended. -/
theorem takeUtf8_append (p q : Bytes) :
    takeUtf8 (p ++ q) = emit (takeUtf8 p).1 (takeUtf8 ((takeUtf8 p).2 ++ q)) := by
  induction hn : p.length using Nat.strong_induction_on generalizing p with
  | _ n ih =>
      cases p with
      | nil => simp [emit]
      | cons b rest =>
          have hn' : rest.length + 1 = n := hn
          rw [List.cons_append, takeUtf8_cons b (rest ++ q), takeUtf8_cons b rest]
          by_cases hzero : utf8SequenceLength b = 0
          · rw [if_pos hzero, if_pos hzero, ih rest.length (by omega) rest rfl, emit_emit]
            rfl
          rw [if_neg hzero, if_neg hzero]
          by_cases hshort : (b :: rest).length < utf8SequenceLength b
          · rw [if_pos hshort]
            simp only [emit, List.nil_append, List.cons_append]
            rw [takeUtf8_cons b (rest ++ q), if_neg hzero]
            rfl
          have hlong : ¬(b :: (rest ++ q)).length < utf8SequenceLength b := by
            simp only [List.length_cons, List.length_append] at hshort ⊢
            omega
          have htake : (b :: (rest ++ q)).take (utf8SequenceLength b) =
              (b :: rest).take (utf8SequenceLength b) := by
            rw [← List.cons_append, List.take_append_of_le_length (Nat.not_lt.mp hshort)]
          have hdrop : (b :: (rest ++ q)).drop (utf8SequenceLength b) =
              (b :: rest).drop (utf8SequenceLength b) ++ q := by
            rw [← List.cons_append, List.drop_append_of_le_length (Nat.not_lt.mp hshort)]
          rw [if_neg hlong, if_neg hshort, htake, hdrop]
          by_cases hvalid : isValidUtf8Sequence ((b :: rest).take (utf8SequenceLength b)) = false
          · rw [if_pos hvalid, if_pos hvalid, ih rest.length (by omega) rest rfl, emit_emit]
            rfl
          · have hlen : ((b :: rest).drop (utf8SequenceLength b)).length < n := by
              rw [List.length_drop, List.length_cons]
              omega
            rw [if_neg hvalid, if_neg hvalid, ih _ hlen _ rfl, emit_emit]
            rfl

/-- What is left has no complete character. -/
theorem takeUtf8_rest (p : Bytes) : takeUtf8 (takeUtf8 p).2 = ([], (takeUtf8 p).2) := by
  have h := takeUtf8_append p []
  rw [List.append_nil, List.append_nil] at h
  have hout : (takeUtf8 p).1 = (takeUtf8 p).1 ++ (takeUtf8 (takeUtf8 p).2).1 := by
    simpa [emit] using congrArg Prod.fst h
  have hrest : (takeUtf8 p).2 = (takeUtf8 (takeUtf8 p).2).2 := by
    simpa [emit] using congrArg Prod.snd h
  have hnil : (takeUtf8 (takeUtf8 p).2).1 = [] := by
    have hlen := congrArg List.length hout
    rw [List.length_append] at hlen
    exact List.length_eq_zero_iff.mp (by omega)
  exact Prod.ext hnil hrest.symm

end Utf8

section Stops

/-- `max_bytes_` of `TextStopMatcher`. -/
def maxBytes (stops : List Bytes) : Nat :=
  stops.foldl (fun n stop => max n stop.length) 0

/-- `TextStopMatcher::append`: the stop that matches, or nothing, and the new tail. -/
def matchStop (stops : List Bytes) (tail decoded : Bytes) : Bytes × Bytes :=
  if maxBytes stops = 0 then ([], tail)
  else
    let tail :=
      if maxBytes stops ≤ decoded.length then
        decoded.drop (decoded.length - maxBytes stops)
      else tail.drop (tail.length + decoded.length - maxBytes stops) ++ decoded
    ((stops.find? (fun stop => stop ≠ [] && stop.isSuffixOf tail)).getD [], tail)

end Stops

end Text
end RwkvLightning

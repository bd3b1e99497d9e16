import Mathlib.Data.List.Infix

/-!
# Greedy splitting into words

A text is cut into words from a set, each time the longest that fits, until no word fits.

**Results.**
* `GreedySplit.append`: the words and the rest are the text.
* `GreedySplit.unique`: there is one such splitting.
* `GreedySplit.complete`: nothing is left when every letter is a word.
-/

namespace RwkvLightning

universe u

variable {κ : Type u}

/-- The longest word at the front of a text. -/
structure IsLongest (Word : List κ → Prop) (text word : List κ) : Prop where
  isWord : Word word
  fits : word <+: text
  longest : ∀ other, Word other → other <+: text → other.length ≤ word.length

/-- No word fits at the front of a text. -/
def NoWord (Word : List κ → Prop) (text : List κ) : Prop :=
  ∀ word, Word word → ¬ word <+: text

/-- A text, the words that it is cut into, and the rest where no word fits. -/
inductive GreedySplit (Word : List κ → Prop) : List κ → List (List κ) → List κ → Prop where
  | stop {text : List κ} (hnone : NoWord Word text) : GreedySplit Word text [] text
  | next {word text rest : List κ} {words : List (List κ)}
      (hword : IsLongest Word (word ++ text) word) (htext : GreedySplit Word text words rest) :
      GreedySplit Word (word ++ text) (word :: words) rest

section Words

variable {Word : List κ → Prop} {text text' rest rest' word word' : List κ}
variable {words words' : List (List κ)}

theorem IsLongest.unique
    (h : IsLongest Word text word) (h' : IsLongest Word text word') : word = word' := by
  have hle := h.longest word' h'.isWord h'.fits
  have hle' := h'.longest word h.isWord h.fits
  exact List.IsPrefix.eq_of_length
    (List.prefix_of_prefix_length_le h.fits h'.fits hle') (Nat.le_antisymm hle' hle)

theorem GreedySplit.append (h : GreedySplit Word text words rest) :
    words.flatten ++ rest = text := by
  induction h with
  | stop hnone => rfl
  | next hword htext ih => rw [List.flatten_cons, List.append_assoc, ih]

theorem GreedySplit.isWord (h : GreedySplit Word text words rest) : ∀ word ∈ words, Word word := by
  induction h with
  | stop hnone => simp
  | next hword htext ih => exact List.forall_mem_cons.mpr ⟨hword.isWord, ih⟩

theorem GreedySplit.noWord (h : GreedySplit Word text words rest) : NoWord Word rest := by
  induction h with
  | stop hnone => exact hnone
  | next hword htext ih => exact ih

theorem GreedySplit.unique
    (h : GreedySplit Word text words rest) (h' : GreedySplit Word text words' rest') :
    words = words' ∧ rest = rest' := by
  induction h generalizing words' with
  | stop hnone =>
      cases h' with
      | stop => exact ⟨rfl, rfl⟩
      | next hword => exact absurd hword.fits (hnone _ hword.isWord)
  | @next word text rest words hword htext ih =>
      generalize hwhole : word ++ text = whole at h'
      cases h' with
      | stop hnone => exact absurd (hwhole ▸ hword.fits) (hnone _ hword.isWord)
      | next hword' htext' =>
          obtain rfl := hword.unique (hwhole ▸ hword')
          obtain rfl := List.append_cancel_left hwhole
          obtain ⟨rfl, rfl⟩ := ih htext'
          exact ⟨rfl, rfl⟩

/-- Nothing is left when every letter is a word. -/
theorem GreedySplit.complete
    (h : GreedySplit Word text words rest) (hletters : ∀ k : κ, Word [k]) : rest = [] := by
  have hnone := h.noWord
  cases rest with
  | nil => rfl
  | cons k rest => exact absurd ⟨rest, rfl⟩ (hnone [k] (hletters k))

end Words

end RwkvLightning

import Mathlib.Data.List.Basic
import Mathlib.Data.List.Forall2

/-!
# Items between separators

A reader takes a value off the front of a text.  `readItems` reads a list of items with a
separator between them and a closing mark behind them, and passes over blanks.
`writeItems` writes such a list, with a gap of blanks in front of every item.

**Results.**
* `readItems_forall`: what holds of everything that is read holds of the items.
* `readItems_writeItems`: written items are read back, whatever stands behind them.
-/

namespace RwkvLightning
namespace Separated

universe u v

variable {β : Type u} {α : Type v}

/-- The text is read as `a`, whatever stands behind it. -/
def ReadsAs (read : List β → Option (α × List β)) (text : List β) (a : α) : Prop :=
  ∀ rest, read (text ++ rest) = some (a, rest)

/-- The text begins with something that is no blank. -/
def Starts (blank : β → Bool) (text : List β) : Prop :=
  ∃ c more, text = c :: more ∧ blank c = false

section Reading

variable [DecidableEq β] (blank : β → Bool) (separator closing : β)
  (read : List β → Option (α × List β))

/-- The items up to the closing mark; every pass reads one. -/
def readItems : ℕ → List β → Option (List α × List β)
  | 0, _ => none
  | passes + 1, text =>
      match read (text.dropWhile blank) with
      | none => none
      | some (first, rest) =>
          match rest.dropWhile blank with
          | [] => none
          | c :: rest =>
              if c = separator then
                (readItems passes rest).map fun found => (first :: found.1, found.2)
              else if c = closing then some ([first], rest)
              else none

end Reading

/-- What holds of everything that is read holds of the items. -/
theorem readItems_forall [DecidableEq β] {blank : β → Bool} {separator closing : β}
    {read : List β → Option (α × List β)} {P : α → Prop}
    (h : ∀ text a rest, read text = some (a, rest) → P a) {passes : ℕ} {text rest : List β}
    {values : List α}
    (hread : readItems blank separator closing read passes text = some (values, rest)) :
    ∀ a ∈ values, P a := by
  induction passes generalizing text values with
  | zero => cases hread
  | succ passes ih =>
      rw [readItems] at hread
      split at hread
      · cases hread
      · next first behind hfirst =>
          split at hread
          · cases hread
          · split at hread
            · obtain ⟨found, hfound, hsame⟩ := Option.map_eq_some_iff.mp hread
              cases hsame
              exact List.forall_mem_cons.mpr ⟨h _ _ _ hfirst, ih hfound⟩
            · split at hread
              · cases hread
                exact List.forall_mem_singleton.mpr (h _ _ _ hfirst)
              · cases hread

/-- Items with a gap in front of each and a separator between them. -/
def writeItems (gap : List β) (separator : β) : List (List β) → List β
  | [] => []
  | [item] => gap ++ item
  | item :: items => gap ++ item ++ separator :: writeItems gap separator items

section RoundTrip

variable {blank : β → Bool} {gap : List β}

theorem dropWhile_gap (hgap : ∀ c ∈ gap, blank c = true) {text : List β}
    (htext : Starts blank text) (rest : List β) :
    (gap ++ (text ++ rest)).dropWhile blank = text ++ rest := by
  obtain ⟨c, more, rfl, hc⟩ := htext
  rw [List.dropWhile_append_of_pos hgap, List.cons_append, List.dropWhile_cons_of_neg]
  rw [hc]
  exact Bool.false_ne_true

theorem dropWhile_mark (hgap : ∀ c ∈ gap, blank c = true) {mark : β} (hmark : blank mark = false)
    (rest : List β) : (gap ++ mark :: rest).dropWhile blank = mark :: rest :=
  dropWhile_gap hgap ⟨mark, [], rfl, hmark⟩ rest

theorem writeItems_cons_cons (gap : List β) (separator : β) (item next : List β)
    (items : List (List β)) : writeItems gap separator (item :: next :: items) =
      gap ++ item ++ separator :: writeItems gap separator (next :: items) := rfl

theorem writeItems_cons (gap : List β) (separator : β) (item : List β) (items : List (List β)) :
    ∃ behind, writeItems gap separator (item :: items) = gap ++ (item ++ behind) := by
  cases items with
  | nil => exact ⟨[], by rw [writeItems, List.append_nil]⟩
  | cons next items => exact ⟨_, by rw [writeItems_cons_cons, List.append_assoc]⟩

/-- An item takes at least one byte. -/
theorem length_le_writeItems (gap : List β) (separator : β) {items : List (List β)}
    (h : ∀ item ∈ items, Starts blank item) :
    items.length ≤ (writeItems gap separator items).length := by
  induction items with
  | nil => exact Nat.le_refl 0
  | cons item items ih =>
      have hrest := ih fun next hnext => h next (List.mem_cons_of_mem _ hnext)
      obtain ⟨c, more, rfl, -⟩ := h _ List.mem_cons_self
      cases items with
      | nil =>
          simp only [writeItems, List.length_append, List.length_cons, List.length_nil]
          omega
      | cons next items =>
          rw [writeItems_cons_cons]
          simp only [List.length_append, List.length_cons] at hrest ⊢
          omega

variable [DecidableEq β] {separator closing : β} {read : List β → Option (α × List β)}

theorem readItems_last (hgap : ∀ c ∈ gap, blank c = true) {last : List β}
    (hlast : ∀ c ∈ last, blank c = true) (hclosing : blank closing = false)
    (hne : closing ≠ separator) {item : List β} {a : α} (hstarts : Starts blank item)
    (hreads : ReadsAs read item a) (passes : ℕ) (rest : List β) :
    readItems blank separator closing read (passes + 1) (gap ++ item ++ (last ++ closing :: rest)) =
      some ([a], rest) := by
  rw [readItems, List.append_assoc, dropWhile_gap hgap hstarts, hreads]
  dsimp only
  rw [dropWhile_mark hlast hclosing]
  dsimp only
  rw [if_neg hne, if_pos rfl]

theorem readItems_more (hgap : ∀ c ∈ gap, blank c = true) (hseparator : blank separator = false)
    {item : List β} {a : α} (hstarts : Starts blank item) (hreads : ReadsAs read item a) (passes : ℕ)
    (rest : List β) :
    readItems blank separator closing read (passes + 1) (gap ++ item ++ separator :: rest) =
      (readItems blank separator closing read passes rest).map
        fun found => (a :: found.1, found.2) := by
  have hmark : (separator :: rest).dropWhile blank = separator :: rest :=
    dropWhile_mark (List.forall_mem_nil _) hseparator rest
  rw [readItems, List.append_assoc, dropWhile_gap hgap hstarts, hreads]
  dsimp only
  rw [hmark]
  dsimp only
  rw [if_pos rfl]

/-- Written items are read back. -/
theorem readItems_writeItems (hgap : ∀ c ∈ gap, blank c = true) {last : List β}
    (hlast : ∀ c ∈ last, blank c = true) (hseparator : blank separator = false)
    (hclosing : blank closing = false) (hne : closing ≠ separator) {items : List (List β)}
    {values : List α} (hstarts : ∀ item ∈ items, Starts blank item)
    (hreads : List.Forall₂ (ReadsAs read) items values) (hitems : items ≠ []) {passes : ℕ}
    (hpasses : items.length ≤ passes) (rest : List β) :
    readItems blank separator closing read passes
        (writeItems gap separator items ++ (last ++ closing :: rest)) = some (values, rest) := by
  induction hreads generalizing passes with
  | nil => exact absurd rfl hitems
  | @cons item a items values hitem hmore ih =>
      obtain ⟨hfirst, hothers⟩ := List.forall_mem_cons.mp hstarts
      obtain ⟨passes, rfl⟩ : ∃ m, passes = m + 1 := Nat.exists_eq_add_one.mpr (by grind)
      cases hmore with
      | nil => exact readItems_last hgap hlast hclosing hne hfirst hitem passes rest
      | @cons next b items values hnext hmore =>
          have hrest := ih hothers (List.cons_ne_nil _ _) (Nat.le_of_succ_le_succ hpasses)
          rw [writeItems_cons_cons, List.append_assoc, List.cons_append,
            readItems_more hgap hseparator hfirst hitem, hrest]
          rfl

end RoundTrip

end Separated
end RwkvLightning

import Mathlib.Data.List.Basic

/-!
# Well-formed UTF-8

A character is what Lean's `String.utf8EncodeChar` writes for a Unicode scalar value,
so there are no overlong forms, no surrogates and nothing above U+10FFFF.  A text is
well formed when it is a concatenation of characters.

`Repairs text out` says that `out` is the text with U+FFFD in the place of every byte
that belongs to no character.

**Results.**
* `isChar_one` to `isChar_four`: the bytes of a character, by the length of the
  sequence.
* `eq_of_prefix`: a text starts with at most one character.
* `Repairs.wellFormed`, `Repairs.emits`: a repaired text is well formed, and each
  character of the text stands in it after the repair of what comes before.
-/

namespace RwkvLightning
namespace Utf8

/-- The bytes of one character. -/
def IsChar (bytes : List UInt8) : Prop :=
  ∃ c : Char, bytes = String.utf8EncodeChar c

/-- The bytes of a text. -/
def WellFormed (bytes : List UInt8) : Prop :=
  ∃ cs : List Char, bytes = cs.flatMap String.utf8EncodeChar

/-- A byte that can follow the first byte of a character. -/
def Tail (b : UInt8) : Prop :=
  0x80 ≤ b.toNat ∧ b.toNat ≤ 0xBF

section Characters

theorem length_isChar
    {bytes : List UInt8} (h : IsChar bytes) :
    0 < bytes.length ∧ bytes.length ≤ 4 := by
  obtain ⟨c, rfl⟩ := h
  rw [String.length_utf8EncodeChar]
  exact ⟨c.utf8Size_pos, c.utf8Size_le_four⟩

/-- The range of a scalar value. -/
theorem char_range (c : Char) :
    c.val.toNat < 0xD800 ∨ 0xDFFF < c.val.toNat ∧ c.val.toNat < 0x110000 :=
  c.valid

/-- A scalar value is a character. -/
theorem exists_char
    {n : Nat} (h : n < 0xD800 ∨ 0xDFFF < n ∧ n < 0x110000) :
    ∃ c : Char, c.val.toNat = n := by
  have hsize : n < 2 ^ 32 := by omega
  have hval : (UInt32.ofNat n).toNat = n := by
    rw [UInt32.toNat_ofNat', Nat.mod_eq_of_lt hsize]
  refine ⟨⟨UInt32.ofNat n, ?_⟩, hval⟩
  show (UInt32.ofNat n).toNat < 0xD800 ∨ _
  rw [hval]
  exact h

/-- The number of a byte that was written from a number. -/
theorem toNat_of_eq
    {b : UInt8} {n : Nat} (h : b = UInt8.ofNat n) (hn : n < 256) :
    b.toNat = n := by
  rw [h, UInt8.toNat_ofNat', Nat.mod_eq_of_lt hn]

theorem eq_of_toNat
    {b : UInt8} {n : Nat} (h : b.toNat = n) :
    b = UInt8.ofNat n := by
  rw [← h, UInt8.ofNat_toNat]

theorem isChar_one {a : UInt8} :
    IsChar [a] ↔ a.toNat ≤ 0x7F := by
  constructor
  · rintro ⟨c, hc⟩
    unfold String.utf8EncodeChar at hc
    dsimp only at hc
    split at hc
    · rename_i hsmall
      have ha : a = UInt8.ofNat c.val.toNat := by simpa using hc
      rw [toNat_of_eq ha (by omega)]
      exact hsmall
    · split at hc
      · simp at hc
      · split at hc <;> simp at hc
  · intro h
    obtain ⟨c, hc⟩ := @exists_char a.toNat (by omega)
    refine ⟨c, ?_⟩
    unfold String.utf8EncodeChar
    dsimp only
    rw [hc, if_pos h, UInt8.ofNat_toNat]

theorem isChar_two {a b : UInt8} :
    IsChar [a, b] ↔ (0xC2 ≤ a.toNat ∧ a.toNat ≤ 0xDF) ∧ Tail b := by
  constructor
  · rintro ⟨c, hc⟩
    unfold String.utf8EncodeChar at hc
    dsimp only at hc
    split at hc
    · simp at hc
    · split at hc
      · simp only [List.cons.injEq, and_true] at hc
        have ha := toNat_of_eq hc.1 (by omega)
        have hb := toNat_of_eq hc.2 (by omega)
        rw [Tail]
        omega
      · split at hc <;> simp at hc
  · rintro ⟨ha, hb⟩
    rw [Tail] at hb
    obtain ⟨c, hc⟩ := @exists_char ((a.toNat - 0xC0) * 64 + (b.toNat - 0x80)) (by omega)
    refine ⟨c, ?_⟩
    unfold String.utf8EncodeChar
    dsimp only
    rw [hc, if_neg (by omega), if_pos (by omega)]
    simp only [List.cons.injEq, and_true]
    exact ⟨eq_of_toNat (by omega), eq_of_toNat (by omega)⟩

/-- The second byte is restricted after 0xE0 (no overlong form) and 0xED (no surrogate). -/
theorem isChar_three {a b c : UInt8} :
    IsChar [a, b, c] ↔ (0xE0 ≤ a.toNat ∧ a.toNat ≤ 0xEF) ∧ Tail b ∧ Tail c ∧
      (a.toNat = 0xE0 → 0xA0 ≤ b.toNat) ∧ (a.toNat = 0xED → b.toNat ≤ 0x9F) := by
  constructor
  · rintro ⟨d, hd⟩
    have hrange := char_range d
    unfold String.utf8EncodeChar at hd
    dsimp only at hd
    split at hd
    · simp at hd
    · split at hd
      · simp at hd
      · split at hd
        · simp only [List.cons.injEq, and_true] at hd
          have ha := toNat_of_eq hd.1 (by omega)
          have hb := toNat_of_eq hd.2.1 (by omega)
          have hc := toNat_of_eq hd.2.2 (by omega)
          simp only [Tail]
          omega
        · simp at hd
  · rintro ⟨ha, hb, hc, hlow, hhigh⟩
    simp only [Tail] at hb hc
    obtain ⟨d, hd⟩ := @exists_char
      ((a.toNat - 0xE0) * 4096 + (b.toNat - 0x80) * 64 + (c.toNat - 0x80)) (by omega)
    refine ⟨d, ?_⟩
    unfold String.utf8EncodeChar
    dsimp only
    rw [hd, if_neg (by omega), if_neg (by omega), if_pos (by omega)]
    simp only [List.cons.injEq, and_true]
    exact ⟨eq_of_toNat (by omega), eq_of_toNat (by omega), eq_of_toNat (by omega)⟩

/-- The second byte is restricted after 0xF0 (no overlong form) and 0xF4 (U+10FFFF). -/
theorem isChar_four {a b c d : UInt8} :
    IsChar [a, b, c, d] ↔ (0xF0 ≤ a.toNat ∧ a.toNat ≤ 0xF4) ∧ Tail b ∧ Tail c ∧ Tail d ∧
      (a.toNat = 0xF0 → 0x90 ≤ b.toNat) ∧ (a.toNat = 0xF4 → b.toNat ≤ 0x8F) := by
  constructor
  · rintro ⟨e, he⟩
    have hrange := char_range e
    unfold String.utf8EncodeChar at he
    dsimp only at he
    split at he
    · simp at he
    · split at he
      · simp at he
      · split at he
        · simp at he
        · simp only [List.cons.injEq, and_true] at he
          have ha := toNat_of_eq he.1 (by omega)
          have hb := toNat_of_eq he.2.1 (by omega)
          have hc := toNat_of_eq he.2.2.1 (by omega)
          have hd := toNat_of_eq he.2.2.2 (by omega)
          simp only [Tail]
          omega
  · rintro ⟨ha, hb, hc, hd, hlow, hhigh⟩
    simp only [Tail] at hb hc hd
    obtain ⟨e, he⟩ := @exists_char
      ((a.toNat - 0xF0) * 262144 + (b.toNat - 0x80) * 4096 + (c.toNat - 0x80) * 64 +
        (d.toNat - 0x80)) (by omega)
    refine ⟨e, ?_⟩
    unfold String.utf8EncodeChar
    dsimp only
    rw [he, if_neg (by omega), if_neg (by omega), if_neg (by omega)]
    simp only [List.cons.injEq, and_true]
    exact ⟨eq_of_toNat (by omega), eq_of_toNat (by omega), eq_of_toNat (by omega),
      eq_of_toNat (by omega)⟩

/-- The first byte of a character says how many tails follow. -/
def LeadOf (a : UInt8) (tails : Nat) : Prop :=
  tails = 0 ∧ a.toNat ≤ 0x7F ∨ tails = 1 ∧ 0xC2 ≤ a.toNat ∧ a.toNat ≤ 0xDF ∨
    tails = 2 ∧ 0xE0 ≤ a.toNat ∧ a.toNat ≤ 0xEF ∨ tails = 3 ∧ 0xF0 ≤ a.toNat ∧ a.toNat ≤ 0xF4

/-- A character is a first byte and its tails. -/
theorem isChar_shape
    {bytes : List UInt8} (h : IsChar bytes) :
    ∃ a rest, bytes = a :: rest ∧ LeadOf a rest.length ∧ ∀ b ∈ rest, Tail b := by
  obtain ⟨hpos, hle⟩ := length_isChar h
  match bytes, h, hpos, hle with
  | [a], h, _, _ =>
      exact ⟨a, [], rfl, Or.inl ⟨rfl, isChar_one.mp h⟩, by simp⟩
  | [a, b], h, _, _ =>
      obtain ⟨ha, hb⟩ := isChar_two.mp h
      exact ⟨a, [b], rfl, Or.inr (Or.inl ⟨rfl, ha⟩), by simpa using hb⟩
  | [a, b, c], h, _, _ =>
      obtain ⟨ha, hb, hc, -⟩ := isChar_three.mp h
      exact ⟨a, [b, c], rfl, Or.inr (Or.inr (Or.inl ⟨rfl, ha⟩)), by simp [hb, hc]⟩
  | [a, b, c, d], h, _, _ =>
      obtain ⟨ha, hb, hc, hd, -⟩ := isChar_four.mp h
      exact ⟨a, [b, c, d], rfl, Or.inr (Or.inr (Or.inr ⟨rfl, ha⟩)), by simp [hb, hc, hd]⟩

theorem LeadOf.not_tail {a : UInt8} {tails : Nat} (h : LeadOf a tails) : ¬ Tail a := by
  rintro ⟨hlow, hhigh⟩
  rw [LeadOf] at h
  omega

/-- A character cannot be cut: what is left of it starts with a tail. -/
theorem tail_of_append
    {xs ys : List UInt8} {b : UInt8} (h : IsChar (xs ++ b :: ys)) (hxs : xs ≠ []) :
    Tail b := by
  obtain ⟨a, rest, heq, -, htails⟩ := isChar_shape h
  cases xs with
  | nil => exact absurd rfl hxs
  | cons x xs =>
      rw [List.cons_append, List.cons.injEq] at heq
      exact htails b (by rw [← heq.2]; simp)

/-- One character is not a part of another. -/
theorem eq_of_isChar_append
    {c rest : List UInt8} (hc : IsChar c) (h : IsChar (c ++ rest)) :
    rest = [] := by
  obtain ⟨a, tails, rfl, hlead, -⟩ := isChar_shape hc
  obtain ⟨a', tails', heq, hlead', -⟩ := isChar_shape h
  rw [List.cons_append, List.cons.injEq] at heq
  obtain ⟨rfl, rfl⟩ := heq
  rw [LeadOf, List.length_append] at hlead'
  rw [LeadOf] at hlead
  exact List.length_eq_zero_iff.mp (by omega)

/-- A text starts with at most one character. -/
theorem eq_of_prefix
    {c c' rest rest' : List UInt8} (hc : IsChar c) (hc' : IsChar c')
    (h : c ++ rest = c' ++ rest') :
    c = c' ∧ rest = rest' := by
  rcases List.append_eq_append_iff.mp h with ⟨more, rfl, rfl⟩ | ⟨more, rfl, rfl⟩
  · have hmore := eq_of_isChar_append hc hc'
    simp [hmore]
  · have hmore := eq_of_isChar_append hc' hc
    simp [hmore]

end Characters

section Texts

theorem wellFormed_nil : WellFormed [] :=
  ⟨[], rfl⟩

theorem wellFormed_char
    {bytes : List UInt8} (h : IsChar bytes) :
    WellFormed bytes := by
  obtain ⟨c, rfl⟩ := h
  exact ⟨[c], by simp⟩

theorem WellFormed.append
    {xs ys : List UInt8} (hx : WellFormed xs) (hy : WellFormed ys) :
    WellFormed (xs ++ ys) := by
  obtain ⟨cs, rfl⟩ := hx
  obtain ⟨ds, rfl⟩ := hy
  exact ⟨cs ++ ds, by rw [List.flatMap_append]⟩

/-- Texts are built from characters at the front. -/
theorem WellFormed.induction
    {motive : List UInt8 → Prop} {bytes : List UInt8} (h : WellFormed bytes)
    (nil : motive [])
    (cons : ∀ c rest, IsChar c → WellFormed rest → motive rest → motive (c ++ rest)) :
    motive bytes := by
  obtain ⟨cs, rfl⟩ := h
  induction cs with
  | nil => exact nil
  | cons c cs ih =>
      rw [List.flatMap_cons]
      exact cons _ _ ⟨c, rfl⟩ ⟨cs, rfl⟩ ih

/-- What is left behind a character is well formed. -/
theorem WellFormed.of_char_append
    {c rest : List UInt8} (h : WellFormed (c ++ rest)) (hc : IsChar c) :
    WellFormed rest := by
  obtain ⟨cs, hcs⟩ := h
  cases cs with
  | nil =>
      have hnil := (List.append_eq_nil_iff.mp hcs).1
      exact absurd (length_isChar hc).1 (by simp [hnil])
  | cons d cs =>
      rw [List.flatMap_cons] at hcs
      obtain ⟨-, rfl⟩ := eq_of_prefix hc ⟨d, rfl⟩ hcs
      exact ⟨cs, rfl⟩

/-- What is left in front of a character is well formed. -/
theorem WellFormed.of_append_char
    {text c : List UInt8} (h : WellFormed (text ++ c)) (hc : IsChar c) :
    WellFormed text := by
  generalize hbytes : text ++ c = bytes at h
  refine h.induction
    (motive := fun bytes => ∀ text, text ++ c = bytes → WellFormed text) ?_ ?_ text hbytes
  · intro text htext
    rw [(List.append_eq_nil_iff.mp htext).1]
    exact wellFormed_nil
  · intro d rest hd hrest ih text htext
    obtain ⟨a, tails, rfl, hlead, -⟩ := isChar_shape hc
    rcases List.append_eq_append_iff.mp htext with ⟨more, hfront, hmore⟩ | ⟨more, hfront, hmore⟩
    · -- The text ends within the character in front, so it is empty or that character.
      cases text with
      | nil => exact wellFormed_nil
      | cons x text =>
          cases more with
          | nil =>
              rw [List.append_nil] at hfront
              exact hfront ▸ wellFormed_char hd
          | cons b more =>
              rw [hfront] at hd
              have htail := tail_of_append hd (List.cons_ne_nil x text)
              rw [List.cons_append, List.cons.injEq] at hmore
              exact absurd (hmore.1 ▸ htail) hlead.not_tail
    · rw [hfront]
      exact (wellFormed_char hd).append (ih more hmore.symm)

/-- A text of bytes below 0x80 is well formed. -/
theorem wellFormed_ascii
    {bytes : List UInt8} (h : ∀ b ∈ bytes, b.toNat ≤ 0x7F) :
    WellFormed bytes := by
  induction bytes with
  | nil => exact wellFormed_nil
  | cons b bytes ih =>
      rw [List.forall_mem_cons] at h
      exact (wellFormed_char (isChar_one.mpr h.1)).append (ih h.2)

end Texts

section Repair

/-- U+FFFD. -/
def replacement : List UInt8 :=
  String.utf8EncodeChar '\uFFFD'

/-- `out` is the text with U+FFFD in the place of every byte outside its characters. -/
inductive Repairs : List UInt8 → List UInt8 → Prop
  | nil : Repairs [] []
  | char {c rest out : List UInt8} :
      IsChar c → Repairs rest out → Repairs (c ++ rest) (c ++ out)
  | bad {b : UInt8} {rest out : List UInt8} :
      (∀ c, IsChar c → ¬ c <+: b :: rest) → Repairs rest out →
        Repairs (b :: rest) (replacement ++ out)

theorem Repairs.wellFormed
    {text out : List UInt8} (h : Repairs text out) :
    WellFormed out := by
  induction h with
  | nil => exact wellFormed_nil
  | char hc _ ih => exact (wellFormed_char hc).append ih
  | bad _ _ ih => exact (wellFormed_char ⟨_, rfl⟩).append ih

/-- A character is emitted after the repair of what comes before it. -/
theorem Repairs.emits
    {pre c post out : List UInt8} (h : Repairs (pre ++ c ++ post) out) (hc : IsChar c) :
    ∃ x y, out = x ++ c ++ y ∧ Repairs pre x ∧ Repairs post y := by
  obtain ⟨a, tails, rfl, hlead, -⟩ := isChar_shape hc
  have ha := hlead.not_tail
  generalize htext : pre ++ (a :: tails) ++ post = text at h
  induction h generalizing pre with
  | nil => simp at htext
  | @char c₀ rest out hc₀ hrest ih =>
      rw [List.append_assoc] at htext
      rcases List.append_eq_append_iff.mp htext with ⟨more, hpre, hmore⟩ | ⟨more, hpre, hmore⟩
      · -- The first character reaches at least to the end of `pre`.
        cases pre with
        | nil =>
            rw [List.nil_append] at htext
            obtain ⟨rfl, rfl⟩ := eq_of_prefix hc hc₀ htext
            exact ⟨[], out, rfl, Repairs.nil, hrest⟩
        | cons p pre =>
            cases more with
            | nil =>
                rw [List.append_nil] at hpre
                subst hpre
                rw [List.nil_append] at hmore
                obtain ⟨x, y, rfl, hx, hy⟩ := @ih [] (by rw [List.nil_append]; exact hmore)
                have hpre' : Repairs ((p :: pre) ++ []) ((p :: pre) ++ x) :=
                  Repairs.char hc₀ hx
                rw [List.append_nil] at hpre'
                exact ⟨(p :: pre) ++ x, y, by simp, hpre', hy⟩
            | cons m more =>
                rw [List.cons_append, List.cons_append, List.cons.injEq] at hmore
                rw [hpre, ← hmore.1] at hc₀
                exact absurd (tail_of_append hc₀ (by simp)) ha
      · subst hpre
        obtain ⟨x, y, rfl, hx, hy⟩ := @ih more (by rw [List.append_assoc]; exact hmore.symm)
        exact ⟨c₀ ++ x, y, by simp, Repairs.char hc₀ hx, hy⟩
  | @bad b rest out hbad hrest ih =>
      cases pre with
      | nil =>
          refine absurd ⟨post, ?_⟩ (hbad _ hc)
          simpa using htext
      | cons p pre =>
          rw [List.cons_append, List.cons_append, List.cons.injEq] at htext
          obtain ⟨rfl, htext⟩ := htext
          obtain ⟨x, y, rfl, hx, hy⟩ := ih htext
          refine ⟨replacement ++ x, y, by simp, Repairs.bad ?_ hx, hy⟩
          intro c' hc' hpre
          refine hbad c' hc' (hpre.trans ?_)
          rw [← htext]
          exact ⟨a :: tails ++ post, by simp⟩

end Repair

end Utf8
end RwkvLightning

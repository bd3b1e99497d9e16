import Mathlib.Logic.Basic

/-!
# Computations that fail or take note

A computation ends with a value or an error, and says whether a certain event has
been noted on the way (an arithmetic overflow, say).  The event does not stop it.

`Acts E c o` compares a computation with a function to `Option`: without a note,
`c` ends with the value of `o`, or with an error that is `E` where `o` is `none`.

**Results.**
* `acts_pure`, `acts_fail`, `acts_bind`, `acts_ite`: a rule for each way to build a
  computation.
* `noted_bind`: what was noted stays noted.
* `clean_bind_iff`, `clean_noteIf_iff`, `clean_fail_iff`: when a computation goes without a
  note and without one of the errors in question.
* `Yields.bind` and so on: what holds of the value of a computation that ends with one.
-/

namespace RwkvLightning

universe u v

/-- A value of type `α` or an error, and whether the event was noted. -/
structure Checked (ε : Type u) (α : Type v) where
  result : Except ε α
  noted : Bool

namespace Checked

variable {ε : Type u} {α β : Type v}

/-- Go on with the value of a computation. -/
def next (c : Checked ε α) (f : α → Checked ε β) : Checked ε β :=
  match c.result with
  | .ok a => { result := (f a).result, noted := c.noted || (f a).noted }
  | .error e => { result := .error e, noted := c.noted }

instance : Monad (Checked ε) where
  pure a := { result := .ok a, noted := false }
  bind := next

/-- End with an error. -/
def fail (e : ε) : Checked ε α :=
  { result := .error e, noted := false }

/-- A value that comes with a note where `event` holds. -/
def noteIf (event : Bool) (a : α) : Checked ε α :=
  { result := .ok a, noted := event }

@[simp] theorem pure_bind (a : α) (f : α → Checked ε β) : (pure a >>= f) = f a := by
  show next _ f = f a
  simp [next, pure]

@[simp] theorem fail_bind (e : ε) (f : α → Checked ε β) : (fail e >>= f) = fail e := rfl

theorem bind_pure (c : Checked ε α) : (c >>= pure) = c := by
  obtain ⟨result, noted⟩ := c
  cases result <;> cases noted <;> rfl

theorem bind_assoc {γ : Type v} (c : Checked ε α) (f : α → Checked ε β) (g : β → Checked ε γ) :
    (c >>= f >>= g) = (c >>= fun a => f a >>= g) := by
  show next (next c f) g = next c fun a => next (f a) g
  cases hc : c.result with
  | error e => simp [next, hc]
  | ok a =>
      cases hf : (f a).result with
      | error e => simp [next, hc, hf]
      | ok b => simp [next, hc, hf, Bool.or_assoc]

@[simp] theorem noteIf_false (a : α) : (noteIf false a : Checked ε α) = pure a := rfl

theorem noteIf_true_bind (a : α) (f : α → Checked ε β) :
    (noteIf true a >>= f) = { f a with noted := true } := by
  show next _ f = _
  simp [next, noteIf]

theorem result_bind_error {c : Checked ε α} {e : ε} (h : c.result = .error e)
    (f : α → Checked ε β) : (c >>= f).result = .error e := by
  show (next c f).result = .error e
  rw [next, h]

theorem result_bind_ok {c : Checked ε α} {a : α} (h : c.result = .ok a)
    (f : α → Checked ε β) : (c >>= f).result = (f a).result := by
  show (next c f).result = (f a).result
  rw [next, h]

/-- A computation that ends with a value has gone through both parts. -/
theorem result_bind_eq_ok {c : Checked ε α} {f : α → Checked ε β} {b : β}
    (h : (c >>= f).result = .ok b) : ∃ a, c.result = .ok a ∧ (f a).result = .ok b := by
  cases hc : c.result with
  | ok a => exact ⟨a, rfl, (result_bind_ok hc f).symm.trans h⟩
  | error e =>
      rw [result_bind_error hc] at h
      cases h

/-- The rest of a computation only matters at the value that the first part ends with. -/
theorem bind_congr {c : Checked ε α} {f g : α → Checked ε β}
    (h : ∀ a, c.result = .ok a → f a = g a) : (c >>= f) = (c >>= g) := by
  show next c f = next c g
  rw [next, next]
  split
  · rename_i a hc
    rw [h a hc]
  · rfl

/-- What was noted stays noted. -/
theorem noted_bind {c : Checked ε α} (h : c.noted = true) (f : α → Checked ε β) :
    (c >>= f).noted = true := by
  show (next c f).noted = true
  rw [next]
  split
  · simp [h]
  · exact h

theorem unnoted_left {c : Checked ε α} {f : α → Checked ε β}
    (h : (c >>= f).noted = false) : c.noted = false := by
  cases hc : c.noted with
  | false => rfl
  | true => rw [noted_bind hc f] at h; exact h

/-- The computation ends as `o` says, without a note. -/
def Acts (E : ε → Prop) (c : Checked ε α) (o : Option α) : Prop :=
  (∃ a, o = some a ∧ c = pure a) ∨ (o = none ∧ ∃ e, E e ∧ c = fail e)

section Rules

variable {E : ε → Prop} {c : Checked ε α} {o : Option α}

theorem acts_pure (a : α) : Acts E (pure a) (some a) :=
  Or.inl ⟨a, rfl, rfl⟩

theorem acts_fail {e : ε} (h : E e) : Acts E (fail e : Checked ε α) none :=
  Or.inr ⟨rfl, e, h, rfl⟩

theorem acts_bind {f : α → Checked ε β} {g : α → Option β}
    (hc : Acts E c o) (hf : ∀ a, o = some a → Acts E (f a) (g a)) :
    Acts E (c >>= f) (o.bind g) := by
  rcases hc with ⟨a, rfl, rfl⟩ | ⟨rfl, e, he, rfl⟩
  · rw [pure_bind]
    exact hf a rfl
  · rw [fail_bind]
    exact acts_fail he

theorem acts_ite {p : Prop} [Decidable p] {c' : Checked ε α} {o' : Option α}
    (hc : p → Acts E c o) (hc' : ¬p → Acts E c' o') :
    Acts E (if p then c else c') (if p then o else o') := by
  by_cases hp : p
  · rw [if_pos hp, if_pos hp]
    exact hc hp
  · rw [if_neg hp, if_neg hp]
    exact hc' hp

theorem Acts.eq_pure (h : Acts E c o) {a : α} (ho : o = some a) : c = pure a := by
  rcases h with ⟨a', ho', hc⟩ | ⟨ho', -⟩
  · rw [ho] at ho'
    rw [hc, Option.some.inj ho']
  · rw [ho] at ho'
    simp at ho'

theorem Acts.eq_some (h : Acts E c o) {a : α} (hc : c.result = .ok a) : o = some a := by
  rcases h with ⟨a', ho, rfl⟩ | ⟨-, e, -, rfl⟩
  · exact ho.trans (congrArg some (Except.ok.inj hc))
  · cases hc

theorem Acts.eq_fail (h : Acts E c o) (ho : o = none) : ∃ e, E e ∧ c = fail e := by
  rcases h with ⟨a', ho', -⟩ | ⟨-, he⟩
  · rw [ho] at ho'
    simp at ho'
  · exact he

end Rules

/-- Nothing was noted, and the computation did not end with a bad error. -/
structure Clean (Bad : ε → Prop) (c : Checked ε α) : Prop where
  unnoted : c.noted = false
  error : ∀ e, c.result = .error e → ¬Bad e

section Clean

variable {Bad : ε → Prop} {c : Checked ε α} {f : α → Checked ε β}

theorem clean_pure (a : α) : Clean Bad (pure a) where
  unnoted := rfl
  error := by
    rintro e he
    cases he

theorem clean_fail_iff {e : ε} : Clean Bad (fail e : Checked ε α) ↔ ¬Bad e := by
  constructor
  · intro h
    exact h.error e rfl
  · intro h
    refine { unnoted := rfl, error := ?_ }
    rintro e' he'
    exact Except.error.inj he' ▸ h

theorem clean_bind_iff :
    Clean Bad (c >>= f) ↔ Clean Bad c ∧ ∀ a, c.result = .ok a → Clean Bad (f a) := by
  obtain ⟨result, noted⟩ := c
  cases result with
  | error e =>
      have hbind : (({ result := .error e, noted := noted } : Checked ε α) >>= f) =
          { result := .error e, noted := noted } := rfl
      rw [hbind]
      constructor
      · intro h
        refine ⟨{ unnoted := h.unnoted, error := ?_ }, ?_⟩
        · rintro e' he'
          exact Except.error.inj he' ▸ h.error e rfl
        · rintro a ha
          cases ha
      · rintro ⟨h, -⟩
        refine { unnoted := h.unnoted, error := ?_ }
        rintro e' he'
        exact Except.error.inj he' ▸ h.error e rfl
  | ok a =>
      have hbind : (({ result := .ok a, noted := noted } : Checked ε α) >>= f) =
          { result := (f a).result, noted := noted || (f a).noted } := rfl
      rw [hbind]
      constructor
      · intro h
        obtain ⟨hleft, hright⟩ := Bool.or_eq_false_iff.mp h.unnoted
        refine ⟨{ unnoted := hleft, error := ?_ }, ?_⟩
        · rintro e he
          cases he
        · rintro a' ha'
          obtain rfl := Except.ok.inj ha'
          exact { unnoted := hright, error := h.error }
      · rintro ⟨h, hrest⟩
        have hf := hrest a rfl
        exact { unnoted := Bool.or_eq_false_iff.mpr ⟨h.unnoted, hf.unnoted⟩, error := hf.error }

/-- A first part after which nothing can go wrong. -/
theorem clean_bind_left (h : Clean Bad c → ∀ a, Clean Bad (f a)) :
    Clean Bad (c >>= f) ↔ Clean Bad c :=
  clean_bind_iff.trans (and_iff_left_of_imp fun hc a _ => h hc a)

theorem clean_noteIf_iff {event : Bool} {a : α} :
    Clean Bad (noteIf event a >>= f) ↔ event = false ∧ Clean Bad (f a) := by
  rw [clean_bind_iff]
  constructor
  · rintro ⟨h, hrest⟩
    exact ⟨h.unnoted, hrest a rfl⟩
  · rintro ⟨hevent, hrest⟩
    refine ⟨hevent ▸ clean_pure a, fun a' ha' => ?_⟩
    exact Except.ok.inj ha' ▸ hrest

end Clean

/-- Whatever value the computation ends with, `P` holds of it. -/
def Yields (P : α → Prop) (c : Checked ε α) : Prop :=
  ∀ a, c.result = .ok a → P a

section Yields

variable {P : α → Prop} {Q : β → Prop} {c c' : Checked ε α} {f : α → Checked ε β}

theorem yields_pure {a : α} (h : P a) : Yields P (pure a : Checked ε α) := by
  rintro a' ha'
  exact Except.ok.inj ha' ▸ h

theorem yields_fail (e : ε) : Yields P (fail e) := by
  rintro a' ha'
  cases ha'

theorem Yields.bind (hc : Yields P c) (hf : ∀ a, P a → Yields Q (f a)) : Yields Q (c >>= f) := by
  rintro b hb
  obtain ⟨a, ha, hfa⟩ := result_bind_eq_ok hb
  exact hf a (hc a ha) b hfa

/-- What was read does not matter. -/
theorem yields_read {f : α → Checked ε β} (hf : ∀ a, Yields Q (f a)) : Yields Q (c >>= f) :=
  Yields.bind (fun _ _ => trivial) fun a (_ : True) => hf a

theorem yields_ite {p : Prop} [Decidable p] (hc : Yields P c) (hc' : Yields P c') :
    Yields P (if p then c else c') := by
  split
  · exact hc
  · exact hc'

end Yields

/-- The computation ends with a value, or with a bad error. -/
def OnlyFails (Bad : ε → Prop) (c : Checked ε α) : Prop :=
  ∀ e, c.result = .error e → Bad e

section OnlyFails

variable {Bad : ε → Prop} {c : Checked ε α} {f : α → Checked ε β}

theorem onlyFails_pure (a : α) : OnlyFails Bad (pure a) := by
  rintro e he
  cases he

theorem onlyFails_fail {e : ε} (h : Bad e) : OnlyFails Bad (fail e : Checked ε α) := by
  rintro e' he'
  exact Except.error.inj he' ▸ h

theorem OnlyFails.bind (hc : OnlyFails Bad c) (hf : ∀ a, OnlyFails Bad (f a)) :
    OnlyFails Bad (c >>= f) := by
  rintro e he
  cases hc' : c.result with
  | error e' =>
      rw [result_bind_error hc'] at he
      exact Except.error.inj he ▸ hc e' hc'
  | ok a =>
      rw [result_bind_ok hc'] at he
      exact hf a e he

theorem Clean.result_ok (h : Clean Bad c) (hc : OnlyFails Bad c) : ∃ a, c.result = .ok a := by
  cases hresult : c.result with
  | ok a => exact ⟨a, rfl⟩
  | error e => exact absurd (hc e hresult) (h.error e hresult)

/-- Two parts, neither of which can fail otherwise. -/
theorem clean_seq_iff {d : Checked ε β} (hc : OnlyFails Bad c) :
    Clean Bad (c >>= fun _ => d) ↔ Clean Bad c ∧ Clean Bad d := by
  rw [clean_bind_iff]
  refine and_congr_right fun h => ?_
  obtain ⟨a, ha⟩ := h.result_ok hc
  exact ⟨fun hd => hd a ha, fun hd _ _ => hd⟩

end OnlyFails

end Checked
end RwkvLightning

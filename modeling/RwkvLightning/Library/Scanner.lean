import Mathlib.Logic.Basic

/-!
# Scanners

A scanner moves a state on and returns a value, or fails.

`Ends o P result` says how a scan ends: with the value of `o` in a state where `P` holds,
or with an error where there is no value.

**Results.**
* `ends_bind`, `ends_next`, `ends_map`: a rule for each way to go on behind a scan.
* `exists_of_bind`: what two scans that have ended in turn have done.
-/

namespace RwkvLightning
namespace Scanner

universe u

variable {σ ε : Type u} {α β : Type u} {s after : σ}

theorem bind_ok {p : StateT σ (Except ε) α} {f : α → StateT σ (Except ε) β} {a : α}
    (h : p s = .ok (a, after)) : (p >>= f) s = f a after := by
  have hbind : (p >>= f) s = (p s >>= fun r => f r.1 r.2) := rfl
  rw [hbind, h]
  rfl

theorem bind_error {p : StateT σ (Except ε) α} {f : α → StateT σ (Except ε) β} {e : ε}
    (h : p s = .error e) : (p >>= f) s = .error e := by
  have hbind : (p >>= f) s = (p s >>= fun r => f r.1 r.2) := rfl
  rw [hbind, h]
  rfl

theorem exists_of_bind {p : StateT σ (Except ε) α} {f : α → StateT σ (Except ε) β} {b : β}
    (h : (p >>= f) s = .ok (b, after)) : ∃ a mid, p s = .ok (a, mid) ∧ f a mid = .ok (b, after) := by
  cases hp : p s with
  | error e =>
      rw [bind_error hp] at h
      cases h
  | ok found =>
      rw [bind_ok hp] at h
      exact ⟨found.1, found.2, rfl, h⟩

/-- A scan ends with the value of `o` in a state where `P` holds, or fails if there is no
value. -/
def Ends (o : Option α) (P : σ → Prop) (result : Except ε (α × σ)) : Prop :=
  match o with
  | some a => ∃ after, result = .ok (a, after) ∧ P after
  | none => ∃ e, result = .error e

theorem ends_bind {o : Option α} {g : α → Option β} {P Q : σ → Prop}
    {p : StateT σ (Except ε) α} {f : α → StateT σ (Except ε) β} (hp : Ends o P (p s))
    (hf : ∀ a after, o = some a → P after → Ends (g a) Q (f a after)) :
    Ends (o.bind g) Q ((p >>= f) s) := by
  cases o with
  | none =>
      obtain ⟨e, herror⟩ := hp
      exact ⟨e, bind_error herror⟩
  | some a =>
      obtain ⟨after, hok, hafter⟩ := hp
      rw [bind_ok hok]
      exact hf a after rfl hafter

/-- A scan that cannot fail comes first. -/
theorem ends_next {a : α} {o : Option β} {P Q : σ → Prop} {p : StateT σ (Except ε) α}
    {f : α → StateT σ (Except ε) β} (hp : Ends (some a) P (p s))
    (hf : ∀ after, P after → Ends o Q (f a after)) : Ends o Q ((p >>= f) s) :=
  ends_bind (g := fun _ => o) hp fun _ after hsame hafter => Option.some.inj hsame ▸ hf after hafter

theorem ends_map {o : Option α} {P : σ → Prop} {p : StateT σ (Except ε) α} {f : α → β}
    (hp : Ends o P (p s)) : Ends (o.map f) P ((p >>= fun a => pure (f a)) s) := by
  rw [Option.map_eq_bind]
  exact ends_bind hp fun a after _ hafter => ⟨after, rfl, hafter⟩

theorem Ends.imp {o : Option α} {P Q : σ → Prop} {result : Except ε (α × σ)}
    (h : Ends o P result) (hPQ : ∀ after, P after → Q after) : Ends o Q result := by
  cases o with
  | none => exact h
  | some a =>
      obtain ⟨after, hok, hafter⟩ := h
      exact ⟨after, hok, hPQ after hafter⟩

end Scanner
end RwkvLightning

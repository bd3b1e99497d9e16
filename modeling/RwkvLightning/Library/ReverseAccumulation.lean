import Mathlib.Algebra.BigOperators.Group.List.Basic
import Mathlib.Tactic

/-!
# Reverse accumulation along a recurrence

A recurrence reads rows from left to right and carries a state.  Its reverse
pass carries an adjoint from right to left and collects, for every row, a
contribution to a gradient and to a loss.  Each row is differentiated at the
state that the forward pass had when it reached the row.

**Results.**
* `sweep_append`: the pass over a concatenation is the pass over the right part,
  followed by the pass over the left part from the adjoint so obtained.  The
  right part only needs the state at the boundary.
* `sweep_silent`: rows that contribute nothing may be dropped from the end.
-/

namespace RwkvLightning
namespace ReverseAccumulation

universe u v w x y

/-- A recurrence with the reverse rule of one row. -/
structure Recurrence (σ : Type u) (ρ : Type v) (α : Type w) (γ : Type x) (κ : Type y) where
  /-- The state after a row. -/
  next : σ → ρ → σ
  /-- The adjoint before the row and the contribution of the row to the gradient. -/
  pull : σ → ρ → α → α × γ
  /-- The loss of the row. -/
  loss : σ → ρ → κ

/-- What a reverse pass leaves behind. -/
@[ext] structure Swept (α : Type w) (γ : Type x) (κ : Type y) where
  adjoint : α
  gradient : γ
  loss : κ

section Passes

variable {σ : Type u} {ρ : Type v} {α : Type w} {γ : Type x} {κ : Type y}
variable {r : Recurrence σ ρ α γ κ}

/-- The forward pass. -/
def run (r : Recurrence σ ρ α γ κ) (s : σ) (rows : List ρ) : σ :=
  rows.foldl r.next s

@[simp] theorem run_nil (s : σ) : run r s [] = s := rfl

@[simp] theorem run_cons (s : σ) (row : ρ) (rows : List ρ) :
    run r s (row :: rows) = run r (r.next s row) rows := rfl

theorem run_append (s : σ) (left right : List ρ) :
    run r s (left ++ right) = run r (run r s left) right := by
  simp [run]

variable [AddCommMonoid γ] [AddCommMonoid κ]

/-- The reverse pass over all rows, from the adjoint `a` after the last one. -/
def sweep (r : Recurrence σ ρ α γ κ) : σ → List ρ → α → Swept α γ κ
  | _, [], a => ⟨a, 0, 0⟩
  | s, row :: rows, a =>
      let rest := sweep r (r.next s row) rows a
      let (a', g) := r.pull s row rest.adjoint
      ⟨a', g + rest.gradient, r.loss s row + rest.loss⟩

@[simp] theorem sweep_nil (s : σ) (a : α) : sweep r s [] a = ⟨a, 0, 0⟩ := rfl

theorem sweep_cons (s : σ) (row : ρ) (rows : List ρ) (a : α) :
    sweep r s (row :: rows) a =
      ⟨(r.pull s row (sweep r (r.next s row) rows a).adjoint).1,
        (r.pull s row (sweep r (r.next s row) rows a).adjoint).2 +
          (sweep r (r.next s row) rows a).gradient,
        r.loss s row + (sweep r (r.next s row) rows a).loss⟩ := rfl

/-- The pass over the right part, then over the left part. -/
theorem sweep_append (s : σ) (left right : List ρ) (a : α) :
    sweep r s (left ++ right) a =
      let after := sweep r (run r s left) right a
      let before := sweep r s left after.adjoint
      ⟨before.adjoint, before.gradient + after.gradient, before.loss + after.loss⟩ := by
  induction left generalizing s with
  | nil => simp
  | cons row left ih =>
      simp only [List.cons_append, sweep_cons, run_cons, ih (r.next s row)]
      simp only [add_assoc]

/-- Rows without a loss, after which no adjoint arrives, contribute nothing. -/
theorem sweep_silent [Zero α] {rows : List ρ}
    (hpull : ∀ s, ∀ row ∈ rows, r.pull s row 0 = (0, 0))
    (hloss : ∀ s, ∀ row ∈ rows, r.loss s row = 0)
    (s : σ) :
    sweep r s rows 0 = ⟨0, 0, 0⟩ := by
  induction rows generalizing s with
  | nil => rfl
  | cons row rows ih =>
      have hrest : sweep r (r.next s row) rows 0 = ⟨0, 0, 0⟩ :=
        ih (fun s x hx => hpull s x (List.mem_cons_of_mem _ hx))
          (fun s x hx => hloss s x (List.mem_cons_of_mem _ hx)) _
      rw [sweep_cons, hrest, hpull s row List.mem_cons_self,
        hloss s row List.mem_cons_self]
      simp

/-- A suffix without a loss may be dropped. -/
theorem sweep_append_silent [Zero α] {left right : List ρ}
    (hpull : ∀ s, ∀ row ∈ right, r.pull s row 0 = (0, 0))
    (hloss : ∀ s, ∀ row ∈ right, r.loss s row = 0)
    (s : σ) :
    sweep r s (left ++ right) 0 = sweep r s left 0 := by
  rw [sweep_append, sweep_silent hpull hloss]
  ext <;> simp

end Passes

end ReverseAccumulation
end RwkvLightning

import Mathlib.Data.List.Basic

/-!
# Runs of a partial step function

A system is given by `step : σ → ε → Option σ`: `step s e = none` says that
event `e` is not enabled in state `s`.  `exec` runs a list of events, and
`StepsMeet P` says that every step of a run is taken from a state and with an
event that satisfy `P`.

**Results.**
* `exec_invariant`: an invariant preserved by the steps that meet `P` holds
  after every run whose steps all meet `P`.
* `exec_invariant_all`: the same without a condition on the steps.
* `stepsMeet_congr`: two conditions that agree wherever an invariant holds.
* `forall_prefix_iff_stepsMeet`: with an exact condition, a run is good up to
  every point exactly when all its steps meet it.
-/

namespace RwkvLightning
namespace Execution

universe u v

section Runs

variable {σ : Type u} {ε : Type v}

/-- Run a list of events, stopping at the first event that is not enabled. -/
def exec (step : σ → ε → Option σ) : σ → List ε → Option σ
  | s, [] => some s
  | s, e :: es =>
      match step s e with
      | none => none
      | some s' => exec step s' es

/-- Every step of the run is taken from a state and with an event meeting `P`. -/
def StepsMeet (step : σ → ε → Option σ) (P : σ → ε → Prop) :
    σ → List ε → Prop
  | _, [] => True
  | s, e :: es =>
      P s e ∧
        match step s e with
        | none => True
        | some s' => StepsMeet step P s' es

/-- The condition on the steps of a concrete run can be evaluated. -/
instance decidableStepsMeet (step : σ → ε → Option σ) (P : σ → ε → Prop)
    [∀ s e, Decidable (P s e)] :
    ∀ (s : σ) (es : List ε), Decidable (StepsMeet step P s es)
  | _, [] => isTrue trivial
  | s, e :: es =>
      match h : step s e with
      | none =>
          decidable_of_iff (P s e) (by simp [StepsMeet, h])
      | some s' =>
          have := decidableStepsMeet step P s' es
          decidable_of_iff (P s e ∧ StepsMeet step P s' es)
            (by simp [StepsMeet, h])

variable {step : σ → ε → Option σ} {P : σ → ε → Prop} {I : σ → Prop}

@[simp] theorem exec_nil (s : σ) : exec step s [] = some s := rfl

/-- Peel the first step of a successful run. -/
theorem exec_cons_some
    {s s' : σ} {e : ε} {es : List ε}
    (hrun : exec step s (e :: es) = some s') :
    ∃ t : σ, step s e = some t ∧ exec step t es = some s' := by
  simp only [exec] at hrun
  cases hs : step s e with
  | none => simp [hs] at hrun
  | some t =>
      refine ⟨t, rfl, ?_⟩
      simpa [hs] using hrun

theorem stepsMeet_cons
    {s t : σ} {e : ε} {es : List ε}
    (hs : step s e = some t)
    (hmeet : StepsMeet step P s (e :: es)) :
    P s e ∧ StepsMeet step P t es := by
  simpa [StepsMeet, hs] using hmeet

/-- What is left of a run after its first part. -/
theorem stepsMeet_drop
    {s t : σ} {es fs : List ε}
    (hrun : exec step s es = some t)
    (hmeet : StepsMeet step P s (es ++ fs)) :
    StepsMeet step P t fs := by
  induction es generalizing s with
  | nil => exact Option.some.inj hrun ▸ hmeet
  | cons e es ih =>
      obtain ⟨u, hs, hrest⟩ := exec_cons_some hrun
      exact ih hrest (stepsMeet_cons hs hmeet).2

theorem stepsMeet_append
    {s : σ} {es fs : List ε}
    (hmeet : StepsMeet step P s es)
    (hrest : ∀ t, exec step s es = some t → StepsMeet step P t fs) :
    StepsMeet step P s (es ++ fs) := by
  induction es generalizing s with
  | nil => exact hrest s rfl
  | cons e es ih =>
      refine ⟨hmeet.1, ?_⟩
      cases hs : step s e with
      | none => trivial
      | some t =>
          refine ih (stepsMeet_cons hs hmeet).2 fun u hu => hrest u ?_
          rw [exec, hs]
          exact hu

/-- A condition that the events meet in any state. -/
theorem stepsMeet_of_forall {es : List ε} (h : ∀ e ∈ es, ∀ s, P s e) (s : σ) :
    StepsMeet step P s es := by
  induction es generalizing s with
  | nil => trivial
  | cons e es ih =>
      refine ⟨h e List.mem_cons_self s, ?_⟩
      cases step s e with
      | none => trivial
      | some t => exact ih (fun e he => h e (List.mem_cons_of_mem _ he)) t

/--
The run rule: what every allowed step preserves holds after every run whose
steps are all allowed.
-/
theorem exec_invariant
    (hstep : ∀ s e t, I s → P s e → step s e = some t → I t)
    {s s' : σ} {es : List ε}
    (hinit : I s)
    (hmeet : StepsMeet step P s es)
    (hrun : exec step s es = some s') :
    I s' := by
  induction es generalizing s with
  | nil =>
      simp at hrun
      exact hrun ▸ hinit
  | cons e es ih =>
      obtain ⟨t, hs, hrest⟩ := exec_cons_some hrun
      obtain ⟨hP, hmeet'⟩ := stepsMeet_cons hs hmeet
      exact ih (hstep s e t hinit hP hs) hmeet' hrest

/-- The run rule for an invariant that every step preserves. -/
theorem exec_invariant_all
    (hstep : ∀ s e t, I s → step s e = some t → I t)
    {s s' : σ} {es : List ε}
    (hinit : I s)
    (hrun : exec step s es = some s') :
    I s' := by
  induction es generalizing s with
  | nil =>
      simp at hrun
      exact hrun ▸ hinit
  | cons e es ih =>
      obtain ⟨t, hs, hrest⟩ := exec_cons_some hrun
      exact ih (hstep s e t hinit hs) hrest

/--
The run rule for two conditions that agree wherever the invariant holds; the steps that
meet them keep it.
-/
theorem stepsMeet_congr {Q : σ → ε → Prop}
    (hstep : ∀ s e t, I s → P s e → step s e = some t → I t)
    (hiff : ∀ s e, I s → (P s e ↔ Q s e))
    {s : σ} (hinit : I s) (es : List ε) :
    StepsMeet step P s es ↔ StepsMeet step Q s es := by
  induction es generalizing s with
  | nil => exact Iff.rfl
  | cons e es ih =>
      rw [StepsMeet, StepsMeet, ← hiff s e hinit]
      refine and_congr_right fun hP => ?_
      cases hs : step s e with
      | none => exact Iff.rfl
      | some t => exact ih (hstep s e t hinit hP hs)

/--
The run rule for an exact condition: where `P` is what a step needs to reach a
state that is `J`, all states of a run are `J` exactly when all its steps meet `P`.
-/
theorem forall_prefix_iff_stepsMeet {J : σ → Prop}
    (hdisabled : ∀ s e, step s e = none → P s e)
    (hexact : ∀ s e t, I s → step s e = some t → (J t ↔ P s e))
    (hstep : ∀ s e t, I s → P s e → step s e = some t → I t)
    (hgood : ∀ s, I s → J s)
    {s : σ} (hinit : I s) (es : List ε) :
    (∀ pre, pre <+: es → ∀ t, exec step s pre = some t → J t) ↔
      StepsMeet step P s es := by
  induction es generalizing s with
  | nil =>
      constructor
      · intro _
        trivial
      · intro _ pre hpre t hrun
        rw [List.prefix_nil.mp hpre] at hrun
        exact Option.some.inj hrun ▸ hgood s hinit
  | cons e es ih =>
      cases hs : step s e with
      | none =>
          constructor
          · intro _
            exact ⟨hdisabled s e hs, by simp [hs]⟩
          · intro _ pre hpre t hrun
            cases pre with
            | nil => exact Option.some.inj hrun ▸ hgood s hinit
            | cons d pre =>
                obtain ⟨rfl, -⟩ := List.cons_prefix_cons.mp hpre
                obtain ⟨u, hu, -⟩ := exec_cons_some hrun
                rw [hs] at hu
                exact absurd hu (by simp)
      | some u =>
          constructor
          · intro hall
            have hone : exec step s [e] = some u := by simp [exec, hs]
            have hP : P s e :=
              (hexact s e u hinit hs).mp (hall [e] (by simp) u hone)
            refine ⟨hP, ?_⟩
            simp only [hs]
            refine (ih (hstep s e u hinit hP hs)).mp ?_
            intro pre hpre t hrun
            refine hall (e :: pre) (List.cons_prefix_cons.mpr ⟨rfl, hpre⟩) t ?_
            simpa [exec, hs] using hrun
          · intro hmeet pre hpre t hrun
            obtain ⟨hP, hmeet'⟩ := stepsMeet_cons hs hmeet
            cases pre with
            | nil => exact Option.some.inj hrun ▸ hgood s hinit
            | cons d pre =>
                obtain ⟨rfl, hpre'⟩ := List.cons_prefix_cons.mp hpre
                obtain ⟨v, hv, hrest⟩ := exec_cons_some hrun
                rw [hs] at hv
                obtain rfl := Option.some.inj hv
                exact (ih (hstep s _ _ hinit hP hs)).mpr hmeet' pre hpre' t hrest

end Runs

end Execution
end RwkvLightning

import Mathlib.Logic.Function.Iterate
import Mathlib.Data.List.Basic
import Mathlib.Tactic

/-!
# Independent processes under a schedule

Processes that do not share data: process `i` has a state of its own and takes
the step `step i`.  A schedule says which process moves next.

**Results.**
* `runSchedule_getElem`: the state of a process depends on its own moves only.
* `runSchedule_finished`: once all processes have finished, their states do not
  depend on the schedule.
-/

namespace RwkvLightning
namespace Interleaving

universe u

variable {π : Type u} (step : Nat → π → π)

/-- Process `i` moves; a number without a process is ignored. -/
def move (ps : List π) (i : Nat) : List π :=
  match ps[i]? with
  | none => ps
  | some p => ps.set i (step i p)

/-- The processes after a schedule. -/
def runSchedule (ps : List π) (schedule : List Nat) : List π :=
  schedule.foldl (move step) ps

@[simp] theorem move_length (ps : List π) (i : Nat) :
    (move step ps i).length = ps.length := by
  unfold move
  cases ps[i]? <;> simp

@[simp] theorem runSchedule_length (ps : List π) (schedule : List Nat) :
    (runSchedule step ps schedule).length = ps.length := by
  induction schedule generalizing ps with
  | nil => rfl
  | cons i schedule ih => exact (ih (move step ps i)).trans (move_length step ps i)

theorem move_getElem? (ps : List π) (i j : Nat) :
    (move step ps i)[j]? = if i = j then ps[j]?.map (step j) else ps[j]? := by
  unfold move
  by_cases hij : i = j
  · subst hij
    rw [if_pos rfl]
    cases hi : ps[i]? with
    | none => simp [hi]
    | some p =>
        have hlt : i < ps.length := (List.getElem?_eq_some_iff.mp hi).1
        simp [hlt]
  · rw [if_neg hij]
    cases ps[i]? with
    | none => rfl
    | some p => simp [hij]

/-- Each process has made as many moves as the schedule gives it. -/
theorem runSchedule_getElem (ps : List π) (schedule : List Nat) (j : Nat) :
    (runSchedule step ps schedule)[j]? =
      ps[j]?.map ((step j)^[schedule.count j]) := by
  induction schedule generalizing ps with
  | nil => simp [runSchedule]
  | cons i schedule ih =>
      have hrun : runSchedule step ps (i :: schedule) =
          runSchedule step (move step ps i) schedule := rfl
      rw [hrun, ih, move_getElem?]
      by_cases hij : i = j
      · subst hij
        rw [if_pos rfl, List.count_cons_self, Option.map_map]
        rfl
      · rw [if_neg hij, List.count_cons_of_ne hij]

section Finished

variable {step} {finished : π → Prop}

theorem iterate_of_finished (hstop : ∀ i p, finished p → step i p = p)
    {i : Nat} {p : π} (hp : finished p) (n : Nat) : (step i)^[n] p = p := by
  induction n with
  | zero => rfl
  | succ n ih => rw [Function.iterate_succ_apply, hstop i p hp, ih]

/-- Two numbers of moves that finish a process leave it in the same state. -/
theorem iterate_eq_of_finished (hstop : ∀ i p, finished p → step i p = p)
    {i : Nat} {p : π} {m n : Nat}
    (hm : finished ((step i)^[m] p)) (hn : finished ((step i)^[n] p)) :
    (step i)^[m] p = (step i)^[n] p := by
  rcases Nat.le_total m n with h | h
  · obtain ⟨k, rfl⟩ := Nat.exists_eq_add_of_le h
    rw [Nat.add_comm, Function.iterate_add_apply, iterate_of_finished hstop hm]
  · obtain ⟨k, rfl⟩ := Nat.exists_eq_add_of_le h
    rw [Nat.add_comm, Function.iterate_add_apply, iterate_of_finished hstop hn]

/-- When every process has finished, the schedule no longer matters. -/
theorem runSchedule_finished (hstop : ∀ i p, finished p → step i p = p)
    {ps : List π} {schedule : List Nat}
    (hdone : ∀ p ∈ runSchedule step ps schedule, finished p)
    {moves : Nat} (hmoves : ∀ i p, ps[i]? = some p → finished ((step i)^[moves] p)) :
    runSchedule step ps schedule = ps.mapIdx (fun i p => (step i)^[moves] p) := by
  apply List.ext_getElem?
  intro j
  have hget := runSchedule_getElem step ps schedule j
  rw [hget, List.getElem?_mapIdx]
  cases hj : ps[j]? with
  | none => rfl
  | some p =>
      rw [hj, Option.map_some] at hget
      rw [Option.map_some, Option.map_some]
      exact congrArg some (iterate_eq_of_finished hstop
        (hdone _ (List.mem_of_getElem? hget)) (hmoves j p hj))

end Finished

end Interleaving
end RwkvLightning

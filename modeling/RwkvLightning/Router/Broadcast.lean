import RwkvLightning.Library.Interleaving
import Mathlib

/-!
# The HTTP broadcast

`broadcast.Run` of `internal/broadcast/http.go`: one goroutine per target, each
with a bounded number of attempts, and a list of results in the order of the
targets.

A body is what `json.Unmarshal` makes of it for each type that the router reads
it as.  The network, the clock and the context answer each attempt.

**Results.**  `run_eq`, `run_of_fair`: in whatever order the goroutines move, they finish,
and the result of a target is the outcome of its own attempts.
-/

namespace RwkvLightning
namespace Router

open Interleaving

/-- `listedState`. -/
structure ListedState where
  id : String
  size : Nat
  tensors : Int
  layers : Int
  heads : Int
  headSize : Int
deriving DecidableEq, Repr

/-- `listedAdapter`; the manifest is its canonical JSON text. -/
structure ListedAdapter where
  id : String
  version : String
  manifest : String
deriving DecidableEq, Repr

/-- A response body, decoded as each of the types of the router. -/
structure Body where
  raw : String
  /-- As `listedState`. -/
  state : Option ListedState
  /-- As a state list: `object`, and `data` if it is an array. -/
  stateList : Option (String × Option (List ListedState))
  /-- As an adapter identity: `adapter_id` and `version`. -/
  adapter : Option (String × String)
  /-- As an adapter list: `data`, if it is an array. -/
  adapterList : Option (Option (List ListedAdapter))
  /-- As a deletion: `deleted`. -/
  deleted : Option Bool
deriving DecidableEq, Repr

/-- A body that is not JSON. -/
def Body.empty : Body where
  raw := ""
  state := none
  stateList := none
  adapter := none
  adapterList := none
  deleted := none

/-- `broadcast.Response`. -/
structure Response where
  status : Int
  header : List (String × String)
  body : Body
  err : Option String
deriving DecidableEq, Repr

/-- The zero value of a response, with an error. -/
def Response.ofErr (err : Option String) : Response :=
  ⟨0, [], Body.empty, err⟩

/-- `Response.Failure`. -/
def Response.failure (r : Response) : Option String :=
  match r.err with
  | some e => some e
  | none =>
      if r.status < 200 ∨ 300 ≤ r.status then some s!"upstream HTTP {r.status}" else none

/-- `Retryable`. -/
def retryable (status : Int) (err : Option String) : Bool :=
  err.isSome || [408, 429, 500, 502, 503, 504].contains status

/-- `Policy.Defaults`, for the number of attempts. -/
def defaultAttempts (attempts : Nat) : Nat :=
  if attempts = 0 then 3 else attempts

/-- What one attempt meets. -/
structure Attempt where
  /-- `ctx.Err()` at the head of the loop. -/
  cancelled : Option String
  answer : Response
  /-- The error of the context, when `waitRetry` is cut short. -/
  interrupted : Option String
deriving DecidableEq, Repr

/-- A goroutine of `Run`, with its slot of `results`. -/
structure Goroutine where
  attempt : Nat
  result : Response
  done : Bool
deriving DecidableEq, Repr

section Run

variable (attempts : Nat) (network : Nat → Nat → Attempt)

/-- One pass of the loop of the goroutine of target `i`. -/
def pass (i : Nat) (g : Goroutine) : Goroutine :=
  if g.done ∨ attempts ≤ g.attempt then { g with done := true }
  else
    let now := network i g.attempt
    match now.cancelled with
    | some e => { g with result := Response.ofErr (some e), done := true }
    | none =>
        let g := { g with result := now.answer }
        if retryable g.result.status g.result.err = false then { g with done := true }
        else if g.attempt + 1 = attempts then { g with done := true }
        else
          match now.interrupted with
          | some e => { g with result := { g.result with err := some e }, done := true }
          | none => { g with attempt := g.attempt + 1 }

/-- The goroutines at the start. -/
def start (targets : Nat) : List Goroutine :=
  List.replicate targets ⟨0, Response.ofErr none, false⟩

/-- The goroutines after the moves of a schedule. -/
def goroutines (targets : Nat) (schedule : List Nat) : List Goroutine :=
  runSchedule (pass attempts network) (start targets) schedule

/-- `Run`: `none` while `wg.Wait()` still waits. -/
def run (targets : Nat) (schedule : List Nat) : Option (List Response) :=
  if (goroutines attempts network targets schedule).all (fun g => g.done) then
    some ((goroutines attempts network targets schedule).map Goroutine.result)
  else none

/-- The result of target `i` by itself. -/
def outcome (i : Nat) : Response :=
  ((pass attempts network i)^[attempts + 1] ⟨0, Response.ofErr none, false⟩).result

variable {attempts network}

theorem pass_done (i : Nat) (g : Goroutine) (hdone : g.done = true) :
    pass attempts network i g = g := by
  cases g
  simp_all [pass]

variable (attempts network) in
/-- A pass ends the loop or begins the next attempt. -/
theorem pass_progress (i : Nat) (g : Goroutine) :
    (pass attempts network i g).done = true ∨
      (pass attempts network i g).attempt = g.attempt + 1 := by
  unfold pass
  by_cases hover : g.done = true ∨ attempts ≤ g.attempt
  · rw [if_pos hover]
    exact Or.inl rfl
  rw [if_neg hover]
  dsimp only
  cases (network i g.attempt).cancelled with
  | some e => exact Or.inl rfl
  | none =>
      dsimp only
      by_cases hretry : retryable (network i g.attempt).answer.status
          (network i g.attempt).answer.err = false
      · rw [if_pos hretry]
        exact Or.inl rfl
      rw [if_neg hretry]
      by_cases hlast : g.attempt + 1 = attempts
      · rw [if_pos hlast]
        exact Or.inl rfl
      rw [if_neg hlast]
      cases (network i g.attempt).interrupted with
      | some e => exact Or.inl rfl
      | none => exact Or.inr rfl

variable (attempts network) in
theorem iterate_progress (i : Nat) (g : Goroutine) (n : Nat) :
    ((pass attempts network i)^[n] g).done = true ∨
      ((pass attempts network i)^[n] g).attempt = g.attempt + n := by
  induction n with
  | zero => exact Or.inr rfl
  | succ n ih =>
      rw [Function.iterate_succ_apply']
      rcases ih with hdone | hattempt
      · exact Or.inl (by rw [pass_done i _ hdone]; exact hdone)
      · rcases pass_progress attempts network i
          ((pass attempts network i)^[n] g) with h | h
        · exact Or.inl h
        · exact Or.inr (by rw [h, hattempt]; omega)

/-- The loop ends after at most `attempts + 1` passes. -/
theorem iterate_done (i : Nat) (g : Goroutine) :
    ((pass attempts network i)^[attempts + 1] g).done = true := by
  rw [Function.iterate_succ_apply']
  rcases iterate_progress attempts network i g attempts with hdone | hattempt
  · rw [pass_done i _ hdone]
    exact hdone
  · have hover : attempts ≤ ((pass attempts network i)^[attempts] g).attempt := by omega
    generalize (pass attempts network i)^[attempts] g = g' at hover
    simp [pass, hover]

/-- The results of `Run` do not depend on the order of the goroutines. -/
theorem run_eq {targets : Nat} {schedule : List Nat} {results : List Response}
    (hrun : run attempts network targets schedule = some results) :
    results = (List.range targets).map (outcome attempts network) := by
  unfold run at hrun
  split_ifs at hrun with hdone
  have hall : ∀ g ∈ goroutines attempts network targets schedule, g.done = true := by
    simpa using hdone
  have hstop : ∀ (i : Nat) (g : Goroutine), g.done = true → pass attempts network i g = g :=
    pass_done
  have hfinal := runSchedule_finished hstop hall (fun i g _ => iterate_done i g)
  rw [← Option.some.inj hrun, goroutines, hfinal]
  apply List.ext_getElem?
  intro j
  simp only [List.getElem?_map, List.getElem?_mapIdx, start, List.getElem?_replicate]
  by_cases hj : j < targets
  · simp [hj, outcome]
  · simp [hj]

/-- `Run` has one result per target. -/
theorem run_length {targets : Nat} {schedule : List Nat} {results : List Response}
    (hrun : run attempts network targets schedule = some results) :
    results.length = targets := by
  rw [run_eq hrun]
  simp

/-- `Run` ends once every goroutine has made its passes, in whatever order, and the result of
each target is the outcome of its own attempts. -/
theorem run_of_fair {targets : Nat} {schedule : List Nat}
    (hfair : ∀ i < targets, attempts < schedule.count i) :
    run attempts network targets schedule =
      some ((List.range targets).map (outcome attempts network)) := by
  have hall : ∀ g ∈ goroutines attempts network targets schedule, g.done = true := by
    intro g hg
    obtain ⟨j, hget⟩ := List.mem_iff_getElem?.mp hg
    have hj : j < targets := by
      have hlt := (List.getElem?_eq_some_iff.mp hget).1
      simpa [goroutines, start] using hlt
    obtain ⟨n, hn⟩ := Nat.exists_eq_add_of_le (Nat.succ_le_of_lt (hfair j hj))
    rw [goroutines, runSchedule_getElem, hn, Nat.succ_eq_add_one, Nat.add_comm] at hget
    simp only [start, List.getElem?_replicate, if_pos hj, Option.map_some,
      Option.some.injEq] at hget
    -- once the loop has ended, further passes change nothing
    rw [← hget, Function.iterate_add_apply,
      Function.iterate_fixed (pass_done j _ (iterate_done j _))]
    exact iterate_done j _
  have hrun : run attempts network targets schedule =
      some ((goroutines attempts network targets schedule).map Goroutine.result) :=
    if_pos (List.all_eq_true.mpr hall)
  rw [hrun, run_eq hrun]

/-- Every target answers at once, with a status of its own. -/
def answered : Nat → Nat → Attempt := fun i _ =>
  { cancelled := none, answer := ⟨200 + i, [], Body.empty, none⟩, interrupted := none }

theorem run_of_fair_two :
    run 1 answered 2 [1, 0, 0, 1] =
      some [⟨200, [], Body.empty, none⟩, ⟨201, [], Body.empty, none⟩] :=
  run_of_fair (by decide)

end Run

end Router
end RwkvLightning

import RwkvLightning.Router.Broadcast
import Mathlib

/-!
# Acknowledgments of resource operations

`rejectedMutation`, `confirmDeletion`, the list decoders and
`finishResourceSync` of the router: one answer to the client out of the answers
of all backends.

**Results.**  `syncOutcome_uniform`, `syncOutcome_rejected`,
`syncOutcome_incomplete` and `syncOutcome_mixed` say what the client receives
for every list of validated answers.
-/

namespace RwkvLightning
namespace Router

/-- `resourceResponse`; `backend` is the position of the backend. -/
structure ResourceResponse where
  backend : Nat
  name : String
  response : Response
deriving DecidableEq, Repr

/-- `resourceResponse.failure`. -/
def ResourceResponse.failure (r : ResourceResponse) : Option String :=
  r.response.failure

/-- The answers of a broadcast, in the order of the backends. -/
def resourceResponses (names : List String) (results : List Response) :
    List ResourceResponse :=
  List.zipWith (fun backend (x : String × Response) => ⟨backend, x.1, x.2⟩)
    (List.range names.length) (names.zip results)

/-- `rejectedMutation`. -/
def rejectedMutation (responses : List ResourceResponse) : Bool :=
  responses ≠ [] ∧
    responses.all (fun r =>
      r.response.err.isNone && [400, 401, 403, 405, 415, 422].contains r.response.status)

/-- `confirmDeletion`: the error, if any. -/
def confirmDeletion (body : Body) : Option String :=
  if body.deleted = some true then none
  else some "backend did not confirm resource deletion"

/-- `decodeStateList`. -/
def decodeStateList (body : Body) : Except String (List ListedState) :=
  match body.stateList with
  | none => .error "invalid JSON"
  | some (object, data) =>
      match data with
      | none => .error "invalid state list"
      | some states =>
          if object ≠ "list" then .error "invalid state list"
          else if states.any (fun s => s.id = "") then .error "empty state ID"
          else if ¬(states.map ListedState.id).Nodup then .error "duplicate state ID"
          else .ok states

/-- The key of a listed adapter: `adapterKey`. -/
def ListedAdapter.key (a : ListedAdapter) : String × String :=
  (a.id, a.version)

/-- `decodeAdapterList`. -/
def decodeAdapterList (body : Body) : Except String (List ListedAdapter) :=
  match body.adapterList with
  | none => .error "invalid adapter list JSON"
  | some none => .error "invalid adapter list: data must be an array"
  | some (some adapters) =>
      if adapters.any (fun a => a.id = "" ∨ a.version = "") then
        .error "invalid adapter identity"
      else if ¬(adapters.map ListedAdapter.key).Nodup then
        .error "duplicate adapter version"
      else .ok adapters

/-- What the client of a resource operation receives. -/
inductive SyncOutcome where
  /-- The answer of the first backend. -/
  | passed (response : Response)
  /-- Status 502 with `ready_backends` and `failed_backends`. -/
  | incomplete (ready : List String) (failed : List (String × Int × String))
deriving DecidableEq, Repr

section Sync

variable {σ : Type}

/-- The loop that validates the successful answers one after the other. -/
def validateAll (validate : σ → ResourceResponse → σ × Option String) :
    σ → List ResourceResponse → σ × List ResourceResponse
  | s, [] => (s, [])
  | s, r :: rs =>
      let (s, r) :=
        match r.failure with
        | some _ => (s, r)
        | none =>
            let (s, err) := validate s r
            (s, { r with response := { r.response with err := err } })
      let (s, rs) := validateAll validate s rs
      (s, r :: rs)

/-- `ready`. -/
def readyNames (responses : List ResourceResponse) : List String :=
  (responses.filter (fun r => r.failure.isNone)).map ResourceResponse.name

/-- `failed`. -/
def failedEntries (responses : List ResourceResponse) : List (String × Int × String) :=
  responses.filterMap (fun r =>
    r.failure.map (fun err => (r.name, r.response.status, err)))

/-- The answer to the client, from the validated answers. -/
def syncOutcome (responses : List ResourceResponse) : SyncOutcome :=
  match responses with
  | [] => .incomplete [] []
  | first :: rest =>
      let ready := readyNames responses
      let failed := failedEntries responses
      let same := responses.all (fun r =>
        r.response.err.isNone && r.response.status = first.response.status)
      if same ∧ (failed = [] ∨
          (ready = [] ∧ 400 ≤ first.response.status ∧
            retryable first.response.status first.response.err = false)) then
        .passed first.response
      else if failed = [] then
        .incomplete ready
          ((rest.filter (fun r => r.response.status ≠ first.response.status)).map
            (fun r => (r.name, r.response.status, "inconsistent backend status")))
      else .incomplete ready failed

/-- `finishResourceSync`: validate, publish readiness, then answer. -/
def finishResourceSync (validate : σ → ResourceResponse → σ × Option String)
    (complete : σ → σ) (s : σ) (responses : List ResourceResponse) : σ × SyncOutcome :=
  let (s, responses) := validateAll validate s responses
  (complete s, syncOutcome responses)

end Sync

section Outcome

/-- All backends acknowledge, with one status. -/
def Uniform (responses : List ResourceResponse) : Prop :=
  ∃ status, ∀ r ∈ responses, r.failure = none ∧ r.response.status = status

/-- All backends reject, with one definitive status. -/
def Rejected (responses : List ResourceResponse) : Prop :=
  ∃ status, 400 ≤ status ∧ retryable status none = false ∧
    ∀ r ∈ responses, r.response.err = none ∧ r.response.status = status

/-- All backends acknowledge, but with different statuses. -/
def Mixed (responses : List ResourceResponse) : Prop :=
  (∀ r ∈ responses, r.failure = none) ∧ ¬Uniform responses

variable {responses : List ResourceResponse}

theorem failure_eq_none_iff (r : ResourceResponse) :
    r.failure = none ↔
      r.response.err = none ∧ 200 ≤ r.response.status ∧ r.response.status < 300 := by
  unfold ResourceResponse.failure Response.failure
  cases r.response.err with
  | some e => simp
  | none => by_cases h : r.response.status < 200 ∨ 300 ≤ r.response.status <;>
      simp [h] <;> omega

theorem failedEntries_eq_nil_iff :
    failedEntries responses = [] ↔ ∀ r ∈ responses, r.failure = none := by
  simp [failedEntries, List.filterMap_eq_nil_iff]

theorem readyNames_eq_nil_iff :
    readyNames responses = [] ↔ ∀ r ∈ responses, r.failure ≠ none := by
  simp [readyNames, List.filter_eq_nil_iff, Option.isNone_iff_eq_none]

/-- The two lists name every backend once. -/
theorem partition_perm (responses : List ResourceResponse) :
    (readyNames responses ++ (failedEntries responses).map Prod.fst).Perm
      (responses.map ResourceResponse.name) := by
  induction responses with
  | nil => simp [readyNames, failedEntries]
  | cons r rs ih =>
      unfold readyNames failedEntries at ih ⊢
      cases h : r.failure with
      | none => simpa [List.filter_cons, List.filterMap_cons, h] using ih.cons r.name
      | some e =>
          simp only [List.filter_cons, h, Option.isNone_some, Bool.false_eq_true,
            if_false, List.filterMap_cons, Option.map_some, List.map_cons]
          exact List.perm_middle.trans (ih.cons r.name)

theorem syncOutcome_uniform {first : ResourceResponse} {rest : List ResourceResponse}
    (h : Uniform (first :: rest)) :
    syncOutcome (first :: rest) = .passed first.response := by
  obtain ⟨status, hall⟩ := h
  have hfailed : failedEntries (first :: rest) = [] :=
    failedEntries_eq_nil_iff.mpr (fun r hr => (hall r hr).1)
  have hsame : (first :: rest).all (fun r =>
      r.response.err.isNone && r.response.status = first.response.status) = true := by
    rw [List.all_eq_true]
    intro r hr
    have herr := ((failure_eq_none_iff r).mp (hall r hr).1).1
    have hstatus := (hall r hr).2.trans (hall first List.mem_cons_self).2.symm
    simp [herr, hstatus]
  simp only [syncOutcome]
  rw [if_pos ⟨hsame, Or.inl hfailed⟩]

theorem syncOutcome_rejected {first : ResourceResponse} {rest : List ResourceResponse}
    (h : Rejected (first :: rest)) :
    syncOutcome (first :: rest) = .passed first.response := by
  obtain ⟨status, hstatus, hretry, hall⟩ := h
  obtain ⟨hfirst, hfirstStatus⟩ := hall first List.mem_cons_self
  have hready : readyNames (first :: rest) = [] := by
    rw [readyNames_eq_nil_iff]
    intro r hr hnone
    have hrange := ((failure_eq_none_iff r).mp hnone).2
    have := (hall r hr).2
    omega
  have hsame : (first :: rest).all (fun r =>
      r.response.err.isNone && r.response.status = first.response.status) = true := by
    rw [List.all_eq_true]
    intro r hr
    simp [(hall r hr).1, (hall r hr).2, hfirstStatus]
  simp only [syncOutcome]
  rw [if_pos ⟨hsame, Or.inr ⟨hready, by omega, by rw [hfirst, hfirstStatus]; exact hretry⟩⟩]

/-- When the answers pass through they are uniform in one of the two ways. -/
theorem uniform_or_rejected_of_passed {first : ResourceResponse}
    {rest : List ResourceResponse}
    (hsame : (first :: rest).all (fun r =>
      r.response.err.isNone && r.response.status = first.response.status) = true)
    (hcase : failedEntries (first :: rest) = [] ∨
      (readyNames (first :: rest) = [] ∧ 400 ≤ first.response.status ∧
        retryable first.response.status first.response.err = false)) :
    Uniform (first :: rest) ∨ Rejected (first :: rest) := by
  have hall : ∀ r ∈ first :: rest,
      r.response.err = none ∧ r.response.status = first.response.status := by
    intro r hr
    have := List.all_eq_true.mp hsame r hr
    simpa [Option.isNone_iff_eq_none] using this
  rcases hcase with hfailed | ⟨-, hstatus, hretry⟩
  · refine Or.inl ⟨first.response.status, fun r hr => ?_⟩
    exact ⟨failedEntries_eq_nil_iff.mp hfailed r hr, (hall r hr).2⟩
  · refine Or.inr ⟨first.response.status, hstatus, ?_, hall⟩
    rw [(hall first List.mem_cons_self).1] at hretry
    exact hretry

/-- All other answers that are not mixed are reported, each under its backend. -/
theorem syncOutcome_incomplete
    (huniform : ¬Uniform responses) (hrejected : ¬Rejected responses)
    (hmixed : ¬Mixed responses) :
    syncOutcome responses = .incomplete (readyNames responses) (failedEntries responses) := by
  cases responses with
  | nil => rfl
  | cons first rest =>
      have hfailed : failedEntries (first :: rest) ≠ [] :=
        fun h => hmixed ⟨failedEntries_eq_nil_iff.mp h, huniform⟩
      simp only [syncOutcome]
      rw [if_neg, if_neg hfailed]
      rintro ⟨hsame, hcase⟩
      rcases uniform_or_rejected_of_passed hsame hcase with h | h
      · exact huniform h
      · exact hrejected h

/-- Mixed answers: every backend is ready, and some of them are failed as well. -/
theorem syncOutcome_mixed (hmixed : Mixed responses) :
    ∃ failed, failed ≠ [] ∧
      syncOutcome responses =
        .incomplete (responses.map ResourceResponse.name) failed := by
  cases responses with
  | nil => exact absurd ⟨0, by simp⟩ hmixed.2
  | cons first rest =>
      obtain ⟨hall, huniform⟩ := hmixed
      have hfailed := failedEntries_eq_nil_iff.mpr hall
      have hready : readyNames (first :: rest) =
          (first :: rest).map ResourceResponse.name := by
        rw [readyNames, List.filter_eq_self.mpr]
        intro r hr
        simp [hall r hr]
      have hdiffers : ∃ r ∈ rest, r.response.status ≠ first.response.status := by
        by_contra hnone
        push Not at hnone
        refine huniform ⟨first.response.status, fun r hr => ⟨hall r hr, ?_⟩⟩
        rcases List.mem_cons.mp hr with rfl | hr
        · rfl
        · exact hnone r hr
      obtain ⟨r, hr, hne⟩ := hdiffers
      refine ⟨(rest.filter (fun r => r.response.status ≠ first.response.status)).map
        (fun r => (r.name, r.response.status, "inconsistent backend status")), ?_, ?_⟩
      · intro hnil
        rw [List.map_eq_nil_iff, List.filter_eq_nil_iff] at hnil
        exact absurd (hnil r hr) (by simpa using hne)
      · simp only [syncOutcome]
        rw [if_neg, if_pos hfailed, hready]
        rintro ⟨hsame, -⟩
        have := List.all_eq_true.mp hsame r (List.mem_cons_of_mem _ hr)
        simp [hne] at this

end Outcome

end Router
end RwkvLightning

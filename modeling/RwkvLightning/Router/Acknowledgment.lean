import RwkvLightning.Router.Handlers
import Mathlib

/-!
# What an acknowledgment stands for

A success of an upload, a deletion or a list is meant to say that all backends
answered with one status and one resource.

**Results.**
* `accepts_upload`, `accepts_adapter`, `accepts_list`, `accepts_deletion`: when
  the validators of an operation accept all answers.
* `acceptState_upload`, `acceptState_adapter`: what accepted uploads make ready.
* `faithful_iff`: the answer to the client is the intended one exactly when the
  backends do not acknowledge the same resource with different statuses.
* `mixed_overlaps`: two backends, status 200 and status 201.
-/

namespace RwkvLightning
namespace Router

open GuardedTable

section Accepting

variable {σ : Type} {validate : σ → ResourceResponse → σ × Option String}

/-- All answers are successful and pass the validator, one after the other. -/
def AcceptsAll (validate : σ → ResourceResponse → σ × Option String) :
    σ → List ResourceResponse → Prop
  | _, [] => True
  | s, r :: rs =>
      r.failure = none ∧ (validate s r).2 = none ∧ AcceptsAll validate (validate s r).1 rs

/-- The state after the validator has gone through answers that it accepts. -/
def acceptState (validate : σ → ResourceResponse → σ × Option String) (s : σ)
    (rs : List ResourceResponse) : σ :=
  rs.foldl (fun s r => (validate s r).1) s

/-- What validation keeps of an answer. -/
def ResourceResponse.core (r : ResourceResponse) : Nat × String × Int :=
  (r.backend, r.name, r.response.status)

variable (validate) in
theorem validateAll_core (s : σ) (rs : List ResourceResponse) :
    (validateAll validate s rs).2.map ResourceResponse.core =
      rs.map ResourceResponse.core := by
  induction rs generalizing s with
  | nil => rfl
  | cons r rs ih =>
      unfold validateAll
      cases r.failure with
      | some e => simp [ih]
      | none =>
          simp only [List.map_cons, ih]
          rfl

/-- An answer that is not validated keeps its error. -/
theorem validateAll_of_failed {s : σ} {rs : List ResourceResponse}
    (hfailed : ∀ r ∈ rs, r.failure ≠ none) : validateAll validate s rs = (s, rs) := by
  induction rs generalizing s with
  | nil => rfl
  | cons r rs ih =>
      have hr := hfailed r List.mem_cons_self
      unfold validateAll
      cases h : r.failure with
      | none => exact absurd h hr
      | some e =>
          dsimp only
          rw [ih (fun x hx => hfailed x (List.mem_cons_of_mem _ hx))]

theorem failure_withErr {r : ResourceResponse} (hr : r.failure = none)
    (err : Option String) :
    ({ r with response := { r.response with err := err } } : ResourceResponse).failure =
      none ↔ err = none := by
  rw [failure_eq_none_iff]
  have hrange := ((failure_eq_none_iff r).mp hr).2
  exact ⟨fun h => h.1, fun h => ⟨h, hrange⟩⟩

/-- All answers are good after validation exactly when they are accepted. -/
theorem validateAll_none_iff (s : σ) (rs : List ResourceResponse) :
    (∀ r ∈ (validateAll validate s rs).2, r.failure = none) ↔ AcceptsAll validate s rs := by
  induction rs generalizing s with
  | nil => simp [validateAll, AcceptsAll]
  | cons r rs ih =>
      unfold validateAll AcceptsAll
      cases h : r.failure with
      | some e => simp [h]
      | none =>
          simp only [List.forall_mem_cons, ih, failure_withErr h, true_and]

theorem validateAll_state {s : σ} {rs : List ResourceResponse}
    (h : AcceptsAll validate s rs) :
    (validateAll validate s rs).1 = acceptState validate s rs := by
  induction rs generalizing s with
  | nil => rfl
  | cons r rs ih =>
      obtain ⟨hr, -, hrest⟩ := h
      unfold validateAll
      rw [hr]
      exact ih hrest

/-- A validator that depends on the body only. -/
theorem accepts_of_pure {check : Body → Option String} (s : σ)
    (hpure : ∀ s r, validate s r = (s, check r.response.body))
    (rs : List ResourceResponse) :
    AcceptsAll validate s rs ↔
      ∀ r ∈ rs, r.failure = none ∧ check r.response.body = none := by
  induction rs with
  | nil => simp [AcceptsAll]
  | cons r rs ih =>
      rw [AcceptsAll, hpure, ih, List.forall_mem_cons, and_assoc]

end Accepting

section Outcome

variable {σ : Type} {validate : σ → ResourceResponse → σ × Option String}

/-- One status for all answers. -/
def SameStatus (rs : List ResourceResponse) : Prop :=
  ∃ status, ∀ r ∈ rs, r.response.status = status

variable (validate) in
theorem sameStatus_validateAll (s : σ) (rs : List ResourceResponse) :
    SameStatus (validateAll validate s rs).2 ↔ SameStatus rs := by
  have hstatus : (validateAll validate s rs).2.map (fun r => r.response.status) =
      rs.map (fun r => r.response.status) := by
    have h := congrArg (List.map (fun x : Nat × String × Int => x.2.2))
      (validateAll_core validate s rs)
    rw [List.map_map, List.map_map] at h
    exact h
  have hall : ∀ (l : List ResourceResponse) (status : Int),
      (∀ r ∈ l, r.response.status = status) ↔
        ∀ x ∈ l.map (fun r => r.response.status), x = status := by
    intro l status
    simp
  simp only [SameStatus, hall, hstatus]

theorem uniform_iff (rs : List ResourceResponse) :
    Uniform rs ↔ (∀ r ∈ rs, r.failure = none) ∧ SameStatus rs := by
  constructor
  · rintro ⟨status, h⟩
    exact ⟨fun r hr => (h r hr).1, status, fun r hr => (h r hr).2⟩
  · rintro ⟨hnone, status, h⟩
    exact ⟨status, fun r hr => ⟨hnone r hr, h r hr⟩⟩

theorem failed_of_rejected {rs : List ResourceResponse} (h : Rejected rs) :
    ∀ r ∈ rs, r.failure ≠ none := by
  obtain ⟨status, hstatus, -, hall⟩ := h
  intro r hr hnone
  have hrange := ((failure_eq_none_iff r).mp hnone).2
  have := (hall r hr).2
  omega

variable (validate) in
/-- Validation neither makes nor unmakes a uniform rejection. -/
theorem rejected_validateAll (s : σ) (rs : List ResourceResponse) :
    Rejected (validateAll validate s rs).2 ↔ Rejected rs := by
  constructor
  · intro h
    have hfailed : ∀ r ∈ rs, r.failure ≠ none := by
      obtain ⟨status, hstatus, -, hall⟩ := h
      have hsame : ∀ r ∈ rs, r.response.status = status := by
        intro r hr
        have hmem : r.core ∈ (validateAll validate s rs).2.map ResourceResponse.core := by
          rw [validateAll_core validate]
          exact List.mem_map_of_mem hr
        obtain ⟨r', hr', hcore⟩ := List.mem_map.mp hmem
        have hstatus' : r'.response.status = r.response.status :=
          congrArg (fun x => x.2.2) hcore
        rw [← hstatus', (hall r' hr').2]
      intro r hr hnone
      have hrange := ((failure_eq_none_iff r).mp hnone).2
      have := hsame r hr
      omega
    rwa [validateAll_of_failed hfailed] at h
  · intro h
    rw [validateAll_of_failed (failed_of_rejected h)]
    exact h

end Outcome

section Specification

/-- The bodies validate as one resource. -/
def SameResource (op : Operation) (results : List Response) : Prop :=
  match op with
  | .uploadState id =>
      ∃ info : ListedState, info.id = id ∧ ∀ r ∈ results, r.body.state = some info
  | .deleteState _ => ∀ r ∈ results, r.body.deleted = some true
  | .listStates =>
      ∃ items : List ListedState, ∀ r ∈ results,
        ∃ items', decodeStateList r.body = .ok items' ∧ items.Perm items'
  | .uploadAdapter id =>
      ∃ version, version ≠ "" ∧ ∀ r ∈ results, r.body.adapter = some (id, version)
  | .deleteAdapter _ _ => ∀ r ∈ results, r.body.deleted = some true
  | .listAdapters =>
      ∃ items : List ListedAdapter, ∀ r ∈ results,
        ∃ items', decodeAdapterList r.body = .ok items' ∧ items.Perm items'

/-- Every backend acknowledges the same resource. -/
def Acknowledged (op : Operation) (results : List Response) : Prop :=
  (∀ r ∈ results, r.failure = none) ∧ SameResource op results

/-- Every backend answers with the same status. -/
def OneStatus (results : List Response) : Prop :=
  ∃ status, ∀ r ∈ results, r.status = status

/-- Every backend rejects the request definitively, with the same status. -/
def Refused (results : List Response) : Prop :=
  ∃ status, 400 ≤ status ∧ retryable status none = false ∧
    ∀ r ∈ results, r.err = none ∧ r.status = status

/-- A success that passes through. -/
def SyncOutcome.success : SyncOutcome → Prop
  | .passed r => 200 ≤ r.status ∧ r.status < 300
  | .incomplete _ _ => False

/-- What an upload makes available is available on all backends. -/
def Published (op : Operation) (results : List Response) (s : Scheduler) : Prop :=
  match op with
  | .uploadState id => ∀ b < s.backends.length, s.stateReady id b = true
  | .uploadAdapter id =>
      ∀ version, (∀ r ∈ results, r.body.adapter = some (id, version)) →
        ∀ b < s.backends.length, s.adapterReady id version b = true
  | _ => True

/-- What the client is promised about an operation. -/
structure Faithful (op : Operation) (names : List String) (results : List Response)
    (s : Scheduler) (outcome : SyncOutcome) : Prop where
  success : outcome.success ↔ Acknowledged op results ∧ OneStatus results
  published : outcome.success → Published op results s
  refused : Refused results → results.head?.map SyncOutcome.passed = some outcome
  otherwise :
    ¬(Acknowledged op results ∧ OneStatus results) → ¬Refused results →
      ∃ ready failed, outcome = .incomplete ready failed ∧
        (ready ++ failed.map Prod.fst).Perm names

end Specification

section Responses

variable {names : List String} {results : List Response}

theorem responses_response (hlen : results.length = names.length) :
    (resourceResponses names results).map ResourceResponse.response = results := by
  apply List.ext_getElem
  · simp [resourceResponses, hlen]
  · intro i h1 h2
    simp [resourceResponses]

theorem responses_name (hlen : results.length = names.length) :
    (resourceResponses names results).map ResourceResponse.name = names := by
  apply List.ext_getElem
  · simp [resourceResponses, hlen]
  · intro i h1 h2
    simp [resourceResponses]

theorem responses_backend (hlen : results.length = names.length) :
    (resourceResponses names results).map ResourceResponse.backend =
      List.range names.length := by
  apply List.ext_getElem
  · simp [resourceResponses, hlen]
  · intro i h1 h2
    simp [resourceResponses]

theorem forall_responses (hlen : results.length = names.length) (P : Response → Prop) :
    (∀ r ∈ resourceResponses names results, P r.response) ↔ ∀ r ∈ results, P r := by
  conv_rhs => rw [← responses_response hlen]
  rw [List.forall_mem_map]

theorem sameStatus_responses (hlen : results.length = names.length) :
    SameStatus (resourceResponses names results) ↔ OneStatus results :=
  exists_congr fun status => forall_responses hlen (fun r => r.status = status)

theorem rejected_responses (hlen : results.length = names.length) :
    Rejected (resourceResponses names results) ↔ Refused results :=
  exists_congr fun status => and_congr_right fun _ => and_congr_right fun _ =>
    forall_responses hlen (fun r => r.err = none ∧ r.status = status)

theorem failure_responses (hlen : results.length = names.length) :
    (∀ r ∈ resourceResponses names results, r.failure = none) ↔
      ∀ r ∈ results, r.failure = none :=
  forall_responses hlen (fun r => r.failure = none)

end Responses

section Exactness

variable {σ : Type} {validate : σ → ResourceResponse → σ × Option String}
variable {op : Operation} {names : List String} {results : List Response}

/-- All backends acknowledge the resource, but not with the same status. -/
def MixedSuccess (op : Operation) (results : List Response) : Prop :=
  Acknowledged op results ∧ ¬OneStatus results

/-- The answer is as promised exactly when the statuses are not mixed. -/
theorem faithful_iff_of_accepts {s : σ} {s' : Scheduler}
    (hlen : results.length = names.length) (hne : results ≠ [])
    (haccepts : AcceptsAll validate s (resourceResponses names results) ↔
      Acknowledged op results)
    (hpublished : Acknowledged op results → Published op results s') :
    Faithful op names results s'
        (syncOutcome (validateAll validate s (resourceResponses names results)).2) ↔
      ¬MixedSuccess op results := by
  have hnone := (validateAll_none_iff s (resourceResponses names results)).trans haccepts
  have hsame := (sameStatus_validateAll validate s
    (resourceResponses names results)).trans (sameStatus_responses hlen)
  have hrejected := (rejected_validateAll validate s
    (resourceResponses names results)).trans (rejected_responses hlen)
  have huniform := (uniform_iff
    (validateAll validate s (resourceResponses names results)).2).trans
      (and_congr hnone hsame)
  have hcore := validateAll_core validate s (resourceResponses names results)
  have hnames : (validateAll validate s (resourceResponses names results)).2.map
      ResourceResponse.name = names := by
    have h := congrArg (List.map (fun x : Nat × String × Int => x.2.1)) hcore
    rw [List.map_map, List.map_map] at h
    exact h.trans (responses_name hlen)
  have hnonempty : (validateAll validate s (resourceResponses names results)).2 ≠ [] := by
    intro hnil
    rw [hnil, List.map_nil] at hnames
    apply hne
    rw [← List.length_eq_zero_iff, hlen, ← hnames]
    rfl
  have hfailed : Rejected (resourceResponses names results) →
      (validateAll validate s (resourceResponses names results)).2 =
        resourceResponses names results :=
    fun h => congrArg Prod.snd (validateAll_of_failed (failed_of_rejected h))
  have hresponse := responses_response hlen
  generalize (validateAll validate s (resourceResponses names results)).2 = validated at *
  obtain ⟨first, rest, rfl⟩ := List.exists_cons_of_ne_nil hnonempty
  constructor
  · rintro hfaithful ⟨hack, hstatus⟩
    have hmixed : Mixed (first :: rest) :=
      ⟨hnone.mpr hack, fun h => hstatus (huniform.mp h).2⟩
    have hnot : ¬Refused results := by
      intro h
      exact failed_of_rejected (hrejected.mpr h) first List.mem_cons_self
        (hnone.mpr hack first List.mem_cons_self)
    obtain ⟨ready, failed, houtcome, hperm⟩ :=
      hfaithful.otherwise (fun h => hstatus h.2) hnot
    obtain ⟨failed', hfailed', hmixedOutcome⟩ := syncOutcome_mixed hmixed
    rw [hmixedOutcome, hnames] at houtcome
    obtain ⟨rfl, rfl⟩ := SyncOutcome.incomplete.inj houtcome
    have hlength := hperm.length_eq
    rw [List.length_append, List.length_map] at hlength
    exact hfailed' (List.length_eq_zero_iff.mp (by omega))
  · intro hmixed
    by_cases hgood : Acknowledged op results ∧ OneStatus results
    · have houtcome := syncOutcome_uniform (huniform.mpr hgood)
      have hrange := ((failure_eq_none_iff first).mp
        (hnone.mpr hgood.1 first List.mem_cons_self)).2
      rw [houtcome]
      refine ⟨⟨fun _ => hgood, fun _ => hrange⟩, fun _ => hpublished hgood.1, ?_, ?_⟩
      · intro h
        exact absurd (hnone.mpr hgood.1 first List.mem_cons_self)
          (failed_of_rejected (hrejected.mpr h) first List.mem_cons_self)
      · exact fun h => absurd hgood h
    by_cases hrefused : Refused results
    · have hr := hrejected.mpr hrefused
      have houtcome := syncOutcome_rejected hr
      have hnot : ¬(SyncOutcome.passed first.response).success := by
        intro h
        obtain ⟨status, hstatus, -, hall⟩ := hr
        have hfirst := (hall first List.mem_cons_self).2
        have := h.2
        omega
      rw [houtcome]
      refine ⟨⟨fun h => absurd h hnot, fun h => absurd h hgood⟩, fun h => absurd h hnot,
        fun _ => ?_, fun _ h => absurd hrefused h⟩
      rw [← hresponse, ← hfailed ((rejected_responses hlen).mpr hrefused)]
      rfl
    · have houtcome := syncOutcome_incomplete (fun h => hgood (huniform.mp h))
        (fun h => hrefused (hrejected.mp h))
        (fun h => hmixed ⟨hnone.mp h.1, fun hs => h.2 (huniform.mpr ⟨hnone.mp h.1, hs⟩)⟩)
      rw [houtcome]
      refine ⟨⟨fun h => absurd h id, fun h => absurd h hgood⟩, fun h => absurd h id,
        fun h => absurd h hrefused, fun _ _ => ⟨_, _, rfl, ?_⟩⟩
      exact hnames ▸ partition_perm (first :: rest)

end Exactness

section StateUpload

variable {s : Scheduler} {id : String} {cell : Cell StatePlacement}

/-- What makes the validator of a state upload accept an answer. -/
theorem validateStateUpload_none_iff (hcell : s.states.cells id = some cell)
    (hdeleted : cell.value.deleted = false) (r : ResourceResponse) :
    (validateStateUpload id s r).2 = none ↔
      ∃ info, r.response.body.state = some info ∧ info.id = id ∧
        (cell.value.signature = none ∨ cell.value.signature = some info) := by
  unfold validateStateUpload
  cases r.response.body.state with
  | none => simp
  | some info =>
      by_cases hid : info.id = id
      · subst hid
        by_cases hsignature : cell.value.signature ≠ none ∧ cell.value.signature ≠ some info
        · simp [Scheduler.confirmState, hcell, hdeleted, hsignature]
        · have hor : cell.value.signature = none ∨ cell.value.signature = some info := by
            by_contra hnot
            exact hsignature (not_or.mp hnot)
          simp [Scheduler.confirmState, hcell, hdeleted, hsignature, hor]
      · simp [hid]

/-- The entry after an accepted answer. -/
theorem validateStateUpload_cell (hcell : s.states.cells id = some cell)
    (hdeleted : cell.value.deleted = false) {info : ListedState} (hid : info.id = id)
    (hsignature : cell.value.signature = none ∨ cell.value.signature = some info)
    {r : ResourceResponse} (hr : r.response.body.state = some info) :
    (validateStateUpload id s r).1.states.cells id =
        some { cell with
          value := ⟨Function.update cell.value.ready r.backend true, false, some info⟩ } ∧
      (validateStateUpload id s r).1.backends.length = s.backends.length := by
  have hnot : ¬(cell.value.signature ≠ none ∧ cell.value.signature ≠ some info) := by
    rintro ⟨h1, h2⟩
    exact hsignature.elim h1 h2
  subst hid
  simp [validateStateUpload, Scheduler.confirmState, hr, hcell, hdeleted, hnot,
    Scheduler.modifyBackend, Table.modify]

theorem accepts_upload_known (hcell : s.states.cells id = some cell)
    (hdeleted : cell.value.deleted = false) {info : ListedState} (hid : info.id = id)
    (hsignature : cell.value.signature = some info) (rs : List ResourceResponse) :
    AcceptsAll (validateStateUpload id) s rs ↔
      ∀ r ∈ rs, r.failure = none ∧ r.response.body.state = some info := by
  induction rs generalizing s cell with
  | nil => simp [AcceptsAll]
  | cons r rs ih =>
      rw [AcceptsAll, validateStateUpload_none_iff hcell hdeleted, List.forall_mem_cons,
        and_assoc]
      refine and_congr_right fun _ => ?_
      constructor
      · rintro ⟨⟨info', hr, -, hinfo'⟩, hrest⟩
        obtain rfl : info = info' := by simpa [hsignature] using hinfo'
        obtain ⟨hcell', -⟩ :=
          validateStateUpload_cell hcell hdeleted hid (Or.inr hsignature) hr
        exact ⟨hr, (ih hcell' rfl rfl).mp hrest⟩
      · rintro ⟨hr, hrest⟩
        obtain ⟨hcell', -⟩ :=
          validateStateUpload_cell hcell hdeleted hid (Or.inr hsignature) hr
        exact ⟨⟨info, hr, hid, Or.inr hsignature⟩, (ih hcell' rfl rfl).mpr hrest⟩

/-- The first answer fixes the signature. -/
theorem accepts_upload (hcell : s.states.cells id = some cell)
    (hdeleted : cell.value.deleted = false) (hsignature : cell.value.signature = none)
    (rs : List ResourceResponse) :
    AcceptsAll (validateStateUpload id) s rs ↔
      (∀ r ∈ rs, r.failure = none) ∧
        ∃ info : ListedState, info.id = id ∧ ∀ r ∈ rs, r.response.body.state = some info := by
  cases rs with
  | nil =>
      simp only [AcceptsAll, List.not_mem_nil, false_implies, implies_true, and_true,
        true_and, true_iff]
      exact ⟨⟨id, 0, 0, 0, 0, 0⟩, rfl⟩
  | cons first rest =>
      rw [AcceptsAll, validateStateUpload_none_iff hcell hdeleted]
      constructor
      · rintro ⟨hfailure, ⟨info, hr, hid, -⟩, hrest⟩
        obtain ⟨hcell', -⟩ :=
          validateStateUpload_cell hcell hdeleted hid (Or.inl hsignature) hr
        have hall := (accepts_upload_known hcell' rfl hid rfl rest).mp hrest
        refine ⟨List.forall_mem_cons.mpr ⟨hfailure, fun r hr => (hall r hr).1⟩,
          info, hid, List.forall_mem_cons.mpr ⟨hr, fun r hr => (hall r hr).2⟩⟩
      · rintro ⟨hfailure, info, hid, hstate⟩
        have hr := hstate first List.mem_cons_self
        obtain ⟨hcell', -⟩ :=
          validateStateUpload_cell hcell hdeleted hid (Or.inl hsignature) hr
        refine ⟨hfailure first List.mem_cons_self, ⟨info, hr, hid, Or.inl hsignature⟩,
          (accepts_upload_known hcell' rfl hid rfl rest).mpr fun r hr => ?_⟩
        have hmem := List.mem_cons_of_mem first hr
        exact ⟨hfailure r hmem, hstate r hmem⟩

/-- All acknowledged replicas are in the entry at the end. -/
theorem acceptState_upload (hcell : s.states.cells id = some cell)
    (hdeleted : cell.value.deleted = false) {info : ListedState} (hid : info.id = id)
    (hsignature : cell.value.signature = none ∨ cell.value.signature = some info)
    {rs : List ResourceResponse} (hall : ∀ r ∈ rs, r.response.body.state = some info) :
    ∃ value,
      (acceptState (validateStateUpload id) s rs).states.cells id =
        some { cell with value := value } ∧
      value.deleted = false ∧
      (∀ b, cell.value.ready b = true ∨ b ∈ rs.map ResourceResponse.backend →
        value.ready b = true) ∧
      (acceptState (validateStateUpload id) s rs).backends.length = s.backends.length := by
  induction rs generalizing s cell with
  | nil =>
      refine ⟨cell.value, hcell, hdeleted, fun b hb => ?_, rfl⟩
      simpa using hb
  | cons r rs ih =>
      obtain ⟨hcell', hlength⟩ := validateStateUpload_cell hcell hdeleted hid hsignature
        (hall r List.mem_cons_self)
      obtain ⟨value, hfinal, hkept, hready, hlength'⟩ := ih hcell' rfl (Or.inr rfl)
        (fun r hr => hall r (List.mem_cons_of_mem _ hr))
      refine ⟨value, hfinal, hkept, fun b hb => hready b ?_, hlength'.trans hlength⟩
      rw [List.map_cons, List.mem_cons] at hb
      by_cases hb' : b = r.backend
      · exact Or.inl (by rw [hb']; exact Function.update_self _ _ _)
      · rcases hb with hb | hb | hb
        · exact Or.inl ((Function.update_of_ne hb' _ _).trans hb)
        · exact absurd hb hb'
        · exact Or.inr hb

end StateUpload

section AdapterUpload

variable {m : AdapterMutation}

theorem lookup_map_keys {β : Type} (f : String × β → String × β)
    (hkey : ∀ x, (f x).1 = x.1) (l : List (String × β)) (version : String) :
    (l.map f).lookup version = (l.lookup version).map (fun y => (f (version, y)).2) := by
  induction l with
  | nil => rfl
  | cons x l ih =>
      obtain ⟨key, y⟩ := x
      have hf : f (key, y) = (key, (f (key, y)).2) := Prod.ext (hkey (key, y)) rfl
      rw [List.map_cons, hf, List.lookup_cons, List.lookup_cons, ih]
      by_cases h : version = key
      · subst h
        simp
      · simp [beq_false_of_ne h]

/-- The replicas of a version after one of them is marked. -/
theorem AdapterPlacement.nodes_setReady (e : AdapterPlacement) (version other : String)
    (b : Nat) (value : Bool) :
    (e.setReady version b value).nodes other =
      (e.nodes other).map (fun nodes =>
        if other = version then Function.update nodes b value else nodes) := by
  unfold AdapterPlacement.setReady AdapterPlacement.nodes
  dsimp only
  have hkey : ∀ x : String × (Nat → Bool),
      (if x.1 = version then (x.1, Function.update x.2 b value) else x).1 = x.1 := by
    intro x
    split_ifs <;> rfl
  rw [lookup_map_keys _ hkey]
  congr 1
  funext nodes
  dsimp only
  split_ifs <;> rfl

theorem AdapterPlacement.nodes_addVersion (e : AdapterPlacement) (version : String) :
    (e.addVersion version).nodes version = some ((e.nodes version).getD noBackend) := by
  unfold AdapterPlacement.addVersion
  cases h : e.nodes version with
  | some nodes => simp [h]
  | none =>
      have hlookup : e.ready.lookup version = none := h
      simp [AdapterPlacement.nodes, List.lookup_append, hlookup]

/-- What makes the validator of an adapter upload accept an answer. -/
theorem validateAdapterUpload_none_iff (p : Scheduler × String) (r : ResourceResponse) :
    (validateAdapterUpload m p r).2 = none ↔
      ∃ version, version ≠ "" ∧ r.response.body.adapter = some (m.id, version) ∧
        (p.2 = "" ∨ p.2 = version) := by
  unfold validateAdapterUpload
  cases r.response.body.adapter with
  | none => simp
  | some identity =>
      obtain ⟨id, version⟩ := identity
      dsimp only
      by_cases hidentity : id ≠ m.id ∨ version = ""
      · rw [if_pos hidentity]
        constructor
        · intro h
          exact absurd h (by simp)
        · rintro ⟨version', hne, h, -⟩
          obtain ⟨rfl, rfl⟩ := Prod.mk.inj (Option.some.inj h)
          exact absurd hidentity (not_or.mpr ⟨fun h => h rfl, hne⟩)
      · rw [if_neg hidentity]
        obtain ⟨hid, hversion⟩ := not_or.mp hidentity
        obtain rfl := Classical.not_not.mp hid
        by_cases hdiffers : p.2 ≠ "" ∧ p.2 ≠ version
        · rw [if_pos hdiffers]
          constructor
          · intro h
            exact absurd h (by simp)
          · rintro ⟨version', -, h, hsame⟩
            obtain ⟨-, rfl⟩ := Prod.mk.inj (Option.some.inj h)
            exact absurd hsame (not_or.mpr hdiffers)
        · rw [if_neg hdiffers]
          refine ⟨fun _ => ⟨version, hversion, rfl, ?_⟩, fun _ => rfl⟩
          by_contra hnot
          exact hdiffers (not_or.mp hnot)

theorem validateAdapterUpload_state (p : Scheduler × String) {r : ResourceResponse}
    {version : String} (hversion : version ≠ "")
    (hr : r.response.body.adapter = some (m.id, version))
    (hsame : p.2 = "" ∨ p.2 = version) :
    (validateAdapterUpload m p r).1 = (p.1.confirmAdapter m version r.backend, version) := by
  have hnot : ¬(p.2 ≠ "" ∧ p.2 ≠ version) := fun h => hsame.elim h.1 h.2
  simp [validateAdapterUpload, hr, hversion, hnot]

theorem accepts_adapter_known (p : Scheduler × String) (hp : p.2 ≠ "")
    (rs : List ResourceResponse) :
    AcceptsAll (validateAdapterUpload m) p rs ↔
      ∀ r ∈ rs, r.failure = none ∧ r.response.body.adapter = some (m.id, p.2) := by
  induction rs generalizing p with
  | nil => simp [AcceptsAll]
  | cons r rs ih =>
      rw [AcceptsAll, validateAdapterUpload_none_iff, List.forall_mem_cons, and_assoc]
      refine and_congr_right fun _ => ?_
      constructor
      · rintro ⟨⟨version, hversion, hr, hsame⟩, hrest⟩
        obtain rfl := hsame.resolve_left hp
        rw [validateAdapterUpload_state p hp hr (Or.inr rfl)] at hrest
        exact ⟨hr, (ih (p.1.confirmAdapter m p.2 r.backend, p.2) hp).mp hrest⟩
      · rintro ⟨hr, hrest⟩
        refine ⟨⟨p.2, hp, hr, Or.inr rfl⟩, ?_⟩
        rw [validateAdapterUpload_state p hp hr (Or.inr rfl)]
        exact (ih (p.1.confirmAdapter m p.2 r.backend, p.2) hp).mpr hrest

/-- The first answer fixes the version. -/
theorem accepts_adapter (s : Scheduler) (rs : List ResourceResponse) :
    AcceptsAll (validateAdapterUpload m) (s, "") rs ↔
      (∀ r ∈ rs, r.failure = none) ∧
        ∃ version, version ≠ "" ∧
          ∀ r ∈ rs, r.response.body.adapter = some (m.id, version) := by
  cases rs with
  | nil =>
      simp only [AcceptsAll, List.not_mem_nil, false_implies, implies_true, and_true,
        true_and, true_iff]
      exact ⟨"v", by decide⟩
  | cons first rest =>
      rw [AcceptsAll, validateAdapterUpload_none_iff]
      constructor
      · rintro ⟨hfailure, ⟨version, hversion, hr, -⟩, hrest⟩
        rw [validateAdapterUpload_state (s, "") hversion hr (Or.inl rfl),
          accepts_adapter_known _ hversion] at hrest
        exact ⟨List.forall_mem_cons.mpr ⟨hfailure, fun r hr => (hrest r hr).1⟩,
          version, hversion, List.forall_mem_cons.mpr ⟨hr, fun r hr => (hrest r hr).2⟩⟩
      · rintro ⟨hfailure, version, hversion, hall⟩
        have hr := hall first List.mem_cons_self
        refine ⟨hfailure first List.mem_cons_self, ⟨version, hversion, hr, Or.inl rfl⟩, ?_⟩
        rw [validateAdapterUpload_state (s, "") hversion hr (Or.inl rfl),
          accepts_adapter_known _ hversion]
        intro r hr
        have hmem := List.mem_cons_of_mem first hr
        exact ⟨hfailure r hmem, hall r hmem⟩

theorem confirmAdapter_cell {s : Scheduler} {cell : Cell AdapterPlacement}
    (hcell : s.adapters.cells m.id = some cell) (hserial : cell.serial = m.current)
    (hactive : cell.active = true) (version : String) (b : Nat) :
    ∃ value,
      (s.confirmAdapter m version b).adapters.cells m.id =
        some { cell with value := value } ∧
      value.deleted = cell.value.deleted ∧
      value.nodes version =
        some (Function.update ((cell.value.nodes version).getD noBackend) b true) := by
  have howns : s.adapters.owns m = true := owns_iff.mpr ⟨cell, hcell, hserial, hactive⟩
  refine ⟨{ (cell.value.addVersion version).setReady version b true with
    current := version
    deletedVersions := Function.update cell.value.deletedVersions version false },
    ?_, ?_, ?_⟩
  · simp only [Scheduler.confirmAdapter, Table.modifyOwn]
    rw [if_pos howns]
    simp [Table.modify, hcell]
  · unfold AdapterPlacement.addVersion AdapterPlacement.setReady
    dsimp only
    split_ifs <;> rfl
  · have h := (cell.value.addVersion version).nodes_setReady version version b true
    rw [AdapterPlacement.nodes_addVersion, Option.map_some, if_pos rfl] at h
    exact h

/-- All acknowledged replicas of the version are in the entry at the end. -/
theorem acceptState_adapter {p : Scheduler × String} {cell : Cell AdapterPlacement}
    (hcell : p.1.adapters.cells m.id = some cell) (hserial : cell.serial = m.current)
    (hactive : cell.active = true) {version : String} (hversion : version ≠ "")
    (hsame : p.2 = "" ∨ p.2 = version) {rs : List ResourceResponse}
    (hall : ∀ r ∈ rs, r.response.body.adapter = some (m.id, version)) :
    ∃ value,
      (acceptState (validateAdapterUpload m) p rs).1.adapters.cells m.id =
        some { cell with value := value } ∧
      value.deleted = cell.value.deleted ∧
      (∀ b, (cell.value.nodes version).getD noBackend b = true ∨
          b ∈ rs.map ResourceResponse.backend →
        (value.nodes version).getD noBackend b = true) ∧
      (acceptState (validateAdapterUpload m) p rs).1.backends.length =
        p.1.backends.length := by
  induction rs generalizing p cell with
  | nil =>
      refine ⟨cell.value, hcell, rfl, fun b hb => ?_, rfl⟩
      simpa using hb
  | cons r rs ih =>
      have hstate := validateAdapterUpload_state p hversion (hall r List.mem_cons_self) hsame
      obtain ⟨value, hvalue, hdeleted, hnodes⟩ :=
        confirmAdapter_cell hcell hserial hactive version r.backend
      have hcell' : (validateAdapterUpload m p r).1.1.adapters.cells m.id =
          some { cell with value := value } := by rw [hstate, hvalue]
      have hsame' : (validateAdapterUpload m p r).1.2 = version := by rw [hstate]
      have hlength : (validateAdapterUpload m p r).1.1.backends.length =
          p.1.backends.length := by
        rw [hstate]
        exact List.length_modify _ _ _
      obtain ⟨final, hfinal, hkept, hready, hlength'⟩ :=
        ih hcell' hserial hactive (Or.inr hsame')
          (fun r hr => hall r (List.mem_cons_of_mem _ hr))
      refine ⟨final, hfinal, hkept.trans hdeleted, fun b hb => hready b ?_,
        hlength'.trans hlength⟩
      rw [List.map_cons, List.mem_cons] at hb
      dsimp only
      rw [hnodes, Option.getD_some]
      by_cases hb' : b = r.backend
      · exact Or.inl (by rw [hb']; exact Function.update_self _ _ _)
      · rcases hb with hb | hb | hb
        · exact Or.inl ((Function.update_of_ne hb' _ _).trans hb)
        · exact absurd hb hb'
        · exact Or.inr hb

end AdapterUpload

section Lists

variable {ι : Type} [DecidableEq ι] {decode : Body → Except String (List ι)}
variable {differ : List ι → List ι → String → String}

/-- Later lists are compared with the first one. -/
theorem accepts_list_known (s : Scheduler) (baseline : List ι) (name : String)
    (rs : List ResourceResponse) :
    AcceptsAll (validateList decode differ) (s, some (baseline, name)) rs ↔
      ∀ r ∈ rs, r.failure = none ∧
        ∃ items, decode r.response.body = .ok items ∧ baseline.Perm items := by
  induction rs with
  | nil => simp [AcceptsAll]
  | cons r rs ih =>
      rw [AcceptsAll, List.forall_mem_cons, and_assoc]
      refine and_congr_right fun _ => ?_
      cases hdecode : decode r.response.body with
      | error e => simp [validateList, hdecode]
      | ok items =>
          by_cases hperm : baseline.Perm items
          · simp [validateList, hdecode, List.isPerm_iff.mpr hperm, hperm, ih]
          · have hfalse : baseline.isPerm items = false := by
              rw [Bool.eq_false_iff]
              exact fun h => hperm (List.isPerm_iff.mp h)
            simp [validateList, hdecode, hfalse, hperm]

theorem accepts_list (s : Scheduler) (rs : List ResourceResponse) :
    AcceptsAll (validateList decode differ) (s, none) rs ↔
      (∀ r ∈ rs, r.failure = none) ∧
        ∃ baseline : List ι, ∀ r ∈ rs,
          ∃ items, decode r.response.body = .ok items ∧ baseline.Perm items := by
  cases rs with
  | nil => simp [AcceptsAll]
  | cons first rest =>
      rw [AcceptsAll]
      cases hdecode : decode first.response.body with
      | error e => simp [validateList, hdecode]
      | ok items =>
          have hstate : validateList decode differ (s, none) first =
              ((s, some (items, first.name)), none) := by simp [validateList, hdecode]
          rw [hstate]
          dsimp only
          rw [accepts_list_known]
          constructor
          · rintro ⟨hfailure, -, hrest⟩
            refine ⟨List.forall_mem_cons.mpr ⟨hfailure, fun r hr => (hrest r hr).1⟩, items,
              List.forall_mem_cons.mpr ⟨⟨items, hdecode, List.Perm.refl _⟩, ?_⟩⟩
            exact fun r hr => (hrest r hr).2
          · rintro ⟨hfailure, baseline, hall⟩
            obtain ⟨items', hitems', hperm⟩ := hall first List.mem_cons_self
            obtain rfl : items = items' := Except.ok.inj (hdecode.symm.trans hitems')
            refine ⟨hfailure first List.mem_cons_self, rfl, fun r hr => ?_⟩
            have hmem := List.mem_cons_of_mem first hr
            obtain ⟨items', hitems', hperm'⟩ := hall r hmem
            exact ⟨hfailure r hmem, items', hitems', hperm.symm.trans hperm'⟩

end Lists

section Finishing

variable {s : Scheduler}

theorem names_modify (l : List Backend) (b : Nat) (f : Backend → Backend)
    (hf : ∀ x, (f x).name = x.name) :
    (l.modify b f).map Backend.name = l.map Backend.name := by
  apply List.ext_getElem
  · simp
  · intro i h1 h2
    simp only [List.getElem_map, List.getElem_modify]
    split_ifs
    · exact hf _
    · rfl

/-- A broadcast touches loads and health marks only. -/
theorem broadcastResource_frame (s : Scheduler) (failures : List (Nat × Nat)) :
    (broadcastResource s failures).states = s.states ∧
      (broadcastResource s failures).adapters = s.adapters ∧
      (broadcastResource s failures).backends.map Backend.name =
        s.backends.map Backend.name := by
  have hfailures : ∀ t : Scheduler,
      (failures.foldl (fun s x => s.failed x.1 x.2) t).states = t.states ∧
        (failures.foldl (fun s x => s.failed x.1 x.2) t).adapters = t.adapters ∧
        (failures.foldl (fun s x => s.failed x.1 x.2) t).backends.map Backend.name =
          t.backends.map Backend.name := by
    induction failures with
    | nil => exact fun t => ⟨rfl, rfl, rfl⟩
    | cons x failures ih =>
        intro t
        have hfailed : (t.failed x.1 x.2).states = t.states ∧
            (t.failed x.1 x.2).adapters = t.adapters ∧
            (t.failed x.1 x.2).backends.map Backend.name = t.backends.map Backend.name := by
          unfold Scheduler.failed
          split_ifs
          · exact ⟨rfl, rfl, names_modify _ _ _ (fun _ => rfl)⟩
          · exact ⟨rfl, rfl, rfl⟩
        obtain ⟨hstates, hadapters, hnames⟩ := ih (t.failed x.1 x.2)
        exact ⟨hstates.trans hfailed.1, hadapters.trans hfailed.2.1,
          hnames.trans hfailed.2.2⟩
  obtain ⟨hstates, hadapters, hnames⟩ := hfailures (s.reserveAll 1)
  refine ⟨hstates, hadapters, ?_⟩
  have hreserve : ∀ (t : Scheduler) (amount : Int),
      (t.reserveAll amount).backends.map Backend.name = t.backends.map Backend.name := by
    intro t amount
    simp [Scheduler.reserveAll, Function.comp_def]
  exact (hreserve _ _).trans (hnames.trans (hreserve _ _))

theorem backends_length_of_names {s t : Scheduler}
    (h : s.backends.map Backend.name = t.backends.map Backend.name) :
    s.backends.length = t.backends.length := by
  simpa using congrArg List.length h

/-- What `beginStateMutation` leaves under the id. -/
theorem beginStateMutation_cell {id : String} {deleted : Bool} {s' : Scheduler}
    {mutation : StateMutation} (h : s.beginStateMutation id deleted = .ok (s', mutation)) :
    id ≠ "" ∧ mutation.id = id ∧ s'.backends = s.backends ∧
      s'.states.cells id = some ⟨mutation.current, true, ⟨noBackend, deleted, none⟩⟩ := by
  unfold Scheduler.beginStateMutation at h
  by_cases hid : id = ""
  · rw [if_pos hid] at h
    exact absurd h (by simp)
  rw [if_neg hid] at h
  cases hbegin : s.states.begin id (fun _ => ⟨noBackend, deleted, none⟩) with
  | none =>
      rw [hbegin] at h
      exact absurd h (by simp)
  | some x =>
      obtain ⟨states, mutation'⟩ := x
      rw [hbegin] at h
      obtain ⟨rfl, rfl⟩ := Prod.mk.inj (Except.ok.inj h)
      obtain ⟨-, rfl, rfl⟩ := begin_eq_some.mp hbegin
      exact ⟨hid, rfl, rfl, Function.update_self _ _ _⟩

/-- What `beginAdapterMutation` leaves under the id. -/
theorem beginAdapterMutation_cell {id : String} {s' : Scheduler}
    {mutation : AdapterMutation} (h : s.beginAdapterMutation id = .ok (s', mutation)) :
    mutation.id = id ∧ s'.backends = s.backends ∧
      ∃ value, value.deleted = false ∧
        s'.adapters.cells id = some ⟨mutation.current, true, value⟩ := by
  unfold Scheduler.beginAdapterMutation at h
  split at h
  · exact absurd h (by simp)
  · rename_i adapters mutation' hbegin
    obtain ⟨rfl, rfl⟩ := Prod.mk.inj (Except.ok.inj h)
    obtain ⟨-, rfl, rfl⟩ := begin_eq_some.mp hbegin
    refine ⟨rfl, rfl, _, ?_, Function.update_self _ _ _⟩
    cases s.adapters.cells id <;> rfl

theorem finishStateMutation_ready {mutation : StateMutation} {value : StatePlacement}
    (hid : mutation.id ≠ "")
    (hcell : s.states.cells mutation.id = some ⟨mutation.current, true, value⟩)
    (hdeleted : value.deleted = false) {b : Nat} (hready : value.ready b = true) :
    (s.finishStateMutation mutation false).stateReady mutation.id b = true := by
  have howns : s.states.owns mutation = true := owns_iff.mpr ⟨_, hcell, rfl, rfl⟩
  simp [Scheduler.finishStateMutation, Scheduler.stateReady, Table.finish, hid, howns, hcell,
    hdeleted, hready]

theorem finishAdapterMutation_ready {mutation : AdapterMutation} {value : AdapterPlacement}
    (hcell : s.adapters.cells mutation.id = some ⟨mutation.current, true, value⟩)
    (hdeleted : value.deleted = false) {version : String} {b : Nat}
    (hready : (value.nodes version).getD noBackend b = true) :
    (s.finishAdapterMutation mutation false).adapterReady mutation.id version b = true := by
  have howns : s.adapters.owns mutation = true := owns_iff.mpr ⟨_, hcell, rfl, rfl⟩
  unfold Scheduler.adapterReady
  split_ifs with hid
  · rfl
  · simp [Scheduler.finishAdapterMutation, Table.finish, howns, hcell, hdeleted, hready]

end Finishing

section Operations

variable {s s' : Scheduler} {failures : List (Nat × Nat)} {results : List Response}
variable {outcome : SyncOutcome}

theorem rejectedMutation_of_good {rs : List ResourceResponse} (hne : rs ≠ [])
    (hgood : ∀ r ∈ rs, r.failure = none) : rejectedMutation rs = false := by
  obtain ⟨first, rest, rfl⟩ := List.exists_cons_of_ne_nil hne
  have hrange := ((failure_eq_none_iff first).mp (hgood first List.mem_cons_self)).2
  rw [Bool.eq_false_iff]
  intro h
  have hall := (of_decide_eq_true h).2
  rw [List.all_cons, Bool.and_eq_true, Bool.and_eq_true, List.contains_iff_mem] at hall
  have hmem := hall.1.2
  simp only [List.mem_cons, List.not_mem_nil, or_false] at hmem
  omega

/-- A deletion is accepted when all backends confirm it. -/
theorem accepts_deletion {names : List String} (hlen : results.length = names.length)
    (s : Scheduler) :
    AcceptsAll validateDeletion s (resourceResponses names results) ↔
      (∀ r ∈ results, r.failure = none) ∧ ∀ r ∈ results, r.body.deleted = some true := by
  have hpure : ∀ (s : Scheduler) (r : ResourceResponse),
      validateDeletion s r = (s, confirmDeletion r.response.body) := fun _ _ => rfl
  rw [accepts_of_pure s hpure]
  have hall : (∀ r ∈ resourceResponses names results,
      r.response.failure = none ∧ confirmDeletion r.response.body = none) ↔
      ∀ r ∈ results, r.failure = none ∧ confirmDeletion r.body = none :=
    forall_responses hlen (fun r => r.failure = none ∧ confirmDeletion r.body = none)
  refine hall.trans ?_
  simp only [confirmDeletion, ite_eq_left_iff, reduceCtorEq, imp_false, Classical.not_not]
  exact ⟨fun h => ⟨fun r hr => (h r hr).1, fun r hr => (h r hr).2⟩,
    fun h r hr => ⟨h.1 r hr, h.2 r hr⟩⟩

theorem mem_backends {names : List String} (hlen : results.length = names.length) {b : Nat}
    (hb : b < names.length) :
    b ∈ (resourceResponses names results).map ResourceResponse.backend := by
  rw [responses_backend hlen]
  exact List.mem_range.mpr hb

section Serving

variable {names : List String}

theorem faithful_uploadState {id : String} (hlen : results.length = s.backends.length)
    (hne : results ≠ [])
    (hserve : serveStateUpload s id failures results = .ok (s', outcome)) :
    Faithful (.uploadState id) (s.backends.map Backend.name) results s' outcome ↔
      ¬MixedSuccess (.uploadState id) results := by
  unfold serveStateUpload at hserve
  cases hbegin : s.beginStateMutation id false with
  | error e =>
      rw [hbegin] at hserve
      exact absurd hserve (by simp)
  | ok x =>
      obtain ⟨begun, mutation⟩ := x
      rw [hbegin] at hserve
      obtain ⟨hid, rfl, hbackends, hcell⟩ := beginStateMutation_cell hbegin
      obtain ⟨hstates, -, hnames⟩ := broadcastResource_frame begun failures
      rw [hbackends] at hnames
      rw [← hstates] at hcell
      have hlen' : results.length = (s.backends.map Backend.name).length := by simpa using hlen
      obtain ⟨rfl, rfl⟩ := Prod.mk.inj (Except.ok.inj hserve)
      simp only [Scheduler.responses, hnames]
      have haccepts := accepts_upload hcell rfl rfl
        (resourceResponses (s.backends.map Backend.name) results)
      refine faithful_iff_of_accepts hlen' hne ?_ ?_
      · rw [haccepts, failure_responses hlen']
        refine and_congr_right fun _ => exists_congr fun info => and_congr_right fun _ => ?_
        exact forall_responses hlen' (fun r => r.body.state = some info)
      · rintro ⟨hgood, info, hinfo, hall⟩
        have hall' := (forall_responses hlen' (fun r => r.body.state = some info)).mpr hall
        have haccepted := haccepts.mpr
          ⟨(failure_responses hlen').mpr hgood, info, hinfo, hall'⟩
        obtain ⟨value, hfinal, hdeleted, hready, hlength⟩ :=
          acceptState_upload hcell rfl hinfo (Or.inl rfl) hall'
        intro b hb
        rw [validateAll_state haccepted] at hb ⊢
        have hcount := backends_length_of_names hnames
        have hlength' : (acceptState (validateStateUpload mutation.id)
            (broadcastResource begun failures)
            (resourceResponses (s.backends.map Backend.name) results)).backends.length =
            s.backends.length := hlength.trans hcount
        refine finishStateMutation_ready hid hfinal hdeleted
          (hready b (Or.inr (mem_backends hlen' ?_)))
        rw [List.length_map, ← hlength']
        unfold Scheduler.finishStateMutation at hb
        rwa [if_neg hid] at hb

theorem faithful_deleteState {id : String} (hlen : results.length = s.backends.length)
    (hne : results ≠ [])
    (hserve : serveStateDelete s id failures results = .ok (s', outcome)) :
    Faithful (.deleteState id) (s.backends.map Backend.name) results s' outcome ↔
      ¬MixedSuccess (.deleteState id) results := by
  unfold serveStateDelete at hserve
  cases hbegin : s.beginStateMutation id true with
  | error e =>
      rw [hbegin] at hserve
      exact absurd hserve (by simp)
  | ok x =>
      obtain ⟨begun, mutation⟩ := x
      rw [hbegin] at hserve
      obtain ⟨-, -, hbackends, -⟩ := beginStateMutation_cell hbegin
      obtain ⟨-, -, hnames⟩ := broadcastResource_frame begun failures
      rw [hbackends] at hnames
      have hlen' : results.length = (s.backends.map Backend.name).length := by simpa using hlen
      obtain ⟨-, rfl⟩ := Prod.mk.inj (Except.ok.inj hserve)
      simp only [Scheduler.responses, hnames]
      exact faithful_iff_of_accepts hlen' hne (accepts_deletion hlen' _) (fun _ => trivial)

theorem faithful_deleteAdapter {id version : String}
    (hlen : results.length = s.backends.length) (hne : results ≠ [])
    (hserve : serveAdapterDelete s id version failures results = .ok (s', outcome)) :
    Faithful (.deleteAdapter id version) (s.backends.map Backend.name) results s' outcome ↔
      ¬MixedSuccess (.deleteAdapter id version) results := by
  unfold serveAdapterDelete at hserve
  cases hbegin : s.beginAdapterMutation id with
  | error e =>
      rw [hbegin] at hserve
      exact absurd hserve (by simp)
  | ok x =>
      obtain ⟨begun, mutation⟩ := x
      rw [hbegin] at hserve
      obtain ⟨-, hbackends, -⟩ := beginAdapterMutation_cell hbegin
      obtain ⟨-, -, hnames⟩ :=
        broadcastResource_frame (begun.deleteAdapter mutation version) failures
      have hnames : (broadcastResource (begun.deleteAdapter mutation version)
          failures).backends.map Backend.name = s.backends.map Backend.name := by
        rw [hnames, ← hbackends]
        rfl
      have hlen' : results.length = (s.backends.map Backend.name).length := by simpa using hlen
      obtain ⟨-, rfl⟩ := Prod.mk.inj (Except.ok.inj hserve)
      simp only [Scheduler.responses, hnames]
      exact faithful_iff_of_accepts hlen' hne (accepts_deletion hlen' _) (fun _ => trivial)

theorem faithful_listStates (hlen : results.length = s.backends.length) (hne : results ≠ [])
    (hserve : serveStateList s failures results = (s', outcome)) :
    Faithful .listStates (s.backends.map Backend.name) results s' outcome ↔
      ¬MixedSuccess .listStates results := by
  obtain ⟨-, -, hnames⟩ := broadcastResource_frame s failures
  have hlen' : results.length = (s.backends.map Backend.name).length := by simpa using hlen
  obtain ⟨-, rfl⟩ := Prod.mk.inj hserve
  simp only [Scheduler.responses, hnames]
  refine faithful_iff_of_accepts hlen' hne ?_ (fun _ => trivial)
  refine (accepts_list _ _).trans ?_
  rw [failure_responses hlen']
  refine and_congr_right fun _ => exists_congr fun items => ?_
  exact forall_responses hlen'
    (fun r => ∃ items', decodeStateList r.body = .ok items' ∧ items.Perm items')

theorem faithful_listAdapters (hlen : results.length = s.backends.length)
    (hne : results ≠ []) (hserve : serveAdapterList s failures results = (s', outcome)) :
    Faithful .listAdapters (s.backends.map Backend.name) results s' outcome ↔
      ¬MixedSuccess .listAdapters results := by
  obtain ⟨-, -, hnames⟩ := broadcastResource_frame s failures
  have hlen' : results.length = (s.backends.map Backend.name).length := by simpa using hlen
  obtain ⟨-, rfl⟩ := Prod.mk.inj hserve
  simp only [Scheduler.responses, hnames]
  refine faithful_iff_of_accepts hlen' hne ?_ (fun _ => trivial)
  refine (accepts_list _ _).trans ?_
  rw [failure_responses hlen']
  refine and_congr_right fun _ => exists_congr fun items => ?_
  exact forall_responses hlen'
    (fun r => ∃ items', decodeAdapterList r.body = .ok items' ∧ items.Perm items')

theorem faithful_uploadAdapter {id : String} (hlen : results.length = s.backends.length)
    (hne : results ≠ [])
    (hserve : serveAdapterUpload s id failures results = .ok (s', outcome)) :
    Faithful (.uploadAdapter id) (s.backends.map Backend.name) results s' outcome ↔
      ¬MixedSuccess (.uploadAdapter id) results := by
  unfold serveAdapterUpload at hserve
  cases hbegin : s.beginAdapterMutation id with
  | error e =>
      rw [hbegin] at hserve
      exact absurd hserve (by simp)
  | ok x =>
      obtain ⟨begun, mutation⟩ := x
      rw [hbegin] at hserve
      obtain ⟨rfl, hbackends, value, hvalue, hcell⟩ := beginAdapterMutation_cell hbegin
      obtain ⟨-, hadapters, hnames⟩ := broadcastResource_frame begun failures
      rw [hbackends] at hnames
      rw [← hadapters] at hcell
      have hlen' : results.length = (s.backends.map Backend.name).length := by simpa using hlen
      obtain ⟨rfl, rfl⟩ := Prod.mk.inj (Except.ok.inj hserve)
      simp only [Scheduler.responses, hnames]
      have haccepts := accepts_adapter (m := mutation) (broadcastResource begun failures)
        (resourceResponses (s.backends.map Backend.name) results)
      refine faithful_iff_of_accepts hlen' hne ?_ ?_
      · rw [haccepts, failure_responses hlen']
        refine and_congr_right fun _ => exists_congr fun version => and_congr_right fun _ => ?_
        exact forall_responses hlen' (fun r => r.body.adapter = some (mutation.id, version))
      · rintro ⟨hgood, version, hversion, hall⟩
        have hgood' := (failure_responses hlen').mpr hgood
        have hall' := (forall_responses hlen'
          (fun r => r.body.adapter = some (mutation.id, version))).mpr hall
        have haccepted := haccepts.mpr ⟨hgood', version, hversion, hall'⟩
        have hresponses : resourceResponses (s.backends.map Backend.name) results ≠ [] := by
          intro hnil
          apply hne
          rw [← responses_response hlen', hnil, List.map_nil]
        obtain ⟨final, hfinal, hdeleted, hready, hlength⟩ :=
          acceptState_adapter (p := (broadcastResource begun failures, "")) hcell rfl rfl
            hversion (Or.inl rfl) hall'
        intro version' hversion' b hb
        obtain rfl : version = version' := by
          obtain ⟨first, rest, rfl⟩ := List.exists_cons_of_ne_nil hne
          have h := (hall first List.mem_cons_self).symm.trans
            (hversion' first List.mem_cons_self)
          exact (Prod.mk.inj (Option.some.inj h)).2
        rw [validateAll_state haccepted, rejectedMutation_of_good hresponses hgood'] at *
        have hcount := backends_length_of_names hnames
        refine finishAdapterMutation_ready hfinal (hdeleted.trans hvalue)
          (hready b (Or.inr (mem_backends hlen' ?_)))
        rw [List.length_map, ← hcount, ← hlength]
        exact hb

end Serving

/-- The client receives what it is promised about an operation, in whatever
order the backends answer, unless they acknowledge it with different statuses. -/
theorem faithful_iff {op : Operation} {attempts : Nat} {network : Nat → Nat → Attempt}
    {schedule : List Nat} (hbackends : s.backends ≠ [])
    (hrun : run attempts network s.backends.length schedule = some results)
    (hserve : serve op s failures results = .ok (s', outcome)) :
    Faithful op (s.backends.map Backend.name) results s' outcome ↔
      ¬MixedSuccess op results := by
  have hlen := run_length hrun
  have hne : results ≠ [] := by
    intro hnil
    rw [hnil] at hlen
    exact hbackends (List.length_eq_zero_iff.mp hlen.symm)
  cases op with
  | uploadState id => exact faithful_uploadState hlen hne hserve
  | deleteState id => exact faithful_deleteState hlen hne hserve
  | listStates => exact faithful_listStates hlen hne (Except.ok.inj hserve)
  | uploadAdapter id => exact faithful_uploadAdapter hlen hne hserve
  | deleteAdapter id version => exact faithful_deleteAdapter hlen hne hserve
  | listAdapters => exact faithful_listAdapters hlen hne (Except.ok.inj hserve)

end Operations

section Mixed

/-- The example state. -/
def exampleState : ListedState := ⟨"s", 8, 2, 1, 1, 4⟩

/-- An acknowledgment of the upload of the example state. -/
def uploaded (status : Int) : Response :=
  ⟨status, [], { Body.empty with state := some exampleState }, none⟩

/-- Two backends of the same weight. -/
def twoBackends : Scheduler where
  backends := [⟨"a", 1, 0, 0⟩, ⟨"b", 1, 0, 0⟩]
  next := 0
  sessions := fun _ => none
  cooldown := 5
  states := Table.empty
  adapters := Table.empty

/-- The first backend answers 200, the second one with another status. -/
def statusNetwork (second : Int) (i _attempt : Nat) : Attempt :=
  ⟨none, uploaded (if i = 0 then 200 else second), none⟩

theorem faithful_uploaded :
    ∃ s' outcome,
      serve (.uploadState "s") twoBackends [] [uploaded 200, uploaded 200] =
        .ok (s', outcome) ∧
      (Faithful (.uploadState "s") ["a", "b"] [uploaded 200, uploaded 200] s' outcome ↔
        ¬MixedSuccess (.uploadState "s") [uploaded 200, uploaded 200]) :=
  ⟨_, _, rfl,
    faithful_iff (s := twoBackends) (List.cons_ne_nil _ _)
      (show run 1 (statusNetwork 200) 2 [1, 0] = some [uploaded 200, uploaded 200] by decide)
      rfl⟩

/-- Status 200 and status 201: the second backend is ready and failed at once. -/
theorem mixed_overlaps :
    ∃ s' outcome,
      run 1 (statusNetwork 201) 2 [1, 0] = some [uploaded 200, uploaded 201] ∧
      serve (.uploadState "s") twoBackends [] [uploaded 200, uploaded 201] =
        .ok (s', outcome) ∧
      outcome = .incomplete ["a", "b"] [("b", 201, "inconsistent backend status")] ∧
      ¬Faithful (.uploadState "s") ["a", "b"] [uploaded 200, uploaded 201] s' outcome := by
  refine ⟨_, _, by decide, rfl, by decide, fun hfaithful => ?_⟩
  have hstatus : ¬OneStatus [uploaded 200, uploaded 201] := by
    rintro ⟨status, hall⟩
    have h1 : (200 : Int) = status := hall (uploaded 200) (by simp)
    have h2 : (201 : Int) = status := hall (uploaded 201) (by simp)
    omega
  have hrefused : ¬Refused [uploaded 200, uploaded 201] := by
    rintro ⟨status, hlow, -, hall⟩
    have h1 : (200 : Int) = status := (hall (uploaded 200) (by simp)).2
    omega
  obtain ⟨ready, failed, houtcome, hperm⟩ :=
    hfaithful.otherwise (fun h => hstatus h.2) hrefused
  obtain ⟨rfl, rfl⟩ := SyncOutcome.incomplete.inj houtcome
  exact absurd hperm.length_eq (by decide)

end Mixed

end Router
end RwkvLightning

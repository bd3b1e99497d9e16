import RwkvLightning.OnlineRl.PolicyHistory

/-!
# A failed publish and its repetition

A publish numbers a version, exports the policy, saves a checkpoint, and pushes
the policy.  When one of the calls throws, the request may be repeated.
`Harmless` is the condition under which the repetition does what the publish
would have done; `Tidy` is the invariant of runs that meet it.

**Results.**
* `saveExport_cases`, `saveCheckpoint_cases`: how the two directories are written.
* `publish_of_clear`: a publish that meets no failing call succeeds.
* `tidy_step`, `tidy_run`: no staging directory is left behind.
* `retriable_iff_harmless`: the exact condition.
-/

namespace RwkvLightning
namespace OnlineRl

open PrefixCachePool PrefixCache Command

variable {W L S G R F : Type}

section Conditions

variable (c : Config W L S G R F)

/-- A policy has to be exported. -/
def Exporting (s : Server W L S G) (target : Target W) (r : PublishRequest) : Prop :=
  (r.save = true ∨ r.checkpoint = true) ∧ s.directoryOf target = none

/-- A checkpoint has to be saved. -/
def Checkpointing (s : Server W L S G) (r : PublishRequest) : Prop :=
  r.checkpoint = true ∧ (s.files s.step).training = none

/-- A call of the export throws after the staging directory was created. -/
def ExportFault (faults : List PublishSite) : Prop :=
  ∃ site ∈ exportSites, site ∈ faults

/-- The same for the checkpoint. -/
def TrainingFault (faults : List PublishSite) : Prop :=
  ∃ site ∈ trainingSites, site ∈ faults

/-- The export meets no failing call. -/
def ExportClear (s : Server W L S G) (target : Target W) (r : PublishRequest)
    (faults : List PublishSite) : Prop :=
  Exporting s target r → PublishSite.createStaging ∉ faults ∧ ¬ ExportFault faults

/-- The checkpoint meets no failing call. -/
def CheckpointClear (s : Server W L S G) (r : PublishRequest) (faults : List PublishSite) :
    Prop :=
  Checkpointing s r → PublishSite.createTrainingStaging ∉ faults ∧ ¬ TrainingFault faults

/-- The publish meets no failing call. -/
def Clear (s : Server W L S G) (r : PublishRequest) (faults : List PublishSite) : Prop :=
  (s.changed = true → PublishSite.snapshot ∉ faults ∧ PublishSite.pushPolicy ∉ faults) ∧
    ExportClear s (s.target c s.changed) r faults ∧ CheckpointClear s r faults

/-- A staging directory of the export that was created is removed. -/
def ExportRemoved (s : Server W L S G) (r : PublishRequest) (faults : List PublishSite) : Prop :=
  Exporting s (s.target c s.changed) r → PublishSite.createStaging ∉ faults →
    ExportFault faults → PublishSite.removeStaging ∉ faults

/-- A staging directory of the checkpoint that was created is removed. -/
def TrainingRemoved (s : Server W L S G) (r : PublishRequest) (faults : List PublishSite) :
    Prop :=
  ExportClear s (s.target c s.changed) r faults → Checkpointing s r →
    PublishSite.createTrainingStaging ∉ faults → TrainingFault faults →
    c.learner.hasTrainer = false ∧ PublishSite.removeTrainingStaging ∉ faults

/--
The publish names another step, or it meets no failing call, or there is no new
policy and what the failing call leaves behind is removed.
-/
def Harmless (s : Server W L S G) (r : PublishRequest) (faults : List PublishSite) : Prop :=
  r.expectedStep ≠ s.step ∨ Clear c s r faults ∨
    (s.changed = false ∧ ExportRemoved c s r faults ∧ TrainingRemoved c s r faults)

/--
If the publish fails, then its repetition does what the publish does when
nothing fails; and it succeeds, unless the request is refused for its step.
-/
def Retriable (s : Server W L S G) (r : PublishRequest) (faults : List PublishSite) : Prop :=
  (∃ e, (s.publish c r faults).2 = .error e) →
    (s.publish c r faults).1.publish c r [] = s.publish c r [] ∧
      (r.expectedStep = s.step →
        ∃ reply, ((s.publish c r faults).1.publish c r []).2 = .ok reply)

/-- Every publish of the run is harmless. -/
def HarmlessRun : Server W L S G → List (Event F S G) → Prop
  | _, [] => True
  | s, e :: events =>
      (match e with
        | .publish r faults => Harmless c s r faults
        | _ => True) ∧ HarmlessRun (step c s e) events

/-- The steps of the policies, with their directories. -/
def exportRecords (heap : List (Policy W)) : List (Nat × Option String) :=
  heap.map (fun p => (p.step, p.directory))

/-- No staging directory, and every export belongs to a policy. -/
structure TidyFiles (files : Nat → Slot W L) (heap : List (Policy W)) : Prop where
  staging : ∀ n, (files n).staging = false
  trainingStaging : ∀ n, (files n).trainingStaging = false
  exported : ∀ n, (files n).exported.isSome = true →
    ∃ directory, (n, some directory) ∈ exportRecords heap
  training : ∀ n, (files n).training.isSome = true → n ∈ heap.map Policy.step

/-- The files between two requests. -/
structure Tidy (s : Server W L S G) : Prop extends TidyFiles s.files s.heap where
  history : History s
  bounded : s.policies.length ≤ c.options.versions
  steps : (s.heap.map Policy.step).Pairwise (· < ·)

end Conditions

section Files

variable (c : Config W L S G R F) {s : Server W L S G}

theorem any_exportSites (faults : List PublishSite) :
    exportSites.any (fun site => site ∈ faults) = true ↔ ExportFault faults := by
  simp [ExportFault]

theorem any_trainingSites (faults : List PublishSite) :
    trainingSites.any (fun site => site ∈ faults) = true ↔ TrainingFault faults := by
  simp [TrainingFault]

/-- The server and the target after an export. -/
def Server.withExport (s : Server W L S G) (target : Target W) : Server W L S G × Target W :=
  let s' := s.setSlot { s.files s.step with
    exported := some
      { weights := c.learner.snapshot s.learner, version := s.versionOf target,
        step := s.step } }
  s'.setDirectory (s'.exportDir c) target

/-- The server after a checkpoint. -/
def Server.withTraining (s : Server W L S G) : Server W L S G :=
  s.setSlot { s.files s.step with training := some { learner := s.learner, step := s.step } }

/-- How an export that is needed ends: not begun, begun in vain, or done. -/
theorem saveExport_cases {target : Target W} {r : PublishRequest} (faults : List PublishSite)
    (hneeded : Exporting s target r)
    (hstaging : (s.files s.step).staging = false)
    (hexported : (s.files s.step).exported = none) :
    (PublishSite.createStaging ∈ faults ∧
        ∃ e, s.saveExport c target r faults = (s, .error e)) ∨
      (PublishSite.createStaging ∉ faults ∧ ExportFault faults ∧
        ∃ e, s.saveExport c target r faults =
          (s.setSlot { s.files s.step with
            staging := decide (PublishSite.removeStaging ∈ faults) }, .error e)) ∨
      (PublishSite.createStaging ∉ faults ∧ ¬ ExportFault faults ∧
        s.saveExport c target r faults =
          ((s.withExport c target).1, .ok (s.withExport c target).2)) := by
  unfold Exporting at hneeded
  unfold Server.saveExport
  rw [if_pos hneeded]
  have hfree : ¬ ((s.files s.step).exported.isSome = true ∨
      (s.files s.step).staging = true) := by
    simp [hexported, hstaging]
  unfold Server.exportPolicy
  dsimp only
  rw [if_neg hfree]
  by_cases hcreate : PublishSite.createStaging ∈ faults
  · rw [if_pos hcreate]
    exact Or.inl ⟨hcreate, _, rfl⟩
  · rw [if_neg hcreate]
    by_cases hfault : ExportFault faults
    · rw [if_pos ((any_exportSites faults).mpr hfault)]
      exact Or.inr (Or.inl ⟨hcreate, hfault, _, rfl⟩)
    · rw [if_neg fun h => hfault ((any_exportSites faults).mp h)]
      exact Or.inr (Or.inr ⟨hcreate, hfault, rfl⟩)

theorem saveExport_skip {target : Target W} {r : PublishRequest} (faults : List PublishSite)
    (hneeded : ¬ Exporting s target r) :
    s.saveExport c target r faults = (s, .ok target) := by
  unfold Exporting at hneeded
  unfold Server.saveExport
  rw [if_neg hneeded]

/-- How a checkpoint that is needed ends. -/
theorem saveCheckpoint_cases {r : PublishRequest} (faults : List PublishSite)
    (hneeded : Checkpointing s r) (hstaging : (s.files s.step).trainingStaging = false) :
    (PublishSite.createTrainingStaging ∈ faults ∧
        ∃ e, s.saveCheckpoint c r faults = (s, .error e)) ∨
      (PublishSite.createTrainingStaging ∉ faults ∧ TrainingFault faults ∧
        ∃ e, s.saveCheckpoint c r faults =
          (s.setSlot { s.files s.step with
            trainingStaging := c.learner.hasTrainer ||
              decide (PublishSite.removeTrainingStaging ∈ faults) }, .error e)) ∨
      (PublishSite.createTrainingStaging ∉ faults ∧ ¬ TrainingFault faults ∧
        s.saveCheckpoint c r faults = (s.withTraining, .ok ())) := by
  unfold Server.saveCheckpoint
  rw [if_pos hneeded.1]
  unfold Server.saveTraining
  dsimp only
  rw [if_neg (by simp [hneeded.2]), if_neg (by simp [hstaging])]
  by_cases hcreate : PublishSite.createTrainingStaging ∈ faults
  · rw [if_pos hcreate]
    exact Or.inl ⟨hcreate, _, rfl⟩
  · rw [if_neg hcreate]
    by_cases hfault : TrainingFault faults
    · rw [if_pos ((any_trainingSites faults).mpr hfault)]
      exact Or.inr (Or.inl ⟨hcreate, hfault, _, rfl⟩)
    · rw [if_neg fun h => hfault ((any_trainingSites faults).mp h)]
      exact Or.inr (Or.inr ⟨hcreate, hfault, rfl⟩)

theorem saveCheckpoint_skip {r : PublishRequest} (faults : List PublishSite)
    (hneeded : ¬ Checkpointing s r) : s.saveCheckpoint c r faults = (s, .ok ()) := by
  unfold Server.saveCheckpoint
  by_cases hcheckpoint : r.checkpoint = true
  · have hsome : (s.files s.step).training.isSome = true := by
      rw [Option.isSome_iff_ne_none]
      exact fun hnone => hneeded ⟨hcheckpoint, hnone⟩
    rw [if_pos hcheckpoint]
    unfold Server.saveTraining
    dsimp only
    rw [if_pos hsome]
  · rw [if_neg hcheckpoint]

/-- What an export leaves of the step's slot. -/
theorem withExport_slot (target : Target W) :
    (s.withExport c target).1.step = s.step ∧
      (∀ n, n ≠ s.step → (s.withExport c target).1.files n = s.files n) ∧
      (s.withExport c target).1.files s.step = { s.files s.step with
        exported := some
          { weights := c.learner.snapshot s.learner, version := s.versionOf target,
            step := s.step } } := by
  cases target with
  | existing i =>
      refine ⟨rfl, fun n hn => ?_, ?_⟩
      · exact Function.update_of_ne hn _ _
      · exact Function.update_self _ _ _
  | fresh p =>
      refine ⟨rfl, fun n hn => ?_, ?_⟩
      · exact Function.update_of_ne hn _ _
      · exact Function.update_self _ _ _

/-- Writing back a slot as it was. -/
theorem setSlot_self {slot : Slot W L} (h : slot = s.files s.step) : s.setSlot slot = s := by
  subst h
  unfold Server.setSlot
  rw [Function.update_eq_self]

end Files

section Publishing

variable (c : Config W L S G R F) {s : Server W L S G}
variable {r : PublishRequest} {faults : List PublishSite}

theorem not_exportFault_nil : ¬ ExportFault [] := by
  rintro ⟨site, -, hin⟩
  cases hin

theorem not_trainingFault_nil : ¬ TrainingFault [] := by
  rintro ⟨site, -, hin⟩
  cases hin

/-- The export does not touch the checkpoint. -/
theorem saveExport_training {s₁ : Server W L S G} {target target₁ : Target W}
    (hstaging : (s.files s.step).staging = false)
    (hexported : s.directoryOf target = none → (s.files s.step).exported = none)
    (h : s.saveExport c target r faults = (s₁, .ok target₁)) :
    s₁.step = s.step ∧ (s₁.files s.step).training = (s.files s.step).training ∧
      (s₁.files s.step).trainingStaging = (s.files s.step).trainingStaging := by
  by_cases hneeded : Exporting s target r
  · rcases saveExport_cases c faults hneeded hstaging (hexported hneeded.2) with
      ⟨-, e, heq⟩ | ⟨-, -, e, heq⟩ | ⟨-, -, heq⟩
    · rw [h] at heq
      cases heq
    · rw [h] at heq
      cases heq
    · rw [h] at heq
      cases heq
      obtain ⟨hstep, -, hslot⟩ := withExport_slot c (s := s) target
      exact ⟨hstep, by rw [hslot], by rw [hslot]⟩
  · rw [saveExport_skip c faults hneeded] at h
    cases h
    exact ⟨rfl, rfl, rfl⟩

/-- Without failing calls the files are written, and the faults do not matter. -/
theorem saveAll_of_clear {target : Target W}
    (hstaging : (s.files s.step).staging = false)
    (htrainingStaging : (s.files s.step).trainingStaging = false)
    (hexported : s.directoryOf target = none → (s.files s.step).exported = none)
    (hexport : ExportClear s target r faults) (hcheckpoint : CheckpointClear s r faults) :
    ∃ s₂ target₂, s.saveAll c target r faults = (s₂, .ok target₂) ∧
      s.saveAll c target r [] = (s₂, .ok target₂) := by
  have hfirst : ∃ s₁ target₁, s.saveExport c target r faults = (s₁, .ok target₁) ∧
      s.saveExport c target r [] = (s₁, .ok target₁) := by
    by_cases hneeded : Exporting s target r
    · obtain ⟨hcreate, hfault⟩ := hexport hneeded
      have hnone := hexported hneeded.2
      rcases saveExport_cases c faults hneeded hstaging hnone with
        ⟨hin, -⟩ | ⟨-, hin, -⟩ | ⟨-, -, heq⟩
      · exact absurd hin hcreate
      · exact absurd hin hfault
      · rcases saveExport_cases c [] hneeded hstaging hnone with
          ⟨hin, -⟩ | ⟨-, hin, -⟩ | ⟨-, -, heq'⟩
        · cases hin
        · exact absurd hin not_exportFault_nil
        · exact ⟨_, _, heq, heq'⟩
    · exact ⟨s, target, saveExport_skip c faults hneeded, saveExport_skip c [] hneeded⟩
  obtain ⟨s₁, target₁, heq, heq'⟩ := hfirst
  obtain ⟨hstep, htraining, hstaging₁⟩ := saveExport_training c hstaging hexported heq
  have hsecond : ∃ s₂, s₁.saveCheckpoint c r faults = (s₂, .ok ()) ∧
      s₁.saveCheckpoint c r [] = (s₂, .ok ()) := by
    by_cases hneeded : Checkpointing s₁ r
    · have hneeded' : Checkpointing s r := by
        refine ⟨hneeded.1, ?_⟩
        rw [← htraining, ← hstep]
        exact hneeded.2
      obtain ⟨hcreate, hfault⟩ := hcheckpoint hneeded'
      have hclean : (s₁.files s₁.step).trainingStaging = false := by
        rw [hstep, hstaging₁, htrainingStaging]
      rcases saveCheckpoint_cases c faults hneeded hclean with
        ⟨hin, -⟩ | ⟨-, hin, -⟩ | ⟨-, -, heq⟩
      · exact absurd hin hcreate
      · exact absurd hin hfault
      · rcases saveCheckpoint_cases c [] hneeded hclean with
          ⟨hin, -⟩ | ⟨-, hin, -⟩ | ⟨-, -, heq'⟩
        · cases hin
        · exact absurd hin not_trainingFault_nil
        · exact ⟨_, heq, heq'⟩
    · exact ⟨s₁, saveCheckpoint_skip c faults hneeded, saveCheckpoint_skip c [] hneeded⟩
  obtain ⟨s₂, hsaved, hsaved'⟩ := hsecond
  refine ⟨s₂, target₁, ?_, ?_⟩
  · simp only [Server.saveAll, heq, hsaved]
  · simp only [Server.saveAll, heq', hsaved']

/-- What `publish` does after the files. -/
def publishEnd (r : PublishRequest) :
    Server W L S G × Except HttpError (Target W) → Server W L S G × Except HttpError Published
  | (s, .error e) => (s, .error e)
  | (s, .ok target) =>
      (s.install c target,
        .ok
          { directory := s.directoryOf target, checkpoint := r.checkpoint
            policyVersion :=
              ((s.install c target).heap[(s.install c target).newest]?.map Policy.version).getD ""
            step := (s.install c target).step })

theorem publish_eq_end (hstep : r.expectedStep = s.step)
    (hpush : s.changed = true →
      PublishSite.snapshot ∉ faults ∧ PublishSite.pushPolicy ∉ faults) :
    s.publish c r faults =
      publishEnd c r (s.numbered.saveAll c (s.numbered.target c s.changed) r faults) := by
  unfold Server.publish
  rw [if_neg (not_not.mpr hstep)]
  dsimp only
  rw [if_neg fun h => (hpush h.1).1 h.2]
  rcases s.numbered.saveAll c (s.numbered.target c s.changed) r faults with ⟨s₁, result⟩
  cases result with
  | error e => rfl
  | ok target =>
      dsimp only
      rw [if_neg fun h => (hpush h.1).2 h.2]
      rfl

/-- Numbering a version changes nothing else. -/
theorem numbered_frame (s : Server W L S G) :
    s.numbered.files = s.files ∧ s.numbered.step = s.step ∧ s.numbered.heap = s.heap ∧
      s.numbered.policies = s.policies ∧ s.numbered.learner = s.learner := by
  unfold Server.numbered
  split <;> exact ⟨rfl, rfl, rfl, rfl, rfl⟩

theorem numbered_eq (h : s.changed = false) : s.numbered = s := by
  simp [Server.numbered, h]

theorem changed_eq {s' : Server W L S G} (hs : SameHistory s s') : s'.changed = s.changed := by
  have hsteps : s'.heap.map Policy.step = s.heap.map Policy.step := hs.map_heap fun _ => rfl
  unfold Server.changed Server.newest
  rw [hs.policies, ← List.getElem?_map, ← List.getElem?_map, hsteps, hs.step]

/-- The next publish has a target that is exported when this one's is. -/
theorem directoryOf_numbered :
    s.numbered.directoryOf (s.numbered.target c s.changed) =
      s.directoryOf (s.target c s.changed) := by
  obtain ⟨-, -, hheap, hpolicies, -⟩ := numbered_frame s
  cases hchanged : s.changed with
  | false => rw [numbered_eq hchanged]
  | true => rfl

variable {c}

/-- The newest policy is the last of the steps. -/
theorem Tidy.step_le (h : Tidy c s) {p q : Policy W} (hp : s.heap[s.newest]? = some p)
    (hq : q ∈ s.heap) : q.step < p.step ∨ q = p := by
  obtain ⟨i, hi, rfl⟩ := List.mem_iff_getElem.mp hq
  obtain ⟨hnewest, rfl⟩ := List.getElem?_eq_some_iff.mp hp
  have hlast := h.history.newest_eq
  by_cases heq : i = s.newest
  · subst heq
    exact Or.inr rfl
  · left
    have hlt := List.pairwise_iff_getElem.mp h.steps i s.newest (by simpa using hi)
      (by simpa using hnewest) (by omega)
    simpa using hlt

theorem changed_iff {p : Policy W} (hp : s.heap[s.newest]? = some p) :
    s.changed = true ↔ p.step ≠ s.step := by
  simp [Server.changed, hp]

/-- Nothing of a new step was written yet. -/
theorem Tidy.slot_of_changed (h : Tidy c s) (hchanged : s.changed = true) :
    (s.files s.step).exported = none ∧ (s.files s.step).training = none := by
  obtain ⟨p, hp, hle, -⟩ := h.history.newest_policy
  have hne := (changed_iff hp).mp hchanged
  have hnone : ∀ q ∈ s.heap, q.step ≠ s.step := by
    intro q hq
    rcases h.step_le hp hq with hlt | rfl
    · omega
    · exact hne
  constructor
  · rw [← Option.not_isSome_iff_eq_none]
    intro hsome
    obtain ⟨directory, hin⟩ := h.exported _ hsome
    obtain ⟨q, hq, heq⟩ := List.mem_map.mp hin
    exact hnone q hq (congrArg Prod.fst heq)
  · rw [← Option.not_isSome_iff_eq_none]
    intro hsome
    obtain ⟨q, hq, hstep⟩ := List.mem_map.mp (h.training _ hsome)
    exact hnone q hq hstep

/-- A policy without a directory was not exported. -/
theorem Tidy.exported_none (h : Tidy c s)
    (hdirectory : s.directoryOf (s.target c s.changed) = none) :
    (s.files s.step).exported = none := by
  cases hchanged : s.changed with
  | true => exact (h.slot_of_changed hchanged).1
  | false =>
      obtain ⟨p, hp, hle, -⟩ := h.history.newest_policy
      have hstep : p.step = s.step := by
        by_contra hne
        rw [(changed_iff hp).mpr hne] at hchanged
        cases hchanged
      rw [← Option.not_isSome_iff_eq_none]
      intro hsome
      obtain ⟨directory, hin⟩ := h.exported _ hsome
      obtain ⟨q, hq, heq⟩ := List.mem_map.mp hin
      have hqstep : q.step = s.step := congrArg Prod.fst heq
      have hqdirectory : q.directory = some directory := congrArg Prod.snd heq
      rcases h.step_le hp hq with hlt | rfl
      · omega
      · have hnone : q.directory = none := by
          simpa [Server.directoryOf, Server.target, hchanged, hp] using hdirectory
        rw [hnone] at hqdirectory
        cases hqdirectory

/-- A publish that meets no failing call succeeds. -/
theorem publish_of_clear (h : Tidy c s) (hstep : r.expectedStep = s.step)
    (hclear : Clear c s r faults) :
    ∃ s₂ target, s.numbered.saveAll c (s.numbered.target c s.changed) r faults =
        (s₂, .ok target) ∧
      s.publish c r faults = publishEnd c r (s₂, .ok target) ∧
      s.publish c r [] = publishEnd c r (s₂, .ok target) := by
  obtain ⟨hpush, hexport, hcheckpoint⟩ := hclear
  obtain ⟨hfiles, hstep', -⟩ := numbered_frame s
  have hdirectory := directoryOf_numbered c (s := s)
  have hexport' : ExportClear s.numbered (s.numbered.target c s.changed) r faults := by
    rintro ⟨hsave, hnone⟩
    exact hexport ⟨hsave, hdirectory ▸ hnone⟩
  have hcheckpoint' : CheckpointClear s.numbered r faults := by
    rintro ⟨hcheckpoint', hnone⟩
    rw [hfiles, hstep'] at hnone
    exact hcheckpoint ⟨hcheckpoint', hnone⟩
  obtain ⟨s₂, target, heq, heq'⟩ := saveAll_of_clear c
    (by rw [hfiles, hstep', h.staging]) (by rw [hfiles, hstep', h.trainingStaging])
    (fun hnone => by
      rw [hfiles, hstep']
      exact h.exported_none (hdirectory ▸ hnone)) hexport' hcheckpoint'
  refine ⟨s₂, target, heq, ?_, ?_⟩
  · rw [publish_eq_end c hstep hpush, heq]
  · rw [publish_eq_end c hstep fun _ => ⟨by simp, by simp⟩, heq']

theorem clear_nil (s : Server W L S G) (r : PublishRequest) : Clear c s r [] :=
  ⟨fun _ => ⟨by simp, by simp⟩, fun _ => ⟨by simp, not_exportFault_nil⟩,
    fun _ => ⟨by simp, not_trainingFault_nil⟩⟩

/-- Without failing calls, a publish at the learner's step succeeds. -/
theorem publish_ok (h : Tidy c s) (hstep : r.expectedStep = s.step) :
    ∃ reply, (s.publish c r []).2 = .ok reply := by
  obtain ⟨s₂, target, -, -, heq⟩ := publish_of_clear h hstep (clear_nil s r)
  exact ⟨_, congrArg Prod.snd heq⟩

/-- Every publish at the learner's step uses up a version when there is something new. -/
theorem version_publish (hstep : r.expectedStep = s.step) :
    (s.publish c r faults).1.version = s.numbered.version := by
  rcases publish_cases c s r faults with ⟨hne, -⟩ | ⟨-, s₁, hsame, hend⟩
  · exact absurd hstep hne
  · rcases hend with ⟨e, heq⟩ | ⟨target, reply, -, heq⟩
    · rw [heq]
      exact hsame.version
    · rw [heq, install_eq]
      cases target with
      | existing i =>
          obtain ⟨-, -, -, -, -, hversion, -⟩ := retire_frame c s₁ s₁.policies.length
          exact hversion.trans hsame.version
      | fresh p =>
          obtain ⟨-, -, -, -, -, hversion, -⟩ :=
            retire_frame c (s₁.push p) (s₁.push p).policies.length
          exact hversion.trans hsame.version

/-- A failed publish of a new policy has used up a version. -/
theorem not_retriable_of_changed (hchanged : s.changed = true)
    (hstep : r.expectedStep = s.step) {s₁ : Server W L S G} {e : HttpError}
    (hfail : s.publish c r faults = (s₁, .error e)) : ¬ Retriable c s r faults := by
  intro hretry
  obtain ⟨hsame, -⟩ := hretry ⟨e, congrArg Prod.snd hfail⟩
  rw [hfail] at hsame
  have hnumbered : SameHistory s.numbered s₁ := by
    rcases publish_cases c s r faults with ⟨hne, -⟩ | ⟨-, s₂, hsame, hend⟩
    · exact absurd hstep hne
    · rcases hend with ⟨e', heq⟩ | ⟨target, reply, -, heq⟩
      · rw [hfail] at heq
        cases heq
        exact hsame
      · rw [hfail] at heq
        cases heq
  have hversion : s.numbered.version = s.version + 1 := by
    simp [Server.numbered, hchanged]
  have hbump : SameHistory { s with version := s.version + 1 } s.numbered := by
    simp only [Server.numbered, hchanged, if_true]
    exact SameHistory.refl _
  have hchanged₁ : s₁.changed = true :=
    (changed_eq (hbump.trans hnumbered)).trans hchanged
  have hstep₁ : r.expectedStep = s₁.step := by
    rw [hstep, hnumbered.step, (numbered_frame s).2.1]
  have hfirst : (s.publish c r []).1.version = s.version + 1 :=
    (version_publish hstep).trans hversion
  have hsecond : (s₁.publish c r []).1.version = s.version + 1 + 1 := by
    rw [version_publish hstep₁, Server.numbered, if_pos hchanged₁]
    show s₁.version + 1 = s.version + 1 + 1
    rw [hnumbered.version, hversion]
  rw [← hsame, hsecond] at hfirst
  omega

section Unchanged

/-- Only the export is missing: the target is the newest policy. -/
theorem target_unchanged (hchanged : s.changed = false) :
    s.target c s.changed = .existing s.newest := by
  simp [Server.target, hchanged]

theorem publish_unchanged (hchanged : s.changed = false) (hstep : r.expectedStep = s.step) :
    s.publish c r faults =
      publishEnd c r (s.saveAll c (.existing s.newest) r faults) := by
  rw [publish_eq_end c hstep fun h => by simp [hchanged] at h, numbered_eq hchanged,
    target_unchanged hchanged]

theorem sameHistory_withExport (s : Server W L S G) (target : Target W) :
    SameHistory s (s.withExport c target).1 :=
  (sameHistory_setSlot s _).trans (sameHistory_setDirectory _ _ target).1

/-- The newest policy has its directory after the export. -/
theorem directoryOf_withExport (h : History s) :
    (s.withExport c (.existing s.newest)).1.directoryOf (.existing s.newest) ≠ none := by
  obtain ⟨p, hp, -⟩ := h.newest_policy
  have hget : (s.withExport c (.existing s.newest)).1.heap[s.newest]? =
      some { p with directory := some (Server.exportDir c s) } := by
    show (s.heap.modify s.newest _)[s.newest]? = _
    rw [List.getElem?_modify_eq, hp]
    rfl
  simp [Server.directoryOf, hget]

/-- A publish whose export is done already ends like the whole publish. -/
theorem publish_withExport (h : Tidy c s) (hchanged : s.changed = false)
    (hstep : r.expectedStep = s.step) (hneeded : Exporting s (.existing s.newest) r) :
    (s.withExport c (.existing s.newest)).1.publish c r [] = s.publish c r [] := by
  have hsame : SameHistory s (s.withExport c (.existing s.newest)).1 :=
    sameHistory_withExport s _
  have hnewest : (s.withExport c (.existing s.newest)).1.newest = s.newest := by
    rw [Server.newest, hsame.policies, Server.newest]
  have hskip : ¬ Exporting (s.withExport c (.existing s.newest)).1 (.existing s.newest) r :=
    fun hagain => directoryOf_withExport h.history hagain.2
  have hnone := h.exported_none (by rw [target_unchanged hchanged]; exact hneeded.2)
  have hdone : s.saveExport c (.existing s.newest) r [] =
      ((s.withExport c (.existing s.newest)).1, .ok (.existing s.newest)) := by
    rcases saveExport_cases c [] hneeded (h.staging _) hnone with
      ⟨hin, -⟩ | ⟨-, hin, -⟩ | ⟨-, -, heq⟩
    · cases hin
    · exact absurd hin not_exportFault_nil
    · exact heq
  rw [publish_unchanged ((changed_eq hsame).trans hchanged) (hstep.trans hsame.step.symm),
    publish_unchanged hchanged hstep, hnewest]
  congr 1
  simp only [Server.saveAll, hdone, saveExport_skip c [] hskip]

/-- The ways a publish without a new policy fails. -/
theorem publish_fails_unchanged (h : Tidy c s) (hchanged : s.changed = false)
    (hstep : r.expectedStep = s.step) {s₁ : Server W L S G} {e : HttpError}
    (hfail : s.publish c r faults = (s₁, .error e)) :
    (Exporting s (.existing s.newest) r ∧ PublishSite.createStaging ∈ faults ∧ s₁ = s) ∨
      (Exporting s (.existing s.newest) r ∧ PublishSite.createStaging ∉ faults ∧
        ExportFault faults ∧
        s₁ = s.setSlot { s.files s.step with
          staging := decide (PublishSite.removeStaging ∈ faults) }) ∨
      (ExportClear s (.existing s.newest) r faults ∧ Checkpointing s r ∧
        ∃ s₂, s.saveExport c (.existing s.newest) r faults = (s₂, .ok (.existing s.newest)) ∧
          ((PublishSite.createTrainingStaging ∈ faults ∧ s₁ = s₂) ∨
            (PublishSite.createTrainingStaging ∉ faults ∧ TrainingFault faults ∧
              s₁ = s₂.setSlot { s₂.files s₂.step with
                trainingStaging := c.learner.hasTrainer ||
                  decide (PublishSite.removeTrainingStaging ∈ faults) }))) := by
  have hsaved : s.saveAll c (.existing s.newest) r faults = (s₁, .error e) := by
    rw [publish_unchanged hchanged hstep] at hfail
    rcases hall : s.saveAll c (.existing s.newest) r faults with ⟨s', result⟩
    rw [hall] at hfail
    cases result with
    | error e' =>
        cases hfail
        rfl
    | ok target => cases hfail
  have hnone : s.directoryOf (.existing s.newest) = none →
      (s.files s.step).exported = none := by
    intro hdirectory
    exact h.exported_none (by rw [target_unchanged hchanged]; exact hdirectory)
  have hlater : ∀ s₂, s.saveExport c (.existing s.newest) r faults =
      (s₂, .ok (.existing s.newest)) → Checkpointing s r ∧
        ((PublishSite.createTrainingStaging ∈ faults ∧ s₁ = s₂) ∨
          (PublishSite.createTrainingStaging ∉ faults ∧ TrainingFault faults ∧
            s₁ = s₂.setSlot { s₂.files s₂.step with
              trainingStaging := c.learner.hasTrainer ||
                decide (PublishSite.removeTrainingStaging ∈ faults) })) := by
    intro s₂ hexport
    obtain ⟨hstep₂, htraining, hstaging⟩ :=
      saveExport_training c (h.staging _) hnone hexport
    simp only [Server.saveAll, hexport] at hsaved
    by_cases hneeded : Checkpointing s₂ r
    · have hneeded' : Checkpointing s r := by
        refine ⟨hneeded.1, ?_⟩
        rw [← htraining, ← hstep₂]
        exact hneeded.2
      have hclean : (s₂.files s₂.step).trainingStaging = false := by
        rw [hstep₂, hstaging, h.trainingStaging]
      refine ⟨hneeded', ?_⟩
      rcases saveCheckpoint_cases c faults hneeded hclean with
        ⟨hin, e', heq⟩ | ⟨hnin, hfault, e', heq⟩ | ⟨-, -, heq⟩
      · rw [heq] at hsaved
        cases hsaved
        exact Or.inl ⟨hin, rfl⟩
      · rw [heq] at hsaved
        cases hsaved
        exact Or.inr ⟨hnin, hfault, rfl⟩
      · rw [heq] at hsaved
        cases hsaved
    · rw [saveCheckpoint_skip c faults hneeded] at hsaved
      cases hsaved
  by_cases hneeded : Exporting s (.existing s.newest) r
  · rcases saveExport_cases c faults hneeded (h.staging _) (hnone hneeded.2) with
      ⟨hin, e', heq⟩ | ⟨hnin, hfault, e', heq⟩ | ⟨hnin, hfault, heq⟩
    · simp only [Server.saveAll, heq] at hsaved
      cases hsaved
      exact Or.inl ⟨hneeded, hin, rfl⟩
    · simp only [Server.saveAll, heq] at hsaved
      cases hsaved
      exact Or.inr (Or.inl ⟨hneeded, hnin, hfault, rfl⟩)
    · obtain ⟨hcheckpoint, hend⟩ := hlater _ heq
      exact Or.inr (Or.inr ⟨fun _ => ⟨hnin, hfault⟩, hcheckpoint, _, heq, hend⟩)
  · have heq := saveExport_skip c faults hneeded
    obtain ⟨hcheckpoint, hend⟩ := hlater _ heq
    exact Or.inr (Or.inr ⟨fun h => absurd h hneeded, hcheckpoint, _, heq, hend⟩)

/-- The export that a failed checkpoint leaves behind is part of the whole publish. -/
theorem publish_saved (h : Tidy c s) (hchanged : s.changed = false)
    (hstep : r.expectedStep = s.step) {s₂ : Server W L S G}
    (hexport : s.saveExport c (.existing s.newest) r faults = (s₂, .ok (.existing s.newest))) :
    s₂.publish c r [] = s.publish c r [] := by
  by_cases hneeded : Exporting s (.existing s.newest) r
  · have hnone := h.exported_none (by rw [target_unchanged hchanged]; exact hneeded.2)
    rcases saveExport_cases c faults hneeded (h.staging _) hnone with
      ⟨-, e, heq⟩ | ⟨-, -, e, heq⟩ | ⟨-, -, heq⟩
    · rw [hexport] at heq
      cases heq
    · rw [hexport] at heq
      cases heq
    · rw [hexport] at heq
      obtain rfl : s₂ = (s.withExport c (.existing s.newest)).1 := congrArg Prod.fst heq
      exact publish_withExport h hchanged hstep hneeded
  · rw [saveExport_skip c faults hneeded] at hexport
    cases hexport
    rfl

/-- A staging directory that stays makes the repetition fail. -/
theorem staged_export_fails (hchanged : s.changed = false)
    (hstep : r.expectedStep = s.step) (hneeded : Exporting s (.existing s.newest) r)
    (slot : Slot W L) (hslot : slot.staging = true) :
    ∃ e, ((s.setSlot slot).publish c r []).2 = .error e := by
  have hsame := sameHistory_setSlot s slot
  have hfiles : (s.setSlot slot).files s.step = slot := Function.update_self _ _ _
  have hall : ∃ e, (s.setSlot slot).saveAll c (.existing s.newest) r [] =
      (s.setSlot slot, .error e) := by
    have hneeded' : (r.save = true ∨ r.checkpoint = true) ∧
        (s.setSlot slot).directoryOf (.existing s.newest) = none := hneeded
    have htaken : ((s.setSlot slot).files (s.setSlot slot).step).exported.isSome = true ∨
        ((s.setSlot slot).files (s.setSlot slot).step).staging = true := by
      show ((s.setSlot slot).files s.step).exported.isSome = true ∨
        ((s.setSlot slot).files s.step).staging = true
      rw [hfiles]
      exact Or.inr hslot
    refine ⟨⟨409, "policy export destination exists"⟩, ?_⟩
    unfold Server.saveAll Server.saveExport Server.exportPolicy
    dsimp only
    rw [if_pos hneeded', if_pos htaken]
  obtain ⟨e, heq⟩ := hall
  rw [publish_unchanged ((changed_eq hsame).trans hchanged) hstep]
  exact ⟨e, by rw [show (s.setSlot slot).newest = s.newest from rfl, heq]; rfl⟩

theorem staged_checkpoint_fails (hchanged : s.changed = false)
    (hstep : r.expectedStep = s.step) (hexport : ¬ Exporting s (.existing s.newest) r)
    (hneeded : r.checkpoint = true) (slot : Slot W L) (htraining : slot.training = none)
    (hslot : slot.trainingStaging = true) :
    ∃ e, ((s.setSlot slot).publish c r []).2 = .error e := by
  have hsame := sameHistory_setSlot s slot
  have hfiles : (s.setSlot slot).files (s.setSlot slot).step = slot :=
    Function.update_self _ _ _
  have hskip : ¬ Exporting (s.setSlot slot) (.existing s.newest) r := hexport
  have hall : ∃ e, (s.setSlot slot).saveAll c (.existing s.newest) r [] =
      (s.setSlot slot, .error e) := by
    refine ⟨⟨if c.learner.hasTrainer then 500 else 409, "checkpoint destination exists"⟩, ?_⟩
    simp only [Server.saveAll, saveExport_skip c [] hskip]
    unfold Server.saveCheckpoint Server.saveTraining
    dsimp only
    rw [if_pos hneeded, hfiles, if_neg (by simp [htraining]), if_pos hslot]
  obtain ⟨e, heq⟩ := hall
  rw [publish_unchanged ((changed_eq hsame).trans hchanged) hstep]
  exact ⟨e, by rw [show (s.setSlot slot).newest = s.newest from rfl, heq]; rfl⟩

end Unchanged

section Exact

/-- What succeeds has met no failing call. -/
theorem clear_of_saveAll {target target' : Target W} {s₂ : Server W L S G}
    (hstaging : (s.files s.step).staging = false)
    (htrainingStaging : (s.files s.step).trainingStaging = false)
    (hexported : s.directoryOf target = none → (s.files s.step).exported = none)
    (hok : s.saveAll c target r faults = (s₂, .ok target')) :
    ExportClear s target r faults ∧ CheckpointClear s r faults := by
  rcases hexport : s.saveExport c target r faults with ⟨s₁, result⟩
  simp only [Server.saveAll, hexport] at hok
  cases result with
  | error e => cases hok
  | ok target₁ =>
      constructor
      · intro hneeded
        rcases saveExport_cases c faults hneeded hstaging (hexported hneeded.2) with
          ⟨-, e, heq⟩ | ⟨-, -, e, heq⟩ | ⟨hnin, hfault, -⟩
        · rw [hexport] at heq
          cases heq
        · rw [hexport] at heq
          cases heq
        · exact ⟨hnin, hfault⟩
      · rintro ⟨hcheckpoint, hnone⟩
        obtain ⟨hstep, htraining, hstaging₁⟩ :=
          saveExport_training c hstaging hexported hexport
        have hneeded : Checkpointing s₁ r := by
          refine ⟨hcheckpoint, ?_⟩
          rw [hstep, htraining]
          exact hnone
        have hclean : (s₁.files s₁.step).trainingStaging = false := by
          rw [hstep, hstaging₁, htrainingStaging]
        dsimp only at hok
        rcases saveCheckpoint_cases c faults hneeded hclean with
          ⟨-, e, heq⟩ | ⟨-, -, e, heq⟩ | ⟨hnin, hfault, -⟩
        · rw [heq] at hok
          cases hok
        · rw [heq] at hok
          cases hok
        · exact ⟨hnin, hfault⟩

theorem clear_of_ok (h : Tidy c s) (hstep : r.expectedStep = s.step)
    {s₁ : Server W L S G} {reply : Published}
    (hok : s.publish c r faults = (s₁, .ok reply)) : Clear c s r faults := by
  have hpush : s.changed = true →
      PublishSite.snapshot ∉ faults ∧ PublishSite.pushPolicy ∉ faults := by
    intro hchanged
    unfold Server.publish at hok
    rw [if_neg (not_not.mpr hstep)] at hok
    dsimp only at hok
    constructor
    · intro hin
      rw [if_pos ⟨hchanged, hin⟩] at hok
      cases hok
    · intro hin
      split at hok
      · cases hok
      · split at hok
        · cases hok
        · rw [if_pos ⟨hchanged, hin⟩] at hok
          cases hok
  refine ⟨hpush, ?_⟩
  rw [publish_eq_end c hstep hpush] at hok
  obtain ⟨hfiles, hstep', -⟩ := numbered_frame s
  have hdirectory := directoryOf_numbered c (s := s)
  rcases hall : s.numbered.saveAll c (s.numbered.target c s.changed) r faults with ⟨s₂, result⟩
  rw [hall] at hok
  cases result with
  | error e => cases hok
  | ok target =>
      obtain ⟨hexport, hcheckpoint⟩ := clear_of_saveAll
        (by rw [hfiles, hstep', h.staging]) (by rw [hfiles, hstep', h.trainingStaging])
        (fun hnone => by
          rw [hfiles, hstep']
          exact h.exported_none (hdirectory ▸ hnone)) hall
      refine ⟨fun hneeded => hexport ⟨hneeded.1, hdirectory.trans hneeded.2⟩,
        fun hneeded => hcheckpoint ⟨hneeded.1, ?_⟩⟩
      rw [hfiles, hstep']
      exact hneeded.2

/-- After the export there is nothing left to export. -/
theorem not_exporting_saved (h : Tidy c s) (hchanged : s.changed = false)
    {s₂ : Server W L S G}
    (hsaved : s.saveExport c (.existing s.newest) r faults = (s₂, .ok (.existing s.newest))) :
    SameHistory s s₂ ∧ s₂.newest = s.newest ∧ ¬ Exporting s₂ (.existing s.newest) r := by
  have hsame : SameHistory s s₂ := by
    have hframe := (sameHistory_saveExport c s (.existing s.newest) r faults).1
    rwa [hsaved] at hframe
  refine ⟨hsame, by rw [Server.newest, hsame.policies, Server.newest], ?_⟩
  by_cases hneeded : Exporting s (.existing s.newest) r
  · have hnone := h.exported_none (by rw [target_unchanged hchanged]; exact hneeded.2)
    rcases saveExport_cases c faults hneeded (h.staging _) hnone with
      ⟨-, e, heq⟩ | ⟨-, -, e, heq⟩ | ⟨-, -, heq⟩
    · rw [hsaved] at heq
      cases heq
    · rw [hsaved] at heq
      cases heq
    · rw [hsaved] at heq
      obtain rfl : s₂ = (s.withExport c (.existing s.newest)).1 := congrArg Prod.fst heq
      exact fun hagain => directoryOf_withExport h.history hagain.2
  · rw [saveExport_skip c faults hneeded] at hsaved
    cases hsaved
    exact hneeded

/-- A failure that leaves nothing behind but an export that belongs to the policy. -/
theorem harmless_failure (h : Tidy c s) (hstep : r.expectedStep = s.step)
    (hharmless : Harmless c s r faults) {s₁ : Server W L S G} {e : HttpError}
    (hfail : s.publish c r faults = (s₁, .error e)) :
    s₁ = s ∨
      (s.changed = false ∧
        s.saveExport c (.existing s.newest) r faults = (s₁, .ok (.existing s.newest))) := by
  rcases hharmless with hne | hclear | ⟨hchanged, hexport, htraining⟩
  · exact absurd hstep hne
  · obtain ⟨s₂, target, -, hok, -⟩ := publish_of_clear h hstep hclear
    rw [hfail] at hok
    cases hok
  · unfold ExportRemoved at hexport
    unfold TrainingRemoved at htraining
    rw [target_unchanged hchanged] at hexport htraining
    rcases publish_fails_unchanged h hchanged hstep hfail with
      ⟨-, -, rfl⟩ | ⟨hneeded, hnin, hfault, rfl⟩ |
        ⟨hclear, hneeded, s₂, hsaved, ⟨-, rfl⟩ | ⟨hnin, hfault, rfl⟩⟩
    · exact Or.inl rfl
    · left
      refine setSlot_self ?_
      simp [hexport hneeded hnin hfault, ← h.staging s.step]
    · exact Or.inr ⟨hchanged, hsaved⟩
    · obtain ⟨htrainer, hremoved⟩ := htraining hclear hneeded hnin hfault
      obtain ⟨hstep₂, -, hstaging⟩ := saveExport_training c (h.staging _)
        (fun hdirectory => h.exported_none (by rw [target_unchanged hchanged]; exact hdirectory))
        hsaved
      have hsame : s₂.setSlot { s₂.files s₂.step with
          trainingStaging := c.learner.hasTrainer ||
            decide (PublishSite.removeTrainingStaging ∈ faults) } = s₂ := by
        refine setSlot_self ?_
        have hclean : (s₂.files s₂.step).trainingStaging = false := by
          rw [hstep₂, hstaging, h.trainingStaging]
        simp [htrainer, hremoved, ← hclean]
      rw [hsame]
      exact Or.inr ⟨hchanged, hsaved⟩

/-- The condition is enough. -/
theorem retriable_of_harmless (h : Tidy c s) (hharmless : Harmless c s r faults) :
    Retriable c s r faults := by
  rintro ⟨e, hfail⟩
  by_cases hstep : r.expectedStep = s.step
  · rcases hpublish : s.publish c r faults with ⟨s₁, result⟩
    rw [hpublish] at hfail
    obtain rfl : result = .error e := hfail
    have hsame : s₁.publish c r [] = s.publish c r [] := by
      rcases harmless_failure h hstep hharmless hpublish with rfl | ⟨hchanged, hsaved⟩
      · rfl
      · exact publish_saved h hchanged hstep hsaved
    refine ⟨hsame, fun _ => ?_⟩
    rw [hsame]
    exact publish_ok h hstep
  · rcases publish_cases c s r faults with ⟨-, heq⟩ | ⟨hstep', -⟩
    · rw [heq]
      exact ⟨rfl, fun hstep' => absurd hstep' hstep⟩
    · exact absurd hstep' hstep

/-- A publish that meets a failing call fails. -/
theorem fails_of_not_clear (h : Tidy c s) (hstep : r.expectedStep = s.step)
    (hclear : ¬ Clear c s r faults) : ∃ s₁ e, s.publish c r faults = (s₁, .error e) := by
  rcases hpublish : s.publish c r faults with ⟨s₁, result⟩
  cases result with
  | error e => exact ⟨s₁, e, rfl⟩
  | ok reply => exact absurd (clear_of_ok h hstep hpublish) hclear

/-- The condition is needed. -/
theorem harmless_of_retriable (h : Tidy c s) (hretry : Retriable c s r faults) :
    Harmless c s r faults := by
  by_contra hharmful
  unfold Harmless at hharmful
  push Not at hharmful
  obtain ⟨hstep, hclear, hremains⟩ := hharmful
  obtain ⟨s₁, e, hfail⟩ := fails_of_not_clear h hstep hclear
  cases hchanged : s.changed with
  | true => exact not_retriable_of_changed hchanged hstep hfail hretry
  | false =>
      obtain ⟨-, hok⟩ := hretry ⟨e, congrArg Prod.snd hfail⟩
      obtain ⟨reply, hreply⟩ := hok hstep
      rw [hfail] at hreply
      dsimp only at hreply
      have hremains := hremains hchanged
      unfold ExportRemoved TrainingRemoved at hremains
      rw [target_unchanged hchanged] at hremains
      rcases publish_fails_unchanged h hchanged hstep hfail with
        ⟨hneeded, hin, -⟩ | ⟨hneeded, hnin, hfault, rfl⟩ |
          ⟨hclear', hneeded, s₂, hsaved, ⟨hin, -⟩ | ⟨hnin, hfault, rfl⟩⟩
      · exact hremains (fun _ hnin => absurd hin hnin)
          (fun hclear' => absurd hin (hclear' hneeded).1)
      · by_cases hremoved : PublishSite.removeStaging ∈ faults
        · obtain ⟨e', herror⟩ := staged_export_fails (c := c) hchanged hstep hneeded
            { s.files s.step with
              staging := decide (PublishSite.removeStaging ∈ faults) } (by simp [hremoved])
          rw [herror] at hreply
          cases hreply
        · exact hremains (fun _ _ _ => hremoved)
            (fun hclear' => absurd hfault (hclear' hneeded).2)
      · exact hremains (fun hneeded' hnin hfault => absurd hfault (hclear' hneeded').2)
          (fun _ _ hnin => absurd hin hnin)
      · by_cases hremoved : c.learner.hasTrainer = false ∧
            PublishSite.removeTrainingStaging ∉ faults
        · exact hremains (fun hneeded' hnin hfault => absurd hfault (hclear' hneeded').2)
            (fun _ _ _ _ => hremoved)
        · obtain ⟨hsame, hnewest, hexport⟩ := not_exporting_saved h hchanged hsaved
          obtain ⟨hstep₂, htraining, -⟩ := saveExport_training c (h.staging _)
            (fun hdirectory => h.exported_none (by rw [target_unchanged hchanged]; exact hdirectory))
            hsaved
          have hstays : (c.learner.hasTrainer ||
              decide (PublishSite.removeTrainingStaging ∈ faults)) = true := by
            by_contra hnot
            refine hremoved ?_
            simpa using hnot
          obtain ⟨e', herror⟩ := staged_checkpoint_fails (c := c)
            ((changed_eq hsame).trans hchanged) (hstep.trans hsame.step.symm)
            (hnewest ▸ hexport) hneeded.1
            { s₂.files s₂.step with
              trainingStaging := c.learner.hasTrainer ||
                decide (PublishSite.removeTrainingStaging ∈ faults) }
            (by rw [hstep₂, htraining]; exact hneeded.2) hstays
          rw [herror] at hreply
          cases hreply

/-- The repetition works exactly when the failure is harmless. -/
theorem retriable_iff (h : Tidy c s) :
    Retriable c s r faults ↔ Harmless c s r faults :=
  ⟨harmless_of_retriable h, retriable_of_harmless h⟩

end Exact

section Runs

theorem TidyFiles.update {files : Nat → Slot W L} {heap : List (Policy W)}
    (h : TidyFiles files heap) {n : Nat} {slot : Slot W L} (hstaging : slot.staging = false)
    (htrainingStaging : slot.trainingStaging = false)
    (hexported : slot.exported.isSome = true →
      ∃ directory, (n, some directory) ∈ exportRecords heap)
    (htraining : slot.training.isSome = true → n ∈ heap.map Policy.step) :
    TidyFiles (Function.update files n slot) heap := by
  have hcases : ∀ m, (m = n ∧ Function.update files n slot m = slot) ∨
      Function.update files n slot m = files m := by
    intro m
    by_cases hm : m = n
    · subst hm
      exact Or.inl ⟨rfl, Function.update_self _ _ _⟩
    · exact Or.inr (Function.update_of_ne hm _ _)
  constructor
  · intro m
    rcases hcases m with ⟨-, heq⟩ | heq
    · rw [heq, hstaging]
    · rw [heq, h.staging]
  · intro m
    rcases hcases m with ⟨-, heq⟩ | heq
    · rw [heq, htrainingStaging]
    · rw [heq, h.trainingStaging]
  · intro m hm
    rcases hcases m with ⟨rfl, heq⟩ | heq
    · exact hexported (heq ▸ hm)
    · exact h.exported m (heq ▸ hm)
  · intro m hm
    rcases hcases m with ⟨rfl, heq⟩ | heq
    · exact htraining (heq ▸ hm)
    · exact h.training m (heq ▸ hm)

theorem TidyFiles.mono {files : Nat → Slot W L} {heap heap' : List (Policy W)}
    (h : TidyFiles files heap)
    (hexported : ∀ n directory, (n, some directory) ∈ exportRecords heap →
      ∃ directory', (n, some directory') ∈ exportRecords heap')
    (hsteps : ∀ n ∈ heap.map Policy.step, n ∈ heap'.map Policy.step) :
    TidyFiles files heap' := by
  refine ⟨h.staging, h.trainingStaging, fun n hn => ?_, fun n hn => hsteps n (h.training n hn)⟩
  obtain ⟨directory, hin⟩ := h.exported n hn
  exact hexported n directory hin

/-- The policies, and the one that is published. -/
def targetHeap (s : Server W L S G) : Target W → List (Policy W)
  | .existing _ => s.heap
  | .fresh p => s.heap ++ [p]

/-- The published policy is the learner's. -/
def TargetAt (s : Server W L S G) : Target W → Prop
  | .existing i => ∃ p : Policy W, s.heap[i]? = some p ∧ p.step = s.step
  | .fresh p => p.step = s.step

theorem TargetAt.mem {target : Target W} (h : TargetAt s target) :
    s.step ∈ (targetHeap s target).map Policy.step := by
  cases target with
  | existing i =>
      obtain ⟨p, hp, hstep⟩ := h
      exact List.mem_map.mpr ⟨p, List.mem_of_getElem? hp, hstep⟩
  | fresh p => exact List.mem_map.mpr ⟨p, by simp [targetHeap], h⟩

/-- An export is recorded with its policy. -/
theorem tidyFiles_withExport {target : Target W} (htarget : TargetAt s target)
    (h : TidyFiles s.files (targetHeap s target)) :
    TidyFiles (s.withExport c target).1.files
        (targetHeap (s.withExport c target).1 (s.withExport c target).2) ∧
      TargetAt (s.withExport c target).1 (s.withExport c target).2 := by
  cases target with
  | existing i =>
      obtain ⟨p, hp, hstep⟩ := htarget
      have hheap : ∀ j, (s.withExport c (.existing i)).1.heap[j]? =
          if i = j then some { p with directory := some (Server.exportDir c s) }
          else s.heap[j]? := by
        intro j
        show (s.heap.modify i _)[j]? = _
        rw [List.getElem?_modify]
        by_cases hij : i = j
        · rw [if_pos hij, ← hij, hp]
          simp
          rfl
        · simp [hij]
      have hnew : (s.step, some (Server.exportDir c s)) ∈
          exportRecords (s.withExport c (.existing i)).1.heap := by
        refine List.mem_map.mpr ⟨_, List.mem_of_getElem? ((hheap i).trans (if_pos rfl)), ?_⟩
        simp [hstep]
      have hsteps : (s.withExport c (.existing i)).1.heap.map Policy.step =
          s.heap.map Policy.step :=
        (sameHistory_withExport s (.existing i)).map_heap fun _ => rfl
      refine ⟨?_, ⟨_, (hheap i).trans (if_pos rfl), hstep⟩⟩
      have hmono : TidyFiles s.files (s.withExport c (.existing i)).1.heap := by
        refine h.mono (fun n directory hin => ?_) (fun n hn => hsteps ▸ hn)
        obtain ⟨q, hq, heq⟩ := List.mem_map.mp hin
        obtain ⟨j, hj⟩ : ∃ j : Nat, s.heap[j]? = some q := List.mem_iff_getElem?.mp hq
        by_cases hij : i = j
        · subst hij
          rw [hp, Option.some.injEq] at hj
          subst hj
          have hn : n = s.step := (congrArg Prod.fst heq).symm.trans hstep
          rw [hn]
          exact ⟨_, hnew⟩
        · exact ⟨directory, List.mem_map.mpr
            ⟨q, List.mem_of_getElem? ((hheap j).trans ((if_neg hij).trans hj)), heq⟩⟩
      refine hmono.update (h.staging _) (h.trainingStaging _) (fun _ => ⟨_, hnew⟩) ?_
      intro htraining
      rw [hsteps]
      exact h.training s.step htraining
  | fresh p =>
      have hnew : (s.step, some (Server.exportDir c s)) ∈ exportRecords
          (s.heap ++ [{ p with directory := some (Server.exportDir c s) }]) := by
        refine List.mem_map.mpr ⟨_, List.mem_append_right _ (List.mem_singleton_self _), ?_⟩
        have hstep : p.step = s.step := htarget
        simp [hstep]
      have hsteps : (s.heap ++ [{ p with directory := some (Server.exportDir c s) }]).map
          Policy.step = (s.heap ++ [p]).map Policy.step := by simp
      refine ⟨?_, htarget⟩
      have hmono : TidyFiles s.files
          (s.heap ++ [{ p with directory := some (Server.exportDir c s) }]) := by
        refine h.mono (fun n directory hin => ?_) (fun n hn => hsteps ▸ hn)
        obtain ⟨q, hq, heq⟩ := List.mem_map.mp hin
        rcases List.mem_append.mp hq with hq | hq
        · exact ⟨directory, List.mem_map.mpr ⟨q, List.mem_append_left _ hq, heq⟩⟩
        · rw [List.mem_singleton] at hq
          subst hq
          have hn : n = s.step := (congrArg Prod.fst heq).symm.trans htarget
          rw [hn]
          exact ⟨_, hnew⟩
      refine hmono.update (h.staging _) (h.trainingStaging _) (fun _ => ⟨_, hnew⟩) ?_
      intro htraining
      rw [hsteps]
      exact h.training s.step htraining

theorem tidyFiles_saveExport {target target₁ : Target W} {s₁ : Server W L S G}
    (htarget : TargetAt s target) (h : TidyFiles s.files (targetHeap s target))
    (hexported : s.directoryOf target = none → (s.files s.step).exported = none)
    (hok : s.saveExport c target r faults = (s₁, .ok target₁)) :
    TidyFiles s₁.files (targetHeap s₁ target₁) ∧ TargetAt s₁ target₁ := by
  by_cases hneeded : Exporting s target r
  · rcases saveExport_cases c faults hneeded (h.staging _) (hexported hneeded.2) with
      ⟨-, e, heq⟩ | ⟨-, -, e, heq⟩ | ⟨-, -, heq⟩
    · rw [hok] at heq
      cases heq
    · rw [hok] at heq
      cases heq
    · rw [hok] at heq
      cases heq
      exact tidyFiles_withExport htarget h
  · rw [saveExport_skip c faults hneeded] at hok
    cases hok
    exact ⟨h, htarget⟩

/-- The files after a publish that wrote them. -/
theorem tidyFiles_saveAll {target target₂ : Target W} {s₂ : Server W L S G}
    (htarget : TargetAt s target) (h : TidyFiles s.files (targetHeap s target))
    (hexported : s.directoryOf target = none → (s.files s.step).exported = none)
    (hok : s.saveAll c target r faults = (s₂, .ok target₂)) :
    TidyFiles s₂.files (targetHeap s₂ target₂) := by
  rcases hexport : s.saveExport c target r faults with ⟨s₁, result⟩
  simp only [Server.saveAll, hexport] at hok
  cases result with
  | error e => cases hok
  | ok target₁ =>
      obtain ⟨h₁, htarget₁⟩ := tidyFiles_saveExport htarget h hexported hexport
      dsimp only at hok
      by_cases hneeded : Checkpointing s₁ r
      · rcases saveCheckpoint_cases c faults hneeded (h₁.trainingStaging _) with
          ⟨-, e, heq⟩ | ⟨-, -, e, heq⟩ | ⟨-, -, heq⟩
        · rw [heq] at hok
          cases hok
        · rw [heq] at hok
          cases hok
        · rw [heq] at hok
          cases hok
          have hheap : targetHeap s₁.withTraining target₂ = targetHeap s₁ target₂ := by
            cases target₂ <;> rfl
          rw [hheap]
          exact h₁.update (h₁.staging _) (h₁.trainingStaging _) (h₁.exported s₁.step)
            fun _ => htarget₁.mem
      · rw [saveCheckpoint_skip c faults hneeded] at hok
        cases hok
        exact h₁

/-- Retiring changes neither the steps nor the directories. -/
theorem retire_records (s : Server W L S G) (fuel : Nat) :
    exportRecords (s.retire c fuel).heap = exportRecords s.heap ∧
      (s.retire c fuel).heap.map Policy.step = s.heap.map Policy.step := by
  refine retire_induct c
    (P := fun t => exportRecords t.heap = exportRecords s.heap ∧
      t.heap.map Policy.step = s.heap.map Policy.step) ?_ fuel ⟨rfl, rfl⟩
  rintro t i rest ⟨hrecords, hsteps⟩ - -
  refine ⟨Eq.trans ?_ hrecords, Eq.trans ?_ hsteps⟩
  · exact map_modify_eq (by intro p; rfl) t.heap i
  · exact map_modify_eq (by intro p; rfl) t.heap i

theorem TidyFiles.retire {files : Nat → Slot W L} (h : TidyFiles files s.heap) (fuel : Nat) :
    TidyFiles files (s.retire c fuel).heap := by
  obtain ⟨hrecords, hsteps⟩ := retire_records (c := c) s fuel
  exact h.mono (fun n directory hin => ⟨directory, hrecords ▸ hin⟩) fun n hn => hsteps ▸ hn

/-- The target of a publish is the learner's policy. -/
theorem targetAt_numbered (h : History s) :
    TargetAt s.numbered (s.numbered.target c s.changed) := by
  obtain ⟨-, hstep, hheap, hpolicies, -⟩ := numbered_frame s
  cases hchanged : s.changed with
  | true => exact rfl
  | false =>
      obtain ⟨p, hp, -⟩ := h.newest_policy
      refine ⟨p, ?_, ?_⟩
      · rw [hheap, Server.newest, hpolicies]
        exact hp
      · by_contra hne
        rw [hstep] at hne
        rw [(changed_iff hp).mpr hne] at hchanged
        cases hchanged

theorem tidyFiles_numbered (h : Tidy c s) :
    TidyFiles s.numbered.files (targetHeap s.numbered (s.numbered.target c s.changed)) := by
  obtain ⟨hfiles, -, hheap, -⟩ := numbered_frame s
  rw [hfiles]
  cases hchanged : s.changed with
  | false =>
      show TidyFiles s.files s.numbered.heap
      rw [hheap]
      exact h.toTidyFiles
  | true =>
      show TidyFiles s.files (s.numbered.heap ++ [s.numbered.snapshot c])
      rw [hheap]
      refine h.toTidyFiles.mono (fun n directory hin => ⟨directory, ?_⟩) fun n hn => ?_
      · rw [exportRecords, List.map_append]
        exact List.mem_append_left _ hin
      · rw [List.map_append]
        exact List.mem_append_left _ hn

/-- A publish that succeeds leaves no staging directory. -/
theorem tidy_publish_ok (hversions : 0 < c.options.versions) (h : Tidy c s)
    (hstep : r.expectedStep = s.step) (hclear : Clear c s r faults) :
    Tidy c (s.publish c r faults).1 := by
  obtain ⟨hhistory, -⟩ := history_publish c hversions h.history r faults
  have hbounded := policies_publish c h.bounded r faults
  obtain ⟨s₂, target, hsaved, heq, -⟩ := publish_of_clear h hstep hclear
  obtain ⟨hfiles, hstep', hheap, -⟩ := numbered_frame s
  have hdirectory := directoryOf_numbered c (s := s)
  have hall := tidyFiles_saveAll (targetAt_numbered h.history) (tidyFiles_numbered h)
    (fun hnone => by
      rw [hfiles, hstep']
      exact h.exported_none (hdirectory ▸ hnone)) hsaved
  obtain ⟨hsame, hkind⟩ := sameHistory_saveAll c s.numbered (s.numbered.target c s.changed) r
    faults
  rw [hsaved] at hsame hkind
  have hsteps₂ : s₂.heap.map Policy.step = s.heap.map Policy.step := by
    rw [hsame.map_heap fun _ => rfl, hheap]
  have hend : (s.publish c r faults).1 = s₂.install c target := by
    rw [heq]
    rfl
  rw [hend] at hhistory hbounded ⊢
  rw [install_eq] at hhistory hbounded ⊢
  cases target with
  | existing i =>
      obtain ⟨-, -, -, -, -, -, hsameFiles, -⟩ := retire_frame c s₂ s₂.policies.length
      refine ⟨?_, hhistory, hbounded, ?_⟩
      · rw [hsameFiles]
        exact TidyFiles.retire hall _
      · rw [(retire_records (c := c) s₂ _).2, hsteps₂]
        exact h.steps
  | fresh p =>
      obtain ⟨-, -, -, -, -, -, hsameFiles, -⟩ :=
        retire_frame c (s₂.push p) (s₂.push p).policies.length
      refine ⟨?_, hhistory, hbounded, ?_⟩
      · rw [hsameFiles]
        exact TidyFiles.retire (s := s₂.push p) hall _
      · obtain ⟨hchanged, -, hp⟩ := fresh_target c (hkind _ rfl)
        have hpstep : p.step = s.step := by
          have hpublished : p.published.step = (s.numbered.snapshot c).step :=
            congrArg Policy.step hp
          exact hpublished.trans hstep'
        obtain ⟨q, hq, hle, -⟩ := h.history.newest_policy
        have hne := (changed_iff hq).mp hchanged
        rw [(retire_records (c := c) (s₂.push p) _).2]
        show ((s₂.heap ++ [p]).map Policy.step).Pairwise (· < ·)
        rw [List.map_append, hsteps₂, List.pairwise_append]
        refine ⟨h.steps, List.pairwise_singleton _ _, fun n hn m hm => ?_⟩
        obtain ⟨q', hq', rfl⟩ := List.mem_map.mp hn
        rw [List.map_singleton, List.mem_singleton] at hm
        subst hm
        rcases h.step_le hq hq' with hlt | rfl
        · omega
        · omega

/-- A harmless publish leaves no staging directory. -/
theorem tidy_publish (hversions : 0 < c.options.versions) (h : Tidy c s)
    (hharmless : Harmless c s r faults) : Tidy c (s.publish c r faults).1 := by
  by_cases hstep : r.expectedStep = s.step
  · rcases hpublish : s.publish c r faults with ⟨s₁, result⟩
    cases result with
    | ok reply =>
        have hok := tidy_publish_ok hversions h hstep (clear_of_ok h hstep hpublish)
        rwa [hpublish] at hok
    | error e =>
        rcases harmless_failure h hstep hharmless hpublish with rfl | ⟨hchanged, hsaved⟩
        · exact h
        · obtain ⟨hhistory, -⟩ := history_publish c hversions h.history r faults
          have hbounded := policies_publish c h.bounded r faults
          rw [hpublish] at hhistory hbounded
          obtain ⟨hsame, -⟩ := not_exporting_saved h hchanged hsaved
          have htarget := targetAt_numbered (c := c) h.history
          rw [numbered_eq hchanged, target_unchanged hchanged] at htarget
          obtain ⟨hfiles, -⟩ := tidyFiles_saveExport htarget h.toTidyFiles
            (fun hdirectory =>
              h.exported_none (by rw [target_unchanged hchanged]; exact hdirectory)) hsaved
          refine ⟨hfiles, hhistory, hbounded, ?_⟩
          rw [hsame.map_heap fun _ => rfl]
          exact h.steps
  · rcases publish_cases c s r faults with ⟨-, heq⟩ | ⟨hstep', -⟩
    · rw [heq]
      exact h
    · exact absurd hstep' hstep

theorem tidy_step (hversions : 0 < c.options.versions) (h : Tidy c s) (e : Event F S G)
    (hharmless : ∀ r faults, e = .publish r faults → Harmless c s r faults) :
    Tidy c (step c s e) := by
  obtain ⟨hhistory, -⟩ := history_step c hversions h.history e
  have hbounded := policies_step c h.history h.bounded e
  cases e with
  | completions r faults =>
      have hframe : (s.completions c r faults).1.files = s.files ∧
          (s.completions c r faults).1.heap = s.heap := by
        unfold Server.completions
        split
        · exact ⟨rfl, rfl⟩
        · split <;> exact ⟨rfl, rfl⟩
      refine ⟨?_, hhistory, hbounded, ?_⟩
      · show TidyFiles (s.completions c r faults).1.files (s.completions c r faults).1.heap
        rw [hframe.1, hframe.2]
        exact h.toTidyFiles
      · show ((s.completions c r faults).1.heap.map Policy.step).Pairwise (· < ·)
        rw [hframe.2]
        exact h.steps
  | logprobs r => exact h
  | train r fault =>
      have hframe : (s.train c r fault).1.files = s.files ∧
          (s.train c r fault).1.heap = s.heap := by
        rcases train_cases c s r fault with ⟨e, heq⟩ | ⟨-, learner, step, heq, -⟩
        · rw [heq]
          exact ⟨rfl, rfl⟩
        · rw [heq]
          exact ⟨rfl, rfl⟩
      refine ⟨?_, hhistory, hbounded, ?_⟩
      · show TidyFiles (s.train c r fault).1.files (s.train c r fault).1.heap
        rw [hframe.1, hframe.2]
        exact h.toTidyFiles
      · show ((s.train c r fault).1.heap.map Policy.step).Pairwise (· < ·)
        rw [hframe.2]
        exact h.steps
  | publish r faults => exact tidy_publish hversions h (hharmless r faults rfl)

theorem tidy_run (hversions : 0 < c.options.versions) (h : Tidy c s)
    (events : List (Event F S G)) (hrun : HarmlessRun c s events) :
    Tidy c (run c s events) := by
  induction events generalizing s with
  | nil => exact h
  | cons e events ih =>
      obtain ⟨hhead, htail⟩ := hrun
      refine ih (tidy_step hversions h e fun r faults heq => ?_) htail
      subst heq
      exact hhead

theorem tidy_init (hversions : 0 < c.options.versions)
    {pool : Pool String Token} {capacity memoryLimit entryBytes : Nat}
    (hcreate : Pool.create capacity memoryLimit entryBytes = some pool) (runId : String)
    (learner : L) (startStep : Nat) :
    Tidy c (Server.init c runId learner startStep pool (S := S) (G := G)) := by
  refine ⟨⟨fun _ => rfl, fun _ => rfl, ?_, ?_⟩,
    history_init c hcreate runId learner startStep, hversions, List.pairwise_singleton _ _⟩
  · intro n hn
    cases hn
  · intro n hn
    cases hn

/--
After every run whose publishes were harmless, a failing publish can be repeated
as if it had not happened exactly when it is harmless.
-/
theorem retriable_iff_harmless (hvalid : c.options.Valid)
    {pool : Pool String Token} {capacity memoryLimit entryBytes : Nat}
    (hcreate : Pool.create capacity memoryLimit entryBytes = some pool) (runId : String)
    (learner : L) (startStep : Nat) (events : List (Event F S G))
    (hrun : HarmlessRun c (Server.init c runId learner startStep pool) events)
    (r : PublishRequest) (faults : List PublishSite) :
    Retriable c (run c (Server.init c runId learner startStep pool) events) r faults ↔
      Harmless c (run c (Server.init c runId learner startStep pool) events) r faults :=
  retriable_iff (tidy_run hvalid.versions_pos
    (tidy_init hvalid.versions_pos hcreate runId learner startStep) events hrun)

/-- A published step, and an export that fails and is cleaned up. -/
def exportEvents : List (Event Nat Nat Nat) :=
  [.train (trainOn "run:0") .none, .publish ⟨1, false, false⟩ [],
   .publish ⟨1, true, false⟩ [.saveState]]

theorem harmlessRun_exportEvents :
    HarmlessRun sumConfig (Server.init sumConfig "run" 0 0 sumPool) exportEvents := by
  refine ⟨trivial, Or.inr (Or.inl (clear_nil _ _)), Or.inr (Or.inr ⟨rfl, ?_, ?_⟩), trivial⟩
  · intro _ _ _
    decide
  · rintro - ⟨hcheckpoint, -⟩
    cases hcheckpoint

theorem retriable_iff_harmless_exportEvents :
    Retriable sumConfig (run sumConfig (Server.init sumConfig "run" 0 0 sumPool) exportEvents)
        ⟨1, true, true⟩ [.saveTraining] ↔
      Harmless sumConfig (run sumConfig (Server.init sumConfig "run" 0 0 sumPool) exportEvents)
        ⟨1, true, true⟩ [.saveTraining] :=
  retriable_iff_harmless sumConfig_valid sumPool_create "run" 0 0 exportEvents
    harmlessRun_exportEvents ⟨1, true, true⟩ [.saveTraining]

/-- The learner after a step that was not published. -/
def trainedServer : Server Nat Nat Nat Nat :=
  run sumConfig (Server.init sumConfig "run" 0 0 sumPool) [.train (trainOn "run:0") .none]

/--
The checkpoint cannot be written once; then the export of the policy that was
never pushed is in the way of every repetition.
-/
theorem publish_stuck :
    (trainedServer.publish sumConfig ⟨1, false, true⟩ [.saveTraining]).2 =
        .error ⟨500, "checkpoint"⟩ ∧
      ((trainedServer.publish sumConfig ⟨1, false, true⟩ [.saveTraining]).1.publish sumConfig
        ⟨1, false, true⟩ []).2 = .error ⟨409, "policy export destination exists"⟩ ∧
      ¬ Retriable sumConfig trainedServer ⟨1, false, true⟩ [.saveTraining] := by
  have hfail : (trainedServer.publish sumConfig ⟨1, false, true⟩ [.saveTraining]).2 =
      .error ⟨500, "checkpoint"⟩ := rfl
  have hagain : ((trainedServer.publish sumConfig ⟨1, false, true⟩ [.saveTraining]).1.publish
      sumConfig ⟨1, false, true⟩ []).2 = .error ⟨409, "policy export destination exists"⟩ := rfl
  refine ⟨hfail, hagain, fun hretry => ?_⟩
  obtain ⟨-, hok⟩ := hretry ⟨_, hfail⟩
  obtain ⟨reply, hreply⟩ := hok rfl
  rw [hagain] at hreply
  cases hreply

end Runs

end Publishing

end OnlineRl
end RwkvLightning

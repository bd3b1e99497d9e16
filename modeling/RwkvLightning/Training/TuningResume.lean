import RwkvLightning.Training.TuningLoop

/-!
# Resuming a tuning run

A run from a checkpoint does what the run that wrote it still did after it,
where the output directory holds no destination of a later step that the first
run did not find.

**Results.**
* `train_continues`: what a run does after a checkpoint, as a run from there.
* `train_same`: a run depends on the output directory through later steps only.
* `resume_continues`: both together; and no update has a normalizer of zero.
-/

namespace RwkvLightning
namespace TuningLoop

variable {T F C α β : Type}

section Traces

/-- The trace has the checkpoint `c`, and then the events `after`. -/
def Trace.Continues (t : Trace T F C α) (c : Checkpoint T C)
    (after : List (Event T F C)) : Prop :=
  ∃ before, t.events = before ++ .checkpoint c :: after

theorem Trace.next_ok {t : Trace T F C α} {a : α} (h : t.result = .ok a)
    (f : α → Trace T F C β) :
    t.next f = ⟨t.events ++ (f a).events, (f a).result⟩ := by
  simp only [Trace.next, h]

theorem Trace.next_error {t : Trace T F C α} {e : String} (h : t.result = .error e)
    (f : α → Trace T F C β) : t.next f = ⟨t.events, .error e⟩ := by
  simp only [Trace.next, h]

@[simp] theorem Trace.next_nil (a : α) (f : α → Trace T F C β) :
    (⟨[], .ok a⟩ : Trace T F C α).next f = f a := by
  simp [Trace.next]

@[simp] theorem Trace.next_failed (events : List (Event T F C)) (e : String)
    (f : α → Trace T F C β) :
    (⟨events, .error e⟩ : Trace T F C α).next f = ⟨events, .error e⟩ := rfl

theorem not_continues_nil {r : Except String α} {c : Checkpoint T C}
    {after : List (Event T F C)} : ¬(⟨[], r⟩ : Trace T F C α).Continues c after := by
  rintro ⟨before, h⟩
  exact absurd h.symm (by simp)

/-- A checkpoint of two parts is one of the first part or of the second part. -/
theorem continues_next {t : Trace T F C α} {f : α → Trace T F C β}
    {c : Checkpoint T C} {after : List (Event T F C)}
    (h : (t.next f).Continues c after) :
    (∃ after', t.Continues c after' ∧
      (⟨after, (t.next f).result⟩ : Trace T F C β) =
        (⟨after', t.result⟩ : Trace T F C α).next f) ∨
    ∃ a, t.result = .ok a ∧ (f a).Continues c after ∧
      (t.next f).result = (f a).result := by
  obtain ⟨before, hevents⟩ := h
  cases ht : t.result with
  | error e =>
      rw [Trace.next_error ht] at hevents ⊢
      left
      exact ⟨after, ⟨before, hevents⟩, by simp⟩
  | ok a =>
      rw [Trace.next_ok ht] at hevents ⊢
      dsimp only at hevents
      rcases List.append_eq_append_iff.mp hevents with
        ⟨middle, hbefore, hrest⟩ | ⟨middle, hfirst, hrest⟩
      · right
        exact ⟨a, rfl, ⟨middle, hrest⟩, rfl⟩
      · cases middle with
        | nil =>
            right
            exact ⟨a, rfl, ⟨[], hrest.symm⟩, rfl⟩
        | cons x after' =>
            rw [List.cons_append, List.cons.injEq] at hrest
            obtain ⟨rfl, rfl⟩ := hrest
            left
            exact ⟨after', ⟨before, hfirst⟩, by simp [Trace.next]⟩

end Traces

section Batches

variable {encode : String → List Token} {o : Options F}

theorem trimCount_le (train : List Bool) (n : Nat) : trimCount train n ≤ n := by
  induction n using Nat.strong_induction_on with
  | _ n ih =>
      match n with
      | 0 => exact Nat.le_refl 0
      | 1 => exact Nat.le_refl 1
      | n + 2 =>
          simp only [trimCount]
          by_cases hlast : train.getD (n + 1) false = true
          · rw [if_pos hlast]
          · rw [if_neg hlast]
            have hle := ih (n + 1) (Nat.lt_succ_self _)
            omega

/-- The last position that is kept is a target. -/
theorem trimCount_last {train : List Bool} {n : Nat} (h : 2 ≤ trimCount train n) :
    train.getD (trimCount train n - 1) false = true := by
  induction n using Nat.strong_induction_on with
  | _ n ih =>
      match n with
      | 0 => simp [trimCount] at h
      | 1 => simp [trimCount] at h
      | n + 2 =>
          simp only [trimCount] at h ⊢
          by_cases hlast : train.getD (n + 1) false = true
          · rw [if_pos hlast]
            exact hlast
          · rw [if_neg hlast] at h ⊢
            exact ih (n + 1) (Nat.lt_succ_self _) h

/-- A sample that is not skipped has a target. -/
theorem targets_pos {ctx : Nat} {row : Row} {sample : Sample}
    (h : sampleOf encode ctx row = some sample) : 0 < sample.targets := by
  simp only [sampleOf] at h
  generalize htrain : row.flatMap (fun segment =>
    List.replicate (encode segment.text).length segment.train) = train at h
  generalize hcount : trimCount train
    (min (row.flatMap fun segment => encode segment.text).length (ctx + 1)) = count at h
  by_cases hshort : count < 2
  · rw [if_pos hshort] at h
    exact nomatch h
  · rw [if_neg hshort] at h
    cases h
    have hlast : train.getD (count - 1) false = true := by
      rw [← hcount]
      exact trimCount_last (by omega)
    have hlen : count - 1 < train.length := by
      by_contra hout
      rw [List.getD_eq_default _ _ (Nat.not_lt.mp hout)] at hlast
      exact Bool.noConfusion hlast
    -- The last target stands behind the first position.
    refine List.count_pos_iff.mpr ?_
    rw [List.getD_eq_getElem _ _ hlen] at hlast
    rw [← hlast]
    refine List.mem_iff_getElem.mpr ⟨count - 2, ?_, ?_⟩
    · simp only [List.length_drop, List.length_take]
      omega
    · rw [List.getElem_drop, List.getElem_take]
      congr 1
      omega

/-- What the loop that fills a batch has done. -/
structure Fills (rows : List Row) (dataRow : Nat) (batch : List Sample)
    (filled : Filled) : Prop where
  le : dataRow ≤ filled.dataRow
  le_length : filled.dataRow ≤ dataRow + rows.length
  rest_eq : filled.rest = rows.drop (filled.dataRow - dataRow)
  rest_nil : filled.exhausted = true → filled.rest = []
  batch_eq : filled.dataRow = dataRow → filled.batch = batch
  targets : (∀ sample ∈ batch, 0 < sample.targets) →
    ∀ sample ∈ filled.batch, 0 < sample.targets

/-- A row was read first. -/
theorem Fills.cons {row : Row} {rows : List Row} {dataRow : Nat}
    {batch batch' : List Sample} {filled : Filled}
    (h : Fills rows (dataRow + 1) batch' filled)
    (htargets : (∀ sample ∈ batch, 0 < sample.targets) →
      ∀ sample ∈ batch', 0 < sample.targets) :
    Fills (row :: rows) dataRow batch filled := by
  have hle := h.le
  constructor
  · omega
  · have hbound := h.le_length
    rw [List.length_cons]
    omega
  · have hdiff : filled.dataRow - dataRow = (filled.dataRow - (dataRow + 1)) + 1 := by omega
    rw [h.rest_eq, hdiff, List.drop_succ_cons]
  · exact h.rest_nil
  · intro hsame
    omega
  · intro hbatch
    exact h.targets (htargets hbatch)

theorem fillBatch_spec (rows : List Row) (dataRow : Nat) (batch : List Sample) :
    Fills rows dataRow batch (fillBatch encode o rows dataRow batch) := by
  induction rows generalizing dataRow batch with
  | nil =>
      simp only [fillBatch]
      constructor <;> simp
  | cons row rows ih =>
      simp only [fillBatch]
      by_cases hroom : batch.length < o.batchSize
      · rw [if_pos hroom]
        cases hsample : sampleOf encode o.ctx row with
        | none => exact (ih (dataRow + 1) batch).cons id
        | some sample =>
            refine (ih (dataRow + 1) (batch ++ [sample])).cons ?_
            intro hbatch x hx
            rcases List.mem_append.mp hx with hold | hnew
            · exact hbatch x hold
            · rw [List.mem_singleton.mp hnew]
              exact targets_pos hsample
      · rw [if_neg hroom]
        constructor <;> simp

/-- A batch that is trained on has a target. -/
theorem batchTokens_pos {batch : List Sample} (hne : batch ≠ [])
    (h : ∀ sample ∈ batch, 0 < sample.targets) : 0 < batchTokens batch := by
  obtain ⟨sample, rest, rfl⟩ := List.exists_cons_of_ne_nil hne
  have hfirst := h sample (List.mem_cons_self ..)
  simp only [batchTokens, List.map_cons, List.sum_cons]
  omega

end Batches

section Outputs

/-- The directories agree on the steps after `n`, and on the final adapter. -/
def Output.SameAbove (n : Nat) (output output' : Output) : Prop :=
  output.final = output'.final ∧
    ∀ m, n < m → (m ∈ output.checkpoints ↔ m ∈ output'.checkpoints)

theorem Output.SameAbove.refl (n : Nat) (output : Output) : output.SameAbove n output :=
  ⟨rfl, fun _ _ => Iff.rfl⟩

theorem Output.SameAbove.symm {n : Nat} {output output' : Output}
    (h : output.SameAbove n output') : output'.SameAbove n output :=
  ⟨h.1.symm, fun m hm => (h.2 m hm).symm⟩

theorem Output.SameAbove.trans {n : Nat} {output output' output'' : Output}
    (h : output.SameAbove n output') (h' : output'.SameAbove n output'') :
    output.SameAbove n output'' :=
  ⟨h.1.trans h'.1, fun m hm => (h.2 m hm).trans (h'.2 m hm)⟩

theorem Output.SameAbove.mono {n k : Nat} {output output' : Output}
    (h : output.SameAbove n output') (hk : n ≤ k) : output.SameAbove k output' :=
  ⟨h.1, fun m hm => h.2 m (Nat.lt_of_le_of_lt hk hm)⟩

/-- The checkpoint of a step is written. -/
def Output.add (output : Output) (step : Nat) : Output :=
  { output with checkpoints := step :: output.checkpoints }

theorem Output.SameAbove.add (output : Output) (step : Nat) :
    (output.add step).SameAbove step output := by
  refine ⟨rfl, fun m hm => ?_⟩
  simp only [Output.add, List.mem_cons]
  constructor
  · rintro (rfl | hmem)
    · omega
    · exact hmem
  · exact Or.inr

theorem Output.SameAbove.add_add {n : Nat} {output output' : Output}
    (h : output.SameAbove n output') (step : Nat) :
    (output.add step).SameAbove n (output'.add step) := by
  refine ⟨h.1, fun m hm => ?_⟩
  simp only [Output.add, List.mem_cons]
  rw [h.2 m hm]

end Outputs

section Steps

variable {job : Job T F C}

/-- The checkpoint that is written where the loop stands. -/
def Loop.checkpoint (job : Job T F C) (epoch dataRow : Nat) (s : Loop T) : Checkpoint T C :=
  { config := job.config, step := s.globalStep, epoch := epoch, row := dataRow,
    trainer := s.trainer }

theorem updateBatch_not_continues {batch : List Sample} {s : Loop T}
    {c : Checkpoint T C} {after : List (Event T F C)} :
    ¬(updateBatch job batch s).Continues c after := by
  simp only [updateBatch]
  cases backwardAll job.machine (batchTokens batch) batch s.trainer with
  | error e => exact not_continues_nil
  | ok trainer =>
      dsimp only
      cases job.machine.update trainer _ (s.globalStep + 1) with
      | error e => exact not_continues_nil
      | ok trainer =>
          rintro ⟨before, h⟩
          cases before <;> simp at h

theorem updateBatch_ok {batch : List Sample} {s a : Loop T}
    (h : (updateBatch job batch s).result = .ok a) :
    a.globalStep = s.globalStep + 1 ∧ a.output = s.output ∧ a.stop = s.stop := by
  simp only [updateBatch] at h
  cases hbackward : backwardAll job.machine (batchTokens batch) batch s.trainer with
  | error e =>
      rw [hbackward] at h
      exact nomatch h
  | ok trainer =>
      rw [hbackward] at h
      dsimp only at h
      cases hupdate : job.machine.update trainer (learningRate job.ops job.options
          (s.globalStep + 1) (plannedSteps job.options job.dataset.length))
          (s.globalStep + 1) with
      | error e =>
          rw [hupdate] at h
          exact nomatch h
      | ok trainer =>
          rw [hupdate] at h
          cases h
          exact ⟨rfl, rfl, rfl⟩

/-- The periodic checkpoint is not due, or refused, or written. -/
theorem saveIfDue_cases (job : Job T F C) (epoch dataRow : Nat) (s : Loop T) :
    saveIfDue job epoch dataRow s = ⟨[], .ok s⟩ ∨
    saveIfDue job epoch dataRow s = ⟨[], .error "checkpoint destination exists"⟩ ∨
    saveIfDue job epoch dataRow s =
      ⟨[.checkpoint (s.checkpoint job epoch dataRow)],
        .ok { s with output := s.output.add s.globalStep }⟩ := by
  simp only [saveIfDue, saveCheckpoint]
  by_cases hdue : job.options.saveEvery ≠ 0 ∧ s.globalStep % job.options.saveEvery = 0
  · rw [if_pos hdue]
    by_cases hexists : s.globalStep ∈ s.output.checkpoints
    · rw [if_pos hexists]
      exact Or.inr (Or.inl rfl)
    · rw [if_neg hexists]
      exact Or.inr (Or.inr rfl)
  · rw [if_neg hdue]
    exact Or.inl rfl

theorem saveIfDue_ok {epoch dataRow : Nat} {s a : Loop T}
    (h : (saveIfDue job epoch dataRow s).result = .ok a) :
    a.globalStep = s.globalStep ∧ a.stop = s.stop ∧
      a.output.SameAbove s.globalStep s.output := by
  rcases saveIfDue_cases job epoch dataRow s with hsave | hsave | hsave
  · rw [hsave] at h
    cases h
    exact ⟨rfl, rfl, .refl _ _⟩
  · rw [hsave] at h
    exact nomatch h
  · rw [hsave] at h
    cases h
    exact ⟨rfl, rfl, .add _ _⟩

/-- The loop goes on from a checkpoint. -/
def Checkpoint.loop (c : Checkpoint T C) (output : Output) : Loop T :=
  { trainer := c.trainer, globalStep := c.step, stop := false, output := output }

theorem saveIfDue_continues {epoch dataRow : Nat} {s : Loop T} {c : Checkpoint T C}
    {after : List (Event T F C)} (h : (saveIfDue job epoch dataRow s).Continues c after) :
    c = s.checkpoint job epoch dataRow ∧ after = [] ∧
      (saveIfDue job epoch dataRow s).result =
        .ok { s with output := s.output.add s.globalStep } := by
  rcases saveIfDue_cases job epoch dataRow s with hsave | hsave | hsave
  · rw [hsave] at h
    exact absurd h not_continues_nil
  · rw [hsave] at h
    exact absurd h not_continues_nil
  · rw [hsave] at h ⊢
    obtain ⟨before, hevents⟩ := h
    cases before with
    | nil =>
        simp only [List.nil_append, List.cons.injEq, Event.checkpoint.injEq] at hevents
        exact ⟨hevents.1.symm, hevents.2.symm, rfl⟩
    | cons x before => simp at hevents

end Steps

section Epochs

variable {job : Job T F C}

/-- A pass that trains leaves fewer rows. -/
theorem rest_length_lt {rows : List Row} {dataRow : Nat} {filled : Filled}
    (h : Fills rows dataRow [] filled) (hne : filled.batch ≠ []) :
    filled.rest.length < rows.length := by
  have hmoved : filled.dataRow ≠ dataRow := fun hsame => hne (h.batch_eq hsame)
  have hle := h.le
  have hbound := h.le_length
  rw [h.rest_eq, List.length_drop]
  omega

/-- An exhausted reader and one without rows are the same. -/
theorem trainEpoch_nil (epoch passes dataRow : Nat) (exhausted : Bool) (s : Loop T) :
    trainEpoch job epoch passes [] dataRow exhausted s = ⟨[], .ok s⟩ := by
  cases passes with
  | zero => rfl
  | succ passes => simp [trainEpoch, fillBatch]

/-- Passes enough are as good as any other number of them. -/
theorem trainEpoch_passes (epoch : Nat) {passes passes' : Nat} {rows : List Row}
    (dataRow : Nat) (exhausted : Bool) (s : Loop T)
    (h : rows.length < passes) (h' : rows.length < passes') :
    trainEpoch job epoch passes rows dataRow exhausted s =
      trainEpoch job epoch passes' rows dataRow exhausted s := by
  induction passes generalizing passes' rows dataRow exhausted s with
  | zero => exact absurd h (Nat.not_lt_zero _)
  | succ passes ih =>
      obtain ⟨passes', rfl⟩ : ∃ k, passes' = k + 1 := ⟨passes' - 1, by omega⟩
      simp only [trainEpoch]
      by_cases hexhausted : exhausted = true
      · rw [if_pos hexhausted, if_pos hexhausted]
      rw [if_neg hexhausted, if_neg hexhausted]
      by_cases hempty : (fillBatch job.encode job.options rows dataRow []).batch = []
      · rw [if_pos hempty, if_pos hempty]
      rw [if_neg hempty, if_neg hempty]
      have hless := rest_length_lt (fillBatch_spec rows dataRow []) hempty
      congr 1
      funext s
      congr 1
      funext s
      by_cases hlimit : limitReached job s.globalStep = true
      · rw [if_pos hlimit, if_pos hlimit]
      · rw [if_neg hlimit, if_neg hlimit]
        exact ih _ _ _ (by omega) (by omega)

/-- What is left of the epoch of a checkpoint. -/
def restOfEpoch (job : Job T F C) (c : Checkpoint T C) (output : Output) :
    Trace T F C (Loop T) :=
  if limitReached job c.step then ⟨[], .ok { c.loop output with stop := true }⟩
  else trainFrom job c.epoch c.row (c.loop output)

/-- The rows that a pass leaves are the rows from its cursor on. -/
theorem rest_eq_drop {rows : List Row} {dataRow : Nat} {filled : Filled}
    (h : Fills rows dataRow [] filled) (hrows : rows = job.dataset.drop dataRow) :
    filled.rest = job.dataset.drop filled.dataRow := by
  have hle := h.le
  rw [h.rest_eq, hrows, List.drop_drop]
  congr 1
  omega

/-- The facts about a checkpoint of an epoch. -/
structure WrittenIn (job : Job T F C) (epoch : Nat) (s : Loop T) (c : Checkpoint T C)
    (output : Output) : Prop where
  config : c.config = job.config
  epoch_eq : c.epoch = epoch
  row_le : c.row ≤ job.dataset.length
  step_lt : s.globalStep < c.step
  output_same : output.SameAbove c.step s.output

/-- After a checkpoint an epoch goes on as one that starts at its row. -/
theorem epoch_continues {epoch passes dataRow : Nat} {rows : List Row}
    {exhausted : Bool} {s : Loop T} {c : Checkpoint T C} {after : List (Event T F C)}
    (hrows : rows = job.dataset.drop dataRow) (hdata : dataRow ≤ job.dataset.length)
    (hpasses : rows.length < passes) (hstop : s.stop = false)
    (h : (trainEpoch job epoch passes rows dataRow exhausted s).Continues c after) :
    ∃ output, WrittenIn job epoch s c output ∧
      (⟨after, (trainEpoch job epoch passes rows dataRow exhausted s).result⟩ :
        Trace T F C (Loop T)) = restOfEpoch job c output := by
  induction passes generalizing rows dataRow exhausted s with
  | zero => exact absurd hpasses (Nat.not_lt_zero _)
  | succ passes ih =>
      simp only [trainEpoch] at h ⊢
      by_cases hexhausted : exhausted = true
      · rw [if_pos hexhausted] at h
        exact absurd h not_continues_nil
      rw [if_neg hexhausted] at h ⊢
      have hfills : Fills rows dataRow [] (fillBatch job.encode job.options rows dataRow []) :=
        fillBatch_spec rows dataRow []
      generalize fillBatch job.encode job.options rows dataRow [] = filled at h hfills ⊢
      by_cases hempty : filled.batch = []
      · rw [if_pos hempty] at h
        exact absurd h not_continues_nil
      rw [if_neg hempty] at h ⊢
      have hless := rest_length_lt hfills hempty
      have hdrop := rest_eq_drop hfills hrows
      have hrow : filled.dataRow ≤ job.dataset.length := by
        have hbound := hfills.le_length
        rw [hrows, List.length_drop] at hbound
        omega
      rcases continues_next h with ⟨after', hfirst, -⟩ | ⟨a, ha, hsecond, hresult⟩
      · exact absurd hfirst updateBatch_not_continues
      obtain ⟨hstep, houtput, hstopa⟩ := updateBatch_ok ha
      rw [hresult]
      rcases continues_next hsecond with ⟨after', hsave, htrace⟩ | ⟨b, hb, hlater, hresult'⟩
      · -- The checkpoint of this pass.
        obtain ⟨rfl, rfl, hsaved⟩ := saveIfDue_continues hsave
        refine ⟨a.output.add a.globalStep, ⟨rfl, rfl, hrow, ?_, ?_⟩, ?_⟩
        · show s.globalStep < a.globalStep
          omega
        · rw [← houtput]
          exact .add _ _
        · rw [htrace, hsaved, Trace.next_nil]
          dsimp only [restOfEpoch, Loop.checkpoint, Checkpoint.loop]
          by_cases hlimit : limitReached job a.globalStep = true
          · rw [if_pos hlimit, if_pos hlimit]
          · rw [if_neg hlimit, if_neg hlimit]
            have hloop : ({ a with output := a.output.add a.globalStep } : Loop T) =
                { trainer := a.trainer, globalStep := a.globalStep, stop := false,
                  output := a.output.add a.globalStep } := by
              rw [← hstop, ← hstopa]
            rw [hloop, trainFrom, ← hdrop]
            cases hend : filled.exhausted with
            | true =>
                rw [hfills.rest_nil hend, trainEpoch_nil, trainEpoch_nil]
            | false =>
                refine trainEpoch_passes _ _ _ _ (by omega) ?_
                rw [hdrop, List.length_drop]
                omega
      · -- A checkpoint of a later pass.
        obtain ⟨hstepb, hstopb, houtputb⟩ := saveIfDue_ok hb
        rw [hresult']
        by_cases hlimit : limitReached job b.globalStep = true
        · rw [if_pos hlimit] at hlater
          exact absurd hlater not_continues_nil
        rw [if_neg hlimit] at hlater ⊢
        obtain ⟨output, hwritten, hrest⟩ := ih hdrop hrow (by omega)
          (by rw [hstopb, hstopa, hstop]) hlater
        refine ⟨output, ⟨hwritten.config, hwritten.epoch_eq, hwritten.row_le, ?_, ?_⟩, hrest⟩
        · have hlater := hwritten.step_lt
          omega
        · refine hwritten.output_same.trans ?_
          rw [← houtput]
          exact houtputb.mono (by have hlater := hwritten.step_lt; omega)

end Epochs

section Runs

variable {job : Job T F C}

/-- An epoch without a checkpoint so far: what it does to the step and the directory. -/
theorem trainEpoch_ok {epoch passes dataRow : Nat} {rows : List Row} {exhausted : Bool}
    {s a : Loop T}
    (h : (trainEpoch job epoch passes rows dataRow exhausted s).result = .ok a) :
    s.globalStep ≤ a.globalStep ∧ a.output.SameAbove a.globalStep s.output := by
  induction passes generalizing rows dataRow exhausted s with
  | zero =>
      cases h
      exact ⟨Nat.le_refl _, .refl _ _⟩
  | succ passes ih =>
      simp only [trainEpoch] at h
      by_cases hexhausted : exhausted = true
      · rw [if_pos hexhausted] at h
        cases h
        exact ⟨Nat.le_refl _, .refl _ _⟩
      rw [if_neg hexhausted] at h
      generalize fillBatch job.encode job.options rows dataRow [] = filled at h
      by_cases hempty : filled.batch = []
      · rw [if_pos hempty] at h
        cases h
        exact ⟨Nat.le_refl _, .refl _ _⟩
      rw [if_neg hempty] at h
      cases hupdate : (updateBatch job filled.batch s).result with
      | error e =>
          rw [Trace.next_error hupdate] at h
          exact nomatch h
      | ok b =>
          rw [Trace.next_ok hupdate] at h
          obtain ⟨hstep, houtput, -⟩ := updateBatch_ok hupdate
          dsimp only at h
          cases hsave : (saveIfDue job epoch filled.dataRow b).result with
          | error e =>
              rw [Trace.next_error hsave] at h
              exact nomatch h
          | ok c =>
              rw [Trace.next_ok hsave] at h
              obtain ⟨hstepc, -, houtputc⟩ := saveIfDue_ok hsave
              dsimp only at h
              rw [houtput] at houtputc
              by_cases hlimit : limitReached job c.globalStep = true
              · rw [if_pos hlimit] at h
                cases h
                exact ⟨by dsimp only; omega, houtputc.mono (by dsimp only; omega)⟩
              · rw [if_neg hlimit] at h
                obtain ⟨hle, hsame⟩ := ih h
                exact ⟨by omega, hsame.trans (houtputc.mono (by omega))⟩

/-- After a checkpoint the epochs go on with its epoch. -/
theorem trainEpochs_continues {count epoch : Nat} {s : Loop T} {c : Checkpoint T C}
    {after : List (Event T F C)} (h : (trainEpochs job count epoch s).Continues c after) :
    ∃ output, epoch ≤ c.epoch ∧ c.epoch < epoch + count ∧
      WrittenIn job c.epoch s c output ∧
      (⟨after, (trainEpochs job count epoch s).result⟩ : Trace T F C (Loop T)) =
        (restOfEpoch job c output).next
          (trainEpochs job (epoch + count - 1 - c.epoch) (c.epoch + 1)) := by
  induction count generalizing epoch s with
  | zero => exact absurd h not_continues_nil
  | succ count ih =>
      simp only [trainEpochs] at h ⊢
      cases hstop : s.stop with
      | true =>
          rw [hstop, if_pos rfl] at h
          exact absurd h not_continues_nil
      | false =>
          rw [hstop, if_neg Bool.false_ne_true] at h
          rw [if_neg Bool.false_ne_true]
          rcases continues_next h with ⟨after', hfirst, htrace⟩ | ⟨a, ha, hlater, hresult⟩
          · have hpasses : (job.dataset.drop 0).length < job.dataset.length + 1 := by
              rw [List.drop_zero]
              exact Nat.lt_succ_self _
            obtain ⟨output, hwritten, hrest⟩ := epoch_continues rfl (Nat.zero_le _) hpasses
              hstop hfirst
            have hepoch := hwritten.epoch_eq
            refine ⟨output, by omega, by omega, ?_, ?_⟩
            · rw [hepoch]
              exact hwritten
            · rw [htrace]
              unfold trainFrom
              have hcount : epoch + (count + 1) - 1 - epoch = count := by omega
              rw [hrest, hepoch, hcount]
          · obtain ⟨hle, hsame⟩ := trainEpoch_ok ha
            obtain ⟨output, hfrom, hupto, hwritten, hrest⟩ := ih hlater
            have hlt := hwritten.step_lt
            refine ⟨output, by omega, by omega, ?_, ?_⟩
            · exact ⟨hwritten.config, hwritten.epoch_eq, hwritten.row_le, by omega,
                hwritten.output_same.trans (hsame.mono (by omega))⟩
            · rw [hresult, hrest]
              congr 2
              omega

/-- After a checkpoint the epochs go on as they do from there. -/
theorem trainAll_continues {epoch row : Nat} {s : Loop T} {c : Checkpoint T C}
    {after : List (Event T F C)} (hstop : s.stop = false)
    (h : (trainAll job epoch row s).Continues c after) :
    ∃ output, c.config = job.config ∧ output.SameAbove c.step s.output ∧
      (⟨after, (trainAll job epoch row s).result⟩ : Trace T F C (Loop T)) =
        trainAll job c.epoch c.row (c.loop output) := by
  unfold trainAll at h ⊢
  by_cases hempty : job.dataset = []
  · rw [if_pos hempty] at h
    exact absurd h not_continues_nil
  rw [if_neg hempty] at h
  simp only [if_neg hempty]
  by_cases hdone : limitReached job s.globalStep = true ∨ job.options.epochs < epoch
  · rw [if_pos hdone] at h
    exact absurd h not_continues_nil
  rw [if_neg hdone] at h ⊢
  by_cases hrow : job.dataset.length < row
  · rw [if_pos hrow] at h
    exact absurd h not_continues_nil
  rw [if_neg hrow] at h ⊢
  have hepoch : epoch ≤ job.options.epochs := Nat.not_lt.mp fun hlt => hdone (Or.inr hlt)
  -- In both cases the rest of the checkpoint's epoch, and the epochs after it.
  have hrest : ∃ output, c.config = job.config ∧ output.SameAbove c.step s.output ∧
      c.epoch ≤ job.options.epochs ∧ c.row ≤ job.dataset.length ∧
      (⟨after, ((trainFrom job epoch row s).next
        (trainEpochs job (job.options.epochs - epoch) (epoch + 1))).result⟩ :
        Trace T F C (Loop T)) =
        (restOfEpoch job c output).next
          (trainEpochs job (job.options.epochs - c.epoch) (c.epoch + 1)) := by
    rcases continues_next h with ⟨after', hfirst, htrace⟩ | ⟨a, ha, hlater, hresult⟩
    · have hpasses : (job.dataset.drop row).length < job.dataset.length + 1 := by
        rw [List.length_drop]
        omega
      obtain ⟨output, hwritten, hrest⟩ :=
        epoch_continues rfl (Nat.not_lt.mp hrow) hpasses hstop hfirst
      refine ⟨output, hwritten.config, hwritten.output_same, ?_, hwritten.row_le, ?_⟩
      · rw [hwritten.epoch_eq]
        exact hepoch
      · rw [htrace]
        unfold trainFrom
        rw [hrest, hwritten.epoch_eq]
    · obtain ⟨hle, hsame⟩ := trainEpoch_ok ha
      obtain ⟨output, hfrom, hupto, hwritten, hrest⟩ := trainEpochs_continues hlater
      have hlt := hwritten.step_lt
      refine ⟨output, hwritten.config, hwritten.output_same.trans (hsame.mono (by omega)),
        by omega, hwritten.row_le, ?_⟩
      rw [hresult, hrest]
      congr 2
      omega
  obtain ⟨output, hconfig, hsame, hcepoch, hcrow, hrest⟩ := hrest
  refine ⟨output, hconfig, hsame, ?_⟩
  rw [hrest]
  unfold restOfEpoch
  by_cases hlimit : limitReached job c.step = true
  · have hlimit' : limitReached job (c.loop output).globalStep = true := hlimit
    rw [if_pos hlimit, if_pos (Or.inl hlimit'), Trace.next_nil, hlimit']
    cases job.options.epochs - c.epoch with
    | zero => rfl
    | succ count => rw [trainEpochs, if_pos rfl]
  · have hgoes : ¬(limitReached job (c.loop output).globalStep = true ∨
        job.options.epochs < c.epoch) := by
      rintro (htrue | hlt)
      · exact hlimit htrue
      · omega
    rw [if_neg hlimit, if_neg hgoes, if_neg (Nat.not_lt.mpr hcrow)]

/-- What a run does after a checkpoint is what a run from there does. -/
theorem train_continues {epoch row : Nat} {s : Loop T} {c : Checkpoint T C}
    {after : List (Event T F C)} (hstop : s.stop = false)
    (h : (train job epoch row s).Continues c after) :
    ∃ output, c.config = job.config ∧ output.SameAbove c.step s.output ∧
      (⟨after, (train job epoch row s).result⟩ : Trace T F C T) =
        train job c.epoch c.row (c.loop output) := by
  unfold train at h ⊢
  rcases continues_next h with ⟨after', hall, htrace⟩ | ⟨a, -, hexport, -⟩
  · obtain ⟨output, hconfig, hsame, hrest⟩ := trainAll_continues hstop hall
    exact ⟨output, hconfig, hsame, by rw [htrace, hrest]⟩
  · unfold exportFinal at hexport
    by_cases hfinal : a.output.final = true
    · rw [if_pos hfinal] at hexport
      exact absurd hexport not_continues_nil
    · rw [if_neg hfinal] at hexport
      obtain ⟨before, hevents⟩ := hexport
      cases before <;> simp at hevents

end Runs

section Directories

variable {job : Job T F C}

/-- Results that differ by the relation. -/
inductive SameResult (R : α → α → Prop) : Except String α → Except String α → Prop
  | error (e : String) : SameResult R (.error e) (.error e)
  | ok {a b : α} (h : R a b) : SameResult R (.ok a) (.ok b)

/-- The same events, and related results. -/
structure Trace.Same (R : α → α → Prop) (t t' : Trace T F C α) : Prop where
  events : t.events = t'.events
  result : SameResult R t.result t'.result

theorem Trace.Same.next {R : α → α → Prop} {R' : β → β → Prop} {t t' : Trace T F C α}
    {f g : α → Trace T F C β} (h : t.Same R t')
    (hf : ∀ a b, t.result = .ok a → t'.result = .ok b → R a b → (f a).Same R' (g b)) :
    (t.next f).Same R' (t'.next g) := by
  obtain ⟨events, result⟩ := t
  obtain ⟨events', result'⟩ := t'
  obtain ⟨rfl, hresult⟩ := h
  cases hresult with
  | error e => exact ⟨rfl, .error e⟩
  | @ok a b hab =>
      have hnext := hf a b rfl rfl hab
      constructor
      · show events ++ (f a).events = events ++ (g b).events
        rw [hnext.events]
      · exact hnext.result

/-- Loops that stand at the same point, with directories that agree from `n` on. -/
structure Loop.Same (n : Nat) (s s' : Loop T) : Prop where
  trainer : s.trainer = s'.trainer
  globalStep : s.globalStep = s'.globalStep
  stop : s.stop = s'.stop
  output : s.output.SameAbove n s'.output

theorem updateBatch_same {n : Nat} {s s' : Loop T} (batch : List Sample)
    (h : Loop.Same n s s') :
    (updateBatch job batch s).Same (Loop.Same n) (updateBatch job batch s') := by
  obtain ⟨trainer, globalStep, stop, output⟩ := s
  obtain ⟨trainer', globalStep', stop', output'⟩ := s'
  obtain ⟨rfl, rfl, rfl, houtput⟩ := h
  simp only [updateBatch]
  cases backwardAll job.machine (batchTokens batch) batch trainer with
  | error e => exact ⟨rfl, .error e⟩
  | ok updated =>
      dsimp only
      cases job.machine.update updated _ (globalStep + 1) with
      | error e => exact ⟨rfl, .error e⟩
      | ok updated => exact ⟨rfl, .ok ⟨rfl, rfl, rfl, houtput⟩⟩

/-- A checkpoint is refused in both directories or in none. -/
theorem saveIfDue_same {n : Nat} {s s' : Loop T} (epoch dataRow : Nat)
    (h : Loop.Same n s s') (hn : n < s.globalStep) :
    (saveIfDue job epoch dataRow s).Same (Loop.Same n) (saveIfDue job epoch dataRow s') := by
  obtain ⟨trainer, globalStep, stop, output⟩ := s
  obtain ⟨trainer', globalStep', stop', output'⟩ := s'
  obtain ⟨rfl, rfl, rfl, houtput⟩ := h
  simp only [saveIfDue, saveCheckpoint]
  by_cases hdue : job.options.saveEvery ≠ 0 ∧ globalStep % job.options.saveEvery = 0
  · rw [if_pos hdue, if_pos hdue]
    by_cases hexists : globalStep ∈ output.checkpoints
    · rw [if_pos hexists, if_pos ((houtput.2 globalStep hn).mp hexists)]
      exact ⟨rfl, .error _⟩
    · rw [if_neg hexists, if_neg fun h => hexists ((houtput.2 globalStep hn).mpr h)]
      exact ⟨rfl, .ok ⟨rfl, rfl, rfl, houtput.add_add globalStep⟩⟩
  · rw [if_neg hdue, if_neg hdue]
    exact ⟨rfl, .ok ⟨rfl, rfl, rfl, houtput⟩⟩

theorem trainEpoch_same {n : Nat} (epoch passes dataRow : Nat) (rows : List Row)
    (exhausted : Bool) {s s' : Loop T} (h : Loop.Same n s s') (hn : n ≤ s.globalStep) :
    (trainEpoch job epoch passes rows dataRow exhausted s).Same (Loop.Same n)
      (trainEpoch job epoch passes rows dataRow exhausted s') := by
  induction passes generalizing rows dataRow exhausted s s' with
  | zero => exact ⟨rfl, .ok h⟩
  | succ passes ih =>
      simp only [trainEpoch]
      by_cases hexhausted : exhausted = true
      · rw [if_pos hexhausted, if_pos hexhausted]
        exact ⟨rfl, .ok h⟩
      rw [if_neg hexhausted, if_neg hexhausted]
      by_cases hempty : (fillBatch job.encode job.options rows dataRow []).batch = []
      · rw [if_pos hempty, if_pos hempty]
        exact ⟨rfl, .ok h⟩
      rw [if_neg hempty, if_neg hempty]
      refine (updateBatch_same _ h).next ?_
      intro a b ha hb hab
      have hstepa := (updateBatch_ok ha).1
      refine (saveIfDue_same _ _ hab (by omega)).next ?_
      intro a' b' ha' hb' hab'
      have hstepa' := (saveIfDue_ok ha').1
      rw [hab'.globalStep]
      by_cases hlimit : limitReached job b'.globalStep = true
      · rw [if_pos hlimit, if_pos hlimit]
        exact ⟨rfl, .ok ⟨hab'.trainer, rfl, rfl, hab'.output⟩⟩
      · rw [if_neg hlimit, if_neg hlimit]
        exact ih _ _ _ hab' (by omega)

theorem trainEpochs_same {n : Nat} (count epoch : Nat) {s s' : Loop T}
    (h : Loop.Same n s s') (hn : n ≤ s.globalStep) :
    (trainEpochs job count epoch s).Same (Loop.Same n) (trainEpochs job count epoch s') := by
  induction count generalizing epoch s s' with
  | zero => exact ⟨rfl, .ok h⟩
  | succ count ih =>
      simp only [trainEpochs]
      rw [h.stop]
      by_cases hstop : s'.stop = true
      · rw [if_pos hstop, if_pos hstop]
        exact ⟨rfl, .ok h⟩
      · rw [if_neg hstop, if_neg hstop]
        refine (trainEpoch_same _ _ _ _ _ h hn).next ?_
        intro a b ha hb hab
        exact ih (epoch + 1) hab (Nat.le_trans hn (trainEpoch_ok ha).1)

/-- A run depends on the directory through the later steps and the final adapter. -/
theorem train_same {n : Nat} (epoch row : Nat) {s s' : Loop T} (h : Loop.Same n s s')
    (hn : n ≤ s.globalStep) : train job epoch row s = train job epoch row s' := by
  have hall : (trainAll job epoch row s).Same (Loop.Same n) (trainAll job epoch row s') := by
    simp only [trainAll]
    rw [h.globalStep]
    by_cases hempty : job.dataset = []
    · rw [if_pos hempty, if_pos hempty]
      exact ⟨rfl, .error _⟩
    rw [if_neg hempty, if_neg hempty]
    by_cases hdone : limitReached job s'.globalStep = true ∨ job.options.epochs < epoch
    · rw [if_pos hdone, if_pos hdone]
      exact ⟨rfl, .ok ⟨h.trainer, rfl, rfl, h.output⟩⟩
    rw [if_neg hdone, if_neg hdone]
    by_cases hrow : job.dataset.length < row
    · rw [if_pos hrow, if_pos hrow]
      exact ⟨rfl, .error _⟩
    rw [if_neg hrow, if_neg hrow]
    refine (trainEpoch_same _ _ _ _ _ h hn).next ?_
    intro a b ha hb hab
    exact trainEpochs_same _ _ hab (Nat.le_trans hn (trainEpoch_ok ha).1)
  have hsame : (train job epoch row s).Same Eq (train job epoch row s') := by
    refine hall.next ?_
    intro a b ha hb hab
    simp only [exportFinal, hab.output.1, hab.trainer]
    by_cases hfinal : b.output.final = true
    · rw [if_pos hfinal]
      exact ⟨rfl, .error _⟩
    · rw [if_neg hfinal]
      exact ⟨rfl, .ok rfl⟩
  generalize train job epoch row s = t at hsame
  generalize train job epoch row s' = t' at hsame
  obtain ⟨events, result⟩ := t
  obtain ⟨events', result'⟩ := t'
  obtain ⟨rfl, hresult⟩ := hsame
  cases hresult with
  | error e => rfl
  | ok hab => rw [hab]

end Directories

section Normalizers

variable {job : Job T F C}

/-- No update divides by zero. -/
def Trace.Normalized (t : Trace T F C α) : Prop :=
  ∀ batch normalizer lr step, .update batch normalizer lr step ∈ t.events → 0 < normalizer

theorem normalized_nil (r : Except String α) :
    (⟨[], r⟩ : Trace T F C α).Normalized := by
  intro batch normalizer lr step h
  simp at h

theorem Trace.Normalized.next {t : Trace T F C α} {f : α → Trace T F C β}
    (h : t.Normalized) (hf : ∀ a, (f a).Normalized) : (t.next f).Normalized := by
  intro batch normalizer lr step hmem
  cases ht : t.result with
  | error e =>
      rw [Trace.next_error ht] at hmem
      exact h batch normalizer lr step hmem
  | ok a =>
      rw [Trace.next_ok ht] at hmem
      rcases List.mem_append.mp hmem with hfirst | hsecond
      · exact h batch normalizer lr step hfirst
      · exact hf a batch normalizer lr step hsecond

theorem updateBatch_normalized {batch : List Sample} (hpos : 0 < batchTokens batch)
    (s : Loop T) : (updateBatch job batch s).Normalized := by
  simp only [updateBatch]
  cases backwardAll job.machine (batchTokens batch) batch s.trainer with
  | error e => exact normalized_nil _
  | ok trainer =>
      dsimp only
      cases job.machine.update trainer _ (s.globalStep + 1) with
      | error e => exact normalized_nil _
      | ok trainer =>
          intro batch' normalizer lr step h
          simp only [List.mem_singleton, Event.update.injEq] at h
          rw [h.2.1]
          exact hpos

theorem saveIfDue_normalized (epoch dataRow : Nat) (s : Loop T) :
    (saveIfDue job epoch dataRow s).Normalized := by
  rcases saveIfDue_cases job epoch dataRow s with hsave | hsave | hsave
  · rw [hsave]
    exact normalized_nil _
  · rw [hsave]
    exact normalized_nil _
  · rw [hsave]
    intro batch normalizer lr step h
    simp at h

theorem trainEpoch_normalized (epoch passes dataRow : Nat) (rows : List Row)
    (exhausted : Bool) (s : Loop T) :
    (trainEpoch job epoch passes rows dataRow exhausted s).Normalized := by
  induction passes generalizing rows dataRow exhausted s with
  | zero => exact normalized_nil _
  | succ passes ih =>
      simp only [trainEpoch]
      by_cases hexhausted : exhausted = true
      · rw [if_pos hexhausted]
        exact normalized_nil _
      rw [if_neg hexhausted]
      have hfills : Fills rows dataRow [] (fillBatch job.encode job.options rows dataRow []) :=
        fillBatch_spec rows dataRow []
      generalize fillBatch job.encode job.options rows dataRow [] = filled at hfills ⊢
      by_cases hempty : filled.batch = []
      · rw [if_pos hempty]
        exact normalized_nil _
      rw [if_neg hempty]
      have hpos := batchTokens_pos hempty (hfills.targets (by simp))
      refine (updateBatch_normalized hpos s).next fun a => ?_
      refine (saveIfDue_normalized _ _ a).next fun b => ?_
      by_cases hlimit : limitReached job b.globalStep = true
      · rw [if_pos hlimit]
        exact normalized_nil _
      · rw [if_neg hlimit]
        exact ih _ _ _ b

theorem trainEpochs_normalized (count epoch : Nat) (s : Loop T) :
    (trainEpochs job count epoch s).Normalized := by
  induction count generalizing epoch s with
  | zero => exact normalized_nil _
  | succ count ih =>
      simp only [trainEpochs]
      by_cases hstop : s.stop = true
      · rw [if_pos hstop]
        exact normalized_nil _
      · rw [if_neg hstop]
        exact (trainEpoch_normalized _ _ _ _ _ s).next fun a => ih (epoch + 1) a

theorem train_normalized (epoch row : Nat) (s : Loop T) :
    (train job epoch row s).Normalized := by
  unfold train
  refine Trace.Normalized.next ?_ fun a => ?_
  · unfold trainAll
    by_cases hempty : job.dataset = []
    · rw [if_pos hempty]
      exact normalized_nil _
    rw [if_neg hempty]
    by_cases hdone : limitReached job s.globalStep = true ∨ job.options.epochs < epoch
    · rw [if_pos hdone]
      exact normalized_nil _
    rw [if_neg hdone]
    by_cases hrow : job.dataset.length < row
    · rw [if_pos hrow]
      exact normalized_nil _
    rw [if_neg hrow]
    exact (trainEpoch_normalized _ _ _ _ _ s).next fun a => trainEpochs_normalized _ _ a
  · unfold exportFinal
    by_cases hfinal : a.output.final = true
    · rw [if_pos hfinal]
      exact normalized_nil _
    · rw [if_neg hfinal]
      intro batch normalizer lr step h
      simp at h

end Normalizers

section Resume

variable (job : Job T F C) [DecidableEq C]

/-- A process that gets as far as training is a run from some point. -/
theorem perform_cases (output : Output) (start : Start T C) :
    (∃ e, perform job output start = ⟨[], .error e⟩) ∨
    ∃ epoch row s, s.stop = false ∧ s.output = output ∧
      perform job output start = train job epoch row s := by
  cases start with
  | fresh trainer => exact Or.inr ⟨1, 0, _, rfl, rfl, rfl⟩
  | resumed saved =>
      simp only [perform, resume]
      by_cases hconfig : saved.config ≠ job.config
      · rw [if_pos hconfig]
        exact Or.inl ⟨_, rfl⟩
      rw [if_neg hconfig]
      by_cases hfinite : job.machine.isFinite saved.trainer = false
      · rw [if_pos hfinite]
        exact Or.inl ⟨_, rfl⟩
      rw [if_neg hfinite]
      exact Or.inr ⟨saved.epoch, saved.row, _, rfl, rfl, rfl⟩

/--
Restarting from a checkpoint performs what the process that wrote it performed
after it, with the same end; and no update of any process has a normalizer of
zero.
-/
theorem resume_continues (output output' : Output) (start : Start T C)
    (before after : List (Event T F C)) (c : Checkpoint T C)
    (hwritten : (perform job output start).events = before ++ .checkpoint c :: after)
    (hfinite : job.machine.isFinite c.trainer = true)
    (houtput : output'.SameAbove c.step output) :
    perform job output' (.resumed c) = ⟨after, (perform job output start).result⟩ ∧
      (perform job output start).Normalized ∧
      (perform job output' (.resumed c)).Normalized := by
  have hnormalized : ∀ output start, (perform job output start).Normalized := by
    intro output start
    rcases perform_cases job output start with ⟨e, hperform⟩ | ⟨epoch, row, s, -, -, hperform⟩
    · rw [hperform]
      exact normalized_nil _
    · rw [hperform]
      exact train_normalized epoch row s
  refine ⟨?_, hnormalized _ _, hnormalized _ _⟩
  rcases perform_cases job output start with ⟨e, hperform⟩ | ⟨epoch, row, s, hstop, hs, hperform⟩
  · rw [hperform] at hwritten
    exact absurd hwritten.symm (by simp)
  · rw [hperform] at hwritten ⊢
    obtain ⟨reached, hconfig, hsame, hrest⟩ := train_continues hstop ⟨before, hwritten⟩
    rw [hrest]
    have hnotfinite : ¬job.machine.isFinite c.trainer = false := by
      rw [hfinite]
      exact Bool.noConfusion
    show resume job output' c = _
    rw [resume, if_neg (not_not.mpr hconfig), if_neg hnotfinite]
    refine train_same c.epoch c.row ⟨rfl, rfl, rfl, ?_⟩ (Nat.le_refl _)
    rw [hs] at hsame
    exact houtput.trans hsame.symm

end Resume

section Examples

/-- Two rows of two tokens, a batch of one, and a checkpoint after each update. -/
def smallJob : Job Nat Rat Unit :=
  { ops :=
      { ofNat := fun n => (n : Rat), add := (· + ·), sub := (· - ·), mul := (· * ·),
        div := (· / ·), min := min, exp := id, log := id }
    machine :=
      { backward := fun trainer _ _ _ => .ok (trainer + 1)
        update := fun trainer _ _ => .ok trainer
        isFinite := fun _ => true }
    encode := fun _ => [7, 8]
    options :=
      { ctx := 128, epochs := 1, batchSize := 1, maxSteps := 0, lr := 1, lrFinal := 1,
        warmupSteps := 10, saveEvery := 1 }
    config := ()
    dataset := [[⟨"a", true⟩], [⟨"b", true⟩]] }

/-- The first checkpoint of that job. -/
def smallCheckpoint : Checkpoint Nat Unit :=
  { config := (), step := 1, epoch := 1, row := 1, trainer := 1 }

/-- The events of that job before its first checkpoint. -/
def smallBefore : List (Event Nat Rat Unit) :=
  [.update [⟨[7, 8], [true, true]⟩] 1 (1 / 10) 1]

/-- The events of that job after its first checkpoint. -/
def smallAfter : List (Event Nat Rat Unit) :=
  [.update [⟨[7, 8], [true, true]⟩] 1 (2 / 10) 2,
    .checkpoint { config := (), step := 2, epoch := 1, row := 2, trainer := 2 },
    .export 2]

theorem resume_continues_small :
    perform smallJob ⟨[1], false⟩ (.resumed smallCheckpoint) = ⟨smallAfter, .ok 2⟩ :=
  (resume_continues smallJob ⟨[], false⟩ ⟨[1], false⟩ (.fresh 0) smallBefore smallAfter
    smallCheckpoint (by decide +kernel) rfl (Output.SameAbove.add ⟨[], false⟩ 1)).1

/--
In the directory that the first run has left behind, the restart stops where
the next checkpoint already exists.
-/
theorem resume_meets_checkpoint :
    (perform smallJob ⟨[], false⟩ (.fresh 0)).events =
        smallBefore ++ .checkpoint smallCheckpoint :: smallAfter ∧
      smallJob.machine.isFinite smallCheckpoint.trainer = true ∧
      smallJob.options.Valid ∧
      (perform smallJob ⟨[2, 1], false⟩ (.resumed smallCheckpoint)).events ≠ smallAfter ∧
      (perform smallJob ⟨[2, 1], false⟩ (.resumed smallCheckpoint)).result =
        .error "checkpoint destination exists" :=
  ⟨by decide +kernel, rfl, ⟨by decide, by decide, by decide⟩, by decide +kernel, by rfl⟩

end Examples

end TuningLoop
end RwkvLightning

import Mathlib

/-!
# The adapter tuning loop

The training loop in `main` of `bf16_training/main.cpp` as it is built for the
adapter tuners, with `Trainer::checkpoint` and `Trainer::resume`.

**State.**  What the trainer holds on the device (factors, gradient, Adam
moments) is the parameter `Trainer` type; `Machine` says what a backward pass
and an update do to it.  A checkpoint stores it and `resume` gives it back.
Floating point arithmetic is the parameter `FloatOps`.

**Files.**  Of the output directory only what a run can run into is kept: the
steps whose checkpoint directory, or its staging directory, exists, and whether
the final adapter exists.
-/

namespace RwkvLightning
namespace TuningLoop

/-- A token id. -/
abbrev Token := Nat

/-- `TextSegment`. -/
structure TextSegment where
  text : String
  train : Bool
deriving DecidableEq

/-- A JSONL row. -/
abbrev Row := List TextSegment

/-- `Sample`; `train` says which tokens are targets. -/
structure Sample where
  tokens : List Token
  train : List Bool
deriving DecidableEq

/-- The operations on `float` that the schedule uses. -/
structure FloatOps (F : Type) where
  ofNat : Nat → F
  add : F → F → F
  sub : F → F → F
  mul : F → F → F
  div : F → F → F
  min : F → F → F
  exp : F → F
  log : F → F

/-- The options that the loop reads. -/
structure Options (F : Type) where
  ctx : Nat
  epochs : Nat
  batchSize : Nat
  maxSteps : Nat
  lr : F
  lrFinal : F
  warmupSteps : Nat
  saveEvery : Nat

/-- What `parse` lets through. -/
structure Options.Valid {F : Type} (o : Options F) : Prop where
  ctx_pos : 0 < o.ctx
  epochs_pos : 0 < o.epochs
  batchSize_pos : 0 < o.batchSize

/-- What a training step does with what the trainer holds. -/
structure Machine (T F : Type) where
  backward : T → List Token → List Bool → Nat → Except String T
  update : T → F → Nat → Except String T
  isFinite : T → Bool

/-- The fields of `checkpoint.json` that `resume` reads, and the tensors. -/
structure Checkpoint (T C : Type) where
  config : C
  step : Nat
  epoch : Nat
  row : Nat
  trainer : T
deriving DecidableEq

/-- What a run does, in order. -/
inductive Event (T F C : Type) where
  | update (batch : List Sample) (normalizer : Nat) (lr : F) (step : Nat)
  | checkpoint (saved : Checkpoint T C)
  | export (trainer : T)
deriving DecidableEq

/-- The output directory. -/
structure Output where
  checkpoints : List Nat
  final : Bool
deriving DecidableEq

/-- The variables of the loop. -/
structure Loop (T : Type) where
  trainer : T
  globalStep : Nat
  stop : Bool
  output : Output

/-- The events of a part of the run, and how it ends. -/
structure Trace (T F C α : Type) where
  events : List (Event T F C)
  result : Except String α

variable {T F C α β : Type}

/-- Go on after a part of the run. -/
def Trace.next (t : Trace T F C α) (f : α → Trace T F C β) : Trace T F C β :=
  match t.result with
  | .error e => ⟨t.events, .error e⟩
  | .ok a => ⟨t.events ++ (f a).events, (f a).result⟩

/-- Everything that a run is given. -/
structure Job (T F C : Type) where
  ops : FloatOps F
  machine : Machine T F
  encode : String → List Token
  options : Options F
  config : C
  dataset : List Row

/-- `learning_rate`. -/
def learningRate (ops : FloatOps F) (o : Options F) (nextStep plannedSteps : Nat) : F :=
  if o.warmupSteps ≠ 0 ∧ nextStep ≤ o.warmupSteps then
    ops.div (ops.mul o.lr (ops.ofNat nextStep)) (ops.ofNat o.warmupSteps)
  else
    let afterWarmup :=
      if o.warmupSteps < plannedSteps then plannedSteps - o.warmupSteps else 1
    let position := if o.warmupSteps < nextStep then nextStep - o.warmupSteps else 0
    let progress :=
      ops.min (ops.ofNat 1) (ops.div (ops.ofNat position) (ops.ofNat afterWarmup))
    ops.exp (ops.add (ops.log o.lr)
      (ops.mul (ops.sub (ops.log o.lrFinal) (ops.log o.lr)) progress))

/-- The number of updates that the schedule is made for. -/
def plannedSteps (o : Options F) (datasetRows : Nat) : Nat :=
  o.epochs * ((datasetRows + o.batchSize - 1) / o.batchSize)

/-- The loop that drops the positions after the last target. -/
def trimCount (train : List Bool) : Nat → Nat
  | 0 => 0
  | 1 => 1
  | n + 2 => if train.getD (n + 1) false then n + 2 else trimCount train (n + 1)

/-- The sample of a row; `none` when it is skipped. -/
def sampleOf (encode : String → List Token) (ctx : Nat) (row : Row) : Option Sample :=
  let tokens := row.flatMap (fun segment => encode segment.text)
  let train := row.flatMap (fun segment =>
    List.replicate (encode segment.text).length segment.train)
  let count := trimCount train (min tokens.length (ctx + 1))
  if count < 2 then none
  else some { tokens := tokens.take count, train := train.take count }

/-- The loss targets of a sample. -/
def Sample.targets (sample : Sample) : Nat :=
  (sample.train.drop 1).count true

/-- `batch_tokens`. -/
def batchTokens (batch : List Sample) : Nat :=
  (batch.map Sample.targets).sum

/-- The variables of the loop that fills a batch. -/
structure Filled where
  batch : List Sample
  rest : List Row
  dataRow : Nat
  exhausted : Bool

/-- The loop that fills a batch. -/
def fillBatch (encode : String → List Token) (o : Options F) :
    List Row → Nat → List Sample → Filled
  | [], dataRow, batch =>
      { batch := batch, rest := [], dataRow := dataRow,
        exhausted := decide (batch.length < o.batchSize) }
  | row :: rows, dataRow, batch =>
      if batch.length < o.batchSize then
        match sampleOf encode o.ctx row with
        | none => fillBatch encode o rows (dataRow + 1) batch
        | some sample => fillBatch encode o rows (dataRow + 1) (batch ++ [sample])
      else { batch := batch, rest := row :: rows, dataRow := dataRow, exhausted := false }

/-- `Executor::backward` for the samples of a batch. -/
def backwardAll (machine : Machine T F) (normalizer : Nat) :
    List Sample → T → Except String T
  | [], trainer => .ok trainer
  | sample :: batch, trainer =>
      match machine.backward trainer sample.tokens sample.train normalizer with
      | .error e => .error e
      | .ok trainer => backwardAll machine normalizer batch trainer

section Run

variable (job : Job T F C)

/-- `Trainer::checkpoint`. -/
def saveCheckpoint (epoch dataRow : Nat) (s : Loop T) : Trace T F C (Loop T) :=
  if s.globalStep ∈ s.output.checkpoints then
    ⟨[], .error "checkpoint destination exists"⟩
  else
    ⟨[.checkpoint
        { config := job.config, step := s.globalStep, epoch := epoch, row := dataRow,
          trainer := s.trainer }],
      .ok { s with output :=
        { s.output with checkpoints := s.globalStep :: s.output.checkpoints } }⟩

/-- The optimizer step for a batch. -/
def updateBatch (batch : List Sample) (s : Loop T) : Trace T F C (Loop T) :=
  let nextStep := s.globalStep + 1
  let lr := learningRate job.ops job.options nextStep
    (plannedSteps job.options job.dataset.length)
  match backwardAll job.machine (batchTokens batch) batch s.trainer with
  | .error e => ⟨[], .error e⟩
  | .ok trainer =>
      match job.machine.update trainer lr nextStep with
      | .error e => ⟨[], .error e⟩
      | .ok trainer =>
          ⟨[.update batch (batchTokens batch) lr nextStep],
            .ok { s with trainer := trainer, globalStep := nextStep }⟩

/-- The periodic checkpoint. -/
def saveIfDue (epoch dataRow : Nat) (s : Loop T) : Trace T F C (Loop T) :=
  if job.options.saveEvery ≠ 0 ∧ s.globalStep % job.options.saveEvery = 0 then
    saveCheckpoint job epoch dataRow s
  else ⟨[], .ok s⟩

/-- `max_steps` is reached. -/
def limitReached (globalStep : Nat) : Bool :=
  job.options.maxSteps ≠ 0 ∧ job.options.maxSteps ≤ globalStep

/--
The `while (!exhausted)` loop of an epoch.  A pass that goes on has consumed a
row, so `passes` is never used up.
-/
def trainEpoch (epoch : Nat) : Nat → List Row → Nat → Bool → Loop T →
    Trace T F C (Loop T)
  | 0, _, _, _, s => ⟨[], .ok s⟩
  | passes + 1, rows, dataRow, exhausted, s =>
      if exhausted then ⟨[], .ok s⟩
      else
        let filled := fillBatch job.encode job.options rows dataRow []
        if filled.batch = [] then ⟨[], .ok s⟩
        else
          (updateBatch job filled.batch s).next fun s =>
            (saveIfDue job epoch filled.dataRow s).next fun s =>
              if limitReached job s.globalStep then ⟨[], .ok { s with stop := true }⟩
              else trainEpoch epoch passes filled.rest filled.dataRow filled.exhausted s

/-- One pass over the dataset, from a row on. -/
def trainFrom (epoch row : Nat) (s : Loop T) : Trace T F C (Loop T) :=
  trainEpoch job epoch (job.dataset.length + 1) (job.dataset.drop row) row false s

/-- The epochs after the first one; `count` of them are left. -/
def trainEpochs : Nat → Nat → Loop T → Trace T F C (Loop T)
  | 0, _, s => ⟨[], .ok s⟩
  | count + 1, epoch, s =>
      if s.stop then ⟨[], .ok s⟩
      else (trainFrom job epoch 0 s).next fun s => trainEpochs count (epoch + 1) s

/-- `export_adapter` of the final adapter. -/
def exportFinal (s : Loop T) : Trace T F C T :=
  if s.output.final then ⟨[], .error "adapter destination already exists"⟩
  else ⟨[.export s.trainer], .ok s.trainer⟩

/-- The epochs from a position on. -/
def trainAll (epoch row : Nat) (s : Loop T) : Trace T F C (Loop T) :=
  if job.dataset = [] then ⟨[], .error "dataset has no JSONL rows"⟩
  else if limitReached job s.globalStep ∨ job.options.epochs < epoch then
    ⟨[], .ok { s with stop := limitReached job s.globalStep }⟩
  else if job.dataset.length < row then
    ⟨[], .error "resume data progress exceeds dataset"⟩
  else
    (trainFrom job epoch row s).next
      (trainEpochs job (job.options.epochs - epoch) (epoch + 1))

/-- The epochs from a position on, and the final adapter. -/
def train (epoch row : Nat) (s : Loop T) : Trace T F C T :=
  (trainAll job epoch row s).next exportFinal

/-- A run from the beginning; `trainer` is what the constructor sets up. -/
def run (output : Output) (trainer : T) : Trace T F C T :=
  train job 1 0 { trainer := trainer, globalStep := 0, stop := false, output := output }

variable [DecidableEq C]

/-- A run with `--resume`. -/
def resume (output : Output) (saved : Checkpoint T C) : Trace T F C T :=
  if saved.config ≠ job.config then
    ⟨[], .error "resume requires a matching BF16 training checkpoint/config"⟩
  else if job.machine.isFinite saved.trainer = false then
    ⟨[], .error "nonfinite checkpoint"⟩
  else
    train job saved.epoch saved.row
      { trainer := saved.trainer, globalStep := saved.step, stop := false,
        output := output }

/-- How a process is started. -/
inductive Start (T C : Type) where
  | fresh (trainer : T)
  | resumed (saved : Checkpoint T C)

/-- What a process does. -/
def perform (output : Output) : Start T C → Trace T F C T
  | .fresh trainer => run job output trainer
  | .resumed saved => resume job output saved

end Run

end TuningLoop
end RwkvLightning

import RwkvLightning.OnlineRl.Rollout

/-!
# The online RL server

`Runtime` of `online_rl/server.cpp`: its requests in the order in which the
single worker runs them.

**State.**  A policy is an object behind shared pointers: `heap` holds the
objects, `policies_` and `reference_` hold indices.  What training changes is
the parameter type of the learner; a snapshot copies the weights out of it.

**Files.**  The export of a step is one slot: the directory, its staging
directory, and the same for the checkpoint inside it.

**Failures.**  A request comes with the calls that throw in it.  The bodies are
given decoded.
-/

namespace RwkvLightning
namespace OnlineRl

open PrefixCachePool
open Backend (Bytes)

/-- `Policy`. -/
structure Policy (W : Type) where
  version : String
  directory : Option String
  step : Nat
  weights : W
  cacheEnabled : Bool
deriving DecidableEq

/-- `Sample` of the online RL server. -/
structure TrainSample (F : Type) where
  tokens : List Token
  weights : List F
  temperature : F

/-- `advantages`: one for all tokens, or one for each. -/
inductive Advantages (F : Type) where
  | scalar (value : F)
  | aligned (values : List F)

/-- An element of `turns`, or a sample without turns. -/
structure Turn (F : Type) where
  tokens : List Token
  lossMask : List Bool
  advantages : Option (Advantages F)

/-- A sample of a train request. -/
inductive SampleBody (F : Type) where
  | single (turn : Turn F)
  | turns (turns : List (Turn F)) (advantages : Option (Advantages F))

structure TrainRequest (F : Type) where
  policyVersion : String
  samples : List (SampleBody F × F)
  learningRate : F

structure PublishRequest where
  expectedStep : Nat
  save : Bool
  checkpoint : Bool
deriving DecidableEq

structure LogprobsRequest (F : Type) where
  policyVersion : Option String
  sequences : List (List Token)
  temperature : F

/-- The learner: copying its weights, and an optimizer step. -/
structure Learner (W L F : Type) where
  snapshot : L → W
  update : L → List (TrainSample F) → Nat → F → Nat → L
  score : W → List Token → F → List F
  zero : F
  isZero : F → Bool
  advantageOk : F → Bool
  hasTrainer : Bool

/-- `state.pth`, `adapter.pth` and `policy.json`. -/
structure Export (W : Type) where
  weights : W
  version : String
  step : Nat
deriving DecidableEq

/-- `training.pth` and `checkpoint.json`. -/
structure Training (L : Type) where
  learner : L
  step : Nat
deriving DecidableEq

/-- What exists of an export. -/
structure Slot (W L : Type) where
  exported : Option (Export W)
  staging : Bool
  training : Option (Training L)
  trainingStaging : Bool
deriving DecidableEq

def Slot.empty {W L : Type} : Slot W L :=
  { exported := none, staging := false, training := none, trainingStaging := false }

/-- The calls of `publish` that can throw. -/
inductive PublishSite where
  | snapshot
  | createStaging
  | saveState
  | exportAdapter
  | writeMetadata
  | renameExport
  | removeStaging
  | createTrainingStaging
  | saveTraining
  | renameTraining
  | removeTrainingStaging
  | pushPolicy
deriving DecidableEq

/-- Where a train request fails: before the optimizer step, or after it. -/
inductive TrainFault where
  | none
  | beforeUpdate
  | afterUpdate
deriving DecidableEq

/-- `HttpError`, or status 500 for another exception. -/
structure HttpError where
  status : Nat
  message : String
deriving DecidableEq

structure Published where
  directory : Option String
  checkpoint : Bool
  policyVersion : String
  step : Nat
deriving DecidableEq

/-- What the server is started with. -/
structure Options where
  limits : Limits
  versions : Nat
  output : String

/-- What `parse` lets through. -/
structure Options.Valid (o : Options) : Prop where
  limits : o.limits.Valid
  versions_pos : 0 < o.versions

/-- The fields of `Runtime` that requests change. -/
structure Server (W L S G : Type) where
  runId : String
  learner : L
  step : Nat
  version : Nat
  heap : List (Policy W)
  policies : List Nat
  reference : Nat
  cache : System String Token (CachedState S G)
  files : Nat → Slot W L

/-- The parameters of a server. -/
structure Config (W L S G R F : Type) where
  options : Options
  kernels : Kernels W S G R F
  learner : Learner W L F

variable {W L S G R F : Type}

/-- The name of a version. -/
def versionName (runId : String) (version : Nat) : String :=
  runId ++ ":" ++ toString version

section Requests

variable (c : Config W L S G R F)

/-- `snapshot`. -/
def Server.snapshot (s : Server W L S G) : Policy W :=
  { version := versionName s.runId s.version, directory := none, step := s.step,
    weights := c.learner.snapshot s.learner, cacheEnabled := true }

/-- The server after the constructor; `step` is not zero after a resume. -/
def Server.init (runId : String) (learner : L) (step : Nat)
    (pool : Pool String Token) : Server W L S G :=
  let s : Server W L S G :=
    { runId := runId, learner := learner, step := step, version := 0, heap := [],
      policies := [], reference := 0, cache := System.init pool,
      files := fun _ => .empty }
  { s with heap := [s.snapshot c], policies := [0] }

/-- The newest policy. -/
def Server.newest (s : Server W L S G) : Nat :=
  s.policies.getLastD 0

/-- The policy behind a pointer. -/
def Server.policyAt? (s : Server W L S G) (i : Nat) : Option (Policy W) :=
  s.heap[i]?

/-- `policy`: a retained policy by its version, or the reference. -/
def Server.policy (s : Server W L S G) (version : Option String) :
    Except HttpError Nat :=
  match version with
  | none => .ok s.newest
  | some version =>
      let named (i : Nat) : Bool := (s.heap[i]?.map Policy.version) = some version
      match s.policies.find? named with
      | some i => .ok i
      | none =>
          if named s.reference then .ok s.reference
          else .error ⟨409, "policy version is unknown or retired"⟩

/-- `completions` of the server. -/
def Server.completions (s : Server W L S G) (r : CompletionsRequest F)
    (faults : List (Fault (CachedState S G))) :
    Server W L S G × Except HttpError (String × List (Rollout R F × Nat)) :=
  match s.policy r.policyVersion with
  | .error e => (s, .error e)
  | .ok i =>
      match s.heap[i]? with
      | none => (s, .error ⟨500, "policy"⟩)
      | some p =>
          let (result, work) := OnlineRl.completions c.kernels c.options.limits p.weights
            p.version p.cacheEnabled r { cache := s.cache, faults := faults }
          ({ s with cache := work.cache },
            match result with
            | .error e => .error ⟨500, e⟩
            | .ok rows => .ok (p.version, rows))

/-- `logprobs`. -/
def Server.logprobs (s : Server W L S G) (r : LogprobsRequest F) :
    Except HttpError (String × List (List F)) :=
  match s.policy r.policyVersion with
  | .error e => .error e
  | .ok i =>
      match s.heap[i]? with
      | none => .error ⟨500, "policy"⟩
      | some p =>
          if r.sequences = [] ∨ c.options.limits.batch < r.sequences.length then
            .error ⟨400, "invalid sequences batch"⟩
          else if ¬ ∀ ids ∈ r.sequences,
              tokensValid c.options.limits c.options.limits.ctx ids then
            .error ⟨400, "tokens must be a nonempty bounded array"⟩
          else if ¬ ∀ ids ∈ r.sequences, 2 ≤ ids.length then
            .error ⟨400, "each sequence needs two tokens"⟩
          else
            .ok (p.version,
              r.sequences.map (fun ids => c.learner.score p.weights ids r.temperature))

/-- The samples of a request so far. -/
structure Batch (F : Type) where
  samples : List (TrainSample F)
  kept : Nat
  anyWeight : Bool

/-- The loop of `append` over the tokens of a turn. -/
def pushTokens : List (Token × Bool × F) → TrainSample F × Nat × Bool →
    TrainSample F × Nat × Bool
  | [], acc => acc
  | (token, masked, advantage) :: rest, (s, kept, anyWeight) =>
      let selected := masked && !s.tokens.isEmpty
      let weight := if selected then advantage else c.learner.zero
      pushTokens rest
        ({ s with tokens := s.tokens ++ [token], weights := s.weights ++ [weight] },
          if selected then kept + 1 else kept, anyWeight || !c.learner.isZero weight)

/-- `append` of `train`. -/
def appendTurn (turn : Turn F) (fallback : Option (Advantages F))
    (acc : TrainSample F × Nat × Bool) : Except String (TrainSample F × Nat × Bool) :=
  let limits := c.options.limits
  if tokensValid limits limits.ctx turn.tokens = false then
    .error "tokens must be a nonempty bounded array"
  else if turn.lossMask.length ≠ turn.tokens.length then
    .error "loss_mask must align with tokens"
  else
    match turn.advantages.or fallback with
    | none => .error "advantages must be a signed scalar or token-aligned array"
    | some advantages =>
        let values :=
          match advantages with
          | .scalar value => List.replicate turn.tokens.length value
          | .aligned values => values
        if values.length ≠ turn.tokens.length then
          .error "advantages must be a signed scalar or token-aligned array"
        else if limits.ctx < acc.1.tokens.length + turn.tokens.length then
          .error "training history exceeds ctx"
        else if values.all c.learner.advantageOk = false then
          .error "invalid signed advantage"
        else
          .ok (pushTokens c (turn.tokens.zip (turn.lossMask.zip values)) acc)

/-- `append` for the turns of a sample. -/
def appendTurns (fallback : Option (Advantages F)) :
    List (Turn F) → TrainSample F × Nat × Bool →
    Except String (TrainSample F × Nat × Bool)
  | [], acc => .ok acc
  | turn :: turns, acc => do
      let acc ← appendTurn c turn fallback acc
      appendTurns fallback turns acc

/-- One sample of a request. -/
def readSample (body : SampleBody F) (acc : TrainSample F × Nat × Bool) :
    Except String (TrainSample F × Nat × Bool) :=
  match body with
  | .single turn => appendTurn c turn none acc
  | .turns turns advantages =>
      if turns = [] then .error "use tokens or nonempty turns"
      else
        match advantages with
        | some (.aligned _) => .error "multi-turn sample-level advantages must be scalar"
        | _ => appendTurns c advantages turns acc

/-- All samples of a request. -/
def readSamples : List (SampleBody F × F) → Batch F → Except String (Batch F)
  | [], batch => .ok batch
  | (body, temperature) :: rest, batch => do
      let (sample, kept, anyWeight) ← readSample c body
        ({ tokens := [], weights := [], temperature := temperature }, batch.kept,
          batch.anyWeight)
      if sample.tokens.length < 2 then .error "training sample needs at least two tokens"
      else
        readSamples rest
          { samples := batch.samples ++ [sample], kept := kept, anyWeight := anyWeight }

/-- `train`; the reply says whether the learner was updated. -/
def Server.train (s : Server W L S G) (r : TrainRequest F) (fault : TrainFault) :
    Server W L S G × Except HttpError (String × Bool) :=
  match s.policy (some r.policyVersion) with
  | .error e => (s, .error e)
  | .ok i =>
      match s.heap[i]? with
      | none => (s, .error ⟨500, "policy"⟩)
      | some p =>
          if i ≠ s.newest ∨ p.step ≠ s.step then (s, .error ⟨409, "stale rollout"⟩)
          else if r.samples = [] ∨ c.options.limits.batch < r.samples.length then
            (s, .error ⟨400, "invalid training batch"⟩)
          else
            match readSamples c r.samples ⟨[], 0, false⟩ with
            | .error e => (s, .error ⟨400, e⟩)
            | .ok batch =>
                if batch.kept = 0 then
                  (s, .error ⟨400, "batch has no selected prediction targets"⟩)
                else if batch.anyWeight = false then (s, .ok (p.version, false))
                else
                  let learner := c.learner.update s.learner batch.samples batch.kept
                    r.learningRate (s.step + 1)
                  match fault with
                  | .beforeUpdate => (s, .error ⟨500, "optimizer not executed"⟩)
                  | .afterUpdate => ({ s with learner := learner }, .error ⟨500, "RL synchronize"⟩)
                  | .none =>
                      ({ s with learner := learner, step := s.step + 1 },
                        .ok (p.version, true))

/-- The policy that a publish is about: the newest one, or a new snapshot. -/
inductive Target (W : Type) where
  | existing (i : Nat)
  | fresh (policy : Policy W)

/-- The directory of the policy that is published. -/
def Server.directoryOf (s : Server W L S G) : Target W → Option String
  | .existing i => s.heap[i]?.bind Policy.directory
  | .fresh policy => policy.directory

/-- The version of the policy that is published. -/
def Server.versionOf (s : Server W L S G) : Target W → String
  | .existing i => (s.heap[i]?.map Policy.version).getD ""
  | .fresh policy => policy.version

/-- The export directory of the learner's step. -/
def Server.exportDir (s : Server W L S G) : String :=
  c.options.output ++ "/" ++ s.runId.map (fun ch => if ch = ':' then '_' else ch) ++
    "-step-" ++ toString s.step

/-- Write the slot of the learner's step. -/
def Server.setSlot (s : Server W L S G) (slot : Slot W L) : Server W L S G :=
  { s with files := Function.update s.files s.step slot }

/-- `next->directory = dir`. -/
def Server.setDirectory (s : Server W L S G) (directory : String) :
    Target W → Server W L S G × Target W
  | .existing i =>
      ({ s with heap := s.heap.modify i (fun p => { p with directory := some directory }) },
        .existing i)
  | .fresh policy => (s, .fresh { policy with directory := some directory })

/-- The calls inside the `try` block of the export. -/
def exportSites : List PublishSite :=
  [.saveState, .exportAdapter, .writeMetadata, .renameExport]

/-- The export of `publish`. -/
def Server.exportPolicy (s : Server W L S G) (target : Target W)
    (faults : List PublishSite) :
    Server W L S G × Except HttpError (Target W) :=
  let slot := s.files s.step
  if slot.exported.isSome ∨ slot.staging then
    (s, .error ⟨409, "policy export destination exists"⟩)
  else if .createStaging ∈ faults then (s, .error ⟨500, "create_directories"⟩)
  else if exportSites.any (fun site => site ∈ faults) then
    (s.setSlot { slot with staging := decide (PublishSite.removeStaging ∈ faults) },
      .error ⟨500, "policy export"⟩)
  else
    let written : Export W :=
      { weights := c.learner.snapshot s.learner, version := s.versionOf target,
        step := s.step }
    let s := s.setSlot { slot with exported := some written }
    let (s, target) := s.setDirectory (s.exportDir c) target
    (s, .ok target)

/-- The calls after the checkpoint's staging directory was created. -/
def trainingSites : List PublishSite :=
  [.saveTraining, .renameTraining]

/-- `Trainer::checkpoint` leaves its staging directory, `save_state_training` removes it. -/
def Server.saveTraining (s : Server W L S G) (faults : List PublishSite) :
    Server W L S G × Except HttpError Unit :=
  let slot := s.files s.step
  if slot.training.isSome then (s, .ok ())
  else if slot.trainingStaging then
    (s, .error ⟨if c.learner.hasTrainer then 500 else 409, "checkpoint destination exists"⟩)
  else if .createTrainingStaging ∈ faults then (s, .error ⟨500, "create_directories"⟩)
  else if trainingSites.any (fun site => site ∈ faults) then
    (s.setSlot
      { slot with trainingStaging :=
          c.learner.hasTrainer || decide (PublishSite.removeTrainingStaging ∈ faults) },
      .error ⟨500, "checkpoint"⟩)
  else
    (s.setSlot { slot with training := some { learner := s.learner, step := s.step } },
      .ok ())

/-- The loop that retires the oldest policies. -/
def Server.retire : Nat → Server W L S G → Server W L S G
  | 0, s => s
  | fuel + 1, s =>
      if c.options.versions < s.policies.length then
        match s.policies with
        | [] => s
        | i :: rest =>
            let version := (s.heap[i]?.map Policy.version).getD ""
            Server.retire fuel
              { s with
                heap := s.heap.modify i (fun p => { p with cacheEnabled := false })
                policies := rest
                cache := s.cache.eraseIdentity version }
      else s

/-- The end of `publish`. -/
def Server.install (s : Server W L S G) : Target W → Server W L S G
  | .existing _ => s.retire c s.policies.length
  | .fresh policy =>
      let s : Server W L S G :=
        { s with heap := s.heap ++ [policy], policies := s.policies ++ [s.heap.length] }
      s.retire c s.policies.length

/-- The newest policy is not the learner. -/
def Server.changed (s : Server W L S G) : Bool :=
  (s.heap[s.newest]?.map Policy.step) ≠ some s.step

/-- `++version_`, when there is something new to publish. -/
def Server.numbered (s : Server W L S G) : Server W L S G :=
  if s.changed then { s with version := s.version + 1 } else s

/-- `next` of `publish`. -/
def Server.target (s : Server W L S G) (changed : Bool) : Target W :=
  if changed then .fresh (s.snapshot c) else .existing s.newest

/-- The export of `publish`, for a policy that has none. -/
def Server.saveExport (s : Server W L S G) (target : Target W) (r : PublishRequest)
    (faults : List PublishSite) : Server W L S G × Except HttpError (Target W) :=
  if (r.save ∨ r.checkpoint) ∧ s.directoryOf target = none then
    s.exportPolicy c target faults
  else (s, .ok target)

/-- The checkpoint of `publish`. -/
def Server.saveCheckpoint (s : Server W L S G) (r : PublishRequest)
    (faults : List PublishSite) : Server W L S G × Except HttpError Unit :=
  if r.checkpoint then s.saveTraining c faults else (s, .ok ())

/-- The export and the checkpoint of `publish`. -/
def Server.saveAll (s : Server W L S G) (target : Target W) (r : PublishRequest)
    (faults : List PublishSite) : Server W L S G × Except HttpError (Target W) :=
  match s.saveExport c target r faults with
  | (s, .error e) => (s, .error e)
  | (s, .ok target) =>
      match s.saveCheckpoint c r faults with
      | (s, .error e) => (s, .error e)
      | (s, .ok _) => (s, .ok target)

/-- `publish`. -/
def Server.publish (s : Server W L S G) (r : PublishRequest)
    (faults : List PublishSite) : Server W L S G × Except HttpError Published :=
  if r.expectedStep ≠ s.step then (s, .error ⟨409, "learner step changed"⟩)
  else
    let changed := s.changed
    let s := s.numbered
    if changed ∧ .snapshot ∈ faults then (s, .error ⟨500, "copy policy"⟩)
    else
      match s.saveAll c (s.target c changed) r faults with
      | (s, .error e) => (s, .error e)
      | (s, .ok target) =>
          if changed ∧ .pushPolicy ∈ faults then (s, .error ⟨500, "push_back"⟩)
          else
            let directory := s.directoryOf target
            let s := s.install c target
            (s, .ok
              { directory := directory, checkpoint := r.checkpoint
                policyVersion := (s.heap[s.newest]?.map Policy.version).getD ""
                step := s.step })

inductive Event (F S G : Type) where
  | completions (r : CompletionsRequest F) (faults : List (Fault (CachedState S G)))
  | logprobs (r : LogprobsRequest F)
  | train (r : TrainRequest F) (fault : TrainFault)
  | publish (r : PublishRequest) (faults : List PublishSite)

/-- One request of the worker. -/
def step (s : Server W L S G) : Event F S G → Server W L S G
  | .completions r faults => (s.completions c r faults).1
  | .logprobs _ => s
  | .train r fault => (s.train c r fault).1
  | .publish r faults => (s.publish c r faults).1

/-- The requests of a run, one after the other. -/
def run (s : Server W L S G) : List (Event F S G) → Server W L S G
  | [] => s
  | e :: events => run (step c s e) events

end Requests

end OnlineRl
end RwkvLightning

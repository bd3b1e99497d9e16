import RwkvLightning.Library.ReverseAccumulation
import Mathlib

/-!
# The training executor

`Executor::reset`, `Executor::forward` and `Executor::backward` of
`bf16_training/executor.cpp`, with the cross entropy kernel and the two entry
points of `model_backward.cpp`.

One row goes through all blocks by `block`, and back by its adjoint, which is
linear in the adjoints that it is given.  Numbers are exact: they range over an
ordered field, so the checks for finite values are absent.

`replayed` is a ghost field: the windows that the current call has replayed.
-/

namespace RwkvLightning
namespace Training

/-- `LogitsMode`. -/
inductive LogitsMode
  | All | Last | None
deriving DecidableEq

section Model

variable (K σ τ ξ ℓ δσ δτ δξ δℓ γ : Type)
variable [Field K]
variable [AddCommGroup δσ] [Module K δσ] [AddCommGroup δτ] [Module K δτ]
variable [AddCommGroup δξ] [Module K δξ] [AddCommGroup δℓ] [Module K δℓ]
variable [AddCommGroup γ] [Module K γ]

/-- `FrozenModelView`, with the kernels that use it. -/
structure FrozenModel where
  vocab : Nat
  /-- One token through all blocks: the WKV states, the shifts, the final block. -/
  block : σ × τ → ℤ → (σ × τ) × ξ
  /-- Adjoints after the row to adjoints before it and the trained parameters. -/
  blockAdjoint : σ × τ → ℤ → ((δσ × δτ) × δξ) →ₗ[K] ((δσ × δτ) × γ)
  /-- The final norm and the output head. -/
  head : ξ → ℓ
  headAdjoint : ξ → δℓ →ₗ[K] δξ
  /-- The negative log-probability of a target at a temperature. -/
  nll : K → ℓ → ℤ → K
  nllAdjoint : K → ℓ → ℤ → δℓ

end Model

/-- One pass of the loop of `backward` over a chunk. -/
structure Window (σ τ : Type) where
  off : Nat
  time : Nat
  supervised : Bool
  restored : σ × τ

/-- The positions of the targets of a window. -/
def Window.targets {σ τ : Type} (u : Window σ τ) : List Nat :=
  List.range' (u.off + 1) u.time

/-- The buffers of `Executor::Impl` that `backward` reads and writes. -/
structure Executor (σ τ ξ ℓ δσ δτ γ : Type) where
  chunk : Nat
  chunk_pos : 0 < chunk
  carried : σ
  shifts : τ
  /-- Of each row: the state in front of it and its token. -/
  tapes : List ((σ × τ) × ℤ)
  finalBlock : List ξ
  logits : List ℓ
  stateGradient : δσ
  terminalShift : δτ
  perBatchGradient : δσ
  shiftGrad : δτ
  checkpoints : List (σ × τ)
  /-- The gradients of the trained parameters, to which the kernels add. -/
  gradient : γ
  replayed : List (Window σ τ)

section Functions

variable {K σ τ ξ ℓ δσ δτ δξ δℓ γ : Type}
variable [Field K] [LinearOrder K]
variable [AddCommGroup δσ] [Module K δσ] [AddCommGroup δτ] [Module K δτ]
variable [AddCommGroup δξ] [Module K δξ] [AddCommGroup δℓ] [Module K δℓ]
variable [AddCommGroup γ] [Module K γ]
variable (m : FrozenModel K σ τ ξ ℓ δσ δτ δξ δℓ γ)

/-- The rows of a chunk through the blocks, with the tape of each row. -/
def forwardRows : σ × τ → List ℤ → (σ × τ) × List ((σ × τ) × ℤ) × List ξ
  | s, [] => (s, [], [])
  | s, token :: tokens =>
      let (next, x) := m.block s token
      let (last, tapes, rows) := forwardRows next tokens
      (last, (s, token) :: tapes, x :: rows)

/-- `model_backward_state_only`: the rows of a chunk in reverse. -/
def modelBackwardStateOnly :
    List ((σ × τ) × ℤ) → List δξ → δσ × δτ → (δσ × δτ) × γ
  | (s, token) :: tapes, d :: outputGradient, a =>
      let (later, g) := modelBackwardStateOnly tapes outputGradient a
      let (adjoint, g') := m.blockAdjoint s token (later, d)
      (adjoint, g' + g)
  | _, _, a => (a, 0)

/-- `xent_kernel` on one row: its loss and the gradient of its logits. -/
def xentKernel (scale temperature : K) (row : ℓ × ℤ × K) : K × δℓ :=
  let scale := scale * row.2.2
  if row.2.1 = -1 ∨ scale = 0 then (0, 0)
  else
    (m.nll temperature row.1 row.2.1 * scale,
      scale • m.nllAdjoint temperature row.1 row.2.1)

/-- `cross_entropy_forward_backward_bf16`. -/
def crossEntropyForwardBackward (rows : Nat) (logits : List ℓ) (targets : List ℤ)
    (gradientScale : K) (rowWeights : List K) (temperature : K) :
    Except String (K × List δℓ) :=
  if rows = 0 ∨ m.vocab = 0 ∨ gradientScale ≤ 0 ∨ temperature ≤ 0 then
    .error "invalid cross entropy arguments"
  else
    let results := (logits.zip (targets.zip rowWeights)).map
      (xentKernel m (gradientScale / rows) temperature)
    .ok ((results.map Prod.fst).sum, results.map Prod.snd)

/-- `model_output_backward_state_only`. -/
def modelOutputBackwardStateOnly (tapes : List ((σ × τ) × ℤ))
    (finalBlock : List ξ) (dLogits : List δℓ) (a : δσ × δτ) : (δσ × δτ) × γ :=
  modelBackwardStateOnly m tapes
    (List.zipWith (fun x d => m.headAdjoint x d) finalBlock dLogits) a

namespace Executor

variable (w : Executor σ τ ξ ℓ δσ δτ γ)

/-- `Executor::reset`. -/
def reset [Zero τ] (initialState : σ) : Executor σ τ ξ ℓ δσ δτ γ :=
  { w with carried := initialState, shifts := 0 }

/-- `Executor::forward`. -/
def forward (tokens : List ℤ) (mode : LogitsMode) :
    Except String (Executor σ τ ξ ℓ δσ δτ γ) :=
  if tokens.length = 0 ∨ w.chunk < tokens.length then .error "forward chunk length"
  else if tokens.any (fun token => token < 0 ∨ (m.vocab : ℤ) ≤ token) then
    .error "token out of range"
  else
    let (last, tapes, rows) := forwardRows m (w.carried, w.shifts) tokens
    .ok { w with
      carried := last.1
      shifts := last.2
      tapes := tapes
      finalBlock := rows
      logits :=
        match mode with
        | .All => rows.map m.head
        | .Last => (rows.drop (tokens.length - 1)).map m.head
        | .None => w.logits }

/-- Checkpoint boundary `j`. -/
def checkpoint : Executor σ τ ξ ℓ δσ δτ γ :=
  { w with checkpoints := w.checkpoints ++ [(w.carried, w.shifts)] }

/-- Restore boundary `j`. -/
def restore (j : Nat) : Executor σ τ ξ ℓ δσ δτ γ :=
  let boundary := w.checkpoints.getD j (w.carried, w.shifts)
  { w with carried := boundary.1, shifts := boundary.2 }

/-- The loop that stores the boundaries; `fuel` counts the chunks left. -/
def storeCheckpoints (tokens : List ℤ) (chunks : Nat) :
    Nat → Nat → Executor σ τ ξ ℓ δσ δτ γ → Except String (Executor σ τ ξ ℓ δσ δτ γ)
  | 0, _, w => .ok w
  | fuel + 1, j, w => do
      let w := w.checkpoint
      let w ←
        if j + 1 < chunks then
          w.forward m ((tokens.drop (j * w.chunk)).take w.chunk) .None
        else .ok w
      storeCheckpoints tokens chunks fuel (j + 1) w

/-- One pass of the loop that goes backward: chunk `j` and its loss. -/
def replay (tokens : List ℤ) (weights : List K) (length normalizer : Nat)
    (temperature : K) (j : Nat) (w : Executor σ τ ξ ℓ δσ δτ γ) :
    Except String (Executor σ τ ξ ℓ δσ δτ γ × K) := do
  let off := j * w.chunk
  let T := min w.chunk (length - off)
  let w := w.restore j
  let rowWeights := (weights.drop (off + 1)).take T
  let supervised := rowWeights.any (fun x => x ≠ 0)
  let window : Window σ τ := ⟨off, T, supervised, (w.carried, w.shifts)⟩
  let w ← w.forward m ((tokens.drop off).take T) (if supervised then .All else .None)
  let adjoint := (w.stateGradient, w.terminalShift)
  if supervised then
    let targets := (tokens.drop (off + 1)).take T
    let (loss, dLogits) ← crossEntropyForwardBackward m T w.logits targets
      ((T : K) / normalizer) rowWeights temperature
    let (before, g) := modelOutputBackwardStateOnly m w.tapes w.finalBlock dLogits adjoint
    .ok ({ w with
      perBatchGradient := before.1, shiftGrad := before.2
      stateGradient := before.1, terminalShift := before.2
      gradient := w.gradient + g, replayed := w.replayed ++ [window] }, loss)
  else
    let (before, g) := modelBackwardStateOnly m w.tapes (List.replicate T 0) adjoint
    .ok ({ w with
      perBatchGradient := before.1, shiftGrad := before.2
      stateGradient := before.1, terminalShift := before.2
      gradient := w.gradient + g, replayed := w.replayed ++ [window] }, 0)

/-- The loop over the chunks `j - 1, …, 0`. -/
def replayChunks (tokens : List ℤ) (weights : List K) (length normalizer : Nat)
    (temperature : K) :
    Nat → Executor σ τ ξ ℓ δσ δτ γ → K → Except String (Executor σ τ ξ ℓ δσ δτ γ × K)
  | 0, w, total => .ok (w, total)
  | j + 1, w, total => do
      let (w, loss) ← replay m tokens weights length normalizer temperature j w
      replayChunks tokens weights length normalizer temperature j w (total + loss)

/-- Drop the positions after the last one with a weight. -/
def trim (weights : List K) : Nat → Nat
  | 0 => 0
  | length + 1 => if weights.getD (length + 1) 0 = 0 then trim weights length else length + 1

/-- `Executor::backward`. -/
def backward [Zero τ] (tokens : List ℤ) (weights : List K) (initialState : σ)
    (normalizer : Nat) (temperature : K) :
    Except String (Executor σ τ ξ ℓ δσ δτ γ × K) :=
  if tokens.length < 2 ∨ weights.length ≠ tokens.length ∨ normalizer = 0 ∨
      temperature ≤ 0 then
    .error "backward tokens/weights/normalizer"
  else if tokens.any (fun token => token < 0 ∨ (m.vocab : ℤ) ≤ token) then
    .error "invalid backward token/weight"
  else
    let length := trim weights (tokens.length - 1)
    let w := { w with stateGradient := 0, terminalShift := 0, replayed := [] }
    if length = 0 then .ok (w, 0)
    else do
      let chunks := 1 + (length - 1) / w.chunk
      let w := { w with checkpoints := [] }
      let w := w.reset initialState
      let w ← storeCheckpoints m tokens chunks chunks 0 w
      replayChunks m tokens weights length normalizer temperature chunks w 0

end Executor

end Functions

end Training
end RwkvLightning

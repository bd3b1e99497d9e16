import RwkvLightning.Training.Executor
import Mathlib

/-!
# Chunked recomputation is exact

The reference is one reverse pass over the whole sequence, with a tape of every
row: `unchunked`.  `Executor.backward` keeps only the states at the boundaries
of the chunks, drops the suffix without weights and replays chunk after chunk.

**Results.**
* `replay_spec`: one pass of the loop replays its rows from their boundary.
* `backward_exact`: loss, initial adjoint and gradients are those of
  `unchunked`, each target with a weight is used once, and every chunk starts at
  the state that the forward pass had there.
-/

namespace RwkvLightning
namespace Training

open ReverseAccumulation

section Rows

variable {K : Type}

/-- Each token but the last, with the token that follows and its weight. -/
def rows (tokens : List ℤ) (weights : List K) : List (ℤ × ℤ × K) :=
  tokens.dropLast.zip (tokens.tail.zip weights.tail)

variable {tokens : List ℤ} {weights : List K}

theorem rows_length (hlen : weights.length = tokens.length) :
    (rows tokens weights).length = tokens.length - 1 := by
  simp [rows, hlen]

/-- The tokens of a chunk of rows. -/
theorem rows_inputs (hlen : weights.length = tokens.length)
    {off T : Nat} (hin : off + T ≤ tokens.length - 1) :
    (tokens.drop off).take T =
      (((rows tokens weights).drop off).take T).map Prod.fst := by
  have hfst : (rows tokens weights).map Prod.fst = tokens.dropLast := by
    rw [rows, List.map_fst_zip]
    simp [hlen]
  rw [List.map_take, List.map_drop, hfst, List.dropLast_eq_take, List.drop_take,
    List.take_take]
  congr 1
  omega

theorem rows_snd (hlen : weights.length = tokens.length) :
    (rows tokens weights).map Prod.snd = tokens.tail.zip weights.tail := by
  rw [rows, List.map_snd_zip]
  simp [hlen]

/-- The targets of a chunk of rows. -/
theorem rows_targets (hlen : weights.length = tokens.length) (off T : Nat) :
    (tokens.drop (off + 1)).take T =
      (((rows tokens weights).drop off).take T).map (fun row => row.2.1) := by
  have hsnd : (rows tokens weights).map (fun row => row.2.1) = tokens.tail := by
    have h := congrArg (List.map Prod.fst) (rows_snd hlen)
    rw [List.map_map, List.map_fst_zip (by simp [hlen])] at h
    exact h
  rw [List.map_take, List.map_drop, hsnd, ← List.drop_one, List.drop_drop, Nat.add_comm]

/-- The weights of a chunk of rows. -/
theorem rows_weights (hlen : weights.length = tokens.length) (off T : Nat) :
    (weights.drop (off + 1)).take T =
      (((rows tokens weights).drop off).take T).map (fun row => row.2.2) := by
  have hsnd : (rows tokens weights).map (fun row => row.2.2) = weights.tail := by
    have h := congrArg (List.map Prod.snd) (rows_snd hlen)
    rw [List.map_map, List.map_snd_zip (by simp [hlen])] at h
    exact h
  rw [List.map_take, List.map_drop, hsnd, ← List.drop_one, List.drop_drop, Nat.add_comm]

section Chunks

variable (tokens : List ℤ) (weights : List K) (length c j : Nat)

/-- The rows of chunk `j`. -/
def chunkRows : List (ℤ × ℤ × K) :=
  ((rows tokens weights).drop (j * c)).take (min c (length - j * c))

variable {tokens weights length c j}

theorem mem_of_mem_chunkRows {row : ℤ × ℤ × K}
    (hrow : row ∈ chunkRows tokens weights length c j) :
    row ∈ rows tokens weights :=
  List.mem_of_mem_drop (List.mem_of_mem_take hrow)

theorem chunkRows_length (hlen : weights.length = tokens.length)
    (hlength : length ≤ tokens.length - 1) :
    (chunkRows tokens weights length c j).length = min c (length - j * c) := by
  rw [chunkRows, List.length_take, List.length_drop, rows_length hlen]
  omega

/-- The rows from chunk `j` on are those of chunk `j` and those after it. -/
theorem rows_split :
    ((rows tokens weights).take length).drop (j * c) =
      chunkRows tokens weights length c j ++
        ((rows tokens weights).take length).drop ((j + 1) * c) := by
  have htake :
      (((rows tokens weights).take length).drop (j * c)).take c =
        chunkRows tokens weights length c j := by
    rw [List.drop_take, List.take_take, chunkRows]
  have hdrop :
      (((rows tokens weights).take length).drop (j * c)).drop c =
        ((rows tokens weights).take length).drop ((j + 1) * c) := by
    rw [List.drop_drop, Nat.succ_mul]
  rw [← htake, ← hdrop, List.take_append_drop]

end Chunks

end Rows

section Used

variable {σ τ ξ ℓ δσ δτ γ : Type} {w : Executor σ τ ξ ℓ δσ δτ γ}

/-- The target positions that cross entropy has been evaluated at. -/
def Executor.used (w : Executor σ τ ξ ℓ δσ δτ γ) : List Nat :=
  (w.replayed.filter (fun u => u.supervised)).flatMap Window.targets

theorem used_nodup (h : (w.replayed.flatMap Window.targets).Nodup) : w.used.Nodup := by
  refine h.sublist ?_
  rw [Executor.used]
  generalize w.replayed = log
  induction log with
  | nil => exact List.Sublist.slnil
  | cons u log ih =>
      rw [List.filter_cons, List.flatMap_cons]
      split_ifs
      · rw [List.flatMap_cons]
        exact ih.append_left _
      · exact ih.trans (List.sublist_append_right _ _)

end Used

section Exactness

variable {K σ τ ξ ℓ δσ δτ δξ δℓ γ : Type}
variable [Field K]
variable [AddCommGroup δσ] [Module K δσ] [AddCommGroup δτ] [Module K δτ]
variable [AddCommGroup δξ] [Module K δξ] [AddCommGroup δℓ] [Module K δℓ]
variable [AddCommGroup γ] [Module K γ]

section Reference

variable (m : FrozenModel K σ τ ξ ℓ δσ δτ δξ δℓ γ)

/-- The adjoint of the final block of one row. -/
def cotangent (normalizer : Nat) (temperature : K) (x : ξ) (target : ℤ) (weight : K) :
    δξ :=
  m.headAdjoint x
    ((weight / normalizer) • m.nllAdjoint temperature (m.head x) target)

/-- The model as a recurrence over (token, target, weight of the target). -/
def recurrence (normalizer : Nat) (temperature : K) :
    Recurrence (σ × τ) (ℤ × ℤ × K) (δσ × δτ) γ K where
  next s row := (m.block s row.1).1
  pull s row a :=
    m.blockAdjoint s row.1
      (a, cotangent m normalizer temperature (m.block s row.1).2 row.2.1 row.2.2)
  loss s row :=
    row.2.2 / normalizer *
      m.nll temperature (m.head (m.block s row.1).2) row.2.1

/-- Backpropagation over the whole sequence at once. -/
def unchunked [Zero τ] (tokens : List ℤ) (weights : List K) (initialState : σ)
    (normalizer : Nat) (temperature : K) : Swept (δσ × δτ) γ K :=
  sweep (recurrence m normalizer temperature) (initialState, 0)
    (rows tokens weights) 0

/-- The arguments that `backward` accepts. -/
def ValidArguments [LinearOrder K] (tokens : List ℤ) (weights : List K) (normalizer : Nat)
    (temperature : K) : Prop :=
  2 ≤ tokens.length ∧ weights.length = tokens.length ∧ normalizer ≠ 0 ∧
    0 < temperature ∧ ∀ token ∈ tokens, 0 ≤ token ∧ token < m.vocab

/-- What one call of `backward` on `w` is meant to leave behind. -/
structure Exact [Zero τ] (w w' : Executor σ τ ξ ℓ δσ δτ γ) (total : K)
    (tokens : List ℤ) (weights : List K) (initialState : σ)
    (normalizer : Nat) (temperature : K) : Prop where
  loss :
    total = (unchunked m tokens weights initialState normalizer temperature).loss
  stateGradient :
    w'.stateGradient =
      (unchunked m tokens weights initialState normalizer temperature).adjoint.1
  shiftGradient :
    w'.terminalShift =
      (unchunked m tokens weights initialState normalizer temperature).adjoint.2
  gradient :
    w'.gradient =
      w.gradient +
        (unchunked m tokens weights initialState normalizer temperature).gradient
  boundary :
    ∀ u ∈ w'.replayed, u.restored =
      run (recurrence m normalizer temperature) (initialState, 0)
        ((rows tokens weights).take u.off)
  once : (w'.replayed.flatMap Window.targets).Nodup
  inside : ∀ u ∈ w'.replayed, ∀ p ∈ u.targets, 0 < p ∧ p < tokens.length
  weighted :
    ∀ p, 0 < p → p < tokens.length → weights.getD p 0 ≠ 0 → w'.used.count p = 1

end Reference

section Chunk

variable {m : FrozenModel K σ τ ξ ℓ δσ δτ δξ δℓ γ}
variable {normalizer : Nat} {temperature : K}

/-- The final blocks of some rows. -/
def outputs (m : FrozenModel K σ τ ξ ℓ δσ δτ δξ δℓ γ) : σ × τ → List ℤ → List ξ
  | _, [] => []
  | s, token :: tokens => (m.block s token).2 :: outputs m (m.block s token).1 tokens

/-- The tapes of some rows. -/
def tape (m : FrozenModel K σ τ ξ ℓ δσ δτ δξ δℓ γ) : σ × τ → List ℤ → List ((σ × τ) × ℤ)
  | _, [] => []
  | s, token :: tokens => (s, token) :: tape m (m.block s token).1 tokens

theorem forwardRows_eq (m : FrozenModel K σ τ ξ ℓ δσ δτ δξ δℓ γ) (normalizer : Nat)
    (temperature : K) (s : σ × τ) (rs : List (ℤ × ℤ × K)) :
    forwardRows m s (rs.map Prod.fst) =
      (run (recurrence m normalizer temperature) s rs,
        tape m s (rs.map Prod.fst), outputs m s (rs.map Prod.fst)) := by
  induction rs generalizing s with
  | nil => rfl
  | cons row rs ih =>
      simp only [List.map_cons, forwardRows, run_cons, tape, outputs]
      rw [ih]
      rfl

/-- The adjoints of the final blocks of some rows. -/
def cotangents (m : FrozenModel K σ τ ξ ℓ δσ δτ δξ δℓ γ) (normalizer : Nat)
    (temperature : K) : σ × τ → List (ℤ × ℤ × K) → List δξ
  | _, [] => []
  | s, row :: rs =>
      cotangent m normalizer temperature (m.block s row.1).2 row.2.1 row.2.2 ::
        cotangents m normalizer temperature (m.block s row.1).1 rs

/-- The kernels of a chunk are the reverse pass over its rows. -/
theorem modelBackwardStateOnly_eq (m : FrozenModel K σ τ ξ ℓ δσ δτ δξ δℓ γ)
    (normalizer : Nat) (temperature : K) (s : σ × τ) (rs : List (ℤ × ℤ × K)) (a : δσ × δτ) :
    modelBackwardStateOnly m (tape m s (rs.map Prod.fst))
        (cotangents m normalizer temperature s rs) a =
      ((sweep (recurrence m normalizer temperature) s rs a).adjoint,
        (sweep (recurrence m normalizer temperature) s rs a).gradient) := by
  induction rs generalizing s with
  | nil => rfl
  | cons row rs ih =>
      simp only [List.map_cons, tape, cotangents, modelBackwardStateOnly, sweep_cons]
      rw [ih]
      rfl

theorem cotangents_silent (s : σ × τ) (rs : List (ℤ × ℤ × K))
    (hzero : ∀ row ∈ rs, row.2.2 = 0) :
    cotangents m normalizer temperature s rs = List.replicate rs.length 0 := by
  induction rs generalizing s with
  | nil => rfl
  | cons row rs ih =>
      simp only [cotangents, List.length_cons, List.replicate_succ]
      rw [ih _ (fun x hx => hzero x (List.mem_cons_of_mem _ hx)),
        hzero row List.mem_cons_self]
      simp [cotangent]

theorem sweep_loss_silent (s : σ × τ) (rs : List (ℤ × ℤ × K)) (a : δσ × δτ)
    (hzero : ∀ row ∈ rs, row.2.2 = 0) :
    (sweep (recurrence m normalizer temperature) s rs a).loss = 0 := by
  induction rs generalizing s with
  | nil => rfl
  | cons row rs ih =>
      rw [sweep_cons]
      dsimp only
      rw [ih _ (fun x hx => hzero x (List.mem_cons_of_mem _ hx))]
      simp [recurrence, hzero row List.mem_cons_self]

variable [LinearOrder K]

theorem xentKernel_eq {target : ℤ} (htarget : target ≠ -1) (scale : K) (x : ℓ)
    (weight : K) :
    xentKernel m scale temperature (x, target, weight) =
      (m.nll temperature x target * (scale * weight),
        (scale * weight) • m.nllAdjoint temperature x target) := by
  by_cases hscale : scale * weight = 0
  · simp [xentKernel, hscale]
  · simp [xentKernel, hscale, htarget]

/-- Cross entropy over the rows of a chunk, row by row. -/
theorem crossEntropy_rows (m : FrozenModel K σ τ ξ ℓ δσ δτ δξ δℓ γ)
    (normalizer : Nat) (temperature : K) (s : σ × τ) (rs : List (ℤ × ℤ × K)) (a : δσ × δτ)
    (htargets : ∀ row ∈ rs, row.2.1 ≠ -1) :
    let results := (((outputs m s (rs.map Prod.fst)).map m.head).zip
      ((rs.map (fun row => row.2.1)).zip (rs.map (fun row => row.2.2)))).map
        (xentKernel m ((1 : K) / normalizer) temperature)
    (results.map Prod.fst).sum =
        (sweep (recurrence m normalizer temperature) s rs a).loss ∧
      List.zipWith (fun x d => m.headAdjoint x d) (outputs m s (rs.map Prod.fst))
          (results.map Prod.snd) =
        cotangents m normalizer temperature s rs := by
  induction rs generalizing s with
  | nil => exact ⟨rfl, rfl⟩
  | cons row rs ih =>
      have hrow : row.2.1 ≠ -1 := htargets row List.mem_cons_self
      obtain ⟨hloss, hgrad⟩ :=
        ih (m.block s row.1).1 (fun x hx => htargets x (List.mem_cons_of_mem _ hx))
      have hscale : (1 : K) / normalizer * row.2.2 = row.2.2 / normalizer := by
        rw [div_mul_eq_mul_div, one_mul]
      simp only [List.map_cons, outputs, List.zip_cons_cons, List.sum_cons,
        List.zipWith_cons_cons, cotangents, sweep_cons]
      rw [xentKernel_eq hrow, hscale]
      constructor
      · rw [hloss, mul_comm]
        rfl
      · rw [hgrad]
        rfl

end Chunk

section Trim

variable [LinearOrder K] {weights : List K}

theorem trim_le (weights : List K) (length : Nat) : Executor.trim weights length ≤ length := by
  induction length with
  | zero => simp [Executor.trim]
  | succ length ih =>
      rw [Executor.trim]
      split_ifs
      · omega
      · omega

/-- Only positions without a weight are dropped. -/
theorem trim_dropped (length : Nat) {p : Nat}
    (hlo : Executor.trim weights length < p) (hhi : p ≤ length) :
    weights.getD p 0 = 0 := by
  induction length with
  | zero => omega
  | succ length ih =>
      rw [Executor.trim] at hlo
      split_ifs at hlo with hzero
      · rcases Nat.lt_or_ge length p with h | h
        · have hp : p = length + 1 := by omega
          rw [hp]
          exact hzero
        · exact ih hlo h
      · omega

end Trim

section Call

variable (m : FrozenModel K σ τ ξ ℓ δσ δτ δξ δℓ γ)
variable (tokens : List ℤ) (weights : List K) (start : σ × τ)
variable (length normalizer : Nat) (temperature : K)

/-- The state in front of chunk `j`. -/
def boundary (c j : Nat) : σ × τ :=
  run (recurrence m normalizer temperature) start
    ((rows tokens weights).take (j * c))

/-- The window of chunk `j`. -/
def window [LinearOrder K] (c j : Nat) : Window σ τ where
  off := j * c
  time := min c (length - j * c)
  supervised :=
    ((weights.drop (j * c + 1)).take (min c (length - j * c))).any (fun x => x ≠ 0)
  restored := boundary m tokens weights start normalizer temperature c j

/-- The reverse pass over the rows from chunk `j` on. -/
def swept (c j : Nat) : Swept (δσ × δτ) γ K :=
  sweep (recurrence m normalizer temperature)
    (boundary m tokens weights start normalizer temperature c j)
    (((rows tokens weights).take length).drop (j * c)) 0

variable {m tokens weights start length normalizer temperature}
variable {w : Executor σ τ ξ ℓ δσ δτ γ}

/-- The forward pass accepts every non-empty chunk of valid tokens. -/
theorem forward_eq (normalizer : Nat) (temperature : K)
    {rs : List (ℤ × ℤ × K)} (mode : LogitsMode)
    (hne : rs.length ≠ 0) (hlen : rs.length ≤ w.chunk)
    (htokens : ∀ row ∈ rs, 0 ≤ row.1 ∧ row.1 < m.vocab) :
    w.forward m (rs.map Prod.fst) mode = .ok { w with
      carried := (run (recurrence m normalizer temperature) (w.carried, w.shifts) rs).1
      shifts := (run (recurrence m normalizer temperature) (w.carried, w.shifts) rs).2
      tapes := tape m (w.carried, w.shifts) (rs.map Prod.fst)
      finalBlock := outputs m (w.carried, w.shifts) (rs.map Prod.fst)
      logits :=
        match mode with
        | .All => (outputs m (w.carried, w.shifts) (rs.map Prod.fst)).map m.head
        | .Last =>
            ((outputs m (w.carried, w.shifts) (rs.map Prod.fst)).drop
              ((rs.map Prod.fst).length - 1)).map m.head
        | .None => w.logits } := by
  have hsize : ¬((rs.map Prod.fst).length = 0 ∨ w.chunk < (rs.map Prod.fst).length) := by
    rw [List.length_map]
    omega
  have hrange :
      ((rs.map Prod.fst).any
        (fun token => token < 0 ∨ (m.vocab : ℤ) ≤ token)) = false := by
    simp only [List.any_eq_false, List.mem_map, decide_eq_true_eq]
    rintro token ⟨row, hrow, rfl⟩
    have := htokens row hrow
    omega
  unfold Executor.forward
  rw [if_neg hsize, hrange, forwardRows_eq m normalizer temperature]
  rfl

/-- The rows of valid tokens are valid. -/
theorem rows_valid (htokens : ∀ token ∈ tokens, 0 ≤ token ∧ token < m.vocab) :
    ∀ row ∈ rows tokens weights,
      (0 ≤ row.1 ∧ row.1 < m.vocab) ∧ row.2.1 ≠ -1 := by
  rintro ⟨token, target, weight⟩ hrow
  have hpair := List.of_mem_zip hrow
  have htoken := htokens token (List.dropLast_subset _ hpair.1)
  have htarget := htokens target
    (List.mem_of_mem_tail (List.of_mem_zip hpair.2).1)
  exact ⟨htoken, by dsimp only; omega⟩

/-- Chunk `j` leads from its boundary to the next one. -/
theorem boundary_succ {c j : Nat} (hj : (j + 1) * c ≤ length) :
    boundary m tokens weights start normalizer temperature c (j + 1) =
      run (recurrence m normalizer temperature)
        (boundary m tokens weights start normalizer temperature c j)
        (chunkRows tokens weights length c j) := by
  have hmin : min c (length - j * c) = c := by
    rw [Nat.succ_mul] at hj
    omega
  rw [boundary, boundary, chunkRows, hmin, ← run_append, Nat.succ_mul,
    List.take_add]

/-- The reverse pass from chunk `j` on, through the one after it. -/
theorem swept_eq (m : FrozenModel K σ τ ξ ℓ δσ δτ δξ δℓ γ) (tokens : List ℤ)
    (weights : List K) (start : σ × τ) (length normalizer : Nat) (temperature : K)
    (c j : Nat) :
    swept m tokens weights start length normalizer temperature c j =
      let after := swept m tokens weights start length normalizer temperature c (j + 1)
      let before := sweep (recurrence m normalizer temperature)
        (boundary m tokens weights start normalizer temperature c j)
        (chunkRows tokens weights length c j) after.adjoint
      ⟨before.adjoint, before.gradient + after.gradient, before.loss + after.loss⟩ := by
  rw [swept, rows_split, sweep_append]
  rcases Nat.le_total ((j + 1) * c) length with hle | hle
  · rw [swept, boundary_succ hle]
  · -- the last chunk: no rows follow, whatever the state after it
    have hnil : ((rows tokens weights).take length).drop ((j + 1) * c) = [] := by
      apply List.drop_eq_nil_of_le
      rw [List.length_take]
      omega
    rw [swept, hnil]
    rfl

/-- No rows follow the last chunk. -/
theorem swept_done (m : FrozenModel K σ τ ξ ℓ δσ δτ δξ δℓ γ) (tokens : List ℤ)
    (weights : List K) (start : σ × τ) (normalizer : Nat) (temperature : K)
    {chunks c : Nat} (hcover : length ≤ chunks * c) :
    swept m tokens weights start length normalizer temperature c chunks = ⟨0, 0, 0⟩ := by
  have hnil : ((rows tokens weights).take length).drop (chunks * c) = [] := by
    apply List.drop_eq_nil_of_le
    rw [List.length_take]
    omega
  rw [swept, hnil, sweep_nil]

theorem restore_eq {chunks j : Nat} (hj : j < chunks)
    (hcheck : w.checkpoints = (List.range chunks).map
      (boundary m tokens weights start normalizer temperature w.chunk)) :
    ((w.restore j).carried, (w.restore j).shifts) =
      boundary m tokens weights start normalizer temperature w.chunk j := by
  have hget : w.checkpoints.getD j (w.carried, w.shifts) =
      boundary m tokens weights start normalizer temperature w.chunk j := by
    rw [hcheck, List.getD_eq_getElem _ _ (by simpa using hj)]
    simp
  simpa only [Executor.restore] using hget

variable [LinearOrder K]

/-- The loop over the boundaries stores them all and changes nothing else. -/
structure Stored (m : FrozenModel K σ τ ξ ℓ δσ δτ δξ δℓ γ) (tokens : List ℤ)
    (weights : List K) (start : σ × τ) (normalizer : Nat) (temperature : K)
    (chunks : Nat) (w w' : Executor σ τ ξ ℓ δσ δτ γ) : Prop where
  chunk : w'.chunk = w.chunk
  checkpoints :
    w'.checkpoints = (List.range chunks).map
      (boundary m tokens weights start normalizer temperature w.chunk)
  stateGradient : w'.stateGradient = w.stateGradient
  terminalShift : w'.terminalShift = w.terminalShift
  gradient : w'.gradient = w.gradient
  replayed : w'.replayed = w.replayed

theorem storeCheckpoints_spec (start : σ × τ)
    (hvalid : ValidArguments m tokens weights normalizer temperature)
    (hlength : length ≤ tokens.length - 1) {chunks fuel j : Nat}
    (hin : ∀ i, i < chunks → i * w.chunk < length) (hfuel : j + fuel = chunks)
    (hcarried : fuel ≠ 0 → (w.carried, w.shifts) =
      boundary m tokens weights start normalizer temperature w.chunk j)
    (hcheck : w.checkpoints = (List.range j).map
      (boundary m tokens weights start normalizer temperature w.chunk)) :
    ∃ w' : Executor σ τ ξ ℓ δσ δτ γ,
      Executor.storeCheckpoints m tokens chunks fuel j w = .ok w' ∧
      Stored m tokens weights start normalizer temperature chunks w w' := by
  induction fuel generalizing j w with
  | zero =>
      have hj : j = chunks := by omega
      exact ⟨w, rfl, rfl, hj ▸ hcheck, rfl, rfl, rfl, rfl⟩
  | succ fuel ih =>
      have hcarried := hcarried (Nat.succ_ne_zero _)
      have hcheck' : w.checkpoint.checkpoints = (List.range (j + 1)).map
          (boundary m tokens weights start normalizer temperature w.chunk) := by
        rw [Executor.checkpoint, hcheck, hcarried, List.range_succ, List.map_append]
        rfl
      by_cases hlast : j + 1 < chunks
      · have hnext := hin (j + 1) hlast
        have hpos := w.chunk_pos
        have hmin : min w.chunk (length - j * w.chunk) = w.chunk := by
          rw [Nat.succ_mul] at hnext
          omega
        have hsize := chunkRows_length (c := w.chunk) (j := j) hvalid.2.1 hlength
        have hinputs : (tokens.drop (j * w.chunk)).take w.chunk =
            (chunkRows tokens weights length w.chunk j).map Prod.fst := by
          rw [chunkRows, hmin]
          refine rows_inputs hvalid.2.1 ?_
          rw [Nat.succ_mul] at hnext
          omega
        have hforward := forward_eq (m := m) (w := w.checkpoint) normalizer temperature
          .None (by omega) (le_of_eq (hsize.trans hmin))
          (fun row hrow => (rows_valid hvalid.2.2.2.2 row (mem_of_mem_chunkRows hrow)).1)
        have hrun : run (recurrence m normalizer temperature)
            (w.checkpoint.carried, w.checkpoint.shifts)
            (chunkRows tokens weights length w.chunk j) =
              boundary m tokens weights start normalizer temperature w.chunk (j + 1) := by
          rw [boundary_succ hnext.le, ← hcarried]
          rfl
        simp only [Executor.storeCheckpoints, if_pos hlast, bind, Except.bind]
        rw [show w.checkpoint.chunk = w.chunk from rfl, hinputs, hforward]
        dsimp only
        obtain ⟨w', hrest, hstored⟩ := ih (w := { w.checkpoint with
            carried := _, shifts := _, tapes := _, finalBlock := _, logits := _ })
          (j := j + 1) hin (by omega) (fun _ => hrun) hcheck'
        exact ⟨w', hrest, { hstored with }⟩
      · have hzero : fuel = 0 := by omega
        subst hzero
        have hj : j + 1 = chunks := by omega
        simp only [Executor.storeCheckpoints, if_neg hlast, bind, Except.bind]
        exact ⟨_, rfl, rfl, hj ▸ hcheck', rfl, rfl, rfl, rfl⟩

theorem chunks_inside (c : Nat) (hzero : length ≠ 0) :
    ∀ j, j < 1 + (length - 1) / c → j * c < length := by
  intro j hj
  have hle : j * c ≤ (length - 1) / c * c := Nat.mul_le_mul_right c (by omega)
  have hdiv := Nat.div_mul_le_self (length - 1) c
  omega

theorem chunks_cover {c : Nat} (hpos : 0 < c) (length : Nat) :
    length ≤ (1 + (length - 1) / c) * c := by
  have hlt := Nat.lt_mul_div_succ (length - 1) hpos
  rw [Nat.mul_comm, Nat.add_comm _ 1] at hlt
  omega

/-- The targets of consecutive chunks. -/
theorem flatMap_chunks (c length n : Nat) :
    (List.range n).flatMap
        (fun j => List.range' (j * c + 1) (min c (length - j * c))) =
      List.range' 1 (min length (n * c)) := by
  induction n with
  | zero => simp
  | succ n ih =>
      rw [List.range_succ, List.flatMap_append, ih, List.flatMap_singleton, Nat.succ_mul]
      rcases Nat.le_total (n * c) length with hle | hle
      · have hmin : min length (n * c) = n * c := Nat.min_eq_right hle
        have hadd : min length (n * c + c) = n * c + min c (length - n * c) := by omega
        rw [hmin, hadd, Nat.add_comm (n * c) 1, List.range'_append_1]
      · have hmin : min length (n * c) = length := Nat.min_eq_left hle
        have hmin' : min length (n * c + c) = length := by omega
        have hzero : min c (length - n * c) = 0 := by omega
        rw [hmin, hmin', hzero, List.range'_zero, List.append_nil]

/-- The positions of all chunks, each once. -/
theorem targets_perm {chunks c : Nat} (hcover : length ≤ chunks * c)
    (hlog : w.replayed = ((List.range' 0 chunks).map
      (window m tokens weights start length normalizer temperature c)).reverse) :
    (w.replayed.flatMap Window.targets).Perm (List.range' 1 length) := by
  have hflat : ((List.range' 0 chunks).map
        (window m tokens weights start length normalizer temperature c)).flatMap
          Window.targets = List.range' 1 length := by
    rw [List.flatMap_map, ← List.range_eq_range']
    exact (flatMap_chunks c length chunks).trans (by rw [Nat.min_eq_left hcover])
  rw [hlog, ← hflat]
  exact (List.reverse_perm _).flatMap_right _

/-- A position with a weight lies in a window that is supervised. -/
theorem mem_used {chunks c p : Nat} (hcover : length ≤ chunks * c)
    (hlog : w.replayed = ((List.range' 0 chunks).map
      (window m tokens weights start length normalizer temperature c)).reverse)
    (hlo : 0 < p) (hhi : p ≤ length) (hsize : p < weights.length)
    (hweight : weights.getD p 0 ≠ 0) :
    p ∈ w.used := by
  have hmem : p ∈ w.replayed.flatMap Window.targets :=
    (targets_perm hcover hlog).mem_iff.mpr (by rw [List.mem_range'_1]; omega)
  obtain ⟨u, hu, hp⟩ := List.mem_flatMap.mp hmem
  refine List.mem_flatMap.mpr ⟨u, List.mem_filter.mpr ⟨hu, ?_⟩, hp⟩
  rw [hlog, List.mem_reverse, List.mem_map] at hu
  obtain ⟨j, -, rfl⟩ := hu
  simp only [Window.targets, window, List.mem_range'_1] at hp
  obtain ⟨i, rfl⟩ : ∃ i, p = j * c + 1 + i := ⟨p - (j * c + 1), by omega⟩
  rw [List.getD_eq_getElem _ _ hsize] at hweight
  refine List.any_eq_true.mpr ⟨weights[j * c + 1 + i], ?_, by simpa using hweight⟩
  refine List.mem_of_getElem? (i := i) ?_
  rw [List.getElem?_take_of_lt (by omega), List.getElem?_drop, List.getElem?_eq_getElem hsize]

/-- The rows after the last one with a weight contribute nothing. -/
theorem unchunked_eq [Zero τ] (m : FrozenModel K σ τ ξ ℓ δσ δτ δξ δℓ γ)
    (initialState : σ) (normalizer : Nat) (temperature : K)
    (hlen : weights.length = tokens.length) :
    unchunked m tokens weights initialState normalizer temperature =
      sweep (recurrence m normalizer temperature) (initialState, 0)
        ((rows tokens weights).take (Executor.trim weights (tokens.length - 1))) 0 := by
  have hzero : ∀ row ∈ (rows tokens weights).drop
      (Executor.trim weights (tokens.length - 1)), row.2.2 = 0 := by
    intro row hrow
    have hmem : row.2.2 ∈
        weights.drop (Executor.trim weights (tokens.length - 1) + 1) := by
      have h := List.mem_map_of_mem (f := fun row : ℤ × ℤ × K => row.2.2) hrow
      have hall := rows_weights hlen (Executor.trim weights (tokens.length - 1))
        (tokens.length)
      rw [List.take_of_length_le (by rw [List.length_drop]; omega),
        List.take_of_length_le (by rw [List.length_drop, rows_length hlen]; omega)]
        at hall
      exact hall ▸ h
    obtain ⟨i, hi, hget⟩ := List.mem_iff_getElem.mp hmem
    rw [List.length_drop] at hi
    rw [List.getElem_drop] at hget
    rw [← hget, ← List.getD_eq_getElem _ 0]
    exact trim_dropped (tokens.length - 1) (by omega) (by omega)
  rw [unchunked]
  conv_lhs =>
    rw [← List.take_append_drop (Executor.trim weights (tokens.length - 1))
      (rows tokens weights)]
  refine sweep_append_silent (fun s row hrow => ?_) (fun s row hrow => ?_) _
  · simp only [recurrence, cotangent, hzero row hrow, zero_div, zero_smul, map_zero]
    exact map_zero (m.blockAdjoint s row.1)
  · simp [recurrence, hzero row hrow]

/-- The arguments are checked before anything else happens. -/
theorem backward_rejects [Zero τ] (w : Executor σ τ ξ ℓ δσ δτ γ) (initialState : σ)
    (hinvalid : ¬ValidArguments m tokens weights normalizer temperature) :
    ∃ e : String, w.backward m tokens weights initialState normalizer temperature =
      .error e := by
  unfold Executor.backward
  split_ifs with hargs htokens
  · exact ⟨_, rfl⟩
  · exact ⟨_, rfl⟩
  · exfalso
    apply hinvalid
    simp only [not_or, not_lt, not_le, not_not] at hargs
    simp only [List.any_eq_true, decide_eq_true_eq, not_exists, not_and, not_or,
      not_lt, not_le] at htokens
    exact ⟨hargs.1, hargs.2.1, hargs.2.2.1, hargs.2.2.2, htokens⟩

variable [IsStrictOrderedRing K]

/-- The scale of a row: the length of the chunk cancels. -/
theorem gradientScale_eq {T : Nat} (hT : T ≠ 0) :
    ((T : K) / normalizer) / T = 1 / normalizer := by
  have hcast : (T : K) ≠ 0 := Nat.cast_ne_zero.mpr hT
  rw [div_div, mul_comm, ← div_div, div_self hcast]

/-- Cross entropy over a chunk, from logits computed at its boundary. -/
theorem crossEntropy_spec (hvalid : ValidArguments m tokens weights normalizer temperature)
    {rs : List (ℤ × ℤ × K)} (hne : rs.length ≠ 0)
    (hrows : ∀ row ∈ rs, (0 ≤ row.1 ∧ row.1 < m.vocab) ∧ row.2.1 ≠ -1)
    (s : σ × τ) (a : δσ × δτ) :
    ∃ dLogits : List δℓ,
      crossEntropyForwardBackward m rs.length
          ((outputs m s (rs.map Prod.fst)).map m.head)
          (rs.map (fun row => row.2.1)) ((rs.length : K) / normalizer)
          (rs.map (fun row => row.2.2)) temperature =
        .ok ((sweep (recurrence m normalizer temperature) s rs a).loss, dLogits) ∧
      List.zipWith (fun x d => m.headAdjoint x d) (outputs m s (rs.map Prod.fst)) dLogits =
        cotangents m normalizer temperature s rs := by
  obtain ⟨-, -, hnorm, htemp, -⟩ := hvalid
  obtain ⟨hloss, hgrad⟩ := crossEntropy_rows m normalizer temperature s rs a
    (fun row hrow => (hrows row hrow).2)
  have hvocab : m.vocab ≠ 0 := by
    obtain ⟨row, hrow⟩ := List.exists_mem_of_length_pos (Nat.pos_of_ne_zero hne)
    have := (hrows row hrow).1
    omega
  have hscale : (0 : K) < (rs.length : K) / normalizer := by
    have h1 : (0 : K) < rs.length := Nat.cast_pos.mpr (Nat.pos_of_ne_zero hne)
    have h2 : (0 : K) < normalizer := Nat.cast_pos.mpr (Nat.pos_of_ne_zero hnorm)
    exact div_pos h1 h2
  have hargs : ¬(rs.length = 0 ∨ m.vocab = 0 ∨ (rs.length : K) / normalizer ≤ 0 ∨
      temperature ≤ 0) := by
    rintro (h | h | h | h)
    · exact hne h
    · exact hvocab h
    · exact absurd hscale (not_lt.mpr h)
    · exact absurd htemp (not_lt.mpr h)
  rw [crossEntropyForwardBackward, if_neg hargs, gradientScale_eq hne]
  exact ⟨_, congrArg (fun x => Except.ok (x, _)) hloss, hgrad⟩

/-- What one pass of the loop over chunk `j` does. -/
structure Replayed (m : FrozenModel K σ τ ξ ℓ δσ δτ δξ δℓ γ) (tokens : List ℤ)
    (weights : List K) (start : σ × τ) (length normalizer : Nat) (temperature : K)
    (j : Nat) (w w' : Executor σ τ ξ ℓ δσ δτ γ) (loss : K) : Prop where
  chunk : w'.chunk = w.chunk
  checkpoints : w'.checkpoints = w.checkpoints
  adjoint :
    (w'.stateGradient, w'.terminalShift) =
      (sweep (recurrence m normalizer temperature)
        (boundary m tokens weights start normalizer temperature w.chunk j)
        (chunkRows tokens weights length w.chunk j)
        (w.stateGradient, w.terminalShift)).adjoint
  gradient :
    w'.gradient = w.gradient +
      (sweep (recurrence m normalizer temperature)
        (boundary m tokens weights start normalizer temperature w.chunk j)
        (chunkRows tokens weights length w.chunk j)
        (w.stateGradient, w.terminalShift)).gradient
  loss :
    loss =
      (sweep (recurrence m normalizer temperature)
        (boundary m tokens weights start normalizer temperature w.chunk j)
        (chunkRows tokens weights length w.chunk j)
        (w.stateGradient, w.terminalShift)).loss
  replayed :
    w'.replayed = w.replayed ++
      [window m tokens weights start length normalizer temperature w.chunk j]

/-- One pass of the loop replays its rows from their boundary. -/
theorem replay_spec (hvalid : ValidArguments m tokens weights normalizer temperature)
    (hlength : length ≤ tokens.length - 1) {chunks j : Nat}
    (hin : j * w.chunk < length) (hj : j < chunks)
    (hcheck : w.checkpoints = (List.range chunks).map
      (boundary m tokens weights start normalizer temperature w.chunk)) :
    ∃ (w' : Executor σ τ ξ ℓ δσ δτ γ) (loss : K),
      w.replay m tokens weights length normalizer temperature j = .ok (w', loss) ∧
      Replayed m tokens weights start length normalizer temperature j w w' loss := by
  have hpos := w.chunk_pos
  have hlen := hvalid.2.1
  have hsize := chunkRows_length (c := w.chunk) (j := j) hlen hlength
  have hne : (chunkRows tokens weights length w.chunk j).length ≠ 0 := by omega
  have hfit : (chunkRows tokens weights length w.chunk j).length ≤
      (w.restore j).chunk := by
    rw [hsize]
    exact Nat.min_le_left _ _
  have hrows : ∀ row ∈ chunkRows tokens weights length w.chunk j,
      (0 ≤ row.1 ∧ row.1 < m.vocab) ∧ row.2.1 ≠ -1 :=
    fun row hrow => rows_valid hvalid.2.2.2.2 row (mem_of_mem_chunkRows hrow)
  have hinputs :
      (tokens.drop (j * w.chunk)).take (min w.chunk (length - j * w.chunk)) =
        (chunkRows tokens weights length w.chunk j).map Prod.fst :=
    rows_inputs hlen (by omega)
  have htargets :
      (tokens.drop (j * w.chunk + 1)).take (min w.chunk (length - j * w.chunk)) =
        (chunkRows tokens weights length w.chunk j).map (fun row => row.2.1) :=
    rows_targets hlen _ _
  have hweights :
      (weights.drop (j * w.chunk + 1)).take (min w.chunk (length - j * w.chunk)) =
        (chunkRows tokens weights length w.chunk j).map (fun row => row.2.2) :=
    rows_weights hlen _ _
  have hrestore := restore_eq hj hcheck
  have hforward := fun mode => forward_eq (m := m) (w := w.restore j) normalizer
    temperature mode hne hfit (fun row hrow => (hrows row hrow).1)
  have hpass := modelBackwardStateOnly_eq m normalizer temperature
    (boundary m tokens weights start normalizer temperature w.chunk j)
    (chunkRows tokens weights length w.chunk j) (w.stateGradient, w.terminalShift)
  have hwindow : window m tokens weights start length normalizer temperature w.chunk j =
      ⟨j * w.chunk, min w.chunk (length - j * w.chunk),
        ((chunkRows tokens weights length w.chunk j).map
          (fun row => row.2.2)).any (fun x => x ≠ 0),
        boundary m tokens weights start normalizer temperature w.chunk j⟩ := by
    rw [window, hweights]
  simp only [Executor.replay, hinputs, htargets, hweights]
  cases hsup : ((chunkRows tokens weights length w.chunk j).map
      (fun row => row.2.2)).any (fun x => x ≠ 0) with
  | true =>
      obtain ⟨dLogits, hce, hzip⟩ := crossEntropy_spec hvalid hne hrows
        (boundary m tokens weights start normalizer temperature w.chunk j)
        (w.stateGradient, w.terminalShift)
      rw [← hsize]
      simp only [if_true, hforward, hrestore, bind, Except.bind, hce,
        modelOutputBackwardStateOnly, hzip]
      refine ⟨_, _, rfl, rfl, rfl, congrArg Prod.fst hpass, ?_, rfl, ?_⟩
      · exact congrArg (fun g => w.gradient + g) (congrArg Prod.snd hpass)
      · rw [hwindow, hsup, hsize]
        rfl
  | false =>
      have hzero : ∀ row ∈ chunkRows tokens weights length w.chunk j, row.2.2 = 0 := by
        simpa using hsup
      rw [cotangents_silent _ _ hzero] at hpass
      rw [← hsize]
      simp only [Bool.false_eq_true, if_false, hforward, hrestore, bind, Except.bind]
      refine ⟨_, _, rfl, rfl, rfl, congrArg Prod.fst hpass, ?_,
        (sweep_loss_silent _ _ _ hzero).symm, ?_⟩
      · exact congrArg (fun g => w.gradient + g) (congrArg Prod.snd hpass)
      · rw [hwindow, hsup, hsize]
        rfl

/-- Chunks `j, j + 1, …` have been replayed. -/
structure Sweeping (m : FrozenModel K σ τ ξ ℓ δσ δτ δξ δℓ γ) (tokens : List ℤ)
    (weights : List K) (start : σ × τ) (length normalizer : Nat) (temperature : K)
    (chunks c j : Nat) (before : γ) (w : Executor σ τ ξ ℓ δσ δτ γ) (total : K) :
    Prop where
  chunk : w.chunk = c
  checkpoints :
    w.checkpoints = (List.range chunks).map
      (boundary m tokens weights start normalizer temperature c)
  adjoint :
    (w.stateGradient, w.terminalShift) =
      (swept m tokens weights start length normalizer temperature c j).adjoint
  gradient :
    w.gradient = before +
      (swept m tokens weights start length normalizer temperature c j).gradient
  loss :
    total = (swept m tokens weights start length normalizer temperature c j).loss
  replayed :
    w.replayed = ((List.range' j (chunks - j)).map
      (window m tokens weights start length normalizer temperature c)).reverse

theorem replayChunks_spec
    (hvalid : ValidArguments m tokens weights normalizer temperature)
    (hlength : length ≤ tokens.length - 1) {chunks c j : Nat} {before : γ} {total : K}
    (hin : ∀ i, i < chunks → i * c < length) (hj : j ≤ chunks)
    (hw : Sweeping m tokens weights start length normalizer temperature chunks c j
      before w total) :
    ∃ (w' : Executor σ τ ξ ℓ δσ δτ γ) (total' : K),
      Executor.replayChunks m tokens weights length normalizer temperature j w total =
        .ok (w', total') ∧
      Sweeping m tokens weights start length normalizer temperature chunks c 0
        before w' total' := by
  induction j generalizing w total with
  | zero => exact ⟨w, total, rfl, hw⟩
  | succ j ih =>
      obtain ⟨rfl, hcheck, hadj, hgrad, hloss, hlog⟩ := hw
      obtain ⟨w', loss, hreplay, hafter⟩ :=
        replay_spec hvalid hlength (hin j (by omega)) (by omega : j < chunks) hcheck
      have hswept := swept_eq m tokens weights start length normalizer temperature
        w.chunk j
      have hsweeping : Sweeping m tokens weights start length normalizer temperature
          chunks w.chunk j before w' (total + loss) := by
        obtain ⟨hchunk', hcheck', hadj', hgrad', hloss', hlog'⟩ := hafter
        rw [hadj] at hadj' hgrad' hloss'
        refine ⟨hchunk', hcheck'.trans hcheck, ?_, ?_, ?_, ?_⟩
        · rw [hadj', hswept]
        · rw [hgrad', hgrad, hswept]
          dsimp only
          rw [add_assoc, add_comm (sweep _ _ _ _).gradient]
        · rw [hloss', hloss, hswept]
          exact add_comm _ _
        · have hrange : List.range' j (chunks - j) =
              j :: List.range' (j + 1) (chunks - (j + 1)) := by
            rw [← List.range'_succ]
            congr 1
            omega
          rw [hlog', hlog, hrange, List.map_cons, List.reverse_cons]
      obtain ⟨w'', total', hrest, hdone⟩ := ih (by omega) hsweeping
      refine ⟨w'', total', ?_, hdone⟩
      simp only [Executor.replayChunks, hreplay, bind, Except.bind]
      exact hrest

variable [Zero τ]

theorem backward_accepts (w : Executor σ τ ξ ℓ δσ δτ γ) (initialState : σ)
    (hvalid : ValidArguments m tokens weights normalizer temperature) :
    ∃ (w' : Executor σ τ ξ ℓ δσ δτ γ) (total : K),
      w.backward m tokens weights initialState normalizer temperature =
        .ok (w', total) ∧
      Exact m w w' total tokens weights initialState normalizer temperature := by
  have hargs : ¬(tokens.length < 2 ∨ weights.length ≠ tokens.length ∨
      normalizer = 0 ∨ temperature ≤ 0) := by
    obtain ⟨h1, h2, h3, h4, -⟩ := hvalid
    rintro (h | h | h | h)
    · omega
    · exact h h2
    · exact h3 h
    · exact absurd h4 (not_lt.mpr h)
  have htokens :
      tokens.any (fun token => token < 0 ∨ (m.vocab : ℤ) ≤ token) = false := by
    simp only [List.any_eq_false, decide_eq_true_eq]
    intro token htoken
    have := hvalid.2.2.2.2 token htoken
    omega
  have hlen := hvalid.2.1
  have hunchunked := unchunked_eq m initialState normalizer temperature hlen
  have hlength := trim_le weights (tokens.length - 1)
  unfold Executor.backward
  rw [if_neg hargs, htokens]
  simp only [Bool.false_eq_true, if_false]
  by_cases hzero : Executor.trim weights (tokens.length - 1) = 0
  · rw [if_pos hzero]
    rw [hzero, List.take_zero, sweep_nil] at hunchunked
    refine ⟨_, 0, rfl, ?_⟩
    constructor
    · rw [hunchunked]
    · rw [hunchunked]; rfl
    · rw [hunchunked]; rfl
    · rw [hunchunked]; simp
    · simp
    · simp
    · simp
    · intro p hlo hhi hweight
      exact absurd (trim_dropped (tokens.length - 1) (by omega) (by omega)) hweight
  · rw [if_neg hzero]
    have hin := chunks_inside w.chunk hzero
    have hcover := chunks_cover w.chunk_pos (Executor.trim weights (tokens.length - 1))
    obtain ⟨w', hstore, hstored⟩ := storeCheckpoints_spec
      (initialState, (0 : τ)) (w := { w with
        carried := initialState, shifts := 0, stateGradient := 0, terminalShift := 0,
        checkpoints := [], replayed := [] })
      (j := 0) hvalid hlength hin (Nat.zero_add _) (fun _ => by simp [boundary]) rfl
    have hstart : Sweeping m tokens weights (initialState, 0)
        (Executor.trim weights (tokens.length - 1)) normalizer temperature
        (1 + (Executor.trim weights (tokens.length - 1) - 1) / w.chunk) w.chunk
        (1 + (Executor.trim weights (tokens.length - 1) - 1) / w.chunk)
        w.gradient w' 0 := by
      have hnil := swept_done m tokens weights (initialState, 0) normalizer temperature
        hcover
      refine ⟨hstored.chunk, hstored.checkpoints, ?_, ?_, ?_, ?_⟩
      · rw [hnil, hstored.stateGradient, hstored.terminalShift]
        rfl
      · rw [hnil, hstored.gradient, add_zero]
      · rw [hnil]
      · rw [hstored.replayed, Nat.sub_self]
        rfl
    obtain ⟨w'', total, hreplay, hdone⟩ :=
      replayChunks_spec hvalid hlength hin (Nat.le_refl _) hstart
    have hall : swept m tokens weights (initialState, 0)
        (Executor.trim weights (tokens.length - 1)) normalizer temperature w.chunk 0 =
          unchunked m tokens weights initialState normalizer temperature := by
      rw [hunchunked]
      simp [swept, boundary]
    have hlog := hdone.replayed
    rw [Nat.sub_zero] at hlog
    have hperm := targets_perm hcover hlog
    have honce := hperm.nodup_iff.mpr List.nodup_range'
    refine ⟨w'', total, ?_, ?_⟩
    · simp only [Executor.reset, bind, Except.bind]
      rw [hstore]
      exact hreplay
    constructor
    · rw [hdone.loss, hall]
    · rw [← hall, ← hdone.adjoint]
    · rw [← hall, ← hdone.adjoint]
    · rw [hdone.gradient, hall]
    · intro u hu
      rw [hlog, List.mem_reverse, List.mem_map] at hu
      obtain ⟨j, -, rfl⟩ := hu
      rfl
    · exact honce
    · intro u hu p hp
      have hmem := hperm.mem_iff.mp (List.mem_flatMap.mpr ⟨u, hu, hp⟩)
      rw [List.mem_range'_1] at hmem
      omega
    · intro p hlo hhi hweight
      have hle : p ≤ Executor.trim weights (tokens.length - 1) := by
        by_contra hgt
        exact hweight (trim_dropped (tokens.length - 1) (by omega) (by omega))
      exact List.count_eq_one_of_mem (used_nodup honce)
        (mem_used hcover hlog hlo hle (by omega) hweight)

/-- The loss and all gradients of a call are those of one unchunked pass. -/
theorem backward_exact (m : FrozenModel K σ τ ξ ℓ δσ δτ δξ δℓ γ)
    (w : Executor σ τ ξ ℓ δσ δτ γ) (tokens : List ℤ) (weights : List K)
    (initialState : σ) (normalizer : Nat) (temperature : K) :
    (ValidArguments m tokens weights normalizer temperature →
      ∃ (w' : Executor σ τ ξ ℓ δσ δτ γ) (total : K),
        w.backward m tokens weights initialState normalizer temperature =
          .ok (w', total) ∧
        Exact m w w' total tokens weights initialState normalizer temperature) ∧
    (¬ValidArguments m tokens weights normalizer temperature →
      ∃ e : String,
        w.backward m tokens weights initialState normalizer temperature = .error e) :=
  ⟨backward_accepts w initialState, backward_rejects w initialState⟩

end Call

end Exactness

section Example

/-- A model with one number per state: `s + shift + token`, then the token. -/
def adder : FrozenModel ℚ ℚ ℚ ℚ ℚ ℚ ℚ ℚ ℚ ℚ where
  vocab := 4
  block s token := ((s.1 + s.2 + token, token), s.1 + s.2 + token)
  blockAdjoint _ token :=
    { toFun := fun a => ((a.1.1 + a.2, a.1.1 + a.2), token * (a.1.1 + a.2))
      map_add' := fun a b => by ext <;> simp <;> ring
      map_smul' := fun c a => by ext <;> simp <;> ring }
  head x := x
  headAdjoint _ := LinearMap.id
  nll temperature x target := (x - target) ^ 2 / temperature
  nllAdjoint temperature x target := 2 * (x - target) / temperature

/-- An executor with chunks of two rows. -/
def adderExecutor : Executor ℚ ℚ ℚ ℚ ℚ ℚ ℚ where
  chunk := 2
  chunk_pos := by decide
  carried := 0
  shifts := 0
  tapes := []
  finalBlock := []
  logits := []
  stateGradient := 0
  terminalShift := 0
  perBatchGradient := 0
  shiftGrad := 0
  checkpoints := []
  gradient := 0
  replayed := []

theorem backward_exact_adder :
    ∃ (w' : Executor ℚ ℚ ℚ ℚ ℚ ℚ ℚ) (total : ℚ),
      adderExecutor.backward adder [1, 2, 0, 3, 1, 2] [0, 1, 0, 0, -1, 0] 1 2 1 =
        .ok (w', total) ∧
      Exact adder adderExecutor w' total [1, 2, 0, 3, 1, 2] [0, 1, 0, 0, -1, 0] 1 2 1 :=
  (backward_exact adder adderExecutor [1, 2, 0, 3, 1, 2] [0, 1, 0, 0, -1, 0] 1 2 1).1
    ⟨by decide, by decide, by decide, by decide, by decide⟩

end Example

end Training
end RwkvLightning

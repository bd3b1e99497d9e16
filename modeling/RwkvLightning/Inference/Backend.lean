import Mathlib

/-!
# The model backend

`GenerationState`, `DeviceLogits` and the operations of `ModelBackend` from
`rwkv_server_backend.hpp` and `rwkv7_fast_v4.cu`.

**State.**  A batch of recurrent states is a list of rows; the metadata belongs
to the batch.  A row of logits that was allocated and not written is `none`.

**Kernels.**  What the device computes for a batch is the parameter `kernel` of
a `Model`.  `RowLaws` says that it works on every row by itself and that feeding
tokens in two portions is feeding them at once.
-/

namespace RwkvLightning
namespace Backend

/-- The bytes of a `std::string`. -/
abbrev Bytes := List UInt8

/-- A token id, an `int64_t`. -/
abbrev Token := Int

/-- The metadata that a slice copy takes over. -/
structure Identity (α : Type) where
  adapter : Option α
  effectiveKey : Bytes
  adapterIdentity : Bytes
  initialStateIdentity : Bytes
  advanced : Bool
deriving DecidableEq

/-- The metadata of a new state: its initial state is called `zero`. -/
def Identity.default {α : Type} : Identity α :=
  { adapter := none
    effectiveKey := []
    adapterIdentity := []
    initialStateIdentity := [122, 101, 114, 111]
    advanced := false }

/-- `GenerationState`; `batch_size` is the number of rows. -/
structure GenerationState (α ρ : Type) where
  identity : Identity α
  wkv32 : Bool
  rows : List ρ
  textStopTail : Bytes
deriving DecidableEq

/-- `DeviceLogits`. -/
structure DeviceLogits (ℓ : Type) where
  rows : List (Option ℓ)
deriving DecidableEq

def DeviceLogits.empty {ℓ : Type} : DeviceLogits ℓ :=
  { rows := [] }

/-- A loaded model. -/
structure Model (α ρ ℓ : Type) where
  wkv32 : Bool
  vocabSize : Nat
  zeroRow : ρ
  adapterIdentity : α → Bytes
  baseMatches : α → Bool
  dimsMatch : α → Bool
  effectiveModelKey : Bytes → Bytes → Bool → Bytes
  kernel : Option α → List (ρ × List Token) → List (ρ × ℓ)

section Operations

variable {α ρ ℓ : Type} (m : Model α ρ ℓ)

/-- `create_state`. -/
def Model.createState (batchSize : Nat) : Except String (GenerationState α ρ) :=
  if batchSize = 0 then .error "batch_size must be positive"
  else
    .ok
      { identity := Identity.default
        wkv32 := m.wkv32
        rows := List.replicate batchSize m.zeroRow
        textStopTail := [] }

/-- `bind_adapter`. -/
def Model.bindAdapter (state : GenerationState α ρ) (adapter : Option α) :
    Except String (GenerationState α ρ) :=
  let id := (adapter.map m.adapterIdentity).getD []
  if state.identity.advanced ∧ state.identity.adapterIdentity ≠ id then
    .error "state belongs to another adapter/version/scale"
  else
    .ok
      { state with
        identity :=
          { state.identity with adapter := adapter, adapterIdentity := id } }

/-- The cache identity that a forward pass computes for a state. -/
def Model.keyOf (state : GenerationState α ρ) : Bytes :=
  m.effectiveModelKey ((state.identity.adapter.map m.adapterIdentity).getD [])
    state.identity.initialStateIdentity state.wkv32

/-- The metadata after a forward pass. -/
def Model.advancedIdentity (state : GenerationState α ρ) : Identity α :=
  { state.identity with
    effectiveKey := m.keyOf state
    advanced := true
    adapterIdentity := (state.identity.adapter.map m.adapterIdentity).getD [] }

/-- A token that the embedding table has. -/
def Model.tokenInRange (token : Token) : Bool :=
  0 ≤ token ∧ token < m.vocabSize

/-- All tokens of a batch are in the range of the model. -/
def Model.InRange (tokenBatches : List (List Token)) : Prop :=
  ∀ batch ∈ tokenBatches, ∀ token ∈ batch, m.tokenInRange token = true

instance (tokenBatches : List (List Token)) : Decidable (m.InRange tokenBatches) :=
  inferInstanceAs (Decidable
    (∀ batch ∈ tokenBatches, ∀ token ∈ batch, m.tokenInRange token = true))

/-- `run_backend_forward`: its checks, and the kernels. -/
def Model.runBackendForward (tokenBatches : List (List Token))
    (state : GenerationState α ρ) :
    Except String (GenerationState α ρ × DeviceLogits ℓ) :=
  if state.identity.adapter.all m.dimsMatch = false then
    .error "MiSS target incompatible with base model dimensions"
  else
    match tokenBatches with
    | [] => .error "token_batches must not be empty"
    | front :: _ =>
        if state.rows.length ≠ tokenBatches.length then
          .error "state batch size mismatch"
        else if state.wkv32 ≠ m.wkv32 then
          .error "state wkv precision mismatch"
        else if front = [] then
          .error "token batch length must be positive"
        else if ¬ ∀ batch ∈ tokenBatches, batch.length = front.length then
          .error "all token batches must share the same length"
        else if ¬ m.InRange tokenBatches then
          .error "token id out of range"
        else
          let out := m.kernel state.identity.adapter (state.rows.zip tokenBatches)
          .ok
            ({ state with rows := out.map Prod.fst },
              { rows := out.map (fun row => some row.2) })

/-- `forward_prefill`. -/
def Model.forwardPrefill (tokenBatches : List (List Token))
    (state : GenerationState α ρ) :
    Except String (GenerationState α ρ × DeviceLogits ℓ) :=
  if state.identity.advanced ∧ state.identity.effectiveKey ≠ m.keyOf state then
    .error "incompatible model/adapter/initial-state cache identity"
  else if state.identity.adapter.all m.baseMatches = false then
    .error "adapter base fingerprint mismatch"
  else
    m.runBackendForward tokenBatches
      { state with identity := m.advancedIdentity state }

/-- `forward_decode`. -/
def Model.forwardDecode (tokenBatch : List Token) (state : GenerationState α ρ) :
    Except String (GenerationState α ρ × DeviceLogits ℓ) :=
  m.forwardPrefill (tokenBatch.map (fun token => [token])) state

/-- Copy `count` consecutive elements into a list. -/
def copySlice {β : Type} (src : List β) (srcOffset : Nat) (dst : List β)
    (dstOffset count : Nat) : List β :=
  dst.take dstOffset ++ (src.drop srcOffset).take count ++
    dst.drop (dstOffset + count)

/-- `copy_state_slice`. -/
def Model.copyStateSlice (src : GenerationState α ρ) (srcOffset : Nat)
    (dst : GenerationState α ρ) (dstOffset count : Nat) :
    Except String (GenerationState α ρ) :=
  if count = 0 then .error "invalid backend state slice range"
  else if src.rows = [] ∨ dst.rows = [] then
    .error "state slice requires non-empty source and destination"
  else if src.wkv32 ≠ dst.wkv32 ∨ src.wkv32 ≠ m.wkv32 then
    .error "state slice wkv precision mismatch"
  else if src.rows.length < srcOffset + count ∨
      dst.rows.length < dstOffset + count then
    .error "state slice range exceeds batch size"
  else if dst.identity.advanced ∧
      (src.identity.effectiveKey ≠ dst.identity.effectiveKey ∨
        src.identity.adapterIdentity ≠ dst.identity.adapterIdentity) then
    .error "cannot copy incompatible adapter state"
  else
    .ok
      { dst with
        identity := src.identity
        rows := copySlice src.rows srcOffset dst.rows dstOffset count }

/-- `copy_logits_slice`. -/
def copyLogitsSlice (src : DeviceLogits ℓ) (srcOffset : Nat) (dst : DeviceLogits ℓ)
    (dstOffset count : Nat) : Except String (DeviceLogits ℓ) :=
  if count = 0 then .error "invalid backend logits slice range"
  else if src.rows = [] then .error "logits slice requires non-empty source"
  else if dst.rows = [] then .error "logits slice destination shape mismatch"
  else if src.rows.length < srcOffset + count ∨
      dst.rows.length < dstOffset + count then
    .error "logits slice range exceeds row count"
  else
    .ok { rows := copySlice src.rows srcOffset dst.rows dstOffset count }

/--
The kernels work on every row by itself, and feeding a row in two portions is
feeding it at once.
-/
structure RowLaws where
  row : Option α → ρ → List Token → ρ × ℓ
  kernel_eq : ∀ adapter rows,
    m.kernel adapter rows = rows.map (fun r => row adapter r.1 r.2)
  row_append : ∀ adapter r tokens tokens', tokens ≠ [] → tokens' ≠ [] →
    row adapter r (tokens ++ tokens') = row adapter (row adapter r tokens).1 tokens'

end Operations

section Laws

variable {α ρ ℓ : Type} {m : Model α ρ ℓ}

/-- Feed tokens to one row; no tokens leave it as it is. -/
def RowLaws.feed (laws : RowLaws m) (adapter : Option α) (r : ρ)
    (tokens : List Token) : ρ :=
  if tokens = [] then r else (laws.row adapter r tokens).1

/-- The logits after the last token. -/
def RowLaws.logits (laws : RowLaws m) (adapter : Option α) (r : ρ)
    (tokens : List Token) : Option ℓ :=
  if tokens = [] then none else some (laws.row adapter r tokens).2

variable (laws : RowLaws m) (adapter : Option α) (r : ρ)

@[simp] theorem RowLaws.feed_nil : laws.feed adapter r [] = r := if_pos rfl

@[simp] theorem RowLaws.logits_nil : laws.logits adapter r [] = none := if_pos rfl

theorem RowLaws.feed_append (tokens tokens' : List Token) :
    laws.feed adapter r (tokens ++ tokens') =
      laws.feed adapter (laws.feed adapter r tokens) tokens' := by
  by_cases h : tokens = []
  · simp [h]
  · by_cases h' : tokens' = []
    · simp [h']
    · simp [RowLaws.feed, h, h', laws.row_append adapter r tokens tokens' h h']

/-- The logits depend on the last portion and the state before it. -/
theorem RowLaws.logits_append {tokens' : List Token} (tokens : List Token)
    (h' : tokens' ≠ []) :
    laws.logits adapter r (tokens ++ tokens') =
      laws.logits adapter (laws.feed adapter r tokens) tokens' := by
  by_cases h : tokens = []
  · simp [h]
  · simp [RowLaws.feed, RowLaws.logits, h, h',
      laws.row_append adapter r tokens tokens' h h']

end Laws

section Checks

variable {α ρ ℓ : Type} {m : Model α ρ ℓ}

/-- The adapter fits the model. -/
def Model.Accepts (m : Model α ρ ℓ) (adapter : Option α) : Prop :=
  adapter.all m.baseMatches = true ∧ adapter.all m.dimsMatch = true

/-- An advanced state carries the metadata that its own forward pass computed. -/
def Consistent (m : Model α ρ ℓ) (state : GenerationState α ρ) : Prop :=
  state.identity.advanced = true → state.identity = m.advancedIdentity state

/-- The metadata of a forward pass depends on the metadata before it. -/
theorem Model.advancedIdentity_congr
    {state state' : GenerationState α ρ} (h : state.identity = state'.identity)
    (h' : state.wkv32 = state'.wkv32) :
    m.advancedIdentity state = m.advancedIdentity state' := by
  unfold Model.advancedIdentity Model.keyOf
  rw [h, h']

/-- The kernels feed every row. -/
theorem RowLaws.kernel_zip
    (laws : RowLaws m) (adapter : Option α) (rows : List ρ)
    {tokenBatches : List (List Token)}
    (hne : ∀ batch ∈ tokenBatches, batch ≠ []) :
    (m.kernel adapter (rows.zip tokenBatches)).map Prod.fst =
        List.zipWith (laws.feed adapter) rows tokenBatches ∧
      (m.kernel adapter (rows.zip tokenBatches)).map (fun row => some row.2) =
        List.zipWith (laws.logits adapter) rows tokenBatches := by
  have hzip : ∀ p ∈ rows.zip tokenBatches, p.2 ≠ [] :=
    fun p hp => hne p.2 (List.of_mem_zip (a := p.1) (b := p.2) hp).2
  rw [laws.kernel_eq, List.map_map, List.map_map, ← List.map_uncurry_zip_eq_zipWith,
    ← List.map_uncurry_zip_eq_zipWith]
  constructor
  · refine List.map_congr_left ?_
    intro p hp
    simp [Function.uncurry, RowLaws.feed, hzip p hp]
  · refine List.map_congr_left ?_
    intro p hp
    simp [Function.uncurry, RowLaws.logits, hzip p hp]

/-- `run_backend_forward` over portions of one length. -/
theorem Model.runBackendForward_spec
    (laws : RowLaws m) (state : GenerationState α ρ)
    {tokenBatches : List (List Token)} {n : Nat}
    (hwkv : state.wkv32 = m.wkv32)
    (hrows : state.rows.length = tokenBatches.length)
    (hne : tokenBatches ≠ []) (hn : 0 < n)
    (hlengths : ∀ batch ∈ tokenBatches, batch.length = n) :
    (state.identity.adapter.all m.dimsMatch = true ∧ m.InRange tokenBatches ∧
      m.runBackendForward tokenBatches state =
        .ok
          ({ state with
              rows := List.zipWith (laws.feed state.identity.adapter) state.rows
                tokenBatches },
            { rows := List.zipWith (laws.logits state.identity.adapter) state.rows
                tokenBatches })) ∨
    (¬ (state.identity.adapter.all m.dimsMatch = true ∧ m.InRange tokenBatches) ∧
      ∃ e, m.runBackendForward tokenBatches state = .error e) := by
  obtain ⟨front, rest, rfl⟩ := List.exists_cons_of_ne_nil hne
  have hfront : front.length = n := hlengths front (by simp)
  have hnonempty : ∀ batch ∈ front :: rest, batch ≠ [] := by
    rintro batch hbatch rfl
    have hzero := hlengths [] hbatch
    simp at hzero
    omega
  have hsame : ∀ batch ∈ front :: rest, batch.length = front.length := by
    intro batch hbatch
    rw [hlengths batch hbatch, hfront]
  unfold Model.runBackendForward
  cases hdims : state.identity.adapter.all m.dimsMatch with
  | false =>
      right
      exact ⟨by simp, _, if_pos rfl⟩
  | true =>
      rw [if_neg (by simp)]
      simp only
      rw [if_neg (not_not.mpr hrows), if_neg (not_not.mpr hwkv),
        if_neg (hnonempty front (by simp)), if_neg (not_not.mpr hsame)]
      by_cases hrange : m.InRange (front :: rest)
      · left
        obtain ⟨hfst, hsnd⟩ := laws.kernel_zip state.identity.adapter
          state.rows hnonempty
        rw [if_neg (not_not.mpr hrange), hfst, hsnd]
        exact ⟨trivial, hrange, rfl⟩
      · right
        exact ⟨fun h => hrange h.2, _, if_pos hrange⟩

/-- `forward_prefill` over portions of one length. -/
theorem Model.forwardPrefill_spec
    (laws : RowLaws m) {state : GenerationState α ρ}
    {tokenBatches : List (List Token)} {n : Nat}
    (hconsistent : Consistent m state) (hwkv : state.wkv32 = m.wkv32)
    (hrows : state.rows.length = tokenBatches.length)
    (hne : tokenBatches ≠ []) (hn : 0 < n)
    (hlengths : ∀ batch ∈ tokenBatches, batch.length = n) :
    (m.Accepts state.identity.adapter ∧ m.InRange tokenBatches ∧
      m.forwardPrefill tokenBatches state =
        .ok
          ({ state with
              identity := m.advancedIdentity state
              rows := List.zipWith (laws.feed state.identity.adapter) state.rows
                tokenBatches },
            { rows := List.zipWith (laws.logits state.identity.adapter) state.rows
                tokenBatches })) ∨
    (¬ (m.Accepts state.identity.adapter ∧ m.InRange tokenBatches) ∧
      ∃ e, m.forwardPrefill tokenBatches state = .error e) := by
  have hkey : ¬ (state.identity.advanced = true ∧
      state.identity.effectiveKey ≠ m.keyOf state) := by
    rintro ⟨hadvanced, hne⟩
    refine hne ?_
    have hidentity := congrArg Identity.effectiveKey (hconsistent hadvanced)
    simpa [Model.advancedIdentity] using hidentity
  unfold Model.forwardPrefill
  rw [if_neg hkey]
  cases hbase : state.identity.adapter.all m.baseMatches with
  | false =>
      right
      refine ⟨fun h => ?_, _, if_pos rfl⟩
      have htrue := h.1.1
      rw [hbase] at htrue
      exact Bool.noConfusion htrue
  | true =>
      rw [if_neg (by simp)]
      rcases Model.runBackendForward_spec laws
        { state with identity := m.advancedIdentity state } hwkv hrows hne hn
        hlengths with ⟨hdims, hrange, hrun⟩ | ⟨hnot, e, hrun⟩
      · left
        exact ⟨⟨hbase, hdims⟩, hrange, hrun⟩
      · right
        exact ⟨fun h => hnot ⟨h.1.2, h.2⟩, e, hrun⟩

/-- Copying to the front of a list. -/
theorem copySlice_front {β : Type} {src dst : List β} {count : Nat}
    (h : src.length = count) :
    copySlice src 0 dst 0 count = src ++ dst.drop count := by
  simp [copySlice, List.take_of_length_le (Nat.le_of_eq h)]

/-- `copy_state_slice` between states that fit. -/
theorem Model.copyStateSlice_ok
    {src dst : GenerationState α ρ} {srcOffset dstOffset count : Nat}
    (hcount : 0 < count) (hsrc : srcOffset + count ≤ src.rows.length)
    (hdst : dstOffset + count ≤ dst.rows.length)
    (hsrc32 : src.wkv32 = m.wkv32) (hdst32 : dst.wkv32 = m.wkv32)
    (hidentity : dst.identity.advanced = true →
      src.identity.effectiveKey = dst.identity.effectiveKey ∧
        src.identity.adapterIdentity = dst.identity.adapterIdentity) :
    m.copyStateSlice src srcOffset dst dstOffset count =
      .ok
        { dst with
          identity := src.identity
          rows := copySlice src.rows srcOffset dst.rows dstOffset count } := by
  have hnonempty : ¬ (src.rows = [] ∨ dst.rows = []) := by
    rintro (hnil | hnil)
    · simp only [hnil, List.length_nil] at hsrc
      omega
    · simp only [hnil, List.length_nil] at hdst
      omega
  unfold Model.copyStateSlice
  rw [if_neg (by omega), if_neg hnonempty, if_neg (by simp [hsrc32, hdst32]),
    if_neg (by omega), if_neg ?_]
  rintro ⟨hadvanced, hne⟩
  obtain ⟨hkey, hadapter⟩ := hidentity hadvanced
  simp [hkey, hadapter] at hne

theorem copyLogitsSlice_ok
    {src dst : DeviceLogits ℓ} {srcOffset dstOffset count : Nat}
    (hcount : 0 < count) (hsrc : srcOffset + count ≤ src.rows.length)
    (hdst : dstOffset + count ≤ dst.rows.length) :
    copyLogitsSlice src srcOffset dst dstOffset count =
      .ok { rows := copySlice src.rows srcOffset dst.rows dstOffset count } := by
  have hsrc' : src.rows ≠ [] := by
    intro hnil
    simp only [hnil, List.length_nil] at hsrc
    omega
  have hdst' : dst.rows ≠ [] := by
    intro hnil
    simp only [hnil, List.length_nil] at hdst
    omega
  unfold copyLogitsSlice
  rw [if_neg (by omega), if_neg hsrc', if_neg hdst', if_neg (by omega)]

theorem Model.createState_ok {batchSize : Nat} (h : 0 < batchSize) :
    m.createState batchSize =
      .ok
        { identity := Identity.default
          wkv32 := m.wkv32
          rows := List.replicate batchSize m.zeroRow
          textStopTail := [] } :=
  if_neg (by omega)

end Checks

end Backend
end RwkvLightning

import RwkvLightning.Inference.Prefill
import RwkvLightning.Inference.PrefixCache
import Mathlib

/-!
# Prefill through the prompt cache

`InferenceEngine::prefill_cached` of `rwkv_inference_engine.cpp`: states and
logits of earlier prompts are kept on the host, in a `PrefixCache` under an
identity that is made of the names of everything that the result depends on.

**State.**  Requests run in threads of their own.  A thread holds the mutex of
the cache for one lookup or one publication at a time, so these are the steps of
the system, in any order over the threads; what a thread does between them
touches its own state only.
-/

namespace RwkvLightning
namespace PromptCache

open Backend Prefill PrefixCache

/-- `HostPromptState`. -/
structure HostPromptState (α ρ : Type) where
  identity : Identity α
  wkv32 : Bool
  row : ρ
deriving DecidableEq

/-- `PromptCache::Entry`. -/
structure Entry (α ρ ℓ : Type) where
  state : HostPromptState α ρ
  logits : Option ℓ
deriving DecidableEq

/-- The names that a cached prompt state depends on. -/
structure CacheKey where
  stateId : Bytes
  adapterId : Bytes
  initialIdentity : Bytes
  adapterIdentity : Bytes
  wkv32 : Bool
deriving DecidableEq

/-- `std::to_string` of a size. -/
def decimal (n : Nat) : Bytes :=
  (Nat.toDigits 10 n).map (fun c => UInt8.ofNat c.toNat)

/-- A field with its length in front. -/
def lengthPrefixed (part : Bytes) : Bytes :=
  decimal part.length ++ 58 :: part

/-- The identity under which `prefill_cached` stores a prompt. -/
def CacheKey.identity (key : CacheKey) : Bytes :=
  [key.stateId, key.adapterId, key.initialIdentity, key.adapterIdentity,
    if key.wkv32 then [102, 112, 51, 50] else [102, 112, 49, 54]].flatMap
    lengthPrefixed

variable {α ρ ℓ : Type}

/-- A batch after `encode_prompts_sorted`. -/
structure Job (α ρ : Type) where
  promptIds : List (List Token)
  sortedToOriginal : List Nat
  state : GenerationState α ρ

/-- What prefill leaves for the decoder. -/
structure Prefilled (α ρ ℓ : Type) where
  promptIds : List (List Token)
  sortedToOriginal : List Nat
  state : GenerationState α ρ
  logits : DeviceLogits ℓ
  cachedPromptTokens : Nat

/-- A request that is prefilled through the cache. -/
structure Request (α ρ : Type) where
  prompts : List String
  state : GenerationState α ρ
  adapter : Option α
  adapterId : Bytes
  stateId : Bytes

section Functions

variable (m : Model α ρ ℓ) (chunkSize : Nat)

/-- `download_prompt_state`. -/
def downloadPromptState (gpu : GenerationState α ρ) :
    Except String (HostPromptState α ρ) :=
  match gpu.rows with
  | [row] => .ok { identity := gpu.identity, wkv32 := gpu.wkv32, row := row }
  | _ => .error "prompt cache snapshot requires a single-row state"

/-- `upload_prompt_state`. -/
def uploadPromptState (host : HostPromptState α ρ) (gpu : GenerationState α ρ) :
    Except String (GenerationState α ρ) :=
  if gpu.rows.length ≠ 1 ∨ gpu.wkv32 ≠ host.wkv32 then
    .error "prompt cache staging state shape/precision mismatch"
  else .ok { gpu with identity := host.identity, rows := [host.row] }

/-- The key of a request. -/
def CacheKey.ofState (stateId adapterId : Bytes) (state : GenerationState α ρ) :
    CacheKey :=
  { stateId := stateId
    adapterId := adapterId
    initialIdentity := state.identity.initialStateIdentity
    adapterIdentity := state.identity.adapterIdentity
    wkv32 := state.wkv32 }

/-- The order in which the rows are prefilled: most remaining tokens first. -/
def remainingOrder (promptIds : List (List Token))
    (hits : List (Match (Entry α ρ ℓ))) : List Nat :=
  lengthOrder (List.zipWith (fun prompt hit => prompt.length - hit.length)
    promptIds hits)

/-- The variables of the loop that places the hits. -/
structure Placed (α ρ ℓ : Type) where
  staging : GenerationState α ρ
  state : GenerationState α ρ
  logits : DeviceLogits ℓ

/-- One row of that loop. -/
def placeHit (prompt : List Token) (hit : Match (Entry α ρ ℓ)) (row : Nat)
    (s : Placed α ρ ℓ) : Except String (Placed α ρ ℓ) :=
  match hit.value with
  | none => .ok s
  | some entry => do
      let staging ← uploadPromptState entry.state s.staging
      let state ← m.copyStateSlice staging 0 s.state row 1
      let logits : DeviceLogits ℓ :=
        if hit.length = prompt.length then
          { rows := s.logits.rows.set row entry.logits }
        else s.logits
      .ok { staging := staging, state := state, logits := logits }

/-- The loop that places the hits, from a row on. -/
def placeHits : List (List Token × Match (Entry α ρ ℓ)) → Nat → Placed α ρ ℓ →
    Except String (Placed α ρ ℓ)
  | [], _, s => .ok s
  | (prompt, hit) :: rest, row, s =>
      match placeHit m prompt hit row s with
      | .error e => .error e
      | .ok s => placeHits rest (row + 1) s

/--
The part of `prefill_cached` between the lookups and the publications.  The
second component is the staging row, which the publications use again.
-/
def prefillHits (job : Job α ρ) (hits : List (Match (Entry α ρ ℓ))) :
    Except String (Prefilled α ρ ℓ × GenerationState α ρ) := do
  let order := remainingOrder job.promptIds hits
  let rows := order.map (fun i => (job.promptIds.getD i [], hits.getD i ⟨none, 0⟩))
  let staging ← m.createState 1
  let placed ← placeHits m rows 0
    { staging := staging
      state := job.state
      logits := { rows := List.replicate job.promptIds.length none } }
  let (state, logits) ← prefillBatchChunked m chunkSize
    (rows.map (fun row => row.1.drop row.2.length)) placed.state placed.logits
  .ok
    ({ promptIds := order.map (fun i => job.promptIds.getD i [])
       sortedToOriginal := order.map (fun i => job.sortedToOriginal.getD i 0)
       state := state
       logits := logits
       cachedPromptTokens := (hits.map Match.length).sum },
      placed.staging)

/-- The cache. -/
abbrev Store (α ρ ℓ : Type) := Cache Bytes Token (Entry α ρ ℓ)

/-- The entry that a row is published as, and the staging row after it. -/
def snapshot (result : Prefilled α ρ ℓ) (staging : GenerationState α ρ) (row : Nat) :
    Except String (Entry α ρ ℓ × GenerationState α ρ) := do
  let staging ← m.copyStateSlice result.state row staging 0 1
  let host ← downloadPromptState staging
  .ok ({ state := host, logits := (result.logits.rows.getD row none) }, staging)

/-- One row of the last loop of `prefill_cached`. -/
def publishRow (identity : Bytes) (result : Prefilled α ρ ℓ)
    (staging : GenerationState α ρ) (row : Nat) (cache : Store α ρ ℓ) :
    Store α ρ ℓ × Except String (GenerationState α ρ) :=
  let prompt := result.promptIds.getD row []
  let (cache, hit) := cache.find identity prompt
  if hit.length = prompt.length then (cache, .ok staging)
  else
    match snapshot m result staging row with
    | .error e => (cache, .error e)
    | .ok (entry, staging) =>
        (cache.put identity prompt (some entry), .ok staging)

/-- Where a request is in `prefill_cached`. -/
inductive Phase (α ρ ℓ : Type) where
  | lookup (hits : List (Match (Entry α ρ ℓ)))
  | publish (result : Prefilled α ρ ℓ) (staging : GenerationState α ρ) (row : Nat)
  | done (result : Prefilled α ρ ℓ)
  | failed (error : String)

/-- A request in its thread. -/
structure Thread (α ρ ℓ : Type) where
  job : Job α ρ
  key : CacheKey
  phase : Phase α ρ ℓ

structure System (α ρ ℓ : Type) where
  cache : Store α ρ ℓ
  threads : List (Thread α ρ ℓ)

/-- An engine without requests. -/
def System.new (capacity : Nat) : System α ρ ℓ :=
  { cache := Cache.new capacity, threads := [] }

/-- The head of `batch_generate_stream_with_state`. -/
def prepare (encode : String → List Token) (request : Request α ρ) :
    Except String (Job α ρ) := do
  let state ← m.bindAdapter request.state request.adapter
  if state.rows.length ≠ request.prompts.length ∨ request.prompts = [] then
    .error "streaming generation state batch size mismatch"
  else
    let (promptIds, sortedToOriginal) ← encodePromptsSorted encode request.prompts
    .ok
      { promptIds := promptIds
        sortedToOriginal := sortedToOriginal
        state := state }

/-- A request enters `prefill_cached`. -/
def Thread.enter (job : Job α ρ) (request : Request α ρ) : Thread α ρ ℓ :=
  { job := job
    key := CacheKey.ofState request.stateId request.adapterId job.state
    phase :=
      if job.state.identity.advanced then
        .failed "prompt cache requires an initial request state"
      else .lookup [] }

/-- The next step of a thread, with the cache. -/
def Thread.advance (thread : Thread α ρ ℓ) (cache : Store α ρ ℓ) :
    Store α ρ ℓ × Phase α ρ ℓ :=
  match thread.phase with
  | .lookup hits =>
      if hits.length < thread.job.promptIds.length then
        let (cache, hit) := cache.find thread.key.identity
          (thread.job.promptIds.getD hits.length [])
        (cache, .lookup (hits ++ [hit]))
      else
        match prefillHits m chunkSize thread.job hits with
        | .error e => (cache, .failed e)
        | .ok (result, staging) => (cache, .publish result staging 0)
  | .publish result staging row =>
      if row < result.promptIds.length then
        match publishRow m thread.key.identity result staging row cache with
        | (cache, .error e) => (cache, .failed e)
        | (cache, .ok staging) => (cache, .publish result staging (row + 1))
      else (cache, .done result)
  | phase => (cache, phase)

inductive Event (α ρ : Type) where
  | start (request : Request α ρ)
  | advance (thread : Nat)

/-- One step; a request that is rejected before the cache leaves no thread. -/
def step (encode : String → List Token) (s : System α ρ ℓ) :
    Event α ρ → Option (System α ρ ℓ)
  | .start request =>
      match prepare m encode request with
      | .error _ => some s
      | .ok job =>
          some { s with threads := s.threads ++ [Thread.enter job request] }
  | .advance t =>
      match s.threads[t]? with
      | none => none
      | some thread =>
          let (cache, phase) := thread.advance m chunkSize s.cache
          some
            { cache := cache
              threads := s.threads.set t { thread with phase := phase } }

/-- The same batch without a cache. -/
def prefillPlain (job : Job α ρ) :
    Except String (GenerationState α ρ × DeviceLogits ℓ) :=
  prefillBatchChunked m chunkSize job.promptIds job.state DeviceLogits.empty

end Functions

end PromptCache
end RwkvLightning

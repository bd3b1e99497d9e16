import RwkvLightning.Library.Command
import RwkvLightning.Inference.PrefixCachePool
import RwkvLightning.Inference.Text
import Mathlib

/-!
# Rollouts

`Runtime::completions` of `online_rl/server.cpp`: prompts are prefilled one by
one, through the prefix cache, and decoded together.

**State.**  A request works on the cache and consumes `faults`, one for every
call that can throw: a call succeeds, throws, or (the callback that fills a
cache buffer) throws and leaves something in the buffer.

**Kernels.**  What the device computes is the parameter `Kernels`.  `RowLaws`
says that decoding works on every row by itself, and that feeding tokens in two
portions is feeding them at once.

The body of a request is given decoded; a seed that is left out is drawn before.
-/

namespace RwkvLightning
namespace OnlineRl

open PrefixCachePool Text
open Backend (Bytes)

/-- A token id in the range of the vocabulary. -/
abbrev Token := Nat

/-- `CachedState`: the state (with its shifts) and the logits after a prefix. -/
structure CachedState (S G : Type) where
  state : S
  logits : G
deriving DecidableEq

/-- The device and the sampler. -/
structure Kernels (W S G R F : Type) where
  reset : W → S
  forward : W → S → List Token → S × G
  decode : W → List (S × Token) → List (S × G)
  blank : CachedState S G
  seedRow : Nat → Nat → R
  sample : G → F → R → Except String ((Token × F) × R)
  decodeToken : Token → Bytes

/-- The outcome of a call that can throw. -/
inductive Fault (V : Type) where
  | none
  | throws
  | throwsAfter (contents : V)
deriving DecidableEq

/-- What a request works on. -/
structure Work (S G : Type) where
  cache : System String Token (CachedState S G)
  faults : List (Fault (CachedState S G))

/-- `StopRules`. -/
structure StopRules where
  ids : List Token
  sequences : List (List Token)
  strings : List Bytes
deriving DecidableEq

/-- `matched` of a rollout. -/
inductive Matched where
  | none
  | id (token : Token)
  | sequence (tokens : List Token)
  | text (stop : Bytes)
deriving DecidableEq

/-- `finish` of a rollout. -/
inductive Finish where
  | length
  | stop
deriving DecidableEq

/-- `Rollout`; its prefix is the prompt and the generated tokens. -/
structure Rollout (R F : Type) where
  prompt : List Token
  generated : List Token
  logprobs : List F
  stopTail : Bytes
  rng : R
  limit : Nat
  active : Bool
  finish : Finish
  matched : Matched
deriving DecidableEq

def Rollout.tokens {R F : Type} (r : Rollout R F) : List Token :=
  r.prompt ++ r.generated

/--
A row of the request: the rollout, how much of its prompt came from the cache,
the decoder row, its logits, its next input.
-/
structure Row (S G R F : Type) where
  rollout : Rollout R F
  cached : Nat
  state : S
  logits : G
  feed : Token
deriving DecidableEq

/-- The fields of a completions request. -/
structure CompletionsRequest (F : Type) where
  policyVersion : Option String
  prompts : List (List Token)
  maxTokens : Option Int
  temperature : F
  useCache : Bool
  rules : StopRules
  seed : Nat

/-- The options of the server that a request reads. -/
structure Limits where
  ctx : Nat
  chunk : Nat
  batch : Nat
  maxTokens : Nat
  vocab : Nat

/-- What `parse` lets through. -/
structure Limits.Valid (o : Limits) : Prop where
  chunk_pos : 0 < o.chunk
  chunk_le : o.chunk ≤ o.ctx
  batch_pos : 0 < o.batch

variable {W S G R F : Type}

/-- One call that can throw. -/
def attempt (what : String) : Command (Work S G) String PUnit := fun w =>
  match w.faults with
  | [] => (.ok ⟨⟩, w)
  | .none :: faults => (.ok ⟨⟩, { w with faults := faults })
  | _ :: faults => (.error what, { w with faults := faults })

/-- `find`, and the reader gives its handle back after the upload. -/
def cacheFind (version : String) (tokens : List Token) :
    Command (Work S G) String (Option (CachedState S G) × Nat) := fun w =>
  let found := w.cache.find version tokens
  match found.2.value with
  | none => (.ok (none, found.2.length), { w with cache := found.1 })
  | some b =>
      (.ok (w.cache.heap[b]?, found.2.length),
        { w with cache :=
          { found.1 with readers := found.1.readers.set w.cache.readers.length none } })

/-- What `make` does. -/
def makeOutcome (blank : CachedState S G) :
    Fault (CachedState S G) → MakeResult (CachedState S G)
  | .none => .made blank
  | _ => .throws

/-- What `fill` does. -/
def fillOutcome (contents : CachedState S G) :
    Fault (CachedState S G) → FillResult (CachedState S G)
  | .none => .filled contents
  | .throws => .throws contents
  | .throwsAfter partialContents => .throws partialContents

/-- `cache_put` of a policy whose cache is enabled. -/
def cachePut (blank : CachedState S G) (version : String) (tokens : List Token)
    (contents : CachedState S G) : Command (Work S G) String PUnit := fun w =>
  let done := w.cache.put version tokens (makeOutcome blank (w.faults.headD .none))
    (fillOutcome contents (w.faults.tail.headD .none))
  let w : Work S G := { cache := done.1, faults := w.faults.drop 2 }
  match done.2 with
  | .returned _ => (.ok ⟨⟩, w)
  | .threw => (.error "cache state", w)

section Requests

variable (k : Kernels W S G R F) (o : Limits)

/-- The loop over the chunks of a prompt; it takes a token in every pass. -/
def prefillChunks (weights : W) : Nat → List Token → S → G →
    Command (Work S G) String (S × G)
  | 0, _, state, last => pure (state, last)
  | passes + 1, tokens, state, last =>
      if tokens = [] then pure (state, last)
      else do
        attempt "BF16 execution"
        let out := k.forward weights state (tokens.take o.chunk)
        prefillChunks weights passes (tokens.drop o.chunk) out.1 out.2

/-- The rollout of a prompt before anything is computed. -/
def newRollout (requested seed index : Nat) (prompt : List Token) : Rollout R F :=
  let limit := min requested (o.ctx - prompt.length)
  { prompt := prompt, generated := [], logprobs := [], stopTail := [],
    rng := k.seedRow seed index, limit := limit, active := decide (0 < limit),
    finish := .length, matched := .none }

/-- `find` of a request that may use the cache. -/
def cacheLookup (version : String) (useCache : Bool) (tokens : List Token) :
    Command (Work S G) String (Option (CachedState S G) × Nat) :=
  if useCache then cacheFind version tokens else pure (none, 0)

/-- The prefill of one row. -/
def prefillRow (weights : W) (version : String) (useCache : Bool)
    (row : Rollout R F) : Command (Work S G) String (Row S G R F) := do
  let hit ← cacheLookup version useCache row.prompt
  attempt "upload snapshot"
  let start := (hit.1.map CachedState.state).getD (k.reset weights)
  let last := (hit.1.map CachedState.logits).getD k.blank.logits
  let out ←
    prefillChunks k o weights row.prompt.length (row.prompt.drop hit.2) start last
  if hit.2 < row.prompt.length ∧ useCache then
    cachePut k.blank version row.prompt ⟨out.1, out.2⟩
  attempt "load decoder row"
  pure { rollout := row, cached := hit.2, state := out.1, logits := out.2, feed := 0 }

/-- The prefill of all rows. -/
def prefillRows (weights : W) (version : String) (useCache : Bool) :
    List (Rollout R F) → Command (Work S G) String (List (Row S G R F))
  | [] => pure []
  | row :: rows => do
      let row ← prefillRow k o weights version useCache row
      let rows ← prefillRows weights version useCache rows
      pure (row :: rows)

/-- Sample an active row, and take the token over. -/
def sampleRow (temperature : F) (row : Row S G R F) : Except String (Row S G R F) :=
  if row.rollout.active then
    match k.sample row.logits temperature row.rollout.rng with
    | .error e => .error e
    | .ok ((token, logprob), rng) =>
        .ok
          { row with
            feed := token
            rollout :=
              { row.rollout with
                generated := row.rollout.generated ++ [token]
                logprobs := row.rollout.logprobs ++ [logprob]
                rng := rng } }
  else .ok row

/-- `parallel_for` over the rows; it throws when one of them does. -/
def sampleRows (temperature : F) : List (Row S G R F) → Except String (List (Row S G R F))
  | [] => .ok []
  | row :: rows => do
      let row ← sampleRow k temperature row
      let rows ← sampleRows temperature rows
      .ok (row :: rows)

/-- `stopped`. -/
def stopped (rules : StopRules) (r : Rollout R F) : Bool × Rollout R F :=
  let id := r.generated.getLastD 0
  if id ∈ rules.ids then (true, { r with matched := .id id })
  else
    match rules.sequences.find? (fun sequence => sequence.isSuffixOf r.generated) with
    | some sequence => (true, { r with matched := .sequence sequence })
    | none =>
        let (stop, tail) := matchStop rules.strings r.stopTail (k.decodeToken id)
        if stop ≠ [] then (true, { r with matched := .text stop, stopTail := [] })
        else (false, { r with stopTail := tail })

/-- The end of a decoding step for an active row: does it stop here? -/
def settle (rules : StopRules) (r : Rollout R F) : Rollout R F :=
  let (stop, r) := stopped k rules r
  let r := if stop then { r with finish := .stop } else r
  if stop ∨ r.generated.length = r.limit then { r with active := false } else r

/-- Settle the rows, and cache those that end. -/
def settleRows (version : String) (useCache : Bool) (rules : StopRules) :
    List (Row S G R F) → Command (Work S G) String (List (Row S G R F))
  | [] => pure []
  | row :: rows => do
      if row.rollout.active = false then
        let rows ← settleRows version useCache rules rows
        pure (row :: rows)
      else
        let rollout := settle k rules row.rollout
        if rollout.active = false ∧ useCache then
          cachePut k.blank version rollout.tokens ⟨row.state, row.logits⟩
        let rows ← settleRows version useCache rules rows
        pure ({ row with rollout := rollout } :: rows)

/-- `BatchDecoder::forward`: all rows, also those that have ended. -/
def forwardRows (weights : W) (rows : List (Row S G R F)) : List (Row S G R F) :=
  List.zipWith (fun row out => { row with state := out.1, logits := out.2 }) rows
    (k.decode weights (rows.map (fun row => (row.state, row.feed))))

/-- The decoding loop. -/
def decodeLoop (weights : W) (version : String) (useCache : Bool) (rules : StopRules)
    (temperature : F) : Nat → List (Row S G R F) →
    Command (Work S G) String (List (Row S G R F))
  | 0, rows => pure rows
  | steps + 1, rows =>
      if rows.any (fun row => row.rollout.active) then
        match sampleRows k temperature rows with
        | .error e => Command.fail e
        | .ok rows => do
            attempt "decode"
            let rows ← settleRows k version useCache rules (forwardRows k weights rows)
            decodeLoop weights version useCache rules temperature steps rows
      else pure rows

/-- `tokens`: the checks on an array of token ids. -/
def tokensValid (max : Nat) (tokens : List Token) : Bool :=
  tokens ≠ [] ∧ tokens.length ≤ max ∧ ∀ t ∈ tokens, t < o.vocab

/-- The rows that a request starts with. -/
def newRollouts (requested seed : Nat) (prompts : List (List Token)) : List (Rollout R F) :=
  prompts.mapIdx (fun i prompt => newRollout k o requested seed i prompt)

/-- `completions` with a policy: its weights, its version, and whether it may be cached. -/
def completions (weights : W) (version : String) (cacheEnabled : Bool)
    (r : CompletionsRequest F) :
    Command (Work S G) String (List (Rollout R F × Nat)) :=
  if r.prompts = [] ∨ o.batch < r.prompts.length then Command.fail "invalid prompts batch"
  else
    let requested := r.maxTokens.getD o.maxTokens
    if requested < 0 ∨ 1048576 < requested then Command.fail "max_tokens out of range"
    else if ¬ ∀ prompt ∈ r.prompts, tokensValid o o.ctx prompt then
      Command.fail "tokens must be a nonempty bounded array"
    else do
      let w ← Command.read
      let useCache : Bool := r.useCache ∧ cacheEnabled ∧ 0 < w.cache.pool.capacity
      let rows : List (Rollout R F) := newRollouts k o requested.toNat r.seed r.prompts
      let maxNew := (rows.map Rollout.limit).foldl max 0
      attempt "create decoder"
      let rows ← prefillRows k o weights version useCache rows
      let rows ← decodeLoop k weights version useCache r.rules r.temperature maxNew rows
      pure (rows.map (fun row => (row.rollout, row.cached)))

end Requests

/--
Decoding works on every row by itself, and feeding a row in two portions is
feeding it at once.
-/
structure RowLaws (k : Kernels W S G R F) : Prop where
  decode_eq : ∀ weights rows,
    k.decode weights rows = rows.map (fun r => k.forward weights r.1 [r.2])
  forward_append : ∀ weights state tokens tokens', tokens ≠ [] → tokens' ≠ [] →
    k.forward weights state (tokens ++ tokens') =
      k.forward weights (k.forward weights state tokens).1 tokens'

end OnlineRl
end RwkvLightning

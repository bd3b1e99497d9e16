import RwkvLightning.Server.TokenBudget
import RwkvLightning.Server.RequestRegistrySafety
import Mathlib

/-!
# Pauses keep the token budget

A resumed generation counts its tokens by tokenizing the chunks again.  `Recounted` says
when this gives the number of tokens it has generated.

**Results.**
* `Sound`: what holds in each stage of a request.
* `budget_of_run`: in a run whose paused generations are recounted, the carried count is
  the number of generated tokens and the limit is kept.
* `budget_lost`: a run in which two letters are counted as one token.
-/

namespace RwkvLightning
namespace TokenBudget

open Backend Text DecodeRow Tokenizer RequestRegistry Execution

variable {α ρ ℓ : Type}

section Invariant

variable (order : SetOrder) (tokenizer : OptimizedTrieTokenizer)

/-- The tokens that some texts are counted as. -/
def countAll (texts : List Bytes) : Nat :=
  (texts.map (countTokens order tokenizer)).sum

/-- What the chunks of a generation are counted as, up to the last one that was handed out. -/
def Generation.recount (g : Generation α ρ ℓ) : Nat :=
  countAll order tokenizer
    ((chunks (decodeToken tokenizer) g.task.chunkSize [] 0 g.tokens).take g.handed)

def System.generation? (s : System α ρ ℓ) : Option (Generation α ρ ℓ) :=
  match s.life with
  | .generating g => some g
  | _ => none

/--
A generation that is paused has not met a stop token, and after a resume its chunks have as
many tokens as were generated.
-/
def Recounted (s : System α ρ ℓ) : Event α ρ ℓ → Prop
  | .returned _ _ true => ∀ g ∈ s.generation?,
      g.row.stopToken = false ∧
        (g.task.endpoint = .resume → g.recount order tokenizer = g.tokens.length)
  | _ => True

instance (s : System α ρ ℓ) (e : Event α ρ ℓ) : Decidable (Recounted order tokenizer s e) :=
  match e with
  | .returned _ _ true => inferInstanceAs (Decidable (∀ g ∈ s.generation?, _ ∧ (_ → _)))
  | .returned _ _ false | .admitted _ | .denied | .failed | .tick _ | .handed _ | .resume _ =>
      isTrue trivial

/-- What the user of a chat with this limit relies on. -/
structure WithinBudget (maxTokens : Int) (s : System α ρ ℓ) : Prop where
  sampled : s.sampled ≤ maxTokens.toNat
  carried : ∀ p, s.life = .paused p → p.generatedTokens = s.generated

/-- The task goes on after `n` tokens. -/
structure Continues (maxTokens : Int) (n : Nat) (t : Task α Settings ρ ℓ) : Prop where
  saved : t.saved = n
  within : n ≤ maxTokens.toNat
  limit : if t.endpoint = .resume then t.options.maxTokens = maxTokens.toNat - n
    else n = 0 ∧ t.options.maxTokens = maxTokens

/-- A generation after `n` tokens, with the counts of its request. -/
structure Decodes (maxTokens : Int) (sampled generated n : Nat) (g : Generation α ρ ℓ) :
    Prop where
  continues : Continues maxTokens n g.task
  generated : generated = n + g.tokens.length
  row : ∃ k, sampled = n + k ∧
    (Short (decodeToken tokenizer) (rowOptions g.task.options) g.task.chunkSize g.tokens k g.row ∨
      Gone (decodeToken tokenizer) (rowOptions g.task.options) g.task.chunkSize g.tokens k g.row)
  handed : g.handed ≤ g.row.texts.length
  counted : g.chunkTokens = countAll order tokenizer (g.row.texts.take g.handed)

/-- What holds in each stage of a request. -/
def Sound (maxTokens : Int) (s : System α ρ ℓ) : Prop :=
  match s.life with
  | .queued t _ _ => s.sampled = s.generated ∧ Continues maxTokens s.generated t
  | .generating g => ∃ n, Decodes order tokenizer maxTokens s.sampled s.generated n g
  | .paused p => s.sampled = s.generated ∧ s.generated ≤ maxTokens.toNat ∧
      p.generatedTokens = s.generated ∧
      (p.options.maxTokens = maxTokens ∨ p.options.maxTokens = maxTokens.toNat)
  | .ended => s.sampled ≤ maxTokens.toNat

end Invariant

section Counting

variable {order : SetOrder} {tokenizer : OptimizedTrieTokenizer}

theorem countTokens_nil : countTokens order tokenizer [] = 0 := rfl

theorem countAll_append (texts texts' : List Bytes) :
    countAll order tokenizer (texts ++ texts') =
      countAll order tokenizer texts + countAll order tokenizer texts' := by
  simp [countAll]

/-- The event of a stop counts nothing. -/
theorem countAll_take_stop (texts : List Bytes) (n : Nat) :
    countAll order tokenizer ((texts ++ [[]]).take n) =
      countAll order tokenizer (texts.take n) := by
  rw [List.take_append, countAll_append]
  have hstop : countAll order tokenizer (([[]] : List Bytes).take (n - texts.length)) = 0 := by
    cases n - texts.length with
    | zero => rfl
    | succ k => simp [countAll, countTokens_nil]
  omega

/-- Tokens of complete characters, each in a chunk of its own. -/
theorem chunks_one {decode : Token → Bytes} {tokens : List Token}
    (h : ∀ token ∈ tokens, takeUtf8 (decode token) = (decode token, []) ∧ decode token ≠ []) :
    chunks decode 1 [] 0 tokens = tokens.map decode := by
  induction tokens with
  | nil => rfl
  | cons token tokens ih =>
      obtain ⟨hcomplete, hne⟩ := h token List.mem_cons_self
      rw [chunks, List.nil_append, hcomplete]
      simp only [shown, if_neg hne]
      rw [ih (fun token' htoken' => h token' (List.mem_cons_of_mem token htoken'))]
      rfl

/-- With chunks of one token the count is right when no token is counted as others. -/
theorem recount_one {g : Generation α ρ ℓ} (hone : g.task.chunkSize = 1)
    (hhanded : g.tokens.length ≤ g.handed)
    (h : ∀ token ∈ g.tokens,
      takeUtf8 (decodeToken tokenizer token) = (decodeToken tokenizer token, []) ∧
        decodeToken tokenizer token ≠ [] ∧
        countTokens order tokenizer (decodeToken tokenizer token) = 1) :
    g.recount order tokenizer = g.tokens.length := by
  rw [Generation.recount, hone, chunks_one (fun token htoken => ⟨(h token htoken).1,
    (h token htoken).2.1⟩), List.take_of_length_le (by rw [List.length_map]; exact hhanded),
    countAll, List.map_map]
  have hones : g.tokens.map (countTokens order tokenizer ∘ decodeToken tokenizer) =
      g.tokens.map (fun _ => 1) := List.map_congr_left (fun token htoken => (h token htoken).2.2)
  rw [hones]
  simp

/-- What is counted is what the chunks of the tokens count. -/
theorem Decodes.recount {maxTokens : Int} {sampled generated n : Nat} {g : Generation α ρ ℓ}
    (h : Decodes order tokenizer maxTokens sampled generated n g)
    (hcompleted : g.row.completed = true) :
    g.chunkTokens = g.recount order tokenizer := by
  obtain ⟨k, -, hshort | hgone⟩ := h.row
  · exact absurd (hshort.completed.symm.trans hcompleted) Bool.false_ne_true
  · rw [h.counted, Generation.recount]
    rcases hgone.chunked with htexts | htexts
    · rw [htexts]
    · rw [htexts, countAll_take_stop]

theorem Decodes.within {maxTokens : Int} {sampled generated n : Nat} {g : Generation α ρ ℓ}
    (h : Decodes order tokenizer maxTokens sampled generated n g) :
    sampled ≤ maxTokens.toNat := by
  obtain ⟨k, hk, hrow⟩ := h.row
  have hlimit : k ≤ g.task.options.maxTokens.toNat := by
    rcases hrow with hshort | hgone
    · exact hshort.within
    · exact hgone.within
  have hwithin := h.continues.within
  have hcases := h.continues.limit
  split at hcases
  · omega
  · obtain ⟨hn, hmax⟩ := hcases
    rw [hmax] at hlimit
    omega

end Counting

section Steps

variable {m : Model α ρ ℓ} {order : SetOrder} {tokenizer : OptimizedTrieTokenizer}
variable {maxTokens : Int} {s s' : System α ρ ℓ}

theorem sound_within (hs : Sound order tokenizer maxTokens s) :
    s.sampled ≤ maxTokens.toNat := by
  unfold Sound at hs
  split at hs
  · exact hs.1 ▸ hs.2.within
  · obtain ⟨n, hdecodes⟩ := hs
    exact hdecodes.within
  · exact hs.1 ▸ hs.2.1
  · exact hs

/-- A request is admitted. -/
theorem sound_admitted {t : Task α Settings ρ ℓ} (hequal : s.sampled = s.generated)
    (hs : Continues maxTokens s.generated t) (r : ActiveRequest) (textStopTail : Bytes)
    (cancelled : Bool) :
    Sound order tokenizer maxTokens (s.admitted t r textStopTail cancelled) :=
  ⟨s.generated,
    { continues := hs
      generated := rfl
      row := ⟨0, hequal, tally_admitRow cancelled false textStopTail⟩
      handed := Nat.zero_le _
      counted := rfl }⟩

/-- One step of the scheduler. -/
theorem sound_tick {g : Generation α ρ ℓ} {n : Nat}
    (hs : Decodes order tokenizer maxTokens s.sampled s.generated n g) (t : Tick) :
    Sound order tokenizer maxTokens (s.tick tokenizer g t) := by
  have htexts : g.row.texts <+: (g.row.tick (decodeToken tokenizer) (rowOptions g.task.options)
      g.task.chunkSize false t).texts := texts_tick false t
  obtain ⟨k, hk, hrow⟩ := hs.row
  refine ⟨n,
    { continues := hs.continues
      generated := ?_
      row := ⟨k + (g.row.draw false t).toList.length, ?_, ?_⟩
      handed := hs.handed.trans htexts.length_le
      counted := ?_ }⟩
  · show s.generated + _ = n + (g.tokens ++ _).length
    rw [hs.generated, List.length_append, Nat.add_assoc]
  · show s.sampled + _ = _
    rw [hk, Nat.add_assoc]
  · rcases hrow with hshort | hgone
    · exact tally_tick false hshort t
    · right
      have hnone := draw_completed false hgone.completed t
      have hsame : g.row.tick (decodeToken tokenizer) (rowOptions g.task.options)
          g.task.chunkSize false t = g.row := by
        rw [Row.tick, if_pos hgone.completed]
      simp only [hnone, hsame, Option.toList, List.filter_nil, List.append_nil, List.length_nil,
        Nat.add_zero]
      exact hgone
  · obtain ⟨more, hmore⟩ := htexts
    show g.chunkTokens = countAll order tokenizer (List.take g.handed _)
    rw [hs.counted, ← hmore, List.take_append_of_le_length hs.handed]

/-- The handler gets an event. -/
theorem sound_handed {g : Generation α ρ ℓ} {n : Nat}
    (hs : Decodes order tokenizer maxTokens s.sampled s.generated n g) {text : Bytes}
    (htext : g.row.texts[g.handed]? = some text) (accepted : Bool) :
    Sound order tokenizer maxTokens (s.handed order tokenizer g text accepted) := by
  obtain ⟨hlt, -⟩ := List.getElem?_eq_some_iff.mp htext
  refine ⟨n,
    { continues := hs.continues
      generated := hs.generated
      row := hs.row
      handed := hlt
      counted := ?_ }⟩
  show g.chunkTokens + _ = countAll order tokenizer (g.row.texts.take (g.handed + 1))
  rw [List.take_add_one, htext, countAll_append, hs.counted]
  rfl

/-- What a paused generation has counted. -/
theorem Decodes.counted_eq {g : Generation α ρ ℓ} {sampled generated n : Nat}
    (hs : Decodes order tokenizer maxTokens sampled generated n g)
    (hcompleted : g.row.completed = true)
    (hrecounted : g.task.endpoint = .resume → g.recount order tokenizer = g.tokens.length)
    {result : Generated α ρ ℓ} (hchunks : result.chunkTokens = g.chunkTokens)
    (hgenerated : result.generatedTokens = g.row.generatedTokens) :
    RequestRegistry.System.counted g.task result = g.tokens.length := by
  have hrow : g.row.generatedTokens = g.tokens.length := by
    obtain ⟨k, -, hshort | hgone⟩ := hs.row
    · exact hshort.generated
    · exact hgone.generated
  have hrecount := hs.recount hcompleted
  rw [RequestRegistry.System.counted, hchunks, hgenerated, hrow]
  by_cases hresume : g.task.endpoint = .resume
  · rw [if_neg (fun h => h.1 hresume), hrecount, hrecounted hresume]
  · by_cases hpositive : 0 < g.tokens.length
    · rw [if_pos ⟨hresume, hpositive⟩]
    · -- Without tokens there is no chunk.
      have hnil : g.tokens = [] := List.length_eq_zero_iff.mp (by omega)
      rw [if_neg (fun h => hpositive h.2), hrecount, Generation.recount, hnil]
      simp [chunks, shown, countAll]

/-- A generation returns. -/
theorem sound_returned {g : Generation α ρ ℓ} {n : Nat} (hfits : Fits maxTokens)
    (hs : Decodes order tokenizer maxTokens s.sampled s.generated n g)
    (hcompleted : g.row.completed = true) (state : GenerationState α ρ)
    (logits : DeviceLogits ℓ) (pause : Bool)
    (hrecounted : pause = true → g.row.stopToken = false ∧
      (g.task.endpoint = .resume → g.recount order tokenizer = g.tokens.length)) :
    Sound order tokenizer maxTokens (s.returned g state logits pause) := by
  have hwithin := hs.within
  cases pause with
  | false => exact hwithin
  | true =>
      obtain ⟨hstop, hrecount⟩ := hrecounted rfl
      obtain ⟨k, hk, hrow⟩ := hs.row
      have hdrawn : k = g.tokens.length := by
        rcases hrow with hshort | hgone
        · have hdrawn := hshort.drawn
          rw [hstop] at hdrawn
          exact hdrawn
        · have hdrawn := hgone.drawn
          rw [hstop] at hdrawn
          exact hdrawn
      have hequal : s.sampled = s.generated := by rw [hk, hs.generated, hdrawn]
      obtain ⟨hlow, hhigh⟩ := hfits
      refine ⟨hequal, hequal ▸ hwithin, ?_, ?_⟩
      · show int32 (g.task.saved + RequestRegistry.System.counted g.task _) = s.generated
        rw [hs.counted_eq hcompleted hrecount rfl rfl, hs.continues.saved, hs.generated]
        have hsum : (n : Int) + g.tokens.length = (n + g.tokens.length : Nat) := by push_cast; rfl
        rw [hsum, ← hs.generated]
        exact int32_of_fits ⟨by omega, by omega⟩
      · have hlimit := hs.continues.limit
        have hn := hs.continues.within
        show (RequestRegistry.System.contextOf g.task _ _).options.maxTokens = maxTokens ∨ _
        unfold RequestRegistry.System.contextOf
        by_cases hresume : g.task.endpoint = .resume
        · right
          rw [if_pos hresume] at hlimit
          simp only [if_pos hresume, hlimit, hs.continues.saved]
          rw [int32_of_fits ⟨by omega, by omega⟩]
          omega
        · left
          rw [if_neg hresume] at hlimit
          simp only [if_neg hresume]
          exact hlimit.2

/-- A paused request is resumed. -/
theorem sound_resume {p : PausedRequest α Settings ρ ℓ} (hfits : Fits maxTokens)
    (hlife : s.life = .paused p) (hs : Sound order tokenizer maxTokens s)
    {body : ResumeBody α Settings} (hkept : body.maxTokens = none) :
    Sound order tokenizer maxTokens (s.resume m p body) := by
  have hpaused := hs
  simp only [Sound, hlife] at hpaused
  obtain ⟨hequal, hwithin, hcarried, hmax⟩ := hpaused
  have hover : Sound order tokenizer maxTokens { s with life := (.ended : Life α ρ ℓ) } :=
    (hequal ▸ hwithin : s.sampled ≤ _)
  unfold System.resume
  split
  · dsimp only
    split
    · exact hs
    · split
      · exact hs
      · split
        · refine ⟨hequal, hcarried, hwithin, ?_⟩
          have hint : int32 (p.options.maxTokens - s.generated) =
              p.options.maxTokens - s.generated := by
            obtain ⟨hlow, hhigh⟩ := hfits
            refine int32_of_fits ⟨?_, ?_⟩ <;> rcases hmax with hmax | hmax <;> omega
          show (if Endpoint.resume = .resume then
            (RequestRegistry.System.resumeOptions p body).maxTokens = _ else _)
          rw [if_pos rfl]
          show body.maxTokens.getD _ = (maxTokens.toNat : Int) - s.generated
          rw [hkept, Option.getD_none, hcarried, hint, Int.max_def]
          rcases hmax with hmax | hmax <;> rw [hmax] <;> split <;> omega
        · exact hover
  · exact hover

/-- One step. -/
theorem sound_step (hfits : Fits maxTokens) (hs : Sound order tokenizer maxTokens s)
    {e : Event α ρ ℓ} (hrecounted : Recounted order tokenizer s e)
    (hkept : ∀ body, e = .resume body → body.maxTokens = none)
    (hstep : step m order tokenizer s e = some s') : Sound order tokenizer maxTokens s' := by
  have hwithin := sound_within hs
  cases hlife : s.life with
  | queued t r textStopTail =>
      have hqueued := hs
      simp only [Sound, hlife] at hqueued
      cases e with
      | admitted cancelled =>
          simp only [step, hlife, Option.some.injEq] at hstep
          exact hstep ▸ sound_admitted hqueued.1 hqueued.2 r textStopTail cancelled
      | denied | failed =>
          simp only [step, hlife, Option.some.injEq] at hstep
          exact hstep ▸ hwithin
      | tick | handed | returned | resume =>
          simp only [step, hlife] at hstep
          exact nomatch hstep
  | generating g =>
      have hgenerating := hs
      simp only [Sound, hlife] at hgenerating
      obtain ⟨n, hdecodes⟩ := hgenerating
      cases e with
      | tick t =>
          simp only [step, hlife, Option.some.injEq] at hstep
          exact hstep ▸ sound_tick hdecodes t
      | handed accepted =>
          simp only [step, hlife] at hstep
          split at hstep
          · obtain ⟨text, htext, rfl⟩ := Option.map_eq_some_iff.mp hstep
            exact sound_handed hdecodes htext accepted
          · exact nomatch hstep
      | returned state logits pause =>
          simp only [step, hlife] at hstep
          split at hstep
          · rename_i hdone
            rw [← Option.some.inj hstep]
            refine sound_returned hfits hdecodes hdone.1 state logits pause (fun hpause => ?_)
            rw [hpause] at hrecounted
            exact hrecounted g (by rw [System.generation?, hlife]; rfl)
          · exact nomatch hstep
      | failed =>
          simp only [step, hlife, Option.some.injEq] at hstep
          exact hstep ▸ hwithin
      | admitted | denied | resume =>
          simp only [step, hlife] at hstep
          exact nomatch hstep
  | paused p =>
      cases e with
      | resume body =>
          simp only [step, hlife, Option.some.injEq] at hstep
          exact hstep ▸ sound_resume hfits hlife hs (hkept body rfl)
      | admitted | denied | failed | tick | handed | returned =>
          simp only [step, hlife] at hstep
          exact nomatch hstep
  | ended =>
      cases e <;> · simp only [step, hlife] at hstep; exact nomatch hstep

/--
In a run without a new limit whose paused generations are recounted, the limit bounds the
sampled tokens of all generations together, and the carried count is the true one.
-/
theorem budget_of_run {endpoint : Endpoint} {id model : String}
    {options : GenerateOptions α Settings} {chunkSize : Int} {events : List (Event α ρ ℓ)}
    (hchat : endpoint ≠ .resume) (hfits : Fits options.maxTokens)
    (hkept : ∀ body, .resume body ∈ events → body.maxTokens = none)
    (hmeet : StepsMeet (step m order tokenizer) (Recounted order tokenizer)
      (.start endpoint id model options chunkSize) events)
    (hrun : exec (step m order tokenizer) (.start endpoint id model options chunkSize) events =
      some s) : WithinBudget options.maxTokens s := by
  have hstart : Sound order tokenizer options.maxTokens
      (.start endpoint id model options chunkSize : System α ρ ℓ) :=
    ⟨rfl, rfl, Nat.zero_le _, by rw [if_neg hchat]; exact ⟨rfl, rfl⟩⟩
  have hsound : Sound order tokenizer options.maxTokens s := by
    generalize System.start endpoint id model options chunkSize = s₀ at hstart hmeet hrun
    induction events generalizing s₀ with
    | nil =>
        rw [exec_nil] at hrun
        exact Option.some.inj hrun ▸ hstart
    | cons e events ih =>
        obtain ⟨s₁, hstep, hrest⟩ := exec_cons_some hrun
        obtain ⟨hrecounted, hmeet'⟩ := stepsMeet_cons hstep hmeet
        refine ih (fun body hbody => hkept body (List.mem_cons_of_mem e hbody)) s₁ ?_ hmeet' hrest
        refine sound_step hfits hstart hrecounted (fun body hbody => ?_) hstep
        exact hkept body (hbody ▸ List.mem_cons_self)
  refine ⟨sound_within hsound, fun p hp => ?_⟩
  simp only [Sound, hp] at hsound
  exact hsound.2.2.1

end Steps

section Example

/-- The smallest id first. -/
def smallestFirst : SetOrder where
  first values := if h : values.Nonempty then values.min' h else 0
  first_mem := fun values h => by
    rw [dif_pos h]
    exact values.min'_mem h

/-- The tokens a, b and ab. -/
def letters : OptimizedTrieTokenizer :=
  OptimizedTrieTokenizer.ofEntries [(1, [97]), (2, [98]), (3, [97, 98])]

def chat : GenerateOptions Unit Settings where
  maxTokens := 3
  adapter := none
  forceReasoningTokenOffset := 0
  settings := ⟨[0], none⟩

/-- The chat handler with chunks of two tokens. -/
def chatStart : System Unit Unit Unit :=
  .start .chatStream "req" "m" chat 2

/-- `resume` with this chunk size. -/
def resumeWith (chunkSize : Option (Option Int)) : ResumeBody Unit Settings where
  requestId := "req"
  optionsParse := true
  maxTokens := none
  adapter := none
  settings := none
  stop := false
  chunkSize := chunkSize
  model := none

/-- The token is sampled. -/
def sampled (token : Token) : Event Unit Unit Unit :=
  .tick ⟨token, false, false, false⟩

/-- The flag of pause is seen before the next token. -/
def pausedThere : List (Event Unit Unit Unit) :=
  [.tick ⟨0, true, false, false⟩,
    .returned ⟨Identity.default, false, [()], []⟩ ⟨[some ()]⟩ true]

/-- A chat is paused at once and again after the letters a and b, which make one chunk. -/
def pausedTwice : List (Event Unit Unit Unit) :=
  .admitted false :: pausedThere ++
    [.resume (resumeWith none), .admitted false, sampled 1, sampled 2, .handed true] ++ pausedThere

/-- Two more tokens after that. -/
def resumedTwice : List (Event Unit Unit Unit) :=
  pausedTwice ++ [.resume (resumeWith none), .admitted false, sampled 1, sampled 2]

/-- The carried count is not the number of generated tokens. -/
def miscounted (s : System Unit Unit Unit) : Bool :=
  match s.life with
  | .paused p => decide (p.generatedTokens ≠ s.generated)
  | _ => false

theorem budget_lost :
    (∃ s, exec (step plainModel smallestFirst letters) chatStart pausedTwice = some s ∧
        ¬WithinBudget 3 s) ∧
      ∃ s, exec (step plainModel smallestFirst letters) chatStart resumedTwice = some s ∧
        3 < s.sampled ∧ ¬WithinBudget 3 s := by
  constructor
  · have hrun : (exec (step plainModel smallestFirst letters) chatStart pausedTwice).any
        miscounted = true := by decide +kernel
    obtain ⟨s, hs, hwrong⟩ := (Option.any_eq_true _ _).mp hrun
    refine ⟨s, hs, fun hbudget => ?_⟩
    unfold miscounted at hwrong
    split at hwrong
    · rename_i p hp
      exact of_decide_eq_true hwrong (hbudget.carried p hp)
    · exact Bool.false_ne_true hwrong
  · have hrun : (exec (step plainModel smallestFirst letters) chatStart resumedTwice).any
        (fun s => 3 < s.sampled) = true := by decide +kernel
    obtain ⟨s, hs, hover⟩ := (Option.any_eq_true _ _).mp hrun
    have hover := of_decide_eq_true hover
    exact ⟨s, hs, hover, fun hbudget => absurd hbudget.sampled (Nat.not_le.mpr hover)⟩

/-- The letters come in chunks of their own. -/
def lettersApart : List (Event Unit Unit Unit) :=
  .admitted false :: pausedThere ++
    [.resume (resumeWith (some (some 1))), .admitted false, sampled 1, sampled 2, .handed true,
      .handed true] ++ pausedThere

theorem budget_lettersApart :
    ∃ s, exec (step plainModel smallestFirst letters) chatStart lettersApart = some s ∧
      WithinBudget 3 s := by
  have hmeet : StepsMeet (step plainModel smallestFirst letters)
      (Recounted smallestFirst letters) chatStart lettersApart := by decide +kernel
  have hsome : (exec (step plainModel smallestFirst letters) chatStart lettersApart).isSome =
      true := by decide +kernel
  obtain ⟨s, hrun⟩ := Option.isSome_iff_exists.mp hsome
  refine ⟨s, hrun, budget_of_run (by decide) (by decide) ?_ hmeet hrun⟩
  intro body hbody
  have hbodies : ∀ e ∈ lettersApart, ∀ body, e = .resume body → body.maxTokens = none := by
    simp [lettersApart, pausedThere, sampled, resumeWith]
  exact hbodies _ hbody body rfl

end Example

end TokenBudget
end RwkvLightning

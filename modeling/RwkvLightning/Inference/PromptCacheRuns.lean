import RwkvLightning.Inference.PrefixCacheRefinement
import RwkvLightning.Inference.PromptCacheExact
import Mathlib

/-!
# The prompt cache over runs

**Assumption.**  An identity of the cache stands for one initial state with one adapter
(`Origin`); `Sound` says so of a request.

**Invariant.**  Every item of the cache is what its tokens lead to from the origin of its
identity (`Faithful`), and every thread has only such hits, or the finished batch
(`Transparent`).
-/

namespace RwkvLightning
namespace PromptCache

open Backend Prefill PrefixCache

variable {α ρ ℓ : Type} {m : Model α ρ ℓ}

/-- What an identity of the cache stands for: the metadata of a batch and its rows. -/
structure Origin (α ρ : Type) where
  state : GenerationState α ρ
  row : ρ

section Store

variable {laws : RowLaws m} {origin : Bytes → Origin α ρ} {cache : Store α ρ ℓ}

/-- An item is what its tokens lead to from the origin of its identity. -/
structure Good (laws : RowLaws m) (origin : Bytes → Origin α ρ)
    (item : Item Bytes Token (Entry α ρ ℓ)) : Prop where
  value : item.value = some (entryOf laws (origin item.identity).state
    (origin item.identity).row item.tokens item.tokens.length)
  nonempty : item.tokens ≠ []
  accepts : m.Accepts (origin item.identity).state.identity.adapter
  range : m.InRange [item.tokens]

/-- All items of the cache are. -/
structure Faithful (laws : RowLaws m) (origin : Bytes → Origin α ρ) (cache : Store α ρ ℓ) :
    Prop where
  invariant : Invariant cache
  bound : cache.items.length ≤ cache.capacity
  good : ∀ item ∈ cache.items, Good laws origin item

theorem entryOf_congr {state state' : GenerationState α ρ}
    (h : state.identity = state'.identity) (h' : state.wkv32 = state'.wkv32) (ρ₀ : ρ)
    (prompt : List Token) (n : Nat) :
    (entryOf laws state ρ₀ prompt n : Entry α ρ ℓ) = entryOf laws state' ρ₀ prompt n := by
  rw [entryOf, entryOf, Model.advancedIdentity_congr h h', h, h']

theorem entryOf_prefix (state : GenerationState α ρ) (ρ₀ : ρ) {tokens prompt : List Token}
    (h : tokens <+: prompt) :
    (entryOf laws state ρ₀ tokens tokens.length : Entry α ρ ℓ) =
      entryOf laws state ρ₀ prompt tokens.length := by
  rw [entryOf, entryOf, List.take_length, ← List.prefix_iff_eq_take.mp h]

/-- A lookup. -/
theorem Faithful.find (h : Faithful laws origin cache) (identity : Bytes) (prompt : List Token) :
    Faithful laws origin (cache.find identity prompt).1 ∧
      Served laws (origin identity).state (origin identity).row prompt
        (cache.find identity prompt).2 := by
  obtain ⟨hrefines, hout⟩ := h.invariant.find_spec identity prompt
  have hbound := length_step_le h.bound (.find identity prompt)
  constructor
  · refine ⟨hrefines.invariant, ?_, fun item hitem => h.good item ?_⟩
    · rw [hrefines.items_eq, hrefines.capacity_eq]
      exact hbound
    · rw [hrefines.items_eq, Spec.find] at hitem
      split at hitem
      · exact hitem
      · exact (RecencyList.touch_perm _ _).mem_iff.mp hitem
  · rw [hout, Spec.find]
    cases hlongest : Spec.longest cache.items identity prompt with
    | none => exact .miss
    | some item =>
        obtain ⟨hmem, rfl, hprefix, -⟩ := longest_spec hlongest
        have hgood := h.good item hmem
        have htake := List.prefix_iff_eq_take.mp hprefix
        simp only
        rw [hgood.value, entryOf_prefix _ _ hprefix]
        refine .hit _ (List.length_pos_iff.mpr hgood.nonempty) hprefix.length_le hgood.accepts ?_
        rw [← htake]
        exact hgood.range

/-- A publication. -/
theorem Faithful.put (h : Faithful laws origin cache)
    {identity : Bytes} {prompt : List Token} {value : Option (Entry α ρ ℓ)}
    (hgood : Good laws origin ⟨identity, prompt, value⟩) :
    Faithful laws origin (cache.put identity prompt value) := by
  have hrefines := h.invariant.put_spec h.bound identity prompt value
  have hbound := length_step_le h.bound (.put identity prompt value)
  refine ⟨hrefines.invariant, ?_, fun item hitem => ?_⟩
  · rw [hrefines.items_eq, hrefines.capacity_eq]
    exact hbound
  · rw [hrefines.items_eq, Spec.put] at hitem
    split at hitem
    · exact h.good item hitem
    · rcases RecencyList.mem_insert hitem with rfl | ⟨hold, -⟩
      · exact hgood
      · exact h.good item hold

end Store

section Threads

variable {laws : RowLaws m} {origin : Bytes → Origin α ρ} {cache : Store α ρ ℓ}
variable {chunkSize : Nat} {thread : Thread α ρ ℓ}

/-- The batch starts from the origin of its identity. -/
structure Denoted (m : Model α ρ ℓ) (origin : Origin α ρ) (job : Job α ρ) : Prop where
  fresh : Fresh m job origin.row
  identity : origin.state.identity = job.state.identity
  wkv32 : origin.state.wkv32 = job.state.wkv32

theorem Served.congr {state state' : GenerationState α ρ} {ρ₀ : ρ} {prompt : List Token}
    {hit : Match (Entry α ρ ℓ)} (h : Served laws state ρ₀ prompt hit)
    (hidentity : state.identity = state'.identity) (hwkv : state.wkv32 = state'.wkv32) :
    Served laws state' ρ₀ prompt hit := by
  cases h with
  | miss => exact .miss
  | hit n hpos hle haccepts hrange =>
      rw [entryOf_congr hidentity hwkv]
      exact .hit n hpos hle (hidentity ▸ haccepts) hrange

/-- What holds of a thread in each phase. -/
def Transparent (laws : RowLaws m) (chunkSize : Nat) (origin : Bytes → Origin α ρ)
    (thread : Thread α ρ ℓ) : Prop :=
  match thread.phase with
  | .lookup hits =>
      Denoted m (origin thread.key.identity) thread.job ∧
        List.Forall₂ (Served laws thread.job.state (origin thread.key.identity).row)
          (thread.job.promptIds.take hits.length) hits
  | .publish result staging _ =>
      Denoted m (origin thread.key.identity) thread.job ∧
        Staged m thread.job.state staging ∧
        ∃ order, Finished laws thread.job (origin thread.key.identity).row order result
  | .done result =>
      Denoted m (origin thread.key.identity) thread.job ∧
        ∃ order, Finished laws thread.job (origin thread.key.identity).row order result
  | .failed _ =>
      thread.job.state.identity.advanced = true ∨
        ∃ e, prefillPlain m chunkSize thread.job = .error e

end Threads

section Runs

variable {laws : RowLaws m} {origin : Bytes → Origin α ρ} {chunkSize capacity : Nat}
variable {encode : String → List Token} {request : Request α ρ} {job : Job α ρ}
variable {s s' : System α ρ ℓ}

/-- The rows of a batch all start from an origin, with its metadata. -/
structure Starts (m : Model α ρ ℓ) (origin : Origin α ρ) (state : GenerationState α ρ) :
    Prop where
  identity : origin.state.identity = state.identity
  wkv32 : origin.state.wkv32 = state.wkv32
  precision : state.wkv32 = m.wkv32
  rows : ∀ row ∈ state.rows, row = origin.row

/-- The identity that a request is cached under stands for its initial state and adapter. -/
def Sound (m : Model α ρ ℓ) (encode : String → List Token) (origin : Bytes → Origin α ρ)
    (request : Request α ρ) : Prop :=
  ∀ job, prepare m encode request = .ok job → job.state.identity.advanced = false →
    Starts m (origin (CacheKey.ofState request.stateId request.adapterId job.state).identity)
      job.state

end Runs

end PromptCache
end RwkvLightning

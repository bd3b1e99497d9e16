import Mathlib.Data.List.Infix
import Mathlib.Tactic

/-!
# A window and its reader

A window holds the last entries of a sequence that grows, and a reader polls it.  Entries carry
a serial number, so two entries with one content are two entries.

**Purpose.**  A poll delivers what is in the window and has not been delivered, in the order of
the window.  `Ordered` is the invariant that makes this a suffix of the window.

**Results.**
* `Ordered.append` to `Ordered.poll`: the operations keep the invariant.
* `Ordered.window_eq`: the window is an end of what was delivered, followed by what is new.
* `mem_delivered_poll`: after a poll the whole window has been delivered.
-/

namespace RwkvLightning

universe u

/-- A window with what its reader has got. -/
structure Feed (α : Type u) where
  window : List (ℕ × α)
  count : ℕ
  delivered : List (ℕ × α)
deriving DecidableEq, Repr

namespace Feed

variable {α : Type u}

/-- The last `n` entries. -/
def keepLast {β : Type u} (n : ℕ) (entries : List β) : List β :=
  entries.drop (entries.length - n)

/-- Nothing yet. -/
def empty : Feed α := { window := [], count := 0, delivered := [] }

/-- A new entry; the oldest go when there are more than `limit`. -/
def append (limit : ℕ) (content : α) (feed : Feed α) : Feed α :=
  { feed with
    window := keepLast limit (feed.window ++ [(feed.count, content)])
    count := feed.count + 1 }

/-- The window is emptied. -/
def reset (feed : Feed α) : Feed α := { feed with window := [] }

/-- A reader that has got nothing. -/
def connect (feed : Feed α) : Feed α := { feed with delivered := [] }

/-- The entries that have not been delivered. -/
def fresh (feed : Feed α) : List (ℕ × α) :=
  feed.window.filter fun entry => entry.1 ∉ feed.delivered.map Prod.fst

/-- The reader gets what it has not got. -/
def poll (feed : Feed α) : Feed α := { feed with delivered := feed.delivered ++ feed.fresh }

/-- The contents that were delivered. -/
def contents (feed : Feed α) : List α := feed.delivered.map Prod.snd

/-- Serial numbers grow, and the window goes on where the deliveries ended. -/
structure Ordered (feed : Feed α) : Prop where
  delivered : (feed.delivered.map Prod.fst).Pairwise (· < ·)
  below : ∀ entry ∈ feed.delivered ++ feed.window, entry.1 < feed.count
  window : (feed.window.map Prod.fst).Pairwise (· < ·)
  continued : ∃ old new, feed.window = old ++ new ∧ old <:+ feed.delivered ∧
    ∀ entry ∈ new, ∀ other ∈ feed.delivered, other.1 < entry.1

variable {feed : Feed α}

/-- Shorten a window of two parts. -/
theorem keepLast_append {β : Type u} (n : ℕ) (old new : List β) :
    ∃ old' new', keepLast n (old ++ new) = old' ++ new' ∧ old' <:+ old ∧ new' <:+ new := by
  refine ⟨_, _, List.drop_append, List.drop_suffix _ _, List.drop_suffix _ _⟩

/-- The contents of the window are shortened alike. -/
theorem map_window_append (limit : ℕ) (content : α) (feed : Feed α) :
    (feed.append limit content).window.map Prod.snd =
      keepLast limit (feed.window.map Prod.snd ++ [content]) := by
  rw [append, keepLast, keepLast, List.map_drop, List.map_append, List.length_append,
    List.length_append, List.length_map]
  rfl

@[simp] theorem contents_append (limit : ℕ) (content : α) (feed : Feed α) :
    (feed.append limit content).contents = feed.contents := rfl

theorem contents_poll (feed : Feed α) :
    feed.poll.contents = feed.contents ++ feed.fresh.map Prod.snd := List.map_append

theorem ordered_empty : Ordered (empty : Feed α) where
  delivered := List.Pairwise.nil
  below := fun _ hentry => absurd hentry List.not_mem_nil
  window := List.Pairwise.nil
  continued := ⟨[], [], rfl, List.suffix_rfl, fun _ hentry => absurd hentry List.not_mem_nil⟩

theorem Ordered.append (h : Ordered feed) (limit : ℕ) (content : α) :
    Ordered (feed.append limit content) where
  delivered := h.delivered
  below := by
    intro entry hentry
    rw [List.mem_append] at hentry
    rcases hentry with hold | hnew
    · exact Nat.lt_succ_of_lt (h.below entry (List.mem_append_left _ hold))
    · rcases List.mem_append.mp (List.mem_of_mem_drop hnew) with hwindow | hlast
      · exact Nat.lt_succ_of_lt (h.below entry (List.mem_append_right _ hwindow))
      · rw [List.mem_singleton.mp hlast]
        exact Nat.lt_succ_self _
  window := by
    have hall : ((feed.window ++ [(feed.count, content)]).map Prod.fst).Pairwise (· < ·) := by
      rw [List.map_append, List.pairwise_append]
      refine ⟨h.window, List.pairwise_singleton _ _, ?_⟩
      intro serial hserial last hlast
      obtain ⟨entry, hentry, rfl⟩ := List.mem_map.mp hserial
      rw [List.map_singleton, List.mem_singleton] at hlast
      rw [hlast]
      exact h.below entry (List.mem_append_right _ hentry)
    exact hall.sublist ((List.drop_sublist _ _).map Prod.fst)
  continued := by
    obtain ⟨old, new, hwindow, hold, hnew⟩ := h.continued
    obtain ⟨old', new', hkept, hold', hnew'⟩ :=
      keepLast_append limit old (new ++ [(feed.count, content)])
    refine ⟨old', new', ?_, hold'.trans hold, ?_⟩
    · rw [← hkept, ← List.append_assoc, ← hwindow]
      rfl
    · intro entry hentry other hother
      rcases List.mem_append.mp (hnew'.mem hentry) with hin | hlast
      · exact hnew entry hin other hother
      · rw [List.mem_singleton.mp hlast]
        exact h.below other (List.mem_append_left _ hother)

theorem Ordered.reset (h : Ordered feed) : Ordered feed.reset where
  delivered := h.delivered
  below := fun entry hentry =>
    h.below entry (List.mem_append_left _ (by simpa [Feed.reset] using hentry))
  window := List.Pairwise.nil
  continued := ⟨[], [], rfl, List.nil_suffix, fun _ hentry => absurd hentry List.not_mem_nil⟩

theorem Ordered.connect (h : Ordered feed) : Ordered feed.connect where
  delivered := List.Pairwise.nil
  below := fun entry hentry => h.below entry (List.mem_append_right _ hentry)
  window := h.window
  continued := ⟨[], feed.window, rfl, List.suffix_rfl,
    fun _ _ _ hother => absurd hother List.not_mem_nil⟩

/-- The window is an end of what was delivered, followed by what is new. -/
theorem Ordered.window_eq (h : Ordered feed) :
    ∃ old, feed.window = old ++ feed.fresh ∧ old <:+ feed.delivered ∧
      ∀ entry ∈ feed.fresh, ∀ other ∈ feed.delivered, other.1 < entry.1 := by
  obtain ⟨old, new, hwindow, hold, hnew⟩ := h.continued
  have hfresh : feed.fresh = new := by
    rw [fresh, hwindow, List.filter_append, List.filter_eq_nil_iff.mpr, List.filter_eq_self.mpr,
      List.nil_append]
    · intro entry hentry
      rw [decide_eq_true_iff]
      intro hin
      obtain ⟨other, hother, heq⟩ := List.mem_map.mp hin
      exact absurd (hnew entry hentry other hother) (by rw [heq]; exact Nat.lt_irrefl _)
    · intro entry hentry
      rw [decide_eq_true_iff, not_not]
      exact List.mem_map_of_mem (hold.mem hentry)
  exact ⟨old, hfresh ▸ hwindow, hold, hfresh ▸ hnew⟩

theorem Ordered.poll (h : Ordered feed) : Ordered feed.poll := by
  obtain ⟨old, hwindow, hold, hnew⟩ := h.window_eq
  have hsorted : (feed.fresh.map Prod.fst).Pairwise (· < ·) :=
    h.window.sublist (List.filter_sublist.map Prod.fst)
  constructor
  · rw [Feed.poll, List.map_append, List.pairwise_append]
    refine ⟨h.delivered, hsorted, ?_⟩
    intro serial hserial later hlater
    obtain ⟨other, hother, rfl⟩ := List.mem_map.mp hserial
    obtain ⟨entry, hentry, rfl⟩ := List.mem_map.mp hlater
    exact hnew entry hentry other hother
  · intro entry hentry
    rw [Feed.poll, List.append_assoc, List.mem_append] at hentry
    rcases hentry with hdelivered | hlater
    · exact h.below entry (List.mem_append_left _ hdelivered)
    · refine h.below entry (List.mem_append_right _ ?_)
      rcases List.mem_append.mp hlater with hfresh | hwindow
      · exact List.mem_of_mem_filter hfresh
      · exact hwindow
  · exact h.window
  · refine ⟨feed.window, [], (List.append_nil _).symm, ?_,
      fun _ hentry => absurd hentry List.not_mem_nil⟩
    obtain ⟨front, hfront⟩ := hold
    refine ⟨front, ?_⟩
    rw [Feed.poll, hwindow, ← hfront, List.append_assoc]

/-- After a poll the whole window has been delivered. -/
theorem mem_delivered_poll (h : Ordered feed) {entry : ℕ × α} (hentry : entry ∈ feed.window) :
    entry ∈ feed.poll.delivered := by
  obtain ⟨old, hwindow, hold, -⟩ := h.window_eq
  rw [hwindow, List.mem_append] at hentry
  rcases hentry with hin | hin
  · exact List.mem_append_left _ (hold.mem hin)
  · exact List.mem_append_right _ hin

end Feed
end RwkvLightning

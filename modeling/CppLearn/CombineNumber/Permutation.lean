import CppLearn.Lib.Signed
import Mathlib.Data.Nat.Choose.Basic
import Mathlib.Tactic.Linarith

/-!
# `permutation.h`

`permutation(n, m)` computes a binomial coefficient from the one before it, by a multiplication and
a division. The divisions are exact, but the product is larger than the coefficient by the factor
`m`: it is `n` times a binomial coefficient for `n - 1`. These grow up to the middle, so one of them
tells whether all products fit.

The products that the calls compute are `products`, and `permutation_eq_choose` is the result if all
of them fit. The largest of them is found with `choose_le_choose_min`. So `permutation_exact_iff`
needs to ask for one product only.
-/

namespace CppLearn.CombineNumber

open Signed

/-- `permutation`, for `m` that is not negative. -/
def permutation (n : ℤ) : ℕ → ℤ
  | 0 => 1
  | m + 1 =>
    if n = m + 1 then 1
    else
      let factor := narrow 32 (narrow 32 (n - (m + 1 : ℕ)) + 1)
      (narrow 64 (permutation n m * factor)).tdiv (m + 1 : ℕ)

/-- The products of the calls for `permutation n m`, before they are converted to `int64_t`, and
what they are divided by. -/
def products (n : ℤ) : ℕ → List (ℤ × ℤ)
  | 0 => []
  | m + 1 =>
    if n = m + 1 then []
    else
      let factor := narrow 32 (narrow 32 (n - (m + 1 : ℕ)) + 1)
      products n m ++ [(permutation n m * factor, ((m + 1 : ℕ) : ℤ))]

/-- No product overflows, and the divisions are exact. -/
def Exact (n : ℤ) (m : ℕ) : Prop := ∀ p ∈ products n m, Fits 64 p.1 ∧ p.2 ∣ p.1

instance (n : ℤ) (m : ℕ) : Decidable (Exact n m) :=
  inferInstanceAs (Decidable (∀ p ∈ products n m, Fits 64 p.1 ∧ p.2 ∣ p.1))

variable {n m k j : ℕ}

/-! ## Binomial coefficients -/

/-- Coefficients grow up to the middle. -/
theorem choose_le_choose_min (hkj : k ≤ j) : n.choose k ≤ n.choose (min j (n / 2)) := by
  rcases le_total (n / 2) j with hj | hj
  · rw [min_eq_right hj]
    exact k.choose_le_middle n
  · rw [min_eq_left hj]
    induction hkj with
    | refl => exact le_rfl
    | step _ ih => exact (ih (by omega)).trans (Nat.choose_le_succ_of_lt_half_left hj)

/-- The product that is divided by `m + 1`. -/
theorem choose_mul_sub (hn : 0 < n) : n.choose m * (n - m) = n * (n - 1).choose m := by
  obtain ⟨n, rfl⟩ := Nat.exists_eq_add_of_le' hn
  rw [← Nat.choose_succ_right_eq, Nat.add_sub_cancel, Nat.add_one_mul_choose_eq]

/-! ## The recursion -/

/-- The factor of a call is a value of `int`. -/
theorem factor_eq (hm : m < n) (hn : n < 2 ^ 31) :
    narrow 32 (narrow 32 ((n : ℤ) - (m + 1 : ℕ)) + 1) = (n - m : ℕ) := by
  have hfirst : narrow 32 ((n : ℤ) - (m + 1 : ℕ)) = (n - (m + 1) : ℕ) := by
    rw [← Nat.cast_sub hm, narrow_natCast (by omega)]
  have hsecond : (((n - (m + 1) : ℕ) : ℤ) + 1) = (n - m : ℕ) := by omega
  rw [hfirst, hsecond, narrow_natCast (by omega)]

/-- If the coefficient before was computed, the product is a multiple of the divisor. -/
theorem product_eq (hm : m < n) (hn : n < 2 ^ 31)
    (hprev : permutation n m = (n.choose m : ℕ)) :
    permutation n m * narrow 32 (narrow 32 ((n : ℤ) - (m + 1 : ℕ)) + 1) =
      (n * (n - 1).choose m : ℕ) := by
  rw [hprev, factor_eq hm hn, ← Nat.cast_mul, choose_mul_sub (Nat.zero_lt_of_lt hm)]

/-- If all products fit, the result is the coefficient. -/
theorem permutation_eq_choose (hm : m ≤ n) (hn : n < 2 ^ 31)
    (hfit : m < n → ∀ k < m, n * (n - 1).choose k < 2 ^ 63) :
    permutation n m = (n.choose m : ℕ) := by
  induction m with
  | zero => rw [Nat.choose_zero_right]; rfl
  | succ m ih =>
    rw [permutation]
    by_cases hend : n = m + 1
    · rw [if_pos (by exact_mod_cast hend), hend, Nat.choose_self]
      rfl
    · have hfit := hfit (by omega)
      have hprev := ih (by omega) fun _ k hk => hfit k (by omega)
      have hlast := hfit m (Nat.lt_succ_self m)
      have hexact : n.choose (m + 1) * (m + 1) = n * (n - 1).choose m := by
        rw [Nat.choose_succ_right_eq, choose_mul_sub (by omega)]
      rw [if_neg (by exact_mod_cast hend)]
      dsimp only
      rw [product_eq hm hn hprev, narrow_natCast (by omega), ← hexact, Nat.cast_mul,
        Int.mul_tdiv_cancel _ (by omega)]

/-- The products of the calls are those of `n` and a coefficient for `n - 1`. -/
theorem exact_iff (hm : m < n) (hn : n < 2 ^ 31) :
    Exact n m ↔ ∀ k < m, n * (n - 1).choose k < 2 ^ 63 := by
  induction m with
  | zero => exact iff_of_true (fun p hp => absurd hp List.not_mem_nil) fun k hk => by omega
  | succ m ih =>
    have hend : ¬(n : ℤ) = (m : ℤ) + 1 := by omega
    have hprev := ih (by omega)
    have hconcat : Exact n (m + 1) ↔ Exact n m ∧
        Fits 64 (permutation n m * narrow 32 (narrow 32 ((n : ℤ) - (m + 1 : ℕ)) + 1)) ∧
        ((m + 1 : ℕ) : ℤ) ∣ permutation n m *
          narrow 32 (narrow 32 ((n : ℤ) - (m + 1 : ℕ)) + 1) := by
      unfold Exact
      rw [products, if_neg hend, List.forall_mem_append, List.forall_mem_singleton]
    rw [hconcat, Nat.forall_lt_succ_right, hprev]
    refine and_congr_right fun hfit => ?_
    rw [product_eq (by omega) hn (permutation_eq_choose (by omega) hn fun _ => hfit)]
    constructor
    · rintro ⟨⟨-, hlt⟩, -⟩
      omega
    · intro hlt
      refine ⟨⟨by omega, by omega⟩, Int.natCast_dvd_natCast.2 ⟨n.choose (m + 1), ?_⟩⟩
      rw [← choose_mul_sub (by omega), ← Nat.choose_succ_right_eq, mul_comm]

/-- `permutation(n, m)` computes the coefficient, with exact divisions and no overflow, if and only
if `m` is `n`, or `n` times the largest coefficient for `n - 1` among the first `m` is below the
limit. -/
theorem permutation_exact_iff (n m : ℕ) (hm : m ≤ n) (hn : n < 2 ^ 31) :
    (permutation n m = (n.choose m : ℕ) ∧ Exact n m) ↔
      m = n ∨ n * (n - 1).choose (min (m - 1) ((n - 1) / 2)) < 2 ^ 63 := by
  rcases hm.lt_or_eq with hlt | rfl
  · -- the largest product is the last one, or the one in the middle
    have hmax : (∀ k < m, n * (n - 1).choose k < 2 ^ 63) ↔
        n * (n - 1).choose (min (m - 1) ((n - 1) / 2)) < 2 ^ 63 := by
      constructor
      · intro h
        rcases Nat.eq_zero_or_pos m with rfl | hpos
        · rw [Nat.zero_sub, Nat.zero_min, Nat.choose_zero_right]
          omega
        · exact h _ ((min_le_left ..).trans_lt (Nat.sub_lt hpos Nat.one_pos))
      · intro h k hk
        exact (Nat.mul_le_mul_left n (choose_le_choose_min (by omega))).trans_lt h
    rw [exact_iff hlt hn, ← hmax]
    constructor
    · exact fun h => .inr h.2
    · rintro (rfl | h)
      · exact absurd hlt (lt_irrefl _)
      · exact ⟨permutation_eq_choose hm hn fun _ => h, h⟩
  · refine iff_of_true ⟨permutation_eq_choose le_rfl hn fun h => absurd h (lt_irrefl _), ?_⟩
      (.inl rfl)
    -- no product is computed
    cases m with
    | zero => exact fun p hp => absurd hp List.not_mem_nil
    | succ m =>
      unfold Exact
      rw [products, if_pos (Nat.cast_succ m)]
      exact fun p hp => absurd hp List.not_mem_nil

/-- The middle coefficient for 61 is computed. -/
theorem permutation_exact_iff_middle :
    permutation (61 : ℕ) 30 = (Nat.choose 61 30 : ℕ) ∧ Exact (61 : ℕ) 30 :=
  (permutation_exact_iff 61 30 (by decide) (by decide)).2 (.inr (by decide +kernel))

/-- The coefficient is 100, but the products on the way to it overflow. -/
theorem permutation_overflow :
    Nat.choose 100 99 < 2 ^ 63 ∧
      ¬(permutation (100 : ℕ) 99 = (Nat.choose 100 99 : ℕ) ∧ Exact (100 : ℕ) 99) :=
  ⟨by decide +kernel, by decide +kernel⟩

end CppLearn.CombineNumber

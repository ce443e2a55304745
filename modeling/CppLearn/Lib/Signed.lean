import CppLearn.Lib.BoundedLoop
import Mathlib.Algebra.Order.Ring.Int
import Mathlib.Tactic.Common

/-!
# Signed machine integers

The values of a signed integer type of `w` bits, and the conversion to it, which keeps the
residue modulo `2 ^ w`.

`Signed.Fits` says that a number is a value of the type, and `Signed.narrow` is the conversion. Its
result always fits (`Signed.narrow_fits`), and a number that fits is not changed
(`Signed.narrow_eq`). Where a program is undefined unless a product fits, the product is
`Signed.product`.
-/

namespace Signed

/-- The number `x` is a value of the signed type with `w` bits. -/
def Fits (w : ℕ) (x : ℤ) : Prop := -2 ^ w ≤ 2 * x ∧ 2 * x < 2 ^ w

instance (w : ℕ) (x : ℤ) : Decidable (Fits w x) := inferInstanceAs (Decidable (_ ∧ _))

/-- Conversion to the signed type with `w` bits. -/
def narrow (w : ℕ) (x : ℤ) : ℤ := x.bmod (2 ^ w)

/-- A product of two values of the type, which is undefined if it is no value of the type. -/
def product (w : ℕ) (a b : ℤ) : Except BoundedLoop.Fault ℤ :=
  if Fits w (a * b) then .ok (a * b) else .error .checkFailed

theorem narrow_eq {w : ℕ} {x : ℤ} (h : Fits w x) : narrow w x = x := by
  obtain ⟨hlow, hhigh⟩ := h
  refine Int.bmod_eq_of_le ?_ ?_ <;> push_cast <;> omega

theorem narrow_natCast {w n : ℕ} (h : 2 * n < 2 ^ w) : narrow w n = n := by
  have hpos := Nat.two_pow_pos w
  refine narrow_eq ⟨?_, ?_⟩ <;> norm_cast
  omega

theorem narrow_fits (w : ℕ) (x : ℤ) : Fits w (narrow w x) := by
  have hpos : 0 < 2 ^ w := Nat.two_pow_pos w
  have hlow := Int.le_bmod (x := x) hpos
  have hhigh := Int.bmod_lt (x := x) hpos
  push_cast at hlow hhigh
  unfold Fits narrow
  constructor <;> omega

theorem narrow_eq_iff {w : ℕ} {x : ℤ} : narrow w x = x ↔ Fits w x :=
  ⟨fun h => h ▸ narrow_fits w x, narrow_eq⟩

/-- The conversion changes a number by a multiple of `2 ^ w`. -/
theorem exists_narrow_eq_add (w : ℕ) (x : ℤ) : ∃ k : ℤ, narrow w x = x + 2 ^ w * k := by
  refine ⟨-x.bdiv (2 ^ w), ?_⟩
  unfold narrow
  rw [Int.bmod_eq_self_sub_mul_bdiv, Int.mul_neg, Int.sub_eq_add_neg]
  push_cast
  rfl

theorem narrow_le {w : ℕ} {x : ℤ} (h : 0 ≤ x) : narrow w x ≤ x := by
  by_contra hlt
  obtain ⟨k, hk⟩ := exists_narrow_eq_add w x
  have hfits := (narrow_fits w x).2
  have hpos : (0 : ℤ) < 2 ^ w := Int.pow_pos (by decide)
  have hk' : 1 ≤ k := by
    by_contra hneg
    have hle : 2 ^ w * k ≤ 0 := Int.mul_nonpos_of_nonneg_of_nonpos hpos.le (by omega)
    omega
  have hge : 2 ^ w * 1 ≤ 2 ^ w * k := Int.mul_le_mul_of_nonneg_left hk' hpos.le
  omega

/-- The upper half of the words stands for negative numbers. -/
theorem narrow_neg {w : ℕ} {x : ℤ} (hlow : 2 ^ w ≤ 2 * x) (hhigh : x < 2 ^ w) : narrow w x < 0 := by
  have hmod : x % ((2 ^ w : ℕ) : ℤ) = x := by
    push_cast
    exact Int.emod_eq_of_lt (by omega) hhigh
  unfold narrow
  rw [Int.bmod_def, hmod, if_neg]
  · push_cast
    omega
  · push_cast
    omega

/-- A number that fits is stored as a word with its residue, and read back by the conversion. -/
theorem narrow_word {w : ℕ} {x : ℤ} (h : Fits w x) : narrow w (x % 2 ^ w).toNat = x := by
  have hpos : (0 : ℤ) < 2 ^ w := Int.pow_pos (by decide)
  rw [Int.toNat_of_nonneg (Int.emod_nonneg x hpos.ne')]
  have hmod : narrow w (x % 2 ^ w) = narrow w x := by
    simpa [narrow] using Int.emod_bmod (x := x) (n := 2 ^ w)
  rw [hmod, narrow_eq h]

end Signed

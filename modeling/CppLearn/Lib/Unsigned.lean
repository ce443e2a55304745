import Mathlib.Algebra.Order.Ring.Nat
import Mathlib.Tactic.Common

/-!
# Unsigned machine arithmetic

Arithmetic modulo `2 ^ w` on natural numbers, and the conditions under which it is exact.

The operations are `Unsigned.add`, `Unsigned.sub`, and two ways of rounding up, `Unsigned.alignUp8`
and `Unsigned.alignTo`. Without overflow the results are the exact ones (`Unsigned.add_eq`,
`Unsigned.sub_eq`, `Unsigned.alignUp8_eq`).
-/

namespace Unsigned

/-- Addition of `w`-bit words. -/
def add (w a b : ℕ) : ℕ := (a + b) % 2 ^ w

/-- Subtraction of `w`-bit words. -/
def sub (w a b : ℕ) : ℕ := (a + (2 ^ w - b)) % 2 ^ w

/-- Round up to a multiple of eight: `(n + 7) & ~7` on `w`-bit words. -/
def alignUp8 (w n : ℕ) : ℕ := add w n 7 / 8 * 8

/-- The multiple of eight that `n` is rounded up to. -/
def align8 (n : ℕ) : ℕ := (n + 7) / 8 * 8

variable {w a b n : ℕ}

/-- Without overflow, sums are exact, -/
theorem add_eq (h : a + b < 2 ^ w) : add w a b = a + b := Nat.mod_eq_of_lt h

/-- differences too, -/
theorem sub_eq (hba : b ≤ a) (ha : a < 2 ^ w) : sub w a b = a - b := by
  unfold sub
  have hsum : a + (2 ^ w - b) = a - b + 2 ^ w := by omega
  rw [hsum, Nat.add_mod_right, Nat.mod_eq_of_lt (by omega)]

/-- and so is rounding up. -/
theorem alignUp8_eq (h : n + 7 < 2 ^ w) : alignUp8 w n = align8 n := by
  unfold alignUp8 align8
  rw [add_eq h]

/-- Rounding up to a multiple of eight makes a number larger, -/
theorem le_align8 (n : ℕ) : n ≤ align8 n := by
  unfold align8
  omega

/-- by less than eight. -/
theorem align8_lt (n : ℕ) : align8 n < n + 8 := by
  unfold align8
  omega

/-- Rounding up changes nothing exactly for multiples of eight. -/
theorem align8_le_iff : align8 n ≤ n ↔ 8 ∣ n := by
  unfold align8
  omega

/-- The result is a multiple of eight. -/
theorem dvd_align8 (n : ℕ) : 8 ∣ align8 n := Nat.dvd_mul_left 8 _

/-! ## Powers of two -/

/-- The multiple of `2 ^ k` that `n` is rounded up to. -/
def alignTo (k n : ℕ) : ℕ := (n + (2 ^ k - 1)) / 2 ^ k * 2 ^ k

/-- The same for other powers of two: -/
theorem le_alignTo (k n : ℕ) : n ≤ alignTo k n := by
  have hpos : 0 < 2 ^ k := Nat.two_pow_pos k
  have hmod := Nat.mod_lt (n + (2 ^ k - 1)) hpos
  have hsplit := Nat.div_add_mod' (n + (2 ^ k - 1)) (2 ^ k)
  unfold alignTo
  omega

/-- the result is a multiple. -/
theorem dvd_alignTo (k n : ℕ) : 2 ^ k ∣ alignTo k n := Nat.dvd_mul_left _ _

/-- Clearing the lowest `k` bits. -/
theorem and_not_mask {w k : ℕ} (hk : k < w) (x : BitVec w) :
    x &&& ~~~(BitVec.ofNat w (2 ^ k) - 1) = (x >>> k) <<< k := by
  have hmask : BitVec.ofNat w (2 ^ k) - 1#w = BitVec.ofNat w (2 ^ k - 1) :=
    BitVec.ofNat_sub_ofNat_of_le _ _ (Nat.one_lt_two_pow (by omega)) Nat.one_le_two_pow
  have hbit : ∀ i < w, (BitVec.ofNat w (2 ^ k - 1)).getLsbD i = decide (i < k) := by
    intro i hi
    rw [BitVec.getLsbD_ofNat, Nat.testBit_two_pow_sub_one]
    simp [hi]
  apply BitVec.eq_of_getLsbD_eq
  intro i hi
  rw [show (1 : BitVec w) = 1#w from rfl, hmask]
  rw [BitVec.getLsbD_and, BitVec.getLsbD_not, hbit i hi, BitVec.getLsbD_shiftLeft,
    BitVec.getLsbD_ushiftRight]
  by_cases hik : i < k
  · simp [hik]
  · have hsum : k + (i - k) = i := by omega
    simp [hik, hi, hsum]

/-- The mask clears the lowest bits. -/
theorem toNat_and_not_mask {w k : ℕ} (hk : k < w) (x : BitVec w) :
    (x &&& ~~~(BitVec.ofNat w (2 ^ k) - 1)).toNat = x.toNat / 2 ^ k * 2 ^ k := by
  have hlt : x.toNat / 2 ^ k * 2 ^ k < 2 ^ w := (Nat.div_mul_le_self _ _).trans_lt x.isLt
  rw [and_not_mask hk, BitVec.toNat_shiftLeft, BitVec.toNat_ushiftRight, Nat.shiftRight_eq_div_pow,
    Nat.shiftLeft_eq, Nat.mod_eq_of_lt hlt]

end Unsigned

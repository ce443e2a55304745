import CppLearn.Lib.BoundedLoop
import CppLearn.Lib.Signed
import Mathlib.Algebra.Order.Group.Unbundled.Int
import Mathlib.Algebra.Order.Ring.Abs
import Mathlib.Data.Nat.Size
import Mathlib.Tactic.Ring

/-!
# The fast power of `math.cc`

`bin_pow` squares the base once for each binary digit of the exponent, also after the last one. A
product that is no value of `int64_t` is a fault, as the program is undefined then.

The function is `binPow`, and `binPow_eq` says when it returns the power.
-/

namespace CppLearn.BinPow

open BoundedLoop

/-- The variables of `bin_pow`. -/
structure State where
  result : ℤ
  v : ℤ
  p : ℤ

/-- `if (p & 1) result *= v`. -/
def State.digit (s : State) : Except Fault ℤ :=
  if s.p % 2 = 1 then Signed.product 64 s.result s.v else .ok s.result

/-- An iteration of the loop. -/
def step (s : State) : Except Fault (State ⊕ ℤ) := do
  if s.p > 0 then
    let result ← s.digit
    .ok (.inl ⟨result, ← Signed.product 64 s.v s.v, s.p / 2⟩)
  else .ok (.inr s.result)

/-- `bin_pow`. -/
def binPow (v p : ℤ) : Except Fault ℤ :=
  iterate (fun _ => .diverged) step 64 ⟨1, v, p⟩

variable {result v : ℤ} {p k fuel : ℕ}

theorem fits_of_abs_le {a b : ℤ} (hb : Signed.Fits 64 b) (hpos : 0 ≤ b)
    (h : |a| ≤ b) : Signed.Fits 64 a := by
  obtain ⟨hlow, hhigh⟩ := abs_le.1 h
  obtain ⟨-, hmax⟩ := hb
  exact ⟨by omega, by omega⟩

/-- If the square is a value of the type, the product with a smaller number is one, too. -/
theorem product_eq (hresult : result = 1 ∨ |result| ≤ |v|) (hv : Signed.Fits 64 v)
    (hsquare : Signed.Fits 64 (v * v)) : Signed.product 64 result v = .ok (result * v) := by
  refine if_pos ?_
  rcases hresult with rfl | hle
  · rwa [one_mul]
  · refine fits_of_abs_le hsquare (mul_self_nonneg v) ?_
    rw [abs_mul, ← abs_mul_abs_self v]
    exact mul_le_mul_of_nonneg_right hle (abs_nonneg v)

/-- The digits of a number that is not zero, and of its half. -/
theorem size_eq (hp : 0 < p) : p.size = (p / 2).size + 1 := by
  have hle : ∀ n, p.size ≤ n + 1 ↔ (p / 2).size ≤ n := fun n => by
    rw [Nat.size_le, Nat.size_le, Nat.pow_succ, Nat.div_lt_iff_lt_mul Nat.zero_lt_two]
  have hpos : 0 < p.size := Nat.size_pos.2 hp
  obtain ⟨n, hn⟩ := Nat.exists_eq_succ_of_ne_zero hpos.ne'
  refine le_antisymm ((hle _).2 le_rfl) ?_
  rw [hn]
  exact Nat.succ_le_succ ((hle n).1 hn.le)

theorem pow_size (v : ℤ) (hp : 0 < p) : v ^ 2 ^ p.size = (v * v) ^ 2 ^ (p / 2).size := by
  rw [size_eq hp, Nat.pow_succ, Nat.mul_comm, pow_mul, pow_two]

/-- The half of the exponent is that of the square, and the last digit is in the result. -/
theorem mul_pow_half (result v : ℤ) (p : ℕ) :
    (if (p : ℤ) % 2 = 1 then result * v else result) * (v * v) ^ (p / 2) = result * v ^ p := by
  have hsplit := Nat.div_add_mod p 2
  rw [← pow_two, ← pow_mul]
  split_ifs with hodd
  · have hp : p = 2 * (p / 2) + 1 := by omega
    conv_rhs => rw [hp, pow_succ]
    ring
  · have hp : p = 2 * (p / 2) := by omega
    conv_rhs => rw [hp]

/-- An iteration for an exponent that is not zero. -/
theorem step_eq (hv : Signed.Fits 64 v) (hresult : result = 1 ∨ |result| ≤ |v|) (hp : 0 < p) :
    step ⟨result, v, p⟩ =
      if Signed.Fits 64 (v * v) then
        .ok (.inl ⟨if (p : ℤ) % 2 = 1 then result * v else result, v * v, (p / 2 : ℕ)⟩)
      else .error .checkFailed := by
  rw [step, if_pos (Int.natCast_pos.2 hp)]
  dsimp only
  -- a product that fits is computed if the square of the base fits, too
  by_cases hsquare : Signed.Fits 64 (v * v)
  · have hdigit : State.digit ⟨result, v, p⟩ =
        .ok (if (p : ℤ) % 2 = 1 then result * v else result) := by
      rw [State.digit]
      dsimp only
      rw [product_eq hresult hv hsquare, apply_ite Except.ok]
    rw [if_pos hsquare, hdigit, ok_bind, Signed.product, if_pos hsquare, ok_bind]
    rfl
  · rw [if_neg hsquare]
    -- the square is a fault, so it does not matter whether the digit is one as well
    have hdigit : (∃ r, State.digit ⟨result, v, p⟩ = .ok r) ∨
        State.digit ⟨result, v, p⟩ = .error .checkFailed := by
      rw [State.digit, Signed.product]
      split_ifs
      · exact .inl ⟨_, rfl⟩
      · exact .inr rfl
      · exact .inl ⟨_, rfl⟩
    rcases hdigit with ⟨r, hr⟩ | herror
    · rw [hr, ok_bind, Signed.product, if_neg hsquare]
      rfl
    · rw [herror]
      rfl

/-- The result is still 1, or it is smaller than the square. -/
theorem result_le (hresult : result = 1 ∨ |result| ≤ |v|) :
    (if (p : ℤ) % 2 = 1 then result * v else result) = 1 ∨
      |if (p : ℤ) % 2 = 1 then result * v else result| ≤ |v * v| := by
  have hself : |v| ≤ |v * v| := by
    rcases (abs_nonneg v).eq_or_lt with hzero | hpos
    · rw [abs_mul, ← hzero, mul_zero]
    · rw [abs_mul]
      exact le_mul_of_one_le_left (abs_nonneg v) hpos
  split_ifs
  · rcases hresult with rfl | hle
    · rw [one_mul]
      exact .inr hself
    · rw [abs_mul, abs_mul]
      exact .inr (mul_le_mul_of_nonneg_right hle (abs_nonneg v))
  · exact hresult.imp_right hself.trans'

/-- The loop, which ends early if one of the squares is no value of the type: then the last one is
none, either. -/
theorem iterate_eq (hv : Signed.Fits 64 v) (hresult : result = 1 ∨ |result| ≤ |v|)
    (hp : p < 2 ^ fuel) :
    iterate (fun _ => .diverged) step (fuel + 1) ⟨result, v, p⟩ =
      if Signed.Fits 64 (v ^ 2 ^ p.size) then .ok (result * v ^ p) else .error .checkFailed := by
  induction fuel generalizing result v p with
  | zero =>
    obtain rfl : p = 0 := by omega
    rw [Nat.size_zero, pow_zero, pow_one, pow_zero, mul_one, if_pos hv]
    rfl
  | succ fuel ih =>
    rcases Nat.eq_zero_or_pos p with rfl | hpos
    · rw [Nat.size_zero, pow_zero, pow_one, pow_zero, mul_one, if_pos hv]
      rfl
    · rw [iterate, step_eq hv hresult hpos, pow_size v hpos]
      by_cases hsquare : Signed.Fits 64 (v * v)
      · rw [if_pos hsquare]
        dsimp only
        rw [ih hsquare (result_le hresult) (by omega), mul_pow_half]
      · -- if the square of `v` does not fit, no higher power of it does
        rw [if_neg hsquare, if_neg]
        refine fun hfits => hsquare (fits_of_abs_le hfits (pow_nonneg (mul_self_nonneg v) _) ?_)
        rw [abs_of_nonneg (mul_self_nonneg v)]
        rcases (mul_self_nonneg v).eq_or_lt with hzero | hone
        · exact absurd (hzero ▸ by decide) hsquare
        · exact le_self_pow₀ hone (Nat.two_pow_pos _).ne'

/-- The function returns the power if and only if the power of two by which the base is raised last
is a value of the type, that is the square after the one that is used last. -/
theorem binPow_eq (v p : ℤ) (hv : Signed.Fits 64 v) (hp : Signed.Fits 64 p) :
    binPow v p =
      if Signed.Fits 64 (v ^ 2 ^ p.toNat.size) then .ok (v ^ p.toNat) else .error .checkFailed := by
  rcases lt_or_ge p 0 with hneg | hpos
  · rw [Int.toNat_of_nonpos hneg.le, Nat.size_zero, pow_zero, pow_one, pow_zero, if_pos hv, binPow,
      iterate, step, if_neg hneg.le.not_gt]
  · obtain ⟨n, rfl⟩ := Int.eq_ofNat_of_zero_le hpos
    have hlt : n < 2 ^ 63 := by
      have hmax := hp.2
      omega
    rw [Int.toNat_natCast, binPow, iterate_eq hv (.inl rfl) hlt, one_mul]

/-- The square of 2 ^ 32 is needed for no digit of the exponent 1. -/
theorem binPow_eq_one : binPow (2 ^ 32) 1 = if Signed.Fits 64 ((2 ^ 32) ^ 2 ^ (1 : ℤ).toNat.size)
    then .ok ((2 ^ 32) ^ (1 : ℤ).toNat) else .error .checkFailed :=
  binPow_eq (2 ^ 32) 1 (by decide) (by decide)

end CppLearn.BinPow

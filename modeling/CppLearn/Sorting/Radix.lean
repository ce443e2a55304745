import CppLearn.Sorting.Counting
import Mathlib.Tactic.Ring

/-!
# `radix_sort`

Each pass of `radix_sort` sorts by one decimal digit and is stable. So after the passes for the
digits 0, ..., d - 1 the elements are sorted by their residues modulo 10 ^ d. By default, there are
as many passes as the largest element has digits.

`digit` is a decimal digit of a number. One pass is `digitSort_spec`, the passes for the first
digits are `digitSorts_spec`, and the procedure is `radixSort_sorts`.
-/

namespace CppLearn.Sorting

open BoundedLoop CheckedVector Signed

variable {v w : List ℤ} {x y : ℤ} {d i : ℕ}

/-- The decimal digit number `i`, from the right. -/
def digit (i : ℕ) (x : ℤ) : ℕ := (x / 10 ^ i % 10).toNat

/-- The digit at a place by divisions, -/
theorem natCast_digit (i : ℕ) (x : ℤ) : (digit i x : ℤ) = x / 10 ^ i % 10 :=
  Int.toNat_of_nonneg (Int.emod_nonneg _ (by decide))

/-- which is less than ten. -/
theorem digit_lt (i : ℕ) (x : ℤ) : digit i x < 10 := by
  have hlt := Int.emod_lt_of_pos (x / 10 ^ i) (show (0 : ℤ) < 10 by decide)
  rw [← natCast_digit] at hlt
  omega

/-- A number is compared by its first digits: by the last one of these, and then by the others. -/
theorem emod_pow_succ_le_iff (i : ℕ) (x y : ℤ) :
    x % 10 ^ (i + 1) ≤ y % 10 ^ (i + 1) ↔
      digit i x < digit i y ∨ Alike (digit i x) (digit i y) ∧ x % 10 ^ i ≤ y % 10 ^ i := by
  have hpos : (0 : ℤ) < 10 ^ i := Int.pow_pos (by decide)
  have hsplit : ∀ x : ℤ, x % 10 ^ (i + 1) = 10 ^ i * digit i x + x % 10 ^ i := by
    intro x
    rw [natCast_digit, Int.emod_def, Int.emod_def, Int.emod_def, pow_succ,
      ← Int.ediv_ediv_of_nonneg hpos.le]
    ring
  have hlow : ∀ x : ℤ, 0 ≤ x % 10 ^ i ∧ x % 10 ^ i < 10 ^ i := fun x =>
    ⟨Int.emod_nonneg x hpos.ne', Int.emod_lt_of_pos x hpos⟩
  -- a larger digit outweighs what follows
  have hlarge : ∀ {x y : ℤ}, digit i x < digit i y → x % 10 ^ (i + 1) < y % 10 ^ (i + 1) := by
    intro x y hlt
    have hmul : (10 : ℤ) ^ i * (digit i x + 1) ≤ 10 ^ i * digit i y :=
      Int.mul_le_mul_of_nonneg_left (by omega) hpos.le
    rw [hsplit x, hsplit y]
    have hx := hlow x
    have hy := hlow y
    rw [Int.mul_add, Int.mul_one] at hmul
    omega
  rw [alike_iff_eq]
  rcases lt_trichotomy (digit i x) (digit i y) with hlt | heq | hgt
  · simp [hlt, (hlarge hlt).le]
  · rw [hsplit x, hsplit y, heq]
    simp
  · simp [hgt.not_gt, hgt.ne', hlarge hgt]

/-- The powers of ten that are used fit in `int32_t`. -/
theorem quickPow_ten : ∀ i < 10, quickPow 10 (i : ℕ) = .ok (10 ^ i) := by
  decide

/-- The powers of ten that are needed fit. -/
theorem narrow_ten_pow : ∀ i < 10, narrow 32 (10 ^ i) = 10 ^ i := by
  decide

/-- The digit that the code computes. -/
theorem digitAt_eq (hi : i < 10) (hx : 0 ≤ x) : digitAt i x = .ok (digit i x : ℤ) := by
  have hpos : (10 : ℤ) ^ i ≠ 0 := (Int.pow_pos (by decide)).ne'
  have hdiv : (x.tdiv (10 ^ i)).tmod 10 = digit i x := by
    rw [Int.tdiv_eq_ediv_of_nonneg hx,
      Int.tmod_eq_emod_of_nonneg (Int.ediv_nonneg hx (Int.pow_pos (by decide)).le), natCast_digit]
  have hval := narrow_ten_pow i hi
  rw [digitAt]
  split_ifs with hzero
  · rw [Int.natCast_eq_zero.1 hzero, pow_zero] at hval hdiv
    rw [ok_bind]
    dsimp only
    rw [hval, if_neg (by decide), hdiv, Int.natCast_eq_zero.1 hzero]
  · rw [quickPow_ten i hi, ok_bind]
    dsimp only
    rw [hval, if_neg hpos, hdiv]

/-! ## The passes -/

/-- One pass. -/
theorem digitSort_spec (hi : i < 10) (hv : ∀ x ∈ v, 0 ≤ x) (hlen : v.length < 2 ^ 31) :
    ∃ w, digitSort i v = .ok w ∧ StablySorted (digit i) v w := by
  have hkey : ∀ x ∈ v, digitAt i x = .ok (digit i x : ℤ) := fun x hx => digitAt_eq hi (hv x hx)
  have hK : ∀ x ∈ v, digit i x < 11 := fun x _ => (digit_lt i x).trans (by decide)
  obtain ⟨count, hcount, hsize, hget⟩ := countKeys_spec hkey hK hlen
  obtain ⟨count', hcount', hsize', hget'⟩ := addPreviouses_spec (m := 11) (by decide) hsize.ge hlen
    hget
  obtain ⟨s, hs, hv', -⟩ := placeElements_spec hkey hK hlen (hsize'.trans hsize).ge hget'
  refine ⟨s.v, ?_, hv' ▸ stablySorted_distribute hK⟩
  have hfirst := signedLoop_of_lt 32 Fault.diverged (countKey (digitAt i) v)
    (List.replicate 11 0) (by decide) (by decide) (Nat.zero_le _) hlen
  rw [Nat.cast_zero, hcount] at hfirst
  unfold digitSort
  dsimp only
  rw [hfirst, ok_bind, hcount', ok_bind, lastPosition_eq hlen, hs, ok_bind]

/-- The passes for the first `d` digits. -/
theorem digitSorts_spec (hd : d ≤ 10) (hv : ∀ x ∈ v, 0 ≤ x) (hlen : v.length < 2 ^ 31) :
    ∃ w, forLoop 0 d (fun i => digitSort i) v = .ok w ∧
      StablySorted (fun x => x % 10 ^ d) v w := by
  -- modulo 1 all elements are alike, and each pass adds a digit in front of the others
  refine forLoop_spec (I := fun i w => StablySorted (fun x => x % 10 ^ i) v w) ?_ (Nat.zero_le d) ?_
  · rintro i w - hi hsorted
    obtain ⟨u, hu, hsorted'⟩ := digitSort_spec (v := w) (hi.trans_le hd)
      (fun x hx => hv x (hsorted.perm.mem_iff.1 hx)) (by rwa [hsorted.perm.length_eq])
    exact ⟨u, hu, hsorted.andThen hsorted' (emod_pow_succ_le_iff i)⟩
  · refine ⟨.refl v, List.pairwise_of_forall fun x y => ?_, .refl _ v⟩
    rw [pow_zero, Int.emod_one, Int.emod_one]

/-! ## The number of digits -/

/-- The largest element, or the value at first. -/
theorem foldl_max_le_iff {a b : ℤ} : v.foldl max a ≤ b ↔ a ≤ b ∧ ∀ x ∈ v, x ≤ b := by
  induction v generalizing a with
  | nil => simp
  | cons x v ih => rw [List.foldl_cons, ih, max_le_iff, List.forall_mem_cons, and_assoc]

/-- All elements have at most as many digits as the number that is returned. -/
theorem digitCount_spec (hint : ∀ x ∈ v, Fits 32 x) :
    ∃ d : ℕ, d ≤ 10 ∧ digitCount v = .ok (d : ℤ) ∧ ∀ x ∈ v, x < 10 ^ d := by
  obtain ⟨hpos, hle⟩ := foldl_max_le_iff.1 (le_refl (v.foldl max 0))
  have hmax : v.foldl max 0 ≤ 2 ^ 31 - 1 :=
    foldl_max_le_iff.2 ⟨by decide, fun x hx => by
      have hx' := (hint x hx).2
      omega⟩
  -- the largest element is divided by ten until nothing is left of it
  obtain ⟨s, hrun, d, hd, hsd, hlt⟩ : ∃ s : ℤ × ℤ,
      whileLoop (fun _ => Fault.diverged) (fun (s : ℤ × ℤ) => .ok (decide (s.1 ≠ 0)))
        (fun s => .ok (s.1.tdiv 10, narrow 32 (s.2 + 1))) ((v.foldl max 0).toNat + 1)
        (v.foldl max 0, 0) = .ok s ∧ ∃ d : ℕ, d ≤ 10 ∧ s.2 = d ∧ v.foldl max 0 < 10 ^ d := by
    refine whileLoop_spec (I := fun n s => ∃ d : ℕ, d ≤ 10 ∧ s = (v.foldl max 0 / 10 ^ d, (d : ℤ)) ∧
      n = (v.foldl max 0 / 10 ^ d).toNat) ?_ (fun _ _ _ => ⟨_, rfl⟩) ?_
      ⟨0, by decide, by rw [pow_zero, Int.ediv_one, Nat.cast_zero], by rw [pow_zero, Int.ediv_one]⟩
      (Nat.lt_succ_self _)
    · rintro n _ ⟨d, hd, rfl, rfl⟩ hexit
      refine ⟨d, hd, rfl, ?_⟩
      have hzero : v.foldl max 0 / 10 ^ d = 0 := by simpa using hexit
      have hone : ¬1 ≤ v.foldl max 0 / 10 ^ d := by omega
      rw [Int.le_ediv_iff_mul_le (Int.pow_pos (by decide)), one_mul] at hone
      exact not_le.1 hone
    · rintro n _ ⟨d, hd, rfl, rfl⟩ hon
      have hne : v.foldl max 0 / 10 ^ d ≠ 0 := by simpa using hon
      have hge : 0 ≤ v.foldl max 0 / 10 ^ d :=
        Int.ediv_nonneg hpos (Int.pow_pos (by decide)).le
      -- no element has more than ten digits
      have hlt : d < 10 := by
        refine hd.lt_of_ne fun h => hne ?_
        rw [h]
        exact Int.ediv_eq_zero_of_lt hpos (by omega)
      have hdiv : (v.foldl max 0 / 10 ^ d).tdiv 10 = v.foldl max 0 / 10 ^ (d + 1) := by
        rw [Int.tdiv_eq_ediv_of_nonneg hge,
          Int.ediv_ediv_of_nonneg (Int.pow_pos (by decide)).le, pow_succ]
      refine ⟨_, (v.foldl max 0 / 10 ^ (d + 1)).toNat, rfl, ?_, d + 1, hlt, ?_, rfl⟩
      · rw [← hdiv, Int.tdiv_eq_ediv_of_nonneg hge]
        omega
      · rw [hdiv, show (d : ℤ) + 1 = (d + 1 : ℕ) by simp, narrow_natCast (by omega)]
  refine ⟨d, hd, ?_, fun x hx => (hle x hx).trans_lt hlt⟩
  exact bind_eq_ok.2 ⟨s, hrun, congrArg Except.ok hsd⟩

/-! ## The procedure -/

/-- `radix_sort` sorts by default, and with an explicit number of digits it is a stable sort by the
residues. -/
theorem radixSort_sorts (v : List ℤ) (hv : ∀ x ∈ v, 0 ≤ x) (hint : ∀ x ∈ v, Fits 32 x)
    (hlen : v.length < 2 ^ 31) :
    (∃ w, radixSort v 0 = .ok w ∧ w.Perm v ∧ w.Pairwise (· ≤ ·)) ∧
    ∀ d : ℕ, 1 ≤ d → d ≤ 10 →
      ∃ w, radixSort v d = .ok w ∧ StablySorted (fun x => x % 10 ^ d) v w := by
  constructor
  · obtain ⟨d, hd, hcount, hlt⟩ := digitCount_spec hint
    obtain ⟨w, hw, hsorted⟩ := digitSorts_spec hd hv hlen
    refine ⟨w, ?_, hsorted.perm, hsorted.sorted.imp_of_mem fun {x y} hx hy hxy => ?_⟩
    · rw [radixSort, if_pos rfl, hcount, ok_bind]
      exact hw
    -- all elements are their own residues
    · rw [hsorted.perm.mem_iff] at hx hy
      rwa [Int.emod_eq_of_lt (hv x hx) (hlt x hx), Int.emod_eq_of_lt (hv y hy) (hlt y hy)] at hxy
  · intro d hpos hd
    obtain ⟨w, hw, hsorted⟩ := digitSorts_spec hd hv hlen
    refine ⟨w, ?_, hsorted⟩
    rw [radixSort, if_neg (by omega), ok_bind]
    exact hw

/-- Four numbers with up to three digits. -/
theorem radixSort_sorts_four :
    (∃ w, radixSort [21, 3, 11, 100] 0 = .ok w ∧ w.Perm [21, 3, 11, 100] ∧ w.Pairwise (· ≤ ·)) ∧
    ∀ d : ℕ, 1 ≤ d → d ≤ 10 → ∃ w, radixSort [21, 3, 11, 100] d = .ok w ∧
      StablySorted (fun x => x % 10 ^ d) [21, 3, 11, 100] w :=
  radixSort_sorts [21, 3, 11, 100] (by decide) (by decide) (by decide)

/-- No element is moved if the last position is converted to a negative number. -/
theorem digitSort_of_neg (h : narrow 32 ((v.length : ℤ) - 1) < 0) (hrun : digitSort i v = .ok w) :
    w = v := by
  unfold digitSort at hrun
  dsimp only at hrun
  obtain ⟨count, -, hrun⟩ := bind_eq_ok.1 hrun
  obtain ⟨count', -, hrun⟩ := bind_eq_ok.1 hrun
  rw [forDown_of_neg h] at hrun
  exact (Except.ok.inj hrun).symm

/-- The last position is converted to a negative number. -/
theorem radixSort_overflow :
    ¬∃ w, radixSort (1 :: List.replicate (2 ^ 31) 0) (1 : ℕ) = .ok w ∧
      StablySorted (fun x => x % 10 ^ 1) (1 :: List.replicate (2 ^ 31) 0) w := by
  rintro ⟨w, hrun, hsorted⟩
  rw [radixSort, if_neg (by decide), ok_bind] at hrun
  obtain ⟨u, hu, hrun⟩ := bind_eq_ok.1 ((forLoop_of_lt Nat.zero_lt_one).symm.trans hrun)
  obtain rfl := Except.ok.inj hrun
  have hsame := digitSort_of_neg (i := 0) (lastPosition_neg 1 0) hu
  exact absurd (hsame ▸ hsorted.sorted)
    (not_pairwise_cons_replicate (by decide) (Nat.two_pow_pos 31).ne')

end CppLearn.Sorting

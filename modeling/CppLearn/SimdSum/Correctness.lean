import CppLearn.Lib.IndexedZip
import CppLearn.SimdSum.Defs

/-!
# What the sums compute

The kernels tile any number of elements exactly: `sum_add_kernel<N>` adds `N` consecutive elements,
each of them once. `SumImpl<float>` calls the kernel for 16 elements as often as there are blocks,
but always at the beginning of the vectors. So vectors with fewer than 16 elements are read beyond
their ends, and with more elements those of the first block are added once for each block, and the
others not at all. The result is the sum for empty vectors and for those with 16 elements, and by
chance for others, such as zeros.

The kernels are `sumAddKernel_eq`, and the general implementation is `sum_general`. For the one for
`float`, `addFirst` adds the elements of the first block several times, and this is what it does
(`sumImplFloat_eq`), unless it does not end (`sumImplFloat_diverges`) or the vectors are short
(`sumImplFloat_short`). The vectors for which it computes the sum are in `sum_float_iff`.
-/

namespace CppLearn.SimdSum

open BoundedLoop CheckedVector IndexedZip Signed

variable {T : Type} {op : T → T → T} {dst src : List T} {p : ℕ}

/-- The elements from `lo` to `hi` are added. -/
def addRange (op : T → T → T) (lo hi : ℕ) (dst src : List T) : List T :=
  zipIndexed (fun i x y => if lo ≤ i ∧ i < hi then op x y else x) dst src

/-- Adding a part of one list to another keeps the length. -/
theorem length_addRange (op : T → T → T) (lo hi : ℕ) (hlen : dst.length = src.length) :
    (addRange op lo hi dst src).length = dst.length := length_zipIndexed _ hlen

/-- An empty part changes nothing. -/
theorem addRange_self (op : T → T → T) (lo : ℕ) (hlen : dst.length = src.length) :
    addRange op lo lo dst src = dst := by
  conv_rhs => rw [← zipIndexed_fst hlen]
  exact (zipIndexed_eq_iff hlen).2 fun i _ _ => if_neg (by omega)

/-- Two ranges next to each other. -/
theorem addRange_addRange {lo mid hi : ℕ} (hlo : lo ≤ mid) (hhi : mid ≤ hi)
    (hlen : dst.length = src.length) :
    addRange op mid hi (addRange op lo mid dst src) src = addRange op lo hi dst src := by
  unfold addRange
  rw [zipIndexed_zipIndexed _ _ hlen, zipIndexed_eq_iff hlen]
  intro i _ _
  rcases lt_or_ge i mid with hi | hi
  · rw [if_neg (by omega)]
    exact if_congr (by omega) rfl rfl
  · have hfirst : ¬(lo ≤ i ∧ i < mid) := by omega
    rw [if_neg hfirst]
    exact if_congr (by omega) rfl rfl

/-- The sums are inside the part, the old elements outside. -/
theorem getElem_addRange {lo hi i : ℕ} (h : i < (addRange op lo hi dst src).length)
    (hx : i < dst.length) (hy : i < src.length) :
    (addRange op lo hi dst src)[i] = if lo ≤ i ∧ i < hi then op dst[i] src[i] else dst[i] :=
  getElem_zipIndexed _ hx hy

/-! ## Kernels -/

/-- All lanes of a register. -/
theorem addLanes_eq (lanes : ℕ) (hlen : dst.length = src.length) :
    addLanes op lanes dst src p =
      if p + lanes ≤ dst.length then .ok (addRange op p (p + lanes) dst src)
      else .error .invalidAccess := by
  unfold addLanes loadu storeu
  rw [← hlen]
  split_ifs with hfit
  · have hsum : (List.zipWith op ((dst.drop p).take lanes) ((src.drop p).take lanes)).length =
        lanes := by
      simp only [List.length_zipWith, List.length_take, List.length_drop]
      omega
    rw [ok_bind, ok_bind, hsum, if_pos hfit]
    refine congrArg _ (List.ext_getElem ?_ fun i _ hi => ?_)
    · rw [length_addRange _ _ _ hlen]
      simp only [List.length_append, List.length_take, List.length_drop, hsum]
      omega
    · rw [length_addRange _ _ _ hlen] at hi
      rw [getElem_addRange _ hi (hlen ▸ hi)]
      have hp : min p dst.length = p := by omega
      -- before the lanes, in the lanes, and behind them
      by_cases hlow : i < p
      · rw [if_neg (by omega), List.getElem_append_left (by simp; omega),
          List.getElem_append_left (by simp; omega), List.getElem_take]
      · by_cases hhigh : i < p + lanes
        · rw [if_pos ⟨by omega, hhigh⟩, List.getElem_append_left (by simp; omega),
            List.getElem_append_right (by simp; omega)]
          simp only [List.length_take, hp, List.getElem_zipWith, List.getElem_take,
            List.getElem_drop, Nat.add_sub_cancel' (Nat.le_of_not_lt hlow)]
        · rw [if_neg (by omega), List.getElem_append_right (by simp; omega), List.getElem_drop]
          simp only [List.length_append, List.length_take, hp, hsum,
            Nat.add_sub_cancel' (Nat.le_of_not_lt hhigh)]
  · rfl

/-- One element. -/
theorem addOne_eq (hlen : dst.length = src.length) :
    addOne op dst src p =
      if p + 1 ≤ dst.length then .ok (addRange op p (p + 1) dst src)
      else .error .invalidAccess := by
  unfold addOne
  split_ifs with hfit
  · have hp : p < dst.length := hfit
    have hp' : p < src.length := hlen ▸ hfit
    rw [read_eq hp, ok_bind, read_eq hp', ok_bind, write_ok hp]
    refine congrArg _ (List.ext_getElem ?_ fun i _ hi => ?_)
    · rw [length_addRange _ _ _ hlen, List.length_set]
    · rw [length_addRange _ _ _ hlen] at hi
      rw [getElem_addRange _ hi (hlen ▸ hi), List.getElem_set]
      by_cases hip : p = i
      · subst hip
        rw [if_pos rfl, if_pos ⟨le_rfl, Nat.lt_succ_self p⟩]
      · rw [if_neg hip, if_neg (by omega)]
  · have hread : read dst (p : ℕ) = .error .invalidAccess := by
      unfold CheckedVector.read
      rw [if_pos (Int.natCast_nonneg p), Int.toNat_natCast,
        List.getElem?_eq_none (Nat.le_of_not_lt hfit)]
    rw [hread]
    rfl

/-- A kernel for some elements, and one for those behind them. -/
theorem bind_addRange {first : Except Fault (List T)} {next : List T → Except Fault (List T)}
    {m n : ℕ} (hlen : dst.length = src.length)
    (hfirst : first = if p + m ≤ dst.length then .ok (addRange op p (p + m) dst src)
      else .error .invalidAccess)
    (hnext : ∀ dst', dst'.length = src.length → next dst' =
      if p + m + n ≤ dst'.length then .ok (addRange op (p + m) (p + m + n) dst' src)
      else .error .invalidAccess) :
    (first >>= next) = if p + (m + n) ≤ dst.length then .ok (addRange op p (p + (m + n)) dst src)
      else .error .invalidAccess := by
  rw [hfirst, ← Nat.add_assoc]
  split_ifs with hm hn hn
  · rw [ok_bind, hnext _ ((length_addRange _ _ _ hlen).trans hlen), length_addRange _ _ _ hlen,
      if_pos hn, addRange_addRange (by omega) (by omega) hlen]
  · rw [ok_bind, hnext _ ((length_addRange _ _ _ hlen).trans hlen), length_addRange _ _ _ hlen,
      if_neg hn]
  · omega
  · rfl

/-- `sum_add_kernel<N>` adds `N` elements, each of them once, if there are so many. -/
theorem sumAddKernel_eq (op : T → T → T) (N : ℕ) {dst src : List T} {p : ℕ}
    (hlen : dst.length = src.length) (hp : N = 0 → p ≤ dst.length) :
    sumAddKernel op N dst src p =
      if p + N ≤ dst.length then .ok (addRange op p (p + N) dst src)
      else .error .invalidAccess := by
  induction N using Nat.strong_induction_on generalizing dst p with
  | _ N ih =>
    unfold sumAddKernel
    by_cases h0 : N = 0
    · subst h0
      rw [if_pos rfl, Nat.add_zero, if_pos (hp rfl), addRange_self _ _ hlen]
    rw [if_neg h0]
    by_cases h1 : N = 1
    · rw [if_pos h1, h1, addOne_eq hlen]
    rw [if_neg h1]
    by_cases h4 : N = 4
    · rw [if_pos h4, h4, addLanes_eq 4 hlen]
    rw [if_neg h4]
    by_cases h8 : N = 8
    · rw [if_pos h8, h8, addLanes_eq 8 hlen]
    rw [if_neg h8]
    -- a first block of eight, four or one, and the rest, which is not empty
    by_cases hle8 : 8 ≤ N
    · rw [if_pos hle8, ← Nat.add_sub_of_le hle8, Nat.add_sub_cancel_left]
      exact bind_addRange hlen (addLanes_eq 8 hlen) fun _ hlen' =>
        ih (N - 8) (by omega) hlen' (by omega)
    rw [if_neg hle8]
    by_cases hle4 : 4 ≤ N
    · rw [if_pos hle4, ← Nat.add_sub_of_le hle4, Nat.add_sub_cancel_left]
      exact bind_addRange hlen (addLanes_eq 4 hlen) fun _ hlen' =>
        ih (N - 4) (by omega) hlen' (by omega)
    · have hle1 : 1 ≤ N := by omega
      rw [if_neg hle4, ← Nat.add_sub_of_le hle1, Nat.add_sub_cancel_left]
      exact bind_addRange hlen (addOne_eq hlen) fun _ hlen' =>
        ih (N - 1) (by omega) hlen' (by omega)

/-- A block of 16 elements. -/
theorem sumKernelN_eq (hlen : dst.length = src.length) :
    sumKernelN op 16 dst src = if 16 ≤ dst.length then .ok (addRange op 0 16 dst src)
      else .error .invalidAccess := by
  unfold sumKernelN
  rw [if_pos (by decide)]
  exact (sumAddKernel_eq op 16 hlen (by omega)).trans (by rw [Nat.zero_add])

/-! ## The general implementation -/

/-- The general implementation adds each element once. -/
theorem sumImpl_eq (hlen : dst.length = src.length) (hsize : dst.length < 2 ^ 31) :
    sumImpl op dst src dst.length = .ok (List.zipWith op dst src) := by
  have hcast : ((dst.length : ℤ) % 2 ^ 64).toNat = dst.length := by omega
  unfold sumImpl
  rw [hcast]
  -- the elements before the counter have been added
  have hstep : ∀ i dst', 0 ≤ i → i < dst.length → dst' = addRange op 0 i dst src →
      ∃ s', addOne op dst' src i = .ok s' ∧ s' = addRange op 0 (i + 1) dst src := by
    rintro i _ - hi rfl
    have hlen' := length_addRange op 0 i hlen
    refine ⟨_, ?_, rfl⟩
    rw [addOne_eq (hlen'.trans hlen), hlen', if_pos (Nat.succ_le_of_lt hi),
      addRange_addRange (Nat.zero_le i) (Nat.le_succ i) hlen]
  obtain ⟨_, hrun, rfl⟩ := forLoop_spec hstep (Nat.zero_le _) (addRange_self op 0 hlen).symm
  rw [hrun, ← zipIndexed_const op hlen]
  refine congrArg _ ((zipIndexed_eq_iff hlen).2 fun i hi _ => if_pos ⟨Nat.zero_le i, hi⟩)

/-- `Sum`, for a type without an implementation of its own. -/
theorem sum_general (hlen : dst.length = src.length) (hsize : dst.length < 2 ^ 31) :
    sum (sumImpl op) dst src = .ok (List.zipWith op dst src) := by
  rw [sum, if_pos hlen, narrow_natCast (by omega), ← hlen]
  exact sumImpl_eq hlen hsize

/-! ## The implementation for `float` -/

/-- The elements of the first block are added `k` times. -/
def addFirst (op : T → T → T) (k : ℕ) (dst src : List T) : List T :=
  zipIndexed (fun i x y => if i < 16 then (fun z => op z y)^[k] x else x) dst src

/-- The same for the first elements: the length, -/
theorem length_addFirst (op : T → T → T) (k : ℕ) (hlen : dst.length = src.length) :
    (addFirst op k dst src).length = dst.length := length_zipIndexed _ hlen

/-- and no elements at all. -/
theorem addFirst_zero (op : T → T → T) (hlen : dst.length = src.length) :
    addFirst op 0 dst src = dst := by
  conv_rhs => rw [← zipIndexed_fst hlen]
  exact (zipIndexed_eq_iff hlen).2 fun i _ _ => ite_self _

/-- Once more. -/
theorem addRange_addFirst (k : ℕ) (hlen : dst.length = src.length) :
    addRange op 0 16 (addFirst op k dst src) src = addFirst op (k + 1) dst src := by
  unfold addRange addFirst
  rw [zipIndexed_zipIndexed _ _ hlen, zipIndexed_eq_iff hlen]
  intro i _ _
  by_cases hi : i < 16
  · rw [if_pos ⟨Nat.zero_le i, hi⟩, if_pos hi, if_pos hi, Function.iterate_succ_apply']
  · rw [if_neg (by omega), if_neg hi, if_neg hi]

/-- The loop goes on while elements are left. -/
theorem floatCond_of_lt {size : ℤ} {s : List T × ℤ} (h : s.2 < size) :
    floatCond size s = .ok true := congrArg _ (decide_eq_true h)

/-- An iteration, when there are 16 elements. -/
theorem floatBody_addFirst (k : ℕ) (i : ℤ) (hlen : dst.length = src.length)
    (hle : 16 ≤ dst.length) :
    floatBody op src (addFirst op k dst src, i) =
      .ok (addFirst op (k + 1) dst src, narrow 32 (i + 16)) := by
  have hlen' := length_addFirst op k hlen
  rw [floatBody, sumKernelN_eq (hlen'.trans hlen), hlen', if_pos hle, addRange_addFirst k hlen]
  rfl

/-- The number of iterations is the number of blocks that begin before `size`. -/
def iterations (size : ℤ) : ℕ := ((size + 15) / 16).toNat

/-- The elements of the first block are added in each iteration. -/
theorem sumImplFloat_eq {size : ℤ} (hlen : dst.length = src.length) (hle : 16 ≤ dst.length)
    (hsize : size ≤ dst.length) (hmax : size ≤ 2 ^ 31 - 16) :
    sumImplFloat op dst src size = .ok (addFirst op (iterations size) dst src) := by
  have hsteps : ∀ k ≤ iterations size, Steps (floatCond size) (floatBody op src) k (dst, 0)
      (addFirst op k dst src, ((16 * k : ℕ) : ℤ)) := by
    unfold iterations
    intro k hk
    induction k with
    | zero =>
      rw [addFirst_zero op hlen]
      exact .refl _
    | succ k ih =>
      have hlt : ((16 * k : ℕ) : ℤ) < size := by omega
      -- the counter is an `int`, which does not wrap up to the end of the vector
      refine (ih (by omega)).snoc (floatCond_of_lt hlt) ?_
      have hnext : narrow 32 (((16 * k : ℕ) : ℤ) + 16) = ((16 * (k + 1) : ℕ) : ℤ) := by
        rw [← narrow_natCast (w := 32) (n := 16 * (k + 1)) (by omega)]
        rfl
      rw [floatBody_addFirst k _ hlen hle, hnext]
  -- the loop ends with the first multiple of 16 that is not below the size
  have hexit : ¬((16 * iterations size : ℕ) : ℤ) < size := by
    unfold iterations
    omega
  have hfuel : iterations size < dst.length + 1 := by
    unfold iterations
    omega
  exact bind_eq_ok.2 ⟨_, (hsteps _ le_rfl).whileLoop_exit
    (congrArg _ (decide_eq_false hexit)) hfuel, rfl⟩

/-- Close to the largest size, the counter wraps around, and the loop goes on for ever. -/
theorem sumImplFloat_diverges {size : ℤ} (hlen : dst.length = src.length) (hle : 16 ≤ dst.length)
    (hmax : 2 ^ 31 - 16 < size) : sumImplFloat op dst src size = .error .diverged := by
  -- the counter stays a multiple of 16, and the largest of these is below the size
  have hstep : ∀ s : List T × ℤ, (∃ k, s.1 = addFirst op k dst src) ∧ 16 ∣ s.2 ∧ s.2 < 2 ^ 31 →
      ∃ s', floatBody op src s = .ok s' ∧
        (∃ k, s'.1 = addFirst op k dst src) ∧ 16 ∣ s'.2 ∧ s'.2 < 2 ^ 31 := by
    rintro ⟨_, i⟩ ⟨⟨k, rfl⟩, hdvd, hlt⟩
    refine ⟨_, floatBody_addFirst k i hlen hle, ⟨k + 1, rfl⟩, ?_, ?_⟩
    · obtain ⟨q, hq⟩ := exists_narrow_eq_add 32 (i + 16)
      dsimp only at hdvd ⊢
      omega
    · have hfits := (narrow_fits 32 (i + 16)).2
      dsimp only
      omega
  have hstart : (∃ k, dst = addFirst op k dst src) ∧ (16 : ℤ) ∣ 0 ∧ (0 : ℤ) < 2 ^ 31 :=
    ⟨⟨0, (addFirst_zero op hlen).symm⟩, Int.dvd_zero 16, by omega⟩
  have hloop : ∃ _ : List T × ℤ, whileLoop (fun _ => Fault.diverged) (floatCond size)
      (floatBody op src) (dst.length + 1) (dst, 0) = .error .diverged :=
    whileLoop_diverges (fun s hs => floatCond_of_lt (show s.2 < size by omega)) hstep _ hstart
  obtain ⟨_, hrun⟩ := hloop
  rw [sumImplFloat, hrun]
  rfl

/-- Fewer than 16 elements, but not none, are read beyond their end. -/
theorem sumImplFloat_short {size : ℤ} (hlen : dst.length = src.length) (hlt : dst.length < 16)
    (hsize : 0 < size) : sumImplFloat op dst src size = .error .invalidAccess := by
  have hbody : floatBody op src (dst, 0) = .error .invalidAccess := by
    rw [floatBody, sumKernelN_eq hlen, if_neg (by omega)]
    rfl
  rw [sumImplFloat, whileLoop_error (floatCond_of_lt hsize) hbody (Nat.succ_pos _)]
  rfl

/-- `Sum` for `float` computes the sum of no elements and of 16 elements. For other numbers of
elements it does so if and only if there are more than 16, the counter does not wrap around, adding
an element of the first block once for each block is the same as adding it once, and the other
elements do not change when they are added. -/
theorem sum_float_iff (op : T → T → T) (dst src : List T) (hlen : dst.length = src.length) :
    sum (sumImplFloat op) dst src = .ok (List.zipWith op dst src) ↔
      dst.length = 0 ∨ dst.length = 16 ∨
        16 < dst.length ∧ narrow 32 dst.length ≤ 2 ^ 31 - 16 ∧
          ∀ i (hd : i < dst.length) (hs : i < src.length),
            (if i < 16 then (fun x => op x src[i])^[iterations (narrow 32 dst.length)] dst[i]
              else dst[i]) = op dst[i] src[i] := by
  have hsum : sum (sumImplFloat op) dst src = sumImplFloat op dst src (narrow 32 dst.length) := by
    rw [sum, if_pos hlen, hlen]
  rw [hsum]
  rcases lt_or_ge dst.length 16 with hlt | hle
  · have hsize : narrow 32 dst.length = dst.length := narrow_natCast (by omega)
    by_cases hzero : dst.length = 0
    · obtain rfl := List.eq_nil_of_length_eq_zero hzero
      obtain rfl := List.eq_nil_of_length_eq_zero hlen.symm
      have hrun : sumImplFloat op [] [] 0 = .ok [] := rfl
      rw [hsize]
      exact iff_of_true hrun (.inl rfl)
    · rw [hsize, sumImplFloat_short hlen hlt (by omega)]
      exact iff_of_false (by simp) (by omega)
  rcases le_or_gt (narrow 32 dst.length) (2 ^ 31 - 16) with hmax | hmax
  · rw [sumImplFloat_eq hlen hle (narrow_le (Int.natCast_nonneg _)) hmax, Except.ok.injEq,
      ← zipIndexed_const op hlen, addFirst, zipIndexed_eq_iff hlen]
    constructor
    · intro h
      by_cases hone : dst.length = 16
      · exact .inr (.inl hone)
      · exact .inr (.inr ⟨by omega, hmax, h⟩)
    · rintro (hzero | hone | ⟨-, -, h⟩)
      · omega
      · -- one block, which is added once
        have hiter : iterations (narrow 32 dst.length) = 1 := by rw [hone]; decide
        intro i hi _
        rw [if_pos (by omega), hiter]
        rfl
      · exact h
  · rw [sumImplFloat_diverges hlen hle hmax]
    refine iff_of_false (by simp) ?_
    rintro (hzero | hone | ⟨-, hmax', -⟩)
    · omega
    · rw [hone] at hmax
      exact absurd hmax (by decide)
    · omega

/-- A second block that does not change when it is added. -/
theorem sum_float_iff_zeros :
    sum (sumImplFloat (· + ·)) (List.replicate 17 1) (List.replicate 17 0) =
      .ok (List.replicate 17 1) :=
  (sum_float_iff (· + ·) (List.replicate 17 1) (List.replicate 17 0) rfl).2
    (.inr (.inr ⟨by decide, by decide, by decide⟩))

/-- Ten elements are too few. -/
theorem sum_float_ten :
    sum (sumImplFloat (· + ·)) (List.replicate 10 3) (List.replicate 10 5) =
        .error .invalidAccess ∧
      sum (sumImplFloat (· + ·)) (List.replicate 10 3) (List.replicate 10 5) ≠
        .ok (List.zipWith (· + ·) (List.replicate 10 3) (List.replicate 10 5)) := by
  have hrun : sum (sumImplFloat (· + ·)) (List.replicate 10 3) (List.replicate 10 5) =
      .error .invalidAccess := sumImplFloat_short rfl (by decide) (by decide)
  exact ⟨hrun, by rw [hrun]; simp⟩

end CppLearn.SimdSum

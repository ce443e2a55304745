import CppLearn.StringHash.Loops
import Mathlib.Order.Bounds.Defs

/-!
# Repeated substrings

With `start = 0` the second loop computes the hashes of all windows of the string, by their last
positions. It stops at the first window whose hash is that of an earlier window. This is so for the
second of two equal windows, but windows with the same hash can be different.

`windowTo` is the window that ends at a position, and `hashTo` its hash. `stringHash_windows` is
about the hashes and what is returned; what a result other than zero says about the string itself is
`stringHash_finds`.
-/

namespace CppLearn.StringHash

open BoundedLoop CheckedVector Signed

variable {s : List (BitVec 8)} {p : BitVec 64} {size idx i j k : ℕ} {r : ℤ}

/-- The substring of length `size` that ends at position `idx`. -/
def windowTo (s : List (BitVec 8)) (size idx : ℕ) : List (BitVec 8) :=
  window s size (idx + 1 - size)

/-- The polynomial hash of the substring. -/
def hashTo (s : List (BitVec 8)) (size idx : ℕ) : BitVec 64 :=
  polyHash base ((windowTo s size idx).map charWord)

/-- The window that ends at position `idx` has the hash of an earlier one. -/
def HashRepeats (s : List (BitVec 8)) (size idx : ℕ) : Prop :=
  ∃ j < idx, size ≤ j + 1 ∧ hashTo s size j = hashTo s size idx

/-- Hash number `k` is that of the window that begins at position `k`. -/
theorem rolled_eq (hsize : 1 ≤ size) (hk : size + k ≤ s.length) :
    rolled s size 0 k = polyHash base ((window s size k).map charWord) := by
  induction k with
  | zero => rw [rolled, startHash, Nat.sub_zero]
  | succ k ih =>
    have hlt : k + size < s.length := by omega
    -- the power is `base ^ size`, because the first loop has taken a whole window
    rw [rolled, ih (by omega), polyHash_window_succ charWord base hsize hlt, Nat.sub_zero,
      Nat.zero_add, Nat.zero_add, Nat.add_comm size k]
    simp [hlt, show k < s.length by omega]

/-- The hash that is rolled is that of the window. -/
theorem rolled_eq_hashTo (hsize : 1 ≤ size) (hk : size + k ≤ s.length) :
    rolled s size 0 k = hashTo s size (size + k - 1) := by
  rw [rolled_eq hsize hk, hashTo, windowTo, show size + k - 1 + 1 - size = k by omega]

/-- A repetition of hashes is one of windows with equal hashes. -/
theorem repeats_iff (hsize : 1 ≤ size) (hk : size + k < s.length) :
    Repeats (rolled s size 0) (k + 1) ↔ HashRepeats s size (size + k) := by
  have hlast : rolled s size 0 (k + 1) = hashTo s size (size + k) := by
    rw [rolled_eq_hashTo hsize (by omega), Nat.add_succ_sub_one]
  unfold Repeats HashRepeats
  rw [hlast]
  constructor
  · rintro ⟨j, hj, heq⟩
    rw [rolled_eq_hashTo hsize (by omega)] at heq
    exact ⟨size + j - 1, by omega, by omega, heq⟩
  · rintro ⟨j, hj, hle, heq⟩
    refine ⟨j + 1 - size, by omega, ?_⟩
    rw [rolled_eq_hashTo hsize (by omega), ← heq]
    congr 1
    omega

/-- Equal windows have equal hashes. -/
theorem HashRepeats.of_windowTo_eq (hij : i < j) (hsize : size ≤ i + 1)
    (h : windowTo s size i = windowTo s size j) : HashRepeats s size j :=
  ⟨i, hij, hsize, by rw [hashTo, h, hashTo]⟩

/-! ## The states and the result -/

/-- What is returned, if all positions fit. -/
theorem stringHash_zero_spec (hsize : 1 ≤ size) (hle : size ≤ s.length) (hlen : s.length < 2 ^ 31) :
    ∃ r : ℤ, stringHash s size 0 = .ok r ∧
      ((∃ idx : ℕ, r = idx ∧
        IsLeast {idx | size ≤ idx ∧ idx < s.length ∧ HashRepeats s size idx} idx) ∨
      r = 0 ∧ ∀ idx, size ≤ idx → idx < s.length → ¬HashRepeats s size idx) := by
  obtain ⟨r, hrun, hresult⟩ := stringHash_spec s size 0 (by omega) (by omega) (by omega)
  refine ⟨r, hrun, ?_⟩
  rw [Nat.zero_add, min_eq_left hlen.le] at hresult
  rcases hresult with ⟨k, hk, hrepeat, hfirst, rfl⟩ | ⟨rfl, hnone⟩
  · refine .inl ⟨size + k, rfl, ⟨Nat.le_add_right _ _, hk, (repeats_iff hsize hk).1 hrepeat⟩, ?_⟩
    rintro i ⟨hsi, hi, hrepeat'⟩
    obtain ⟨j, rfl⟩ := Nat.exists_eq_add_of_le hsi
    rw [← repeats_iff hsize hi] at hrepeat'
    by_contra hlt
    exact hfirst j (by omega) hrepeat'
  · refine .inr ⟨rfl, fun i hsi hi => ?_⟩
    obtain ⟨j, rfl⟩ := Nat.exists_eq_add_of_le hsi
    rw [← repeats_iff hsize hi]
    exact hnone j hi

/-- The hashes of a run. -/
theorem Reaches.hashTo_eq {st : HashState} (h : Reaches s size 0 st p) (hsize : 1 ≤ size)
    (hle : size ≤ s.length) (hlen : s.length < 2 ^ 31) :
    ∃ idx : ℕ, st.idx = idx ∧ size ≤ idx ∧ idx ≤ s.length ∧ st.h = hashTo s size (idx - 1) ∧
      (idx < s.length → roll s size p st = .ok (hashTo s size idx)) := by
  obtain ⟨rfl, k, hk, rfl⟩ := Reaches.eq_stateAt 0 h (by omega) (by omega) (by omega)
  rw [Nat.zero_add, min_eq_left hlen.le] at hk
  refine ⟨size + k, ?_, Nat.le_add_right _ _, hk, rolled_eq_hashTo hsize hk, fun hlt => ?_⟩
  · rw [stateAt, Nat.zero_add, narrow_natCast (by omega)]
  · rw [roll_eq (by omega) (by omega), rolled_eq_hashTo hsize (by omega), Nat.add_succ_sub_one]

/-- With `start = 0`, `h` is the hash of the window that ends before position `idx`, and after the
update of the window that ends there. The result is the first position at which the hash of an
earlier window occurs again, or zero, so it is not behind the end of a second occurrence of a
substring. -/
theorem stringHash_windows (s : List (BitVec 8)) (size : ℕ) (hsize : 1 ≤ size)
    (hle : size ≤ s.length) (hlen : s.length < 2 ^ 31) :
    (∀ st p, Reaches s size 0 st p → ∃ idx : ℕ, st.idx = idx ∧ size ≤ idx ∧ idx ≤ s.length ∧
      st.h = hashTo s size (idx - 1) ∧
      (idx < s.length → roll s size p st = .ok (hashTo s size idx))) ∧
    ∃ r : ℤ, stringHash s size 0 = .ok r ∧
      ((∃ idx : ℕ, r = idx ∧
        IsLeast {idx | size ≤ idx ∧ idx < s.length ∧ HashRepeats s size idx} idx) ∨
      r = 0 ∧ ∀ idx, size ≤ idx → idx < s.length → ¬HashRepeats s size idx) ∧
      ∀ i j, size ≤ i + 1 → i < j → j < s.length → windowTo s size i = windowTo s size j →
        r ≠ 0 ∧ r ≤ j := by
  refine ⟨fun st p h => h.hashTo_eq hsize hle hlen, ?_⟩
  obtain ⟨r, hrun, hresult⟩ := stringHash_zero_spec hsize hle hlen
  refine ⟨r, hrun, hresult, fun i j hi hij hj heq => ?_⟩
  have hrepeat := HashRepeats.of_windowTo_eq hij hi heq
  rcases hresult with ⟨idx, rfl, hleast⟩ | ⟨rfl, hnone⟩
  · have hsidx := hleast.1.1
    have hidx := hleast.2 ⟨by omega, hj, hrepeat⟩
    omega
  · exact absurd hrepeat (hnone j (by omega) hj)

/-- All windows of two characters of `"abab"`. -/
theorem stringHash_windows_abab :
    (∀ st p, Reaches [97, 98, 97, 98] (2 : ℕ) 0 st p → ∃ idx : ℕ, st.idx = idx ∧ 2 ≤ idx ∧ idx ≤ 4 ∧
      st.h = hashTo [97, 98, 97, 98] 2 (idx - 1) ∧
      (idx < 4 → roll [97, 98, 97, 98] (2 : ℕ) p st = .ok (hashTo [97, 98, 97, 98] 2 idx))) ∧
    ∃ r : ℤ, stringHash [97, 98, 97, 98] (2 : ℕ) 0 = .ok r ∧
      ((∃ idx : ℕ, r = idx ∧
        IsLeast {idx | 2 ≤ idx ∧ idx < 4 ∧ HashRepeats [97, 98, 97, 98] 2 idx} idx) ∨
      r = 0 ∧ ∀ idx, 2 ≤ idx → idx < 4 → ¬HashRepeats [97, 98, 97, 98] 2 idx) ∧
      ∀ i j, 2 ≤ i + 1 → i < j → j < 4 →
        windowTo [97, 98, 97, 98] 2 i = windowTo [97, 98, 97, 98] 2 j → r ≠ 0 ∧ r ≤ j :=
  stringHash_windows [97, 98, 97, 98] 2 (by decide) (by decide) (by decide)

/-! ## Positions that do not fit -/

/-- The base is odd, so that it can be divided by. -/
theorem isUnit_base : IsUnit base := .of_mul_eq_one 7124745878340898795 (by decide)

/-- A window of a string that goes on with one character. -/
theorem windowTo_cons_replicate (x y : BitVec 8) {m : ℕ} (hi : size ≤ i) (hm : i ≤ m) :
    windowTo (x :: List.replicate m y) size i = List.replicate size y := by
  have hstart : i + 1 - size = i - size + 1 := by omega
  rw [windowTo, window, hstart, List.drop_succ_cons, List.drop_replicate, List.take_replicate,
    min_eq_left (by omega)]

/-- Two windows whose hashes differ. -/
theorem hashTo_cons_replicate_ne {m : ℕ} (hsize : 1 ≤ size) (hm : size ≤ m) :
    hashTo (98 :: List.replicate m 97) size (size - 1) ≠
      hashTo (98 :: List.replicate m 97) size size := by
  obtain ⟨n, rfl⟩ := Nat.exists_eq_add_of_le' hsize
  have hfirst : windowTo (98 :: List.replicate m 97) (n + 1) n =
      (98 : BitVec 8) :: List.replicate n 97 := by
    rw [windowTo, window, Nat.sub_self, List.drop_zero, List.take_succ_cons, List.take_replicate,
      min_eq_left (by omega)]
  intro h
  rw [hashTo, hashTo, Nat.add_sub_cancel, hfirst, windowTo_cons_replicate _ _ le_rfl hm,
    List.replicate_succ, List.map_cons, List.map_cons, polyHash_cons, polyHash_cons,
    add_right_cancel_iff, ← sub_eq_zero, ← sub_mul] at h
  -- the windows differ in their first characters only, and a power of the base is not zero
  have hone : charWord 98 - charWord 97 = 1 := by decide
  have : Nontrivial (BitVec 64) := ⟨0, 1, by decide⟩
  rw [hone, one_mul] at h
  exact (isUnit_base.pow _).ne_zero h

/-- The last position does not fit, and so the loop does not get to it. -/
theorem stringHash_cons_replicate {m : ℕ} (hm : m = 2 ^ 31) :
    stringHash (98 :: List.replicate m 97) (m - 1 : ℕ) 0 = .ok 0 := by
  have hlen : (98 :: List.replicate m (97 : BitVec 8)).length = m + 1 := by
    rw [List.length_cons, List.length_replicate]
  obtain ⟨r, hrun, hresult⟩ := stringHash_spec (98 :: List.replicate m 97) (m - 1) 0
    (by omega) (by omega) (by omega)
  rcases hresult with ⟨k, hk, hrepeat, -, -⟩ | ⟨rfl, -⟩
  -- only one position fits, and its window is not equal to the first one
  · obtain rfl : k = 0 := by omega
    rw [repeats_iff (by omega) (by omega)] at hrepeat
    obtain ⟨j, hj, hle, heq⟩ := hrepeat
    obtain rfl : j = m - 1 - 1 := by omega
    exact absurd heq (hashTo_cons_replicate_ne (by omega) (by omega))
  · exact hrun

/-- A substring occurs twice, and the result is zero. -/
theorem stringHash_overflow :
    stringHash (98 :: List.replicate (2 ^ 31) 97) ((2 ^ 31 - 1 : ℕ) : ℤ) 0 = .ok 0 ∧
    windowTo (98 :: List.replicate (2 ^ 31) 97) (2 ^ 31 - 1) (2 ^ 31 - 1) =
      windowTo (98 :: List.replicate (2 ^ 31) 97) (2 ^ 31 - 1) (2 ^ 31) := by
  refine ⟨stringHash_cons_replicate rfl, ?_⟩
  rw [windowTo_cons_replicate _ _ le_rfl (Nat.sub_le _ _),
    windowTo_cons_replicate _ _ (Nat.sub_le _ _) le_rfl]

/-! ## Windows with the same hash -/

/-- A result other than zero is the end of a window with the hash of an earlier window. So the
substring occurs earlier if different windows have different hashes. -/
theorem stringHash_finds (s : List (BitVec 8)) (size : ℕ) (r : ℤ) (hsize : 1 ≤ size)
    (hle : size ≤ s.length) (hmax : size < 2 ^ 31) (hlen : s.length < 2 ^ 63)
    (hrun : stringHash s size 0 = .ok r) (hr : r ≠ 0) :
    ∃ idx j : ℕ, r = idx ∧ size ≤ j + 1 ∧ j < idx ∧ idx < s.length ∧
      hashTo s size j = hashTo s size idx ∧
      ((∀ i k, size ≤ i + 1 → i < k → k ≤ idx → hashTo s size i = hashTo s size k →
        windowTo s size i = windowTo s size k) → windowTo s size j = windowTo s size idx) := by
  obtain ⟨r', hrun', hresult⟩ := stringHash_spec s size 0 (by omega) (by omega) hlen
  obtain rfl := Except.ok.inj (hrun.symm.trans hrun')
  rcases hresult with ⟨k, hk, hrepeat, -, rfl⟩ | ⟨rfl, -⟩
  · rw [repeats_iff hsize (by omega)] at hrepeat
    obtain ⟨j, hj, hle, heq⟩ := hrepeat
    exact ⟨size + k, j, by rw [Nat.zero_add], hle, hj, by omega, heq,
      fun h => h j (size + k) hle hj le_rfl heq⟩
  · exact absurd rfl hr

/-- The first repetition in `"abab"`. -/
theorem stringHash_finds_abab :
    ∃ idx j : ℕ, (3 : ℤ) = idx ∧ 2 ≤ j + 1 ∧ j < idx ∧ idx < 4 ∧
      hashTo [97, 98, 97, 98] 2 j = hashTo [97, 98, 97, 98] 2 idx ∧
      ((∀ i k, 2 ≤ i + 1 → i < k → k ≤ idx →
        hashTo [97, 98, 97, 98] 2 i = hashTo [97, 98, 97, 98] 2 k →
        windowTo [97, 98, 97, 98] 2 i = windowTo [97, 98, 97, 98] 2 k) →
        windowTo [97, 98, 97, 98] 2 j = windowTo [97, 98, 97, 98] 2 idx) :=
  stringHash_finds [97, 98, 97, 98] 2 3 (by decide) (by decide) (by decide) (by decide) (by decide)
    (by decide)

/-- Two different windows, one position apart, with the same hash. -/
theorem stringHash_collision :
    stringHash [106, 108, 99, 97, 102, 110, 110, 111, 103, 109, 102, 100, 101, 104, 109, 103, 102]
      (16 : ℕ) 0 = .ok 16 ∧
    ∀ j < 16, 16 ≤ j + 1 →
      windowTo [106, 108, 99, 97, 102, 110, 110, 111, 103, 109, 102, 100, 101, 104, 109, 103, 102]
        16 j ≠
      windowTo [106, 108, 99, 97, 102, 110, 110, 111, 103, 109, 102, 100, 101, 104, 109, 103, 102]
        16 16 := by
  decide

end CppLearn.StringHash

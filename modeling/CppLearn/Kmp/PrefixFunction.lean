import CppLearn.Kmp.Defs
import CppLearn.Lib.Borders

/-!
# The prefix function

The inner loop of `prefix_function` goes through the borders of the elements before position `i`,
from the longest one to shorter ones, until it finds one that the element at position `i` extends.
Each border comes from the values for shorter beginnings of the string.

`PrefixTable` says that the values for the first positions are right. The inner loop is
`fallBack_spec`, and `prefixFunction_spec` is the whole function. `prefixFunction_longest` states
its values in terms of the string alone.
-/

namespace CppLearn.Kmp

open BoundedLoop CheckedVector Signed

variable {α : Type} [DecidableEq α] {s : List α} {pi : List ℤ} {i j m : ℕ}

/-- The first `m` values of `pi` are the lengths of the longest borders. -/
structure PrefixTable (s : List α) (pi : List ℤ) (m : ℕ) : Prop where
  length_eq : pi.length = s.length
  longest : ∀ i < m, ∃ k : ℕ, pi.getD i 0 = k ∧ LongestBorder s (i + 1) k

/-- The comparison in the inner loop. -/
theorem mismatch_eq (hi : i < s.length) (hj : j < s.length) :
    mismatch s i (j : ℤ) = .ok (decide (0 < j ∧ s[j]? ≠ s[i]?)) := by
  rw [mismatch, List.getElem?_eq_getElem hi, List.getElem?_eq_getElem hj, read_eq hi, read_eq hj]
  rcases Nat.eq_zero_or_pos j with rfl | hpos
  · rfl
  · rw [if_pos (by omega)]
    simp [bind, Except.bind, hpos, eq_comm]

/-- The longest border that the element at position `i` extends, or none of them. -/
theorem fallBack_spec (h : PrefixTable s pi i) (hi : i < s.length) (hj : LongestBorder s i j) :
    ∃ r, fallBack s pi i (j : ℤ) = .ok r ∧ ∃ k : ℕ, r = k ∧ Border s i k ∧
      (∀ l, Border s i l → s[l]? = s[i]? → l ≤ k) ∧ (k = 0 ∨ s[k]? = s[i]?) := by
  -- no border that is longer than the current one is extended
  refine whileLoop_spec (I := fun (k : ℕ) r => r = (k : ℤ) ∧ Border s i k ∧
    ∀ l, Border s i l → s[l]? = s[i]? → l ≤ k) ?_ ?_ ?_
    ⟨rfl, hj.1, fun l hl _ => hj.2 hl⟩ (Nat.lt_succ_of_lt hj.1.1)
  · rintro k _ ⟨rfl, hk, hmax⟩ hexit
    rw [mismatch_eq hi (hk.1.trans hi)] at hexit
    have hstop : ¬(0 < k ∧ s[k]? ≠ s[i]?) := by simpa using hexit
    refine ⟨k, rfl, hk, hmax, ?_⟩
    by_contra hne
    push Not at hne
    exact hstop ⟨Nat.pos_of_ne_zero hne.1, hne.2⟩
  · rintro k _ ⟨rfl, hk, -⟩
    exact ⟨_, mismatch_eq hi (hk.1.trans hi)⟩
  · rintro k _ ⟨rfl, hk, hmax⟩ hon
    rw [mismatch_eq hi (hk.1.trans hi)] at hon
    obtain ⟨hpos, hne⟩ : 0 < k ∧ s[k]? ≠ s[i]? := by simpa using hon
    obtain ⟨k, rfl⟩ := Nat.exists_eq_add_of_le' hpos
    have hlt : k < i := Nat.lt_of_succ_lt hk.1
    -- the value read is the longest border of the current border
    obtain ⟨l, hl, hlongest⟩ := h.longest k hlt
    have hprev : ((k + 1 : ℕ) : ℤ) - 1 = k := by omega
    refine ⟨l, l, ?_, hlongest.1.1, rfl, hk.trans hlongest.1, fun l' hl' hx => ?_⟩
    · rw [hprev, read_ok (by rw [h.length_eq]; omega) 0, hl]
    · -- the border itself is not extended
      have hl'k : l' < k + 1 := (hmax l' hl' hx).lt_of_ne fun heq => hne (heq ▸ hx)
      exact hlongest.2 (hk.of_lt hl' hl'k)

/-- The value for one more position. -/
theorem prefixStep_spec (h : PrefixTable s pi (i + 1)) (hi : i + 1 < s.length) :
    ∃ pi', prefixStep s (i + 1) pi = .ok pi' ∧ PrefixTable s pi' (i + 1 + 1) := by
  obtain ⟨j, hj, hlongest⟩ := h.longest i (Nat.lt_succ_self i)
  obtain ⟨_, hr, k, rfl, hk, hmax, hend⟩ := fallBack_spec h hi hlongest
  have hlen : i + 1 < pi.length := by rwa [h.length_eq]
  have hprev : ((i + 1 : ℕ) : ℤ) - 1 = i := by omega
  have hread : read pi (i : ℤ) = .ok (j : ℤ) := by
    rw [read_ok (by omega) 0, hj]
  have hks : k < s.length := hk.1.trans hi
  have hcmp : s[i + 1] = s[k] ↔ s[k]? = s[i + 1]? := by
    rw [List.getElem?_eq_getElem hi, List.getElem?_eq_getElem hks, Option.some.injEq, eq_comm]
  -- either the border that was found is extended, or it is empty and there is none to extend
  obtain ⟨q, hq, hborder⟩ : ∃ q : ℕ, (if s[i + 1] = s[k] then (k : ℤ) + 1 else k) = q ∧
      LongestBorder s (i + 1 + 1) q := by
    by_cases hx : s[k]? = s[i + 1]?
    · exact ⟨k + 1, if_pos (hcmp.2 hx), longestBorder_succ hi hk hmax hx⟩
    · have hzero : k = 0 := hend.resolve_right hx
      refine ⟨0, ?_, longestBorder_zero hi fun l hl hxl => ?_⟩
      · rw [if_neg (fun h => hx (hcmp.1 h)), hzero]
      · have hl' := hmax l hl hxl
        rw [hzero, Nat.le_zero] at hl'
        exact hx (by rwa [hzero, ← hl'])
  refine ⟨pi.set (i + 1) q, ?_, by simpa using h.length_eq, fun l hl => ?_⟩
  · rw [prefixStep, hprev, hread, ok_bind, hr, ok_bind, read_eq hi, ok_bind, read_eq hks, ok_bind,
      hq]
    exact write_ok hlen _
  · rw [congrFun (getD_set hlen _ 0) l]
    rcases (Nat.le_of_lt_succ hl).eq_or_lt with rfl | hl
    · exact ⟨q, Function.update_self .., hborder⟩
    · rw [Function.update_of_ne hl.ne]
      exact h.longest l hl

/-- `prefix_function`. -/
theorem prefixFunction_spec (hlen : s.length < 2 ^ 31) :
    ∃ pi, prefixFunction s = .ok pi ∧ PrefixTable s pi s.length := by
  have hstart : PrefixTable s (List.replicate s.length 0) 1 := by
    refine ⟨List.length_replicate .., fun i hi => ⟨0, getD_replicate _ _ _, ?_⟩⟩
    rw [Nat.lt_one_iff.1 hi]
    exact ⟨border_zero s Nat.one_pos, fun k hk => Nat.le_of_lt_succ hk.1⟩
  have hloop : ∃ pi, forLoop 1 s.length (prefixStep s) (List.replicate s.length 0) = .ok pi ∧
      PrefixTable s pi s.length := by
    -- the loop is not entered for the empty string, for which no value is claimed
    rcases Nat.lt_or_ge s.length 1 with hzero | hpos
    · refine ⟨_, forLoop_of_le hzero.le, hstart.length_eq, fun i hi => ?_⟩
      exact hstart.longest i (hi.trans hzero)
    · refine forLoop_spec (I := fun i pi => PrefixTable s pi i) (fun i pi hi hlt h => ?_) hpos
        hstart
      obtain ⟨i, rfl⟩ := Nat.exists_eq_add_of_le' hi
      exact prefixStep_spec h hlt
  obtain ⟨pi, hrun, htable⟩ := hloop
  refine ⟨pi, ?_, htable⟩
  unfold prefixFunction
  dsimp only
  rw [narrow_natCast (w := 32) (by omega), if_neg (by omega), Int.toNat_natCast, hrun]

/-- The value for position `i` is the length of the longest proper prefix of `s[0..i]` that is also
a suffix of it. -/
theorem prefixFunction_longest (s : List α) (hlen : s.length < 2 ^ 31) :
    ∃ pi, prefixFunction s = .ok pi ∧ pi.length = s.length ∧
      ∀ i < s.length, ∃ k : ℕ, pi[i]? = some (k : ℤ) ∧
        IsGreatest {k | k < i + 1 ∧ s.take k <:+ s.take (i + 1)} k := by
  obtain ⟨pi, hrun, htable⟩ := prefixFunction_spec hlen
  refine ⟨pi, hrun, htable.length_eq, fun i hi => ?_⟩
  obtain ⟨k, hk, hlongest⟩ := htable.longest i hi
  have hget : pi[i]? = some (pi.getD i 0) := by
    simp [htable.length_eq ▸ hi]
  exact ⟨k, hk ▸ hget, hlongest⟩

theorem prefixFunction_longest_abab :
    ∃ pi, prefixFunction "abab".toList = .ok pi ∧ pi.length = "abab".toList.length ∧
      ∀ i < "abab".toList.length, ∃ k : ℕ, pi[i]? = some (k : ℤ) ∧
        IsGreatest {k | k < i + 1 ∧ "abab".toList.take k <:+ "abab".toList.take (i + 1)} k :=
  prefixFunction_longest "abab".toList (by decide)

/-- The length is converted to a negative number. -/
theorem prefixFunction_overflow :
    prefixFunction (List.replicate (2 ^ 31) 'a') = .error .checkFailed := by
  unfold prefixFunction
  dsimp only
  rw [List.length_replicate, if_pos (by decide)]

end CppLearn.Kmp

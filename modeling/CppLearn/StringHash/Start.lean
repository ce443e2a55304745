import CppLearn.StringHash.Correctness

/-!
# A start position

The first loop ends at position `size`, but a first window that begins at position `start` ends at
`start + size`. So with `start ≠ 0` the hashes are not those of windows, unless no hash is computed
but the first one.

`Agrees` says that the function with a start position agrees with the function on the rest of the
string. For which start positions it does, whatever the string, is `stringHash_agrees_iff`.
-/

namespace CppLearn.StringHash

open BoundedLoop CheckedVector Signed

variable {s : List (BitVec 8)} {f : ℕ → BitVec 64} {size start a i k m n B N : ℕ} {r : ℤ}

/-- The result is that for the rest of the string from position `start` on, moved by `start` if it
is not zero. -/
def Agrees (s : List (BitVec 8)) (size start : ℕ) : Prop :=
  ∃ r : ℤ, stringHash (s.drop start) size 0 = .ok r ∧
    stringHash s size start = .ok (if r = 0 then 0 else start + r)

/-! ## Results -/

/-- The first repetition is what is returned. -/
theorem Result.eq_of_first (h : Result f B N r) (hk : B + k < N) (hrepeat : Repeats f (k + 1))
    (hfirst : ∀ j < k, ¬Repeats f (j + 1)) : r = (B + k : ℕ) := by
  rcases h with ⟨j, -, hrepeat', hfirst', rfl⟩ | ⟨-, hnone⟩
  · rcases lt_trichotomy j k with hjk | rfl | hkj
    · exact absurd hrepeat' (hfirst j hjk)
    · rfl
    · exact absurd hrepeat (hfirst' k hkj)
  · exact absurd hrepeat (hnone k hk)

/-- What is returned is a repetition. -/
theorem Result.repeats (h : Result f B N r) (hr : r = (B + k : ℕ)) (hB : 0 < B) :
    Repeats f (k + 1) := by
  rcases h with ⟨j, -, hrepeat, -, rfl⟩ | ⟨rfl, -⟩
  · obtain rfl : j = k := by omega
    exact hrepeat
  · omega

/-- Without another window, the result is zero. -/
theorem Result.eq_zero (h : Result f B N r) (hle : N ≤ B) : r = 0 := by
  rcases h with ⟨k, hk, -⟩ | ⟨hr, -⟩
  · omega
  · exact hr

/-- The first window is repeated at once if the first two are alike. -/
theorem repeats_one : Repeats f 1 ↔ f 0 = f 1 :=
  ⟨fun ⟨_, hj, heq⟩ => Nat.lt_one_iff.1 hj ▸ heq, fun heq => ⟨0, Nat.one_pos, heq⟩⟩

/-- It is then returned. -/
theorem Result.eq_of_eq (h : Result f B N r) (hB : B < N) (heq : f 0 = f 1) : r = B :=
  h.eq_of_first (k := 0) hB (repeats_one.2 heq) fun j hj => absurd hj (Nat.not_lt_zero j)

/-- A result after at most one position. -/
theorem Result.eq_ite (h : Result f B N r) (hN : N = B + 1) :
    r = if f 0 = f 1 then (B : ℤ) else 0 := by
  split_ifs with heq
  · exact h.eq_of_eq (by omega) heq
  · rcases h with ⟨k, hk, hrepeat, -⟩ | ⟨hr, -⟩
    · obtain rfl : k = 0 := by omega
      exact absurd (repeats_one.1 hrepeat) heq
    · exact hr

/-- If the first position does not fit, then zero is returned. -/
theorem stringHash_eq_zero (hsize : start + size ≤ s.length) (hlow : 2 ^ 31 ≤ start + size)
    (hhigh : start + size < 2 ^ 32) (hlen : s.length < 2 ^ 63) :
    stringHash s size start = .ok 0 := by
  have hexit : hashStep s size (base ^ (size - start))
      (stateAt (rolled s size start) (start + size) 0) = .ok (.inr 0) := by
    refine hashStep_exit ?_ _ _
    rw [stateAt, Nat.add_zero]
    dsimp only
    exact length_le_position hlen hlow hhigh
  rw [stateAt_zero] at hexit
  exact bind_eq_ok.2 ⟨_, firstHash_spec (by omega), iterate_exit hexit s.length⟩

/-- The run on the rest of the string, and the run with the start position. -/
theorem exists_results (s : List (BitVec 8)) (size start : ℕ) (hle : start + size ≤ s.length)
    (hmax : start + size < 2 ^ 31) (hlen : s.length < 2 ^ 63) :
    ∃ r r' : ℤ, stringHash (s.drop start) size 0 = .ok r ∧ stringHash s size start = .ok r' ∧
      Result (rolled (s.drop start) size 0) size (min (s.length - start) (2 ^ 31)) r ∧
      Result (rolled s size start) (start + size) (min s.length (2 ^ 31)) r' := by
  have hdrop : (s.drop start).length = s.length - start := List.length_drop
  obtain ⟨r, hrun, hresult⟩ := stringHash_spec (s.drop start) size 0 (by omega) (by omega)
    (by omega)
  obtain ⟨r', hrun', hresult'⟩ := stringHash_spec s size start hle hmax hlen
  rw [hdrop, Nat.zero_add] at hresult
  exact ⟨r, r', hrun, hrun', hresult, hresult'⟩

/-! ## Positions for which the results agree -/

/-- If there are no more windows, then zero is returned. -/
theorem stringHash_eq_zero_of_length (start : ℕ) (hsize : size < 2 ^ 31) (hstart : start < 2 ^ 31)
    (hlen : s.length < 2 ^ 63) (heq : start + size = s.length) :
    stringHash s size start = .ok 0 := by
  rcases Nat.lt_or_ge (start + size) (2 ^ 31) with hlt | hge
  · obtain ⟨r, hrun, hresult⟩ := stringHash_spec s size start (by omega) hlt hlen
    obtain rfl := hresult.eq_zero (by omega)
    exact hrun
  · exact stringHash_eq_zero heq.le hge (by omega) hlen

/-- From the beginning of the string, the function does what it is meant to do. -/
theorem agrees_zero (hsize : size ≤ s.length) (hmax : size < 2 ^ 31) (hlen : s.length < 2 ^ 63) :
    Agrees s size 0 := by
  obtain ⟨r, hrun, -⟩ := stringHash_spec s size 0 (by omega) (by omega) hlen
  refine ⟨r, by rwa [List.drop_zero], ?_⟩
  split_ifs with hr
  · rw [hrun, hr]
  · rw [hrun, Nat.cast_zero, zero_add]

/-- So it does for the last window. -/
theorem agrees_of_length (hsize : size < 2 ^ 31) (hstart : start < 2 ^ 31)
    (hlen : s.length < 2 ^ 63) (heq : start + size = s.length) : Agrees s size start := by
  have hdrop : (s.drop start).length = size := by
    rw [List.length_drop]
    omega
  refine ⟨0, ?_, ?_⟩
  · exact stringHash_eq_zero_of_length 0 hsize (by omega) (by omega) (by omega)
  · rw [if_pos rfl]
    exact stringHash_eq_zero_of_length start hsize hstart hlen heq

/-- Different characters are different numbers. -/
theorem charWord_injective : Function.Injective charWord := by
  intro c d h
  have hint := congrArg BitVec.toInt h
  rw [charWord, charWord, BitVec.toInt_signExtend_of_le (by decide),
    BitVec.toInt_signExtend_of_le (by decide)] at hint
  exact BitVec.eq_of_toInt_eq hint

/-- The first two hashes of characters, with `start` behind the first loop. -/
theorem rolled_one_eq_iff (hpos : 0 < start) :
    rolled s 1 start 0 = rolled s 1 start 1 ↔ s.getD start 0 = s.getD (start + 1) 0 := by
  have hzero : startHash s 1 start = 0 := by
    rw [startHash, show 1 - start = 0 by omega]
    rfl
  rw [rolled, rolled, rolled, hzero, show 1 - start = 0 by omega, pow_zero, zero_mul, one_mul,
    zero_sub, neg_add_eq_sub, eq_comm, sub_eq_zero, eq_comm, charWord_injective.eq_iff]
  rfl

/-- The first two hashes of characters. -/
theorem rolled_zero_eq_iff (hlen : 2 ≤ s.length) :
    rolled s 1 0 0 = rolled s 1 0 1 ↔ s.getD 0 0 = s.getD 1 0 := by
  rw [rolled_eq le_rfl (by omega), rolled_eq le_rfl (by omega)]
  match s, hlen with
  | c :: d :: s, _ => simp [window, polyHash, charWord_injective.eq_iff]

/-- Two windows of one character, and two hashes that are equal if the characters are. -/
theorem agrees_one (hpos : 0 < start) (hlen : start + 2 = s.length) (hmax : s.length ≤ 2 ^ 31) :
    Agrees s 1 start := by
  have hdrop : (s.drop start).length = 2 := by
    rw [List.length_drop]
    omega
  obtain ⟨r, r', hrun, hrun', hresult, hresult'⟩ := exists_results s 1 start (by omega)
    (by omega) (by omega)
  have hr := hresult.eq_ite (by omega)
  have hr' := hresult'.eq_ite (by omega)
  have hiff : rolled (s.drop start) 1 0 0 = rolled (s.drop start) 1 0 1 ↔
      rolled s 1 start 0 = rolled s 1 start 1 := by
    rw [rolled_zero_eq_iff hdrop.ge, rolled_one_eq_iff hpos, List.getD_eq_getElem?_getD,
      List.getElem?_drop, List.getD_eq_getElem?_getD, List.getElem?_drop]
    simp only [List.getD_eq_getElem?_getD, Nat.add_zero]
  simp only [hiff] at hr
  refine ⟨r, hrun, ?_⟩
  rw [hrun', hr, hr']
  by_cases heq : rolled s 1 start 0 = rolled s 1 start 1
  · rw [if_pos heq, if_pos heq, if_neg (by decide), Nat.cast_add]
  · rw [if_neg heq, if_neg heq, if_pos rfl]

/-! ## Positions for which they do not -/

/-- A string of zeros and a one at position `a`. -/
def mark (a m : ℕ) : List (BitVec 8) := List.replicate a 0 ++ 1 :: List.replicate m 0

/-- A string with one mark behind `a` characters. -/
theorem length_mark : (mark a m).length = a + m + 1 := by
  rw [mark, List.length_append, List.length_cons, List.length_replicate, List.length_replicate,
    Nat.add_assoc]

/-- Where the mark is. -/
theorem getD_mark : (mark a m).getD i 0 = if i = a then 1 else 0 := by
  rw [mark, List.getD_eq_getElem?_getD, List.getElem?_append]
  simp only [List.length_replicate]
  split_ifs with hlt heq heq
  · omega
  · simp [hlt]
  · simp [heq]
  · obtain ⟨j, hj⟩ := Nat.exists_eq_add_of_lt (show a < i by omega)
    rw [show i - a = j + 1 by omega, List.getElem?_cons_succ, List.getElem?_replicate]
    split_ifs <;> rfl

/-- The rest of the string has the mark further in front. -/
theorem drop_mark (h : k ≤ a) : (mark a m).drop k = mark (a - k) m := by
  rw [mark, mark, List.drop_append_of_le_length (by simpa using h), List.drop_replicate]

/-- The first hash, if the one is behind the first loop. -/
theorem startHash_mark (hs : start ≤ a) (h : size ≤ a) : startHash (mark a m) size start = 0 := by
  have hwindow : window (mark a m) (size - start) start = List.replicate (size - start) 0 := by
    rw [window, drop_mark hs, mark, List.take_append_of_le_length, List.take_replicate,
      min_eq_left (by omega)]
    rw [List.length_replicate]
    omega
  have hzero : charWord 0 = 0 := by decide
  rw [startHash, hwindow, List.map_replicate, hzero, polyHash_replicate_zero]

/-- The first hash, if the one is at the end of the first window. -/
theorem startHash_mark_self : startHash (mark a m) (a + 1) 0 = 1 := by
  have hwindow : window (mark a m) (a + 1) 0 = List.replicate a 0 ++ [1] := by
    rw [window, List.drop_zero, mark, List.take_append, List.take_replicate,
      List.length_replicate, min_eq_right (Nat.le_succ a), Nat.add_sub_cancel_left]
    rfl
  have hzero : charWord 0 = 0 := by decide
  have hone : charWord 1 = 1 := by decide
  rw [startHash, Nat.sub_zero, hwindow, List.map_append, List.map_replicate, hzero, List.map_cons,
    List.map_nil, polyHash_concat, polyHash_replicate_zero, hone, zero_mul, zero_add]

/-- What both runs return, if the results agree. -/
theorem Agrees.result (h : Agrees s size start) (hle : start + size ≤ s.length)
    (hmax : start + size < 2 ^ 31) (hlen : s.length < 2 ^ 63) :
    ∃ r r' : ℤ, Result (rolled (s.drop start) size 0) size (min (s.length - start) (2 ^ 31)) r ∧
      Result (rolled s size start) (start + size) (min s.length (2 ^ 31)) r' ∧
      r' = if r = 0 then 0 else start + r := by
  obtain ⟨r, r', hrun, hrun', hresult, hresult'⟩ := exists_results s size start hle hmax hlen
  obtain ⟨q, hq, hq'⟩ := h
  obtain rfl := Except.ok.inj (hrun.symm.trans hq)
  exact ⟨r, r', hresult, hresult', Except.ok.inj (hrun'.symm.trans hq')⟩

/-- Both runs return zero at once, if the first position does not fit, although a window of zeros is
equal to the next one. -/
theorem not_agrees_replicate (hsize : 0 < size) (hmax : size < 2 ^ 31) (hstart : start < 2 ^ 31)
    (hlow : 2 ^ 31 ≤ start + size) (hlt : start + size < n) (hlen : n < 2 ^ 63) :
    ¬Agrees (List.replicate n 0) size start := by
  rintro ⟨r, hrun, hrun'⟩
  have hlength : (List.replicate n (0 : BitVec 8)).length = n := List.length_replicate
  rw [List.drop_replicate] at hrun
  rw [stringHash_eq_zero (by omega) hlow (by omega) (by omega)] at hrun'
  obtain ⟨r₁, hrun₁, hresult⟩ := stringHash_spec (List.replicate (n - start) 0) size 0
    (by rw [List.length_replicate]; omega) (by omega) (by rw [List.length_replicate]; omega)
  obtain rfl := Except.ok.inj (hrun.symm.trans hrun₁)
  have hzero := Except.ok.inj hrun'
  rw [List.length_replicate] at hresult
  have hr : r = (0 + size : ℕ) := by
    refine hresult.eq_of_eq (by omega) ?_
    rw [rolled_eq hsize (by rw [List.length_replicate]; omega),
      rolled_eq hsize (by rw [List.length_replicate]; omega), window, window, List.drop_replicate,
      List.drop_replicate, List.take_replicate, List.take_replicate, min_eq_left (by omega),
      min_eq_left (by omega)]
  split_ifs at hzero <;> omega

/-- The numbers of the two characters of such strings, -/
theorem charWord_zero : charWord 0 = 0 := by decide

/-- that of the mark. -/
theorem charWord_one : charWord 1 = 1 := by decide

/-- The first two hashes are zero for the code. Those of the first two windows are different. -/
theorem not_agrees_mark (hsize : 2 ≤ size) (hpos : 0 < start) (hmax : start + size < 2 ^ 31)
    (hlen : start + size + m < 2 ^ 63) (hm : 0 < m) :
    ¬Agrees (mark (start + size - 1) m) size start := by
  intro h
  have hlength : (mark (start + size - 1) m).length = start + size + m := by
    rw [length_mark]
    omega
  obtain ⟨r, r', hresult, hresult', heq⟩ := h.result (by omega) hmax (by omega)
  -- the first loop ends before the one, and the first update does not get to it
  have hcode : rolled (mark (start + size - 1) m) size start 0 =
      rolled (mark (start + size - 1) m) size start 1 := by
    rw [rolled, rolled, rolled, startHash_mark (by omega) (by omega), getD_mark, getD_mark,
      if_neg (by omega), if_neg (by omega), charWord_zero, zero_mul, mul_zero, sub_zero, add_zero]
  rw [hresult'.eq_of_eq (by omega) hcode] at heq
  obtain ⟨a, rfl⟩ := Nat.exists_eq_add_of_le' (show 1 ≤ size by omega)
  rw [drop_mark (by omega), show start + (a + 1) - 1 - start = a by omega] at hresult
  -- so the windows would have to be equal, but the one is at different places
  have hr : r = (a + 1 + 0 : ℕ) := by
    split_ifs at heq with h <;> omega
  have hrepeat := repeats_one.1 (hresult.repeats hr (by omega))
  rw [rolled, rolled, rolled, startHash_mark_self, getD_mark, getD_mark, if_neg (by omega),
    if_neg (by omega), charWord_zero, one_mul, mul_zero, sub_zero, add_zero] at hrepeat
  exact absurd hrepeat (by decide)

/-- Three hashes of characters, the second of which is a one. -/
theorem rolled_mark_one (m start : ℕ) :
    rolled (mark (start + 1) m) 1 start 0 = 0 ∧ rolled (mark (start + 1) m) 1 start 1 = 1 ∧
      rolled (mark (start + 1) m) 1 start 2 = base - base ^ (1 - start) := by
  have hfirst : rolled (mark (start + 1) m) 1 start 0 = 0 :=
    startHash_mark (Nat.le_succ start) (Nat.le_add_left 1 start)
  have hsecond : rolled (mark (start + 1) m) 1 start 1 = 1 := by
    rw [rolled, hfirst, getD_mark, getD_mark, if_neg (by omega), if_pos (Nat.add_zero _),
      charWord_zero, charWord_one, zero_mul, mul_zero, sub_zero, zero_add]
  refine ⟨hfirst, hsecond, ?_⟩
  rw [rolled, hsecond, getD_mark, getD_mark, if_pos rfl, if_neg (by omega), charWord_zero,
    charWord_one, one_mul, mul_one, add_zero]

/-- The first and the third character are equal. -/
theorem not_agrees_mark_one (hpos : 0 < start) (hmax : start + 1 < 2 ^ 31)
    (hlen : start + m + 2 < 2 ^ 63) (hm : 0 < m) : ¬Agrees (mark (start + 1) m) 1 start := by
  intro h
  have hlength : (mark (start + 1) m).length = start + 1 + m + 1 := length_mark
  obtain ⟨r, r', hresult, hresult', heq⟩ := h.result (by omega) hmax (by omega)
  rw [drop_mark (by omega), Nat.add_sub_cancel_left] at hresult
  obtain ⟨hzero, hone, htwo⟩ := rolled_mark_one m 0
  rw [Nat.zero_add] at hzero hone htwo
  -- the third character is the first one that occurs again
  have hr : r = (1 + 1 : ℕ) := by
    refine hresult.eq_of_first (by omega) ⟨0, Nat.two_pos, ?_⟩ fun j hj => ?_
    · rw [hzero, htwo, Nat.sub_zero, pow_one, sub_self]
    · obtain rfl := Nat.lt_one_iff.1 hj
      rw [repeats_one, hzero, hone]
      decide
  have hr' : r' = (start + 1 + 1 : ℕ) := by
    split_ifs at heq <;> omega
  -- the power is 1 here, and the one is not taken out of the hash
  obtain ⟨j, hj, hrepeat⟩ := hresult'.repeats hr' (by omega)
  obtain ⟨hzero', hone', htwo'⟩ := rolled_mark_one m start
  rw [htwo', show 1 - start = 0 by omega] at hrepeat
  match j, hj with
  | 0, _ =>
    rw [hzero'] at hrepeat
    exact absurd hrepeat (by decide)
  | 1, _ =>
    rw [hone'] at hrepeat
    exact absurd hrepeat (by decide)

/-! ## The condition -/

/-- For all strings of length `n`, the start position is taken into account exactly if it is zero,
if there is only one window, or if there are two windows of one character whose positions fit. -/
theorem stringHash_agrees_iff (size start n : ℕ) (hsize : 1 ≤ size) (hmax : size < 2 ^ 31)
    (hstart : start < 2 ^ 31) (hle : start + size ≤ n) (hlen : n < 2 ^ 63) :
    (∀ s : List (BitVec 8), s.length = n → Agrees s size start) ↔
      start = 0 ∨ start + size = n ∨ size = 1 ∧ start + 2 = n ∧ n ≤ 2 ^ 31 := by
  constructor
  · intro hall
    by_contra hcond
    have hpos : 0 < start := by omega
    rcases Nat.lt_or_ge (start + size) (2 ^ 31) with hlt | hge
    · rcases hsize.lt_or_eq with htwo | rfl
      · refine not_agrees_mark (m := n - (start + size)) htwo hpos hlt (by omega) (by omega)
          (hall _ ?_)
        rw [length_mark]
        omega
      · refine not_agrees_mark_one (m := n - (start + 2)) hpos hlt (by omega) (by omega)
          (hall _ ?_)
        rw [length_mark]
        omega
    -- the first position behind the first window does not fit
    · exact not_agrees_replicate hsize hmax hstart hge (by omega) (by omega)
        (hall _ List.length_replicate)
  · rintro (rfl | heq | ⟨rfl, heq, hfits⟩) s rfl
    · exact agrees_zero (by omega) hmax (by omega)
    · exact agrees_of_length hmax hstart (by omega) heq
    · rcases Nat.eq_zero_or_pos start with rfl | hpos
      · exact agrees_zero hle hmax (by omega)
      · exact agrees_one hpos heq hfits

/-- Windows of two characters from position three of five. -/
theorem stringHash_agrees_iff_five :
    (∀ s : List (BitVec 8), s.length = 5 → Agrees s 2 3) ↔
      3 = 0 ∨ 3 + 2 = 5 ∨ 2 = 1 ∧ 3 + 2 = 5 ∧ 5 ≤ 2 ^ 31 :=
  stringHash_agrees_iff 2 3 5 (by decide) (by decide) (by decide) (by decide) (by decide)

/-- The second `ab` of `abab` ends at position 3, and that of `xabab` at position 4. -/
theorem stringHash_start :
    stringHash [97, 98, 97, 98] (2 : ℕ) (0 : ℕ) = .ok 3 ∧
      stringHash [120, 97, 98, 97, 98] (2 : ℕ) (1 : ℕ) = .ok 3 ∧
      ¬Agrees [120, 97, 98, 97, 98] 2 1 := by
  have hrest : stringHash [97, 98, 97, 98] (2 : ℕ) (0 : ℕ) = .ok 3 := by decide
  have hcode : stringHash [120, 97, 98, 97, 98] (2 : ℕ) (1 : ℕ) = .ok 3 := by decide
  refine ⟨hrest, hcode, ?_⟩
  rintro ⟨r, hrun, hrun'⟩
  obtain rfl := Except.ok.inj (hrest.symm.trans hrun)
  exact absurd (Except.ok.inj (hcode.symm.trans hrun')) (by decide)

end CppLearn.StringHash

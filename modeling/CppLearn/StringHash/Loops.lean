import CppLearn.Lib.RollingHash
import CppLearn.StringHash.Defs
import Mathlib.Data.BitVec

/-!
# The loops of `StringHash::operator()`

The first loop computes a hash of the characters from position `start` up to position `size`, and a
power of the base. From these the second loop computes one hash after the other, and stops at the
first one that is equal to an earlier one.

The hashes that the second loop computes are `rolled`. A hash that occurs again is `Repeats`, and
what is returned then is `Result`. The states of a run are `Reaches`, so `stringHash_spec` says when
the function returns, and what.
-/

namespace CppLearn.StringHash

open BoundedLoop CheckedVector Signed

variable {s : List (BitVec 8)} {p : BitVec 64} {f g : ℕ → BitVec 64} {size start j k n B N : ℕ}
  {r : ℤ}

/-! ## Hashes that occur again -/

/-- The hash number `k` is equal to an earlier one. -/
def Repeats (f : ℕ → BitVec 64) (k : ℕ) : Prop := ∃ j < k, f j = f k

/-- The hashes up to number `k`, the last one first. -/
def seen (f : ℕ → BitVec 64) : ℕ → List (BitVec 64)
  | 0 => [f 0]
  | k + 1 => f (k + 1) :: seen f k

/-- The set has the hashes seen so far, -/
theorem mem_seen {x : BitVec 64} : x ∈ seen f k ↔ ∃ j ≤ k, f j = x := by
  induction k with
  | zero => simp [seen, eq_comm]
  | succ k ih =>
    rw [seen, List.mem_cons, ih]
    constructor
    · rintro (rfl | ⟨j, hj, rfl⟩)
      · exact ⟨k + 1, le_rfl, rfl⟩
      · exact ⟨j, Nat.le_succ_of_le hj, rfl⟩
    · rintro ⟨j, hj, rfl⟩
      rcases hj.eq_or_lt with rfl | hj
      · exact .inl rfl
      · exact .inr ⟨j, Nat.le_of_lt_succ hj, rfl⟩

/-- and tells a repetition. -/
theorem mem_seen_iff : f (k + 1) ∈ seen f k ↔ Repeats f (k + 1) := by
  rw [mem_seen]
  simp only [Repeats, Nat.lt_succ_iff]

/-- The position of the first hash that occurs again, where hash number `k + 1` is computed at
position `B + k`, or zero if there is none before position `N`. -/
def Result (f : ℕ → BitVec 64) (B N : ℕ) (r : ℤ) : Prop :=
  (∃ k, B + k < N ∧ Repeats f (k + 1) ∧ (∀ j < k, ¬Repeats f (j + 1)) ∧ r = (B + k : ℕ)) ∨
    r = 0 ∧ ∀ k, B + k < N → ¬Repeats f (k + 1)

/-! ## The hashes -/

/-- `h` after the first loop. -/
def startHash (s : List (BitVec 8)) (size start : ℕ) : BitVec 64 :=
  polyHash base ((window s (size - start) start).map charWord)

/-- The hashes that the second loop computes. -/
def rolled (s : List (BitVec 8)) (size start : ℕ) : ℕ → BitVec 64
  | 0 => startHash s size start
  | k + 1 => rolled s size start k * base -
      base ^ (size - start) * charWord (s.getD (start + k) 0) +
      charWord (s.getD (start + size + k) 0)

/-- One more character. -/
theorem absorb_eq (hk : k < s.length) (h : BitVec 64) (n : ℕ) :
    absorb s (k : ℕ) (h, base ^ n) = .ok (h * base + charWord s[k], base ^ (n + 1)) := by
  rw [absorb, read_eq hk, ok_bind, pow_succ]

/-- The first loop. -/
theorem firstHash_spec (hsize : size ≤ s.length) :
    firstHash s size start = .ok (startHash s size start, base ^ (size - start)) := by
  have hcount : ((size : ℤ) - start).toNat = size - start := by omega
  obtain ⟨st, hrun, rfl⟩ : ∃ st, forLoop 0 (size - start) (fun k => absorb s ((start : ℤ) + k))
      ((0 : BitVec 64), (1 : BitVec 64)) = .ok st ∧
      st = (startHash s size start, base ^ (size - start)) := by
    -- the hash and the power after `k` characters
    refine forLoop_spec (I := fun k st => st =
      (polyHash base ((window s k start).map charWord), base ^ k)) ?_ (Nat.zero_le _) ?_
    · rintro k _ - hk rfl
      have hlen : start + k < s.length := by omega
      refine ⟨_, absorb_eq hlen _ k, ?_⟩
      rw [window_concat hlen, List.map_append, List.map_cons, List.map_nil, polyHash_concat]
    · simp [window, polyHash]
  rw [firstHash, hcount, hrun]

/-! ## The second loop -/

/-- The state before hash number `k + 1`. -/
def stateAt (f : ℕ → BitVec 64) (B k : ℕ) : HashState := ⟨f k, seen f k, narrow 32 (B + k : ℕ)⟩

/-- The state before the loop, -/
theorem stateAt_zero : stateAt (rolled s size start) (start + size) 0 =
    ⟨startHash s size start, [startHash s size start], narrow 32 ((start : ℤ) + size)⟩ := by
  rw [stateAt, Nat.add_zero, Nat.cast_add]
  rfl

/-- The update at position `start + size + k`. -/
theorem roll_eq (hk : start + size + k < s.length) (hmax : start + size + k < 2 ^ 31) :
    roll s size (base ^ (size - start)) (stateAt (rolled s size start) (start + size) k) =
      .ok (rolled s size start (k + 1)) := by
  have hold : ((start + size + k : ℕ) : ℤ) - size = (start + k : ℕ) := by omega
  rw [roll, stateAt, narrow_natCast (by omega)]
  dsimp only
  rw [hold, read_ok (show start + k < s.length by omega) 0, ok_bind, read_ok hk 0, ok_bind]
  rfl

/-- An iteration computes the next hash, and returns if it is equal to an earlier one. -/
theorem hashStep_eq (s : List (BitVec 8)) (size start k : ℕ) (hk : start + size + k < s.length)
    (hmax : start + size + k < 2 ^ 31) :
    hashStep s size (base ^ (size - start)) (stateAt (rolled s size start) (start + size) k) =
      if rolled s size start (k + 1) ∈ seen (rolled s size start) k then
        .ok (.inr ((start + size + k : ℕ) : ℤ))
      else .ok (.inl (stateAt (rolled s size start) (start + size) (k + 1))) := by
  have hidx : (stateAt (rolled s size start) (start + size) k).idx = (start + size + k : ℕ) := by
    rw [stateAt, narrow_natCast (by omega)]
  rw [hashStep, hidx, if_pos (by omega), roll_eq hk hmax, ok_bind]
  rfl

/-- and how the loop is left at the end of the string. -/
theorem hashStep_exit {st : HashState} (h : s.length ≤ st.idx % 2 ^ 64) (size : ℤ)
    (p : BitVec 64) : hashStep s size p st = .ok (.inr 0) :=
  if_neg (not_lt.2 h)

/-- A position that does not fit is larger than the length, after the conversion to the type of
lengths. -/
theorem length_le_position (hlen : s.length < 2 ^ 63) (hlow : 2 ^ 31 ≤ n) (hhigh : n < 2 ^ 32) :
    s.length ≤ narrow 32 (n : ℕ) % 2 ^ 64 := by
  have hneg := narrow_neg (w := 32) (x := n) (by omega) (by omega)
  have hfits := (narrow_fits 32 n).1
  omega

/-- The loop is left at the end of the string, and when the position does not fit. -/
theorem length_le_position_of_eq (hlen : s.length < 2 ^ 63) (hn : n = min s.length (2 ^ 31)) :
    s.length ≤ narrow 32 (n : ℕ) % 2 ^ 64 := by
  rcases Nat.lt_or_ge s.length (2 ^ 31) with hlt | hge
  · rw [narrow_natCast (by omega)]
    omega
  · exact length_le_position hlen (by omega) (by omega)

/-- After all positions, the function returns zero. -/
theorem hashStep_stateAt_exit (hlen : s.length < 2 ^ 63)
    (hk : start + size + k = min s.length (2 ^ 31)) (p : BitVec 64) :
    hashStep s size p (stateAt f (start + size) k) = .ok (.inr 0) := by
  refine hashStep_exit ?_ _ _
  rw [stateAt]
  dsimp only
  exact length_le_position_of_eq hlen hk

/-- `StringHash::operator()`. -/
theorem stringHash_spec (s : List (BitVec 8)) (size start : ℕ) (hsize : start + size ≤ s.length)
    (hmax : start + size < 2 ^ 31) (hlen : s.length < 2 ^ 63) :
    ∃ r, stringHash s size start = .ok r ∧
      Result (rolled s size start) (start + size) (min s.length (2 ^ 31)) r := by
  have hloop : ∃ r, iterate (fun _ => .diverged) (hashStep s size (base ^ (size - start)))
      (s.length + 1) (stateAt (rolled s size start) (start + size) 0) = .ok r ∧
      Result (rolled s size start) (start + size) (min s.length (2 ^ 31)) r := by
    -- `m` positions are left, and no hash up to number `k` is equal to an earlier one
    refine iterate_spec (I := fun m st => ∃ k, start + size + k + m = min s.length (2 ^ 31) ∧
      st = stateAt (rolled s size start) (start + size) k ∧
      ∀ j < k, ¬Repeats (rolled s size start) (j + 1)) ?_
      ⟨0, Nat.add_sub_of_le (show start + size ≤ min s.length (2 ^ 31) by omega), rfl,
        fun j hj => absurd hj (Nat.not_lt_zero j)⟩ (by omega)
    rintro m _ ⟨k, hm, rfl, hfirst⟩
    cases m with
    | zero =>
      have hstep := hashStep_stateAt_exit (f := rolled s size start) hlen
        (show start + size + k = min s.length (2 ^ 31) by omega) (base ^ (size - start))
      exact .inl ⟨0, hstep, .inr ⟨rfl, fun j hj => hfirst j (by omega)⟩⟩
    | succ m =>
      have hstep := hashStep_eq s size start k (by omega) (by omega)
      -- the hash is found in the set, or added to it
      by_cases hrepeat : Repeats (rolled s size start) (k + 1)
      · rw [if_pos (mem_seen_iff.2 hrepeat)] at hstep
        exact .inl ⟨_, hstep, .inl ⟨k, by omega, hrepeat, hfirst, rfl⟩⟩
      · rw [if_neg (mem_seen_iff.not.2 hrepeat)] at hstep
        exact .inr ⟨_, m, hstep, Nat.lt_succ_self m, k + 1, by omega, rfl,
          Nat.forall_lt_succ_right.2 ⟨hfirst, hrepeat⟩⟩
  obtain ⟨r, hrun, hresult⟩ := hloop
  refine ⟨r, ?_, hresult⟩
  rw [stateAt_zero] at hrun
  exact bind_eq_ok.2 ⟨_, firstHash_spec (by omega), hrun⟩

/-! ## The states of a run -/

/-- The states at the beginnings of the iterations of the second loop, with the value of `p`. -/
inductive Reaches (s : List (BitVec 8)) (size start : ℤ) : HashState → BitVec 64 → Prop
  | start {h p : BitVec 64} : firstHash s size start = .ok (h, p) →
      Reaches s size start ⟨h, [h], narrow 32 (start + size)⟩ p
  | next {st st' : HashState} {p : BitVec 64} : Reaches s size start st p →
      hashStep s size p st = .ok (.inl st') → Reaches s size start st' p

/-- All states of the loop are of this form. -/
theorem Reaches.eq_stateAt (start : ℕ) {st : HashState} (h : Reaches s size start st p)
    (hsize : start + size ≤ s.length) (hmax : start + size < 2 ^ 31) (hlen : s.length < 2 ^ 63) :
    p = base ^ (size - start) ∧ ∃ k, start + size + k ≤ min s.length (2 ^ 31) ∧
      st = stateAt (rolled s size start) (start + size) k := by
  induction h with
  | start hfirst =>
    rw [firstHash_spec (by omega)] at hfirst
    obtain ⟨rfl, rfl⟩ := Prod.mk.inj (Except.ok.inj hfirst)
    exact ⟨rfl, 0, by omega, stateAt_zero.symm⟩
  | next _ hstep ih =>
    obtain ⟨rfl, k, hk, rfl⟩ := ih
    refine ⟨rfl, k + 1, ?_⟩
    rcases hk.lt_or_eq with hlt | heq
    · rw [hashStep_eq s size start k (by omega) (by omega)] at hstep
      split_ifs at hstep
      · cases Except.ok.inj hstep
      · obtain rfl := Sum.inl.inj (Except.ok.inj hstep)
        exact ⟨by omega, rfl⟩
    · rw [hashStep_stateAt_exit hlen heq] at hstep
      cases hstep

end CppLearn.StringHash

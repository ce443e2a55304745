import CppLearn.Lib.CheckedVector
import CppLearn.Lib.Signed
import Mathlib.Data.List.TakeWhile
import Mathlib.Data.Nat.Find

/-!
# The monotonic stack of `monotonic_stack_test.cc`

For each day, `solve` looks for the next one that is not colder, from the last day to the first one.
On its stack are the days that can still be found. The comment in the source asks for the next
warmer day, but days with the same temperature stay on the stack.

The last day is an `int`, so that nothing is answered for 2 ^ 31 + 1 days. For as many days as an
`int` can number, `solve_eq` gives all answers.
-/

namespace CppLearn.MonotonicStack

open BoundedLoop CheckedVector

/-- `if (!s.empty()) out[i] = s.top().second - i`. -/
def answer (out : List ℤ) (i : ℕ) : List (ℤ × ℕ) → Except Fault (List ℤ)
  | [] => .ok out
  | top :: _ => write out i (top.2 - i)

/-- The loop over the days, of which `i` are left. The stack begins with its top. -/
def solveLoop (input : List ℤ) : ℕ → List ℤ → List (ℤ × ℕ) → Except Fault (List ℤ)
  | 0, out, _ => .ok out
  | i + 1, out, s => do
    let x ← read input i
    -- the loop that pops
    let s := s.dropWhile (·.1 < x)
    let out ← answer out i s
    solveLoop input i out ((x, i) :: s)

/-- `solve`, where `size` is `in.size()`; the temperatures are those of `input`, which it captures.
The loop begins with `int i = in.size() - 1`. -/
def solve (input : List ℤ) (size : ℕ) : Except Fault (List ℤ) :=
  let i := Signed.narrow 32 (size - 1)
  solveLoop input (i + 1).toNat (List.replicate size 0) []

/-- The test of the source. -/
example : solve [73, 74, 75, 71, 69, 72, 76, 73] 8 = .ok [1, 1, 4, 2, 1, 1, 0, 0] := by decide

/-- The day `j` is the first one after `i`, before `n`, that is not colder. -/
def IsNext (a : ℕ → ℤ) (n i j : ℕ) : Prop :=
  i < j ∧ j < n ∧ a i ≤ a j ∧ ∀ m, i < m → m < j → a m < a i

/-- The days of a stack, when the day `k` is its newest one. -/
structure Holds (a : ℕ → ℤ) (n k : ℕ) (s : List (ℤ × ℕ)) : Prop where
  sorted : s.Pairwise fun e e' => e.2 < e'.2 ∧ e.1 ≤ e'.1
  day : ∀ e ∈ s, k ≤ e.2 ∧ e.2 < n ∧ e.1 = a e.2
  complete : ∀ j, k ≤ j → j < n → (∀ m, k ≤ m → m < j → a m ≤ a j) → (a j, j) ∈ s

variable {a : ℕ → ℤ} {n k i j : ℕ} {s rest : List (ℤ × ℕ)} {x : ℤ} {top : ℤ × ℕ}

theorem mem_dropWhile_of_not {p : ℤ × ℕ → Bool} (hmem : top ∈ s) (hp : p top = false) :
    top ∈ s.dropWhile p := by
  rw [← s.takeWhile_append_dropWhile (p := p)] at hmem
  refine (List.mem_append.1 hmem).resolve_left fun htake => ?_
  rw [List.mem_takeWhile_imp htake] at hp
  cases hp

/-- A day that is not colder than the day before the stack: the first such day is on the stack, and
it is not popped. -/
theorem Holds.exists_mem (h : Holds a n (i + 1) s) (hij : i < j) (hjn : j < n)
    (hle : a i ≤ a j) : ∃ m, i < m ∧ m ≤ j ∧ (a m, m) ∈ s.dropWhile (·.1 < a i) := by
  have hex : ∃ m, i < m ∧ m < n ∧ a i ≤ a m := ⟨j, hij, hjn, hle⟩
  obtain ⟨him, hmn, hle'⟩ := Nat.find_spec hex
  have hmin : ∀ m, i < m → m < Nat.find hex → a m < a i := fun m hm hlt => by
    by_contra hnot
    exact Nat.find_min hex hlt ⟨hm, hlt.trans hmn, not_lt.1 hnot⟩
  refine ⟨Nat.find hex, him, Nat.find_min' hex ⟨hij, hjn, hle⟩, ?_⟩
  refine mem_dropWhile_of_not (h.complete _ him hmn fun m hm hlt => ?_) ?_
  · exact (hmin m hm hlt).le.trans hle'
  · exact decide_eq_false hle'.not_gt

/-- After the loop that pops, the top is the next day. -/
theorem Holds.isNext (h : Holds a n (i + 1) s) (htop : s.dropWhile (·.1 < a i) = top :: rest) :
    IsNext a n i top.2 := by
  have hsuffix := List.dropWhile_suffix (l := s) (fun e => decide (e.1 < a i))
  rw [htop] at hsuffix
  obtain ⟨hlt, hn, heq⟩ := h.day top (hsuffix.subset List.mem_cons_self)
  have hsorted := (List.pairwise_cons.1 (h.sorted.sublist hsuffix.sublist)).1
  have hge : a i ≤ top.1 := by
    have hhead := List.head?_dropWhile_not (fun e : ℤ × ℕ => decide (e.1 < a i)) s
    rw [htop] at hhead
    exact not_lt.1 (of_decide_eq_false hhead)
  refine ⟨hlt, hn, heq ▸ hge, fun m hm hlt => ?_⟩
  by_contra hnot
  obtain ⟨m', -, hle, hmem⟩ := h.exists_mem hm (hlt.trans hn) (not_lt.1 hnot)
  rw [htop] at hmem
  -- but the days below the top are later
  rcases List.mem_cons.1 hmem with heq | hrest
  · have := congrArg Prod.snd heq
    dsimp only at this
    omega
  · have := (hsorted _ hrest).1
    dsimp only at this
    omega

/-- If all days are popped, there is no next day. -/
theorem Holds.lt_of_nil (h : Holds a n (i + 1) s) (hnil : s.dropWhile (·.1 < a i) = [])
    (hij : i < j) (hjn : j < n) : a j < a i := by
  by_contra hnot
  obtain ⟨m, -, -, hmem⟩ := h.exists_mem hij hjn (not_lt.1 hnot)
  rw [hnil] at hmem
  cases hmem

/-- The stack after a day. -/
theorem Holds.push (h : Holds a n (i + 1) s) (hi : i < n) :
    Holds a n i ((a i, i) :: s.dropWhile (·.1 < a i)) := by
  have hsuffix := List.dropWhile_suffix (l := s) (fun e => decide (e.1 < a i))
  have hsorted := h.sorted.sublist hsuffix.sublist
  refine ⟨List.pairwise_cons.2 ⟨fun e he => ?_, hsorted⟩, fun e he => ?_, fun j hij hjn hle => ?_⟩
  · refine ⟨(h.day e (hsuffix.subset he)).1, ?_⟩
    -- the top is not colder, and those below it are not colder than the top
    cases htop : s.dropWhile (·.1 < a i) with
    | nil =>
      rw [htop] at he
      cases he
    | cons top rest =>
      have hhead := List.head?_dropWhile_not (fun e : ℤ × ℕ => decide (e.1 < a i)) s
      rw [htop] at hhead he hsorted
      have hge : a i ≤ top.1 := not_lt.1 (of_decide_eq_false hhead)
      rcases List.mem_cons.1 he with rfl | he
      · exact hge
      · exact hge.trans ((List.pairwise_cons.1 hsorted).1 e he).2
  · rcases List.mem_cons.1 he with rfl | he
    · exact ⟨le_rfl, hi, rfl⟩
    · obtain ⟨hle, hlt, heq⟩ := h.day e (hsuffix.subset he)
      exact ⟨by omega, hlt, heq⟩
  · rcases hij.eq_or_lt with rfl | hlt
    · exact List.mem_cons_self
    · refine List.mem_cons_of_mem _ (mem_dropWhile_of_not
        (h.complete j hlt hjn fun m hm hmj => hle m (by omega) hmj) ?_)
      exact decide_eq_false (hle i le_rfl hlt).not_gt

/-- What should be the answer for a day. -/
def IsAnswer (a : ℕ → ℤ) (n i : ℕ) (y : ℤ) : Prop :=
  (∃ j, IsNext a n i j ∧ y = j - i) ∨ ((∀ j, i < j → j < n → a j < a i) ∧ y = 0)

/-- The answers for the days from `k` on. -/
structure Answers (a : ℕ → ℤ) (n k : ℕ) (out : List ℤ) : Prop where
  length : out.length = n
  eq_zero : ∀ i < k, out.getD i 0 = 0
  isAnswer : ∀ i, k ≤ i → i < n → IsAnswer a n i (out.getD i 0)

variable {out : List ℤ}

/-- One more answer is written, or is left zero. -/
theorem Answers.write (h : Answers a n (i + 1) out) (hs : Holds a n (i + 1) s) (hi : i < n) :
    ∃ out', answer out i (s.dropWhile (·.1 < a i)) = .ok out' ∧ Answers a n i out' := by
  cases htop : s.dropWhile (·.1 < a i) with
  | nil =>
    refine ⟨out, rfl, h.length, fun j hj => h.eq_zero j (Nat.lt_succ_of_lt hj), fun j hij hjn => ?_⟩
    rcases hij.eq_or_lt with rfl | hlt
    · exact .inr ⟨fun j hij hjn => hs.lt_of_nil htop hij hjn, h.eq_zero _ (Nat.lt_succ_self _)⟩
    · exact h.isAnswer j hlt hjn
  | cons top rest =>
    have hlt : i < out.length := by rwa [h.length]
    have hset := congrFun (getD_set hlt (top.2 - i : ℤ) 0)
    refine ⟨out.set i (top.2 - i), write_ok hlt _, ?_, fun j hj => ?_, fun j hij hjn => ?_⟩
    · rw [List.length_set, h.length]
    · rw [hset, Function.update_of_ne hj.ne]
      exact h.eq_zero j (Nat.lt_succ_of_lt hj)
    · rcases hij.eq_or_lt with rfl | hlt'
      · rw [hset, Function.update_self]
        exact .inl ⟨top.2, hs.isNext htop, rfl⟩
      · rw [hset, Function.update_of_ne hlt'.ne']
        exact h.isAnswer j hlt' hjn

/-- The loop, from any day on. -/
theorem Answers.solveLoop {input : List ℤ} (h : Answers (input.getD · 0) n k out)
    (hs : Holds (input.getD · 0) n k s) (hk : k ≤ n) (hn : n ≤ input.length) :
    ∃ out', solveLoop input k out s = .ok out' ∧ Answers (input.getD · 0) n 0 out' := by
  induction k generalizing out s with
  | zero => exact ⟨out, rfl, h⟩
  | succ i ih =>
    obtain ⟨out₁, hwrite, h₁⟩ := h.write hs hk
    obtain ⟨out', hrun, h'⟩ := ih h₁ (hs.push hk) (Nat.le_of_succ_le hk)
    refine ⟨out', ?_, h'⟩
    rw [MonotonicStack.solveLoop, read_ok (show i < input.length by omega) 0, ok_bind]
    dsimp only
    rw [hwrite, ok_bind, hrun]

/-- The loop begins with all days. -/
theorem daysLeft_eq {size : ℕ} (hint : size ≤ 2 ^ 31) :
    (Signed.narrow 32 (size - 1) + 1).toNat = size := by
  rw [Signed.narrow_eq ⟨by omega, by omega⟩]
  omega

/-- The answer for a day is the number of days to the next one that is not colder, or zero if there
is none. -/
theorem solve_eq (input : List ℤ) (size : ℕ) (hsize : size ≤ input.length) (hint : size ≤ 2 ^ 31) :
    ∃ out, solve input size = .ok out ∧ out.length = size ∧
      ∀ i < size, IsAnswer (input.getD · 0) size i (out.getD i 0) := by
  have hstart : Answers (input.getD · 0) size size (List.replicate size 0) :=
    ⟨List.length_replicate, fun i hi => by simp [hi], fun i hi hlt => absurd hi hlt.not_ge⟩
  have hempty : Holds (input.getD · 0) size size [] :=
    ⟨.nil, by simp, fun j hj hlt => absurd hj hlt.not_ge⟩
  obtain ⟨out, hrun, h⟩ := hstart.solveLoop hempty le_rfl hsize
  refine ⟨out, ?_, h.length, fun i hi => h.isAnswer i (Nat.zero_le i) hi⟩
  rw [solve, daysLeft_eq hint, hrun]

/-- Five days, of which two have the same temperature. -/
theorem solve_eq_same :
    ∃ out, solve [7, 5, 7, 9, 8] 5 = .ok out ∧ out.length = 5 ∧
      ∀ i < 5, IsAnswer ([7, 5, 7, 9, 8].getD · 0) 5 i (out.getD i 0) :=
  solve_eq [7, 5, 7, 9, 8] 5 le_rfl (by decide)

end CppLearn.MonotonicStack

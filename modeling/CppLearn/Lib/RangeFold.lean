import Mathlib.Algebra.Order.Ring.Nat
import Mathlib.Data.List.Basic

/-!
# Folding an operation over a range of positions

`rangeFold op a i n` is `a i`, combined with the `n` following elements from left to right. If the
operation is associative, commutative and idempotent, like a maximum, then two ranges that overlap
can be combined as if they did not.

For a power of two, `doublingFold` computes the same by halves. Two adjacent ranges are
`rangeFold_append`. If the operation is an `IsSemilattice`, `rangeFold_overlap` is the case of two
ranges that overlap. `foldl_take_drop` reads the range as a part of a list.
-/

variable {T : Type*}

/-- The elements `a i, ..., a (i + n)`, combined from left to right. -/
def rangeFold (op : T → T → T) (a : ℕ → T) (i : ℕ) : ℕ → T
  | 0 => a i
  | n + 1 => op (rangeFold op a i n) (a (i + n + 1))

variable {op : T → T → T} {a : ℕ → T} {i j m n : ℕ}

/-- The operation is associative, commutative and idempotent. -/
structure IsSemilattice (op : T → T → T) : Prop where
  assoc : ∀ x y z, op (op x y) z = op x (op y z)
  comm : ∀ x y, op x y = op y x
  idem : ∀ x, op x x = x

/-- Two adjacent ranges. -/
theorem rangeFold_append (h : IsSemilattice op) (a : ℕ → T) (i m n : ℕ) :
    op (rangeFold op a i m) (rangeFold op a (i + m + 1) n) = rangeFold op a i (m + n + 1) := by
  induction n with
  | zero => rfl
  | succ n ih =>
    have hlast : i + m + 1 + n + 1 = i + (m + n + 1) + 1 := by omega
    rw [rangeFold, ← h.assoc, ih, hlast]
    rfl

/-- An element of the range changes nothing. -/
theorem rangeFold_absorb (h : IsSemilattice op) (hij : i ≤ j) (hjn : j ≤ i + n) :
    op (rangeFold op a i n) (a j) = rangeFold op a i n := by
  induction n with
  | zero =>
    obtain rfl : j = i := by omega
    exact h.idem (a j)
  | succ n ih =>
    rw [rangeFold, h.assoc]
    by_cases hj : j = i + n + 1
    · rw [hj, h.idem]
    · rw [h.comm (a (i + n + 1)), ← h.assoc, ih (by omega)]

/-- An element of the range, or the one behind it. -/
theorem rangeFold_concat (h : IsSemilattice op) (hij : i ≤ j) (hjn : j ≤ i + n + 1) :
    op (rangeFold op a i n) (a j) = rangeFold op a i (max n (j - i)) := by
  by_cases hj : j ≤ i + n
  · rw [rangeFold_absorb h hij hj, max_eq_left (by omega)]
  · obtain rfl : j = i + n + 1 := by omega
    have hlast : i + n + 1 - i = n + 1 := by omega
    rw [hlast, max_eq_right (Nat.le_succ n), rangeFold]

/-- Two ranges, the second of which begins inside the first one or right behind it. -/
theorem rangeFold_overlap (h : IsSemilattice op) (hij : i ≤ j) (hjm : j ≤ i + m + 1) :
    op (rangeFold op a i m) (rangeFold op a j n) = rangeFold op a i (max m (j + n - i)) := by
  induction n with
  | zero => rw [rangeFold, rangeFold_concat h hij hjm, Nat.add_zero]
  | succ n ih =>
    rw [rangeFold, ← h.assoc, ih, rangeFold_concat h (by omega) (by omega)]
    congr 1
    omega

/-- The fold over `2 ^ k` elements, as the combination of its two halves. -/
def doublingFold (op : T → T → T) (a : ℕ → T) : ℕ → ℕ → T
  | i, 0 => a i
  | i, k + 1 => op (doublingFold op a i k) (doublingFold op a (i + 2 ^ k) k)

theorem doublingFold_eq (h : IsSemilattice op) (a : ℕ → T) (i k : ℕ) :
    doublingFold op a i k = rangeFold op a i (2 ^ k - 1) := by
  induction k generalizing i with
  | zero => rfl
  | succ k ih =>
    have hpos : 0 < 2 ^ k := Nat.two_pow_pos k
    have hmid : i + 2 ^ k = i + (2 ^ k - 1) + 1 := by omega
    have hlen : 2 ^ (k + 1) - 1 = 2 ^ k - 1 + (2 ^ k - 1) + 1 := by
      rw [Nat.pow_succ]
      omega
    rw [doublingFold, ih, ih, hlen, ← rangeFold_append h, ← hmid]

/-- The fold over a part of a list. -/
theorem foldl_take_drop (op : T → T → T) (v : List T) (d : T) (hn : i + n < v.length) :
    ((v.drop (i + 1)).take n).foldl op (v.getD i d) =
      rangeFold op (fun k => v.getD k d) i n := by
  induction n with
  | zero => rfl
  | succ n ih =>
    have hlt : n < (v.drop (i + 1)).length := by
      rw [List.length_drop]
      omega
    have hlt' : i + n + 1 < v.length := by omega
    have hidx : i + 1 + n = i + n + 1 := by omega
    rw [List.take_succ_eq_append_getElem hlt, List.foldl_append, ih (by omega), rangeFold]
    simp [hidx, hlt']

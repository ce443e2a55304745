import Mathlib.Algebra.Order.Ring.Nat
import Mathlib.Tactic.Common
import Mathlib.Tactic.Ring

/-!
# Binary trees in heap order

The nodes of a binary tree numbered level by level: the root is `0`, and the children of node `i`
are `2 * i + 1` and `2 * i + 2`. An array indexed by these numbers stores a tree without pointers.

`childIndex` and `nodeIndex` are the numbers of a child and of the end of a path. Every number is
that of a node (`exists_nodeIndex_of_lt`), and at a given depth they are within the bounds of
`nodeIndex_bounds`. `Below` are the nodes of a subtree; those of two siblings are disjoint
(`not_below_sibling`).
-/

namespace HeapOrder

/-- The index of a child. -/
def childIndex (i : ℕ) (d : Bool) : ℕ := if d then 2 * i + 2 else 2 * i + 1

/-- The index of the end of a path. -/
def nodeIndex : ℕ → List Bool → ℕ
  | i, [] => i
  | i, d :: p => nodeIndex (childIndex i d) p

/-- The indices of the nodes at a given depth below a node. -/
theorem nodeIndex_bounds (i : ℕ) (p : List Bool) :
    (i + 1) * 2 ^ p.length ≤ nodeIndex i p + 1 ∧ nodeIndex i p + 2 ≤ (i + 2) * 2 ^ p.length := by
  induction p generalizing i with
  | nil => simp [nodeIndex]
  | cons d p ih =>
    have hpow : 2 ^ (d :: p).length = 2 * 2 ^ p.length := by
      rw [List.length_cons, Nat.pow_succ, Nat.mul_comm]
    have hrange : 2 * (i + 1) ≤ childIndex i d + 1 ∧ childIndex i d + 2 ≤ 2 * (i + 2) := by
      unfold childIndex
      split_ifs <;> omega
    obtain ⟨hlow, hhigh⟩ := ih (childIndex i d)
    rw [nodeIndex, hpow]
    constructor
    · calc (i + 1) * (2 * 2 ^ p.length) = 2 * (i + 1) * 2 ^ p.length := by ring
        _ ≤ (childIndex i d + 1) * 2 ^ p.length := Nat.mul_le_mul_right _ hrange.1
        _ ≤ nodeIndex (childIndex i d) p + 1 := hlow
    · calc nodeIndex (childIndex i d) p + 2 ≤ (childIndex i d + 2) * 2 ^ p.length := hhigh
        _ ≤ 2 * (i + 2) * 2 ^ p.length := Nat.mul_le_mul_right _ hrange.2
        _ = (i + 2) * (2 * 2 ^ p.length) := by ring

/-- The nodes of the first `n` levels have numbers below `2 ^ n - 1`. -/
theorem nodeIndex_lt {n : ℕ} {p : List Bool} (hp : p.length < n) : nodeIndex 0 p + 1 < 2 ^ n := by
  have hbound := (nodeIndex_bounds 0 p).2
  have hpow : 2 ^ (p.length + 1) ≤ 2 ^ n := Nat.pow_le_pow_right (by decide) hp
  rw [Nat.pow_succ] at hpow
  omega

/-- Only the empty path leads to the root. -/
theorem nodeIndex_eq_zero {p : List Bool} (h : nodeIndex 0 p = 0) : p = [] := by
  have hlow := (nodeIndex_bounds 0 p).1
  rw [h, Nat.zero_add, Nat.one_mul] at hlow
  rw [← List.length_eq_zero_iff]
  by_contra hlen
  have := Nat.one_lt_two_pow hlen
  omega

/-- Children have larger numbers. -/
theorem lt_childIndex (i : ℕ) (d : Bool) : i < childIndex i d := by
  unfold childIndex
  split_ifs <;> omega

/-- The numbers grow along a path. -/
theorem le_nodeIndex (i : ℕ) (p : List Bool) : i ≤ nodeIndex i p := by
  induction p generalizing i with
  | nil => exact Nat.le_refl i
  | cons d p ih => exact (lt_childIndex i d).le.trans (ih _)

/-- One more step leads to a child. -/
theorem nodeIndex_concat (i : ℕ) (p : List Bool) (d : Bool) :
    nodeIndex i (p ++ [d]) = childIndex (nodeIndex i p) d := by
  induction p generalizing i with
  | nil => rfl
  | cons e p ih => exact ih _

/-- Every number is that of a node. -/
theorem exists_nodeIndex (j : ℕ) : ∃ p, nodeIndex 0 p = j := by
  induction j using Nat.strong_induction_on with
  | _ j ih =>
    rcases Nat.eq_zero_or_pos j with rfl | hpos
    · exact ⟨[], rfl⟩
    · -- the parent of `j` has the index `(j - 1) / 2`
      obtain ⟨p, hp⟩ := ih ((j - 1) / 2) (by omega)
      refine ⟨p ++ [decide (j % 2 = 0)], ?_⟩
      rw [nodeIndex_concat, hp, childIndex]
      split_ifs with heven
      · have := of_decide_eq_true heven
        omega
      · have : ¬j % 2 = 0 := fun hmod => heven (decide_eq_true hmod)
        omega

/-- The numbers below `2 ^ (h + 1) - 1` are those of the nodes of a tree of height `h`. -/
theorem exists_nodeIndex_of_lt {j h : ℕ} (hj : j + 1 < 2 ^ (h + 1)) :
    ∃ p, p.length ≤ h ∧ nodeIndex 0 p = j := by
  obtain ⟨p, rfl⟩ := exists_nodeIndex j
  refine ⟨p, ?_, rfl⟩
  have hbound := (nodeIndex_bounds 0 p).1
  rw [Nat.zero_add, Nat.one_mul] at hbound
  have hpow := (Nat.pow_lt_pow_iff_right (by decide)).1 (hbound.trans_lt hj)
  omega

/-- Node `j` is in the subtree of node `i`. -/
def Below (i j : ℕ) : Prop := ∃ k, (j + 1) / 2 ^ k = i + 1

/-- Each node is below itself, -/
theorem Below.refl (i : ℕ) : Below i i := ⟨0, by simp⟩

/-- what is below a child is below the node, -/
theorem Below.of_child {i j : ℕ} {d : Bool} (h : Below (childIndex i d) j) : Below i j := by
  obtain ⟨k, hk⟩ := h
  refine ⟨k + 1, ?_⟩
  rw [Nat.pow_succ, ← Nat.div_div_eq_div_mul, hk]
  unfold childIndex
  split_ifs <;> omega

/-- and so is the child of what is below. -/
theorem Below.child {i j : ℕ} (h : Below i j) (d : Bool) : Below i (childIndex j d) := by
  obtain ⟨k, hk⟩ := h
  refine ⟨k + 1, ?_⟩
  have hhalf : (childIndex j d + 1) / 2 = j + 1 := by
    unfold childIndex
    split_ifs <;> omega
  rw [Nat.pow_succ', ← Nat.div_div_eq_div_mul, hhalf, hk]

/-- A node is not below its children. -/
theorem not_below_child (i : ℕ) (d : Bool) : ¬ Below (childIndex i d) i := by
  rintro ⟨k, hk⟩
  have hle := Nat.div_le_self (i + 1) (2 ^ k)
  rw [hk] at hle
  unfold childIndex at hle
  split_ifs at hle <;> omega

/-- Nodes outside the subtree of a node, and nodes below one of its children, are other nodes. -/
theorem ne_of_not_below {i j : ℕ} (h : ¬ Below i j) : j ≠ i := by
  rintro rfl
  exact h (.refl _)

/-- A node is not below its children. -/
theorem ne_of_below_child {i j : ℕ} {d : Bool} (h : Below (childIndex i d) j) : j ≠ i := by
  rintro rfl
  exact not_below_child _ d h

private theorem two_mul_le_of_div_pow {n a b k k' : ℕ} (ha : n / 2 ^ k = a) (hb : n / 2 ^ k' = b)
    (hk : k < k') : 2 * b ≤ a := by
  obtain ⟨e, rfl⟩ := Nat.exists_eq_add_of_lt hk
  rw [Nat.add_assoc, Nat.pow_add, ← Nat.div_div_eq_div_mul, ha] at hb
  have hle : a / 2 ^ (e + 1) ≤ a / 2 := by
    refine Nat.div_le_div_left ?_ (by decide)
    exact Nat.le_self_pow (Nat.succ_ne_zero e) 2
  omega

/-- The subtrees of two siblings have no node in common. -/
theorem not_below_sibling {i j : ℕ} {d : Bool} (h : Below (childIndex i d) j) :
    ¬ Below (childIndex i !d) j := by
  rintro ⟨k', hk'⟩
  obtain ⟨k, hk⟩ := h
  -- the two ancestors of `j` are siblings, hence on the same level
  have hlevel : k = k' := by
    by_contra hne
    rcases Nat.lt_or_gt_of_ne hne with hlt | hgt
    · have := two_mul_le_of_div_pow hk hk' hlt
      cases d <;> simp [childIndex] at this <;> omega
    · have := two_mul_le_of_div_pow hk' hk hgt
      cases d <;> simp [childIndex] at this <;> omega
  subst hlevel
  rw [hk] at hk'
  cases d <;> simp [childIndex] at hk'

/-- What is below a node of a path is below its beginning. -/
theorem Below.of_nodeIndex {i j : ℕ} {p : List Bool} (hj : Below (nodeIndex i p) j) :
    Below i j := by
  induction p generalizing i with
  | nil => exact hj
  | cons d p ih => exact (ih hj).of_child

/-- The root is no child. -/
theorem childIndex_pos (i : ℕ) (d : Bool) : childIndex i d ≠ 0 := by
  unfold childIndex
  split_ifs <;> omega

/-- The parent of a child is the node. -/
theorem parent_childIndex (i : ℕ) (d : Bool) : (childIndex i d - 1) / 2 = i := by
  unfold childIndex
  split_ifs <;> omega

end HeapOrder

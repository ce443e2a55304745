import CppLearn.Lib.HeapOrder
import CppLearn.Lib.RangeSums

/-!
# Sum trees with lazy tags

An array `a` of ring elements, stored as a binary tree over an interval of positions. Each node
holds the sum of its interval, up to the tags of the nodes above it: a tag is a value that has
been added to all elements of the interval of its node, and that the nodes below have not been
told of. The two numbers of a node are in two arrays in heap order.

## Main definitions

* `middle`: where an interval is divided;
* `Node`, `LastLeaf`: the nodes over an interval, and the leaf of its last position;
* `Represents`: the numbers below a node are those of an array.

## Main results

* `Node.add_two_le`: how large the number of a node can be;
* `Represents.tree_eq`: a node holds the sum of its interval;
* `Represents.addAll`: a value is added to a whole interval at its node;
* `Represents.push`: a tag is passed on to the children;
* `Represents.unique`: the numbers determine the array;
* `represents_iff_tagsCancel`: sums that do not know of the tags above them;
* `Represents.join`: two halves make an interval.
-/

namespace LazySums

open HeapOrder RangeSums

variable {T : Type*} [CommRing T]

/-- The last position of the first half of an interval. -/
def middle (lo hi : ℤ) : ℤ := lo + (hi - lo) / 2

/-- Both halves of an interval are smaller than it. -/
theorem middle_bounds {lo hi : ℤ} (h : lo < hi) : lo ≤ middle lo hi ∧ middle lo hi < hi := by
  unfold middle
  omega

/-! ## Nodes -/

section Nodes

variable {i j : ℕ} {lo hi : ℤ}

/-- Node `j` is one of the nodes of the tree over an interval, which has its root at `i`. -/
inductive Node : ℕ → ℤ → ℤ → ℕ → Prop
  | root (i : ℕ) (lo hi : ℤ) : Node i lo hi i
  | left {i j : ℕ} {lo hi : ℤ} (hlt : lo < hi) : Node (childIndex i false) lo (middle lo hi) j →
      Node i lo hi j
  | right {i j : ℕ} {lo hi : ℤ} (hlt : lo < hi) : Node (childIndex i true) (middle lo hi + 1) hi j →
      Node i lo hi j

/-- Node `j` is the leaf of the last position of an interval. -/
inductive LastLeaf : ℕ → ℤ → ℤ → ℕ → Prop
  | leaf (i : ℕ) (lo : ℤ) : LastLeaf i lo lo i
  | right {i j : ℕ} {lo hi : ℤ} (hlt : lo < hi) :
      LastLeaf (childIndex i true) (middle lo hi + 1) hi j → LastLeaf i lo hi j

/-- The nodes over a part of an interval are below its node, -/
theorem Node.isBelow (h : Node i lo hi j) : Below i j := by
  induction h with
  | root i => exact .refl i
  | left _ _ ih => exact ih.of_child
  | right _ _ ih => exact ih.of_child

/-- and so is the last leaf, -/
theorem LastLeaf.isBelow (h : LastLeaf i lo hi j) : Below i j := by
  induction h with
  | leaf i => exact .refl i
  | right _ _ ih => exact ih.of_child

/-- A tree over at most `2 ^ h` positions has nodes down to depth `h` only. -/
theorem Node.add_two_le {h : ℕ} (hn : Node i lo hi j) (hwidth : hi - lo + 1 ≤ 2 ^ h) :
    j + 2 ≤ (i + 2) * 2 ^ h := by
  induction hn generalizing h with
  | root i => exact Nat.le_mul_of_pos_right (i + 2) (Nat.two_pow_pos h)
  | left hlt _ ih | right hlt _ ih =>
    cases h with
    | zero =>
      rw [pow_zero] at hwidth
      omega
    | succ h =>
      rw [pow_succ] at hwidth
      refine (ih (h := h) (by unfold middle; omega)).trans ?_
      rw [Nat.pow_succ', ← Nat.mul_assoc]
      refine Nat.mul_le_mul_right _ ?_
      unfold childIndex
      split_ifs <;> omega

/-- What is not a node of the tree is neither the root nor a node of the tree over a half. -/
theorem Node.not_halves (h : ¬ Node i lo hi j) (hlt : lo < hi) :
    j ≠ i ∧ (∀ d, j ≠ childIndex i d) ∧ ¬ Node (childIndex i false) lo (middle lo hi) j ∧
      ¬ Node (childIndex i true) (middle lo hi + 1) hi j := by
  refine ⟨?_, ?_, fun hleft => h (.left hlt hleft), fun hright => h (.right hlt hright)⟩
  · rintro rfl
    exact h (.root _ _ _)
  · rintro (_ | _) rfl
    · exact h (.left hlt (.root _ _ _))
    · exact h (.right hlt (.root _ _ _))

/-- of which there is one. -/
theorem LastLeaf.unique {j' : ℕ} (h : LastLeaf i lo hi j) (h' : LastLeaf i lo hi j') : j = j' := by
  induction h with
  | leaf =>
    cases h' with
    | leaf => rfl
    | right hlt => exact absurd hlt (lt_irrefl _)
  | right hlt _ ih =>
    cases h' with
    | leaf => exact absurd hlt (lt_irrefl _)
    | right _ hlast => exact ih hlast

/-- Below the last leaf there are no nodes. -/
theorem LastLeaf.not_node_child (h : LastLeaf i lo hi j) (d : Bool) :
    ¬ Node i lo hi (childIndex j d) := by
  induction h with
  | leaf i =>
    intro hnode
    generalize hc : childIndex i d = c at hnode
    cases hnode with
    | root => exact (lt_childIndex i d).ne' hc
    | left hlt => exact lt_irrefl _ hlt
    | right hlt => exact lt_irrefl _ hlt
  | @right i j lo hi _ hlast ih =>
    have hbelow := hlast.isBelow.child d
    intro hnode
    generalize hc : childIndex j d = c at hnode hbelow ih
    cases hnode with
    | root => exact ne_of_below_child hbelow rfl
    | left _ hleft => exact not_below_sibling hleft.isBelow hbelow
    | right _ hright => exact ih hright

/-- The leaf of the last position, and its number. -/
theorem exists_lastLeaf (i : ℕ) (h : lo ≤ hi) :
    ∃ k j, LastLeaf i lo hi j ∧ j + 2 = (i + 2) * 2 ^ k ∧ 2 ^ k ≤ hi - lo + 1 ∧
      hi - lo + 1 < 2 ^ (k + 1) := by
  obtain ⟨w, hw⟩ : ∃ w, (hi - lo).toNat = w := ⟨_, rfl⟩
  induction w using Nat.strong_induction_on generalizing i lo with
  | _ w ih =>
    rcases h.eq_or_lt with rfl | hlt
    · exact ⟨0, i, .leaf i lo, by simp, by simp, by simp⟩
    · have hm := middle_bounds hlt
      -- the right half is the smaller one, so that its last leaf has the last index
      have hle : middle lo hi + 1 ≤ hi := by omega
      obtain ⟨k, j, hlast, hj, hlow, hhigh⟩ := ih _ (by omega) (childIndex i true) hle rfl
      refine ⟨k + 1, j, .right hlt hlast, ?_, ?_, ?_⟩
      · rw [hj, childIndex, if_pos rfl, Nat.pow_succ]
        ring
      · rw [pow_succ]
        unfold middle at hlow
        omega
      · rw [pow_succ]
        unfold middle at hhigh
        omega

end Nodes

section Represents

variable (tree lazy : ℕ → T)

/-- The numbers of the nodes below `i` are those of the elements of `a` from `lo` to `hi`. A tag
is taken off the elements that the children store. -/
inductive Represents : ℕ → ℤ → ℤ → (ℤ → T) → Prop
  | leaf {i : ℕ} {lo : ℤ} {a : ℤ → T} (hsum : tree i = a lo) : Represents i lo lo a
  | node {i : ℕ} {lo hi : ℤ} {a : ℤ → T} (hlt : lo < hi)
      (hsum : tree i = ∑ k ∈ Finset.Icc lo hi, a k)
      (left : Represents (childIndex i false) lo (middle lo hi) fun k => a k - lazy i)
      (right : Represents (childIndex i true) (middle lo hi + 1) hi fun k => a k - lazy i) :
      Represents i lo hi a

variable {tree lazy} {tree' lazy' : ℕ → T} {i : ℕ} {lo hi : ℤ} {a a' : ℤ → T}

/-- Nodes are over intervals that are not empty. -/
theorem Represents.le (h : Represents tree lazy i lo hi a) : lo ≤ hi := by
  cases h with
  | leaf => exact le_rfl
  | node hlt => exact hlt.le

/-- A node holds the sum of its interval. -/
theorem Represents.tree_eq (h : Represents tree lazy i lo hi a) :
    tree i = ∑ k ∈ Finset.Icc lo hi, a k := by
  cases h with
  | leaf hsum => rw [hsum, Finset.Icc_self, Finset.sum_singleton]
  | node _ hsum => exact hsum

/-- Only the numbers below the node and the elements of the interval matter. -/
theorem Represents.congr (h : Represents tree lazy i lo hi a)
    (htree : ∀ j, Below i j → tree' j = tree j) (hlazy : ∀ j, Below i j → lazy' j = lazy j)
    (ha : ∀ k, lo ≤ k → k ≤ hi → a' k = a k) : Represents tree' lazy' i lo hi a' := by
  induction h generalizing a' with
  | @leaf i lo a hsum =>
    exact .leaf (by rw [htree i (.refl i), hsum, ha lo le_rfl le_rfl])
  | @node i lo hi a hlt hsum _ _ ihl ihr =>
    have hm := middle_bounds hlt
    refine .node hlt ?_ ?_ ?_
    · rw [htree i (.refl i), hsum]
      refine Finset.sum_congr rfl fun k hk => (ha k ?_ ?_).symm
      · exact (Finset.mem_Icc.1 hk).1
      · exact (Finset.mem_Icc.1 hk).2
    · refine ihl (fun j hj => htree j hj.of_child) (fun j hj => hlazy j hj.of_child) ?_
      -- the tag of the node counts for the elements of the half
      intro k hk hk'
      rw [hlazy i (.refl i), ha k hk (by omega)]
    · refine ihr (fun j hj => htree j hj.of_child) (fun j hj => hlazy j hj.of_child) ?_
      intro k hk hk'
      rw [hlazy i (.refl i), ha k (by omega) hk']

/-- A value is added to all elements of an interval by changing the numbers of its node only. -/
theorem Represents.addAll (h : Represents tree lazy i lo hi a) (value : T)
    (htree : tree' i = tree i + ((hi - lo + 1 : ℤ) : T) * value) (hlazy : lazy' i = lazy i + value)
    (hframe : ∀ d j, Below (childIndex i d) j → tree' j = tree j ∧ lazy' j = lazy j) :
    Represents tree' lazy' i lo hi fun k => a k + value := by
  cases h with
  | leaf hsum =>
    refine .leaf ?_
    rw [htree, hsum]
    push_cast
    ring
  | node hlt hsum left right =>
    refine .node hlt ?_ ?_ ?_
    · rw [htree, hsum, sum_Icc_add_const a value hlt.le]
    -- the children see the old elements: the value is in the tag above them
    · refine left.congr (fun j hj => (hframe _ j hj).1) (fun j hj => (hframe _ j hj).2) ?_
      intro k _ _
      rw [hlazy]
      ring
    · refine right.congr (fun j hj => (hframe _ j hj).1) (fun j hj => (hframe _ j hj).2) ?_
      intro k _ _
      rw [hlazy]
      ring

/-- The children of a node store the elements without its tag. -/
theorem Represents.children (h : Represents tree lazy i lo hi a) (hlt : lo < hi) :
    Represents tree lazy (childIndex i false) lo (middle lo hi) (fun k => a k - lazy i) ∧
      Represents tree lazy (childIndex i true) (middle lo hi + 1) hi fun k => a k - lazy i := by
  cases h with
  | leaf => exact absurd hlt (lt_irrefl _)
  | node _ _ left right => exact ⟨left, right⟩

/-- The halves of an interval whose node has no tag. -/
theorem Represents.halves (h : Represents tree lazy i lo hi a) (hlt : lo < hi) (htag : lazy i = 0) :
    Represents tree lazy (childIndex i false) lo (middle lo hi) a ∧
      Represents tree lazy (childIndex i true) (middle lo hi + 1) hi a := by
  simpa only [htag, sub_zero] using h.children hlt

/-- A node without a tag that holds the sum of its interval, above the two halves. -/
theorem Represents.of_halves (hlt : lo < hi) (htag : lazy i = 0)
    (hsum : tree i = ∑ k ∈ Finset.Icc lo hi, a k)
    (hleft : Represents tree lazy (childIndex i false) lo (middle lo hi) a)
    (hright : Represents tree lazy (childIndex i true) (middle lo hi + 1) hi a) :
    Represents tree lazy i lo hi a := by
  refine .node hlt hsum ?_ ?_
  · simpa only [htag, sub_zero] using hleft
  · simpa only [htag, sub_zero] using hright

/-- Two halves below a node without a tag that holds the sum of its children. -/
theorem Represents.join (hlt : lo < hi) (htag : lazy i = 0)
    (hsum : tree i = tree (childIndex i false) + tree (childIndex i true))
    (hleft : Represents tree lazy (childIndex i false) lo (middle lo hi) a)
    (hright : Represents tree lazy (childIndex i true) (middle lo hi + 1) hi a) :
    Represents tree lazy i lo hi a := by
  have hm := middle_bounds hlt
  refine .of_halves hlt htag ?_ hleft hright
  rw [hsum, hleft.tree_eq, hright.tree_eq, ← sum_Icc_split a (by omega) (by omega)]

/-- The width of a half. -/
def halfWidth (lo hi : ℤ) : Bool → ℤ
  | false => middle lo hi - lo + 1
  | true => hi - middle lo hi

/-- The tag of a node is passed on to its children. -/
theorem Represents.push (h : Represents tree lazy i lo hi a) (hlt : lo < hi)
    (hroot : tree' i = tree i) (htag : lazy' i = 0)
    (htree : ∀ d, tree' (childIndex i d) =
      tree (childIndex i d) + (halfWidth lo hi d : T) * lazy i)
    (hlazy : ∀ d, lazy' (childIndex i d) = lazy (childIndex i d) + lazy i)
    (hframe : ∀ d e j, Below (childIndex (childIndex i d) e) j →
      tree' j = tree j ∧ lazy' j = lazy j) :
    Represents tree' lazy' i lo hi a := by
  cases h with
  | leaf => exact absurd hlt (lt_irrefl _)
  | node _ hsum left right =>
    have hleft := left.addAll (lazy i) (htree false) (hlazy false) (hframe false)
    -- the width of the right half is that of the interval from the middle on
    have hwidth : tree' (childIndex i true) = tree (childIndex i true) +
        ((hi - (middle lo hi + 1) + 1 : ℤ) : T) * lazy i := by
      rw [htree true, halfWidth]
      congr 3
      ring
    have hright := right.addAll (lazy i) hwidth (hlazy true) (hframe true)
    -- what the tag of the node added before is now in the tags of the children
    refine .node hlt (hroot.trans hsum) ?_ ?_
    · exact hleft.congr (fun _ _ => rfl) (fun _ _ => rfl) fun k _ _ => by rw [htag]; ring
    · exact hright.congr (fun _ _ => rfl) (fun _ _ => rfl) fun k _ _ => by rw [htag]; ring

/-- The children of a node whose tag has been passed on say what was there before. -/
theorem Represents.of_pushed (hlt : lo < hi) (hsum : tree i = ∑ k ∈ Finset.Icc lo hi, a k)
    (htree : ∀ d, tree' (childIndex i d) =
      tree (childIndex i d) + (halfWidth lo hi d : T) * lazy i)
    (hlazy : ∀ d, lazy' (childIndex i d) = lazy (childIndex i d) + lazy i)
    (hframe : ∀ d e j, Below (childIndex (childIndex i d) e) j →
      tree' j = tree j ∧ lazy' j = lazy j)
    (hleft : Represents tree' lazy' (childIndex i false) lo (middle lo hi) a)
    (hright : Represents tree' lazy' (childIndex i true) (middle lo hi + 1) hi a) :
    Represents tree lazy i lo hi a := by
  have hback {d : Bool} {lo' hi' : ℤ} (hwidth : halfWidth lo hi d = hi' - lo' + 1)
      (h : Represents tree' lazy' (childIndex i d) lo' hi' a) :
      Represents tree lazy (childIndex i d) lo' hi' fun k => a k - lazy i := by
    have hadd := h.addAll (-lazy i)
      (by rw [htree d, hwidth]; ring) (by rw [hlazy d]; ring)
      fun e j hj => ⟨(hframe d e j hj).1.symm, (hframe d e j hj).2.symm⟩
    exact hadd.congr (fun _ _ => rfl) (fun _ _ => rfl) fun k _ _ => sub_eq_add_neg _ _
  exact .node hlt hsum (hback rfl hleft) (hback (by rw [halfWidth]; ring) hright)

/-- The numbers determine the elements. -/
theorem Represents.unique (h : Represents tree lazy i lo hi a)
    (h' : Represents tree lazy i lo hi a') {k : ℤ} (hlo : lo ≤ k) (hhi : k ≤ hi) : a k = a' k := by
  induction h generalizing a' with
  | @leaf i lo a hsum =>
    obtain rfl : k = lo := le_antisymm hhi hlo
    cases h' with
    | leaf hsum' => rw [← hsum, hsum']
    | node hlt => exact absurd hlt (lt_irrefl _)
  | @node i lo hi a hlt hsum _ _ ihl ihr =>
    cases h' with
    | leaf => exact absurd hlt (lt_irrefl _)
    | node _ _ left right =>
      by_cases hk : k ≤ middle lo hi
      · exact sub_left_inj.1 (ihl left hlo hk)
      · exact sub_left_inj.1 (ihr right (by omega) hhi)

/-- Numbers that are all zero represent an array of zeros. -/
theorem represents_zero (i : ℕ) (h : lo ≤ hi) (htree : ∀ j, tree j = 0) (hlazy : ∀ j, lazy j = 0) :
    Represents tree lazy i lo hi fun _ => 0 := by
  obtain ⟨n, hn⟩ : ∃ n, (hi - lo).toNat = n := ⟨_, rfl⟩
  induction n using Nat.strong_induction_on generalizing i lo hi with
  | _ n ih =>
    rcases h.eq_or_lt with rfl | hlt
    · exact .leaf (htree i)
    · have hm := middle_bounds hlt
      refine .join hlt (hlazy i) (by simp only [htree, add_zero]) ?_ ?_
      · exact ih _ (by omega) _ hm.1 rfl
      · exact ih _ (by omega) _ (by omega) rfl

end Represents

/-! ## Tags that are not known of -/

section TagsCancel

/-- The tags of the nodes above do not change any sum: `c` is what the tags above node `i` add up
to, and the sum of its interval does not change when each element changes by `c`. -/
inductive TagsCancel (lazy : ℕ → T) : ℕ → ℤ → ℤ → T → Prop
  | leaf {i : ℕ} {lo : ℤ} {c : T} (hc : c = 0) : TagsCancel lazy i lo lo c
  | node {i : ℕ} {lo hi : ℤ} {c : T} (hlt : lo < hi) (hc : ((hi - lo + 1 : ℤ) : T) * c = 0)
      (left : TagsCancel lazy (childIndex i false) lo (middle lo hi) (c + lazy i))
      (right : TagsCancel lazy (childIndex i true) (middle lo hi + 1) hi (c + lazy i)) :
      TagsCancel lazy i lo hi c

/-- Node `j` is one of the nodes over an interval, and not a leaf. -/
inductive Inner : ℕ → ℤ → ℤ → ℕ → Prop
  | root {i : ℕ} {lo hi : ℤ} (hlt : lo < hi) : Inner i lo hi i
  | left {i j : ℕ} {lo hi : ℤ} (hlt : lo < hi) : Inner (childIndex i false) lo (middle lo hi) j →
      Inner i lo hi j
  | right {i j : ℕ} {lo hi : ℤ} (hlt : lo < hi) :
      Inner (childIndex i true) (middle lo hi + 1) hi j → Inner i lo hi j

variable {tree lazy : ℕ → T} {i : ℕ} {lo hi : ℤ} {a : ℤ → T}

/-- Sums that were right without tags are right with them exactly if the tags cancel. -/
theorem represents_iff_tagsCancel (h : Represents tree (fun _ => 0) i lo hi a) (c : T) :
    Represents tree lazy i lo hi (fun k => a k - c) ↔ TagsCancel lazy i lo hi c := by
  generalize hzero : (fun _ => 0 : ℕ → T) = zero at h
  induction h generalizing c with
  | @leaf i lo a hsum =>
    constructor
    · intro h'
      cases h' with
      | leaf hsum' => exact .leaf (sub_eq_self.1 (hsum'.symm.trans hsum))
      | node hlt => exact absurd hlt (lt_irrefl _)
    · intro h'
      cases h' with
      | leaf hc => exact .leaf (by rw [hsum, hc, sub_zero])
      | node hlt => exact absurd hlt (lt_irrefl _)
  | @node i lo hi a hlt hsum _ _ ihl ihr =>
    have hconst := sum_Icc_add_const a (-c) hlt.le
    simp only [← sub_eq_add_neg, mul_neg] at hconst
    simp only [← hzero, sub_zero] at ihl ihr
    -- the halves see the tag of the node as well
    have hshift (k : ℤ) : a k - c - lazy i = a k - (c + lazy i) := by ring
    have hsum' : tree i = ∑ k ∈ Finset.Icc lo hi, (a k - c) ↔ ((hi - lo + 1 : ℤ) : T) * c = 0 := by
      rw [hconst, hsum, eq_comm, sub_eq_self]
    constructor
    · intro h'
      cases h' with
      | leaf => exact absurd hlt (lt_irrefl _)
      | node _ hroot left right =>
        simp only [hshift] at left right
        exact .node hlt (hsum'.1 hroot) ((ihl _).1 left) ((ihr _).1 right)
    · intro h'
      cases h' with
      | leaf => exact absurd hlt (lt_irrefl _)
      | node _ hc left right =>
        refine .node hlt (hsum'.2 hc) ?_ ?_
        · simpa only [hshift] using (ihl _).2 left
        · simpa only [hshift] using (ihr _).2 right

/-- Tags that are all zero cancel. -/
theorem tagsCancel_zero (hle : lo ≤ hi) (h : ∀ j, Inner i lo hi j → lazy j = 0) :
    TagsCancel lazy i lo hi 0 := by
  obtain ⟨w, hw⟩ : ∃ w, (hi - lo).toNat = w := ⟨_, rfl⟩
  induction w using Nat.strong_induction_on generalizing i lo hi with
  | _ w ih =>
    rcases hle.eq_or_lt with rfl | hlt
    · exact .leaf rfl
    · have hm := middle_bounds hlt
      have htag : (0 : T) + lazy i = 0 := by rw [h i (.root hlt), add_zero]
      refine .node hlt (mul_zero _) ?_ ?_
      · rw [htag]
        exact ih _ (by omega) hm.1 (fun j hj => h j (.left hlt hj)) rfl
      · rw [htag]
        exact ih _ (by omega) (by omega) (fun j hj => h j (.right hlt hj)) rfl

section NoZeroDivisors

variable [NoZeroDivisors T] [CharZero T] {c : T}

/-- Conversely, tags that cancel add up to zero above each node, -/
theorem TagsCancel.eq_zero (h : TagsCancel lazy i lo hi c) : c = 0 := by
  cases h with
  | leaf hc => exact hc
  | node hlt hc => exact (mul_eq_zero.1 hc).resolve_left (Int.cast_ne_zero.2 (by omega))

/-- Where a product is zero only if a factor is, tags cancel only if they are all zero. -/
theorem TagsCancel.inner_eq_zero (h : TagsCancel lazy i lo hi c) {j : ℕ} (hj : Inner i lo hi j) :
    lazy j = 0 := by
  induction h with
  | leaf =>
    cases hj with
    | root hlt | left hlt | right hlt => exact absurd hlt (lt_irrefl _)
  | node hlt hc left _ ihl ihr =>
    cases hj with
    | root =>
      -- neither the tags above the node nor those above its child add up to anything
      have hc' := (TagsCancel.node hlt hc left ‹_›).eq_zero
      have hleft := left.eq_zero
      rwa [hc', zero_add] at hleft
    | left _ hj => exact ihl hj
    | right _ hj => exact ihr hj

/-- so that they are all zero. -/
theorem tagsCancel_iff_inner (hle : lo ≤ hi) :
    TagsCancel lazy i lo hi 0 ↔ ∀ j, Inner i lo hi j → lazy j = 0 :=
  ⟨fun h _ hj => h.inner_eq_zero hj, tagsCancel_zero hle⟩

end NoZeroDivisors

end TagsCancel

end LazySums

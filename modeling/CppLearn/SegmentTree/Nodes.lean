import CppLearn.Lib.LazySums
import CppLearn.SegmentTree.Defs

/-!
# Nodes of the segment tree

The vectors `tree_` and `lazy_` represent an array in the sense of `LazySums.Represents`, with the
root at node `0`. A node that has room below it can be read and written together with its
children, and the two steps of the recursive functions that touch a node and its children keep
what is stored: `_maintain` before the recursive calls, and the sum of the children after them.

## Main definitions

* `SegmentTree.Room`: the nodes below a node have entries, and numbers that fit in an `int32_t`;
* `SegmentTree.SameOutside`: changes are confined to the nodes below a node;
* `SegmentTree.Stores`: the numbers below a node represent an array;
* `SegmentTree.Pushed`: a tag has been passed on.

## Main results

* `SegmentTree.maintain_spec`, `SegmentTree.sumChildren_spec`.
-/

namespace CppLearn

open BoundedLoop CheckedVector Signed HeapOrder

namespace SegmentTree

variable {T : Type} {s s' s'' : SegmentTree T} {i h : ℕ} {lo hi : ℤ}

/-! ## Numbers of nodes -/

/-- Node `i` stands for an interval of at most `2 ^ h` positions, and all nodes down to depth `h`
below it have entries, with numbers that fit in an `int32_t`. -/
structure Room (s : SegmentTree T) (i : ℕ) (lo hi : ℤ) (h : ℕ) : Prop where
  width : hi - lo + 1 ≤ 2 ^ h
  tree : (i + 2) * 2 ^ h ≤ s.tree.length
  lazy : (i + 2) * 2 ^ h ≤ s.lazy.length
  int32 : (i + 2) * 2 ^ h ≤ 2 ^ 31

/-- The node is inside both vectors, -/
theorem Room.tree_lt (hroom : Room s i lo hi h) : i < s.tree.length := by
  have hle := hroom.tree
  have := Nat.le_mul_of_pos_right (i + 2) (Nat.two_pow_pos h)
  omega

/-- in the second one as well. -/
theorem Room.lazy_lt (hroom : Room s i lo hi h) : i < s.lazy.length := by
  have hle := hroom.lazy
  have := Nat.le_mul_of_pos_right (i + 2) (Nat.two_pow_pos h)
  omega

/-- The bounds of a node of height `h + 1` are bounds of its children. -/
private theorem child_bound (i h : ℕ) (d : Bool) :
    (childIndex i d + 2) * 2 ^ h ≤ (i + 2) * 2 ^ (h + 1) := by
  rw [Nat.pow_succ', ← Nat.mul_assoc]
  refine Nat.mul_le_mul_right _ ?_
  unfold childIndex
  split_ifs <;> omega

/-- There is room for the children, the left one, -/
theorem Room.left (hroom : Room s i lo hi (h + 1)) :
    Room s (childIndex i false) lo (LazySums.middle lo hi) h := by
  have hw := hroom.width
  refine ⟨?_, (child_bound i h false).trans hroom.tree, (child_bound i h false).trans hroom.lazy,
    (child_bound i h false).trans hroom.int32⟩
  rw [pow_succ] at hw
  unfold LazySums.middle
  omega

/-- and the right one. -/
theorem Room.right (hroom : Room s i lo hi (h + 1)) :
    Room s (childIndex i true) (LazySums.middle lo hi + 1) hi h := by
  have hw := hroom.width
  refine ⟨?_, (child_bound i h true).trans hroom.tree, (child_bound i h true).trans hroom.lazy,
    (child_bound i h true).trans hroom.int32⟩
  rw [pow_succ] at hw
  unfold LazySums.middle
  omega

/-- A node with more than one position is not at the bottom. -/
theorem Room.exists_succ (hroom : Room s i lo hi h) (hlt : lo < hi) : ∃ h', h = h' + 1 := by
  cases h with
  | zero =>
    have hw := hroom.width
    rw [pow_zero] at hw
    omega
  | succ h' => exact ⟨h', rfl⟩

/-- The numbers of the children do not wrap around, -/
theorem Room.leftChild (hroom : Room s i lo hi (h + 1)) :
    leftChild (i : ℤ) = (childIndex i false : ℕ) := by
  have hle := (child_bound i h false).trans hroom.int32
  have := Nat.le_mul_of_pos_right (childIndex i false + 2) (Nat.two_pow_pos h)
  have heq : (i : ℤ) * 2 + 1 = (childIndex i false : ℕ) := by simp [childIndex, mul_comm]
  rw [SegmentTree.leftChild, heq, narrow_eq]
  constructor <;> omega

/-- neither of them. -/
theorem Room.rightChild (hroom : Room s i lo hi (h + 1)) :
    rightChild (i : ℤ) = (childIndex i true : ℕ) := by
  have hle := (child_bound i h true).trans hroom.int32
  have := Nat.le_mul_of_pos_right (childIndex i true + 2) (Nat.two_pow_pos h)
  have heq : (i : ℤ) * 2 + 2 = (childIndex i true : ℕ) := by simp [childIndex, mul_comm]
  rw [SegmentTree.rightChild, heq, narrow_eq]
  constructor <;> omega

/-- The division that rounds towards zero is the usual one here. -/
theorem middle_eq (h : lo ≤ hi) : middle lo hi = LazySums.middle lo hi := by
  unfold middle LazySums.middle
  rw [Int.tdiv_eq_ediv_of_nonneg (by omega)]

/-! ## Writing an entry -/

variable [CommRing T] {a : ℤ → T}

/-- The entries of `tree_`. -/
def treeAt (s : SegmentTree T) (j : ℕ) : T := s.tree.getD j 0

/-- The entries of `lazy_`. -/
def lazyAt (s : SegmentTree T) (j : ℕ) : T := s.lazy.getD j 0

/-- `s'` has the entries of `s` except below node `i`. -/
structure SameOutside (i : ℕ) (s s' : SegmentTree T) : Prop where
  tree_length : s'.tree.length = s.tree.length
  lazy_length : s'.lazy.length = s.lazy.length
  tree : ∀ j, ¬ Below i j → s'.treeAt j = s.treeAt j
  lazy : ∀ j, ¬ Below i j → s'.lazyAt j = s.lazyAt j

/-- What calls below a node leave alone: no call, -/
theorem SameOutside.refl (i : ℕ) (s : SegmentTree T) : SameOutside i s s :=
  ⟨rfl, rfl, fun _ _ => rfl, fun _ _ => rfl⟩

/-- two calls, -/
theorem SameOutside.trans (h : SameOutside i s s') (h' : SameOutside i s' s'') :
    SameOutside i s s'' :=
  ⟨h'.tree_length.trans h.tree_length, h'.lazy_length.trans h.lazy_length,
    fun j hj => (h'.tree j hj).trans (h.tree j hj), fun j hj => (h'.lazy j hj).trans (h.lazy j hj)⟩

/-- and a call for a child. -/
theorem SameOutside.of_child {d : Bool} (h : SameOutside (childIndex i d) s s') :
    SameOutside i s s' :=
  ⟨h.tree_length, h.lazy_length, fun j hj => h.tree j (mt Below.of_child hj),
    fun j hj => h.lazy j (mt Below.of_child hj)⟩

/-- The vectors keep their lengths. -/
theorem Room.of_sameOutside {k : ℕ} (hroom : Room s i lo hi h) (hsame : SameOutside k s s') :
    Room s' i lo hi h :=
  ⟨hroom.width, by rw [hsame.tree_length]; exact hroom.tree,
    by rw [hsame.lazy_length]; exact hroom.lazy, hroom.int32⟩

/-- Reads and writes inside the vectors. -/
theorem read_tree (hi : i < s.tree.length) : read s.tree (i : ℤ) = .ok (s.treeAt i) := read_ok hi 0

theorem read_lazy (hi : i < s.lazy.length) : read s.lazy (i : ℤ) = .ok (s.lazyAt i) := read_ok hi 0

/-- Assigning an entry of `tree_` changes this entry only. -/
theorem setTree_spec (hi : i < s.tree.length) (x : T) :
    ∃ s', s.setTree i x = .ok s' ∧ s'.tree.length = s.tree.length ∧ s'.lazy = s.lazy ∧
      s'.treeAt = Function.update s.treeAt i x := by
  refine ⟨{ s with tree := s.tree.set i x }, ?_, List.length_set .., rfl, getD_set hi x 0⟩
  simp only [setTree, write_ok hi, bind, Except.bind]

/-- Assigning an entry of `lazy_` changes this entry only. -/
theorem setLazy_spec (hi : i < s.lazy.length) (x : T) :
    ∃ s', s.setLazy i x = .ok s' ∧ s'.lazy.length = s.lazy.length ∧ s'.tree = s.tree ∧
      s'.lazyAt = Function.update s.lazyAt i x := by
  refine ⟨{ s with lazy := s.lazy.set i x }, ?_, List.length_set .., rfl, getD_set hi x 0⟩
  simp only [setLazy, write_ok hi, bind, Except.bind]

/-- `tree_[i] += x` changes one sum, -/
theorem addTree_spec (hi : i < s.tree.length) (x : T) :
    ∃ s', s.addTree i x = .ok s' ∧ s'.tree.length = s.tree.length ∧ s'.lazy = s.lazy ∧
      s'.treeAt = Function.update s.treeAt i (s.treeAt i + x) := by
  obtain ⟨s', hs', hrest⟩ := setTree_spec hi (s.treeAt i + x)
  refine ⟨s', ?_, hrest⟩
  simp only [addTree, read_tree hi, bind, Except.bind]
  exact hs'

/-- and `lazy_[i] += x` changes one tag. -/
theorem addLazy_spec (hi : i < s.lazy.length) (x : T) :
    ∃ s', s.addLazy i x = .ok s' ∧ s'.lazy.length = s.lazy.length ∧ s'.tree = s.tree ∧
      s'.lazyAt = Function.update s.lazyAt i (s.lazyAt i + x) := by
  obtain ⟨s', hs', hrest⟩ := setLazy_spec hi (s.lazyAt i + x)
  refine ⟨s', ?_, hrest⟩
  simp only [addLazy, read_lazy hi, bind, Except.bind]
  exact hs'

/-- The numbers below node `i` represent the elements of `a` from `lo` to `hi`. -/
def Stores (s : SegmentTree T) (i : ℕ) (lo hi : ℤ) (a : ℤ → T) : Prop :=
  LazySums.Represents s.treeAt s.lazyAt i lo hi a

/-- What is stored below a node is not affected by changes below its sibling. -/
theorem Stores.of_sibling {d : Bool} (hs : Stores s (childIndex i d) lo hi a)
    (hsame : SameOutside (childIndex i !d) s s') : Stores s' (childIndex i d) lo hi a :=
  hs.congr (fun j hj => hsame.tree j (not_below_sibling hj))
    (fun j hj => hsame.lazy j (not_below_sibling hj)) fun _ _ _ => rfl

/-- Changes below a child do not affect the tag of the node. -/
theorem SameOutside.lazy_parent {d : Bool} (h : SameOutside (childIndex i d) s s') :
    s'.lazyAt i = s.lazyAt i := h.lazy i (not_below_child i d)

/-- Changes below a child do not affect the sum of the node. -/
theorem SameOutside.tree_parent {d : Bool} (h : SameOutside (childIndex i d) s s') :
    s'.treeAt i = s.treeAt i := h.tree i (not_below_child i d)

/-- The sum of the children is written to the node. -/
theorem sumChildren_writes (hroom : Room s i lo hi (h + 1)) :
    ∃ s', s.sumChildren i = .ok s' ∧ s'.tree.length = s.tree.length ∧ s'.lazy = s.lazy ∧
      s'.treeAt = Function.update s.treeAt i
        (s.treeAt (childIndex i false) + s.treeAt (childIndex i true)) := by
  obtain ⟨s', hs', hrest⟩ := setTree_spec hroom.tree_lt
    (s.treeAt (childIndex i false) + s.treeAt (childIndex i true))
  refine ⟨s', ?_, hrest⟩
  unfold sumChildren
  rw [hroom.leftChild, hroom.rightChild, read_tree hroom.left.tree_lt,
    read_tree hroom.right.tree_lt]
  exact hs'

/-- Two halves, and the sum of their entries, make an interval. -/
theorem sumChildren_spec (hroom : Room s i lo hi (h + 1)) (hlt : lo < hi) (htag : s.lazyAt i = 0)
    (hleft : Stores s (childIndex i false) lo (LazySums.middle lo hi) a)
    (hright : Stores s (childIndex i true) (LazySums.middle lo hi + 1) hi a) :
    ∃ s', s.sumChildren i = .ok s' ∧ SameOutside i s s' ∧ s'.lazyAt = s.lazyAt ∧
      Stores s' i lo hi a := by
  obtain ⟨s', hs', hlen, hlazy, htree⟩ := sumChildren_writes hroom
  have hlazyAt : s'.lazyAt = s.lazyAt := by
    unfold lazyAt
    rw [hlazy]
  -- the write to the node does not affect its children
  have hother {d : Bool} {j : ℕ} (hj : Below (childIndex i d) j) : s'.treeAt j = s.treeAt j := by
    rw [htree, Function.update_of_ne (ne_of_below_child hj)]
  refine ⟨s', hs', ⟨hlen, by rw [hlazy], ?_, fun j _ => by rw [hlazyAt]⟩, hlazyAt, ?_⟩
  · intro j hj
    rw [htree, Function.update_of_ne (ne_of_not_below hj)]
  · refine .join hlt (by rw [hlazyAt, htag]) ?_ ?_ ?_
    · rw [hother (.refl _), hother (.refl _), htree, Function.update_self]
    · exact hleft.congr (fun j hj => hother hj) (fun j _ => by rw [hlazyAt]) fun _ _ _ => rfl
    · exact hright.congr (fun j hj => hother hj) (fun j _ => by rw [hlazyAt]) fun _ _ _ => rfl

/-! ## Tags -/

/-- The children of a node are different. -/
private theorem right_ne_left (i : ℕ) : childIndex i true ≠ childIndex i false := by
  simp [childIndex]

private theorem ne_child (i : ℕ) (d : Bool) : i ≠ childIndex i d := by
  intro heq
  exact not_below_child i d (by rw [← heq]; exact .refl i)

/-- A node below a child of a child is none of the upper ones. -/
private theorem ne_of_below {d e : Bool} {j : ℕ}
    (hj : Below (childIndex (childIndex i d) e) j) : j ≠ i ∧ ∀ d', j ≠ childIndex i d' := by
  constructor
  · exact ne_of_below_child hj.of_child
  · rintro d' rfl
    by_cases hd : d' = d
    · subst hd
      exact not_below_child _ e hj
    · have hflip : d' = !d := by cases d <;> cases d' <;> simp_all
      rw [hflip] at hj
      exact not_below_sibling hj.of_child (.refl _)

/-- The assignments of `_maintain`: a tag goes to both children, and is removed from the node. -/
theorem maintain_writes (hroom : Room s i lo hi (h + 1)) (tag x y : T) :
    ∃ s', (do
        let s ← s.addLazy (childIndex i false : ℕ) tag
        let s ← s.addLazy (childIndex i true : ℕ) tag
        let s ← s.addTree (childIndex i false : ℕ) x
        let s ← s.addTree (childIndex i true : ℕ) y
        s.setLazy i 0) = .ok s' ∧
      s'.tree.length = s.tree.length ∧ s'.lazy.length = s.lazy.length ∧
      s'.treeAt = Function.update (Function.update s.treeAt (childIndex i false)
        (s.treeAt (childIndex i false) + x)) (childIndex i true)
        (s.treeAt (childIndex i true) + y) ∧
      s'.lazyAt = Function.update (Function.update (Function.update s.lazyAt (childIndex i false)
        (s.lazyAt (childIndex i false) + tag)) (childIndex i true)
        (s.lazyAt (childIndex i true) + tag)) i 0 := by
  obtain ⟨s₁, hs₁, hll₁, ht₁, hl₁⟩ := addLazy_spec hroom.left.lazy_lt tag
  obtain ⟨s₂, hs₂, hll₂, ht₂, hl₂⟩ :=
    addLazy_spec (s := s₁) (by rw [hll₁]; exact hroom.right.lazy_lt) tag
  obtain ⟨s₃, hs₃, htl₃, hl₃, ht₃⟩ :=
    addTree_spec (s := s₂) (by rw [ht₂, ht₁]; exact hroom.left.tree_lt) x
  obtain ⟨s₄, hs₄, htl₄, hl₄, ht₄⟩ :=
    addTree_spec (s := s₃) (by rw [htl₃, ht₂, ht₁]; exact hroom.right.tree_lt) y
  obtain ⟨s₅, hs₅, hll₅, ht₅, hl₅⟩ :=
    setLazy_spec (s := s₄) (by rw [hl₄, hl₃, hll₂, hll₁]; exact hroom.lazy_lt) 0
  -- the writes to one vector do not affect the other
  have htree₂ : s₂.treeAt = s.treeAt := by unfold treeAt; rw [ht₂, ht₁]
  have htree₅ : s₅.treeAt = s₄.treeAt := by unfold treeAt; rw [ht₅]
  have hlazy₄ : s₄.lazyAt = s₂.lazyAt := by unfold lazyAt; rw [hl₄, hl₃]
  refine ⟨s₅, ?_, ?_, ?_, ?_, ?_⟩
  · simp only [hs₁, hs₂, hs₃, hs₄, hs₅, bind, Except.bind]
  · rw [ht₅, htl₄, htl₃, ht₂, ht₁]
  · rw [hll₅, hl₄, hl₃, hll₂, hll₁]
  · rw [htree₅, ht₄, ht₃, htree₂, Function.update_of_ne (right_ne_left i)]
  · rw [hl₅, hlazy₄, hl₂, hl₁, Function.update_of_ne (right_ne_left i)]

variable [DecidableEq T]

/-- What `_maintain` makes of the numbers of a node and its children. -/
structure Pushed (s s' : SegmentTree T) (i : ℕ) (lo hi : ℤ) : Prop where
  same : SameOutside i s s'
  root : s'.treeAt i = s.treeAt i
  tag : s'.lazyAt i = 0
  tree : ∀ d, s'.treeAt (childIndex i d) =
    s.treeAt (childIndex i d) + (LazySums.halfWidth lo hi d : T) * s.lazyAt i
  lazy : ∀ d, s'.lazyAt (childIndex i d) = s.lazyAt (childIndex i d) + s.lazyAt i
  below : ∀ d e j, Below (childIndex (childIndex i d) e) j →
    s'.treeAt j = s.treeAt j ∧ s'.lazyAt j = s.lazyAt j
  other : ∀ j, (∀ d, j ≠ childIndex i d) → s'.treeAt j = s.treeAt j

omit [DecidableEq T] in
/-- The left child stores the old elements and the tag. -/
theorem Pushed.left (h : Pushed s s' i lo hi)
    (hs : Stores s (childIndex i false) lo (LazySums.middle lo hi) a) :
    Stores s' (childIndex i false) lo (LazySums.middle lo hi) fun k => a k + s.lazyAt i :=
  hs.addAll (s.lazyAt i) (h.tree false) (h.lazy false) (h.below false)

omit [DecidableEq T] in
/-- The same for the right half. -/
theorem Pushed.right (h : Pushed s s' i lo hi)
    (hs : Stores s (childIndex i true) (LazySums.middle lo hi + 1) hi a) :
    Stores s' (childIndex i true) (LazySums.middle lo hi + 1) hi fun k => a k + s.lazyAt i := by
  refine hs.addAll (s.lazyAt i) ?_ (h.lazy true) (h.below true)
  rw [h.tree true, LazySums.halfWidth]
  congr 3
  ring

/-- What `_maintain` writes. -/
theorem maintain_pushed (hroom : Room s i lo hi (h + 1)) (hlt : lo < hi) :
    ∃ s', s.maintain lo hi i = .ok s' ∧ Pushed s s' i lo hi := by
  by_cases htag : s.lazyAt i = 0
  · -- without a tag there is nothing to do
    refine ⟨s, ?_, ⟨.refl i s, rfl, htag, fun d => ?_, fun d => ?_, fun _ _ _ _ => ⟨rfl, rfl⟩,
      fun _ _ => rfl⟩⟩
    · unfold maintain
      rw [if_pos hlt.ne, read_lazy hroom.lazy_lt]
      exact if_neg (not_not.2 htag)
    · rw [htag, mul_zero, add_zero]
    · rw [htag, add_zero]
  · obtain ⟨s', hs', htl, hll, htree, hlazy⟩ := maintain_writes hroom (s.lazyAt i)
      (s.lazyAt i * ((middle lo hi - lo + 1 : ℤ) : T)) (s.lazyAt i * ((hi - middle lo hi : ℤ) : T))
    refine ⟨s', ?_, ⟨⟨htl, hll, ?_, ?_⟩, ?_, by rw [hlazy, Function.update_self], ?_, ?_, ?_, ?_⟩⟩
    · unfold maintain
      rw [if_pos hlt.ne, read_lazy hroom.lazy_lt, hroom.leftChild, hroom.rightChild]
      exact (if_pos htag).trans hs'
    · -- only the node and its children are written
      intro j hj
      rw [htree, Function.update_of_ne, Function.update_of_ne] <;> rintro rfl
      · exact hj (Below.refl _).of_child
      · exact hj (Below.refl _).of_child
    · intro j hj
      rw [hlazy, Function.update_of_ne, Function.update_of_ne, Function.update_of_ne] <;> rintro rfl
      · exact hj (Below.refl _).of_child
      · exact hj (Below.refl _).of_child
      · exact hj (.refl _)
    · rw [htree, Function.update_of_ne (ne_child i true), Function.update_of_ne (ne_child i false)]
    · rintro (_ | _)
      · rw [htree, Function.update_of_ne (right_ne_left i).symm, Function.update_self,
          middle_eq hlt.le, LazySums.halfWidth, mul_comm]
      · rw [htree, Function.update_self, middle_eq hlt.le, LazySums.halfWidth, mul_comm]
    · rintro (_ | _)
      · rw [hlazy, Function.update_of_ne (ne_child i false).symm,
          Function.update_of_ne (right_ne_left i).symm, Function.update_self]
      · rw [hlazy, Function.update_of_ne (ne_child i true).symm, Function.update_self]
    · intro d e j hj
      -- the nodes below the children are none of the three
      obtain ⟨hi, hd⟩ := ne_of_below hj
      rw [htree, hlazy, Function.update_of_ne (hd _), Function.update_of_ne (hd _),
        Function.update_of_ne hi, Function.update_of_ne (hd _), Function.update_of_ne (hd _)]
      exact ⟨rfl, rfl⟩
    · intro j hj
      rw [htree, Function.update_of_ne (hj true), Function.update_of_ne (hj false)]

/-- Passing on a tag: what is stored is the same, and the tag is gone. -/
theorem maintain_spec (hs : Stores s i lo hi a) (hroom : Room s i lo hi (h + 1)) (hlt : lo < hi) :
    ∃ s', s.maintain lo hi i = .ok s' ∧ SameOutside i s s' ∧ Stores s' i lo hi a ∧
      s'.lazyAt i = 0 := by
  obtain ⟨s', hs', hpushed⟩ := maintain_pushed hroom hlt
  exact ⟨s', hs', hpushed.same,
    hs.push hlt hpushed.root hpushed.tag hpushed.tree hpushed.lazy hpushed.below, hpushed.tag⟩

end SegmentTree

end CppLearn

import CppLearn.SegmentTree.Operations

/-!
# Additions behind the last position

`range_add` may be called with a range that ends behind the array, or that begins there. In the
second case the recursion follows the last positions down to a leaf and goes on below it, where
`lazy_` and `tree_` have entries that belong to no node. The leaf then gets the sum of two of them.

These two entries are always zero. When the range begins directly behind the array, the last element
is set to zero; when it begins further to the right, an entry outside the vectors is accessed.

The calls that are allowed are `Operation.Rightwards`, and those of `range_add` that are right are
`Operation.KeepsLast`. Only numbers of nodes are ever written (`SegmentTree.update_tree_off`,
`SegmentTree.query_tree_off`), which is why the two entries are zero. A range that begins directly
behind an interval is `SegmentTree.update_beyond_spec`, and `SegmentTree.observed_iff_keepsLast` are
the runs in which all sums are right.
-/

namespace CppLearn

open BoundedLoop CheckedVector Signed HeapOrder ObservedRuns

namespace SegmentTree

variable {T : Type} [CommRing T] {s s' s₁ : SegmentTree T} {a : ℤ → T} {i j h fuel : ℕ}
  {lo hi l r : ℤ} {value : T}

/-! ## Entries that belong to no node -/

/-- The new sum of a node is written to the node only. -/
theorem sumChildren_tree_off (hroom : Room s i lo hi (h + 1)) (hs : s.sumChildren i = .ok s')
    (hj : j ≠ i) : s'.treeAt j = s.treeAt j := by
  obtain ⟨s₁, hs₁, -, -, htree⟩ := sumChildren_writes hroom
  obtain rfl := Except.ok.inj (hs.symm.trans hs₁)
  rw [htree, Function.update_of_ne hj]

/-- `_build` writes to nodes only, -/
theorem build_tree_off {v : List T} (hroom : Room s i lo hi h) (hle : lo ≤ hi)
    (hs : build v fuel i lo hi s = .ok s') (hj : ¬ LazySums.Node i lo hi j) :
    s'.treeAt j = s.treeAt j := by
  induction fuel generalizing s s' i lo hi h with
  | zero => cases hs
  | succ fuel ih =>
    -- a leaf writes its own node only
    rcases hle.eq_or_lt with rfl | hlt
    · rw [build, if_pos rfl] at hs
      obtain ⟨x, -, hs⟩ := bind_eq_ok.1 hs
      obtain ⟨s₁, hs₁, -, -, htree⟩ := setTree_spec hroom.tree_lt x
      obtain rfl := Except.ok.inj (hs.symm.trans hs₁)
      rw [htree, Function.update_of_ne]
      rintro rfl
      exact hj (.root _ _ _)
    · -- both halves are built, and then the sum is stored at the node
      obtain ⟨h, rfl⟩ := hroom.exists_succ hlt
      obtain ⟨hroot, -, hleft, hright⟩ := LazySums.Node.not_halves hj hlt
      have hm := LazySums.middle_bounds hlt
      rw [build, if_neg hlt.ne, middle_eq hle, hroom.leftChild, hroom.rightChild] at hs
      obtain ⟨s₁, hs₁, hs⟩ := bind_eq_ok.1 hs
      obtain ⟨s₂, hs₂, hs⟩ := bind_eq_ok.1 hs
      have hroom₁ := hroom.of_sameLength (build_length hs₁)
      have hroom₂ := hroom₁.of_sameLength (build_length hs₂)
      rw [sumChildren_tree_off hroom₂ hs hroot, ih hroom₁.right (by omega) hs₂ hright,
        ih hroom.left hm.1 hs₁ hleft]

section

variable [DecidableEq T]

/-- passing a tag on changes the sums of the children, -/
theorem maintain_tree_off (hroom : Room s i lo hi (h + 1)) (hlt : lo < hi)
    (hs : s.maintain lo hi i = .ok s') (hj : ∀ d, j ≠ childIndex i d) :
    s'.treeAt j = s.treeAt j := by
  obtain ⟨s₁, hs₁, hpushed⟩ := maintain_pushed hroom hlt
  obtain rfl := Except.ok.inj (hs.symm.trans hs₁)
  exact hpushed.other j hj

/-- and `_update` -/
theorem update_tree_off (hroom : Room s i lo hi h) (hle : lo ≤ hi) (hl : l ≤ hi) (hr : lo ≤ r)
    (hs : update l r value fuel lo hi i s = .ok s') (hj : ¬ LazySums.Node i lo hi j) :
    s'.treeAt j = s.treeAt j := by
  induction fuel generalizing s s' i lo hi h with
  | zero => cases hs
  | succ fuel ih =>
    -- the range covers the node, or the update goes down to the halves it meets
    rcases update_inv hs with ⟨-, hs⟩ | ⟨hout, s₁, s₂, s₃, hs₁, hs₂, hs₃, hs⟩
    · obtain ⟨s₁, hs₁, -, -, htree, -⟩ := addAll_writes hroom value
      obtain rfl := Except.ok.inj (hs.symm.trans hs₁)
      rw [htree, Function.update_of_ne]
      rintro rfl
      exact hj (.root _ _ _)
    · have hlt : lo < hi := by omega
      obtain ⟨h, rfl⟩ := hroom.exists_succ hlt
      obtain ⟨hroot, hchild, hleft, hright⟩ := LazySums.Node.not_halves hj hlt
      have hm := LazySums.middle_bounds hlt
      rw [middle_eq hle, hroom.leftChild] at hs₂
      rw [middle_eq hle, hroom.rightChild] at hs₃
      have hroom₁ := hroom.of_sameLength (maintain_length hs₁)
      -- the left half, where the range meets it
      have hsame₂ : SameLength s₁ s₂ ∧ s₂.treeAt j = s₁.treeAt j := by
        rcases hs₂ with ⟨hc, hs₂⟩ | ⟨-, rfl⟩
        · exact ⟨update_length hs₂, ih hroom₁.left hm.1 hc hr hs₂ hleft⟩
        · exact ⟨.refl _, rfl⟩
      have hroom₂ := hroom₁.of_sameLength hsame₂.1
      -- the right half, likewise
      have hsame₃ : SameLength s₂ s₃ ∧ s₃.treeAt j = s₂.treeAt j := by
        rcases hs₃ with ⟨hc, hs₃⟩ | ⟨-, rfl⟩
        · exact ⟨update_length hs₃, ih hroom₂.right (by omega) hl (by omega) hs₃ hright⟩
        · exact ⟨.refl _, rfl⟩
      rw [sumChildren_tree_off (hroom₂.of_sameLength hsame₃.1) hs hroot, hsame₃.2, hsame₂.2,
        maintain_tree_off hroom hlt hs₁ hchild]

/-- and `_query` change sums of nodes only. -/
theorem query_tree_off {sum : T} (hroom : Room s i lo hi h) (hle : lo ≤ hi) (hl : l ≤ hi)
    (hr : lo ≤ r) (hs : query l r fuel lo hi i s = .ok (sum, s'))
    (hj : ¬ LazySums.Node i lo hi j) : s'.treeAt j = s.treeAt j := by
  induction fuel generalizing s s' i lo hi h sum with
  | zero => cases hs
  | succ fuel ih =>
    -- a node that is covered is only read
    rcases query_inv hs with ⟨-, -, rfl⟩ | ⟨hout, s₁, s₂, sum₂, hs₁, hs₂, hs₃⟩
    · rfl
    · have hlt : lo < hi := by omega
      obtain ⟨h, rfl⟩ := hroom.exists_succ hlt
      obtain ⟨-, hchild, hleft, hright⟩ := LazySums.Node.not_halves hj hlt
      have hm := LazySums.middle_bounds hlt
      rw [middle_eq hle, hroom.leftChild] at hs₂
      rw [middle_eq hle, hroom.rightChild] at hs₃
      have hroom₁ := hroom.of_sameLength (maintain_length hs₁)
      have hsame₂ : SameLength s₁ s₂ ∧ s₂.treeAt j = s₁.treeAt j := by
        rcases hs₂ with ⟨x, hc, -, hs₂⟩ | ⟨-, -, rfl⟩
        · exact ⟨query_length hs₂, ih hroom₁.left hm.1 hc hr hs₂ hleft⟩
        · exact ⟨.refl _, rfl⟩
      have hroom₂ := hroom₁.of_sameLength hsame₂.1
      have hsame₃ : s'.treeAt j = s₂.treeAt j := by
        rcases hs₃ with ⟨x, hc, -, hs₃⟩ | ⟨-, -, rfl⟩
        · exact ih hroom₂.right (by omega) hl (by omega) hs₃ hright
        · rfl
      rw [hsame₃, hsame₂.2, maintain_tree_off hroom hlt hs₁ hchild]

end

/-! ## A range that begins behind the interval -/

section

variable [DecidableEq T]

/-- A leaf keeps its tag. -/
theorem maintain_leaf (s : SegmentTree T) (lo i : ℤ) : s.maintain lo lo i = .ok s :=
  if_neg (not_not.2 rfl)

/-- The middle of a single position. -/
theorem middle_self (lo : ℤ) : middle lo lo = lo := by
  rw [middle_eq le_rfl, LazySums.middle]
  omega

/-- The children of a node whose numbers are exact. -/
theorem children_eq (hint : childIndex i true < 2 ^ 31) :
    leftChild (i : ℤ) = (childIndex i false : ℕ) ∧
      rightChild (i : ℤ) = (childIndex i true : ℕ) := by
  have hleft : (i : ℤ) * 2 + 1 = (childIndex i false : ℕ) := by simp [childIndex, mul_comm]
  have hright : (i : ℤ) * 2 + 2 = (childIndex i true : ℕ) := by simp [childIndex, mul_comm]
  unfold leftChild rightChild
  rw [hleft, hright]
  unfold childIndex at hint ⊢
  simp only [if_true, Bool.false_eq_true, if_false] at hint ⊢
  exact ⟨narrow_eq ⟨by omega, by omega⟩, narrow_eq ⟨by omega, by omega⟩⟩

/-- At the last leaf, the recursion goes on with an empty interval, to which nothing is added, and
the leaf gets the sum of the entries below it. -/
theorem update_beyond_leaf (htree : childIndex i true < s.tree.length)
    (hlazy : childIndex i true < s.lazy.length) (hint : childIndex i true < 2 ^ 31)
    (hr : lo + 1 ≤ r) (value : T) (fuel : ℕ) :
    ∃ s', update (lo + 1) r value (fuel + 2) lo lo i s = .ok s' ∧ SameOutside i s s' ∧
      s'.treeAt = Function.update s.treeAt i
        (s.treeAt (childIndex i false) + s.treeAt (childIndex i true)) := by
  have hi : i < s.tree.length := (lt_childIndex i true).trans htree
  have hleft : childIndex i false < s.tree.length := by
    refine lt_trans ?_ htree
    simp [childIndex]
  -- the right child has an empty range, so that its sum is increased by zero
  obtain ⟨s₁, hs₁, hll₁, ht₁, hl₁⟩ := addLazy_spec hlazy value
  obtain ⟨s₂, hs₂, htl₂, hl₂, ht₂⟩ :=
    addTree_spec (s := s₁) (i := childIndex i true) (by rwa [ht₁])
      (((lo - (lo + 1) + 1 : ℤ) : T) * value)
  have htl : s₂.tree.length = s.tree.length := by rw [htl₂, ht₁]
  have hsame : s₂.treeAt = s.treeAt := by
    have hzero : ((lo - (lo + 1) + 1 : ℤ) : T) = 0 := by push_cast; ring
    rw [ht₂, hzero, zero_mul, add_zero, Function.update_eq_self]
    unfold treeAt
    rw [ht₁]
  obtain ⟨s₃, hs₃, htl₃, hl₃, ht₃⟩ := setTree_spec (s := s₂) (i := i) (by rwa [htl])
    (s₂.treeAt (childIndex i false) + s₂.treeAt (childIndex i true))
  have hsum : s₂.sumChildren i = .ok s₃ := by
    unfold sumChildren
    rw [(children_eq hint).1, (children_eq hint).2, read_tree (htl ▸ hleft),
      read_tree (htl ▸ htree)]
    exact hs₃
  have hlazy₃ : s₃.lazyAt = s₁.lazyAt := by
    unfold lazyAt
    rw [hl₃, hl₂]
  refine ⟨s₃, ?_, ⟨htl₃.trans htl, by rw [hl₃, hl₂, hll₁], fun j hj => ?_, fun j hj => ?_⟩, ?_⟩
  · -- the leaf is treated as an inner node, and passes the value on to its right child
    have hempty : update (lo + 1) r value (fuel + 1) (lo + 1) lo (childIndex i true : ℕ) s =
        .ok s₂ := by
      rw [update, if_pos ⟨le_rfl, by omega⟩, hs₁]
      exact hs₂
    rw [update, if_neg (by omega), maintain_leaf]
    simp only [bind, Except.bind]
    rw [middle_self, (children_eq hint).2, if_neg (by omega)]
    simp only []
    rw [if_pos (by omega), hempty]
    exact hsum
  · rw [ht₃, Function.update_of_ne (ne_of_not_below hj), hsame]
  · rw [hlazy₃, hl₁, Function.update_of_ne]
    rintro rfl
    exact hj (.of_child (.refl _))
  · rw [ht₃, hsame]

/-- With a range that begins directly behind the interval, the last element becomes zero. -/
theorem update_beyond_spec (hlast : LazySums.LastLeaf i lo hi j) (hs : Stores s i lo hi a)
    (hroom : Room s i lo hi h) (hfuel : h + 1 < fuel) (htree : childIndex j true < s.tree.length)
    (hlazy : childIndex j true < s.lazy.length) (hint : childIndex j true < 2 ^ 31)
    (hzero : ∀ d, s.treeAt (childIndex j d) = 0) (hr : hi + 1 ≤ r) (value : T) :
    ∃ s', update (hi + 1) r value fuel lo hi i s = .ok s' ∧ SameOutside i s s' ∧
      Stores s' i lo hi (Function.update a hi 0) ∧ ∀ d, s'.treeAt (childIndex j d) = 0 := by
  induction hlast generalizing s a h fuel with
  | leaf i lo =>
    obtain ⟨fuel, rfl⟩ := Nat.exists_eq_add_of_le' (show 2 ≤ fuel by omega)
    obtain ⟨s', hs', hsame, htree'⟩ := update_beyond_leaf htree hlazy hint hr value fuel
    refine ⟨s', hs', hsame, .leaf ?_, fun d => ?_⟩
    · rw [htree', Function.update_self, Function.update_self, hzero, hzero, add_zero]
    · rw [htree', Function.update_of_ne (lt_childIndex i d).ne', hzero]
  | @right i j lo hi hlt hlast ih =>
    obtain ⟨h, rfl⟩ := hroom.exists_succ hlt
    obtain ⟨fuel, rfl⟩ := Nat.exists_eq_add_of_le' (show 1 ≤ fuel by omega)
    have hm := LazySums.middle_bounds hlt
    obtain ⟨s₁, hs₁, hpushed⟩ := maintain_pushed hroom hlt
    obtain ⟨hleft₁, hright₁⟩ :=
      (hs.push hlt hpushed.root hpushed.tag hpushed.tree hpushed.lazy hpushed.below).halves hlt
        hpushed.tag
    have hroom₁ := hroom.of_sameOutside hpushed.same
    -- the entries below the last leaf are not written by `_maintain`
    have hnode (d : Bool) :=
      LazySums.Node.not_halves ((LazySums.LastLeaf.right hlt hlast).not_node_child d) hlt
    have hzero₁ (d : Bool) : s₁.treeAt (childIndex j d) = 0 := by
      rw [hpushed.other _ (hnode d).2.1, hzero]
    have hfuel' : h + 1 < fuel := by omega
    obtain ⟨s₂, hs₂, hsame₂, hright₂, hzero₂⟩ := ih hright₁ hroom₁.right hfuel'
      (by rwa [hpushed.same.tree_length]) (by rwa [hpushed.same.lazy_length]) hint hzero₁ hr
    have hroom₂ := hroom₁.of_sameOutside hsame₂
    have hleft₂ : Stores s₂ (childIndex i false) lo (LazySums.middle lo hi)
        (Function.update a hi 0) := by
      refine (Stores.of_sibling hleft₁ hsame₂).congr (fun _ _ => rfl) (fun _ _ => rfl) ?_
      intro k _ hk
      rw [Function.update_of_ne (by omega)]
    have htag₂ : s₂.lazyAt i = 0 := by rw [hsame₂.lazy_parent, hpushed.tag]
    obtain ⟨s₃, hs₃, hsame₃, -, hst₃⟩ := sumChildren_spec hroom₂ hlt htag₂ hleft₂ hright₂
    refine ⟨s₃, ?_, (hpushed.same.trans hsame₂.of_child).trans hsame₃, hst₃, fun d => ?_⟩
    · rw [update, if_neg (by omega), hs₁]
      simp only [bind, Except.bind]
      rw [middle_eq hlt.le, hroom.leftChild, hroom.rightChild, if_neg (by omega)]
      simp only []
      rw [if_pos (by omega), hs₂]
      exact hs₃
    · rw [sumChildren_tree_off hroom₂ hs₃ (hnode d).1, hzero₂]

/-! ## Accesses outside the vectors -/

/-- There is no entry with the number `c`. -/
def NoEntry (s : SegmentTree T) (c : ℤ) : Prop := c < 0 ∨ s.lazy.length ≤ c

omit [CommRing T] [DecidableEq T] in
/-- A number outside the vector cannot be read. -/
theorem NoEntry.read_ne_ok {c : ℤ} {x : T} (h : NoEntry s c) :
    CheckedVector.read s.lazy c ≠ .ok x := by
  unfold CheckedVector.read
  rcases h with hneg | hlen
  · rw [if_neg (by omega)]
    simp
  · have hnone : s.lazy[c.toNat]? = none := List.getElem?_eq_none (by omega)
    rw [if_pos (by omega), hnone]
    simp

/-- A node without entries is accessed unless it is a leaf outside the range. -/
theorem update_ne_ok_of_noEntry {cl cr c : ℤ} (hne : cl ≠ cr) (hout : NoEntry s c) :
    update l r value fuel cl cr c s ≠ .ok s' := by
  cases fuel with
  | zero => simp [update]
  | succ fuel =>
    intro hs
    rcases update_inv hs with ⟨-, hs⟩ | ⟨-, s₁, s₂, s₃, hs₁, -⟩
    · obtain ⟨s₁, hs₁, -⟩ := bind_eq_ok.1 hs
      obtain ⟨x, hread, -⟩ := bind_eq_ok.1 hs₁
      exact hout.read_ne_ok hread
    · unfold maintain at hs₁
      rw [if_pos hne] at hs₁
      obtain ⟨x, hread, -⟩ := bind_eq_ok.1 hs₁
      exact hout.read_ne_ok hread

/-- An interval that ends before the range: only the second recursive call takes place. -/
theorem update_before_eq_ok {cl cr c : ℤ} (hcl : cl < l) (hm : middle cl cr < l) (hlr : l ≤ r)
    (hs : update l r value (fuel + 1) cl cr c s = .ok s') :
    ∃ s₁ s₂, s.maintain cl cr c = .ok s₁ ∧
      update l r value fuel (middle cl cr + 1) cr (rightChild c) s₁ = .ok s₂ ∧
      s₂.sumChildren c = .ok s' := by
  rcases update_inv hs with ⟨hin, -⟩ | ⟨-, s₁, s₂, s₃, hs₁, hs₂, hs₃, hs⟩
  · omega
  · obtain rfl := (hs₂.resolve_left fun hc => by omega).2
    exact ⟨s₂, s₃, hs₁, (hs₃.resolve_right fun hc => by omega).2, hs⟩

/-- With a range that begins behind the interval, the recursion reaches the node below the last
leaf, and the next one if the range begins further to the right. -/
theorem update_beyond_ne_ok (hlast : LazySums.LastLeaf i lo hi j) (hroom : Room s i lo hi h)
    (hl : hi < l) (hlr : l ≤ r)
    (hout : NoEntry s (rightChild j) ∨ hi + 1 < l ∧ NoEntry s (rightChild (rightChild j))) :
    update l r value fuel lo hi i s ≠ .ok s' := by
  induction hlast generalizing s s' h fuel with
  | leaf i lo =>
    intro hs
    cases fuel with
    | zero => cases hs
    | succ fuel =>
      obtain ⟨s₁, s₂, hs₁, hs₂, -⟩ :=
        update_before_eq_ok hl (by rwa [middle_self]) hlr hs
      rw [maintain_leaf] at hs₁
      obtain rfl := Except.ok.inj hs₁
      rw [middle_self] at hs₂
      rcases hout with hout | ⟨hl', hout⟩
      · exact update_ne_ok_of_noEntry (by omega) hout hs₂
      · -- the interval of the node below the leaf is empty
        have hm : middle (lo + 1) lo = lo + 1 := by
          have hdiff : lo - (lo + 1) = -1 := by ring
          rw [middle, hdiff, show Int.tdiv (-1) 2 = 0 from rfl, add_zero]
        cases fuel with
        | zero => cases hs₂
        | succ fuel =>
          obtain ⟨s₃, s₄, hs₃, hs₄, -⟩ := update_before_eq_ok hl' (by rwa [hm]) hlr hs₂
          have hout₃ : NoEntry s₃ (rightChild (rightChild i)) := by
            unfold NoEntry
            rwa [(maintain_length hs₃).2]
          rw [hm] at hs₄
          exact update_ne_ok_of_noEntry (by omega) hout₃ hs₄
  | @right i j lo hi hlt hlast ih =>
    have hm := LazySums.middle_bounds hlt
    obtain ⟨h, rfl⟩ := hroom.exists_succ hlt
    intro hs
    cases fuel with
    | zero => cases hs
    | succ fuel =>
      obtain ⟨s₁, s₂, hs₁, hs₂, -⟩ :=
        update_before_eq_ok (by omega) (by rw [middle_eq hlt.le]; omega) hlr hs
      rw [middle_eq hlt.le, hroom.rightChild] at hs₂
      have hroom₁ := hroom.of_sameLength (maintain_length hs₁)
      refine ih hroom₁.right hl ?_ hs₂
      unfold NoEntry
      rwa [(maintain_length hs₁).2]

end

end SegmentTree

/-! ## Runs -/

namespace Operation

variable {T : Type} [CommRing T]

/-- Additions to ranges that may end or begin behind an array of `n` elements, and sums inside the
array. -/
def Rightwards (n : ℕ) : Operation T → Prop
  | init _ _ => False
  | rangeAdd l r _ => 0 ≤ l ∧ l ≤ r
  | rangeSet _ _ _ => False
  | rangeSum l r => 0 ≤ l ∧ l ≤ r ∧ r < n

/-- The ranges of additions begin in the array, or directly behind it while the last element is
zero. -/
def KeepsLast (n : ℕ) (a : ℤ → T) : Operation T → Prop
  | rangeAdd l _ _ => l < n ∨ l = n ∧ n < 2 ^ 30 ∧ a (n - 1) = 0
  | _ => True

end Operation

namespace SegmentTree

variable {T : Type} [CommRing T] [DecidableEq T] {s s' : SegmentTree T} {a : ℤ → T} {n j : ℕ}
  {l r : ℤ} {value : T}

/-- The tree represents an array, and the entries below the last leaf are zero. -/
structure HoldsSpare (s : SegmentTree T) (n : ℕ) (a : ℤ → T) : Prop where
  holds : Holds s n a
  lazy_length : s.lazy.length = n * 4
  zero : ∀ j d, LazySums.LastLeaf 0 0 (n - 1) j → s.treeAt (childIndex j d) = 0

/-- The number of the last leaf. -/
theorem lastLeaf_bounds (hpos : 1 ≤ n) :
    ∃ k j, LazySums.LastLeaf 0 0 (n - 1) j ∧ j + 2 = 2 * 2 ^ k ∧ 2 ^ k ≤ n ∧ n < 2 * 2 ^ k := by
  obtain ⟨k, j, hlast, hj, hlow, hhigh⟩ :=
    LazySums.exists_lastLeaf 0 (show (0 : ℤ) ≤ (n : ℤ) - 1 by omega)
  have hpow : ((2 ^ k : ℕ) : ℤ) = 2 ^ k := by push_cast; rfl
  rw [pow_succ] at hhigh
  exact ⟨k, j, hlast, hj, by omega, by omega⟩

omit [DecidableEq T] in
/-- The entry to the right below the last leaf of a tree that is not too large. -/
theorem lastLeaf_child_lt {k : ℕ} (hn : n < 2 ^ 30) (hj : j + 2 = 2 * 2 ^ k) (hk : 2 ^ k ≤ n) :
    childIndex j true < n * 4 ∧ childIndex j true < 2 ^ 31 := by
  have hpow : 2 ^ (k + 1) ≤ 2 ^ 30 :=
    Nat.pow_le_pow_right (by decide) ((Nat.pow_lt_pow_iff_right (by decide)).1 (hk.trans_lt hn))
  rw [Nat.pow_succ] at hpow
  rw [childIndex, if_pos rfl]
  omega

omit [CommRing T] [DecidableEq T] in
/-- Behind it there are no entries. -/
theorem noEntry_of_lastLeaf {k : ℕ} (hlen : s.lazy.length = n * 4) (hn : n ≤ 2 ^ 30)
    (hj : j + 2 = 2 * 2 ^ k) (hk : 2 ^ k ≤ n) (hk' : n < 2 * 2 ^ k) :
    (n = 2 ^ 30 → NoEntry s (rightChild j)) ∧
      (n < 2 ^ 30 → NoEntry s (rightChild (rightChild j))) := by
  constructor
  · rintro rfl
    -- the number that is computed is `2 ^ 32 - 2`
    have hlow : k ≤ 30 := (Nat.pow_le_pow_iff_right (by decide)).1 hk
    rw [← Nat.pow_succ'] at hk'
    have hhigh : 30 < k + 1 := (Nat.pow_lt_pow_iff_right (by decide)).1 hk'
    obtain rfl : k = 30 := by omega
    refine .inl (narrow_neg ?_ ?_) <;> omega
  · intro hlt
    obtain ⟨-, hint⟩ := lastLeaf_child_lt hlt hj hk
    have hchild : (childIndex j true : ℤ) * 2 + 2 = 8 * (2 ^ k : ℕ) - 2 := by
      rw [childIndex, if_pos rfl]
      omega
    have hpow : 2 ^ k ≤ 2 ^ 29 :=
      Nat.pow_le_pow_right (by decide)
        (Nat.lt_succ_iff.1 ((Nat.pow_lt_pow_iff_right (by decide)).1 (hk.trans_lt hlt)))
    rw [(children_eq hint).2, rightChild, hchild]
    by_cases hfit : (8 * (2 ^ k : ℕ) - 2 : ℤ) < 2 ^ 31
    · right
      rw [narrow_eq ⟨by omega, by omega⟩]
      omega
    · exact .inl (narrow_neg (by omega) (by omega))

/-- An addition to a range that begins in the array. -/
theorem HoldsSpare.rangeAdd_inside (hs : HoldsSpare s n a) (hn : n ≤ 2 ^ 30) (value : T)
    (hl : l < n) (hr : 0 ≤ r) :
    ∃ s', s.rangeAdd l r value = .ok s' ∧ HoldsSpare s' n (RangeSums.rangeAdd a l r value) := by
  obtain ⟨s', hs', hholds⟩ := rangeAdd_holds hs.holds hn value hl hr
  have hrun := hs'
  rw [rangeAdd, hs.holds.lastPosition hn] at hrun
  obtain ⟨h, -, hroom⟩ := hs.holds.room
  refine ⟨s', hs', hholds, (update_length hrun).2.trans hs.lazy_length, fun j d hlast => ?_⟩
  have hle := LazySums.Represents.le hs.holds.stores
  rw [update_tree_off hroom hle (by omega) hr hrun (hlast.not_node_child d), hs.zero j d hlast]

/-- A sum. -/
theorem HoldsSpare.rangeSum (hs : HoldsSpare s n a) (hn : n ≤ 2 ^ 30) (hl : 0 ≤ l) (hlr : l ≤ r)
    (hr : r < n) :
    ∃ s', s.rangeSum l r = .ok (∑ k ∈ Finset.Icc l r, a k, s') ∧ HoldsSpare s' n a := by
  obtain ⟨s', hs', hholds⟩ := rangeSum_holds hs.holds hn hl hlr hr
  have hrun := hs'
  rw [SegmentTree.rangeSum, hs.holds.lastPosition hn] at hrun
  obtain ⟨h, -, hroom⟩ := hs.holds.room
  refine ⟨s', hs', hholds, (query_length hrun).2.trans hs.lazy_length, fun j d hlast => ?_⟩
  have hle := LazySums.Represents.le hs.holds.stores
  rw [query_tree_off hroom hle (by omega) (by omega) hrun (hlast.not_node_child d),
    hs.zero j d hlast]

/-- An addition to a range that begins directly behind the array sets the last element to zero. -/
theorem HoldsSpare.rangeAdd_behind (hs : HoldsSpare s n a) (hpos : 1 ≤ n) (hn : n < 2 ^ 30)
    (value : T) (hr : n ≤ r) :
    ∃ s', s.rangeAdd n r value = .ok s' ∧ HoldsSpare s' n (Function.update a (n - 1) 0) := by
  obtain ⟨k, j, hlast, hj, hk, -⟩ := lastLeaf_bounds hpos
  obtain ⟨hlen, hint⟩ := lastLeaf_child_lt hn hj hk
  obtain ⟨h, hh, hroom⟩ := hs.holds.room
  -- the tree is far less high than the bound on the recursion
  have hfuel : h + 1 < depthFuel := by
    have hpow := hroom.int32
    rw [Nat.zero_add, ← Nat.pow_succ'] at hpow
    have := (Nat.pow_le_pow_iff_right (by decide)).1 hpow
    unfold depthFuel
    omega
  obtain ⟨s', hs', hsame, hst, hzero⟩ := update_beyond_spec hlast hs.holds.stores hroom hfuel
    (by rwa [hs.holds.length]) (by rwa [hs.lazy_length]) hint (fun d => hs.zero j d hlast)
    (show (n : ℤ) - 1 + 1 ≤ r by omega) value
  rw [sub_add_cancel] at hs'
  refine ⟨s', ?_, ⟨hsame.tree_length.trans hs.holds.length, ⟨h, hh, hroom.of_sameOutside hsame⟩,
    hst⟩, hsame.lazy_length.trans hs.lazy_length, fun j' d hlast' => ?_⟩
  · rw [rangeAdd, hs.holds.lastPosition hn.le]
    exact hs'
  · rw [← hlast.unique hlast', hzero]

omit [DecidableEq T] in
/-- The array is not changed if its last element is zero. -/
theorem update_last_eq (ha : a (n - 1) = 0) {k : ℤ} (hk : k < n) :
    Function.update a (n - 1) 0 k = RangeSums.rangeAdd a n r value k := by
  rw [RangeSums.rangeAdd_of_notMem value (by omega)]
  by_cases hlast : k = n - 1
  · rw [hlast, Function.update_self, ha]
  · rw [Function.update_of_ne hlast]

/-- A call that meets the condition is right. -/
theorem HoldsSpare.perform (hs : HoldsSpare s n a) (hpos : 1 ≤ n) (hn : n ≤ 2 ^ 30)
    {op : Operation T} (hop : op.Rightwards n) (hlast : op.KeepsLast n a) :
    ∃ s', s.perform op = .ok (op.answer a, s') ∧ HoldsSpare s' n (op.next a) := by
  cases op with
  | init | rangeSet => exact hop.elim
  | rangeSum l r =>
    obtain ⟨s', hs', hspare⟩ := hs.rangeSum hn hop.1 hop.2.1 hop.2.2
    exact ⟨s', by simp only [SegmentTree.perform, hs', bind, Except.bind, Operation.answer], hspare⟩
  | rangeAdd l r value =>
    suffices h : ∃ s', s.rangeAdd l r value = .ok s' ∧
        HoldsSpare s' n (RangeSums.rangeAdd a l r value) by
      obtain ⟨s', hs', hspare⟩ := h
      exact ⟨s', by simp only [SegmentTree.perform, hs', bind, Except.bind, Operation.answer],
        hspare⟩
    rcases hlast with hl | ⟨rfl, hlt, hzero⟩
    · exact hs.rangeAdd_inside hn value hl (hop.1.trans hop.2)
    · obtain ⟨s', hs', hspare⟩ := hs.rangeAdd_behind hpos hlt value hop.2
      refine ⟨s', hs', ⟨hspare.holds.length, hspare.holds.room, ?_⟩, hspare.lazy_length,
        hspare.zero⟩
      exact hspare.holds.stores.congr (fun _ _ => rfl) (fun _ _ => rfl) fun k _ hk =>
        (update_last_eq hzero (by omega)).symm

/-- A call after which all sums are right meets the condition. -/
theorem HoldsSpare.keepsLast (hs : HoldsSpare s n a) (hpos : 1 ≤ n) (hn : n ≤ 2 ^ 30)
    {op : Operation T} (hop : op.Rightwards n) (hs' : s.perform op = .ok (op.answer a, s'))
    (hsums : ∀ p : Operation T, p.IsSum n → ∃ s'', s'.perform p = .ok (p.answer (op.next a), s'')) :
    op.KeepsLast n a := by
  cases op with
  | init | rangeSet | rangeSum => trivial
  | rangeAdd l r value =>
    obtain ⟨s₁, hrun, heq⟩ := bind_eq_ok.1 hs'
    obtain ⟨-, rfl⟩ := Prod.mk.inj (Except.ok.inj heq)
    by_cases hl : l < n
    · exact .inl hl
    · -- other calls access an entry outside the vectors, or set the last element to zero
      obtain ⟨k, j, hlast, hj, hk, hk'⟩ := lastLeaf_bounds hpos
      obtain ⟨hout, hout'⟩ := noEntry_of_lastLeaf hs.lazy_length hn hj hk hk'
      obtain ⟨h, -, hroom⟩ := hs.holds.room
      have hreach : ¬ (NoEntry s (rightChild j) ∨
          (n : ℤ) - 1 + 1 < l ∧ NoEntry s (rightChild (rightChild j))) := by
        intro hno
        rw [rangeAdd, hs.holds.lastPosition hn] at hrun
        exact update_beyond_ne_ok hlast hroom (by omega) hop.2 hno hrun
      have hlt : n < 2 ^ 30 := hn.lt_of_ne fun heq => hreach (.inl (hout heq))
      obtain rfl : l = n := by
        by_contra hne
        exact hreach (.inr ⟨by omega, hout' hlt⟩)
      refine .inr ⟨rfl, hlt, ?_⟩
      obtain ⟨s₂, hs₂, hspare⟩ := hs.rangeAdd_behind hpos hlt value hop.2
      obtain rfl := Except.ok.inj (hrun.symm.trans hs₂)
      have hst := (holds_of_rangeSums hpos hn hspare.holds.length hspare.holds.room hsums).stores
      have hsame := LazySums.Represents.unique hspare.holds.stores hst
        (show (0 : ℤ) ≤ (n : ℤ) - 1 by omega) le_rfl
      rw [Function.update_self] at hsame
      refine Eq.trans ?_ hsame.symm
      exact (RangeSums.rangeAdd_of_notMem value (by omega)).symm

omit [DecidableEq T] in
/-- `init` on a fresh tree. -/
theorem init_spare (v : List T) (initValue : Bool) (hpos : 1 ≤ v.length)
    (hn : v.length ≤ 2 ^ 30) :
    ∃ s, fresh.init v initValue = .ok s ∧ HoldsSpare s v.length (initial v initValue) := by
  obtain ⟨s, hs, hholds⟩ := init_holds v initValue hpos hn
  let s₀ : SegmentTree T := ⟨List.replicate (v.length * 4) 0, List.replicate (v.length * 4) 0⟩
  have hzero (j : ℕ) : s₀.treeAt j = 0 := getD_replicate _ _ _
  have hinit : fresh.init v false = .ok s₀ := init_false v
  cases initValue with
  | false =>
    obtain rfl := Except.ok.inj (hinit.symm.trans hs)
    exact ⟨s₀, hinit, hholds, List.length_replicate .., fun j d _ => hzero _⟩
  | true =>
    have hbuild : build v depthFuel (0 : ℕ) 0 (v.length - 1) s₀ = .ok s := by
      simpa [init, fresh, s₀, narrow_last hn] using hs
    have hsame := build_length hbuild
    refine ⟨s, hs, hholds, hsame.2.trans List.length_replicate, fun j d hlast => ?_⟩
    obtain ⟨h, -, hroom⟩ := hholds.room
    have hroom₀ : Room s₀ 0 0 (v.length - 1) h :=
      hroom.of_sameLength ⟨hsame.1.symm, hsame.2.symm⟩
    rw [build_tree_off hroom₀ (by omega) hbuild (hlast.not_node_child d), hzero]

/-- In a run of additions and sums after `init` on a fresh tree, where the ranges of additions may
end or begin behind the array, all sums that are or could be computed are right exactly when the
ranges of additions begin in the array, or directly behind it while the last element is zero. -/
theorem observed_iff_keepsLast (v : List T) (initValue : Bool) (ops : List (Operation T))
    (hpos : 1 ≤ v.length) (hlen : v.length ≤ 2 ^ 30) (hops : ∀ op ∈ ops, op.Rightwards v.length) :
    ∃ s, fresh.init v initValue = .ok s ∧
      (Observed SegmentTree.perform Operation.next Operation.answer (Operation.IsSum v.length) s
          (initial v initValue) ops ↔
        EachMeets SegmentTree.perform Operation.next (fun _ a op => op.KeepsLast v.length a) s
          (initial v initValue) ops) := by
  obtain ⟨s, hs, hspare⟩ := init_spare v initValue hpos hlen
  refine ⟨s, hs, observed_iff (fun s a => HoldsSpare s v.length a) ⟨.rangeSum 0 0, ?_⟩ ?_ ?_ ?_
    hspare hops⟩
  · exact ⟨le_rfl, le_rfl, by omega⟩
  · intro s a p hs hp
    obtain ⟨s', hs', -⟩ := hs.holds.perform_isSum hlen hp
    exact ⟨s', hs'⟩
  · exact fun s a op hs hop hlast => hs.perform hpos hlen hop hlast
  · exact fun s a op s' hs hop hs' hsums => hs.keepsLast hpos hlen hop hs' hsums

/-- An addition to a range that begins behind the array while the last element is zero, and one to a
range that ends there. -/
theorem observed_iff_keepsLast_two :
    ∃ s, fresh.init [1, 0] true = .ok s ∧
      Observed SegmentTree.perform Operation.next Operation.answer (Operation.IsSum 2) s
        (initial [1, 0] true) [.rangeAdd 2 3 (7 : ℤ), .rangeAdd 1 4 5] := by
  have hops : ∀ op ∈ [Operation.rangeAdd 2 3 (7 : ℤ), .rangeAdd 1 4 5], op.Rightwards 2 := by
    simp [Operation.Rightwards]
  have hinit : fresh.init [1, 0] true =
      .ok ⟨[1, 1, 0, 0, 0, 0, 0, 0], List.replicate 8 (0 : ℤ)⟩ := rfl
  have hfirst : SegmentTree.perform ⟨[1, 1, 0, 0, 0, 0, 0, 0], List.replicate 8 0⟩
      (.rangeAdd 2 3 (7 : ℤ)) =
      .ok (none, ⟨[1, 1, 0, 0, 0, 0, 0, 0], [0, 0, 0, 0, 0, 0, 7, 0]⟩) := rfl
  have hsecond : SegmentTree.perform ⟨[1, 1, 0, 0, 0, 0, 0, 0], [0, 0, 0, 0, 0, 0, 7, 0]⟩
      (.rangeAdd 1 4 (5 : ℤ)) =
      .ok (none, ⟨[6, 1, 5, 0, 0, 0, 0, 0], [0, 0, 5, 0, 0, 0, 7, 0]⟩) := rfl
  obtain ⟨s, hs, hiff⟩ := observed_iff_keepsLast [1, 0] true _ (by decide) (by decide) hops
  obtain rfl := Except.ok.inj (hinit.symm.trans hs)
  refine ⟨_, hs, hiff.2 ((eachMeets_cons hfirst).2 ⟨.inr ⟨rfl, by decide, rfl⟩, ?_⟩)⟩
  exact (eachMeets_cons hsecond).2 ⟨.inl (by decide), eachMeets_nil⟩

/-- An addition to the position behind two elements sets the second one to zero; one position
further to the right, an entry outside the vectors is accessed. -/
theorem rangeAdd_clears_last :
    ∃ s, (fresh : SegmentTree ℤ).init [1, 2] true = .ok s ∧
      (∃ s', performAll SegmentTree.perform s [.rangeSum 1 1, .rangeAdd 2 2 5, .rangeSum 1 1] =
        .ok ([some 2, none, some 0], s')) ∧
      s.rangeAdd 3 3 5 = .error .invalidAccess :=
  ⟨_, rfl, ⟨_, rfl⟩, rfl⟩

end SegmentTree

end CppLearn

import CppLearn.SegmentTree.Nodes
import Mathlib.Data.Nat.Log

/-!
# Correctness of the segment tree

The recursive functions visit nodes whose interval meets the range of the call. Each of them
returns, changes numbers below its node only, and leaves numbers that represent the array it is
meant to leave.

There is one lemma for each recursive function, `SegmentTree.update_spec`, `SegmentTree.query_spec`
and `SegmentTree.build_spec`. For any sequence of calls that are `RangeCall.InRange`, the results
are `RangeCall.answers` (`SegmentTree.run_rangeSums`).
-/

namespace CppLearn

open BoundedLoop CheckedVector Signed HeapOrder

namespace SegmentTree

variable {T : Type} [CommRing T] {s s' s'' : SegmentTree T} {a : ℤ → T} {i h fuel : ℕ}
  {lo hi l r : ℤ}

/-! ## The recursive functions -/

/-- The two additions for an interval inside the range. -/
theorem addAll_writes (hroom : Room s i lo hi h) (value : T) :
    ∃ s', (do
        let s ← s.addLazy i value
        s.addTree i (((hi - lo + 1 : ℤ) : T) * value)) = .ok s' ∧
      s'.tree.length = s.tree.length ∧ s'.lazy.length = s.lazy.length ∧
      s'.treeAt = Function.update s.treeAt i (s.treeAt i + ((hi - lo + 1 : ℤ) : T) * value) ∧
      s'.lazyAt = Function.update s.lazyAt i (s.lazyAt i + value) := by
  obtain ⟨s₁, hs₁, hll₁, ht₁, hl₁⟩ := addLazy_spec hroom.lazy_lt value
  obtain ⟨s₂, hs₂, htl₂, hl₂, ht₂⟩ :=
    addTree_spec (s := s₁) (by rw [ht₁]; exact hroom.tree_lt) (((hi - lo + 1 : ℤ) : T) * value)
  refine ⟨s₂, ?_, by rw [htl₂, ht₁], by rw [hl₂, hll₁], ?_, ?_⟩
  · simp only [hs₁, hs₂, bind, Except.bind]
  · rw [ht₂]
    unfold treeAt
    rw [ht₁]
  · rw [← hl₁]
    unfold lazyAt
    rw [hl₂]

/-- An interval inside the range: the value is added at its node. -/
theorem addAll_spec (hs : Stores s i lo hi a) (hroom : Room s i lo hi h) (value : T) :
    ∃ s', (do
        let s ← s.addLazy i value
        s.addTree i (((hi - lo + 1 : ℤ) : T) * value)) = .ok s' ∧
      SameOutside i s s' ∧ Stores s' i lo hi fun k => a k + value := by
  obtain ⟨s', hs', htl, hll, htree, hlazy⟩ := addAll_writes hroom value
  refine ⟨s', hs', ⟨htl, hll, ?_, ?_⟩, ?_⟩
  · intro j hj
    rw [htree, Function.update_of_ne (ne_of_not_below hj)]
  · intro j hj
    rw [hlazy, Function.update_of_ne (ne_of_not_below hj)]
  · refine hs.addAll value (by rw [htree, Function.update_self])
      (by rw [hlazy, Function.update_self]) fun d j hj => ?_
    have hne : j ≠ i := ne_of_below_child hj
    rw [htree, hlazy, Function.update_of_ne hne, Function.update_of_ne hne]
    exact ⟨rfl, rfl⟩

/-- The elements of the vector that `init` is called with. -/
def elements (v : List T) : ℤ → T := fun k => v.getD k.toNat 0

/-- `_build` stores the sums of the elements of the vector. It does not take tags into account. -/
theorem build_sums (v : List T) (hroom : Room s i lo hi h) (hfuel : h < fuel) (hle : lo ≤ hi)
    (hlo : 0 ≤ lo) (hhi : hi < v.length) :
    ∃ s', build v fuel i lo hi s = .ok s' ∧ SameOutside i s s' ∧ s'.lazyAt = s.lazyAt ∧
      LazySums.Represents s'.treeAt (fun _ => 0) i lo hi (elements v) := by
  induction fuel generalizing s i lo hi h with
  | zero => omega
  | succ fuel ih =>
    rcases hle.eq_or_lt with rfl | hlt
    · -- a leaf gets its element
      obtain ⟨k, rfl⟩ := Int.eq_ofNat_of_zero_le hlo
      obtain ⟨s', hs', hlen, hl, htree⟩ := setTree_spec hroom.tree_lt (v.getD k 0)
      have hlazy : s'.lazyAt = s.lazyAt := by unfold lazyAt; rw [hl]
      refine ⟨s', ?_, ⟨hlen, by rw [hl], ?_, fun j _ => by rw [hlazy]⟩, hlazy, .leaf ?_⟩
      · rw [build, if_pos rfl, read_ok (by omega) 0]
        exact hs'
      · intro j hj
        rw [htree, Function.update_of_ne (ne_of_not_below hj)]
      · rw [htree, Function.update_self]
        rfl
    · obtain ⟨h, rfl⟩ := hroom.exists_succ hlt
      have hm := LazySums.middle_bounds hlt
      obtain ⟨s₁, hs₁, hsame₁, hlazy₁, hleft₁⟩ := ih hroom.left (by omega) hm.1 hlo (by omega)
      have hroom₁ := hroom.of_sameOutside hsame₁
      obtain ⟨s₂, hs₂, hsame₂, hlazy₂, hright₂⟩ :=
        ih hroom₁.right (by omega) (by omega) (by omega) hhi
      have hroom₂ := hroom₁.of_sameOutside hsame₂
      obtain ⟨s₃, hs₃, hlen₃, hl₃, htree₃⟩ := sumChildren_writes hroom₂
      have hlazy₃ : s₃.lazyAt = s₂.lazyAt := by unfold lazyAt; rw [hl₃]
      have hsame₃ : SameOutside i s₂ s₃ := by
        refine ⟨hlen₃, by rw [hl₃], fun j hj => ?_, fun j _ => by rw [hlazy₃]⟩
        rw [htree₃, Function.update_of_ne (ne_of_not_below hj)]
      -- building the right half and writing the sum leaves what is below the children
      have hkeep {d : Bool} {j : ℕ} (hj : Below (childIndex i d) j) :
          s₃.treeAt j = s₂.treeAt j := by
        rw [htree₃, Function.update_of_ne (ne_of_below_child hj)]
      refine ⟨s₃, ?_, (hsame₁.of_child.trans hsame₂.of_child).trans hsame₃,
        hlazy₃.trans (hlazy₂.trans hlazy₁), .join hlt rfl ?_ ?_ ?_⟩
      · rw [build, if_neg hlt.ne, middle_eq hle, hroom.leftChild, hroom.rightChild]
        simp only [bind, Except.bind, hs₁, hs₂, hs₃]
      · rw [hkeep (.refl _), hkeep (.refl _), htree₃, Function.update_self]
      · refine hleft₁.congr (fun j hj => ?_) (fun _ _ => rfl) fun _ _ _ => rfl
        rw [hkeep hj, hsame₂.tree j (not_below_sibling hj)]
      · exact hright₂.congr (fun j hj => hkeep hj) (fun _ _ => rfl) fun _ _ _ => rfl

/-- Without tags, the sums represent the array. -/
theorem build_spec (v : List T) (hlazy : ∀ j, s.lazyAt j = 0) (hroom : Room s i lo hi h)
    (hfuel : h < fuel) (hle : lo ≤ hi) (hlo : 0 ≤ lo) (hhi : hi < v.length) :
    ∃ s', build v fuel i lo hi s = .ok s' ∧ SameOutside i s s' ∧
      Stores s' i lo hi (elements v) := by
  obtain ⟨s', hs', hsame, hlazy', hst⟩ := build_sums v hroom hfuel hle hlo hhi
  refine ⟨s', hs', hsame, ?_⟩
  unfold Stores
  rwa [hlazy', funext hlazy]

section

variable [DecidableEq T]

omit [DecidableEq T] in
/-- An update of one half, which is left out when the half does not meet the range. -/
theorem update_half {c : Prop} [Decidable c] {call : Except Fault (SegmentTree T)} {b : ℤ → T}
    (hs : Stores s i lo hi a)
    (hcall : c → ∃ s', call = .ok s' ∧ SameOutside i s s' ∧ Stores s' i lo hi b)
    (hskip : ¬c → ∀ k, lo ≤ k → k ≤ hi → b k = a k) :
    ∃ s', (if c then call else .ok s) = .ok s' ∧ SameOutside i s s' ∧ Stores s' i lo hi b := by
  split_ifs with hc
  · exact hcall hc
  · exact ⟨s, rfl, .refl i s, hs.congr (fun _ _ => rfl) (fun _ _ => rfl) (hskip hc)⟩

/-- The node `i` has no tag, and the halves of its interval store the array. The sum of the node may
be any. -/
structure Halves (s : SegmentTree T) (i : ℕ) (lo hi : ℤ) (a : ℤ → T) : Prop where
  tag : s.lazyAt i = 0
  left : Stores s (childIndex i false) lo (LazySums.middle lo hi) a
  right : Stores s (childIndex i true) (LazySums.middle lo hi + 1) hi a

omit [DecidableEq T] in
/-- A node that stores the array, after its tag was passed on. -/
theorem Stores.toHalves (hs : Stores s i lo hi a) (hlt : lo < hi) (htag : s.lazyAt i = 0) :
    Halves s i lo hi a :=
  ⟨htag, (LazySums.Represents.halves hs hlt htag).1, (LazySums.Represents.halves hs hlt htag).2⟩

/-- `_update` of a node whose interval is not inside the range, when the calls for the halves do
what they are meant to do. The sum of the node is computed anew. -/
theorem update_halves (value : T) (hroom : Room s i lo hi (h + 1)) (hlt : lo < hi)
    (hin : ¬(l ≤ lo ∧ hi ≤ r)) (hl : l ≤ hi) (hr : lo ≤ r) (hpush : s.maintain lo hi i = .ok s')
    (hsame : SameOutside i s s') (hhalves : Halves s' i lo hi a)
    (hcall : ∀ {s : SegmentTree T} {i : ℕ} {lo hi : ℤ}, Stores s i lo hi a → Room s i lo hi h →
      l ≤ hi → lo ≤ r → ∃ s', update l r value fuel lo hi i s = .ok s' ∧ SameOutside i s s' ∧
        Stores s' i lo hi (RangeSums.rangeAdd a l r value)) :
    ∃ s', update l r value (fuel + 1) lo hi i s = .ok s' ∧ SameOutside i s s' ∧
      s'.lazyAt i = 0 ∧ Stores s' i lo hi (RangeSums.rangeAdd a l r value) := by
  have hm := LazySums.middle_bounds hlt
  have hroom' := hroom.of_sameOutside hsame
  -- the left half first, and then the right one, which the first call has not touched
  obtain ⟨s₂, hs₂, hsame₂, hleft₂⟩ := update_half hhalves.left
    (fun hc => hcall hhalves.left hroom'.left hc hr)
    fun hc k _ hk => RangeSums.rangeAdd_of_notMem value (by omega)
  have hroom₂ := hroom'.of_sameOutside hsame₂
  have hright₂ : Stores s₂ (childIndex i true) (LazySums.middle lo hi + 1) hi a :=
    Stores.of_sibling hhalves.right hsame₂
  obtain ⟨s₃, hs₃, hsame₃, hright₃⟩ := update_half hright₂
    (fun hc : LazySums.middle lo hi < r => hcall hright₂ hroom₂.right hl (by omega))
    fun hc k hk _ => RangeSums.rangeAdd_of_notMem value (by omega)
  have hroom₃ := hroom₂.of_sameOutside hsame₃
  have hleft₃ : Stores s₃ (childIndex i false) lo (LazySums.middle lo hi)
      (RangeSums.rangeAdd a l r value) := Stores.of_sibling hleft₂ hsame₃
  have htag₃ : s₃.lazyAt i = 0 := by
    rw [hsame₃.lazy_parent, hsame₂.lazy_parent, hhalves.tag]
  -- the node gets the sum of the two halves
  obtain ⟨s₄, hs₄, hsame₄, hlazy₄, hst₄⟩ := sumChildren_spec hroom₃ hlt htag₃ hleft₃ hright₃
  refine ⟨s₄, ?_, ((hsame.trans hsame₂.of_child).trans hsame₃.of_child).trans hsame₄,
    by rw [hlazy₄, htag₃], hst₄⟩
  rw [update, if_neg hin, hpush]
  simp only [bind, Except.bind]
  rw [middle_eq hlt.le, hroom.leftChild, hroom.rightChild, hs₂]
  simp only []
  rw [hs₃]
  exact hs₄

/-- `_update` adds the value to the elements in the range, and changes nothing outside. -/
theorem update_spec (value : T) (hs : Stores s i lo hi a) (hroom : Room s i lo hi h)
    (hfuel : h < fuel) (hl : l ≤ hi) (hr : lo ≤ r) :
    ∃ s', update l r value fuel lo hi i s = .ok s' ∧ SameOutside i s s' ∧
      Stores s' i lo hi (RangeSums.rangeAdd a l r value) := by
  induction fuel generalizing s i lo hi h with
  | zero => omega
  | succ fuel ih =>
    by_cases hin : l ≤ lo ∧ hi ≤ r
    · obtain ⟨s', hs', hsame, hstores⟩ := addAll_spec hs hroom value
      refine ⟨s', ?_, hsame, ?_⟩
      · rw [update, if_pos hin]
        exact hs'
      · refine hstores.congr (fun _ _ => rfl) (fun _ _ => rfl) fun k hk hk' => ?_
        exact RangeSums.rangeAdd_of_mem value ⟨by omega, by omega⟩
    · -- the interval has two halves, and at least one of them meets the range
      have hle := LazySums.Represents.le hs
      have hlt : lo < hi := by omega
      obtain ⟨h, rfl⟩ := hroom.exists_succ hlt
      obtain ⟨s₁, hs₁, hsame₁, hst₁, htag₁⟩ := maintain_spec hs hroom hlt
      obtain ⟨s₂, hs₂, hsame₂, -, hst₂⟩ := update_halves value hroom hlt hin hl hr hs₁ hsame₁
        (hst₁.toHalves hlt htag₁) fun hs hroom hl hr => ih hs hroom (by omega) hl hr
      exact ⟨s₂, hs₂, hsame₂, hst₂⟩

omit [DecidableEq T] in
/-- A query of one half adds the sum of the elements that the half has in common with the range.
It is left out when there are none. -/
theorem query_half {c : Prop} [Decidable c] {call : Except Fault (T × SegmentTree T)} {sum : T}
    (old : T) (hs : Stores s i lo hi a)
    (hcall : c → ∃ s', call = .ok (sum, s') ∧ SameOutside i s s' ∧ Stores s' i lo hi a)
    (hskip : ¬c → sum = 0) :
    ∃ s', (if c then do
          let (x, s) ← call
          .ok (old + x, s)
        else .ok (old, s)) = .ok (old + sum, s') ∧ SameOutside i s s' ∧ Stores s' i lo hi a := by
  split_ifs with hc
  · obtain ⟨s', hs', hrest⟩ := hcall hc
    exact ⟨s', by rw [hs', ok_bind], hrest⟩
  · exact ⟨s, by rw [hskip hc, add_zero], .refl i s, hs⟩

/-- `_query` for a node whose interval is not inside the range, when the calls for the halves do
what they are meant to do. The sum of the node is not read. -/
theorem query_halves (hroom : Room s i lo hi (h + 1)) (hlt : lo < hi)
    (hin : ¬(l ≤ lo ∧ hi ≤ r)) (hl : l ≤ hi) (hr : lo ≤ r) (hpush : s.maintain lo hi i = .ok s')
    (hsame : SameOutside i s s') (hhalves : Halves s' i lo hi a)
    (hcall : ∀ {s : SegmentTree T} {i : ℕ} {lo hi : ℤ}, Stores s i lo hi a → Room s i lo hi h →
      l ≤ hi → lo ≤ r → ∃ s', query l r fuel lo hi i s =
        .ok (∑ k ∈ Finset.Icc (max l lo) (min r hi), a k, s') ∧ SameOutside i s s' ∧
          Stores s' i lo hi a) :
    ∃ s'', query l r (fuel + 1) lo hi i s =
        .ok (∑ k ∈ Finset.Icc (max l lo) (min r hi), a k, s'') ∧
      SameOutside i s s'' ∧ s''.treeAt i = s'.treeAt i ∧ Halves s'' i lo hi a := by
  have hm := LazySums.middle_bounds hlt
  have hroom' := hroom.of_sameOutside hsame
  -- a half that does not meet the range contributes an empty sum
  obtain ⟨s₂, hs₂, hsame₂, hleft₂⟩ := query_half 0 hhalves.left
    (fun hc => hcall hhalves.left hroom'.left hc hr) fun hc => by
      rw [Finset.Icc_eq_empty (by omega), Finset.sum_empty]
  have hroom₂ := hroom'.of_sameOutside hsame₂
  have hright₂ : Stores s₂ (childIndex i true) (LazySums.middle lo hi + 1) hi a :=
    Stores.of_sibling hhalves.right hsame₂
  obtain ⟨s₃, hs₃, hsame₃, hright₃⟩ := query_half
    (0 + ∑ k ∈ Finset.Icc (max l lo) (min r (LazySums.middle lo hi)), a k) hright₂
    (fun hc : LazySums.middle lo hi < r => hcall hright₂ hroom₂.right hl (by omega))
    fun hc => by rw [Finset.Icc_eq_empty (by omega), Finset.sum_empty]
  have hleft₃ : Stores s₃ (childIndex i false) lo (LazySums.middle lo hi) a :=
    Stores.of_sibling hleft₂ hsame₃
  refine ⟨s₃, ?_, (hsame.trans hsame₂.of_child).trans hsame₃.of_child, ?_, ?_, hleft₃, hright₃⟩
  · rw [query, if_neg hin, hpush, ok_bind, RangeSums.sum_Icc_clip a l r (by omega) hm.2.le]
    simp only []
    rw [middle_eq hlt.le, hroom.leftChild, hroom.rightChild, hs₂, ok_bind]
    simp only []
    rw [hs₃, zero_add]
  · rw [hsame₃.tree_parent, hsame₂.tree_parent]
  · rw [hsame₃.lazy_parent, hsame₂.lazy_parent, hhalves.tag]

/-- `_query` returns the sum of the elements in the range. It passes tags on, which does not change
what is stored. -/
theorem query_spec (hs : Stores s i lo hi a) (hroom : Room s i lo hi h) (hfuel : h < fuel)
    (hl : l ≤ hi) (hr : lo ≤ r) :
    ∃ s', query l r fuel lo hi i s =
        .ok (∑ k ∈ Finset.Icc (max l lo) (min r hi), a k, s') ∧
      SameOutside i s s' ∧ Stores s' i lo hi a := by
  induction fuel generalizing s i lo hi h with
  | zero => omega
  | succ fuel ih =>
    by_cases hin : l ≤ lo ∧ hi ≤ r
    · refine ⟨s, ?_, .refl i s, hs⟩
      rw [query, if_pos hin, read_tree hroom.tree_lt, max_eq_right hin.1, min_eq_right hin.2,
        ← LazySums.Represents.tree_eq hs]
      rfl
    · have hle := LazySums.Represents.le hs
      have hlt : lo < hi := by omega
      obtain ⟨h, rfl⟩ := hroom.exists_succ hlt
      obtain ⟨s₁, hs₁, hsame₁, hst₁, htag₁⟩ := maintain_spec hs hroom hlt
      obtain ⟨s₂, hs₂, hsame₂, htree₂, hhalves₂⟩ := query_halves hroom hlt hin hl hr hs₁ hsame₁
        (hst₁.toHalves hlt htag₁) fun hs hroom hl hr => ih hs hroom (by omega) hl hr
      refine ⟨s₂, hs₂, hsame₂, .of_halves hlt hhalves₂.tag ?_ hhalves₂.left hhalves₂.right⟩
      rw [htree₂, LazySums.Represents.tree_eq hst₁]

end

/-! ## Public operations -/

/-- The whole tree represents the array `a` of `n` elements. -/
structure Holds (s : SegmentTree T) (n : ℕ) (a : ℤ → T) : Prop where
  length : s.tree.length = n * 4
  room : ∃ h < depthFuel, Room s 0 0 (n - 1) h
  stores : Stores s 0 0 (n - 1) a

/-- A tree of `n` elements has less than `2 * n` nodes on its lowest level. -/
theorem exists_height {n : ℕ} (hpos : 1 ≤ n) :
    ∃ h, n ≤ 2 ^ h ∧ 2 * 2 ^ h ≤ n * 4 ∧ ∀ k, n ≤ 2 ^ k → h ≤ k := by
  refine ⟨Nat.clog 2 n, Nat.le_pow_clog (by decide) n, ?_, fun _ => Nat.clog_le_of_le_pow⟩
  rcases hpos.eq_or_lt with rfl | hlt
  · simp
  · have hpred := Nat.pow_pred_clog_lt_self (by decide : 1 < 2) hlt
    have hclog := Nat.clog_pos (by decide : 1 < 2) hlt
    obtain ⟨k, hk⟩ := Nat.exists_eq_add_of_lt hclog
    rw [hk] at hpred ⊢
    simp only [Nat.zero_add, Nat.pred_succ] at hpred ⊢
    rw [Nat.pow_succ]
    omega

/-- `int32_t` positions are exact. -/
theorem narrow_last {n : ℕ} (hn : n ≤ 2 ^ 30) : narrow 32 ((n : ℤ) - 1) = n - 1 := by
  refine narrow_eq ⟨?_, ?_⟩ <;> omega

omit [CommRing T] in
theorem lastPosition_eq {n : ℕ} (hlen : s.tree.length = n * 4) (hn : n ≤ 2 ^ 30) :
    s.lastPosition = n - 1 := by
  rw [lastPosition, hlen, Nat.mul_div_cancel _ (by decide), narrow_last hn]

theorem Holds.lastPosition {n : ℕ} (hs : Holds s n a) (hn : n ≤ 2 ^ 30) :
    s.lastPosition = n - 1 := lastPosition_eq hs.length hn

/-- The array that `init` leaves. -/
def initial (v : List T) (initValue : Bool) : ℤ → T := if initValue then elements v else fun _ => 0

/-- `init(v, false)` on a fresh tree. -/
theorem init_false (v : List T) :
    fresh.init v false =
      .ok ⟨List.replicate (v.length * 4) 0, List.replicate (v.length * 4) 0⟩ := by
  simp [init, fresh]

omit [CommRing T] in
/-- Four entries for each element are enough for all nodes. -/
theorem exists_room {n : ℕ} (htree : s.tree.length = n * 4) (hlazy : s.lazy.length = n * 4)
    (hpos : 1 ≤ n) (hn : n ≤ 2 ^ 30) : ∃ h < depthFuel, Room s 0 0 (n - 1) h := by
  obtain ⟨h, hle, hroom, hleast⟩ := exists_height hpos
  have hh := hleast 30 hn
  have hpow : 2 * 2 ^ h ≤ 2 ^ 31 := by
    rw [← Nat.pow_succ']
    exact Nat.pow_le_pow_right (by decide) (by omega)
  have hwidth : (n : ℤ) ≤ 2 ^ h := by exact_mod_cast hle
  refine ⟨h, by unfold depthFuel; omega, by omega, ?_, ?_, by simpa using hpow⟩
  · rw [htree]
    simpa using hroom
  · rw [hlazy]
    simpa using hroom

/-- `init` on a fresh tree. -/
theorem init_holds (v : List T) (initValue : Bool) (hpos : 1 ≤ v.length)
    (hn : v.length ≤ 2 ^ 30) :
    ∃ s, fresh.init v initValue = .ok s ∧ Holds s v.length (initial v initValue) := by
  let s : SegmentTree T := ⟨List.replicate (v.length * 4) 0, List.replicate (v.length * 4) 0⟩
  have htree (j : ℕ) : s.treeAt j = 0 := getD_replicate _ _ _
  have hlazy (j : ℕ) : s.lazyAt j = 0 := getD_replicate _ _ _
  obtain ⟨h, hfuel, hroom⟩ :=
    exists_room (s := s) List.length_replicate List.length_replicate hpos hn
  cases initValue with
  | false =>
    refine ⟨s, init_false v, ?_, ⟨h, hfuel, hroom⟩, ?_⟩
    · exact List.length_replicate ..
    · exact LazySums.represents_zero 0 (by omega) htree hlazy
  | true =>
    obtain ⟨s', hs', hsame, hst⟩ :=
      build_spec v hlazy hroom hfuel (by omega) le_rfl (by omega)
    refine ⟨s', ?_, ?_, ⟨h, hfuel, hroom.of_sameOutside hsame⟩, hst⟩
    · simpa [init, fresh, s, narrow_last hn] using hs'
    · rw [hsame.tree_length]
      exact List.length_replicate ..

variable [DecidableEq T] {n : ℕ}

/-- `range_add` with a range that meets the array. -/
theorem rangeAdd_holds (hs : Holds s n a) (hn : n ≤ 2 ^ 30) (value : T) (hl : l < n) (hr : 0 ≤ r) :
    ∃ s', s.rangeAdd l r value = .ok s' ∧ Holds s' n (RangeSums.rangeAdd a l r value) := by
  obtain ⟨h, hh, hroom⟩ := hs.room
  obtain ⟨s', hs', hsame, hst⟩ := update_spec (l := l) (r := r) value hs.stores hroom hh
    (by omega) (by omega)
  refine ⟨s', ?_, hsame.tree_length.trans hs.length, ⟨h, hh, hroom.of_sameOutside hsame⟩, hst⟩
  rw [rangeAdd, hs.lastPosition hn]
  exact hs'

/-- `range_sum` with a range inside the array. -/
theorem rangeSum_holds (hs : Holds s n a) (hn : n ≤ 2 ^ 30) (hl : 0 ≤ l) (hlr : l ≤ r)
    (hr : r < n) :
    ∃ s', s.rangeSum l r = .ok (∑ k ∈ Finset.Icc l r, a k, s') ∧ Holds s' n a := by
  obtain ⟨h, hh, hroom⟩ := hs.room
  obtain ⟨s', hs', hsame, hst⟩ := query_spec (l := l) (r := r) hs.stores hroom hh
    (by omega) (by omega)
  refine ⟨s', ?_, hsame.tree_length.trans hs.length, ⟨h, hh, hroom.of_sameOutside hsame⟩, hst⟩
  rw [max_eq_left hl, min_eq_left (by omega)] at hs'
  rw [rangeSum, hs.lastPosition hn]
  exact hs'

end SegmentTree

namespace RangeCall

variable {T : Type} [CommRing T]

/-- The range of the call is inside an array of `n` elements. -/
def InRange (n : ℕ) : RangeCall T → Prop
  | .rangeAdd l r _ => 0 ≤ l ∧ l ≤ r ∧ r < n
  | .rangeSum l r => 0 ≤ l ∧ l ≤ r ∧ r < n

/-- What the calls of `range_sum` have to return when the array is `a` at first. -/
noncomputable def answers : (ℤ → T) → List (RangeCall T) → List T
  | _, [] => []
  | a, .rangeAdd l r value :: calls => answers (RangeSums.rangeAdd a l r value) calls
  | a, .rangeSum l r :: calls => (∑ k ∈ Finset.Icc l r, a k) :: answers a calls

end RangeCall

namespace SegmentTree

variable {T : Type} [CommRing T] [DecidableEq T] {s : SegmentTree T} {a : ℤ → T} {n : ℕ}

/-- Any sequence of calls on a tree that represents an array. -/
theorem Holds.run (hs : Holds s n a) (hn : n ≤ 2 ^ 30) (calls : List (RangeCall T))
    (hcalls : ∀ c ∈ calls, c.InRange n) :
    ∃ s', s.run calls = .ok (RangeCall.answers a calls, s') := by
  induction calls generalizing s a with
  | nil => exact ⟨s, rfl⟩
  | cons c calls ih =>
    have hc := hcalls c List.mem_cons_self
    have hrest : ∀ c ∈ calls, c.InRange n := fun c hmem => hcalls c (List.mem_cons_of_mem _ hmem)
    cases c with
    | rangeAdd l r value =>
      obtain ⟨s₁, hs₁, hholds⟩ := rangeAdd_holds hs hn value (hc.2.1.trans_lt hc.2.2)
        (hc.1.trans hc.2.1)
      obtain ⟨s', hs'⟩ := ih hholds hrest
      refine ⟨s', ?_⟩
      simp only [SegmentTree.run, hs₁, bind, Except.bind, hs', RangeCall.answers]
    | rangeSum l r =>
      obtain ⟨s₁, hs₁, hholds⟩ := rangeSum_holds hs hn hc.1 hc.2.1 hc.2.2
      obtain ⟨s', hs'⟩ := ih hholds hrest
      refine ⟨s', ?_⟩
      simp only [SegmentTree.run, hs₁, bind, Except.bind, hs', RangeCall.answers]

/-- After `init` on a fresh tree, every `range_sum` returns the sum of the current elements of its
range, for arrays of up to `2 ^ 30` elements. -/
theorem run_rangeSums (v : List T) (initValue : Bool) (calls : List (RangeCall T))
    (hpos : 1 ≤ v.length) (hlen : v.length ≤ 2 ^ 30) (hcalls : ∀ c ∈ calls, c.InRange v.length) :
    ∃ s s', fresh.init v initValue = .ok s ∧
      s.run calls = .ok (RangeCall.answers (initial v initValue) calls, s') := by
  obtain ⟨s, hs, hholds⟩ := init_holds v initValue hpos hlen
  obtain ⟨s', hs'⟩ := hholds.run hlen calls hcalls
  exact ⟨s, s', hs, hs'⟩

/-- Overlapping additions to an array of three elements. -/
theorem run_rangeSums_three :
    ∃ s s', fresh.init [5, -2, 7] true = .ok s ∧
      s.run [.rangeAdd 0 1 3, .rangeSum 1 2, .rangeAdd 1 2 (-4), .rangeSum 0 2] =
        .ok ([8, 8], s') := by
  have hcalls : ∀ c ∈ [RangeCall.rangeAdd 0 1 (3 : ℤ), .rangeSum 1 2, .rangeAdd 1 2 (-4),
      .rangeSum 0 2], c.InRange 3 := by
    simp [RangeCall.InRange]
  have h := run_rangeSums [5, -2, 7] true _ (by decide) (by decide) hcalls
  have hsums : RangeCall.answers (initial [5, -2, 7] true)
      [RangeCall.rangeAdd 0 1 (3 : ℤ), .rangeSum 1 2, .rangeAdd 1 2 (-4), .rangeSum 0 2] =
        [8, 8] := by decide
  rwa [hsums] at h

/-! ## Larger arrays -/

/-- The leftmost nodes of a tree over `2 ^ 30 + 1` positions, from the lowest one up: a search for
position `1` reaches the right child of node `2 ^ 30 - 1`, whose number is not an `int32_t`. -/
theorem query_overflow {s : SegmentTree ℤ} (hlen : 2 ^ 30 ≤ s.lazy.length)
    (hlazy : ∀ j, s.lazyAt j = 0) (fuel : ℕ) {k : ℕ} (hk : k ≤ 30) :
    query 1 1 (fuel + k + 2) 0 (2 ^ k) (2 ^ (30 - k) - 1 : ℕ) s = .error .invalidAccess := by
  -- there is no tag to be passed on
  have hmaintain (k j : ℕ) (hj : j ≤ 30) :
      s.maintain 0 (2 ^ k) (2 ^ j - 1 : ℕ) = .ok s := by
    have hlt : 2 ^ j - 1 < s.lazy.length := by
      have := Nat.pow_le_pow_right (by decide : 1 ≤ 2) hj
      have := Nat.two_pow_pos j
      omega
    have hne : (0 : ℤ) ≠ 2 ^ k := (pow_pos (by decide) k).ne
    unfold maintain
    rw [if_pos hne, read_lazy hlt, hlazy]
    rfl
  have hout (k : ℕ) : ¬ ((1 : ℤ) ≤ 0 ∧ (2 : ℤ) ^ k ≤ 1) := by omega
  induction k with
  | zero =>
    have hmid : middle 0 (2 ^ 0) = 0 := by decide
    have hchild : rightChild (2 ^ (30 - 0) - 1 : ℕ) = -2147483648 := by decide
    have hread : read s.tree (-2147483648) = .error .invalidAccess := if_neg (by decide)
    rw [query, if_neg (hout 0), hmaintain 0 30 le_rfl]
    simp only [bind, Except.bind]
    rw [hmid, if_neg (by decide)]
    simp only []
    rw [if_pos (by decide), hchild, query, if_pos (by decide), hread]
    rfl
  | succ k ih =>
    have hpos : (1 : ℤ) ≤ 2 ^ k := pow_pos (by decide : (0 : ℤ) < 2) k
    have hmid : middle 0 (2 ^ (k + 1)) = 2 ^ k := by
      have hle : (0 : ℤ) ≤ 2 ^ (k + 1) := (pow_pos (by decide) _).le
      rw [middle_eq hle, LazySums.middle, pow_succ]
      omega
    have hchild : ∀ k < 30, leftChild (2 ^ (30 - (k + 1)) - 1 : ℕ) = (2 ^ (30 - k) - 1 : ℕ) := by
      decide
    rw [← Nat.add_assoc, query, if_neg (hout (k + 1)), hmaintain (k + 1) _ (by omega)]
    simp only [bind, Except.bind]
    rw [hmid, if_pos hpos, hchild k (by omega), ih (by omega)]

/-- With `2 ^ 30 + 1` elements the number of a node overflows. -/
theorem rangeSum_overflow {s : SegmentTree ℤ}
    (hs : fresh.init (List.replicate (2 ^ 30 + 1) (0 : ℤ)) false = .ok s) :
    s.tree.length = (2 ^ 30 + 1) * 4 ∧ s.lazy.length = (2 ^ 30 + 1) * 4 ∧
      s.rangeSum 1 1 = .error .invalidAccess := by
  rw [init_false, List.length_replicate] at hs
  have hlength : s.tree.length = (2 ^ 30 + 1) * 4 ∧ s.lazy.length = (2 ^ 30 + 1) * 4 := by
    rw [← Except.ok.inj hs]
    exact ⟨List.length_replicate .., List.length_replicate ..⟩
  have hlazy (j : ℕ) : s.lazyAt j = 0 := by
    rw [← Except.ok.inj hs]
    exact getD_replicate _ _ _
  -- the position of the last element is still exact
  have hlast : s.lastPosition = 2 ^ 30 := by
    rw [lastPosition, hlength.1]
    decide
  -- but on the way to it the index of a right child wraps
  refine ⟨hlength.1, hlength.2, ?_⟩
  rw [rangeSum, hlast]
  exact query_overflow (by rw [hlength.2]; decide) hlazy 32 le_rfl

/-- So the sum over one position is not returned. -/
theorem run_overflow :
    ¬ ∃ s s', fresh.init (List.replicate (2 ^ 30 + 1) (0 : ℤ)) false = .ok s ∧
      s.run [.rangeSum 1 1] =
        .ok (RangeCall.answers (initial (List.replicate (2 ^ 30 + 1) 0) false) [.rangeSum 1 1],
          s') := by
  rintro ⟨s, s', hs, hrun⟩
  obtain ⟨-, -, hfail⟩ := rangeSum_overflow hs
  rw [SegmentTree.run, hfail] at hrun
  cases hrun

end SegmentTree

end CppLearn

import CppLearn.SegmentTree.Sets

/-!
# The root of a segment tree

What calls with ranges inside the array return depends on the sum and the tag of the root, and on
what its children store. The three need not fit together: after a call of `range_set` for the whole
array they do not. A `RootState` is the state of an abstract machine that has nothing else, and
`SegmentTree.Rooted.performAll` says that the tree is one.

A call of `range_set` for a part of the array never returns (`SegmentTree.setUpdate_diverges`), so
that the machine stops there.
-/

namespace CppLearn

open BoundedLoop CheckedVector HeapOrder ObservedRuns

namespace SegmentTree

variable {T : Type} [CommRing T] [DecidableEq T] {s s' : SegmentTree T} {a : ℤ → T}
  {i h n fuel : ℕ} {lo hi l r : ℤ} {value : T}

/-! ## Assignments to a part of an interval -/

/-- `_set_maintain` stays inside the vectors. -/
theorem exists_setMaintain (hroom : Room s i lo hi (h + 1)) (hlt : lo < hi) :
    ∃ s', s.setMaintain lo hi i = .ok s' ∧ SameLength s s' := by
  by_cases htag : s.lazyAt i = 0
  · refine ⟨s, ?_, .refl s⟩
    unfold setMaintain
    rw [if_pos hlt.ne, read_lazy hroom.lazy_lt]
    exact if_neg (not_not.2 htag)
  · -- each write keeps the lengths, so that the next one is in bounds, too
    obtain ⟨s₁, hs₁, -⟩ := setLazy_spec hroom.left.lazy_lt (s.lazyAt i)
    have hroom₁ := hroom.of_sameLength (setLazy_length hs₁)
    obtain ⟨s₂, hs₂, -⟩ := setLazy_spec hroom₁.right.lazy_lt (s.lazyAt i)
    have hroom₂ := hroom₁.of_sameLength (setLazy_length hs₂)
    obtain ⟨s₃, hs₃, -⟩ := setTree_spec hroom₂.left.tree_lt
      (((middle lo hi - lo + 1 : ℤ) : T) * s.lazyAt i)
    have hroom₃ := hroom₂.of_sameLength (setTree_length hs₃)
    obtain ⟨s₄, hs₄, -⟩ := setTree_spec hroom₃.right.tree_lt
      (((hi - middle lo hi : ℤ) : T) * s.lazyAt i)
    have hroom₄ := hroom₃.of_sameLength (setTree_length hs₄)
    obtain ⟨s₅, hs₅, -⟩ := setLazy_spec hroom₄.lazy_lt (0 : T)
    have hrun : s.setMaintain lo hi i = .ok s₅ := by
      unfold setMaintain
      rw [if_pos hlt.ne, read_lazy hroom.lazy_lt, hroom.leftChild, hroom.rightChild]
      refine (if_pos htag).trans ?_
      simp only [hs₁, hs₂, hs₃, hs₄, hs₅, bind, Except.bind]
    exact ⟨s₅, hrun, setMaintain_length hrun⟩

/-- A node whose interval is inside the range gets its two numbers. -/
theorem exists_setUpdate (hroom : Room s i lo hi h) (hin : l ≤ lo ∧ hi ≤ r) (hfuel : 0 < fuel)
    (value : T) :
    ∃ s', setUpdate l r value fuel lo hi i s = .ok s' ∧ SameLength s s' := by
  obtain ⟨fuel, rfl⟩ := Nat.exists_eq_add_of_le' hfuel
  obtain ⟨s', hs', htree, hlazy, -⟩ := setAll_writes hroom value
  exact ⟨s', by rw [setUpdate, if_pos hin]; exact hs', htree, hlazy⟩

/-- If a position of the interval is outside the range, `_update` of `range_set` does not return.
The half that has the position does not, and a half inside the range only gets its numbers. -/
theorem setUpdate_diverges {k : ℤ} (hroom : Room s i lo hi h) (hfuel : h < fuel) (hlo : lo ≤ k)
    (hhi : k ≤ hi) (hout : ¬(l ≤ k ∧ k ≤ r)) :
    setUpdate l r value fuel lo hi i s = .error .diverged := by
  induction fuel generalizing s i lo hi h k with
  | zero => omega
  | succ fuel ih =>
    rcases (hlo.trans hhi).eq_or_lt with rfl | hlt
    · obtain rfl : k = lo := le_antisymm hhi hlo
      exact setUpdate_leaf hout value (fuel + 1) i s
    · obtain ⟨h, rfl⟩ := hroom.exists_succ hlt
      have hm := LazySums.middle_bounds hlt
      obtain ⟨s₁, hs₁, hsame₁⟩ := exists_setMaintain hroom hlt
      have hroom₁ := hroom.of_sameLength hsame₁
      rw [setUpdate, if_neg (by omega), hs₁]
      simp only [bind, Except.bind]
      rw [middle_eq hlt.le, hroom.leftChild, hroom.rightChild, if_pos hm.1]
      by_cases hleft : l ≤ lo ∧ LazySums.middle lo hi ≤ r
      · -- the position is in the right half
        obtain ⟨s₂, hs₂, hsame₂⟩ :=
          exists_setUpdate hroom₁.left hleft (show 0 < fuel by omega) value
        have hroom₂ := hroom₁.of_sameLength hsame₂
        rw [hs₂]
        simp only []
        rw [if_pos hm.2, ih hroom₂.right (by omega) (show _ ≤ k by omega) hhi hout]
      · -- the first or the last position of the left half is outside
        rcases not_and_or.1 hleft with hfirst | hlast
        · rw [ih hroom₁.left (by omega) le_rfl hm.1 (by omega)]
        · rw [ih hroom₁.left (by omega) hm.1 le_rfl (by omega)]

end SegmentTree

/-! ## The abstract machine -/

/-- The sum and the tag of the root, and the array that its children store. -/
structure RootState (T : Type) where
  total : T
  tag : T
  below : ℤ → T

namespace RootState

variable {T : Type} [CommRing T]

/-- The elements, when the tag is passed on. -/
def elements (x : RootState T) : ℤ → T := fun k => x.below k + x.tag

/-- What a call returns, and the state after it. Calls of `range_set` for a part of the array do not
return. -/
noncomputable def call (n : ℕ) (x : RootState T) : Operation T → Option (Option T × RootState T)
  | .init _ _ => none
  | .rangeAdd l r value =>
    if l = 0 ∧ r = n - 1 then some (none, ⟨x.total + n * value, x.tag + value, x.below⟩)
    else
      let a := RangeSums.rangeAdd x.elements l r value
      some (none, ⟨∑ k ∈ Finset.Icc 0 (n - 1 : ℤ), a k, 0, a⟩)
  | .rangeSet l r value =>
    if l = 0 ∧ r = n - 1 then some (none, ⟨n * value, value, x.below⟩) else none
  | .rangeSum l r =>
    if l = 0 ∧ r = n - 1 then some (some x.total, x)
    else some (some (∑ k ∈ Finset.Icc l r, x.elements k), ⟨x.total, 0, x.elements⟩)

end RootState

namespace SegmentTree

variable {T : Type} [CommRing T] {s s' : SegmentTree T} {n : ℕ} {l r : ℤ} {value : T}
  {x x' : RootState T}

/-- The numbers of the root are those of `x`. A single element has a root without children, and its
tag is never passed on. -/
structure Rooted (s : SegmentTree T) (n : ℕ) (x : RootState T) : Prop where
  length : s.tree.length = n * 4
  room : ∃ h < depthFuel, Room s 0 0 (n - 1) h
  total : s.treeAt 0 = x.total
  tag : 1 < n → s.lazyAt 0 = x.tag
  left : 1 < n → Stores s (childIndex 0 false) 0 (LazySums.middle 0 (n - 1)) x.below
  right : 1 < n → Stores s (childIndex 0 true) (LazySums.middle 0 (n - 1) + 1) (n - 1) x.below

/-- A tree that represents an array. -/
theorem Holds.rooted {a : ℤ → T} {tag : T} (hs : Holds s n a) (htag : 1 < n → s.lazyAt 0 = tag) :
    Rooted s n ⟨∑ k ∈ Finset.Icc 0 (n - 1 : ℤ), a k, tag, fun k => a k - tag⟩ := by
  have hhalves : 1 < n → Stores s (childIndex 0 false) 0 (LazySums.middle 0 (n - 1))
        (fun k => a k - tag) ∧
      Stores s (childIndex 0 true) (LazySums.middle 0 (n - 1) + 1) (n - 1)
        (fun k => a k - tag) := by
    intro hn
    have hlt : (0 : ℤ) < n - 1 := by omega
    rw [← htag hn]
    exact LazySums.Represents.children hs.stores hlt
  exact ⟨hs.length, hs.room, LazySums.Represents.tree_eq hs.stores, htag,
    fun hn => (hhalves hn).1, fun hn => (hhalves hn).2⟩

theorem Rooted.lastPosition (h : Rooted s n x) (hn : n ≤ 2 ^ 30) : s.lastPosition = n - 1 :=
  lastPosition_eq h.length hn

/-- A call that changes the two numbers of the root. -/
theorem Rooted.write {total tag : T} (h : Rooted s n x) (hsame : SameLength s s')
    (htree : s'.treeAt = Function.update s.treeAt 0 total)
    (hlazy : ∀ j, j ≠ 0 → s'.lazyAt j = s.lazyAt j) (htag : 1 < n → s'.lazyAt 0 = tag) :
    Rooted s' n ⟨total, tag, x.below⟩ := by
  obtain ⟨d, hd, hroom⟩ := h.room
  have hbelow {d : Bool} {j : ℕ} (hj : Below (childIndex 0 d) j) :
      s'.treeAt j = s.treeAt j ∧ s'.lazyAt j = s.lazyAt j := by
    rw [htree, Function.update_of_ne (ne_of_below_child hj)]
    exact ⟨rfl, hlazy j (ne_of_below_child hj)⟩
  refine ⟨hsame.1.trans h.length, ⟨d, hd, hroom.of_sameLength hsame⟩,
    by rw [htree, Function.update_self], htag, fun hn => ?_, fun hn => ?_⟩
  · exact (h.left hn).congr (fun j hj => (hbelow hj).1) (fun j hj => (hbelow hj).2) fun _ _ _ => rfl
  · exact (h.right hn).congr (fun j hj => (hbelow hj).1) (fun j hj => (hbelow hj).2)
      fun _ _ _ => rfl

variable [DecidableEq T]

/-- The tag of the root is passed on. -/
theorem Rooted.push (h : Rooted s n x) (hn : 1 < n) :
    ∃ s', s.maintain 0 (n - 1) (0 : ℕ) = .ok s' ∧ SameOutside 0 s s' ∧ s'.treeAt 0 = x.total ∧
      Halves s' 0 0 (n - 1) x.elements := by
  obtain ⟨d, -, hroom⟩ := h.room
  have hlt : (0 : ℤ) < n - 1 := by omega
  obtain ⟨d, rfl⟩ := hroom.exists_succ hlt
  obtain ⟨s', hs', hpushed⟩ := maintain_pushed hroom hlt
  refine ⟨s', hs', hpushed.same, hpushed.root.trans h.total, hpushed.tag, ?_, ?_⟩
  · have hleft := hpushed.left (h.left hn)
    rwa [h.tag hn] at hleft
  · have hright := hpushed.right (h.right hn)
    rwa [h.tag hn] at hright

/-- A range inside the array that is not the whole array. -/
theorem one_lt_of_part (hlr : 0 ≤ l ∧ l ≤ r ∧ r < n) (hpart : ¬(l = 0 ∧ r = n - 1)) :
    1 < n ∧ ¬(l ≤ 0 ∧ (n : ℤ) - 1 ≤ r) := by
  omega

theorem Rooted.rangeAdd (h : Rooted s n x) (hn : n ≤ 2 ^ 30) (hlr : 0 ≤ l ∧ l ≤ r ∧ r < n)
    {result : Option T} (hcall : x.call n (.rangeAdd l r value) = some (result, x')) :
    result = none ∧ ∃ s', s.rangeAdd l r value = .ok s' ∧ Rooted s' n x' := by
  obtain ⟨d, hd, hroom⟩ := h.room
  rw [RootState.call] at hcall
  rw [SegmentTree.rangeAdd, h.lastPosition hn]
  split_ifs at hcall with hwhole
  · -- the whole range is recorded at the root, whatever the nodes below it hold
    obtain ⟨rfl, rfl⟩ := hwhole
    obtain ⟨rfl, rfl⟩ := Prod.mk.inj (Option.some.inj hcall)
    obtain ⟨s', hs', htree, hlazy, htree', hlazy'⟩ := addAll_writes hroom value
    refine ⟨rfl, s', ?_, h.write ⟨htree, hlazy⟩ ?_ (fun j hj => ?_) fun hn => ?_⟩
    · rw [depthFuel, update, if_pos ⟨le_rfl, le_rfl⟩]
      exact hs'
    · rw [htree', h.total]
      push_cast
      ring_nf
    · rw [hlazy', Function.update_of_ne hj]
    · rw [hlazy', Function.update_self, h.tag hn]
  · obtain ⟨rfl, rfl⟩ := Prod.mk.inj (Option.some.inj hcall)
    obtain ⟨hone, hin⟩ := one_lt_of_part hlr hwhole
    have hlt : (0 : ℤ) < n - 1 := by omega
    -- a part of the range pushes the tag down, and then both halves represent the elements
    obtain ⟨d, rfl⟩ := hroom.exists_succ hlt
    obtain ⟨s₁, hs₁, hsame₁, -, hhalves⟩ := h.push hone
    obtain ⟨s', hs', hsame, htag, hst⟩ := update_halves value hroom hlt hin (by omega) (by omega)
      hs₁ hsame₁ hhalves fun hs hroom hl hr =>
        update_spec value hs hroom (Nat.lt_of_succ_lt_succ hd) hl hr
    have hholds : Holds s' n (RangeSums.rangeAdd x.elements l r value) :=
      ⟨hsame.tree_length.trans h.length, ⟨d + 1, hd, hroom.of_sameOutside hsame⟩, hst⟩
    have hrooted := hholds.rooted fun _ => htag
    simp only [sub_zero] at hrooted
    exact ⟨rfl, s', hs', hrooted⟩

theorem Rooted.rangeSet (h : Rooted s n x) (hn : n ≤ 2 ^ 30) (hlr : 0 ≤ l ∧ l ≤ r ∧ r < n)
    (value : T) :
    (l = 0 ∧ r = n - 1 → ∃ s', s.rangeSet l r value = .ok s' ∧
      Rooted s' n ⟨n * value, value, x.below⟩) ∧
    (¬(l = 0 ∧ r = n - 1) → s.rangeSet l r value = .error .diverged) := by
  obtain ⟨d, hd, hroom⟩ := h.room
  rw [SegmentTree.rangeSet, h.lastPosition hn]
  constructor
  · -- the whole range sets the root only
    rintro ⟨rfl, rfl⟩
    obtain ⟨s', hs', htree, hlazy, htree', hlazy'⟩ := setAll_writes hroom value
    refine ⟨s', ?_, h.write ⟨htree, hlazy⟩ ?_ (fun j hj => ?_) fun hn => ?_⟩
    · rw [depthFuel, setUpdate, if_pos ⟨le_rfl, le_rfl⟩]
      exact hs'
    · rw [htree']
      push_cast
      ring_nf
    · rw [hlazy', Function.update_of_ne hj]
    · rw [hlazy', Function.update_self]
  · -- at a position outside the range the recursion has no end
    intro hpart
    obtain ⟨k, hlo, hhi, hout⟩ : ∃ k : ℤ, 0 ≤ k ∧ k ≤ n - 1 ∧ ¬(l ≤ k ∧ k ≤ r) := by
      by_cases hl : l = 0
      · exact ⟨n - 1, by omega, le_rfl, by omega⟩
      · exact ⟨0, le_rfl, by omega, by omega⟩
    exact setUpdate_diverges hroom hd hlo hhi hout

theorem Rooted.rangeSum (h : Rooted s n x) (hn : n ≤ 2 ^ 30) (hlr : 0 ≤ l ∧ l ≤ r ∧ r < n)
    {result : Option T} (hcall : x.call n (.rangeSum l r) = some (result, x')) :
    ∃ sum s', result = some sum ∧ s.rangeSum l r = .ok (sum, s') ∧ Rooted s' n x' := by
  obtain ⟨d, hd, hroom⟩ := h.room
  rw [RootState.call] at hcall
  rw [SegmentTree.rangeSum, h.lastPosition hn]
  split_ifs at hcall with hwhole
  · -- the sum of the whole range is read at the root
    obtain ⟨rfl, rfl⟩ := hwhole
    obtain ⟨rfl, rfl⟩ := Prod.mk.inj (Option.some.inj hcall)
    refine ⟨_, s, rfl, ?_, h⟩
    have hread := read_tree hroom.tree_lt
    rw [h.total] at hread
    rw [depthFuel, query, if_pos ⟨le_rfl, le_rfl⟩]
    exact (congrArg (Except.bind · _) hread).trans rfl
  · obtain ⟨rfl, rfl⟩ := Prod.mk.inj (Option.some.inj hcall)
    obtain ⟨hone, hin⟩ := one_lt_of_part hlr hwhole
    have hlt : (0 : ℤ) < n - 1 := by omega
    obtain ⟨d, rfl⟩ := hroom.exists_succ hlt
    -- a part of the range pushes the tag down first
    obtain ⟨s₁, hs₁, hsame₁, htotal, hhalves⟩ := h.push hone
    obtain ⟨s', hs', hsame, htree, htag, hleft, hright⟩ := query_halves hroom hlt hin (by omega)
      (by omega) hs₁ hsame₁ hhalves fun hs hroom hl hr =>
        query_spec hs hroom (Nat.lt_of_succ_lt_succ hd) hl hr
    rw [max_eq_left hlr.1, min_eq_left (by omega)] at hs'
    exact ⟨_, s', rfl, hs', hsame.tree_length.trans h.length,
      ⟨d + 1, hd, hroom.of_sameOutside hsame⟩, htree.trans htotal, fun _ => htag, fun _ => hleft,
      fun _ => hright⟩

/-- A call does what the machine does, and does not return where the machine stops. -/
theorem Rooted.perform (h : Rooted s n x) (hn : n ≤ 2 ^ 30) {op : Operation T}
    (hop : op.InRange n) :
    (∀ result x', x.call n op = some (result, x') →
      ∃ s', s.perform op = .ok (result, s') ∧ Rooted s' n x') ∧
    (x.call n op = none → s.perform op = .error .diverged) := by
  cases op with
  | init => exact hop.elim
  | rangeAdd l r value =>
    refine ⟨fun result x' hcall => ?_, fun hnone => ?_⟩
    · obtain ⟨rfl, s', hs', h'⟩ := h.rangeAdd hn hop hcall
      exact ⟨s', by rw [SegmentTree.perform, hs', ok_bind], h'⟩
    · rw [RootState.call] at hnone
      split_ifs at hnone
  | rangeSet l r value =>
    obtain ⟨hwhole, hpart⟩ := h.rangeSet hn hop value
    by_cases hin : l = 0 ∧ r = n - 1
    · obtain ⟨s', hs', h'⟩ := hwhole hin
      rw [RootState.call, if_pos hin]
      refine ⟨fun result x' hcall => ?_, fun hnone => absurd hnone (Option.some_ne_none _)⟩
      obtain ⟨rfl, rfl⟩ := Prod.mk.inj (Option.some.inj hcall)
      exact ⟨s', by rw [SegmentTree.perform, hs', ok_bind], h'⟩
    · rw [RootState.call, if_neg hin]
      exact ⟨fun _ _ hcall => absurd hcall.symm (Option.some_ne_none _),
        fun _ => by rw [SegmentTree.perform, hpart hin]; rfl⟩
  | rangeSum l r =>
    refine ⟨fun result x' hcall => ?_, fun hnone => ?_⟩
    · obtain ⟨sum, s', rfl, hs', h'⟩ := h.rangeSum hn hop hcall
      exact ⟨s', by rw [SegmentTree.perform, hs', ok_bind], h'⟩
    · rw [RootState.call] at hnone
      split_ifs at hnone

/-- Two trees with the same numbers at the root answer all calls alike. -/
theorem Rooted.performAll (h : Rooted s n x) (h' : Rooted s' n x) (hn : n ≤ 2 ^ 30)
    (ops : List (Operation T)) (hops : ∀ op ∈ ops, op.InRange n) :
    (ObservedRuns.performAll SegmentTree.perform s ops).map Prod.fst =
      (ObservedRuns.performAll SegmentTree.perform s' ops).map Prod.fst := by
  induction ops generalizing s s' x with
  | nil => rfl
  | cons op ops ih =>
    have hop := hops op List.mem_cons_self
    obtain ⟨hok, hstop⟩ := h.perform hn hop
    obtain ⟨hok', hstop'⟩ := h'.perform hn hop
    cases hcall : x.call n op with
    | none => rw [performAll_cons_error (hstop hcall), performAll_cons_error (hstop' hcall)]
    | some outcome =>
      obtain ⟨result, x'⟩ := outcome
      obtain ⟨s₁, hs₁, h₁⟩ := hok result x' hcall
      obtain ⟨s₁', hs₁', h₁'⟩ := hok' result x' hcall
      rw [performAll_cons_results hs₁, performAll_cons_results hs₁',
        ih h₁ h₁' fun op hmem => hops op (List.mem_cons_of_mem _ hmem)]

/-- An assignment of zero to the whole array replaces the tag of the root, so that the first element
is then what the children store. -/
theorem Rooted.performAll_zero (h : Rooted s n x) (hn : n ≤ 2 ^ 30) (hone : 1 < n) :
    (ObservedRuns.performAll SegmentTree.perform s
        [.rangeSet 0 (n - 1) 0, .rangeSum 0 0]).map Prod.fst = .ok [none, some (x.below 0)] := by
  have hset : (.rangeSet 0 (n - 1) 0 : Operation T).InRange n := ⟨le_rfl, by omega, by omega⟩
  have hsum : (.rangeSum 0 0 : Operation T).InRange n := ⟨le_rfl, le_rfl, by omega⟩
  obtain ⟨s₁, hs₁, h₁⟩ := (h.perform hn hset).1 none _ (if_pos ⟨rfl, rfl⟩)
  obtain ⟨s₂, hs₂, -⟩ := (h₁.perform hn hsum).1 _ _ (if_neg (by omega))
  rw [performAll_cons_results hs₁, performAll_cons_results hs₂]
  simp [ObservedRuns.performAll, Except.map, RootState.elements]

end SegmentTree

end CppLearn

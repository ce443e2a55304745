import CppLearn.SegmentTree.Operations

/-!
# Assignments to ranges

`range_set` calls itself for both halves of every interval that is not inside the range. At a leaf
outside the range this does not end, so a call returns only if its range is the whole array. Such a
call replaces the sum and the tag of the root, and leaves the numbers below. These stand for the old
elements without the old tag, and count again as soon as the new tag is passed on.

That a call whose range is not the whole array does not return is `SegmentTree.setUpdate_ne_ok`.
When the numbers below a node fit a tag that has been assigned is `SegmentTree.stores_set_iff`,
which gives the calls that are right, `Operation.SetsAll`. In the runs of these calls, and in no
others, all sums are right (`SegmentTree.observed_iff_setsAll`).
-/

namespace CppLearn

open BoundedLoop CheckedVector Signed HeapOrder ObservedRuns

namespace SegmentTree

variable {T : Type} [CommRing T] {s s' : SegmentTree T} {a : ℤ → T}
  {i h fuel : ℕ} {lo hi l r k root : ℤ} {value : T}

theorem middle_le (h : lo ≤ hi) : lo ≤ middle lo hi ∧ middle lo hi ≤ hi := by
  rw [middle_eq h, LazySums.middle]
  omega

/-! ## One call -/

section

variable [DecidableEq T]

/-- The recursion does not end below a leaf outside the range. -/
theorem setUpdate_leaf (hout : ¬ (l ≤ k ∧ k ≤ r)) (value : T) (fuel : ℕ) (root : ℤ)
    (s : SegmentTree T) : setUpdate l r value fuel k k root s = .error .diverged := by
  induction fuel generalizing root with
  | zero => rfl
  | succ fuel ih =>
    have hm : middle k k = k := le_antisymm (middle_le le_rfl).2 (middle_le le_rfl).1
    have hpush : s.setMaintain k k root = .ok s := if_neg (not_not.2 rfl)
    rw [setUpdate, if_neg hout, hpush]
    simp only [bind, Except.bind]
    rw [hm, if_pos le_rfl, ih]

/-- A call does not return if a position of the interval is not in the range. -/
theorem setUpdate_ne_ok (hlo : lo ≤ k) (hhi : k ≤ hi) (hout : ¬ (l ≤ k ∧ k ≤ r)) :
    setUpdate l r value fuel lo hi root s ≠ .ok s' := by
  induction fuel generalizing lo hi root s s' with
  | zero => simp [setUpdate]
  | succ fuel ih =>
    have hm := middle_le (hlo.trans hhi)
    intro hrun
    rcases setUpdate_inv hrun with ⟨hin, -⟩ | ⟨-, s₁, s₂, s₃, -, hleft, hright, -⟩
    · omega
    · by_cases hk : k ≤ middle lo hi
      · exact ih hlo hk (hleft.resolve_right fun hc => hc.1 hm.1).2
      · exact ih (by omega) hhi (hright.resolve_right fun hc => by omega).2

end

/-- The two assignments for an interval inside the range. -/
theorem setAll_writes (hroom : Room s i lo hi h) (value : T) :
    ∃ s', (do
        let s ← s.setLazy i value
        s.setTree i (((hi - lo + 1 : ℤ) : T) * value)) = .ok s' ∧
      s'.tree.length = s.tree.length ∧ s'.lazy.length = s.lazy.length ∧
      s'.treeAt = Function.update s.treeAt i (((hi - lo + 1 : ℤ) : T) * value) ∧
      s'.lazyAt = Function.update s.lazyAt i value := by
  obtain ⟨s₁, hs₁, hll₁, ht₁, hl₁⟩ := setLazy_spec hroom.lazy_lt value
  obtain ⟨s₂, hs₂, htl₂, hl₂, ht₂⟩ :=
    setTree_spec (s := s₁) (by rw [ht₁]; exact hroom.tree_lt) (((hi - lo + 1 : ℤ) : T) * value)
  refine ⟨s₂, ?_, by rw [htl₂, ht₁], by rw [hl₂, hll₁], ?_, ?_⟩
  · simp only [hs₁, hs₂, bind, Except.bind]
  · rw [ht₂]
    unfold treeAt
    rw [ht₁]
  · rw [← hl₁]
    unfold lazyAt
    rw [hl₂]

/-- After an assignment to a whole interval, the numbers below its node fit the new elements exactly
if all elements were equal to the old tag; a leaf has no numbers below it. -/
theorem stores_set_iff (hs : Stores s i lo hi a)
    (htree : s'.treeAt = Function.update s.treeAt i (((hi - lo + 1 : ℤ) : T) * value))
    (hlazy : s'.lazyAt = Function.update s.lazyAt i value) :
    Stores s' i lo hi (fun _ => value) ↔
      lo = hi ∨ ∀ k, lo ≤ k → k ≤ hi → a k = s.lazyAt i := by
  have hroot : s'.treeAt i = ∑ k ∈ Finset.Icc lo hi, value := by
    have hsum :=
      RangeSums.sum_Icc_add_const (fun _ : ℤ => (0 : T)) value (LazySums.Represents.le hs)
    simp only [zero_add, Finset.sum_const_zero] at hsum
    rw [htree, Function.update_self, hsum]
  have htag : s'.lazyAt i = value := by rw [hlazy, Function.update_self]
  -- below the node, nothing has changed
  have hsame {d : Bool} {j : ℕ} (hj : Below (childIndex i d) j) :
      s'.treeAt j = s.treeAt j ∧ s'.lazyAt j = s.lazyAt j := by
    rw [htree, hlazy, Function.update_of_ne (ne_of_below_child hj),
      Function.update_of_ne (ne_of_below_child hj)]
    exact ⟨rfl, rfl⟩
  cases hs with
  | leaf => exact iff_of_true (.leaf (by simpa using hroot)) (.inl rfl)
  | node hlt hsum left right =>
    have hm := LazySums.middle_bounds hlt
    rw [or_iff_right hlt.ne]
    constructor
    · intro hs' k hlo hhi
      cases hs' with
      | leaf => exact absurd hlt (lt_irrefl _)
      | node _ _ left' right' =>
        simp only [htag, sub_self] at left' right'
        -- the halves stand for the old elements without the old tag, and for zeros
        by_cases hk : k ≤ LazySums.middle lo hi
        · have hleft := left'.congr (fun j hj => (hsame hj).1.symm)
            (fun j hj => (hsame hj).2.symm) fun _ _ _ => rfl
          exact sub_eq_zero.1 (left.unique hleft hlo hk)
        · have hright := right'.congr (fun j hj => (hsame hj).1.symm)
            (fun j hj => (hsame hj).2.symm) fun _ _ _ => rfl
          exact sub_eq_zero.1 (right.unique hright (by omega) hhi)
    · intro ha
      refine .node hlt hroot ?_ ?_
      · refine left.congr (fun j hj => (hsame hj).1) (fun j hj => (hsame hj).2) fun k hlo hhi => ?_
        rw [htag, sub_self, ha k hlo (by omega), sub_self]
      · refine right.congr (fun j hj => (hsame hj).1) (fun j hj => (hsame hj).2) fun k hlo hhi => ?_
        rw [htag, sub_self, ha k (by omega) hhi, sub_self]

end SegmentTree

/-! ## Runs -/

namespace Operation

variable {T : Type} [CommRing T]

/-- A call with a range inside an array of `n` elements. -/
def InRange (n : ℕ) : Operation T → Prop
  | init _ _ => False
  | rangeAdd l r _ => 0 ≤ l ∧ l ≤ r ∧ r < n
  | rangeSet l r _ => 0 ≤ l ∧ l ≤ r ∧ r < n
  | rangeSum l r => 0 ≤ l ∧ l ≤ r ∧ r < n

/-- Calls of `range_set` are about the whole array, and all elements are equal to the tag of the
root before them; an array of one element may have any tag. -/
def SetsAll (n : ℕ) (s : SegmentTree T) (a : ℤ → T) : Operation T → Prop
  | rangeSet l r _ => l = 0 ∧ r = n - 1 ∧ (n = 1 ∨ ∀ k : ℤ, 0 ≤ k → k < n → a k = s.lazyAt 0)
  | _ => True

end Operation

namespace SegmentTree

variable {T : Type} [CommRing T] [DecidableEq T] {s s' : SegmentTree T} {a : ℤ → T} {n : ℕ}
  {l r : ℤ} {value : T}

/-- A call of `range_set` for the whole array. -/
theorem Holds.rangeSet_all (hs : Holds s n a) (hn : n ≤ 2 ^ 30) (value : T) :
    ∃ s', s.rangeSet 0 (n - 1) value = .ok s' ∧ s'.tree.length = n * 4 ∧
      (∃ h < depthFuel, Room s' 0 0 (n - 1) h) ∧
      s'.treeAt = Function.update s.treeAt 0 ((((n - 1) - 0 + 1 : ℤ) : T) * value) ∧
      s'.lazyAt = Function.update s.lazyAt 0 value := by
  obtain ⟨h, hh, hroom⟩ := hs.room
  obtain ⟨s', hs', htl, hll, htree, hlazy⟩ := setAll_writes hroom value
  refine ⟨s', ?_, htl.trans hs.length, ⟨h, hh, hroom.width, ?_, ?_, hroom.int32⟩, htree, hlazy⟩
  · rw [rangeSet, hs.lastPosition hn, depthFuel, setUpdate, if_pos ⟨le_rfl, le_rfl⟩]
    exact hs'
  · rw [htl]
    exact hroom.tree
  · rw [hll]
    exact hroom.lazy

/-- A call that meets the condition is right. -/
theorem Holds.perform (hs : Holds s n a) (hn : n ≤ 2 ^ 30) {op : Operation T}
    (hop : op.InRange n) (hsets : op.SetsAll n s a) :
    ∃ s', s.perform op = .ok (op.answer a, s') ∧ Holds s' n (op.next a) := by
  cases op with
  | init => exact hop.elim
  | rangeAdd l r value =>
    obtain ⟨s', hs', hholds⟩ := rangeAdd_holds hs hn value (hop.2.1.trans_lt hop.2.2)
      (hop.1.trans hop.2.1)
    exact ⟨s', by simp only [SegmentTree.perform, hs', bind, Except.bind, Operation.answer], hholds⟩
  | rangeSum l r => exact hs.perform_isSum hn hop
  | rangeSet l r value =>
    obtain ⟨rfl, rfl, hall⟩ := hsets
    obtain ⟨s', hs', hlen, hroom, htree, hlazy⟩ := hs.rangeSet_all hn value
    refine ⟨s', by simp only [SegmentTree.perform, hs', bind, Except.bind, Operation.answer], hlen,
      hroom, ?_⟩
    have hst : Stores s' 0 0 (n - 1) fun _ => value := by
      refine (stores_set_iff hs.stores htree hlazy).2 ?_
      rcases hall with rfl | hall
      · exact .inl (by norm_num)
      · exact .inr fun k hlo hhi => hall k hlo (by omega)
    exact hst.congr (fun _ _ => rfl) (fun _ _ => rfl) fun k hlo hhi =>
      RangeSums.rangeSet_of_mem value ⟨hlo, hhi⟩

/-- A call after which all sums are right meets the condition. -/
theorem Holds.setsAll (hs : Holds s n a) (hpos : 1 ≤ n) (hn : n ≤ 2 ^ 30) {op : Operation T}
    (hop : op.InRange n) (hs' : s.perform op = .ok (op.answer a, s'))
    (hsums : ∀ p : Operation T, p.IsSum n → ∃ s'', s'.perform p = .ok (p.answer (op.next a), s'')) :
    op.SetsAll n s a := by
  cases op with
  | init | rangeAdd | rangeSum => trivial
  | rangeSet l r value =>
    obtain ⟨s₁, hrun, heq⟩ := bind_eq_ok.1 hs'
    obtain ⟨-, rfl⟩ := Prod.mk.inj (Except.ok.inj heq)
    -- the first and the last position are in the range
    have hin {k : ℤ} (hlo : 0 ≤ k) (hhi : k < n) : l ≤ k ∧ k ≤ r := by
      by_contra hout
      rw [rangeSet, hs.lastPosition hn] at hrun
      exact setUpdate_ne_ok hlo (by omega) hout hrun
    obtain rfl : l = 0 := le_antisymm (hin le_rfl (by omega)).1 hop.1
    obtain rfl : r = n - 1 := by
      have := (hin (k := n - 1) (by omega) (by omega)).2
      have := hop.2.2
      omega
    obtain ⟨s₂, hs₂, hlen, hroom, htree, hlazy⟩ := hs.rangeSet_all hn value
    obtain rfl := Except.ok.inj (hrun.symm.trans hs₂)
    have hst := (holds_of_rangeSums hpos hn hlen hroom hsums).stores
    have hconst : Stores s₁ 0 0 (n - 1) fun _ => value :=
      hst.congr (fun _ _ => rfl) (fun _ _ => rfl) fun k hlo hhi =>
        (RangeSums.rangeSet_of_mem value ⟨hlo, hhi⟩).symm
    refine ⟨rfl, rfl, ?_⟩
    rcases (stores_set_iff hs.stores htree hlazy).1 hconst with hone | hall
    · exact .inl (by omega)
    · exact .inr fun k hlo hhi => hall k hlo (by omega)

/-- In a run of calls with ranges inside the array, after `init` on a fresh tree, all calls of
`range_sum` that are or could be made are right exactly when all calls of `range_set` are about the
whole array while all its elements are equal to the tag of the root. -/
theorem observed_iff_setsAll (v : List T) (initValue : Bool) (ops : List (Operation T))
    (hpos : 1 ≤ v.length) (hlen : v.length ≤ 2 ^ 30) (hops : ∀ op ∈ ops, op.InRange v.length) :
    ∃ s, fresh.init v initValue = .ok s ∧
      (Observed SegmentTree.perform Operation.next Operation.answer (Operation.IsSum v.length) s
          (initial v initValue) ops ↔
        EachMeets SegmentTree.perform Operation.next (Operation.SetsAll v.length) s
          (initial v initValue) ops) := by
  obtain ⟨s, hs, hholds⟩ := init_holds v initValue hpos hlen
  refine ⟨s, hs, observed_iff (fun s a => Holds s v.length a) ⟨.rangeSum 0 0, ?_⟩ ?_ ?_ ?_ hholds
    hops⟩
  · exact ⟨le_rfl, le_rfl, by omega⟩
  · intro s a p hs hp
    obtain ⟨s', hs', -⟩ := hs.perform_isSum hlen hp
    exact ⟨s', hs'⟩
  · exact fun s a op hs hop hsets => hs.perform hlen hop hsets
  · exact fun s a op s' hs hop hs' hsums => hs.setsAll hpos hlen hop hs' hsums

/-- An assignment to all elements, after an addition to all elements of an array of zeros. -/
theorem observed_iff_setsAll_zeros :
    ∃ s, fresh.init [0, 0] true = .ok s ∧
      Observed SegmentTree.perform Operation.next Operation.answer (Operation.IsSum 2) s
        (initial [0, 0] true) [.rangeAdd 0 1 (4 : ℤ), .rangeSet 0 1 9] := by
  have hops : ∀ op ∈ [Operation.rangeAdd 0 1 (4 : ℤ), .rangeSet 0 1 9], op.InRange 2 := by
    simp [Operation.InRange]
  have hinit : fresh.init [0, 0] true = .ok ⟨List.replicate 8 0, List.replicate 8 (0 : ℤ)⟩ := rfl
  have hadd : SegmentTree.perform ⟨List.replicate 8 0, List.replicate 8 0⟩ (.rangeAdd 0 1 (4 : ℤ)) =
      .ok (none, ⟨[8, 0, 0, 0, 0, 0, 0, 0], [4, 0, 0, 0, 0, 0, 0, 0]⟩) := rfl
  have hset : SegmentTree.perform ⟨[8, 0, 0, 0, 0, 0, 0, 0], [4, 0, 0, 0, 0, 0, 0, 0]⟩
      (.rangeSet 0 1 (9 : ℤ)) =
      .ok (none, ⟨[18, 0, 0, 0, 0, 0, 0, 0], [9, 0, 0, 0, 0, 0, 0, 0]⟩) := rfl
  obtain ⟨s, hs, hiff⟩ := observed_iff_setsAll [0, 0] true _ (by decide) (by decide) hops
  obtain rfl := Except.ok.inj (hinit.symm.trans hs)
  refine ⟨_, hs, hiff.2 ((eachMeets_cons hadd).2 ⟨trivial, ?_⟩)⟩
  refine (eachMeets_cons hset).2 ⟨⟨rfl, rfl, .inr ?_⟩, eachMeets_nil⟩
  intro k hlo hhi
  obtain rfl | rfl : k = 0 ∨ k = 1 := by
    simp only [List.length_cons, List.length_nil] at hhi
    omega
  · decide
  · decide

/-- A call for the first of two elements does not return, with any bound on the recursion; a call
for both returns, and the next sum contains the old element. -/
theorem rangeSet_diverges :
    ∃ s, (fresh : SegmentTree ℤ).init [1, 2] true = .ok s ∧
      (∀ fuel, setUpdate 0 0 5 fuel 0 s.lastPosition 0 s = .error .diverged) ∧
      ∃ s', performAll SegmentTree.perform s [.rangeSet 0 1 5, .rangeSum 0 0] =
        .ok ([none, some 6], s') := by
  refine ⟨⟨[3, 1, 2, 0, 0, 0, 0, 0], List.replicate 8 0⟩, rfl, fun fuel => ?_, _, rfl⟩
  -- the first half is inside the range, the second one is a leaf outside
  match fuel with
  | 0 => rfl
  | 1 => rfl
  | fuel + 2 =>
    have hright := setUpdate_leaf (l := 0) (r := 0) (k := 1) (by decide) (5 : ℤ) (fuel + 1) 2
      ⟨[3, 5, 2, 0, 0, 0, 0, 0], [0, 5, 0, 0, 0, 0, 0, 0]⟩
    have hstep : setUpdate 0 0 (5 : ℤ) (fuel + 2) 0 1 0
          ⟨[3, 1, 2, 0, 0, 0, 0, 0], List.replicate 8 0⟩ =
        (setUpdate 0 0 5 (fuel + 1) 1 1 2 ⟨[3, 5, 2, 0, 0, 0, 0, 0], [0, 5, 0, 0, 0, 0, 0, 0]⟩).bind
          fun s => s.sumChildren 0 := rfl
    exact hstep.trans (by rw [hright]; rfl)

end SegmentTree

end CppLearn

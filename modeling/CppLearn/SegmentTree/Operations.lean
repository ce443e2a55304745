import CppLearn.Lib.ObservedRuns
import CppLearn.SegmentTree.Correctness

/-!
# All operations of the segment tree

`range_set` assigns a value to a range of elements, with tags in the same vector `lazy_` and its own
rule for passing them on. Together with `init`, `range_add` and `range_sum` it makes up the
operations of the class. What they leave is seen by calls of `range_sum` only: these calls are all
right exactly when the numbers of the nodes represent the array.

An `Operation` of the class is carried out by `SegmentTree.perform`; what it has to do with the
array is `Operation.next`, and what it has to return `Operation.answer`. For each recursive function
a lemma says what it has done when it returns, such as `SegmentTree.setUpdate_inv`. A tree that
answers rightly represents the array (`SegmentTree.holds_of_rangeSums`).
-/

namespace CppLearn

open BoundedLoop CheckedVector Signed HeapOrder ObservedRuns

namespace SegmentTree

variable {T : Type} [CommRing T] [DecidableEq T]

/-! ## Assigning to a range -/

/-- `_set_maintain`: the children get the tag of `root`, and the sums that belong to it. -/
def setMaintain (s : SegmentTree T) (cl cr root : ℤ) : Except Fault (SegmentTree T) := do
  let cm := middle cl cr
  if cl ≠ cr then
    let tag ← read s.lazy root
    if tag ≠ 0 then
      let s ← s.setLazy (leftChild root) tag
      let s ← s.setLazy (rightChild root) tag
      let s ← s.setTree (leftChild root) (((cm - cl + 1 : ℤ) : T) * tag)
      let s ← s.setTree (rightChild root) (((cr - cm : ℤ) : T) * tag)
      s.setLazy root 0
    else .ok s
  else .ok s

/-- `_update` of `range_set`. -/
def setUpdate (l r : ℤ) (value : T) :
    ℕ → ℤ → ℤ → ℤ → SegmentTree T → Except Fault (SegmentTree T)
  | 0, _, _, _, _ => .error .diverged
  | fuel + 1, cl, cr, root, s => do
    if l ≤ cl ∧ cr ≤ r then
      let s ← s.setLazy root value
      s.setTree root (((cr - cl + 1 : ℤ) : T) * value)
    else
      let s ← s.setMaintain cl cr root
      let cm := middle cl cr
      -- these conditions do not mention the range, unlike those of `range_add`
      let s ← (if cl ≤ cm then setUpdate l r value fuel cl cm (leftChild root) s else .ok s)
      let s ← (if cm < cr then setUpdate l r value fuel (cm + 1) cr (rightChild root) s else .ok s)
      s.sumChildren root

/-- `range_set`. -/
def rangeSet (s : SegmentTree T) (l r : ℤ) (value : T) : Except Fault (SegmentTree T) :=
  setUpdate l r value depthFuel 0 s.lastPosition 0 s

end SegmentTree

/-! ## Operations -/

/-- A call of a public operation. -/
inductive Operation (T : Type) where
  | init (v : List T) (initValue : Bool)
  | rangeAdd (l r : ℤ) (value : T)
  | rangeSet (l r : ℤ) (value : T)
  | rangeSum (l r : ℤ)

variable {T : Type} [CommRing T]

/-- Execute a call: the result of `range_sum`, and the new tree. -/
def SegmentTree.perform [DecidableEq T] (s : SegmentTree T) :
    Operation T → Except Fault (Option T × SegmentTree T)
  | .init v initValue => do
    let s ← s.init v initValue
    .ok (none, s)
  | .rangeAdd l r value => do
    let s ← s.rangeAdd l r value
    .ok (none, s)
  | .rangeSet l r value => do
    let s ← s.rangeSet l r value
    .ok (none, s)
  | .rangeSum l r => do
    let (sum, s) ← s.rangeSum l r
    .ok (some sum, s)

namespace Operation

/-- What a call has to make of the array. -/
def next (a : ℤ → T) : Operation T → ℤ → T
  | init v initValue => SegmentTree.initial v initValue
  | rangeAdd l r value => RangeSums.rangeAdd a l r value
  | rangeSet l r value => RangeSums.rangeSet a l r value
  | rangeSum _ _ => a

/-- What a call has to return. -/
noncomputable def answer (a : ℤ → T) : Operation T → Option T
  | rangeSum l r => some (∑ k ∈ Finset.Icc l r, a k)
  | _ => none

/-- A call of `range_sum` with a range inside an array of `n` elements. -/
def IsSum (n : ℕ) : Operation T → Prop
  | rangeSum l r => 0 ≤ l ∧ l ≤ r ∧ r < n
  | _ => False

end Operation

namespace SegmentTree

variable [DecidableEq T] {s s₁ : SegmentTree T} {a : ℤ → T} {n i h fuel : ℕ} {lo hi l r : ℤ}

/-- On a tree that represents an array, `range_sum` is right. -/
theorem Holds.perform_isSum (hs : Holds s n a) (hn : n ≤ 2 ^ 30) {op : Operation T}
    (hop : op.IsSum n) : ∃ s', s.perform op = .ok (op.answer a, s') ∧ Holds s' n a := by
  cases op with
  | rangeSum l r =>
    obtain ⟨s', hs', hholds⟩ := rangeSum_holds hs hn hop.1 hop.2.1 hop.2.2
    exact ⟨s', by simp only [perform, hs', bind, Except.bind, Operation.answer], hholds⟩
  | init | rangeAdd | rangeSet => exact hop.elim

/-! ## Calls that return -/

section Inversion

variable {s' : SegmentTree T} {cl cr root : ℤ} {value sum : T}

omit [CommRing T] [DecidableEq T] in
/-- The calls for the two halves, between a first and a last call. -/
theorem halves_inv {c d : Prop} [Decidable c] [Decidable d]
    {first : Except Fault (SegmentTree T)}
    {left right last : SegmentTree T → Except Fault (SegmentTree T)}
    (hs : (do
      let s ← first
      let s ← (if c then left s else .ok s)
      let s ← (if d then right s else .ok s)
      last s) = .ok s') :
    ∃ s₁ s₂ s₃, first = .ok s₁ ∧ (c ∧ left s₁ = .ok s₂ ∨ ¬ c ∧ s₂ = s₁) ∧
      (d ∧ right s₂ = .ok s₃ ∨ ¬ d ∧ s₃ = s₂) ∧ last s₃ = .ok s' := by
  obtain ⟨s₁, h₁, hs⟩ := bind_eq_ok.1 hs
  obtain ⟨s₂, h₂, hs⟩ := bind_eq_ok.1 hs
  obtain ⟨s₃, h₃, hs⟩ := bind_eq_ok.1 hs
  exact ⟨s₁, s₂, s₃, h₁, ite_eq_ok.1 h₂, ite_eq_ok.1 h₃, hs⟩

/-- What a call of `_update` that returns has done. -/
theorem update_inv (hs : update l r value (fuel + 1) cl cr root s = .ok s') :
    (l ≤ cl ∧ cr ≤ r) ∧ (s.addLazy root value).bind
        (fun s => s.addTree root (((cr - cl + 1 : ℤ) : T) * value)) = .ok s' ∨
      ¬ (l ≤ cl ∧ cr ≤ r) ∧ ∃ s₁ s₂ s₃, s.maintain cl cr root = .ok s₁ ∧
        (l ≤ middle cl cr ∧
            update l r value fuel cl (middle cl cr) (leftChild root) s₁ = .ok s₂ ∨
          ¬ l ≤ middle cl cr ∧ s₂ = s₁) ∧
        (middle cl cr < r ∧
            update l r value fuel (middle cl cr + 1) cr (rightChild root) s₂ = .ok s₃ ∨
          ¬ middle cl cr < r ∧ s₃ = s₂) ∧
        s₃.sumChildren root = .ok s' := by
  unfold update at hs
  split_ifs at hs with hin
  · exact .inl ⟨hin, hs⟩
  · exact .inr ⟨hin, halves_inv hs⟩

/-- What a call of `_update` of `range_set` that returns has done. -/
theorem setUpdate_inv (hs : setUpdate l r value (fuel + 1) cl cr root s = .ok s') :
    (l ≤ cl ∧ cr ≤ r) ∧ (s.setLazy root value).bind
        (fun s => s.setTree root (((cr - cl + 1 : ℤ) : T) * value)) = .ok s' ∨
      ¬ (l ≤ cl ∧ cr ≤ r) ∧ ∃ s₁ s₂ s₃, s.setMaintain cl cr root = .ok s₁ ∧
        (cl ≤ middle cl cr ∧
            setUpdate l r value fuel cl (middle cl cr) (leftChild root) s₁ = .ok s₂ ∨
          ¬ cl ≤ middle cl cr ∧ s₂ = s₁) ∧
        (middle cl cr < cr ∧
            setUpdate l r value fuel (middle cl cr + 1) cr (rightChild root) s₂ = .ok s₃ ∨
          ¬ middle cl cr < cr ∧ s₃ = s₂) ∧
        s₃.sumChildren root = .ok s' := by
  unfold setUpdate at hs
  split_ifs at hs with hin
  · exact .inl ⟨hin, hs⟩
  · exact .inr ⟨hin, halves_inv hs⟩

/-- What a call of `_query` that returns has done. -/
theorem query_inv (hs : query l r (fuel + 1) cl cr root s = .ok (sum, s')) :
    (l ≤ cl ∧ cr ≤ r) ∧ read s.tree root = .ok sum ∧ s' = s ∨
      ¬ (l ≤ cl ∧ cr ≤ r) ∧ ∃ s₁ s₂ sum₂, s.maintain cl cr root = .ok s₁ ∧
        ((∃ x, l ≤ middle cl cr ∧ sum₂ = 0 + x ∧
            query l r fuel cl (middle cl cr) (leftChild root) s₁ = .ok (x, s₂)) ∨
          ¬ l ≤ middle cl cr ∧ sum₂ = 0 ∧ s₂ = s₁) ∧
        ((∃ x, middle cl cr < r ∧ sum = sum₂ + x ∧
            query l r fuel (middle cl cr + 1) cr (rightChild root) s₂ = .ok (x, s')) ∨
          ¬ middle cl cr < r ∧ sum = sum₂ ∧ s' = s₂) := by
  -- a half that the range does not meet is left out, and the sum is as before
  have hcall {c : Prop} [Decidable c] {lo hi k : ℤ} {s s' : SegmentTree T} {old new : T}
      (hs : (if c then (query l r fuel lo hi k s).bind fun x => .ok (old + x.1, x.2)
        else .ok (old, s)) = .ok (new, s')) :
      (∃ x, c ∧ new = old + x ∧ query l r fuel lo hi k s = .ok (x, s')) ∨
        ¬ c ∧ new = old ∧ s' = s := by
    rcases ite_eq_ok.1 hs with ⟨hc, hs⟩ | ⟨hc, heq⟩
    · obtain ⟨⟨x, s₁⟩, hquery, heq⟩ := bind_eq_ok.1 hs
      obtain ⟨rfl, rfl⟩ := Prod.mk.inj (Except.ok.inj heq)
      exact .inl ⟨x, hc, rfl, hquery⟩
    · obtain ⟨rfl, rfl⟩ := Prod.mk.inj heq
      exact .inr ⟨hc, rfl, rfl⟩
  unfold query at hs
  split_ifs at hs with hin
  · obtain ⟨x, hread, heq⟩ := bind_eq_ok.1 hs
    obtain ⟨rfl, rfl⟩ := Prod.mk.inj (Except.ok.inj heq)
    exact .inl ⟨hin, hread, rfl⟩
  · obtain ⟨s₁, h₁, hs⟩ := bind_eq_ok.1 hs
    obtain ⟨⟨sum₂, s₂⟩, h₂, hs⟩ := bind_eq_ok.1 hs
    exact .inr ⟨hin, s₁, s₂, sum₂, h₁, hcall h₂, hcall hs⟩

end Inversion

/-! ## Lengths -/

/-- Calls that return, whatever their arguments, leave the lengths of the vectors. -/
def SameLength (s s' : SegmentTree T) : Prop :=
  s'.tree.length = s.tree.length ∧ s'.lazy.length = s.lazy.length

omit [CommRing T] [DecidableEq T] in
/-- The operations do not change the lengths of the vectors: none does, -/
theorem SameLength.refl (s : SegmentTree T) : SameLength s s := ⟨rfl, rfl⟩

omit [CommRing T] [DecidableEq T] in
/-- and neither do two that do not. -/
theorem SameLength.trans {s₂ : SegmentTree T} (h : SameLength s s₁) (h' : SameLength s₁ s₂) :
    SameLength s s₂ := ⟨h'.1.trans h.1, h'.2.trans h.2⟩

omit [CommRing T] [DecidableEq T] in
/-- A call that is left out under a condition. -/
theorem SameLength.of_call {c : Prop} {call : Except Fault (SegmentTree T)}
    (hcall : call = .ok s₁ → SameLength s s₁) (h : c ∧ call = .ok s₁ ∨ ¬ c ∧ s₁ = s) :
    SameLength s s₁ := by
  rcases h with ⟨-, hok⟩ | ⟨-, rfl⟩
  · exact hcall hok
  · exact .refl _

omit [CommRing T] [DecidableEq T] in
/-- Room for nodes is a matter of the lengths. -/
theorem Room.of_sameLength {s' : SegmentTree T} (hroom : Room s i lo hi h)
    (hsame : SameLength s s') : Room s' i lo hi h :=
  ⟨hroom.width, by rw [hsame.1]; exact hroom.tree, by rw [hsame.2]; exact hroom.lazy, hroom.int32⟩

section Lengths

variable {s' : SegmentTree T} {cl cr root j : ℤ} {x value : T}

omit [CommRing T] [DecidableEq T] in
/-- The assignments, -/
theorem setTree_length (hs : s.setTree j x = .ok s') : SameLength s s' := by
  obtain ⟨tree, hwrite, heq⟩ := bind_eq_ok.1 hs
  obtain rfl := Except.ok.inj heq
  exact ⟨write_length hwrite, rfl⟩

omit [CommRing T] [DecidableEq T] in
/-- to either vector, -/
theorem setLazy_length (hs : s.setLazy j x = .ok s') : SameLength s s' := by
  obtain ⟨lazy, hwrite, heq⟩ := bind_eq_ok.1 hs
  obtain rfl := Except.ok.inj heq
  exact ⟨rfl, write_length hwrite⟩

omit [DecidableEq T] in
/-- and the additions, -/
theorem addTree_length (hs : s.addTree j x = .ok s') : SameLength s s' := by
  obtain ⟨_, -, hset⟩ := bind_eq_ok.1 hs
  exact setTree_length hset

omit [DecidableEq T] in
/-- again for both, -/
theorem addLazy_length (hs : s.addLazy j x = .ok s') : SameLength s s' := by
  obtain ⟨_, -, hset⟩ := bind_eq_ok.1 hs
  exact setLazy_length hset

omit [DecidableEq T] in
/-- the new sum of a node, -/
theorem sumChildren_length (hs : s.sumChildren root = .ok s') : SameLength s s' := by
  obtain ⟨_, -, hs⟩ := bind_eq_ok.1 hs
  obtain ⟨_, -, hset⟩ := bind_eq_ok.1 hs
  exact setTree_length hset

/-- passing a tag on, -/
theorem maintain_length (hs : s.maintain cl cr root = .ok s') : SameLength s s' := by
  unfold maintain at hs
  split_ifs at hs
  · obtain ⟨tag, -, hs⟩ := bind_eq_ok.1 hs
    split_ifs at hs
    · obtain ⟨s₁, h₁, hs⟩ := bind_eq_ok.1 hs
      obtain ⟨s₂, h₂, hs⟩ := bind_eq_ok.1 hs
      obtain ⟨s₃, h₃, hs⟩ := bind_eq_ok.1 hs
      obtain ⟨s₄, h₄, hs⟩ := bind_eq_ok.1 hs
      exact ((((addLazy_length h₁).trans (addLazy_length h₂)).trans (addTree_length h₃)).trans
        (addTree_length h₄)).trans (setLazy_length hs)
    · exact Except.ok.inj hs ▸ .refl s
  · exact Except.ok.inj hs ▸ .refl s

/-- in both ways, -/
theorem setMaintain_length (hs : s.setMaintain cl cr root = .ok s') : SameLength s s' := by
  unfold setMaintain at hs
  split_ifs at hs
  · obtain ⟨tag, -, hs⟩ := bind_eq_ok.1 hs
    split_ifs at hs
    · obtain ⟨s₁, h₁, hs⟩ := bind_eq_ok.1 hs
      obtain ⟨s₂, h₂, hs⟩ := bind_eq_ok.1 hs
      obtain ⟨s₃, h₃, hs⟩ := bind_eq_ok.1 hs
      obtain ⟨s₄, h₄, hs⟩ := bind_eq_ok.1 hs
      exact ((((setLazy_length h₁).trans (setLazy_length h₂)).trans (setTree_length h₃)).trans
        (setTree_length h₄)).trans (setLazy_length hs)
    · exact Except.ok.inj hs ▸ .refl s
  · exact Except.ok.inj hs ▸ .refl s

omit [DecidableEq T] in
/-- and the recursive functions: `_build`, -/
theorem build_length {v : List T} (hs : build v fuel root cl cr s = .ok s') : SameLength s s' := by
  induction fuel generalizing root cl cr s s' with
  | zero => cases hs
  | succ fuel ih =>
    unfold build at hs
    split_ifs at hs
    · obtain ⟨x, -, hset⟩ := bind_eq_ok.1 hs
      exact setTree_length hset
    · obtain ⟨s₁, h₁, hs⟩ := bind_eq_ok.1 hs
      obtain ⟨s₂, h₂, hs⟩ := bind_eq_ok.1 hs
      exact ((ih h₁).trans (ih h₂)).trans (sumChildren_length hs)

/-- `_update` of `range_add`, -/
theorem update_length (hs : update l r value fuel cl cr root s = .ok s') : SameLength s s' := by
  induction fuel generalizing root cl cr s s' with
  | zero => cases hs
  | succ fuel ih =>
    rcases update_inv hs with ⟨-, hs⟩ | ⟨-, s₁, s₂, s₃, h₁, h₂, h₃, hs⟩
    · obtain ⟨s₁, h₁, hs⟩ := bind_eq_ok.1 hs
      exact (addLazy_length h₁).trans (addTree_length hs)
    · have hhalves := (SameLength.of_call ih h₂).trans (.of_call ih h₃)
      exact ((maintain_length h₁).trans hhalves).trans (sumChildren_length hs)

/-- `_update` of `range_set`, -/
theorem setUpdate_length (hs : setUpdate l r value fuel cl cr root s = .ok s') :
    SameLength s s' := by
  induction fuel generalizing root cl cr s s' with
  | zero => cases hs
  | succ fuel ih =>
    rcases setUpdate_inv hs with ⟨-, hs⟩ | ⟨-, s₁, s₂, s₃, h₁, h₂, h₃, hs⟩
    · obtain ⟨s₁, h₁, hs⟩ := bind_eq_ok.1 hs
      exact (setLazy_length h₁).trans (setTree_length hs)
    · have hhalves := (SameLength.of_call ih h₂).trans (.of_call ih h₃)
      exact ((setMaintain_length h₁).trans hhalves).trans (sumChildren_length hs)

/-- and `_query`. -/
theorem query_length {sum : T} (hs : query l r fuel cl cr root s = .ok (sum, s')) :
    SameLength s s' := by
  induction fuel generalizing root cl cr s s' sum with
  | zero => cases hs
  | succ fuel ih =>
    rcases query_inv hs with ⟨-, -, rfl⟩ | ⟨-, s₁, s₂, sum₂, h₁, h₂, h₃⟩
    · exact .refl _
    · have hleft : SameLength s₁ s₂ := by
        rcases h₂ with ⟨x, -, -, h₂⟩ | ⟨-, -, rfl⟩
        · exact ih h₂
        · exact .refl _
      have hright : SameLength s₂ s' := by
        rcases h₃ with ⟨x, -, -, h₃⟩ | ⟨-, -, rfl⟩
        · exact ih h₃
        · exact .refl _
      exact ((maintain_length h₁).trans hleft).trans hright

end Lengths

/-! ## Queries see everything -/

/-- A query in the left half. -/
theorem query_left (hroom : Room s i lo hi (h + 1)) (hlt : lo < hi)
    (hpush : s.maintain lo hi i = .ok s₁) (hlr : l ≤ r) (hr : r ≤ LazySums.middle lo hi) :
    query l r (fuel + 1) lo hi i s =
      query l r fuel lo (LazySums.middle lo hi) (childIndex i false : ℕ) s₁ := by
  have hm := LazySums.middle_bounds hlt
  rw [query, if_neg (by omega), hpush]
  simp only [bind, Except.bind]
  rw [middle_eq hlt.le, hroom.leftChild, if_pos (by omega)]
  cases query l r fuel lo (LazySums.middle lo hi) (childIndex i false : ℕ) s₁ with
  | error e => rfl
  | ok x => simp only [if_neg (show ¬ LazySums.middle lo hi < r by omega), zero_add]

/-- A query in the right half. -/
theorem query_right (hroom : Room s i lo hi (h + 1)) (hlt : lo < hi)
    (hpush : s.maintain lo hi i = .ok s₁) (hl : LazySums.middle lo hi < l) (hlr : l ≤ r) :
    query l r (fuel + 1) lo hi i s =
      query l r fuel (LazySums.middle lo hi + 1) hi (childIndex i true : ℕ) s₁ := by
  have hm := LazySums.middle_bounds hlt
  rw [query, if_neg (by omega), hpush]
  simp only [bind, Except.bind]
  rw [middle_eq hlt.le, hroom.rightChild, if_neg (by omega)]
  simp only []
  rw [if_pos (by omega)]
  cases query l r fuel (LazySums.middle lo hi + 1) hi (childIndex i true : ℕ) s₁ with
  | error e => rfl
  | ok x => simp only [zero_add]

/-- When the queries below a node are right, the numbers represent the array. -/
theorem stores_of_queries (hroom : Room s i lo hi h) (hfuel : h < fuel) (hle : lo ≤ hi)
    (hqueries : ∀ l r, lo ≤ l → l ≤ r → r ≤ hi →
      ∃ s', query l r fuel lo hi i s = .ok (∑ k ∈ Finset.Icc l r, a k, s')) :
    Stores s i lo hi a := by
  induction fuel generalizing s i lo hi h with
  | zero => omega
  | succ fuel ih =>
    -- the query for the whole interval reads the sum
    have hsum : s.treeAt i = ∑ k ∈ Finset.Icc lo hi, a k := by
      obtain ⟨s', hs'⟩ := hqueries lo hi le_rfl hle le_rfl
      rw [query, if_pos ⟨le_rfl, le_rfl⟩, read_tree hroom.tree_lt] at hs'
      exact (Prod.mk.inj (Except.ok.inj hs')).1
    rcases hle.eq_or_lt with rfl | hlt
    · exact .leaf (by rw [hsum, Finset.Icc_self, Finset.sum_singleton])
    · obtain ⟨h, rfl⟩ := hroom.exists_succ hlt
      have hm := LazySums.middle_bounds hlt
      obtain ⟨s₁, hs₁, hpushed⟩ := maintain_pushed hroom hlt
      have hroom₁ := hroom.of_sameOutside hpushed.same
      refine LazySums.Represents.of_pushed hlt hsum hpushed.tree hpushed.lazy hpushed.below ?_ ?_
      · refine ih hroom₁.left (by omega) hm.1 fun l r hl hlr hr => ?_
        rw [← query_left hroom hlt hs₁ hlr hr]
        exact hqueries l r hl hlr (by omega)
      · refine ih hroom₁.right (by omega) (by omega) fun l r hl hlr hr => ?_
        rw [← query_right hroom hlt hs₁ (by omega) hlr]
        exact hqueries l r (by omega) hlr hr

/-- A tree on which all calls of `range_sum` are right represents the array. -/
theorem holds_of_rangeSums (hpos : 1 ≤ n) (hn : n ≤ 2 ^ 30) (hlen : s.tree.length = n * 4)
    (hroom : ∃ h < depthFuel, Room s 0 0 (n - 1) h)
    (hsums : ∀ op : Operation T, op.IsSum n → ∃ s', s.perform op = .ok (op.answer a, s')) :
    Holds s n a := by
  obtain ⟨h, hh, hroom₀⟩ := hroom
  refine ⟨hlen, ⟨h, hh, hroom₀⟩, stores_of_queries hroom₀ hh (by omega) fun l r hl hlr hr => ?_⟩
  obtain ⟨s', hs'⟩ := hsums (.rangeSum l r) ⟨hl, hlr, by omega⟩
  obtain ⟨⟨sum, s''⟩, hsum, heq⟩ := bind_eq_ok.1 hs'
  obtain ⟨hanswer, -⟩ := Prod.mk.inj (Except.ok.inj heq)
  refine ⟨s'', ?_⟩
  rw [rangeSum, lastPosition_eq hlen hn] at hsum
  rw [Nat.cast_zero, hsum, Option.some.inj hanswer]

end SegmentTree

end CppLearn

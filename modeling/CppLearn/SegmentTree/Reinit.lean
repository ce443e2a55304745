import CppLearn.SegmentTree.Root

/-!
# Initialising a segment tree again

`init` on a tree that has been in use computes all sums anew, but leaves the tags: `resize` does not
change a vector that has the right length already. The old tags are passed on by the calls that
follow.

`SegmentTree.Reached` are the trees that any calls lead to, for arrays of a given length. By
`SegmentTree.reinit_iff` the calls after the second `init` return what they return on a new tree
exactly if the old tags cancel, and the root has none: a call of `range_set` for the whole array
replaces the tag of the root, so that nothing is left for the others to cancel with. Where only zero
multiplied by a width is zero, all tags that are passed on have to be zero
(`SegmentTree.reinit_iff_inner`).
-/

namespace CppLearn

open BoundedLoop CheckedVector HeapOrder ObservedRuns

/-- Calls of `init` are about arrays of length `n`. -/
def Operation.HasLength {T : Type} (n : ℕ) : Operation T → Prop
  | .init v _ => v.length = n
  | _ => True

namespace SegmentTree

variable {T : Type} [CommRing T] {s s' : SegmentTree T} {n : ℕ} {v : List T} {initValue : Bool}

/-! ## The trees that calls lead to -/

theorem init_length (hs : s.init v initValue = .ok s') :
    s'.tree.length = v.length * 4 ∧ s'.lazy.length = v.length * 4 := by
  unfold init at hs
  simp only at hs
  split_ifs at hs
  · obtain ⟨htree, hlazy⟩ := build_length hs
    exact ⟨htree.trans (length_resize ..), hlazy.trans (length_resize ..)⟩
  · obtain rfl := Except.ok.inj hs
    exact ⟨length_resize .., length_resize ..⟩

variable [DecidableEq T]

/-- The trees that any calls lead to, the first of which is `init` with an array of length `n`. -/
inductive Reached (n : ℕ) : SegmentTree T → Prop
  | init {v : List T} {initValue : Bool} {s : SegmentTree T} (hv : v.length = n)
      (hs : fresh.init v initValue = .ok s) : Reached n s
  | perform {s s' : SegmentTree T} {op : Operation T} {result : Option T} (h : Reached n s)
      (hop : op.HasLength n) (hs : s.perform op = .ok (result, s')) : Reached n s'

theorem Reached.length (h : Reached n s) : s.tree.length = n * 4 ∧ s.lazy.length = n * 4 := by
  induction h with
  | init hv hs => exact hv ▸ init_length hs
  | @perform s s' op result _ hop hs ih =>
    -- only `init` gives the arrays a new length, and it is the same one
    have hkeep (hsame : SameLength s s') : s'.tree.length = n * 4 ∧ s'.lazy.length = n * 4 :=
      ⟨hsame.1.trans ih.1, hsame.2.trans ih.2⟩
    cases op with
    | init v initValue =>
      obtain ⟨_, hcall, heq⟩ := bind_eq_ok.1 hs
      obtain ⟨-, rfl⟩ := Prod.mk.inj (Except.ok.inj heq)
      have hv : v.length = n := hop
      exact hv ▸ init_length hcall
    | rangeAdd l r value =>
      obtain ⟨_, hcall, heq⟩ := bind_eq_ok.1 hs
      obtain ⟨-, rfl⟩ := Prod.mk.inj (Except.ok.inj heq)
      exact hkeep (update_length hcall)
    | rangeSet l r value =>
      obtain ⟨_, hcall, heq⟩ := bind_eq_ok.1 hs
      obtain ⟨-, rfl⟩ := Prod.mk.inj (Except.ok.inj heq)
      exact hkeep (setUpdate_length hcall)
    | rangeSum l r =>
      obtain ⟨⟨_, _⟩, hcall, heq⟩ := bind_eq_ok.1 hs
      obtain ⟨-, rfl⟩ := Prod.mk.inj (Except.ok.inj heq)
      exact hkeep (query_length hcall)

/-! ## The calls after `init` -/

omit [DecidableEq T] in
/-- `init` on a tree in use keeps the tags: the tree represents the new array exactly if they
cancel. -/
theorem init_again (htree : s.tree.length = n * 4) (hlazy : s.lazy.length = n * 4) (hpos : 1 ≤ n)
    (hn : n ≤ 2 ^ 30) (hv : v.length = n) :
    ∃ s', s.init v true = .ok s' ∧ s'.tree.length = n * 4 ∧
      (∃ h < depthFuel, Room s' 0 0 (n - 1) h) ∧ s'.lazyAt = s.lazyAt ∧
      (Stores s' 0 0 (n - 1) (elements v) ↔ LazySums.TagsCancel s.lazyAt 0 0 (n - 1) 0) := by
  obtain ⟨h, hh, hroom⟩ := exists_room htree hlazy hpos hn
  obtain ⟨s', hs', hsame, hlazy', hst⟩ :=
    build_sums v hroom hh (by omega) le_rfl (show (n : ℤ) - 1 < v.length by omega)
  refine ⟨s', ?_, hsame.tree_length.trans htree, ⟨h, hh, hroom.of_sameOutside hsame⟩, hlazy', ?_⟩
  · unfold init
    rw [if_pos rfl, hv, ← htree, resize_length, htree, ← hlazy, resize_length, narrow_last hn]
    exact hs'
  · have hiff : Stores s' 0 0 (n - 1) (fun k => elements v k - 0) ↔
        LazySums.TagsCancel s'.lazyAt 0 0 (n - 1) 0 :=
      LazySums.represents_iff_tagsCancel hst 0
    simp only [sub_zero] at hiff
    rwa [← hlazy']

omit [DecidableEq T] in
/-- `init` on a new tree leaves no tags. -/
theorem fresh_init_lazyAt (hpos : 1 ≤ n) (hn : n ≤ 2 ^ 30) (hv : v.length = n)
    (hs : fresh.init v true = .ok s) (j : ℕ) : s.lazyAt j = 0 := by
  let s₀ : SegmentTree T := ⟨List.replicate (n * 4) 0, List.replicate (n * 4) 0⟩
  obtain ⟨s', hs', -, -, hlazy, -⟩ := init_again (s := s₀) List.length_replicate
    List.length_replicate hpos hn hv
  have heq : s₀.init v true = fresh.init v true := by
    simp only [init, fresh, s₀, resize_nil, resize_replicate]
  obtain rfl := Except.ok.inj (hs.symm.trans (heq.symm.trans hs'))
  rw [hlazy]
  exact getD_replicate _ _ _

/-- The calls that follow on two trees return the same. -/
def AnswerAlike (n : ℕ) (s s' : SegmentTree T) : Prop :=
  ∀ ops : List (Operation T), (∀ op ∈ ops, op.InRange n) →
    (performAll SegmentTree.perform s ops).map Prod.fst =
      (performAll SegmentTree.perform s' ops).map Prod.fst

/-- A tree that answers like one that represents an array represents it too. -/
theorem AnswerAlike.holds {a : ℤ → T} (h : AnswerAlike n s s') (hpos : 1 ≤ n) (hn : n ≤ 2 ^ 30)
    (hlen : s.tree.length = n * 4) (hroom : ∃ h < depthFuel, Room s 0 0 (n - 1) h)
    (hs' : Holds s' n a) : Holds s n a := by
  refine holds_of_rangeSums hpos hn hlen hroom fun op hop => ?_
  cases op with
  | init | rangeAdd | rangeSet => exact hop.elim
  | rangeSum l r =>
    have hrun := h [.rangeSum l r] (List.forall_mem_singleton.2 hop)
    obtain ⟨s₁, hs₁, -⟩ := hs'.perform_isSum hn hop
    rw [performAll_single_results.2 ⟨s₁, hs₁⟩] at hrun
    exact performAll_single_results.1 hrun

/-- Trees that represent the same array answer alike exactly if their roots have the same tag; the
tag of a single element is never passed on. -/
theorem answerAlike_iff {a : ℤ → T} (hpos : 1 ≤ n) (hn : n ≤ 2 ^ 30) (hs : Holds s n a)
    (hs' : Holds s' n a) : AnswerAlike n s s' ↔ n = 1 ∨ s.lazyAt 0 = s'.lazyAt 0 := by
  constructor
  · intro h
    by_cases hone : n = 1
    · exact .inl hone
    · have hlt : 1 < n := by omega
      have hzero := h [.rangeSet 0 (n - 1) 0, .rangeSum 0 0] <|
        List.forall_mem_cons.2 ⟨⟨le_rfl, by omega, by omega⟩,
          List.forall_mem_singleton.2 ⟨le_rfl, le_rfl, by omega⟩⟩
      rw [(hs.rooted fun _ => rfl).performAll_zero hn hlt,
        (hs'.rooted fun _ => rfl).performAll_zero hn hlt] at hzero
      refine .inr ?_
      simpa using hzero
  · intro htag ops hops
    refine (hs.rooted fun _ => rfl).performAll (hs'.rooted fun hlt => ?_) hn ops hops
    exact (htag.resolve_left hlt.ne').symm

/-- After any history, `init` and the calls that follow return what they return on a new tree
exactly if the tags that the history has left cancel, and that of the root is zero. -/
theorem reinit_iff (hpos : 1 ≤ n) (hn : n ≤ 2 ^ 30) (h : Reached n s) (hv : v.length = n) :
    ∃ s₁ s₂, s.init v true = .ok s₁ ∧ fresh.init v true = .ok s₂ ∧
      (AnswerAlike n s₁ s₂ ↔
        LazySums.TagsCancel s.lazyAt 0 0 (n - 1) 0 ∧ (n = 1 ∨ s.lazyAt 0 = 0)) := by
  obtain ⟨htree, hlazy⟩ := h.length
  obtain ⟨s₁, hs₁, hlen, hroom, htags, hstores⟩ := init_again htree hlazy hpos hn hv
  obtain ⟨s₂, hs₂, hholds⟩ := init_holds v true (by omega) (by omega)
  rw [hv] at hholds
  refine ⟨s₁, s₂, hs₁, hs₂, ?_⟩
  have hroot : s₂.lazyAt 0 = 0 := fresh_init_lazyAt hpos hn hv hs₂ 0
  rw [← hstores, ← htags, ← hroot]
  constructor
  · intro hsame
    have hholds₁ := hsame.holds hpos hn hlen hroom hholds
    exact ⟨hholds₁.stores, (answerAlike_iff hpos hn hholds₁ hholds).1 hsame⟩
  · rintro ⟨hst, htag⟩
    exact (answerAlike_iff hpos hn ⟨hlen, hroom, hst⟩ hholds).2 htag

/-- For values like the integers, this means that all nodes that pass tags on have the tag zero. -/
theorem reinit_iff_inner [NoZeroDivisors T] [CharZero T] (hpos : 1 ≤ n) (hn : n ≤ 2 ^ 30)
    (h : Reached n s) (hv : v.length = n) :
    ∃ s₁ s₂, s.init v true = .ok s₁ ∧ fresh.init v true = .ok s₂ ∧
      (AnswerAlike n s₁ s₂ ↔ ∀ j, LazySums.Inner 0 0 (n - 1) j → s.lazyAt j = 0) := by
  obtain ⟨s₁, s₂, hs₁, hs₂, hiff⟩ := reinit_iff hpos hn h hv
  have hle : (0 : ℤ) ≤ n - 1 := by omega
  refine ⟨s₁, s₂, hs₁, hs₂, hiff.trans ?_⟩
  rw [LazySums.tagsCancel_iff_inner hle]
  refine and_iff_left_of_imp fun hzero => or_iff_not_imp_left.2 fun hone => hzero 0 ?_
  exact .root (by omega)

end SegmentTree

end CppLearn

import CppLearn.BinaryIndexTree.Correctness
import CppLearn.SegmentTree.Reinit

/-!
# Initialising a binary index tree again

`init` adds the new differences to the entries that it finds: `resize` does not change a vector that
has the right length already. The entries that are left from before count as further differences,
so that the results are those of a new tree exactly if all of them are zero
(`BinaryIndexTree.reinit_iff`).

At the end, `reinit_eq_fresh_iff` says when a segment tree and a binary index tree can be
initialised again.
-/

namespace CppLearn

namespace BinaryIndexTree

open BoundedLoop CheckedVector Signed

variable {T : Type} [CommRing T] {s s' : BinaryIndexTree T} {n : ℕ}

/-! ## The trees that calls lead to -/

/-- Nothing has happened to the shape of a tree, and to the entries that are not used. -/
structure SameFrame (s s' : BinaryIndexTree T) : Prop where
  size : s'.size = s.size
  diff_length : s'.diff.length = s.diff.length
  idiff_length : s'.idiff.length = s.idiff.length
  diffAt_zero : s'.diffAt 0 = s.diffAt 0
  idiffAt_zero : s'.idiffAt 0 = s.idiffAt 0

/-- The frame is kept by doing nothing, -/
theorem SameFrame.refl (s : BinaryIndexTree T) : SameFrame s s := ⟨rfl, rfl, rfl, rfl, rfl⟩

/-- by two such steps, -/
theorem SameFrame.trans {s'' : BinaryIndexTree T} (h : SameFrame s s') (h' : SameFrame s' s'') :
    SameFrame s s'' :=
  ⟨h'.size.trans h.size, h'.diff_length.trans h.diff_length,
    h'.idiff_length.trans h.idiff_length, h'.diffAt_zero.trans h.diffAt_zero,
    h'.idiffAt_zero.trans h.idiffAt_zero⟩

/-- Additions that return are inside the vectors. -/
theorem addAt_frame {i : ℤ} {x y : T} (hi : i ≠ 0) (hs : s.addAt i x y = .ok s') :
    0 < i ∧ SameFrame s s' := by
  obtain ⟨a, hread, hs⟩ := bind_eq_ok.1 hs
  obtain ⟨diff, hdiff, hs⟩ := bind_eq_ok.1 hs
  obtain ⟨b, -, hs⟩ := bind_eq_ok.1 hs
  obtain ⟨idiff, hidiff, hs⟩ := bind_eq_ok.1 hs
  obtain rfl := Except.ok.inj hs
  have hpos : 0 ≤ i := by
    unfold CheckedVector.read at hread
    by_contra hneg
    rw [if_neg hneg] at hread
    cases hread
  have hne : ((0 : ℕ) : ℤ) ≠ i := by omega
  exact ⟨by omega, rfl, write_length hdiff, write_length hidiff, write_getD hdiff hne 0,
    write_getD hidiff hne 0⟩

/-- The walk up never comes to the position `0`: where it overflows it becomes negative. -/
theorem updateDiff_frame {i : ℤ} {val : T} (hs : s.updateDiff i val = .ok s') :
    SameFrame s s' := by
  unfold updateDiff at hs
  obtain ⟨⟨t, q⟩, hloop, heq⟩ := bind_eq_ok.1 hs
  obtain rfl := Except.ok.inj heq
  -- a position that has become negative stays so, and no entry has its index
  have hinv : SameFrame s t ∧ q ≠ 0 ∧ 2 * q < 2 ^ 32 := by
    refine whileLoop_invariant
      (I := fun t => SameFrame s t.1 ∧ t.2 ≠ 0 ∧ 2 * t.2 < 2 ^ 32) ?_ ?_ hloop
    · rintro ⟨t, q⟩ ⟨t', q'⟩ ⟨hframe, hne, hq⟩ hbody
      obtain ⟨t₁, hadd, heq⟩ := bind_eq_ok.1 hbody
      obtain ⟨rfl, rfl⟩ := Prod.mk.inj (Except.ok.inj heq)
      obtain ⟨hpos, hframe'⟩ := addAt_frame hne hadd
      obtain ⟨m, rfl⟩ := Int.eq_ofNat_of_zero_le hpos.le
      have hlow := Fenwick.lowbit_pos (by omega : 0 < m)
      have hle := Fenwick.lowbit_le m
      refine ⟨hframe.trans hframe', ?_⟩
      simp only [lowbit_natCast]
      simp only at hq
      -- the sum is an `int`, or it wraps to a negative number
      rcases lt_or_ge (2 * ((m : ℤ) + Fenwick.lowbit m)) (2 ^ 32) with hfits | hover
      · rw [narrow_eq ⟨by omega, hfits⟩]
        omega
      · have hneg := narrow_neg hover (by omega)
        omega
    · refine ⟨SameFrame.refl s, ?_⟩
      obtain ⟨-, hfits⟩ := narrow_fits 32 i
      simp only
      split_ifs <;> omega
  exact hinv.1

/-- by an update of a range, -/
theorem rangeUpdate_frame {l r : ℤ} {val : T} (hs : s.rangeUpdate l r val = .ok s') :
    SameFrame s s' := by
  obtain ⟨s₁, hfirst, hsecond⟩ := bind_eq_ok.1 hs
  exact (updateDiff_frame hfirst).trans (updateDiff_frame hsecond)

/-- by a sequence of calls, -/
theorem run_frame {widen : T → ℤ} {calls : List (TreeCall T)} {results : List ℤ}
    (hs : s.run widen calls = .ok (results, s')) : SameFrame s s' := by
  induction calls generalizing s results with
  | nil =>
    obtain ⟨-, rfl⟩ := Prod.mk.inj (Except.ok.inj hs)
    exact SameFrame.refl s
  | cons c calls ih =>
    -- a query leaves the tree as it is
    have hquery {x : Except Fault ℤ} (h : x.bind (fun x => (s.run widen calls).bind fun y =>
        .ok (x :: y.1, y.2)) = .ok (results, s')) : SameFrame s s' := by
      obtain ⟨x, -, h⟩ := bind_eq_ok.1 h
      obtain ⟨⟨xs, t⟩, hrun, heq⟩ := bind_eq_ok.1 h
      obtain ⟨-, rfl⟩ := Prod.mk.inj (Except.ok.inj heq)
      exact ih hrun
    cases c with
    | update i val =>
      obtain ⟨s₁, hupdate, hrun⟩ := bind_eq_ok.1 hs
      exact (rangeUpdate_frame hupdate).trans (ih hrun)
    | rangeUpdate l r val =>
      obtain ⟨s₁, hupdate, hrun⟩ := bind_eq_ok.1 hs
      exact (rangeUpdate_frame hupdate).trans (ih hrun)
    | query i => exact hquery hs
    | rangeSum l r => exact hquery hs
    | prefixSum r => exact hquery hs

/-- by an iteration of the loop of `init`, -/
theorem initStep_frame {vec : List T} {i : ℕ} (hi : 0 < i) (hs : initStep vec i s = .ok s') :
    SameFrame s s' := by
  obtain ⟨d, -, hs⟩ := bind_eq_ok.1 hs
  obtain ⟨s₁, hadd, hs⟩ := bind_eq_ok.1 hs
  obtain ⟨-, hframe⟩ := addAt_frame (by omega) hadd
  simp only [lowbit_natCast] at hs
  split_ifs at hs
  · obtain ⟨x, -, hs⟩ := bind_eq_ok.1 hs
    obtain ⟨y, -, hs⟩ := bind_eq_ok.1 hs
    exact hframe.trans (addAt_frame (by omega) hs).2
  · obtain rfl := Except.ok.inj hs
    exact hframe

/-- and by the loop. -/
theorem initLoop_frame {vec : List T} {m i : ℕ} (hi : 0 < i) (hs : initLoop vec m i s = .ok s') :
    SameFrame s s' := by
  induction m generalizing s i with
  | zero =>
    obtain rfl := Except.ok.inj hs
    exact SameFrame.refl s
  | succ m ih =>
    obtain ⟨s₁, hstep, hloop⟩ := bind_eq_ok.1 hs
    exact (initStep_frame hi hstep).trans (ih (Nat.succ_pos i) hloop)

/-- The shape of a tree, with the entries that are not used still zero. -/
structure Framed (s : BinaryIndexTree T) (n : ℕ) : Prop extends Shape s n where
  diffAt_zero : s.diffAt 0 = 0
  idiffAt_zero : s.idiffAt 0 = 0

/-- So the entries at position `0` stay zero, -/
theorem Framed.of_sameFrame (h : Framed s n) (hsame : SameFrame s s') : Framed s' n :=
  ⟨⟨hsame.size.trans h.size, hsame.diff_length.trans h.diff, hsame.idiff_length.trans h.idiff⟩,
    hsame.diffAt_zero.trans h.diffAt_zero, hsame.idiffAt_zero.trans h.idiffAt_zero⟩

/-- as they are at first, -/
theorem create_framed (n : ℕ) : Framed (create n : BinaryIndexTree T) n := by
  refine ⟨(create_holds n).toShape, ?_, ?_⟩
  · simp only [diffAt, create, resize_nil, getD_replicate]
  · simp only [idiffAt, create, resize_nil, getD_replicate]

/-- On a tree of the right length `init` is its loop. -/
theorem init_eq_loop (hs : Shape s n) {vec : List T} (hvec : vec.length = n) :
    s.init vec = initLoop vec n 1 s := by
  obtain ⟨size, diff, idiff⟩ := s
  have hsize : size = n := hs.size
  have hdiff : diff.length = n + 1 := hs.diff
  have hidiff : idiff.length = n + 1 := hs.idiff
  unfold init
  rw [hvec, ← hdiff, resize_length, hdiff, ← hidiff, resize_length, hsize]

/-- A new tree takes the length of the vector. -/
theorem create_init_eq (m : ℕ) (vec : List T) :
    (create m).init vec = (create vec.length).init vec := by
  simp [init, create]

variable {widen : T → ℤ}

/-- The trees that any calls on a new tree lead to, where all calls of `init` are with vectors of
length `n`. Before the first of them, a new tree can have any size. -/
inductive Reached (widen : T → ℤ) (n : ℕ) : BinaryIndexTree T → Prop
  | create : Reached widen n (create n)
  | first {m : ℕ} {vec : List T} {s : BinaryIndexTree T} (hvec : vec.length = n)
      (hs : (BinaryIndexTree.create m).init vec = .ok s) : Reached widen n s
  | init {vec : List T} {s s' : BinaryIndexTree T} (h : Reached widen n s) (hvec : vec.length = n)
      (hs : s.init vec = .ok s') : Reached widen n s'
  | run {calls : List (TreeCall T)} {results : List ℤ} {s s' : BinaryIndexTree T}
      (h : Reached widen n s) (hs : s.run widen calls = .ok (results, s')) : Reached widen n s'

/-- in all trees that calls lead to. -/
theorem Reached.framed (h : Reached widen n s) : Framed s n := by
  induction h with
  | create => exact create_framed n
  | first hvec hs =>
    rw [create_init_eq, hvec, init_eq_loop (create_framed n).toShape hvec] at hs
    exact (create_framed n).of_sameFrame (initLoop_frame one_pos (by exact_mod_cast hs))
  | init _ hvec hs ih =>
    rw [init_eq_loop ih.toShape hvec] at hs
    exact ih.of_sameFrame (initLoop_frame one_pos (by exact_mod_cast hs))
  | run _ hs ih => exact ih.of_sameFrame (run_frame hs)

/-! ## The calls after `init` -/

/-- Every change and every `init` so far has left nothing behind. -/
def Blank (s : BinaryIndexTree T) (n : ℕ) : Prop :=
  ∀ j, 0 < j → j ≤ n → s.diffAt j = 0 ∧ s.idiffAt j = 0

/-- A list of the right length is known by its elements. -/
theorem eq_replicate {l : List T} (hlen : l.length = n + 1) (h : ∀ j ≤ n, l.getD j 0 = 0) :
    l = List.replicate (n + 1) 0 := by
  refine List.eq_replicate_iff.2 ⟨hlen, fun x hx => ?_⟩
  obtain ⟨j, hj, rfl⟩ := List.getElem_of_mem hx
  have hj' := h j (by omega)
  rwa [List.getD_eq_getElem _ _ hj] at hj'

/-- A tree with nothing left behind is a new one. -/
theorem Framed.eq_create (h : Framed s n) (hblank : Blank s n) : s = create n := by
  have hdiff : s.diff = List.replicate (n + 1) 0 := by
    refine eq_replicate h.diff fun j hj => ?_
    rcases Nat.eq_zero_or_pos j with rfl | hpos
    · exact h.diffAt_zero
    · exact (hblank j hpos hj).1
  have hidiff : s.idiff = List.replicate (n + 1) 0 := by
    refine eq_replicate h.idiff fun j hj => ?_
    rcases Nat.eq_zero_or_pos j with rfl | hpos
    · exact h.idiffAt_zero
    · exact (hblank j hpos hj).2
  have hsize := h.size
  obtain ⟨size, diff, idiff⟩ := s
  simp only at hdiff hidiff hsize
  rw [hdiff, hidiff, hsize, create, resize_nil]

/-- Results of `query` and of `range_sum` that agree show that the entries agree. -/
theorem entries_eq (hwiden : Function.Injective widen) (hs : Shape s n) (hs' : Shape s' n)
    (hsame : ∀ calls, (s.run widen calls).map Prod.fst = (s'.run widen calls).map Prod.fst) {j : ℕ}
    (hj : 0 < j) (hjn : j ≤ n) : s.diffAt j = s'.diffAt j ∧ s.idiffAt j = s'.idiffAt j := by
  have hdiff : ∀ i ≤ n, Fenwick.walkSum (fun j => widen (s.diffAt j)) i =
      Fenwick.walkSum (fun j => widen (s'.diffAt j)) i := by
    intro i hi
    have hrun := hsame [.query i]
    simpa only [run, query_walk widen hs hi, query_walk widen hs' hi, bind, Except.bind, Except.map,
      Except.ok.injEq, List.cons.injEq, and_true] using hrun
  have hidiff : ∀ i ≤ n, Fenwick.walkSum (fun j => widen (s.idiffAt j)) i =
      Fenwick.walkSum (fun j => widen (s'.idiffAt j)) i := by
    intro i hi
    have hrun := hsame [.rangeSum (0 + 1 : ℕ) i]
    simp only [run, rangeSum_walk widen hs (Nat.zero_le n) hi,
      rangeSum_walk widen hs' (Nat.zero_le n) hi, bind, Except.bind, Except.map, Except.ok.injEq,
      List.cons.injEq, and_true, hdiff i hi, Fenwick.walkSum_zero] at hrun
    omega
  exact ⟨hwiden (Fenwick.eq_of_walkSum hdiff hj hjn), hwiden (Fenwick.eq_of_walkSum hidiff hj hjn)⟩

/-- After any history, `init` and the calls that follow return what they return on a new tree
exactly if the history has left no entry that is not zero. -/
theorem reinit_iff (hwiden : Function.Injective widen) (h : Reached widen n s) {vec : List T}
    (hvec : vec.length = n) :
    ∃ s₁ s₂, s.init vec = .ok s₁ ∧ (create n).init vec = .ok s₂ ∧
      ((∀ calls, (s₁.run widen calls).map Prod.fst = (s₂.run widen calls).map Prod.fst) ↔
        Blank s n) := by
  subst hvec
  have hframed := h.framed
  obtain ⟨s₁, hs₁, hshape, hdiff, hidiff⟩ := initLoop_holds hframed.toShape
  obtain ⟨s₂, hs₂, hholds⟩ := init_holds vec.length vec
  rw [← init_eq_loop hframed.toShape rfl] at hs₁
  refine ⟨s₁, s₂, hs₁, hs₂, fun hsame j hj hjn => ?_, fun hblank calls => ?_⟩
  · have heq {k : ℕ} (hk : 0 < k) (hkn : k ≤ vec.length) :=
      entries_eq hwiden hshape hholds.toShape hsame hk hkn
    have hx := hdiff.unique hholds.diffHolds (fun k hk hkn => (heq hk hkn).1) hj hjn
    have hy := hidiff.unique hholds.idiffHolds (fun k hk hkn => (heq hk hkn).2) hj hjn
    exact ⟨by simpa using hx, by simpa using hy⟩
  · -- `init` finds a new tree
    rw [hframed.eq_create hblank, hs₂] at hs₁
    rw [Except.ok.inj hs₁]

end BinaryIndexTree

/-! ## Both kinds of trees -/

/-- After any history, `init` and the calls that follow return what they return on a new tree
exactly if the history has left no tag of a segment tree that is passed on or replaced, and no entry
of a binary index tree. -/
theorem reinit_eq_fresh_iff (T : Type) [CommRing T] [DecidableEq T] (n : ℕ) (v : List T)
    (hv : v.length = n) :
    (∀ s : SegmentTree T, 1 ≤ n → n ≤ 2 ^ 30 → SegmentTree.Reached n s →
      ∃ s₁ s₂, s.init v true = .ok s₁ ∧ SegmentTree.fresh.init v true = .ok s₂ ∧
        (SegmentTree.AnswerAlike n s₁ s₂ ↔
          LazySums.TagsCancel s.lazyAt 0 0 (n - 1) 0 ∧ (n = 1 ∨ s.lazyAt 0 = 0))) ∧
      ∀ (widen : T → ℤ) (s : BinaryIndexTree T), Function.Injective widen →
        BinaryIndexTree.Reached widen n s →
        ∃ s₁ s₂, s.init v = .ok s₁ ∧ (BinaryIndexTree.create n).init v = .ok s₂ ∧
          ((∀ calls, (s₁.run widen calls).map Prod.fst = (s₂.run widen calls).map Prod.fst) ↔
            s.Blank n) :=
  ⟨fun _ hpos hn h => SegmentTree.reinit_iff hpos hn h hv,
    fun _ _ hwiden h => BinaryIndexTree.reinit_iff hwiden h hv⟩

/-- Trees that are initialised again after they have been in use. The second addition takes back the
tag that the first one leaves at the root of the segment tree, and the third one leaves tags at
leaves, which are never passed on. -/
theorem reinit_eq_fresh_iff_used :
    (∃ s s' s₁ s₂ : SegmentTree ℤ, SegmentTree.fresh.init [1, 2, 3] true = .ok s ∧
      ObservedRuns.performAll SegmentTree.perform s
        [.rangeAdd 0 2 5, .rangeAdd 0 2 (-5), .rangeAdd 1 2 4] = .ok ([none, none, none], s') ∧
      s'.init [3, 4, 5] true = .ok s₁ ∧ SegmentTree.fresh.init [3, 4, 5] true = .ok s₂ ∧
      SegmentTree.AnswerAlike 3 s₁ s₂) ∧
      ∃ s s₁ s₂ : BinaryIndexTree ℤ,
        (BinaryIndexTree.create 3).run id [.rangeUpdate 1 2 5, .query 2, .rangeUpdate 1 2 (-5)] =
          .ok ([5], s) ∧
        s.init [3, 4, 5] = .ok s₁ ∧ (BinaryIndexTree.create 3).init [3, 4, 5] = .ok s₂ ∧
        ∀ calls, (s₁.run id calls).map Prod.fst = (s₂.run id calls).map Prod.fst := by
  obtain ⟨hsegment, hindex⟩ := reinit_eq_fresh_iff ℤ 3 [3, 4, 5] rfl
  constructor
  · -- two updates that cancel leave the tags of the whole range at zero
    have hinit : SegmentTree.fresh.init [(1 : ℤ), 2, 3] true =
        .ok ⟨[6, 3, 3, 1, 2, 0, 0, 0, 0, 0, 0, 0], List.replicate 12 0⟩ := rfl
    have hreached : SegmentTree.Reached 3
        (⟨[14, 7, 7, 1, 6, 0, 0, 0, 0, 0, 0, 0], [0, 0, 4, 0, 4, 0, 0, 0, 0, 0, 0, 0]⟩ :
          SegmentTree ℤ) := by
      have h₁ := (SegmentTree.Reached.init rfl hinit).perform
        (show (Operation.rangeAdd 0 2 5).HasLength 3 from trivial) rfl
      have h₂ := h₁.perform (show (Operation.rangeAdd 0 2 (-5)).HasLength 3 from trivial) rfl
      exact h₂.perform (show (Operation.rangeAdd 1 2 4).HasLength 3 from trivial) rfl
    obtain ⟨s₁, s₂, hs₁, hs₂, hiff⟩ := hsegment _ (by decide) (by decide) hreached
    refine ⟨_, _, s₁, s₂, hinit, rfl, hs₁, hs₂, hiff.2 ⟨?_, .inr rfl⟩⟩
    exact .node (by decide) rfl (.node (by decide) rfl (.leaf rfl) (.leaf rfl)) (.leaf rfl)
  · have hrun : (BinaryIndexTree.create 3).run id
        [.rangeUpdate 1 2 5, .query 2, .rangeUpdate 1 2 (-5)] =
          .ok ([5], ⟨3, [0, 0, 0, 0], [0, 0, 0, 0]⟩) := by decide +kernel
    obtain ⟨s₁, s₂, hs₁, hs₂, hiff⟩ := hindex id _ Function.injective_id (.run .create hrun)
    refine ⟨_, s₁, s₂, hrun, hs₁, hs₂, hiff.2 fun j _ _ => ?_⟩
    exact ⟨CheckedVector.getD_replicate 4 0 j, CheckedVector.getD_replicate 4 0 j⟩

/-- An addition to all elements, then `init`, then the first element. -/
theorem reinit_keeps_past :
    (∃ s s₁ s₂ : SegmentTree ℤ, SegmentTree.Reached 2 s ∧ s.init [1, 2] true = .ok s₁ ∧
      SegmentTree.fresh.init [1, 2] true = .ok s₂ ∧
      (s₁.run [.rangeSum 0 0]).map Prod.fst = .ok [6] ∧
      (s₂.run [.rangeSum 0 0]).map Prod.fst = .ok [1]) ∧
      ∃ s s₁ s₂ : BinaryIndexTree ℤ, BinaryIndexTree.Reached id 1 s ∧ s.init [1] = .ok s₁ ∧
        (BinaryIndexTree.create 1).init [1] = .ok s₂ ∧
        (s₁.run id [.query 1]).map Prod.fst = .ok [6] ∧
        (s₂.run id [.query 1]).map Prod.fst = .ok [1] := by
  constructor
  · have hinit : SegmentTree.fresh.init [(1 : ℤ), 2] true =
        .ok ⟨[3, 1, 2, 0, 0, 0, 0, 0], List.replicate 8 0⟩ := rfl
    have hadd : SegmentTree.Reached 2
        (⟨[13, 1, 2, 0, 0, 0, 0, 0], [5, 0, 0, 0, 0, 0, 0, 0]⟩ : SegmentTree ℤ) :=
      .perform (.init rfl hinit) (show (Operation.rangeAdd 0 1 5).HasLength 2 from trivial) rfl
    exact ⟨_, _, _, hadd, rfl, rfl, rfl, rfl⟩
  · have hupdate : (BinaryIndexTree.create 1).run id [.update 1 5] =
        .ok ([], ⟨1, [0, 5], [0, 5]⟩) := by decide +kernel
    have hinit : (⟨1, [0, 5], [0, 5]⟩ : BinaryIndexTree ℤ).init [1] = .ok ⟨1, [0, 6], [0, 6]⟩ := by
      decide +kernel
    have hfresh : (BinaryIndexTree.create 1).init [(1 : ℤ)] = .ok ⟨1, [0, 1], [0, 1]⟩ := by
      decide +kernel
    exact ⟨_, _, _, .run .create hupdate, hinit, hfresh, by decide +kernel, by decide +kernel⟩

end CppLearn

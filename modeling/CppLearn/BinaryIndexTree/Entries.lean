import CppLearn.BinaryIndexTree.Defs
import CppLearn.Lib.Fenwick

/-!
# Entries of the binary index tree

The two vectors of a binary index tree are Fenwick trees over the differences `d i` and over the
products `i * d i`. This module has one lemma for each loop of the source: the walk up of
`__update`, the walk down of `_query`, and the loop of `init`.

`BinaryIndexTree.Holds` says that the vectors are the Fenwick trees of a sequence of differences.
Changes and building keep this (`BinaryIndexTree.rangeUpdate_holds`, `BinaryIndexTree.init_holds`),
and it determines what queries add up (`BinaryIndexTree.query_walk`,
`BinaryIndexTree.rangeSum_walk`).
-/

namespace CppLearn.BinaryIndexTree

open BoundedLoop CheckedVector Signed

/-! ## The lowest bit -/

private theorem land_lnot (n : ℕ) : Int.land n (-n - 1) = 0 := by
  have hneg : -(n : ℤ) - 1 = Int.negSucc n := by rw [Int.negSucc_eq]; ring
  have hzero : Nat.ldiff n n = 0 := by
    refine Nat.eq_of_testBit_eq fun i => ?_
    simp [Nat.testBit_ldiff]
  rw [hneg]
  exact congrArg Nat.cast hzero

/-- `i & -i` is the lowest bit of a positive number. -/
theorem lowbit_natCast (n : ℕ) : lowbit n = Fenwick.lowbit n := by
  induction n using Fenwick.binary_induction with
  | h0 => simp [lowbit, Int.land]
  | hodd n =>
    have hpos : ((2 * n + 1 : ℕ) : ℤ) = Int.bit true n := by simp [Int.bit]
    -- the negative number has the complement of the higher bits
    have hneg : -((2 * n + 1 : ℕ) : ℤ) = Int.bit true (-n - 1) := by
      simp only [Int.bit, cond_true]
      push_cast
      ring
    rw [lowbit, hneg, hpos, Int.land_bit, land_lnot, Fenwick.lowbit_odd]
    rfl
  | heven n _ ih =>
    have hpos : ((2 * n : ℕ) : ℤ) = Int.bit false n := by simp [Int.bit]
    have hneg : -((2 * n : ℕ) : ℤ) = Int.bit false (-n) := by simp [Int.bit]
    rw [lowbit, hneg, hpos, Int.land_bit, ← lowbit, ih, Fenwick.lowbit_even]
    simp [Int.bit]

variable {T : Type} [CommRing T] {s s' : BinaryIndexTree T} {d : ℕ → T} {i n p : ℕ}

/-! ## Entries -/

/-- The entries of `diff_`. -/
def diffAt (s : BinaryIndexTree T) (j : ℕ) : T := s.diff.getD j 0

/-- The entries of `idiff_`. -/
def idiffAt (s : BinaryIndexTree T) (j : ℕ) : T := s.idiff.getD j 0

/-- The vectors have an entry for each position up to `n`, and one that is not used. -/
structure Shape (s : BinaryIndexTree T) (n : ℕ) : Prop where
  size : s.size = n
  diff : s.diff.length = n + 1
  idiff : s.idiff.length = n + 1

/-- The vectors are the Fenwick trees of the differences `d`. -/
structure Holds (s : BinaryIndexTree T) (n : ℕ) (d : ℕ → T) : Prop extends Shape s n where
  diffHolds : Fenwick.Holds s.diffAt n d
  idiffHolds : Fenwick.Holds s.idiffAt n fun k => k * d k

/-- Adding to one entry of each vector. -/
theorem addAt_ok (hs : Shape s n) (hi : i ≤ n) (x y : T) :
    ∃ s', s.addAt i x y = .ok s' ∧ Shape s' n ∧
      (∀ j, s'.diffAt j = s.diffAt j + if j = i then x else 0) ∧
      ∀ j, s'.idiffAt j = s.idiffAt j + if j = i then y else 0 := by
  have hdiff : i < s.diff.length := by rw [hs.diff]; omega
  have hidiff : i < s.idiff.length := by rw [hs.idiff]; omega
  refine ⟨⟨s.size, s.diff.set i (s.diffAt i + x), s.idiff.set i (s.idiffAt i + y)⟩, ?_,
    ⟨hs.size, ?_, ?_⟩, fun j => ?_, fun j => ?_⟩
  · simp only [addAt, read_ok hdiff 0, write_ok hdiff, read_ok hidiff 0, write_ok hidiff, bind,
      Except.bind]
    rfl
  · rw [List.length_set, hs.diff]
  · rw [List.length_set, hs.idiff]
  · exact getD_set_add hdiff x j
  · exact getD_set_add hidiff y j

/-- During the walk up from `p` that has come to `q`: what is missing are the entries that cover
`q`. -/
structure Climb (s₀ : BinaryIndexTree T) (n p : ℕ) (val ival : T) (s : BinaryIndexTree T) (q : ℕ) :
    Prop extends Shape s n where
  pos : 0 < q
  diffAt : ∀ j ≤ n, (s.diffAt j + if Fenwick.Covers j q then val else 0) =
    s₀.diffAt j + if Fenwick.Covers j p then val else 0
  idiffAt : ∀ j ≤ n, (s.idiffAt j + if Fenwick.Covers j q then ival else 0) =
    s₀.idiffAt j + if Fenwick.Covers j p then ival else 0

/-- The entries that cover a position, as a sum of two indicators. -/
theorem covers_split {q : ℕ} (hq : 0 < q) (j : ℕ) (x : T) :
    (if Fenwick.Covers j q then x else 0) =
      (if j = q then x else 0) + if Fenwick.Covers j (q + Fenwick.lowbit q) then x else 0 := by
  have hlow := Fenwick.lowbit_pos hq
  by_cases hj : j = q
  · subst hj
    have hnot : ¬ Fenwick.Covers j (j + Fenwick.lowbit j) := fun h => by
      have := h.2
      omega
    rw [if_pos (Fenwick.covers_self hq), if_pos rfl, if_neg hnot, add_zero]
  · -- any other entry covers the position if and only if it covers the next one
    rw [if_neg hj, zero_add]
    refine if_congr ?_ rfl rfl
    rw [Fenwick.covers_iff_next hq j]
    exact or_iff_right hj

/-- The positions behind the entries that `__update` changes from position `p` on are values of
type `int`. -/
def WalkFits (n p : ℕ) : Prop := ∀ q ≤ n, Fenwick.Covers q p → q + Fenwick.lowbit q < 2 ^ 31

instance (n p : ℕ) : Decidable (WalkFits n p) :=
  inferInstanceAs (Decidable (∀ q ≤ n, Fenwick.Covers q p → _))

/-- One iteration of the walk up. -/
theorem Climb.step {s₀ : BinaryIndexTree T} {val ival : T} {q : ℕ}
    (h : Climb s₀ n p val ival s q) (hq : q ≤ n) (hwalk : WalkFits n q) :
    ∃ s', updateBody val ival (s, q) = .ok (s', (q + Fenwick.lowbit q : ℕ)) ∧
      Climb s₀ n p val ival s' (q + Fenwick.lowbit q) ∧ WalkFits n (q + Fenwick.lowbit q) := by
  obtain ⟨s', hs', hshape, hdiff, hidiff⟩ := addAt_ok h.toShape hq val ival
  refine ⟨s', ?_, ⟨hshape, Nat.add_pos_left h.pos _, fun j hj => ?_, fun j hj => ?_⟩,
    fun j hj hcovers => hwalk j hj ((Fenwick.covers_iff_next h.pos j).2 (.inr hcovers))⟩
  · -- the entry at `q` covers its own position
    have hlt := hwalk q hq (Fenwick.covers_self h.pos)
    have hfits : Fits 32 ((q : ℤ) + Fenwick.lowbit q) := by constructor <;> omega
    simp only [updateBody, hs', bind, Except.bind, lowbit_natCast]
    rw [narrow_eq hfits]
    rfl
  · rw [← h.diffAt j hj, hdiff, covers_split h.pos j val, add_assoc]
  · rw [← h.idiffAt j hj, hidiff, covers_split h.pos j ival, add_assoc]

/-- The walk up adds to the entries that cover position `p`. -/
theorem updateLoop_ok (hs : Shape s n) (val ival : T) (hp : 0 < p) (hwalk : WalkFits n p)
    {fuel : ℕ} (hfuel : n + 1 < fuel) :
    ∃ t, updateLoop val ival fuel (s, (p : ℤ)) = .ok t ∧ Shape t.1 n ∧
      (∀ j ≤ n, t.1.diffAt j = s.diffAt j + if Fenwick.Covers j p then val else 0) ∧
      ∀ j ≤ n, t.1.idiffAt j = s.idiffAt j + if Fenwick.Covers j p then ival else 0 := by
  unfold updateLoop
  refine whileLoop_spec (n := n + 1 - p)
    (I := fun m t => ∃ q : ℕ, t.2 = (q : ℤ) ∧ m = n + 1 - q ∧ Climb s n p val ival t.1 q ∧
      WalkFits n q) ?_ (fun _ _ _ => ⟨_, rfl⟩) ?_ ?_ (by omega)
  · -- behind the last position no entry is missing
    rintro m ⟨t, _⟩ ⟨q, rfl, -, hclimb, -⟩ hexit
    have hq : n < q := by
      have hsize : t.size = n := hclimb.size
      simp only [Except.ok.injEq, decide_eq_false_iff_not] at hexit
      omega
    have hnot {j : ℕ} (hj : j ≤ n) : ¬ Fenwick.Covers j q := fun h => by
      have := h.2
      omega
    refine ⟨hclimb.toShape, fun j hj => ?_, fun j hj => ?_⟩
    · rw [← hclimb.diffAt j hj, if_neg (hnot hj), add_zero]
    · rw [← hclimb.idiffAt j hj, if_neg (hnot hj), add_zero]
  · -- the entry at `q` gets its share, and the others that cover `p` cover the next position
    rintro m ⟨t, _⟩ ⟨q, rfl, rfl, hclimb, hwalk⟩ hcond
    have hq : q ≤ n := by
      have hsize : t.size = n := hclimb.size
      simp only [Except.ok.injEq, decide_eq_true_eq] at hcond
      omega
    have hlow := Fenwick.lowbit_pos hclimb.pos
    obtain ⟨t', ht', hclimb', hwalk'⟩ := hclimb.step hq hwalk
    exact ⟨_, _, ht', by omega, _, rfl, rfl, hclimb', hwalk'⟩
  · exact ⟨p, rfl, rfl, ⟨hs, hp, fun _ _ => rfl, fun _ _ => rfl⟩, hwalk⟩

/-- The position at which `__update` starts. -/
def clamp (x : ℤ) : ℕ := if x ≤ 0 then 1 else x.toNat

/-- Positions that are clamped are positive, -/
theorem clamp_pos (x : ℤ) : 0 < clamp x := by
  unfold clamp
  split_ifs <;> omega

/-- and compare with positions of the tree as before. -/
theorem clamp_le_iff (x : ℤ) {k : ℕ} (hk : 0 < k) : clamp x ≤ k ↔ x ≤ k := by
  unfold clamp
  split_ifs <;> omega

/-- `__update` adds to the difference at a position that fits in an `int`, as those behind it do. -/
theorem updateDiff_holds (hs : Holds s n d) (val : T) {x : ℤ} (hx : Fits 32 x)
    (hwalk : WalkFits n (clamp x)) :
    ∃ s', s.updateDiff x val = .ok s' ∧
      Holds s' n fun k => d k + if k = clamp x then val else 0 := by
  have hsize : s.size.toNat = n := by rw [hs.size, Int.toNat_natCast]
  -- positions up to 0 are treated as 1
  have hstart : (if x ≤ 0 then 1 else x) = (clamp x : ℤ) := by
    unfold clamp
    split_ifs <;> omega
  obtain ⟨⟨s', q⟩, hrun, hshape, hdiff, hidiff⟩ := updateLoop_ok hs.toShape val
    ((clamp x : ℤ) * val) (clamp_pos x) hwalk (by omega : n + 1 < n + 2)
  refine ⟨s', ?_, hshape, hs.diffHolds.update val fun j _ hj => hdiff j hj, ?_⟩
  · simp only [updateDiff, narrow_eq hx, hstart, hsize, hrun, bind, Except.bind]
  · -- the second vector has the differences times their positions
    have hupdate := hs.idiffHolds.update ((clamp x : ℤ) * val) fun j _ hj => hidiff j hj
    convert hupdate using 2 with k
    split_ifs with hk
    · rw [hk]
      push_cast
      ring
    · ring

/-- `range_update` adds `val` to the difference at `l`, and `-val` to the one behind `r`. -/
theorem rangeUpdate_holds (hs : Holds s n d) (val : T) {l r : ℤ} (hl : Fits 32 l)
    (hr : Fits 32 (r + 1)) (hwalk : WalkFits n (clamp l)) (hwalk' : WalkFits n (clamp (r + 1))) :
    ∃ s', s.rangeUpdate l r val = .ok s' ∧ Holds s' n fun k =>
      d k + (if k = clamp l then val else 0) + if k = clamp (r + 1) then -val else 0 := by
  obtain ⟨s₁, hs₁, hholds₁⟩ := updateDiff_holds hs val hl hwalk
  obtain ⟨s₂, hs₂, hholds₂⟩ := updateDiff_holds hholds₁ (-val) hr hwalk'
  refine ⟨s₂, ?_, hholds₂⟩
  simp only [rangeUpdate, hs₁, hs₂, bind, Except.bind]

/-! ## The walk down -/

omit [CommRing T] in
/-- The walk down of `_query` adds up the entries that it meets. -/
theorem querySum_walk [Zero T] (widen : T → ℤ) {arr : List T} (hi : i < arr.length) :
    querySum widen arr i = .ok (Fenwick.walkSum (fun j => widen (arr.getD j 0)) i) := by
  have hloop : ∃ t : ℤ × ℤ, whileLoop (fun _ => Fault.diverged)
      (fun s : ℤ × ℤ => .ok (s.1 != 0)) (queryBody widen arr) (i + 1) ((i : ℤ), 0) = .ok t ∧
      t.2 = Fenwick.walkSum (fun j => widen (arr.getD j 0)) i := by
    -- the sum so far and that of the remaining walk make the whole sum
    refine whileLoop_spec (n := i)
      (I := fun m t => t.1 = (m : ℤ) ∧ m ≤ i ∧
        t.2 + Fenwick.walkSum (fun j => widen (arr.getD j 0)) m =
          Fenwick.walkSum (fun j => widen (arr.getD j 0)) i)
      ?_ (fun _ _ _ => ⟨_, rfl⟩) ?_ ⟨rfl, le_rfl, zero_add _⟩ (by omega)
    · rintro m ⟨_, x⟩ ⟨rfl, -, hsum⟩ hexit
      simp only [Except.ok.injEq, bne_eq_false_iff_eq, Int.natCast_eq_zero] at hexit
      subst hexit
      simpa using hsum
    · rintro m ⟨_, x⟩ ⟨rfl, hm, hsum⟩ hcond
      simp only [Except.ok.injEq, bne_iff_ne, ne_eq, Int.natCast_eq_zero] at hcond
      have hpos : 0 < m := Nat.pos_of_ne_zero hcond
      have hlow := Fenwick.lowbit_pos hpos
      have hle := Fenwick.lowbit_le m
      refine ⟨((m - Fenwick.lowbit m : ℕ), x + widen (arr.getD m 0)), m - Fenwick.lowbit m, ?_,
        by omega, rfl, by omega, ?_⟩
      · simp only [queryBody, read_ok (by omega : m < arr.length) 0, bind, Except.bind,
          lowbit_natCast, Nat.cast_sub hle]
      · rw [← hsum, Fenwick.walkSum_pos _ hpos, add_assoc]
  obtain ⟨⟨j, x⟩, hrun, rfl⟩ := hloop
  simp only [querySum, Int.toNat_natCast, hrun, bind, Except.bind]

/-- `query` adds up the entries on the walk down. -/
theorem query_walk (widen : T → ℤ) (hs : Shape s n) (hi : i ≤ n) :
    s.query widen i = .ok (Fenwick.walkSum (fun j => widen (s.diffAt j)) i) :=
  querySum_walk widen (by rw [hs.diff]; omega)

/-- The four walks of `range_sum`, for the positions after `m` up to `r`. -/
theorem rangeSum_walk (widen : T → ℤ) (hs : Shape s n) {m r : ℕ} (hm : m ≤ n) (hr : r ≤ n) :
    s.rangeSum widen (m + 1 : ℕ) r = .ok (
      (r + 1) * Fenwick.walkSum (fun j => widen (s.diffAt j)) r -
        Fenwick.walkSum (fun j => widen (s.idiffAt j)) r -
        (m + 1 : ℕ) * Fenwick.walkSum (fun j => widen (s.diffAt j)) m +
        Fenwick.walkSum (fun j => widen (s.idiffAt j)) m) := by
  have hdiff {j : ℕ} (hj : j ≤ n) :=
    querySum_walk widen (by rw [hs.diff]; omega : j < s.diff.length)
  have hidiff {j : ℕ} (hj : j ≤ n) :=
    querySum_walk widen (by rw [hs.idiff]; omega : j < s.idiff.length)
  have hlast : ((m + 1 : ℕ) : ℤ) - 1 = (m : ℕ) := by omega
  simp only [rangeSum, hlast, hdiff hr, hidiff hr, hdiff hm, hidiff hm, bind, Except.bind]
  rfl

/-! ## Building -/

/-- The differences of the elements of a vector. -/
def delta (vec : List T) (i : ℕ) : T :=
  if i = 1 then vec.getD 0 0 else vec.getD (i - 1) 0 - vec.getD (i - 2) 0

/-- The differences that `init` computes. -/
theorem difference_ok (vec : List T) (hpos : 0 < i) (hi : i ≤ vec.length) :
    difference vec i = .ok (delta vec i) := by
  unfold difference delta
  by_cases h1 : i = 1
  · subst h1
    exact read_ok (by omega) 0
  · have hlast : (i : ℤ) - 1 = (i - 1 : ℕ) := by omega
    have hprev : (i : ℤ) - 2 = (i - 2 : ℕ) := by omega
    rw [if_neg (by omega), if_neg h1, hlast, hprev, read_ok (by omega) 0, read_ok (by omega) 0]
    rfl

/-- The differences add up to the elements. -/
theorem sum_delta (vec : List T) (k : ℕ) :
    ∑ p ∈ Finset.Ioc 0 (k + 1), delta vec p = vec.getD k 0 := by
  induction k with
  | zero => simp [delta]
  | succ k ih =>
    rw [Finset.sum_Ioc_succ_top (Nat.zero_le _), ih, delta, if_neg (by omega)]
    simp

/-- After `i` iterations of the loop of `init`, which adds to the entries that it finds: `x` and `y`
are the entries before. -/
structure Rebuilt (vec : List T) (x y : ℕ → T) (s : BinaryIndexTree T) (i : ℕ) : Prop
    extends Shape s vec.length where
  diffBuilt : Fenwick.InProgress (Fenwick.withoutOld s.diffAt x i) vec.length i
    fun k => delta vec k + x k
  idiffBuilt : Fenwick.InProgress (Fenwick.withoutOld s.idiffAt y i) vec.length i
    fun k => k * delta vec k + y k

/-- One iteration of its loop, -/
theorem Rebuilt.step {vec : List T} {x y : ℕ → T} (h : Rebuilt vec x y s i) (hi : i < vec.length) :
    ∃ s', initStep vec (i + 1 : ℕ) s = .ok s' ∧ Rebuilt vec x y s' (i + 1) := by
  obtain ⟨s₁, hs₁, hshape₁, hdiff₁, hidiff₁⟩ := addAt_ok h.toShape (i := i + 1) (by omega)
    (delta vec (i + 1)) ((i + 1 : ℕ) * delta vec (i + 1))
  -- the entry that is passed on is complete
  have hentry : s₁.diffAt (i + 1) = Fenwick.segment (fun k => delta vec k + x k) (i + 1) := by
    rw [hdiff₁, if_pos rfl, h.diffBuilt.entry_old hi]
  have hientry : s₁.idiffAt (i + 1) =
      Fenwick.segment (fun k => k * delta vec k + y k) (i + 1) := by
    rw [hidiff₁, if_pos rfl, h.idiffBuilt.entry_old hi]
  have hread : read s₁.diff (i + 1 : ℕ) = .ok (s₁.diffAt (i + 1)) :=
    read_ok (by rw [hshape₁.diff]; omega) 0
  have hiread : read s₁.idiff (i + 1 : ℕ) = .ok (s₁.idiffAt (i + 1)) :=
    read_ok (by rw [hshape₁.idiff]; omega) 0
  rw [hentry] at hread
  rw [hientry] at hiread
  have hnext : ((i + 1 : ℕ) : ℤ) + lowbit (i + 1 : ℕ) = (i + 1 + Fenwick.lowbit (i + 1) : ℕ) := by
    rw [lowbit_natCast, ← Nat.cast_add]
  have hrun : initStep vec (i + 1 : ℕ) s =
      if i + 1 + Fenwick.lowbit (i + 1) ≤ vec.length then
        s₁.addAt (i + 1 + Fenwick.lowbit (i + 1) : ℕ)
          (Fenwick.segment (fun k => delta vec k + x k) (i + 1))
          (Fenwick.segment (fun k => k * delta vec k + y k) (i + 1))
      else .ok s₁ := by
    have hs₁' : s.addAt (i + 1 : ℕ) (delta vec (i + 1))
        (((i + 1 : ℕ) : ℤ) * delta vec (i + 1)) = .ok s₁ := by rw [Int.cast_natCast]; exact hs₁
    simp only [initStep, difference_ok vec (Nat.succ_pos i) hi, hs₁', hnext, hshape₁.size, hread,
      hiread, bind, Except.bind, Nat.cast_le]
  rw [hrun]
  split_ifs with hle
  · obtain ⟨s₂, hs₂, hshape₂, hdiff₂, hidiff₂⟩ := addAt_ok hshape₁ hle
      (Fenwick.segment (fun k => delta vec k + x k) (i + 1))
      (Fenwick.segment (fun k => k * delta vec k + y k) (i + 1))
    refine ⟨s₂, hs₂, hshape₂, h.diffBuilt.step_old hi fun j _ => ?_,
      h.idiffBuilt.step_old hi fun j _ => ?_⟩
    · rw [hdiff₂, hdiff₁]
    · rw [hidiff₂, hidiff₁]
  · refine ⟨s₁, rfl, hshape₁, h.diffBuilt.step_old hi fun j hj => ?_,
      h.idiffBuilt.step_old hi fun j hj => ?_⟩
    · rw [hdiff₁, if_neg (by omega : ¬ j = i + 1 + Fenwick.lowbit (i + 1)), add_zero]
    · rw [hidiff₁, if_neg (by omega : ¬ j = i + 1 + Fenwick.lowbit (i + 1)), add_zero]

/-- and the whole loop. -/
theorem Rebuilt.loop {vec : List T} {x y : ℕ → T} {m : ℕ} (h : Rebuilt vec x y s i)
    (hm : i + m = vec.length) :
    ∃ s', initLoop vec m (i + 1 : ℕ) s = .ok s' ∧ Rebuilt vec x y s' vec.length := by
  induction m generalizing s i with
  | zero => exact ⟨s, rfl, by rwa [← hm]⟩
  | succ m ih =>
    obtain ⟨s₁, hs₁, h₁⟩ := h.step (by omega)
    obtain ⟨s', hs', h'⟩ := ih h₁ (by omega)
    refine ⟨s', ?_, h'⟩
    simp only [initLoop, hs₁, bind, Except.bind]
    exact_mod_cast hs'

/-- The loop of `init` treats the entries that it finds as further elements. -/
theorem initLoop_holds {vec : List T} (hs : Shape s vec.length) :
    ∃ s', initLoop vec vec.length 1 s = .ok s' ∧ Shape s' vec.length ∧
      Fenwick.Holds s'.diffAt vec.length (fun k => delta vec k + s.diffAt k) ∧
      Fenwick.Holds s'.idiffAt vec.length fun k => k * delta vec k + s.idiffAt k := by
  have hstart : Rebuilt vec s.diffAt s.idiffAt s 0 :=
    ⟨hs, Fenwick.inProgress_old _ fun _ _ _ => rfl, Fenwick.inProgress_old _ fun _ _ _ => rfl⟩
  obtain ⟨s', hs', hbuilt⟩ := hstart.loop (Nat.zero_add _)
  have hend {node old : ℕ → T} (j : ℕ) (hj : j ≤ vec.length) :
      Fenwick.withoutOld node old vec.length j = node j := by
    rw [Fenwick.withoutOld, if_neg (by omega), sub_zero]
  refine ⟨s', hs', hbuilt.toShape, fun j hj hjn => ?_, fun j hj hjn => ?_⟩
  · exact (hend j hjn).symm.trans (hbuilt.diffBuilt.holds le_rfl j hj hjn)
  · exact (hend j hjn).symm.trans (hbuilt.idiffBuilt.holds le_rfl j hj hjn)

/-- A fresh tree holds differences that are all zero. -/
theorem create_holds (n : ℕ) : Holds (create n : BinaryIndexTree T) n fun _ => 0 := by
  have hdiff (j : ℕ) : (create n : BinaryIndexTree T).diffAt j = 0 := by
    simp only [diffAt, create, resize_nil, getD_replicate]
  have hidiff (j : ℕ) : (create n : BinaryIndexTree T).idiffAt j = 0 := by
    simp only [idiffAt, create, resize_nil, getD_replicate]
  refine ⟨⟨rfl, by simp [create], by simp [create]⟩, fun j _ _ => ?_, fun j _ _ => ?_⟩
  · rw [hdiff, Fenwick.segment, Finset.sum_const_zero]
  · simp only [hidiff, Fenwick.segment, mul_zero, Finset.sum_const_zero]

/-- `init` on a fresh tree, of whatever size, builds the trees of the differences of a vector. -/
theorem init_holds (m : ℕ) (vec : List T) :
    ∃ s, (create m).init vec = .ok s ∧ Holds s vec.length (delta vec) := by
  let s₀ : BinaryIndexTree T := ⟨vec.length, List.replicate (vec.length + 1) 0,
    List.replicate (vec.length + 1) 0⟩
  have hdiff (j : ℕ) : s₀.diffAt j = 0 := getD_replicate _ _ _
  have hidiff (j : ℕ) : s₀.idiffAt j = 0 := getD_replicate _ _ _
  obtain ⟨s, hs, hshape, hd, hi⟩ := initLoop_holds
    (⟨rfl, List.length_replicate, List.length_replicate⟩ : Shape s₀ vec.length)
  simp only [hdiff, hidiff, add_zero] at hd hi
  refine ⟨s, ?_, hshape, hd, hi⟩
  simpa [init, create] using hs

end CppLearn.BinaryIndexTree

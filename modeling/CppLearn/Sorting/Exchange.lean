import CppLearn.Lib.Rearrangement
import CppLearn.Lib.StableSort
import CppLearn.Sorting.Defs

/-!
# Sorting by exchanges

`bubble_sort` and `insert_sort` exchange neighbours that are in the wrong order, so elements that
are alike never pass each other. `select_sort` exchanges elements over any distance, and is not
stable. All three sort by any total preorder.

`StablyRearranged` is what exchanges of neighbours do to a part of the vector. The procedures are
`bubbleSort_spec`, `insertSort_spec` and `selectSort_spec`; as a stable order is unique, the first
two return the same vector (`exchangeSorts_sort`).
-/

namespace CppLearn.Sorting

open BoundedLoop CheckedVector Signed

variable {T : Type} [Preorder T] [DecidableLT T] {v w u : List T} {z : T} {lo hi i j m : ℕ}

/-- The positions from `lo` to `hi - 1` are rearranged, and elements that are alike stay in their
order. -/
structure StablyRearranged (lo hi : ℕ) (v w : List T) : Prop extends Rearranged lo hi v w where
  keeps : KeepsOrder id v w

namespace StablyRearranged

/-- Nothing has been moved. -/
theorem refl (lo hi : ℕ) (v : List T) : StablyRearranged lo hi v v :=
  ⟨.refl lo hi v, .refl id v⟩

/-- One rearrangement after another. -/
theorem trans (h : StablyRearranged lo hi v w) (h' : StablyRearranged lo hi w u) :
    StablyRearranged lo hi v u :=
  ⟨h.toRearranged.trans h'.toRearranged, h.keeps.trans h'.keeps⟩

end StablyRearranged

/-! ## The bodies of the loops -/

/-- The exchange of neighbours that are out of order, in `bubble_sort`, -/
theorem bubbleStep_eq (hj : j + 1 < v.length) (z : T) :
    bubbleStep (j + 1) v = if v.getD (j + 1) z < v.getD j z then
      swap v (j : ℤ) ((j + 1 : ℕ) : ℤ) else .ok v := by
  have hprev : ((j + 1 : ℕ) : ℤ) - 1 = j := by omega
  simp only [bubbleStep, hprev, read_ok (show j < v.length by omega) z, read_ok hj z, bind,
    Except.bind, gt_iff_lt]

/-- and in `insert_sort`, which stops at the first pair that is in order. -/
theorem insertStep_eq (hj : j + 1 < v.length) (z : T) :
    insertStep (v, ((j + 1 : ℕ) : ℤ)) =
      if v.getD (j + 1) z < v.getD j z then
        (swap v (j : ℤ) ((j + 1 : ℕ) : ℤ)).map fun w => .inl (w, (j : ℤ))
      else .ok (.inr v) := by
  have hprev : ((j + 1 : ℕ) : ℤ) - 1 = j := by omega
  simp only [insertStep, if_pos (show ((j + 1 : ℕ) : ℤ) > 0 by omega), hprev,
    read_ok (show j < v.length by omega) z, read_ok hj z, bind, Except.bind, gt_iff_lt]
  by_cases hlt : v.getD (j + 1) z < v.getD j z
  · rw [if_pos hlt, if_pos hlt]
    cases swap v (j : ℤ) ((j + 1 : ℕ) : ℤ) <;> rfl
  · rw [if_neg hlt, if_neg hlt]

/-- Nothing happens if the number of elements is converted to zero, or to a negative number. -/
theorem exchangeSorts_of_nonpos (h : narrow 32 v.length ≤ 0) :
    bubbleSort v = .ok v ∧ insertSort v = .ok v ∧ selectSort v = .ok v := by
  have hzero : (narrow 32 v.length).toNat = 0 := Int.toNat_eq_zero.2 h
  refine ⟨?_, ?_, ?_⟩
  · rw [bubbleSort, hzero]
    exact forLoop_of_le le_rfl
  · rw [insertSort, hzero]
    exact forLoop_of_le (Nat.zero_le 1)
  · rw [selectSort, hzero]
    exact forLoop_of_le le_rfl

/-! ## The loops -/

/-- The loops of `bubble_sort` without the conversions of the counters, -/
theorem bubbleSort_eq (hlen : v.length < 2 ^ 31) :
    bubbleSort v = forLoop 0 v.length (fun i => forLoop 1 (v.length - i) bubbleStep) v := by
  have hcount : ∀ i : ℕ, ((v.length : ℤ) - i).toNat = v.length - i := fun i => by omega
  simp only [bubbleSort, narrow_natCast (w := 32) (n := v.length) (by omega), Int.toNat_natCast,
    hcount]

/-- those of `insert_sort`, -/
theorem insertSort_eq (hlen : v.length < 2 ^ 31) :
    insertSort v = forLoop 1 v.length insertElement v := by
  rw [insertSort, narrow_natCast (w := 32) (n := v.length) (by omega), Int.toNat_natCast]

/-- and those of `select_sort`. -/
theorem selectSort_eq (hlen : v.length < 2 ^ 31) :
    selectSort v = forLoop 0 v.length (selectElement v.length) v := by
  simp only [selectSort, narrow_natCast (w := 32) (n := v.length) (by omega), Int.toNat_natCast]

variable [@Std.Total T (· ≤ ·)]

/-! ## `bubble_sort` -/

/-- An exchange of neighbours that are in the wrong order. -/
theorem exchange_spec (hlo : lo ≤ j) (hhi : j + 1 < hi) (hlen : j + 1 < v.length)
    (hlt : v.getD (j + 1) z < v.getD j z) :
    ∃ w, swap v (j : ℤ) ((j + 1 : ℕ) : ℤ) = .ok w ∧ StablyRearranged lo hi v w ∧
      (fun k => w.getD k z) = (fun k => v.getD k z) ∘ Equiv.swap j (j + 1) := by
  obtain ⟨w, hw, hre, -, hget⟩ := swap_rearranged hlo (by omega) (by omega : lo ≤ j + 1) hhi
    (by omega) hlen
  refine ⟨w, hw, ⟨hre, ?_⟩, hget z⟩
  have hsplit : v = v.take j ++ v[j] :: v[j + 1] :: v.drop (j + 2) := by
    rw [← List.drop_eq_getElem_cons, ← List.drop_eq_getElem_cons, List.take_append_drop]
  have hj : (v.take j).length = j := by
    rw [List.length_take]
    omega
  have hlt' : id v[j + 1] < id v[j] := by
    simpa [hlen, show j < v.length by omega] using hlt
  have hswap := swap_append_cons (v.take j) (v.drop (j + 2)) v[j] v[j + 1]
  rw [hj, ← hsplit, hw] at hswap
  rw [Except.ok.inj hswap]
  have hkeeps := KeepsOrder.of_lt hlt' (v.take j) (v.drop (j + 2))
  rwa [← hsplit] at hkeeps

/-- The largest of the elements up to position `j` goes to this position. -/
theorem bubbleStep_spec (hlen : j + 1 < v.length) (hhi : j + 1 < hi)
    (hmax : ∀ k ≤ j, v.getD k z ≤ v.getD j z) :
    ∃ w, bubbleStep (j + 1) v = .ok w ∧ StablyRearranged 0 hi v w ∧
      ∀ k ≤ j + 1, w.getD k z ≤ w.getD (j + 1) z := by
  have hstep := bubbleStep_eq hlen z
  by_cases hlt : v.getD (j + 1) z < v.getD j z
  · obtain ⟨w, hw, hre, hget⟩ := exchange_spec (Nat.zero_le j) hhi hlen hlt
    refine ⟨w, by rw [hstep, if_pos hlt, hw], hre, fun k hk => ?_⟩
    have hk' := congrFun hget k
    have hj' := congrFun hget (j + 1)
    simp only [Function.comp_apply, Equiv.swap_apply_right] at hk' hj'
    rw [hk', hj']
    rcases eq_or_ne k (j + 1) with rfl | hne
    · rw [Equiv.swap_apply_right]
    rcases eq_or_ne k j with rfl | hne'
    · rw [Equiv.swap_apply_left]
      exact hlt.le
    · rw [Equiv.swap_apply_of_ne_of_ne hne' hne]
      exact hmax k (by omega)
  · refine ⟨v, by rw [hstep, if_neg hlt], .refl 0 hi v, fun k hk => ?_⟩
    rcases hk.eq_or_lt with rfl | hk
    · exact le_rfl
    · exact (hmax k (by omega)).trans (le_of_not_lt hlt)

/-- The inner loop. -/
theorem bubblePass_spec (hm : m + 1 ≤ v.length) (z : T) :
    ∃ w, forLoop 1 (m + 1) bubbleStep v = .ok w ∧ StablyRearranged 0 (m + 1) v w ∧
      ∀ k ≤ m, w.getD k z ≤ w.getD m z := by
  -- after `j` the largest of the elements up to position `j` is at this position
  refine forLoop_spec (I := fun j w => StablyRearranged 0 (m + 1) v w ∧
    ∀ k ≤ j - 1, w.getD k z ≤ w.getD (j - 1) z) ?_ (by omega) ⟨.refl _ _ v, fun k hk => ?_⟩
  · rintro j w hj hjm ⟨hre, hmax⟩
    obtain ⟨j, rfl⟩ := Nat.exists_eq_add_of_le' hj
    rw [Nat.add_sub_cancel] at hmax
    obtain ⟨w', hw', hre', hmax'⟩ := bubbleStep_spec (by rw [hre.length_eq]; omega) hjm hmax
    exact ⟨w', hw', hre.trans hre', hmax'⟩
  · rw [Nat.le_zero.1 hk]

/-- `bubble_sort`. -/
theorem bubbleSort_spec (hlen : v.length < 2 ^ 31) :
    ∃ w, bubbleSort v = .ok w ∧ StablySorted id v w := by
  rcases eq_or_ne v [] with rfl | hne
  · exact ⟨[], by rw [bubbleSort_eq hlen]; rfl, .refl _, .nil, .refl id []⟩
  obtain ⟨z, -⟩ := List.exists_mem_of_ne_nil v hne
  -- the elements from position `v.length - i` on are not smaller than those before them
  obtain ⟨w, hw, hre, hlast⟩ : ∃ w, bubbleSort v = .ok w ∧ (StablyRearranged 0 v.length v w ∧
      ∀ l, v.length - v.length ≤ l → l < v.length → ∀ k ≤ l, w.getD k z ≤ w.getD l z) := by
    rw [bubbleSort_eq hlen]
    refine forLoop_spec (I := fun i w => StablyRearranged 0 v.length v w ∧
      ∀ l, v.length - i ≤ l → l < v.length → ∀ k ≤ l, w.getD k z ≤ w.getD l z) ?_ (Nat.zero_le _)
      ⟨.refl _ _ v, fun l hl hl' => by omega⟩
    rintro i w - hi ⟨hre, hlast⟩
    obtain ⟨m, hm⟩ : ∃ m, v.length - i = m + 1 := ⟨v.length - i - 1, by omega⟩
    rw [hm] at hlast ⊢
    obtain ⟨w', hw', hre', hmax⟩ := bubblePass_spec (v := w) (m := m)
      (by rw [hre.length_eq]; omega) z
    refine ⟨w', hw', hre.trans ⟨hre'.mono le_rfl (by omega), hre'.keeps⟩, fun l hl hl' k hk => ?_⟩
    by_cases hlm : l = m
    · subst hlm
      exact hmax k hk
    · rw [hre'.getD_eq (k := l) (by omega)]
      by_cases hkm : k ≤ m
      · exact hre'.forall_getD (P := (· ≤ w.getD l z))
          (fun k _ hk => hlast l (by omega) hl' k (by omega)) (Nat.zero_le k) (by omega)
      · rw [hre'.getD_eq (k := k) (by omega)]
        exact hlast l (by omega) hl' k hk
  refine ⟨w, hw, hre.perm, pairwise_of_monotoneOn (d := z) ?_, hre.keeps⟩
  rintro k - l ⟨-, hl⟩ hkl
  rw [hre.length_eq] at hl
  exact hlast l (by omega) hl k hkl

/-! ## `insert_sort` -/

/-- One more element of a sorted beginning. -/
theorem insertElement_spec (hi : i < v.length)
    (h : MonotoneOn (fun k => v.getD k z) (Set.Ico 0 i)) :
    ∃ w, insertElement i v = .ok w ∧ StablyRearranged 0 (i + 1) v w ∧
      MonotoneOn (fun k => w.getD k z) (Set.Ico 0 (i + 1)) := by
  -- only the element that is inserted can be out of order, and it has come down to position `m`
  refine iterate_spec (I := fun m (s : List T × ℤ) => ∃ w, s = (w, (m : ℤ)) ∧ m ≤ i ∧
    StablyRearranged 0 (i + 1) v w ∧ OrderedExcept (fun k => w.getD k z) m i) ?_
    ⟨v, rfl, le_rfl, .refl _ _ v, orderedExcept_of_monotoneOn h⟩ (Nat.lt_succ_self i)
  rintro m _ ⟨w, rfl, hm, hre, hordered⟩
  cases m with
  | zero => exact .inl ⟨w, rfl, hre, hordered.monotoneOn fun hpos => absurd hpos (lt_irrefl 0)⟩
  | succ j =>
    have hlen : j + 1 < w.length := by
      rw [hre.length_eq]
      omega
    have hstep := insertStep_eq hlen z
    by_cases hlt : w.getD (j + 1) z < w.getD j z
    · obtain ⟨w', hw', hre', hget⟩ := exchange_spec (Nat.zero_le j) (Nat.lt_succ_of_le hm) hlen hlt
      rw [if_pos hlt, hw'] at hstep
      refine .inr ⟨_, j, hstep, Nat.lt_succ_self j, w', rfl, by omega, hre.trans hre', ?_⟩
      rw [hget]
      exact hordered.swap hm hlt
    -- the loop is left by `break`
    · rw [if_neg hlt] at hstep
      exact .inl ⟨w, hstep, hre, hordered.monotoneOn fun _ => le_of_not_lt hlt⟩

/-- Insertions of the elements before position `hi`. -/
theorem insertElements_spec (hhi : hi ≤ v.length) (z : T) :
    ∃ w, forLoop 1 hi insertElement v = .ok w ∧ StablyRearranged 0 hi v w ∧
      MonotoneOn (fun k => w.getD k z) (Set.Ico 0 hi) := by
  rcases Nat.lt_or_ge hi 1 with hzero | hpos
  · refine ⟨v, forLoop_of_le hzero.le, .refl 0 hi v, monotoneOn_Ico_of_le hzero.le⟩
  refine forLoop_spec (I := fun i w => StablyRearranged 0 hi v w ∧
    MonotoneOn (fun k => w.getD k z) (Set.Ico 0 i)) ?_ hpos
    ⟨.refl 0 hi v, monotoneOn_Ico_of_le le_rfl⟩
  rintro i w - hi ⟨hre, hsorted⟩
  obtain ⟨w', hw', hre', hsorted'⟩ := insertElement_spec (by rw [hre.length_eq]; omega) hsorted
  exact ⟨w', hw', hre.trans ⟨hre'.mono le_rfl hi, hre'.keeps⟩, hsorted'⟩

/-- `insert_sort` rearranges the elements, however many there are. -/
theorem insertSort_perm (v : List T) : ∃ w, insertSort v = .ok w ∧ w.Perm v := by
  rcases eq_or_ne v [] with rfl | hne
  · exact ⟨[], by rw [insertSort_eq (by simp)]; rfl, .refl _⟩
  obtain ⟨z, -⟩ := List.exists_mem_of_ne_nil v hne
  have hcount : (narrow 32 v.length).toNat ≤ v.length := by
    have hle := narrow_le (w := 32) (Int.natCast_nonneg v.length)
    omega
  obtain ⟨w, hw, hre, -⟩ := insertElements_spec hcount z
  exact ⟨w, hw, hre.perm⟩

/-- `insert_sort`. -/
theorem insertSort_spec (hlen : v.length < 2 ^ 31) :
    ∃ w, insertSort v = .ok w ∧ StablySorted id v w := by
  rcases eq_or_ne v [] with rfl | hne
  · exact ⟨[], by rw [insertSort_eq hlen]; rfl, .refl _, .nil, .refl id []⟩
  obtain ⟨z, -⟩ := List.exists_mem_of_ne_nil v hne
  obtain ⟨w, hw, hre, hsorted⟩ := insertElements_spec (v := v) le_rfl z
  rw [← hre.length_eq] at hsorted
  exact ⟨w, by rw [insertSort_eq hlen, hw], hre.perm, pairwise_of_monotoneOn hsorted, hre.keeps⟩

/-! ## `select_sort` -/

/-- The body of the outer loop: a smallest one of the remaining elements goes to position `i`. -/
theorem selectElement_spec (hi : i < v.length) (z : T) :
    ∃ w, selectElement v.length i v = .ok w ∧ Rearranged i v.length v w ∧
      ∀ k, i ≤ k → k < v.length → w.getD i z ≤ w.getD k z := by
  obtain ⟨s, hs, index, hsi, hindex, hlt, hmin⟩ : ∃ s,
      forLoop (i + 1) v.length (selectStep v) (v.getD i z, (i : ℤ)) = .ok s ∧
      ∃ index : ℕ, s = (v.getD index z, (index : ℤ)) ∧ i ≤ index ∧ index < v.length ∧
        ∀ k, i ≤ k → k < v.length → v.getD index z ≤ v.getD k z := by
    -- the smallest of the elements from position `i` up to `j`, with its position
    refine forLoop_spec (I := fun j s => ∃ index : ℕ, s = (v.getD index z, (index : ℤ)) ∧
      i ≤ index ∧ index < v.length ∧ ∀ k, i ≤ k → k < j → v.getD index z ≤ v.getD k z) ?_ hi
      ⟨i, rfl, le_rfl, hi, fun k hk hk' => by rw [show k = i by omega]⟩
    rintro j _ hij hj ⟨index, rfl, hindex, hlt, hmin⟩
    by_cases hless : v.getD j z < v.getD index z
    · refine ⟨(v.getD j z, (j : ℤ)), ?_, j, rfl, by omega, hj, fun k hk hk' => ?_⟩
      · simp only [selectStep, read_ok hj z, bind, Except.bind, if_pos hless]
      · rcases (Nat.le_of_lt_succ hk').eq_or_lt with rfl | hk'
        · exact le_rfl
        · exact hless.le.trans (hmin k hk hk')
    · refine ⟨(v.getD index z, (index : ℤ)), ?_, index, rfl, hindex, hlt, fun k hk hk' => ?_⟩
      · simp only [selectStep, read_ok hj z, bind, Except.bind, if_neg hless]
      · rcases (Nat.le_of_lt_succ hk').eq_or_lt with rfl | hk'
        · exact le_of_not_lt hless
        · exact hmin k hk hk'
  obtain ⟨w, hw, hre, -, hget⟩ := swap_rearranged (v := v) le_rfl hi hindex hlt hi hlt
  refine ⟨w, ?_, hre, fun k hk hk' => ?_⟩
  · rw [← hw]
    simp only [selectElement, read_ok hi z, Int.toNat_natCast, bind, Except.bind, hs, hsi]
  · have hfirst := congrFun (hget z) i
    simp only [Function.comp_apply, Equiv.swap_apply_left] at hfirst
    rw [hfirst]
    exact hre.forall_getD (P := (v.getD index z ≤ ·)) hmin hk hk'

/-- `select_sort`. -/
theorem selectSort_spec (hlen : v.length < 2 ^ 31) :
    ∃ w, selectSort v = .ok w ∧ w.Perm v ∧ w.Pairwise (· ≤ ·) := by
  rcases eq_or_ne v [] with rfl | hne
  · exact ⟨[], by rw [selectSort_eq hlen]; rfl, .refl _, .nil⟩
  obtain ⟨z, -⟩ := List.exists_mem_of_ne_nil v hne
  -- the first `i` elements are not larger than those behind them
  obtain ⟨w, hw, hre, hfirst⟩ : ∃ w, selectSort v = .ok w ∧ (Rearranged 0 v.length v w ∧
      ∀ k < v.length, ∀ l, k ≤ l → l < v.length → w.getD k z ≤ w.getD l z) := by
    rw [selectSort_eq hlen]
    refine forLoop_spec (I := fun i w => Rearranged 0 v.length v w ∧
      ∀ k < i, ∀ l, k ≤ l → l < v.length → w.getD k z ≤ w.getD l z) ?_ (Nat.zero_le _)
      ⟨.refl _ _ v, fun k hk => absurd hk (Nat.not_lt_zero k)⟩
    rintro i w - hi ⟨hre, hfirst⟩
    obtain ⟨w', hw', hre', hmin⟩ := selectElement_spec (hi.trans_eq hre.length_eq.symm) z
    rw [hre.length_eq] at hw' hre' hmin
    refine ⟨w', hw', hre.trans (hre'.mono (Nat.zero_le i) le_rfl), fun k hk l hkl hl => ?_⟩
    rcases (Nat.le_of_lt_succ hk).eq_or_lt with rfl | hki
    · exact hmin l hkl hl
    · rw [hre'.getD_eq (.inl hki)]
      by_cases hli : l < i
      · rw [hre'.getD_eq (.inl hli)]
        exact hfirst k hki l hkl hl
      · exact hre'.forall_getD (P := (w.getD k z ≤ ·))
          (fun l hil hl => hfirst k hki l (by omega) hl) (not_lt.1 hli) hl
  refine ⟨w, hw, hre.perm, pairwise_of_monotoneOn (d := z) ?_⟩
  rintro k ⟨-, hk⟩ l ⟨-, hl⟩ hkl
  rw [hre.length_eq] at hk hl
  exact hfirst k hk l hkl hl

/-! ## The three procedures -/

/-- All three procedures sort by a total preorder. The first two are stable, and so they return the
same vector. -/
theorem exchangeSorts_sort (v : List T) (hlen : v.length < 2 ^ 31) :
    (∃ w, bubbleSort v = .ok w ∧ insertSort v = .ok w ∧ StablySorted id v w) ∧
    ∃ w, selectSort v = .ok w ∧ w.Perm v ∧ w.Pairwise (· ≤ ·) := by
  obtain ⟨w, hw, hsorted⟩ := bubbleSort_spec hlen
  obtain ⟨w', hw', hsorted'⟩ := insertSort_spec hlen
  obtain rfl := hsorted.unique hsorted'
  exact ⟨⟨w, hw, hw', hsorted⟩, selectSort_spec hlen⟩

/-- A record that is compared by its key. -/
structure Record where
  key : ℤ
  data : ℤ
  deriving DecidableEq

instance : Preorder Record where
  le x y := x.key ≤ y.key
  lt x y := x.key < y.key
  le_refl x := le_refl x.key
  le_trans _ _ _ := le_trans
  lt_iff_le_not_ge _ _ := lt_iff_le_not_ge

instance : @Std.Total Record (· ≤ ·) := ⟨fun x y => le_total x.key y.key⟩

instance : DecidableLT Record := fun x y => inferInstanceAs (Decidable (x.key < y.key))

/-- Three records, two of them with the same key. -/
theorem exchangeSorts_sort_records :
    (∃ w, bubbleSort [⟨2, 0⟩, ⟨1, 0⟩, (⟨1, 1⟩ : Record)] = .ok w ∧
      insertSort [⟨2, 0⟩, ⟨1, 0⟩, (⟨1, 1⟩ : Record)] = .ok w ∧
      StablySorted id [⟨2, 0⟩, ⟨1, 0⟩, ⟨1, 1⟩] w) ∧
    ∃ w, selectSort [⟨2, 0⟩, ⟨1, 0⟩, (⟨1, 1⟩ : Record)] = .ok w ∧
      w.Perm [⟨2, 0⟩, ⟨1, 0⟩, ⟨1, 1⟩] ∧ w.Pairwise (· ≤ ·) :=
  exchangeSorts_sort (T := Record) [⟨2, 0⟩, ⟨1, 0⟩, ⟨1, 1⟩] (by decide)

/-- The number of elements is converted to a negative number. -/
theorem exchangeSorts_overflow :
    bubbleSort (1 :: List.replicate (2 ^ 31) (0 : ℤ)) = .ok (1 :: List.replicate (2 ^ 31) 0) ∧
    insertSort (1 :: List.replicate (2 ^ 31) (0 : ℤ)) = .ok (1 :: List.replicate (2 ^ 31) 0) ∧
    selectSort (1 :: List.replicate (2 ^ 31) (0 : ℤ)) = .ok (1 :: List.replicate (2 ^ 31) 0) ∧
    ¬(1 :: List.replicate (2 ^ 31) (0 : ℤ)).Pairwise (· ≤ ·) := by
  have hlen : (1 :: List.replicate (2 ^ 31) (0 : ℤ)).length = 2 ^ 31 + 1 := by
    rw [List.length_cons, List.length_replicate]
  obtain ⟨hbubble, hinsert, hselect⟩ :=
    exchangeSorts_of_nonpos (v := 1 :: List.replicate (2 ^ 31) (0 : ℤ)) (by
      rw [hlen]
      decide)
  exact ⟨hbubble, hinsert, hselect,
    not_pairwise_cons_replicate (by decide) (Nat.two_pow_pos 31).ne'⟩

end CppLearn.Sorting

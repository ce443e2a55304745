import CppLearn.Lib.Rearrangement
import CppLearn.Sorting.Defs

/-!
# `quick_sort` sorts, but writes back converted pivots

The pivot moves between the two ends of the part that is not yet compared, so `_partition`
rearranges the elements, and then overwrites the pivot by the value that was saved in `val`. This
changes nothing if all elements are values of `int32_t`. In general, an element that is not kept by
the conversion to `int32_t` and back can be chosen as a pivot, and is lost.

One partition is `partition_spec`. Relations between a range before and after it was sorted follow
by the rule `quickSort_rule`. So vectors of `int32_t` are sorted (`quickSort_sorts`), and
`quickSort_perm_iff` are the vectors that keep their elements.
-/

namespace CppLearn.Sorting

open BoundedLoop CheckedVector Signed

variable {T : Type} [LinearOrder T] {arr w : List T} {lo hi l r : ℕ} {val p d : T}
  {c : PivotConversion T}

/-! ## The inner loops -/

/-- The loop stops at the left end, or at an element that is smaller than the pivot. -/
theorem scanRight_spec (hle : l ≤ r) (hr : r < arr.length) (val d : T) :
    ∃ r' : ℕ, scanRight arr val l r = .ok r' ∧ l ≤ r' ∧ r' ≤ r ∧
      (∀ k, r' < k → k ≤ r → val ≤ arr.getD k d) ∧ (l < r' → arr.getD r' d < val) := by
  have hcond : ∀ n ≤ r - l, (if (l : ℤ) < ((r - n : ℕ) : ℤ) then do
      let x ← read arr ((r - n : ℕ) : ℤ)
      .ok (decide (val ≤ x)) else .ok false : Except Fault Bool) =
        .ok (decide (l < r - n ∧ val ≤ arr.getD (r - n) d)) := by
    -- the conditions of the loop, in terms of the number of steps made so far
    intro n _
    by_cases hlt : l < r - n
    · rw [if_pos (Int.ofNat_lt.2 hlt), read_ok (by omega) d]
      simp [hlt, bind, Except.bind]
    · rw [if_neg (mt Int.ofNat_lt.1 hlt)]
      simp [hlt]
  have hbody : ∀ n < r - l, (.ok (((r - n : ℕ) : ℤ) - 1) : Except Fault ℤ) =
      .ok ((r - (n + 1) : ℕ) : ℤ) := by
    intro n hn
    rw [show ((r - n : ℕ) : ℤ) - 1 = (r - (n + 1) : ℕ) by omega]
  have hloop : ∃ n ≤ r - l, scanRight arr val l r = .ok ((r - n : ℕ) : ℤ) ∧
      decide (l < r - n ∧ val ≤ arr.getD (r - n) d) = false ∧
      ∀ k < n, decide (l < r - k ∧ val ≤ arr.getD (r - k) d) = true :=
    whileLoop_first (a := fun n => ((r - n : ℕ) : ℤ)) hcond hbody
      (decide_eq_false (by omega)) (by omega)
  obtain ⟨n, hn, hrun, hstop, hbefore⟩ := hloop
  refine ⟨r - n, hrun, by omega, Nat.sub_le r n, fun k hk hkr => ?_, by simpa using hstop⟩
  have hval := hbefore (r - k) (by omega)
  rw [Nat.sub_sub_self hkr] at hval
  exact (of_decide_eq_true hval).2

/-- The loop stops at the right end, or at an element that is larger than the pivot. -/
theorem scanLeft_spec (hle : l ≤ r) (hr : r < arr.length) (val d : T) :
    ∃ l' : ℕ, scanLeft arr val l r = .ok l' ∧ l ≤ l' ∧ l' ≤ r ∧
      (∀ k, l ≤ k → k < l' → arr.getD k d ≤ val) ∧ (l' < r → val < arr.getD l' d) := by
  have hcond : ∀ n ≤ r - l, (if ((l + n : ℕ) : ℤ) < r then do
      let x ← read arr ((l + n : ℕ) : ℤ)
      .ok (decide (x ≤ val)) else .ok false : Except Fault Bool) =
        .ok (decide (l + n < r ∧ arr.getD (l + n) d ≤ val)) := by
    -- the conditions of the loop, in terms of the number of steps made so far
    intro n _
    by_cases hlt : l + n < r
    · rw [if_pos (Int.ofNat_lt.2 hlt), read_ok (by omega) d]
      simp [hlt, bind, Except.bind]
    · rw [if_neg (mt Int.ofNat_lt.1 hlt)]
      simp [hlt]
  have hbody : ∀ n < r - l, (.ok (((l + n : ℕ) : ℤ) + 1) : Except Fault ℤ) =
      .ok ((l + (n + 1) : ℕ) : ℤ) := fun _ _ => rfl
  have hloop : ∃ n ≤ r - l, scanLeft arr val l r = .ok ((l + n : ℕ) : ℤ) ∧
      decide (l + n < r ∧ arr.getD (l + n) d ≤ val) = false ∧
      ∀ k < n, decide (l + k < r ∧ arr.getD (l + k) d ≤ val) = true :=
    whileLoop_first (a := fun n => ((l + n : ℕ) : ℤ)) hcond hbody
      (decide_eq_false (by omega)) (by omega)
  obtain ⟨n, hn, hrun, hstop, hbefore⟩ := hloop
  refine ⟨l + n, hrun, Nat.le_add_right l n, by omega, fun k hlk hk => ?_, by simpa using hstop⟩
  have hval := hbefore (k - l) (by omega)
  rw [Nat.add_sub_of_le hlk] at hval
  exact (of_decide_eq_true hval).2

/-! ## `_partition` -/

/-- The elements at `lo, ..., l - 1` are at most `val`, and those at `r + 1, ..., hi - 1` are at
least `val`. -/
structure Split (a : ℕ → T) (val : T) (lo l r hi : ℕ) : Prop where
  lo_le : lo ≤ l
  le : l ≤ r
  lt : r < hi
  below : ∀ k, lo ≤ k → k < l → a k ≤ val
  above : ∀ k, r < k → k < hi → val ≤ a k

/-- An iteration of the outer loop: the pivot is at the left end again, and less is left to do. -/
theorem partitionStep_spec (h : Split (fun k => arr.getD k d) val lo l r hi) (hlt : l < r)
    (hhi : hi ≤ arr.length) :
    ∃ (w : List T) (l' r' : ℕ), partitionStep val (arr, (l : ℤ), (r : ℤ)) =
        .ok (w, (l' : ℤ), (r' : ℤ)) ∧ r' - l' < r - l ∧ Rearranged lo hi arr w ∧
      w[l']? = arr[l]? ∧ Split (fun k => w.getD k d) val lo l' r' hi := by
  have hr := h.lt
  have hlo := h.lo_le
  obtain ⟨r', hscan, hlr', hr'r, hge, hsmaller⟩ := scanRight_spec hlt.le (hr.trans_le hhi) val d
  obtain ⟨u, hu, hre, hcell, hget⟩ := swap_rearranged (v := arr) (i := l) (j := r') hlo
    (show l < hi by omega) (hlo.trans hlr') (show r' < hi by omega) (by omega) (by omega)
  have hget : ∀ k, u.getD k d = arr.getD (Equiv.swap l r' k) d := congrFun (hget d)
  have hulen := hre.length_eq
  obtain ⟨l', hscan', hll', hl'r', hle, hlarger⟩ :=
    scanLeft_spec hlr' (show r' < u.length by omega) val d
  obtain ⟨w, hw, hre', hcell', hget'⟩ := swap_rearranged (v := u) (i := l') (j := r')
    (hlo.trans hll') (show l' < hi by omega) (hlo.trans hlr') (show r' < hi by omega) (by omega)
    (by omega)
  have hget' : ∀ k, w.getD k d = u.getD (Equiv.swap l' r' k) d := congrFun (hget' d)
  -- the first exchange puts a smaller element in the place of the pivot
  have hprogress : l < r' → l < l' := by
    intro hlr'
    refine hll'.lt_of_ne fun heq => ?_
    have hlarge := hlarger (heq ▸ hlr')
    rw [← heq, hget, Equiv.swap_apply_left] at hlarge
    exact lt_asymm hlarge (hsmaller hlr')
  refine ⟨w, l', r', ?_, by omega, hre.trans hre', ?_, hlo.trans hll', hl'r', by omega,
    fun k hlok hk => ?_, fun k hk hkhi => ?_⟩
  · rw [partitionStep]
    exact bind_eq_ok.2 ⟨_, hscan, bind_eq_ok.2 ⟨_, hu, bind_eq_ok.2 ⟨_, hscan',
      bind_eq_ok.2 ⟨_, hw, rfl⟩⟩⟩⟩
  · rw [hcell', Equiv.swap_apply_left, hcell, Equiv.swap_apply_right]
  · simp only [hget', Equiv.swap_apply_of_ne_of_ne hk.ne (show k ≠ r' by omega)]
    by_cases hkl : k < l
    · rw [hget, Equiv.swap_apply_of_ne_of_ne hkl.ne (by omega)]
      exact h.below k hlok hkl
    · exact hle k (not_lt.1 hkl) hk
  · simp only [hget', Equiv.swap_apply_of_ne_of_ne (show k ≠ l' by omega) hk.ne', hget,
      Equiv.swap_apply_of_ne_of_ne (show k ≠ l by omega) hk.ne']
    by_cases hkr : k ≤ r
    · exact hge k hk hkr
    · exact h.above k (not_le.1 hkr) hkhi

/-- The whole loop: the pivot gets to a place between the elements that are at most, and those that
are at least, the saved value. -/
theorem partitionLoop_spec (hlt : lo < hi) (hhi : hi ≤ arr.length) (val d : T) :
    ∃ (u : List T) (mid : ℕ), whileLoop (fun _ => .diverged)
        (fun s => .ok (decide (s.2.1 < s.2.2))) (partitionStep val) (hi - 1 - lo + 1)
        (arr, (lo : ℤ), ((hi - 1 : ℕ) : ℤ)) = .ok (u, (mid : ℤ), (mid : ℤ)) ∧
      Rearranged lo hi arr u ∧ u[mid]? = arr[lo]? ∧
      Split (fun k => u.getD k d) val lo mid mid hi := by
  have hloop : ∃ s : List T × ℤ × ℤ, whileLoop (fun _ => .diverged)
      (fun s : List T × ℤ × ℤ => .ok (decide (s.2.1 < s.2.2))) (partitionStep val) (hi - 1 - lo + 1)
      (arr, (lo : ℤ), ((hi - 1 : ℕ) : ℤ)) = .ok s ∧ ∃ (u : List T) (mid : ℕ),
        s = (u, (mid : ℤ), (mid : ℤ)) ∧ Rearranged lo hi arr u ∧ u[mid]? = arr[lo]? ∧
        Split (fun k => u.getD k d) val lo mid mid hi := by
    refine whileLoop_spec (I := fun n s => ∃ (w : List T) (l r : ℕ), s = (w, (l : ℤ), (r : ℤ)) ∧
      n = r - l ∧ Rearranged lo hi arr w ∧ w[l]? = arr[lo]? ∧
      Split (fun k => w.getD k d) val lo l r hi) ?_ (fun _ _ _ => ⟨_, rfl⟩) ?_
      ⟨arr, lo, hi - 1, rfl, rfl, .refl lo hi arr, rfl, le_rfl, by omega, by omega,
        fun k hk hk' => absurd hk' hk.not_gt, fun k hk hk' => absurd hk' (by omega)⟩
      (Nat.lt_succ_self _)
    · -- the ends have met at the pivot
      rintro _ _ ⟨w, l, r, rfl, -, hre, hpivot, hsplit⟩ hexit
      have hge : ¬(l : ℤ) < r := by simpa using hexit
      obtain rfl : l = r := le_antisymm hsplit.le (by omega)
      exact ⟨w, l, rfl, hre, hpivot, hsplit⟩
    · rintro _ _ ⟨w, l, r, rfl, rfl, hre, hpivot, hsplit⟩ hon
      have hlr : l < r := by simpa using hon
      obtain ⟨w', l', r', hrun, hless, hre', hpivot', hsplit'⟩ :=
        partitionStep_spec hsplit hlr (hre.length_eq ▸ hhi)
      exact ⟨_, r' - l', hrun, hless, w', l', r', rfl, rfl, hre.trans hre', hpivot'.trans hpivot,
        hsplit'⟩
  obtain ⟨_, hrun, u, mid, rfl, hrest⟩ := hloop
  exact ⟨u, mid, hrun, hrest⟩

/-- One partition: the elements are rearranged, and the pivot is overwritten by its saved value. -/
theorem partition_spec (c : PivotConversion T) (draw : ℕ) (hlt : lo < hi) (hhi : hi ≤ arr.length)
    (hsize : hi < 2 ^ 31) (d : T) :
    ∃ (u : List T) (mid : ℕ) (p : T), partition c draw arr lo ((hi : ℤ) - 1) =
        .ok (u.set mid (c.saved p), (mid : ℤ)) ∧ arr[lo + draw % (hi - lo)]? = some p ∧
      Rearranged lo hi arr u ∧ u[mid]? = some p ∧
      Split (fun k => u.getD k d) (c.saved p) lo mid mid hi := by
  have hmod : draw % (hi - lo) < hi - lo := Nat.mod_lt _ (by omega)
  -- the index of the pivot is computed in `int`, and fits
  have hnarrow : narrow 32 ((hi : ℤ) - 1 - lo + 1) = (hi - lo : ℕ) := by
    rw [narrow_eq ⟨by omega, by omega⟩]
    omega
  have hindex : narrow 32 ((lo : ℤ) + (draw : ℤ).tmod ((hi - lo : ℕ) : ℤ)) =
      (lo + draw % (hi - lo) : ℕ) := by
    rw [← Int.ofNat_tmod, narrow_eq ⟨by omega, by omega⟩]
    push_cast
    rfl
  have hright : (hi : ℤ) - 1 = (hi - 1 : ℕ) := by omega
  have hfuel : (((hi - 1 : ℕ) : ℤ) - lo).toNat + 1 = hi - 1 - lo + 1 := by omega
  -- the pivot is moved to the front before the loop
  obtain ⟨v, hv, hre, hcell, -⟩ := swap_rearranged (v := arr) (i := lo)
    (j := lo + draw % (hi - lo)) le_rfl hlt (Nat.le_add_right _ _) (show _ < hi by omega) (by omega)
    (by omega)
  have hlen := hre.length_eq
  have hpivot : v[lo]? = some (v.getD lo d) := by
    rw [List.getD_eq_getElem?_getD, List.getElem?_eq_getElem (by omega), Option.getD_some]
  obtain ⟨u, mid, hloop, hre', hmid, hsplit⟩ :=
    partitionLoop_spec hlt (hlen ▸ hhi) (c.saved (v.getD lo d)) d
  refine ⟨u, mid, v.getD lo d, ?_, ?_, hre.trans hre', hmid.trans hpivot, hsplit⟩
  · have hwrite : write u (mid : ℤ) (c.saved (v.getD lo d)) =
        .ok (u.set mid (c.saved (v.getD lo d))) :=
      write_ok (by rw [hre'.length_eq]; exact hsplit.lt.trans_le (hlen ▸ hhi)) _
    rw [partition, hnarrow, hindex, hright, hfuel]
    exact bind_eq_ok.2 ⟨v, hv, bind_eq_ok.2 ⟨_, read_ok (by omega) d, bind_eq_ok.2 ⟨_, hloop,
      bind_eq_ok.2 ⟨_, hwrite, rfl⟩⟩⟩⟩
  · rw [← hpivot, hcell, Equiv.swap_apply_left]

/-! ## The recursion -/

/-- The calls that one call makes. -/
theorem quickSort_of_partition {rand : ℕ → ℕ} {fuel used : ℕ} {start stop mid : ℤ}
    {s s' : ℕ × List T} (hlt : start < stop)
    (hpartition : partition c (rand used) arr start stop = .ok (w, mid))
    (hleft : quickSort c rand fuel (used + 1, w) start (narrow 32 (mid - 1)) = .ok s)
    (hright : quickSort c rand fuel s (narrow 32 (mid + 1)) stop = .ok s') :
    quickSort c rand (fuel + 1) (used, arr) start stop = .ok s' := by
  rw [quickSort, if_pos hlt]
  exact bind_eq_ok.2 ⟨_, hpartition, bind_eq_ok.2 ⟨_, hleft, hright⟩⟩

/-- A range with at most one element is left as it is. -/
theorem quickSort_of_short (c : PivotConversion T) (rand : ℕ → ℕ) {fuel : ℕ} (s : ℕ × List T)
    (hshort : hi ≤ lo + 1) (hfuel : 0 < fuel) :
    quickSort c rand fuel s lo ((hi : ℤ) - 1) = .ok s := by
  obtain ⟨fuel, rfl⟩ := Nat.exists_eq_add_of_le' hfuel
  rw [quickSort, if_neg (by omega)]

/-- A relation between the vectors before and after a range is sorted: it holds for short ranges
without a change, and passes from the two parts of a partition to the whole. -/
theorem quickSort_rule (c : PivotConversion T) (rand : ℕ → ℕ) (d : T)
    {R : ℕ → ℕ → List T → List T → Prop}
    (hsmall : ∀ lo hi v, hi ≤ lo + 1 → R lo hi v v)
    (hstep : ∀ lo hi mid p v u w w', Rearranged lo hi v u → u[mid]? = some p →
      Split (fun k => u.getD k d) (c.saved p) lo mid mid hi →
      R lo mid (u.set mid (c.saved p)) w → R (mid + 1) hi w w' → R lo hi v w')
    {fuel : ℕ} (used : ℕ) (hle : lo ≤ hi) (hhi : hi ≤ arr.length) (hsize : hi < 2 ^ 31)
    (hfuel : hi - lo < fuel) :
    ∃ used' w, quickSort c rand fuel (used, arr) lo ((hi : ℤ) - 1) = .ok (used', w) ∧
      w.length = arr.length ∧ R lo hi arr w := by
  induction fuel generalizing lo hi arr used with
  | zero => exact absurd hfuel (Nat.not_lt_zero _)
  | succ fuel ih =>
    by_cases hlt : lo + 1 < hi
    · -- both parts are shorter, since the pivot is in neither of them
      obtain ⟨u, mid, p, hpartition, -, hre, hp, hsplit⟩ :=
        partition_spec c (rand used) (show lo < hi by omega) hhi hsize d
      have hlow := hsplit.lo_le
      have hhigh := hsplit.lt
      have hulen : (u.set mid (c.saved p)).length = arr.length := by
        rw [List.length_set, hre.length_eq]
      obtain ⟨used₁, w, hleft, hlen, hR⟩ := ih (used + 1) hlow
        (show mid ≤ (u.set mid (c.saved p)).length by omega) (by omega) (by omega)
      obtain ⟨used₂, w', hright, hlen', hR'⟩ := ih used₁ (show mid + 1 ≤ hi by omega)
        (show hi ≤ w.length by omega) hsize (by omega)
      refine ⟨used₂, w', quickSort_of_partition (by omega) hpartition (s := (used₁, w)) ?_ ?_,
        by omega, hstep _ _ mid p _ u w w' hre hp hsplit hR hR'⟩
      · rwa [narrow_eq ⟨by omega, by omega⟩]
      · rw [narrow_eq ⟨by omega, by omega⟩]
        exact_mod_cast hright
    · exact ⟨used, arr, quickSort_of_short c rand _ (not_lt.1 hlt) (Nat.succ_pos fuel), rfl,
        hsmall lo hi arr (not_lt.1 hlt)⟩

/-! ## Elements that are kept -/

/-- Two sorted parts and the pivot between them. -/
theorem sorted_of_partition {mid : ℕ} {u w' : List T} (hre : Rearranged lo hi arr u)
    (hp : u.getD mid d = p) (hsplit : Split (fun k => u.getD k d) p lo mid mid hi)
    (hre₁ : Rearranged lo mid u w) (hsorted₁ : MonotoneOn (fun k => w.getD k d) (Set.Ico lo mid))
    (hre₂ : Rearranged (mid + 1) hi w w')
    (hsorted₂ : MonotoneOn (fun k => w'.getD k d) (Set.Ico (mid + 1) hi)) :
    Rearranged lo hi arr w' ∧ MonotoneOn (fun k => w'.getD k d) (Set.Ico lo hi) := by
  -- the second call leaves the part below alone, and the first one the part above
  have hlow := hsplit.lo_le
  have hhigh := hsplit.lt
  have hw : ∀ k, mid ≤ k → w.getD k d = u.getD k d := fun k hk => hre₁.getD_eq (.inr hk) d
  have hw' : ∀ k, k ≤ mid → w'.getD k d = w.getD k d := fun k hk =>
    hre₂.getD_eq (.inl (Nat.lt_succ_of_le hk)) d
  have hbelow : ∀ k, lo ≤ k → k < mid → w'.getD k d ≤ p := by
    intro k hk hk'
    rw [hw' k hk'.le]
    exact hre₁.forall_getD (P := fun x => x ≤ p) hsplit.below hk hk'
  have hat : w'.getD mid d = p := by rw [hw' mid le_rfl, hw mid le_rfl, hp]
  have habove : ∀ k, mid + 1 ≤ k → k < hi → p ≤ w'.getD k d := by
    intro k hk hk'
    refine hre₂.forall_getD (P := fun x => p ≤ x) (fun j hj hj' => ?_) hk hk'
    rw [hw j (by omega)]
    exact hsplit.above j hj hj'
  refine ⟨hre.trans ((hre₁.mono le_rfl hhigh.le).trans (hre₂.mono (by omega) le_rfl)), ?_⟩
  -- the two halves are joined at the pivot
  have hleft : MonotoneOn (fun k => w'.getD k d) (Set.Ico lo mid) := by
    intro i hi j hj hij
    simp only [hw' i hi.2.le, hw' j hj.2.le]
    exact hsorted₁ hi hj hij
  have hright : MonotoneOn (fun k => w'.getD k d) (Set.Ico mid hi) := by
    refine monotoneOn_Ico_append (monotoneOn_Ico_of_le (le_refl (mid + 1))) hsorted₂ ?_
    intro i hi hi' j hj hj'
    obtain rfl : i = mid := by omega
    exact hat.le.trans (habove j hj hj')
  refine monotoneOn_Ico_append hleft hright fun i hi hi' j hj hj' => ?_
  rcases hj.eq_or_lt with rfl | hj
  · exact (hbelow i hi hi').trans hat.ge
  · exact (hbelow i hi hi').trans (habove j hj hj')

/-- If the elements of a range are kept by the conversion, the range is sorted. -/
theorem quickSort_spec (c : PivotConversion T) (rand : ℕ → ℕ) (d : T) {fuel : ℕ} (used : ℕ)
    (hle : lo ≤ hi) (hhi : hi ≤ arr.length) (hsize : hi < 2 ^ 31) (hfuel : hi - lo < fuel)
    (h : ∀ k, lo ≤ k → k < hi → c.saved (arr.getD k d) = arr.getD k d) :
    ∃ used' w, quickSort c rand fuel (used, arr) lo ((hi : ℤ) - 1) = .ok (used', w) ∧
      Rearranged lo hi arr w ∧ MonotoneOn (fun k => w.getD k d) (Set.Ico lo hi) := by
  have hrule : ∃ used' w, quickSort c rand fuel (used, arr) lo ((hi : ℤ) - 1) = .ok (used', w) ∧
      w.length = arr.length ∧ ((∀ k, lo ≤ k → k < hi → c.saved (arr.getD k d) = arr.getD k d) →
      Rearranged lo hi arr w ∧ MonotoneOn (fun k => w.getD k d) (Set.Ico lo hi)) := by
    refine quickSort_rule c rand d
      (R := fun lo hi v w => (∀ k, lo ≤ k → k < hi → c.saved (v.getD k d) = v.getD k d) →
        Rearranged lo hi v w ∧ MonotoneOn (fun k => w.getD k d) (Set.Ico lo hi))
      (fun lo hi v hsmall _ => ⟨.refl lo hi v, monotoneOn_Ico_of_le hsmall⟩) ?_ used hle hhi hsize
      hfuel
    intro lo hi mid p v u w w' hre hp hsplit hleft hright hv
    have hlow := hsplit.lo_le
    have hhigh := hsplit.lt
    have hu : ∀ k, lo ≤ k → k < hi → c.saved (u.getD k d) = u.getD k d :=
      fun k => hre.forall_getD (P := fun x => c.saved x = x) hv
    have hpivot : u.getD mid d = p := by rw [List.getD_eq_getElem?_getD, hp, Option.getD_some]
    -- the value that is written back is the one that is there
    have hkept : c.saved p = p := hpivot ▸ hu mid hlow hhigh
    have hset : u.set mid p = u := by
      obtain ⟨hmid, rfl⟩ := List.getElem?_eq_some_iff.1 hp
      exact List.set_getElem_self hmid
    rw [hkept] at hsplit hleft
    rw [hset] at hleft
    obtain ⟨hre₁, hsorted₁⟩ := hleft fun k hk hk' => hu k hk (hk'.trans hhigh)
    have hw : ∀ k, mid + 1 ≤ k → k < hi → c.saved (w.getD k d) = w.getD k d := by
      intro k hk hk'
      rw [hre₁.getD_eq (.inr (by omega))]
      exact hu k (by omega) hk'
    obtain ⟨hre₂, hsorted₂⟩ := hright hw
    exact sorted_of_partition hre hpivot hsplit hre₁ hsorted₁ hre₂ hsorted₂
  obtain ⟨used', w, hrun, -, hsorted⟩ := hrule
  exact ⟨used', w, hrun, hsorted h⟩

/-- `quick_sort` returns, and sorts a vector of less than `2 ^ 31` values of `int32_t`, whatever
`rand` returns. -/
theorem quickSort_sorts (v : List ℤ) (hlen : v.length < 2 ^ 31) (hv : ∀ x ∈ v, Fits 32 x)
    (rand : ℕ → ℕ) (fuel : ℕ) (hfuel : v.length < fuel) :
    ∃ used w, quickSort .signed rand fuel (0, v) 0 (narrow 32 ((v.length : ℤ) - 1)) =
      .ok (used, w) ∧ w.Perm v ∧ w.Pairwise (· ≤ ·) := by
  have hkept : ∀ k, 0 ≤ k → k < v.length →
      PivotConversion.signed.saved (v.getD k 0) = v.getD k 0 := by
    intro k _ hk
    refine narrow_eq (hv _ ?_)
    rw [List.getD_eq_getElem?_getD, List.getElem?_eq_getElem hk, Option.getD_some]
    exact List.getElem_mem hk
  obtain ⟨used, w, hrun, hre, hsorted⟩ := quickSort_spec .signed rand 0 0 (Nat.zero_le _)
    le_rfl hlen hfuel hkept
  refine ⟨used, w, ?_, hre.perm, pairwise_of_monotoneOn (d := 0) (hre.length_eq ▸ hsorted)⟩
  rwa [narrow_eq ⟨by omega, by omega⟩]

theorem quickSort_sorts_three : ∃ used w,
    quickSort .signed (fun n => 5 * n + 1) 4 (0, [2, -1, 2]) 0 (narrow 32 ((3 : ℕ) - 1)) =
      .ok (used, w) ∧ w.Perm [2, -1, 2] ∧ w.Pairwise (· ≤ ·) :=
  quickSort_sorts [2, -1, 2] (by decide) (by decide) _ 4 (by decide)

/-- With `2 ^ 31 + 1` elements, the last position is not an `int32_t`, and nothing is sorted. -/
theorem quickSort_overflow : ¬∃ used w,
    quickSort .signed (fun _ => 0) (2 ^ 31 + 2) (0, 1 :: List.replicate (2 ^ 31) 0) 0
      (narrow 32 (((1 :: List.replicate (2 ^ 31) (0 : ℤ)).length : ℤ) - 1)) = .ok (used, w) ∧
      w.Perm (1 :: List.replicate (2 ^ 31) 0) ∧ w.Pairwise (· ≤ ·) := by
  rintro ⟨used, w, hrun, -, hsorted⟩
  rw [List.length_cons, List.length_replicate] at hrun
  generalize hsize : 2 ^ 31 = n at hrun
  have hneg : ¬(0 : ℤ) < narrow 32 (((n + 1 : ℕ) : ℤ) - 1) :=
    (narrow_neg (by omega) (by omega)).not_gt
  rw [quickSort, if_neg hneg] at hrun
  obtain ⟨-, rfl⟩ := Prod.mk.inj (Except.ok.inj hrun)
  have hle := List.rel_of_pairwise_cons hsorted (List.mem_replicate.2 ⟨by omega, rfl⟩)
  exact absurd hle (by decide)

/-! ## Elements that are lost -/

/-- The saved value of an element is another one. -/
def PivotConversion.changes (c : PivotConversion T) (x : T) : Bool := decide (c.saved x ≠ x)

theorem PivotConversion.changes_saved (c : PivotConversion T) (x : T) :
    c.changes (c.saved x) = false :=
  decide_eq_false fun hne => hne (congrArg c.ofInt (c.toInt_ofInt x))

/-- What overwriting an element by its saved value does to the number of elements that a conversion
changes. -/
theorem countP_changes_set {u : List T} {mid : ℕ} (hp : u[mid]? = some p) :
    (u.set mid (c.saved p)).countP c.changes =
      u.countP c.changes - if c.changes p then 1 else 0 := by
  obtain ⟨hmid, rfl⟩ := List.getElem?_eq_some_iff.1 hp
  rw [List.countP_set hmid, c.changes_saved]
  simp

/-- The number of elements that a conversion changes does not rise. -/
theorem quickSort_countP_le (c : PivotConversion T) (rand : ℕ → ℕ) (d : T) {fuel : ℕ} (used : ℕ)
    (hle : lo ≤ hi) (hhi : hi ≤ arr.length) (hsize : hi < 2 ^ 31) (hfuel : hi - lo < fuel) :
    ∃ used' w, quickSort c rand fuel (used, arr) lo ((hi : ℤ) - 1) = .ok (used', w) ∧
      w.length = arr.length ∧ w.countP c.changes ≤ arr.countP c.changes := by
  refine quickSort_rule c rand d
    (R := fun _ _ v w => w.countP c.changes ≤ v.countP c.changes) (fun _ _ _ _ => le_rfl) ?_ used
    hle hhi hsize hfuel
  intro lo hi mid p v u w w' hre hp _ hleft hright
  calc w'.countP c.changes ≤ w.countP c.changes := hright
    _ ≤ (u.set mid (c.saved p)).countP c.changes := hleft
    _ ≤ u.countP c.changes := (countP_changes_set hp).trans_le (Nat.sub_le _ _)
    _ = v.countP c.changes := hre.perm.countP_eq _

/-- A pivot that the conversion changes is lost. -/
theorem quickSort_countP_lt (c : PivotConversion T) (rand : ℕ → ℕ) {fuel : ℕ} (used : ℕ)
    (hlt : lo + 1 < hi) (hhi : hi ≤ arr.length) (hsize : hi < 2 ^ 31) (hfuel : hi - lo < fuel)
    (hp : arr[lo + rand used % (hi - lo)]? = some p) (hchanges : c.saved p ≠ p) :
    ∃ s, quickSort c rand fuel (used, arr) lo ((hi : ℤ) - 1) = .ok s ∧
      s.2.countP c.changes < arr.countP c.changes := by
  obtain ⟨fuel, rfl⟩ := Nat.exists_eq_add_of_le' (Nat.one_le_of_lt hfuel)
  obtain ⟨u, mid, q, hpartition, hq, hre, hmid, hsplit⟩ :=
    partition_spec c (rand used) (show lo < hi by omega) hhi hsize p
  obtain rfl : p = q := Option.some.inj (hp.symm.trans hq)
  have hlow := hsplit.lo_le
  have hhigh := hsplit.lt
  have hulen : (u.set mid (c.saved p)).length = arr.length := by
    rw [List.length_set, hre.length_eq]
  obtain ⟨used₁, w, hleft, hlen, hcount⟩ := quickSort_countP_le c rand p (used + 1) hlow
    (show mid ≤ (u.set mid (c.saved p)).length by omega) (by omega) (show mid - lo < fuel by omega)
  obtain ⟨used₂, w', hright, -, hcount'⟩ := quickSort_countP_le c rand p used₁
    (show mid + 1 ≤ hi by omega) (show hi ≤ w.length by omega) hsize
    (show hi - (mid + 1) < fuel by omega)
  refine ⟨(used₂, w'), quickSort_of_partition (by omega) hpartition (s := (used₁, w)) ?_ ?_, ?_⟩
  · rwa [narrow_eq ⟨by omega, by omega⟩]
  · rw [narrow_eq ⟨by omega, by omega⟩]
    exact_mod_cast hright
  · -- the partition loses the pivot, and nothing later makes up for it
    have hchanged : c.changes p = true := decide_eq_true hchanges
    have hpos : 0 < u.countP c.changes :=
      List.countP_pos_iff.2 ⟨p, List.mem_of_getElem? hmid, hchanged⟩
    rw [countP_changes_set hmid, if_pos hchanged] at hcount
    rw [← hre.perm.countP_eq]
    show w'.countP c.changes < u.countP c.changes
    omega

/-- `quick_sort` keeps the elements of the vector, whatever `rand` returns, if and only if it has
nothing to do or the elements of the range are kept by a conversion to `int32_t` and back. -/
theorem quickSort_perm_iff (c : PivotConversion T) (v : List T) (lo hi fuel : ℕ) (hle : lo ≤ hi)
    (hhi : hi ≤ v.length) (hsize : hi < 2 ^ 31) (hfuel : hi - lo < fuel) :
    (∀ rand : ℕ → ℕ, (∀ n, rand n < 2 ^ 31) →
      ∃ used w, quickSort c rand fuel (0, v) lo ((hi : ℤ) - 1) = .ok (used, w) ∧ w.Perm v) ↔
    hi ≤ lo + 1 ∨ ∀ k, lo ≤ k → k < hi → ∀ x ∈ v[k]?, c.saved x = x := by
  refine ⟨fun h => or_iff_not_imp_left.2 fun hlong k hlo hk x hx => ?_, fun h rand _ => ?_⟩
  · -- the first call of `rand` can choose this element
    by_contra hne
    have hindex : lo + (k - lo) % (hi - lo) = k := by
      rw [Nat.mod_eq_of_lt (by omega)]
      omega
    obtain ⟨s, hrun, hcount⟩ := quickSort_countP_lt c (fun _ => k - lo) 0 (not_le.1 hlong) hhi hsize
      hfuel (hindex.symm ▸ hx) hne
    obtain ⟨used, w, hrun', hperm⟩ := h (fun _ => k - lo) fun _ => by omega
    rw [hrun] at hrun'
    obtain rfl := Except.ok.inj hrun'
    exact hcount.ne (hperm.countP_eq _)
  · by_cases hshort : hi ≤ lo + 1
    · exact ⟨0, v, quickSort_of_short c rand _ hshort (Nat.zero_lt_of_lt hfuel), .refl v⟩
    · have hkept := h.resolve_left hshort
      have hget : ∀ k, lo ≤ k → k < hi → c.saved (v.getD k v[lo]) = v.getD k v[lo] := by
        intro k hlo hk
        refine hkept k hlo hk _ ?_
        rw [List.getD_eq_getElem?_getD, List.getElem?_eq_getElem (hk.trans_le hhi),
          Option.getD_some]
        rfl
      obtain ⟨used, w, hrun, hre, -⟩ := quickSort_spec c rand v[lo] 0 hle hhi hsize hfuel hget
      exact ⟨used, w, hrun, hre.perm⟩

theorem quickSort_perm_iff_two :
    (∀ rand : ℕ → ℕ, (∀ n, rand n < 2 ^ 31) →
      ∃ used w, quickSort .signed rand 3 (0, [2, 1]) (0 : ℕ) ((2 : ℕ) - 1) = .ok (used, w) ∧
        w.Perm [2, 1]) ↔
    2 ≤ 0 + 1 ∨ ∀ k, 0 ≤ k → k < 2 → ∀ x ∈ [2, (1 : ℤ)][k]?, PivotConversion.signed.saved x = x :=
  quickSort_perm_iff .signed [2, 1] 0 2 3 (by decide) (by decide) (by decide) (by decide)

/-- With `2 ^ 32` as the pivot, a zero is written back. -/
theorem quickSort_loses :
    quickSort .signed (fun _ => 0) 3 (0, [2 ^ 32, 0]) 0 1 = .ok (1, [0, 0]) ∧
      ¬List.Perm [0, 0] [(2 : ℤ) ^ 32, 0] := by
  decide

end CppLearn.Sorting

import CppLearn.Heap.Correctness
import CppLearn.Lib.Rearrangement
import CppLearn.Sorting.Defs

/-!
# `heap_sort` sorts up to `2 ^ 30` elements

`_heapify` goes down to a leaf, whether or not the element already fits. The first loop makes heaps
out of larger and larger subtrees. The second one keeps a heap at the beginning of the vector and
the largest elements, in order, behind it. With more than `2 ^ 30` elements, the number of a child
need not fit in an `int32_t`.

`heapify_spec` says that `_heapify` restores the order of a subtree. The bodies of the two loops are
`buildStep_spec` and `extractStep_spec`, and the procedure is `heapSort_sorts`.
-/

namespace CppLearn.Sorting

open BoundedLoop CheckedVector HeapArray Signed

variable {T : Type} [LinearOrder T] {arr : List T} {n p q c i : ℕ} {d : T}

/-! ## The children -/

theorem largerChild_eq (arr : List T) (child n : ℕ) :
    largerChild arr child n =
      (Heap.largerChild (fun x y => decide (x < y)) n arr child).map fun c : ℕ => (c : ℤ) := by
  have hcast : (child : ℤ) + 1 = ((child + 1 : ℕ) : ℤ) := by push_cast; rfl
  unfold largerChild Heap.largerChild
  rw [hcast]
  by_cases hlt : child + 1 < n
  · rw [if_pos (Int.ofNat_lt.2 hlt), if_pos hlt]
    cases hx : read arr (child : ℤ) with
    | error e => rfl
    | ok x =>
      cases hy : read arr ((child + 1 : ℕ) : ℤ) with
      | error e => rfl
      | ok y => by_cases hxy : x < y <;> simp [bind, Except.bind, Except.map, hxy]
  · rw [if_neg (mt Int.ofNat_lt.1 hlt), if_neg hlt]
    rfl

/-- The child that the loop goes on to is a maximum of the children. -/
theorem largerChild_spec (hn : n ≤ arr.length) (hp : 2 * p + 1 < n) (d : T) :
    ∃ c : ℕ, largerChild arr (2 * p + 1 : ℕ) n = .ok c ∧ 0 < c ∧ c < n ∧ parent c = p ∧
      ∀ i < n, 0 < i → parent i = p → arr.getD i d ≤ arr.getD c d := by
  obtain ⟨c, hc, hpos, hcn, hparent, hmax⟩ :=
    Heap.largerChild_spec (fun x y => decide_eq_true_iff (p := x < y)) hn hp
  exact ⟨c, by rw [largerChild_eq, hc]; rfl, hpos, hcn, hparent, hmax d⟩

/-! ## `_heapify` -/

/-- The number of a child fits if the parent is one of the first `2 ^ 30` elements. -/
theorem narrow_child (hp : p < 2 ^ 30) : narrow 32 (2 * p + 1) = (2 * p + 1 : ℕ) := by
  rw [narrow_eq ⟨by omega, by omega⟩]
  push_cast
  rfl

/-- What the second test in the loop does. -/
theorem swapLarger_spec (hp : p < arr.length) (hc : c < arr.length) (hpn : p < n) (hcn : c < n)
    (hlo : i ≤ p) (hpc : p < c) (d : T) :
    ∃ w, swapLarger arr p c = .ok w ∧ Rearranged i n arr w ∧
      (∀ k, k ≠ p → k ≠ c → w[k]? = arr[k]?) ∧
      ((arr.getD p d < arr.getD c d ∧
        (fun k => w.getD k d) = (fun k => arr.getD k d) ∘ Equiv.swap p c) ∨
      (arr.getD c d ≤ arr.getD p d ∧ w = arr)) := by
  have hcompare : swapLarger arr p c =
      if arr.getD p d < arr.getD c d then swap arr p c else .ok arr := by
    simp only [swapLarger, read_ok hp d, read_ok hc d, bind, Except.bind]
  by_cases hlt : arr.getD p d < arr.getD c d
  · obtain ⟨w, hw, hre, hcell, hget⟩ :=
      swap_rearranged hlo hpn (hlo.trans hpc.le) hcn hp hc
    refine ⟨w, by rw [hcompare, if_pos hlt, hw], hre, fun k hkp hkc => ?_, .inl ⟨hlt, hget d⟩⟩
    rw [hcell, Equiv.swap_apply_of_ne_of_ne hkp hkc]
  · exact ⟨arr, by rw [hcompare, if_neg hlt], .refl i n arr, fun _ _ _ => rfl,
      .inr ⟨not_lt.1 hlt, rfl⟩⟩

theorem heapifyStep_eq {w : List T} {stop parent child c : ℤ}
    (hc : largerChild arr child stop = .ok c) (hw : swapLarger arr parent c = .ok w) :
    heapifyStep stop (arr, parent, child) = .ok (w, c, narrow 32 (2 * c + 1)) := by
  simp only [heapifyStep, hc, bind, Except.bind, hw]

/-- `_heapify` restores the order of the subtree with root `p`, and touches no other node. -/
theorem heapify_spec (hn : n ≤ arr.length) (hsize : n ≤ 2 ^ 30) (hp : p < n)
    (h : ∀ c, 0 < c → parent c = p → OrderedAt (fun k => arr.getD k d) n c) :
    ∃ w, heapify arr p n = .ok w ∧ Rearranged p n arr w ∧
      (∀ k, ¬Below p k → w[k]? = arr[k]?) ∧ OrderedAt (fun k => w.getD k d) n p := by
  have hloop : ∃ s : List T × ℤ × ℤ, whileLoop (fun _ => .diverged)
      (fun s : List T × ℤ × ℤ => .ok (decide (s.2.2 < n))) (heapifyStep n) (n + 1)
      (arr, (p : ℤ), ((2 * p + 1 : ℕ) : ℤ)) = .ok s ∧ (Rearranged p n arr s.1 ∧
      (∀ k, ¬Below p k → s.1[k]? = arr[k]?) ∧ OrderedAt (fun k => s.1.getD k d) n p) := by
    refine whileLoop_spec (I := fun m s => ∃ (q : ℕ) (w : List T),
      s = (w, (q : ℤ), ((2 * q + 1 : ℕ) : ℤ)) ∧ m = n - q ∧ q < n ∧ Below p q ∧
      Rearranged p n arr w ∧ (∀ k, ¬Below p k → w[k]? = arr[k]?) ∧
      DownOrderedAt (fun k => w.getD k d) n p q)
      ?_ (fun _ _ _ => ⟨_, rfl⟩) ?_ ⟨p, arr, rfl, rfl, hp, .root, .refl p n arr, fun _ _ => rfl,
        downOrderedAt_of_children h⟩ (by omega)
    · -- at a leaf, no node is excepted any more
      rintro _ _ ⟨q, w, rfl, -, -, -, hre, houtside, hdown⟩ hcond
      have hleaf : ¬((2 * q + 1 : ℕ) : ℤ) < n := by simpa using hcond
      refine ⟨hre, houtside, hdown.orderedAt_of_leaf fun i hi hpos hpar => ?_⟩
      unfold parent at hpar
      omega
    · rintro _ _ ⟨q, w, rfl, rfl, hq, hbelow, hre, houtside, hdown⟩ hcond
      have hchild : 2 * q + 1 < n := by
        have : ((2 * q + 1 : ℕ) : ℤ) < n := by simpa using hcond
        omega
      have hlen := hre.length_eq
      obtain ⟨c, hc, hpos, hcn, hparent, hmax⟩ :=
        largerChild_spec (show n ≤ w.length by omega) hchild d
      have hqc : q < c := hparent ▸ parent_lt hpos
      have hbelowc : Below p c := .child hpos (hparent ▸ hbelow)
      obtain ⟨w', hw', hre', hcell, hcases⟩ := swapLarger_spec (n := n) (i := p)
        (show q < w.length by omega) (show c < w.length by omega) hq hcn hbelow.le hqc d
      refine ⟨_, n - c, ?_, by omega, c, w', rfl, rfl, hcn, hbelowc, hre.trans hre',
        fun k hk => ?_, ?_⟩
      · rw [heapifyStep_eq hc hw', narrow_child (by omega)]
      · rw [hcell k (fun heq => hk (heq ▸ hbelow)) fun heq => hk (heq ▸ hbelowc), houtside k hk]
      · -- without an exchange the order below `q` is complete, and going on does no harm
        rcases hcases with ⟨hlt, hget⟩ | ⟨hle, rfl⟩
        · rw [hget]
          exact hdown.swap hpos hcn hbelow hparent hmax hlt
        · exact hdown.pass hpos hbelow hparent hmax hle
  obtain ⟨⟨w, parent, child⟩, hrun, hre, houtside, hordered⟩ := hloop
  refine ⟨w, ?_, hre, houtside, hordered⟩
  rw [heapify, narrow_child (by omega), Int.toNat_natCast, hrun]
  rfl

/-! ## The two loops -/

/-- One more subtree becomes a heap. -/
theorem buildStep_spec (hn : n ≤ arr.length) (hsize : n ≤ 2 ^ 30) (hp : p < n)
    (h : OrderedFrom (fun k => arr.getD k d) n (p + 1)) :
    ∃ w, buildStep n (arr, (p : ℤ)) = .ok (w, (p : ℤ) - 1) ∧ Rearranged 0 n arr w ∧
      OrderedFrom (fun k => w.getD k d) n p := by
  obtain ⟨w, hrun, hre, houtside, hordered⟩ := heapify_spec (d := d) hn hsize hp
    fun c hpos hc => h.orderedAt (hc ▸ parent_lt hpos)
  refine ⟨w, ?_, hre.mono (Nat.zero_le p) le_rfl, h.extend hordered fun i _ hi => ?_⟩
  · rw [buildStep]
    exact bind_eq_ok.2 ⟨w, hrun, rfl⟩
  · simp only [List.getD_eq_getElem?_getD, houtside i hi]

/-- The first `m` elements are a heap, and the other ones of the first `n` are not smaller than
these, and sorted. -/
structure Extracted (a : ℕ → T) (m n : ℕ) : Prop where
  ordered : HeapArray.Ordered a m
  sorted : MonotoneOn a (Set.Ico m n)
  le : ∀ j < m, ∀ k, m ≤ k → k < n → a j ≤ a k

/-- The maximum is moved behind the rest of the heap. -/
theorem extractStep_spec (hn : n ≤ arr.length) (hsize : n ≤ 2 ^ 30) (hi : 0 < i) (hin : i < n)
    (h : Extracted (fun k => arr.getD k d) (i + 1) n) :
    ∃ w, extractStep (arr, (i : ℤ)) = .ok (w, (i : ℤ) - 1) ∧ Rearranged 0 n arr w ∧
      Extracted (fun k => w.getD k d) i n := by
  obtain ⟨u, hu, hre, -, hget⟩ := swap_rearranged (v := arr) (i := 0) (j := i) (Nat.zero_le 0)
    (show 0 < n by omega) (Nat.zero_le i) hin (by omega) (by omega)
  have hget' : ∀ k, u.getD k d = arr.getD (Equiv.swap 0 i k) d := fun k => congrFun (hget d) k
  have hother : ∀ k, k ≠ 0 → k ≠ i → u.getD k d = arr.getD k d := by
    intro k hk hki
    rw [hget', Equiv.swap_apply_of_ne_of_ne hk hki]
  have hlast : u.getD i d = arr.getD 0 d := by rw [hget', Equiv.swap_apply_right]
  have hheap : OrderedFrom (fun k => u.getD k d) i 1 := by
    intro k hk hpos hpar
    have hlt := parent_lt hpos
    simp only [hother k hpos.ne' hk.ne, hother (parent k) (by omega) (by omega)]
    exact h.ordered k (by omega) hpos
  obtain ⟨w, hrun, hre', -, hordered⟩ := heapify_spec (d := d) (n := i) (p := 0)
    (show i ≤ u.length by rw [hre.length_eq]; omega) (by omega) hi
    fun c hpos _ => hheap.orderedAt hpos
  -- the elements behind the heap
  have hbehind : ∀ k, i < k → w.getD k d = arr.getD k d := by
    intro k hk
    rw [hre'.getD_eq (.inr hk.le), hother k (by omega) (by omega)]
  have hnew : w.getD i d = arr.getD 0 d := (hre'.getD_eq (.inr le_rfl) d).trans hlast
  refine ⟨w, ?_, hre.trans (hre'.mono le_rfl hin.le), ⟨orderedAt_zero_iff.1 hordered, ?_, ?_⟩⟩
  · rw [extractStep]
    exact bind_eq_ok.2 ⟨u, hu, bind_eq_ok.2 ⟨w, hrun, rfl⟩⟩
  · refine monotoneOn_Ico_append (monotoneOn_Ico_of_le (le_refl (i + 1))) ?_ ?_
    · intro j hj k hk hjk
      simp only [hbehind j hj.1, hbehind k hk.1]
      exact h.sorted hj hk hjk
    · intro j hj hji k hk hkn
      obtain rfl : j = i := by omega
      simp only [hnew, hbehind k hk]
      exact h.le 0 (Nat.succ_pos j) k hk hkn
  · intro j hj k hk hkn
    refine hre'.forall_getD (P := fun x => x ≤ w.getD k d) (fun m _ hm => ?_) (Nat.zero_le j) hj
    -- every element of the heap was one before
    have hold : u.getD m d = arr.getD (Equiv.swap 0 i m) d := hget' m
    have hlt : Equiv.swap 0 i m < i + 1 :=
      swap_apply_of (P := (· < i + 1)) (Nat.succ_pos i) (Nat.lt_succ_self i) (by omega)
    rw [hold]
    rcases hk.eq_or_lt with rfl | hk
    · rw [hnew]
      exact h.ordered.le_root hlt
    · rw [hbehind k hk]
      exact h.le _ hlt k hk hkn

/-- The first loop makes a heap. -/
theorem buildLoop_spec (hsize : arr.length ≤ 2 ^ 30) (d : T) :
    ∃ s : List T × ℤ, whileLoop (fun _ => .diverged) (fun s => .ok (decide (s.2 ≥ 0)))
        (buildStep arr.length) (arr.length + 1) (arr, ((arr.length / 2 : ℕ) : ℤ) - 1) = .ok s ∧
      (Rearranged 0 arr.length arr s.1 ∧
        HeapArray.Ordered (fun k => s.1.getD k d) arr.length) := by
  refine whileLoop_spec (I := fun m s => ∃ w, s = (w, (m : ℤ) - 1) ∧ m ≤ arr.length / 2 ∧
    Rearranged 0 arr.length arr w ∧ OrderedFrom (fun k => w.getD k d) arr.length m)
    ?_ (fun _ _ _ => ⟨_, rfl⟩) ?_
    ⟨arr, rfl, le_rfl, .refl 0 _ arr, orderedFrom_of_leaves le_rfl⟩ (by omega)
  · rintro m _ ⟨w, rfl, -, hre, hfrom⟩ hcond
    have hneg : ¬(m : ℤ) - 1 ≥ 0 := by simpa using hcond
    obtain rfl : m = 0 := by omega
    exact ⟨hre, orderedFrom_zero_iff.1 hfrom⟩
  · rintro m _ ⟨w, rfl, hm, hre, hfrom⟩ hcond
    have hpos : (m : ℤ) - 1 ≥ 0 := by simpa using hcond
    obtain ⟨p, rfl⟩ := Nat.exists_eq_add_of_le' (show 1 ≤ m by omega)
    have hcast : ((p + 1 : ℕ) : ℤ) - 1 = p := by omega
    rw [hcast]
    obtain ⟨w', hrun, hre', hfrom'⟩ := buildStep_spec hre.length_eq.ge hsize (by omega) hfrom
    exact ⟨_, p, hrun, Nat.lt_succ_self p, w', rfl, by omega, hre.trans hre', hfrom'⟩

/-- The second loop sorts a heap. -/
theorem extractLoop_spec (hsize : arr.length ≤ 2 ^ 30)
    (h : HeapArray.Ordered (fun k => arr.getD k d) arr.length) :
    ∃ s : List T × ℤ, whileLoop (fun _ => .diverged) (fun s => .ok (decide (s.2 > 0))) extractStep
        (arr.length + 1) (arr, (arr.length : ℤ) - 1) = .ok s ∧
      (Rearranged 0 arr.length arr s.1 ∧
        MonotoneOn (fun k => s.1.getD k d) (Set.Ico 0 arr.length)) := by
  refine whileLoop_spec (I := fun m s => ∃ w, s = (w, (m : ℤ) - 1) ∧ m ≤ arr.length ∧
    Rearranged 0 arr.length arr w ∧ Extracted (fun k => w.getD k d) m arr.length)
    ?_ (fun _ _ _ => ⟨_, rfl⟩) ?_ ⟨arr, rfl, le_rfl, .refl 0 _ arr, h, ?_, ?_⟩ (by omega)
  · -- at most one element is left in the heap
    rintro m _ ⟨w, rfl, -, hre, hextracted⟩ hcond
    have hle : ¬(m : ℤ) - 1 > 0 := by simpa using hcond
    exact ⟨hre, monotoneOn_Ico_append (monotoneOn_Ico_of_le (show m ≤ 0 + 1 by omega))
      hextracted.sorted fun i _ hi k hk hkn => hextracted.le i hi k hk hkn⟩
  · rintro m _ ⟨w, rfl, hm, hre, hextracted⟩ hcond
    have hgt : (m : ℤ) - 1 > 0 := by simpa using hcond
    obtain ⟨i, rfl⟩ := Nat.exists_eq_add_of_le' (show 1 ≤ m by omega)
    have hcast : ((i + 1 : ℕ) : ℤ) - 1 = i := by omega
    rw [hcast]
    obtain ⟨w', hrun, hre', hextracted'⟩ := extractStep_spec hre.length_eq.ge hsize
      (by omega) (by omega) hextracted
    exact ⟨_, i, hrun, Nat.lt_succ_self i, w', rfl, by omega, hre.trans hre', hextracted'⟩
  · exact monotoneOn_Ico_of_le (Nat.le_succ _)
  · exact fun j _ k hk hkn => absurd hkn hk.not_gt

/-! ## The procedure -/

theorem heapSort_nil : heapSort ([] : List T) = .ok [] := by
  have hnarrow : narrow 32 ((0 : ℕ) : ℤ) = 0 := narrow_eq ⟨by decide, by decide⟩
  have hnarrow' : narrow 32 (0 - 1) = -1 := narrow_eq ⟨by decide, by decide⟩
  rw [heapSort, List.length_nil, hnarrow, hnarrow']
  rfl

/-- Vectors with at most `2 ^ 30` elements are sorted. -/
theorem heapSort_spec (arr : List T) (hsize : arr.length ≤ 2 ^ 30) :
    ∃ w, heapSort arr = .ok w ∧ w.Perm arr ∧ w.Pairwise (· ≤ ·) := by
  cases harr : arr with
  | nil => exact ⟨[], heapSort_nil, .refl [], .nil⟩
  | cons d tail =>
    rw [← harr]
    have hnarrow : narrow 32 arr.length = arr.length := narrow_natCast (by omega)
    have hnarrow' : narrow 32 ((arr.length : ℤ) - 1) = arr.length - 1 :=
      narrow_eq ⟨by omega, by omega⟩
    have hhalf : (arr.length : ℤ).tdiv 2 = (arr.length / 2 : ℕ) := by
      rw [Int.tdiv_eq_ediv_of_nonneg (Int.natCast_nonneg _)]
      rfl
    obtain ⟨⟨u, i⟩, hbuild, hre, hordered⟩ := buildLoop_spec hsize d
    have hlen := hre.length_eq
    rw [← hlen] at hordered
    obtain ⟨⟨w, j⟩, hextract, hre', hsorted⟩ := extractLoop_spec (hlen.trans_le hsize) hordered
    rw [hlen] at hextract
    refine ⟨w, ?_, hre'.perm.trans hre.perm, pairwise_of_monotoneOn (d := d) ?_⟩
    · rw [heapSort, hnarrow, hhalf, Int.toNat_natCast, hnarrow']
      exact bind_eq_ok.2 ⟨_, hbuild, bind_eq_ok.2 ⟨_, hextract, rfl⟩⟩
    · rw [hre'.length_eq]
      exact hsorted

/-- `heap_sort` sorts every vector with at most `2 ^ 30` elements; in particular, `_heapify` makes a
heap of a subtree if the subtrees below its root are heaps. -/
theorem heapSort_sorts :
    (∀ arr : List T, arr.length ≤ 2 ^ 30 →
      ∃ w, heapSort arr = .ok w ∧ w.Perm arr ∧ w.Pairwise (· ≤ ·)) ∧
    ∀ (arr : List T) (p stop : ℕ) (d : T), stop ≤ arr.length → stop ≤ 2 ^ 30 → p < stop →
      (∀ c, 0 < c → parent c = p → OrderedAt (fun k => arr.getD k d) stop c) →
      ∃ w, heapify arr p stop = .ok w ∧ Rearranged p stop arr w ∧
        OrderedAt (fun k => w.getD k d) stop p := by
  refine ⟨heapSort_spec, fun arr p stop d hlen hsize hp h => ?_⟩
  obtain ⟨w, hrun, hre, -, hordered⟩ := heapify_spec hlen hsize hp h
  exact ⟨w, hrun, hre, hordered⟩

/-- Four elements, and a heap below a root that is too small. -/
theorem heapSort_sorts_four :
    (∃ w, heapSort [2, 3, 1, (2 : ℤ)] = .ok w ∧ w.Perm [2, 3, 1, 2] ∧ w.Pairwise (· ≤ ·)) ∧
      ∃ w, heapify [1, 9, 8, 4, (7 : ℤ)] (0 : ℕ) (5 : ℕ) = .ok w ∧
        Rearranged 0 5 [1, 9, 8, 4, 7] w ∧ OrderedAt (fun k => w.getD k 0) 5 0 := by
  obtain ⟨hsort, hheapify⟩ := heapSort_sorts (T := ℤ)
  refine ⟨hsort [2, 3, 1, 2] (by decide), hheapify [1, 9, 8, 4, 7] 0 5 0 (by decide) (by decide)
    (by decide) fun c hc hparent => ?_⟩
  -- the children of the root are the positions 1 and 2
  have hchild : c = 1 ∨ c = 2 := by
    rw [parent] at hparent
    omega
  intro i hi _ hbelow
  have hle := hbelow.le
  rw [parent] at hle ⊢
  rcases hchild with rfl | rfl
  · obtain rfl | rfl : i = 3 ∨ i = 4 := by omega
    · decide
    · decide
  · omega

/-! ## Larger vectors -/

/-- `_heapify` fails if it does after its first iteration. -/
theorem heapify_error {parent stop child : ℤ} {s : List T × ℤ × ℤ} {e : Fault}
    (hchild : narrow 32 (2 * parent + 1) = child) (hlt : child < stop)
    (hfirst : heapifyStep stop (arr, parent, child) = .ok s)
    (hrest : whileLoop (fun _ => .diverged) (fun s => .ok (decide (s.2.2 < stop)))
      (heapifyStep stop) stop.toNat s = .error e) : heapify arr parent stop = .error e := by
  rw [heapify, hchild, whileLoop_of_true (by rw [decide_eq_true hlt]) (Nat.succ_pos _), hfirst]
  exact congrArg (Except.bind · _) hrest

/-- If the last of an odd number of elements is larger than the one before it, `_heapify` goes down
to it from its parent; then the number of its first child does not fit. -/
theorem heapify_overflow (hlen : arr.length = 2 * p + 3) (hlow : 2 ^ 30 ≤ 2 * p + 2)
    (hhigh : 2 * p + 2 < 2 ^ 30 + 2 ^ 29)
    (hlt : arr.getD (2 * p + 1) d < arr.getD (2 * p + 2) d) :
    ∃ e, heapify arr p (2 * p + 3 : ℕ) = .error e := by
  have hchild : narrow 32 (2 * p + 1) = (2 * p + 1 : ℕ) := by
    rw [narrow_eq ⟨by omega, by omega⟩]
    push_cast
    rfl
  have hnext : narrow 32 (2 * (2 * p + 2 : ℕ) + 1) < 0 := narrow_neg (by omega) (by omega)
  -- the first iteration
  obtain ⟨c, hc, hpos, hcn, hparent, hmax⟩ :=
    largerChild_spec hlen.ge (show 2 * p + 1 < 2 * p + 3 by omega) d
  have hcases : c = 2 * p + 1 ∨ c = 2 * p + 2 := by
    unfold parent at hparent
    omega
  obtain rfl : c = 2 * p + 2 := by
    refine hcases.resolve_left ?_
    rintro rfl
    refine absurd (hmax (2 * p + 2) (by omega) (by omega) ?_) hlt.not_ge
    unfold parent
    omega
  obtain ⟨w, hw, -⟩ := swapLarger_spec (p := p) (c := 2 * p + 2) (n := 2 * p + 3)
    (i := 0) (show p < arr.length by omega) (by omega) (by omega) (by omega) (Nat.zero_le _)
    (by omega) d
  generalize hnarrow : narrow 32 (2 * (2 * p + 2 : ℕ) + 1) = next at hnext
  have hfirst : heapifyStep (2 * p + 3 : ℕ) (arr, (p : ℤ), ((2 * p + 1 : ℕ) : ℤ)) =
      .ok (w, ((2 * p + 2 : ℕ) : ℤ), next) := by
    rw [heapifyStep_eq hc hw, hnarrow]
  -- the second one reads a child with a negative number
  have hread : read w next = .error .invalidAccess := if_neg hnext.not_ge
  have hsecond : heapifyStep (2 * p + 3 : ℕ) (w, ((2 * p + 2 : ℕ) : ℤ), next) =
      .error .invalidAccess := by
    have hlarger : largerChild w next (2 * p + 3 : ℕ) = .error .invalidAccess := by
      rw [largerChild, if_pos (by omega), hread]
      rfl
    rw [heapifyStep, hlarger]
    rfl
  refine ⟨.invalidAccess, heapify_error hchild (by simp) hfirst ?_⟩
  exact whileLoop_error (by simp; omega) hsecond (by omega)

/-- With `2 ^ 30 + 1` elements, the first loop can leave the vector. -/
theorem heapSort_error (hlen : arr.length = 2 * p + 3) (hlow : 2 ^ 30 ≤ 2 * p + 2)
    (hhigh : 2 * p + 2 < 2 ^ 30 + 2 ^ 29)
    (hlt : arr.getD (2 * p + 1) d < arr.getD (2 * p + 2) d) : ∃ e, heapSort arr = .error e := by
  obtain ⟨e, he⟩ := heapify_overflow hlen hlow hhigh hlt
  have hnarrow : narrow 32 arr.length = (2 * p + 3 : ℕ) := by
    rw [hlen]
    exact narrow_eq ⟨by omega, by omega⟩
  have hstart : ((2 * p + 3 : ℕ) : ℤ).tdiv 2 - 1 = p := by
    rw [Int.tdiv_eq_ediv_of_nonneg (Int.natCast_nonneg _)]
    omega
  have hbody : buildStep (2 * p + 3 : ℕ) (arr, (p : ℤ)) = .error e := by
    rw [buildStep, he]
    rfl
  refine ⟨e, ?_⟩
  rw [heapSort, hnarrow, hstart, whileLoop_of_true (by simp) (Nat.succ_pos _), hbody]
  rfl

/-- Zeros, and a one at the end. -/
theorem heapSort_overflow :
    ¬∃ w, heapSort (List.replicate (2 ^ 30) (0 : ℤ) ++ [1]) = .ok w := by
  rintro ⟨w, hw⟩
  have hlength : (List.replicate (2 ^ 30) (0 : ℤ) ++ [1]).length = 2 ^ 30 + 1 := by
    rw [List.length_append, List.length_replicate, List.length_singleton]
  generalize hsize : 2 ^ 30 = n at hw hlength
  obtain ⟨p, rfl⟩ : ∃ p, n = 2 * p + 2 := ⟨2 ^ 29 - 1, by omega⟩
  have hlt : (List.replicate (2 * p + 2) (0 : ℤ) ++ [1]).getD (2 * p + 1) 0 <
      (List.replicate (2 * p + 2) (0 : ℤ) ++ [1]).getD (2 * p + 2) 0 := by
    simp [List.getD_eq_getElem?_getD]
  obtain ⟨e, he⟩ := heapSort_error hlength hsize.le (by omega) hlt
  rw [he] at hw
  cases hw

end CppLearn.Sorting

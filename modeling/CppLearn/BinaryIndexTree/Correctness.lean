import CppLearn.BinaryIndexTree.Entries
import CppLearn.Lib.RangeSums

/-!
# Correctness of the binary index tree

Over the integers, the two Fenwick trees answer queries for elements and for sums of ranges of the
array whose differences they hold. The loops of `range_update` work with positions of type `int`;
the results are those of the array as long as these positions are exact.

`BinaryIndexTree.Tracks` relates a tree to an array. The arguments of a call have to be allowed
(`TreeCall.Allowed`), and the positions that it meets exact (`TreeCall.Exact`). Then the results of
any sequence of calls are the answers that it should have (`BinaryIndexTree.run_queries`).
-/

namespace CppLearn

open BoundedLoop CheckedVector Signed RangeSums

namespace TreeCall

open BinaryIndexTree

/-- The arguments are such that the call has a meaning on an array with positions `1` to `n`. -/
def Allowed (n : ℕ) : TreeCall ℤ → Prop
  | .update _ _ => True
  | .rangeUpdate l r _ => l ≤ r
  | .query i => 1 ≤ i ∧ i ≤ n
  | .rangeSum l r => 1 ≤ l ∧ l ≤ r ∧ r ≤ n
  | .prefixSum r => 0 ≤ r ∧ r ≤ n

/-- The positions that the call handles as `int` are exact: those it is given, and those that
`__update` meets on its way up. -/
def Exact (n : ℕ) : TreeCall ℤ → Prop
  | .update i _ => Fits 32 i ∧ Fits 32 (i + 1) ∧ WalkFits n (clamp i) ∧ WalkFits n (clamp (i + 1))
  | .rangeUpdate l r _ =>
    Fits 32 l ∧ Fits 32 (r + 1) ∧ WalkFits n (clamp l) ∧ WalkFits n (clamp (r + 1))
  | .query _ => True
  | .rangeSum _ _ => True
  | .prefixSum r => Fits 32 r

instance (n : ℕ) : (c : TreeCall ℤ) → Decidable (c.Allowed n)
  | .update _ _ => inferInstanceAs (Decidable True)
  | .rangeUpdate l r _ => inferInstanceAs (Decidable (l ≤ r))
  | .query _ => inferInstanceAs (Decidable (_ ∧ _))
  | .rangeSum _ _ => inferInstanceAs (Decidable (_ ∧ _))
  | .prefixSum _ => inferInstanceAs (Decidable (_ ∧ _))

instance (n : ℕ) : (c : TreeCall ℤ) → Decidable (c.Exact n)
  | .update _ _ => inferInstanceAs (Decidable (_ ∧ _))
  | .rangeUpdate _ _ _ => inferInstanceAs (Decidable (_ ∧ _))
  | .query _ => inferInstanceAs (Decidable True)
  | .rangeSum _ _ => inferInstanceAs (Decidable True)
  | .prefixSum r => inferInstanceAs (Decidable (Fits 32 r))

/-- What the queries have to return when the array is `e` at first. -/
noncomputable def answers : (ℤ → ℤ) → List (TreeCall ℤ) → List ℤ
  | _, [] => []
  | e, .update i val :: calls => answers (rangeAdd e i i val) calls
  | e, .rangeUpdate l r val :: calls => answers (rangeAdd e l r val) calls
  | e, .query i :: calls => e i :: answers e calls
  | e, .rangeSum l r :: calls => (∑ k ∈ Finset.Icc l r, e k) :: answers e calls
  | e, .prefixSum r :: calls => (∑ k ∈ Finset.Icc 1 r, e k) :: answers e calls

end TreeCall

namespace BinaryIndexTree

variable {s : BinaryIndexTree ℤ} {n : ℕ} {e : ℤ → ℤ}

/-- The tree holds the differences of the elements of `e` from `1` to `n`. -/
def Tracks (s : BinaryIndexTree ℤ) (n : ℕ) (e : ℤ → ℤ) : Prop :=
  ∃ d, Holds s n d ∧ ∀ k : ℕ, 0 < k → k ≤ n → e k = ∑ p ∈ Finset.Ioc 0 k, d p

/-- The sum of a prefix in terms of the differences. -/
theorem sum_prefix {d : ℕ → ℤ} {r : ℕ}
    (he : ∀ k : ℕ, 0 < k → k ≤ r → e k = ∑ p ∈ Finset.Ioc 0 k, d p) :
    ∑ k ∈ Finset.Icc 1 (r : ℤ), e k =
      (r + 1) * ∑ p ∈ Finset.Ioc 0 r, d p - ∑ p ∈ Finset.Ioc 0 r, p * d p := by
  induction r with
  | zero => simp
  | succ r ih =>
    have hlast := he (r + 1) (by omega) le_rfl
    have hset : Finset.Icc 1 ((r + 1 : ℕ) : ℤ) =
        insert ((r + 1 : ℕ) : ℤ) (Finset.Icc 1 (r : ℤ)) := by
      ext k
      simp only [Finset.mem_Icc, Finset.mem_insert]
      omega
    have hnotMem : ((r + 1 : ℕ) : ℤ) ∉ Finset.Icc 1 (r : ℤ) := by
      rw [Finset.mem_Icc]
      omega
    -- the new element is the sum of all differences so far
    rw [hset, Finset.sum_insert hnotMem, hlast, ih fun k hk hkr => he k hk (by omega),
      Finset.sum_Ioc_succ_top (Nat.zero_le r), Finset.sum_Ioc_succ_top (Nat.zero_le r)]
    push_cast
    ring

/-- The sum of a range is what is left of the longer prefix without the shorter one. -/
theorem sum_range {d : ℕ → ℤ} (he : ∀ k : ℕ, 0 < k → k ≤ n → e k = ∑ p ∈ Finset.Ioc 0 k, d p)
    {m r : ℕ} (hmr : m ≤ r) (hr : r ≤ n) :
    ∑ k ∈ Finset.Icc ((m + 1 : ℕ) : ℤ) r, e k =
      (r + 1) * ∑ p ∈ Finset.Ioc 0 r, d p - ∑ p ∈ Finset.Ioc 0 r, p * d p -
        (m + 1 : ℕ) * ∑ p ∈ Finset.Ioc 0 m, d p + ∑ p ∈ Finset.Ioc 0 m, p * d p := by
  have hright := sum_prefix (r := r) fun k hk hkr => he k hk (by omega)
  have hleft := sum_prefix (r := m) fun k hk hkm => he k hk (by omega)
  have hsplit := sum_Icc_split e (by omega : 1 ≤ (m : ℤ) + 1) (by omega : (m : ℤ) ≤ r)
  rw [hright, hleft] at hsplit
  push_cast
  rw [← sub_eq_of_eq_add' hsplit]
  ring

/-! ## Queries -/

theorem Tracks.query (h : Tracks s n e) {i : ℤ} (hi : 1 ≤ i) (hin : i ≤ n) :
    s.query id i = .ok (e i) := by
  obtain ⟨d, hs, he⟩ := h
  obtain ⟨k, rfl⟩ := Int.eq_ofNat_of_zero_le (by omega : 0 ≤ i)
  rw [he k (by omega) (by omega), ← hs.diffHolds.walkSum_eq (by omega)]
  exact query_walk id hs.toShape (by omega)

/-- The four sums of `range_sum` make the sum of the range, which may be empty. -/
theorem Tracks.rangeSum (h : Tracks s n e) {l r : ℤ} (hl : 1 ≤ l) (hlr : l ≤ r + 1) (hr : r ≤ n) :
    s.rangeSum id l r = .ok (∑ k ∈ Finset.Icc l r, e k) := by
  obtain ⟨d, hs, he⟩ := h
  obtain ⟨r, rfl⟩ := Int.eq_ofNat_of_zero_le (by omega : 0 ≤ r)
  obtain ⟨m, hm⟩ := Int.eq_ofNat_of_zero_le (by omega : 0 ≤ l - 1)
  obtain rfl : l = (m + 1 : ℕ) := by omega
  have hr' : r ≤ n := by omega
  have hm' : m ≤ n := by omega
  rw [rangeSum_walk id hs.toShape hm' hr', sum_range he (by omega) hr',
    ← hs.diffHolds.walkSum_eq hr', ← hs.diffHolds.walkSum_eq hm', ← hs.idiffHolds.walkSum_eq hr',
    ← hs.idiffHolds.walkSum_eq hm']
  rfl

theorem Tracks.prefixSum (h : Tracks s n e) {r : ℤ} (hr : 0 ≤ r) (hrn : r ≤ n) (hfits : Fits 32 r) :
    s.prefixSum id r = .ok (∑ k ∈ Finset.Icc 1 r, e k) := by
  rw [BinaryIndexTree.prefixSum, narrow_eq hfits]
  exact h.rangeSum le_rfl (by omega) hrn

/-! ## Changes -/

/-- The two changes of differences that `range_update` makes add up to the change of the range. -/
theorem sum_changes {d : ℕ → ℤ} (he : ∀ k : ℕ, 0 < k → k ≤ n → e k = ∑ p ∈ Finset.Ioc 0 k, d p)
    (val : ℤ) {l r : ℤ} (hlr : l ≤ r) (k : ℕ) (hk : 0 < k) (hkn : k ≤ n) :
    rangeAdd e l r val k = ∑ p ∈ Finset.Ioc 0 k,
      (d p + (if p = clamp l then val else 0) + if p = clamp (r + 1) then -val else 0) := by
  rw [Finset.sum_add_distrib, Finset.sum_add_distrib, ← he k hk hkn, Finset.sum_ite_eq',
    Finset.sum_ite_eq']
  -- a prefix that ends at `k` has the change at `x` if and only if `x ≤ k`
  have hmem (x : ℤ) : clamp x ∈ Finset.Ioc 0 k ↔ x ≤ k := by
    rw [Finset.mem_Ioc, clamp_le_iff x hk]
    exact and_iff_right (clamp_pos x)
  simp only [hmem, rangeAdd]
  split_ifs <;> omega

theorem Tracks.rangeUpdate (h : Tracks s n e) (val : ℤ) {l r : ℤ} (hlr : l ≤ r) (hl : Fits 32 l)
    (hr : Fits 32 (r + 1)) (hwalk : WalkFits n (clamp l)) (hwalk' : WalkFits n (clamp (r + 1))) :
    ∃ s', s.rangeUpdate l r val = .ok s' ∧ Tracks s' n (rangeAdd e l r val) := by
  obtain ⟨d, hs, he⟩ := h
  obtain ⟨s', hs', hholds⟩ := rangeUpdate_holds hs val hl hr hwalk hwalk'
  exact ⟨s', hs', _, hholds, sum_changes he val hlr⟩

/-! ## Sequences of calls -/

/-- Any sequence of calls on a tree that holds the differences of an array. -/
theorem Tracks.run (h : Tracks s n e) (calls : List (TreeCall ℤ))
    (hcalls : ∀ c ∈ calls, c.Allowed n ∧ c.Exact n) :
    ∃ s', s.run id calls = .ok (TreeCall.answers e calls, s') := by
  induction calls generalizing s e with
  | nil => exact ⟨s, rfl⟩
  | cons c calls ih =>
    obtain ⟨hallowed, hexact⟩ := hcalls c List.mem_cons_self
    have hrest : ∀ c ∈ calls, c.Allowed n ∧ c.Exact n :=
      fun c hmem => hcalls c (List.mem_cons_of_mem _ hmem)
    cases c with
    -- an update of one element is one of a range of length one
    | update i val =>
      obtain ⟨s₁, hs₁, h₁⟩ := h.rangeUpdate val le_rfl hexact.1 hexact.2.1 hexact.2.2.1
        hexact.2.2.2
      obtain ⟨s', hs'⟩ := ih h₁ hrest
      exact ⟨s', by simp only [BinaryIndexTree.run, update, hs₁, hs', bind, Except.bind,
        TreeCall.answers]⟩
    | rangeUpdate l r val =>
      obtain ⟨s₁, hs₁, h₁⟩ := h.rangeUpdate val hallowed hexact.1 hexact.2.1 hexact.2.2.1
        hexact.2.2.2
      obtain ⟨s', hs'⟩ := ih h₁ hrest
      exact ⟨s', by simp only [BinaryIndexTree.run, hs₁, hs', bind, Except.bind,
        TreeCall.answers]⟩
    | query i =>
      obtain ⟨s', hs'⟩ := ih h hrest
      exact ⟨s', by simp only [BinaryIndexTree.run, h.query hallowed.1 hallowed.2, hs', bind,
        Except.bind, TreeCall.answers]⟩
    | rangeSum l r =>
      obtain ⟨s', hs'⟩ := ih h hrest
      have hsum := h.rangeSum hallowed.1 (by have := hallowed.2.1; omega) hallowed.2.2
      exact ⟨s', by simp only [BinaryIndexTree.run, hsum, hs', bind, Except.bind,
        TreeCall.answers]⟩
    | prefixSum r =>
      obtain ⟨s', hs'⟩ := ih h hrest
      exact ⟨s', by simp only [BinaryIndexTree.run, h.prefixSum hallowed.1 hallowed.2 hexact, hs',
        bind, Except.bind, TreeCall.answers]⟩

theorem create_tracks (n : ℕ) : Tracks (create n) n fun _ => 0 :=
  ⟨_, create_holds n, fun _ _ _ => Finset.sum_const_zero.symm⟩

/-- The elements of the vector that `init` is called with; positions start at `1`. -/
def elements (vec : List ℤ) : ℤ → ℤ := fun k => vec.getD (k - 1).toNat 0

theorem init_tracks (m : ℕ) (vec : List ℤ) :
    ∃ s, (create m).init vec = .ok s ∧ Tracks s vec.length (elements vec) := by
  obtain ⟨s, hs, hholds⟩ := init_holds m vec
  refine ⟨s, hs, _, hholds, fun k hk hkn => ?_⟩
  obtain ⟨j, rfl⟩ := Nat.exists_eq_add_of_lt hk
  rw [Nat.zero_add, sum_delta, elements]
  simp

/-- From the constructor, or from `init` on a fresh tree, every query returns the element or the
sum of the range that the changes so far have left, as long as all positions that the code keeps
in an `int` are exact. -/
theorem run_queries (n : ℕ) (hn : 1 ≤ n) (calls : List (TreeCall ℤ))
    (hcalls : ∀ c ∈ calls, c.Allowed n ∧ c.Exact n) :
    (∃ s', (create n).run id calls = .ok (TreeCall.answers (fun _ => 0) calls, s')) ∧
      ∀ (m : ℕ) (vec : List ℤ), vec.length = n →
        ∃ s s', (create m).init vec = .ok s ∧
          s.run id calls = .ok (TreeCall.answers (elements vec) calls, s') := by
  refine ⟨(create_tracks n).run calls hcalls, ?_⟩
  rintro m vec rfl
  obtain ⟨s, hs, htracks⟩ := init_tracks m vec
  obtain ⟨s', hs'⟩ := htracks.run calls hcalls
  exact ⟨s, s', hs, hs'⟩

/-- A range that ends behind the array. -/
theorem run_queries_three :
    ∃ s', (create 3).run id [.rangeUpdate (-4) 7 5, .update 2 1, .query 2, .rangeSum 2 3,
      .prefixSum 3] = .ok ([6, 11, 16], s') := by
  have hcalls : ∀ c ∈ [TreeCall.rangeUpdate (-4) 7 5, .update 2 1, .query 2, .rangeSum 2 3,
      .prefixSum 3], c.Allowed 3 ∧ c.Exact 3 := by
    decide +kernel
  have hanswers : TreeCall.answers (fun _ => 0) [.rangeUpdate (-4) 7 5, .update 2 1, .query 2,
      .rangeSum 2 3, .prefixSum 3] = [6, 11, 16] := by decide
  have h := (run_queries 3 (by decide) _ hcalls).1
  rwa [hanswers] at h

/-- A range that ends at the largest `int`: the position behind it becomes negative, and is taken
for the first one, so that nothing is added. -/
theorem run_int_overflow :
    ¬ ∀ (n : ℕ) (calls : List (TreeCall ℤ)), 1 ≤ n → (∀ c ∈ calls, c.Allowed n) →
      ∃ s', (create n).run id calls = .ok (TreeCall.answers (fun _ => 0) calls, s') := by
  intro h
  obtain ⟨s', hs'⟩ := h 1 [.rangeUpdate 1 (2 ^ 31 - 1) 5, .query 1] le_rfl (by decide)
  have hrun : ((create 1).run id [.rangeUpdate 1 (2 ^ 31 - 1) 5, .query 1]).toOption.map
      Prod.fst = some [0] := by decide +kernel
  have hanswers : TreeCall.answers (fun _ => 0) [.rangeUpdate 1 (2 ^ 31 - 1) 5, .query 1] ≠
      [0] := by decide
  rw [hs'] at hrun
  exact hanswers (Option.some.inj hrun)

end BinaryIndexTree

end CppLearn

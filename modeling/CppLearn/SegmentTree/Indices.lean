import CppLearn.SegmentTree.Operations

/-!
# Four entries for each element

The children of node `i` are `2 * i + 1` and `2 * i + 2`, and each of them gets one half of the
interval of the node, so the tree over `n` positions is as deep as the logarithm of `n`, rounded up.
A level that is started has less than `2 * n` places, and the numbers up to its end are below
`4 * n`. This is so for every `n`. Numbers are of type `int32_t`, which is large enough up to
`2 ^ 30` elements. Then all accesses are inside the vectors, whatever these contain.

The numbers of the nodes are bounded by `node_lt`. The recursive functions return, whatever the
vectors contain (`update_returns`, `query_returns`), and so do the public operations
(`indices_in_bounds`).
-/

namespace CppLearn.SegmentTree

open BoundedLoop CheckedVector Signed HeapOrder

variable {T : Type} [CommRing T] {s : SegmentTree T} {n i h fuel : ℕ} {lo hi l r : ℤ}

/-- The nodes over `n` positions have numbers below `n * 4`. -/
theorem node_lt (hpos : 1 ≤ n) {j : ℕ} (hj : LazySums.Node 0 0 (n - 1) j) : j < n * 4 := by
  obtain ⟨h, hle, hroom, -⟩ := exists_height hpos
  have hwidth : (n : ℤ) ≤ 2 ^ h := by exact_mod_cast hle
  have hlast := hj.add_two_le (h := h) (by omega)
  omega

/-! ## The recursive functions -/

variable [DecidableEq T]

/-- `_update` returns for a range that meets the interval. -/
theorem update_returns (hroom : Room s i lo hi h) (hfuel : h < fuel) (hle : lo ≤ hi)
    (hl : l ≤ hi) (hr : lo ≤ r) (value : T) :
    ∃ s', update l r value fuel lo hi i s = .ok s' := by
  induction fuel generalizing s i lo hi h with
  | zero => omega
  | succ fuel ih =>
    by_cases hin : l ≤ lo ∧ hi ≤ r
    · obtain ⟨s', hs', -⟩ := addAll_writes hroom value
      exact ⟨s', by rw [update, if_pos hin]; exact hs'⟩
    · have hlt : lo < hi := by omega
      obtain ⟨h, rfl⟩ := hroom.exists_succ hlt
      have hm := LazySums.middle_bounds hlt
      obtain ⟨s₁, hs₁, -⟩ := maintain_pushed hroom hlt
      have hroom₁ := hroom.of_sameLength (maintain_length hs₁)
      -- a half is visited if it meets the range
      obtain ⟨s₂, hs₂, hsame₂⟩ : ∃ s₂, (if l ≤ LazySums.middle lo hi then
            update l r value fuel lo (LazySums.middle lo hi) (childIndex i false : ℕ) s₁
          else .ok s₁) = .ok s₂ ∧ SameLength s₁ s₂ := by
        split_ifs with hc
        · obtain ⟨s₂, hs₂⟩ := ih hroom₁.left (by omega) hm.1 hc hr
          exact ⟨s₂, hs₂, update_length hs₂⟩
        · exact ⟨s₁, rfl, .refl s₁⟩
      have hroom₂ := hroom₁.of_sameLength hsame₂
      obtain ⟨s₃, hs₃, hsame₃⟩ : ∃ s₃, (if LazySums.middle lo hi < r then
            update l r value fuel (LazySums.middle lo hi + 1) hi (childIndex i true : ℕ) s₂
          else .ok s₂) = .ok s₃ ∧ SameLength s₂ s₃ := by
        split_ifs with hc
        · obtain ⟨s₃, hs₃⟩ := ih hroom₂.right (by omega) (by omega) hl (by omega)
          exact ⟨s₃, hs₃, update_length hs₃⟩
        · exact ⟨s₂, rfl, .refl s₂⟩
      obtain ⟨s₄, hs₄, -⟩ := sumChildren_writes (hroom₂.of_sameLength hsame₃)
      refine ⟨s₄, ?_⟩
      rw [update, if_neg hin, hs₁]
      simp only [bind, Except.bind]
      rw [middle_eq hle, hroom.leftChild, hroom.rightChild, hs₂]
      simp only []
      rw [hs₃]
      exact hs₄

/-- `_query` returns for a range that meets the interval. -/
theorem query_returns (hroom : Room s i lo hi h) (hfuel : h < fuel) (hle : lo ≤ hi)
    (hl : l ≤ hi) (hr : lo ≤ r) : ∃ sum s', query l r fuel lo hi i s = .ok (sum, s') := by
  induction fuel generalizing s i lo hi h with
  | zero => omega
  | succ fuel ih =>
    by_cases hin : l ≤ lo ∧ hi ≤ r
    · refine ⟨s.treeAt i, s, ?_⟩
      rw [query, if_pos hin, read_tree hroom.tree_lt]
      rfl
    · have hlt : lo < hi := by omega
      obtain ⟨h, rfl⟩ := hroom.exists_succ hlt
      have hm := LazySums.middle_bounds hlt
      obtain ⟨s₁, hs₁, -⟩ := maintain_pushed hroom hlt
      have hroom₁ := hroom.of_sameLength (maintain_length hs₁)
      -- the calls for the two halves, which are made if the half meets the range
      have hleft : l ≤ LazySums.middle lo hi → ∃ x s₂,
          query l r fuel lo (LazySums.middle lo hi) (childIndex i false : ℕ) s₁ = .ok (x, s₂) :=
        fun hc => ih hroom₁.left (by omega) hm.1 hc hr
      have hright : ∀ s₂, SameLength s₁ s₂ → LazySums.middle lo hi < r → ∃ x s₃,
          query l r fuel (LazySums.middle lo hi + 1) hi (childIndex i true : ℕ) s₂ = .ok (x, s₃) :=
        fun s₂ hsame hc => ih (hroom₁.of_sameLength hsame).right (by omega) (by omega) hl (by omega)
      rw [query, if_neg hin, hs₁]
      simp only [bind, Except.bind]
      rw [middle_eq hle, hroom.leftChild, hroom.rightChild]
      by_cases hc : l ≤ LazySums.middle lo hi
      · obtain ⟨x, s₂, hs₂⟩ := hleft hc
        simp only [if_pos hc, hs₂]
        split_ifs with hc'
        · obtain ⟨y, s₃, hs₃⟩ := hright s₂ (query_length hs₂) hc'
          exact ⟨_, s₃, by rw [hs₃]⟩
        · exact ⟨_, s₂, rfl⟩
      · simp only [if_neg hc]
        split_ifs with hc'
        · obtain ⟨y, s₃, hs₃⟩ := hright s₁ (.refl s₁) hc'
          exact ⟨_, s₃, by rw [hs₃]⟩
        · exact ⟨_, s₁, rfl⟩

/-! ## Public operations -/

/-- The vectors have four entries for each of `n` elements. -/
def FourFold (n : ℕ) (s : SegmentTree T) : Prop := s.tree.length = n * 4 ∧ s.lazy.length = n * 4

omit [CommRing T] [DecidableEq T] in
theorem FourFold.of_sameLength {s' : SegmentTree T} (hs : FourFold n s) (hsame : SameLength s s') :
    FourFold n s' := ⟨hsame.1.trans hs.1, hsame.2.trans hs.2⟩

omit [DecidableEq T] in
/-- `init` on any tree. -/
theorem init_returns (s : SegmentTree T) (v : List T) (initValue : Bool) (hpos : 1 ≤ v.length)
    (hn : v.length ≤ 2 ^ 30) :
    ∃ s', s.init v initValue = .ok s' ∧ FourFold v.length s' := by
  have hlen : FourFold v.length
      (⟨resize s.tree (v.length * 4) 0, resize s.lazy (v.length * 4) 0⟩ : SegmentTree T) :=
    ⟨length_resize .., length_resize ..⟩
  cases initValue with
  | false => exact ⟨_, rfl, hlen⟩
  | true =>
    obtain ⟨h, hfuel, hroom⟩ := exists_room hlen.1 hlen.2 hpos hn
    obtain ⟨s', hs', -⟩ := build_sums v hroom hfuel (by omega) le_rfl (by omega)
    refine ⟨s', ?_, hlen.of_sameLength (build_length hs')⟩
    rw [init, narrow_last hn]
    exact hs'

/-- The numbers of the nodes over `n` positions are below `n * 4`, for every `n`. Up to `2 ^ 30`
elements, where they are values of `int32_t`, the calls of the operations do not access anything
outside the vectors, which have so many entries. -/
theorem indices_in_bounds (n : ℕ) (hpos : 1 ≤ n) :
    (∀ j, LazySums.Node 0 0 (n - 1) j → j < n * 4) ∧
      (n ≤ 2 ^ 30 →
        (∀ (s : SegmentTree T) (v : List T) (initValue : Bool), v.length = n →
          ∃ s', s.init v initValue = .ok s' ∧ FourFold n s') ∧
        ∀ (s : SegmentTree T) (l r : ℤ), FourFold n s → 0 ≤ l → l ≤ r → r < n →
          (∃ sum s', s.rangeSum l r = .ok (sum, s') ∧ FourFold n s') ∧
          ∀ value, ∃ s', s.rangeAdd l r value = .ok s' ∧ FourFold n s') := by
  refine ⟨fun j hj => node_lt hpos hj, fun hn => ⟨fun s v initValue hv => ?_,
    fun s l r hs hl hlr hr => ?_⟩⟩
  · subst hv
    exact init_returns s v initValue hpos hn
  · obtain ⟨h, hfuel, hroom⟩ := exists_room hs.1 hs.2 hpos hn
    have hlast := lastPosition_eq hs.1 hn
    constructor
    · obtain ⟨sum, s', hs'⟩ := query_returns (l := l) (r := r) hroom hfuel (by omega) (by omega)
        (by omega)
      exact ⟨sum, s', by rw [rangeSum, hlast]; exact hs', hs.of_sameLength (query_length hs')⟩
    · intro value
      obtain ⟨s', hs'⟩ := update_returns (l := l) (r := r) hroom hfuel (by omega) (by omega)
        (by omega) value
      exact ⟨s', by rw [rangeAdd, hlast]; exact hs', hs.of_sameLength (update_length hs')⟩

/-- Five elements, with any tags. -/
theorem indices_in_bounds_five :
    ∃ sum s', (⟨List.replicate 20 1, List.replicate 20 7⟩ : SegmentTree ℤ).rangeSum 1 3 =
      .ok (sum, s') ∧ FourFold 5 s' :=
  (((indices_in_bounds 5 (by decide)).2 (by decide)).2 _ 1 3 ⟨rfl, rfl⟩ (by decide) (by decide)
    (by decide)).1

/-- With `2 ^ 30 + 1` elements an index is negative, and the access is not inside the vector. -/
theorem index_out_of_bounds :
    ∃ s, fresh.init (List.replicate (2 ^ 30 + 1) (0 : ℤ)) false = .ok s ∧
      FourFold (2 ^ 30 + 1) s ∧ rightChild (2 ^ 30 - 1) = -2 ^ 31 ∧
      s.rangeSum 1 1 = .error .invalidAccess := by
  have hs := init_false (List.replicate (2 ^ 30 + 1) (0 : ℤ))
  obtain ⟨htree, hlazy, hfail⟩ := rangeSum_overflow hs
  exact ⟨_, hs, ⟨htree, hlazy⟩, by decide, hfail⟩

end CppLearn.SegmentTree

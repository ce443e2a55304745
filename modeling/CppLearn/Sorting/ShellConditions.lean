import CppLearn.Sorting.ShellSort
import Mathlib.Data.Nat.Find

/-!
# Vectors that `shell_sort` sorts

The procedure exchanges the wrong elements unless the gap is one, and may read before the beginning
of the vector then. Nothing goes wrong as long as no exchange is made with a larger gap: each
element is at least as large as the one a gap before it (`GapSorted`). Exchanges in the pass with
the first gap are harmless as long as they are made for the first element only, but all other
elements of its first round must pass the comparison (`FirstPass`). With less than eight elements
there is no other pass before the one with gap one, so that this decides whether the vector is
sorted; with more elements it is still necessary.
-/

namespace CppLearn.Sorting

open BoundedLoop CheckedVector Signed

variable {T : Type} [LinearOrder T] {v w : List T} {d i j k m n r : ℕ}

/-! ## Comparisons -/

/-- The element at position `i` is smaller than the one at position `j`. -/
def LessAt (v : List T) (i j : ℕ) : Prop := ∃ x ∈ v[i]?, ∃ y ∈ v[j]?, x < y

instance (v : List T) (i j : ℕ) : Decidable (LessAt v i j) :=
  inferInstanceAs (Decidable (∃ x ∈ v[i]?, ∃ y ∈ v[j]?, x < y))

/-- The relation in terms of the elements. -/
theorem lessAt_iff (hi : i < v.length) (hj : j < v.length) (z : T) :
    LessAt v i j ↔ v.getD i z < v.getD j z := by
  simp [LessAt, hi, hj]

/-- Only the two elements matter. -/
theorem LessAt.congr {i' j' : ℕ} (hi : w[i]? = v[i']?) (hj : w[j]? = v[j']?) :
    LessAt w i j ↔ LessAt v i' j' := by
  rw [LessAt, hi, hj, LessAt]

/-- An element that is not smaller than the one a gap before it stays where it is. -/
theorem shellInsert_of_not_lessAt (hd : 0 < d) (hdi : d ≤ i) (hi : i < v.length)
    (h : ¬LessAt v i (i - d)) : shellInsert d i v = .ok v := by
  obtain ⟨j, rfl⟩ := Nat.exists_eq_add_of_le' hdi
  rw [Nat.add_sub_cancel, lessAt_iff hi (by omega) v[j]] at h
  have hstep := shellInsertStep_eq hd hi v[j]
  rw [if_neg h] at hstep
  exact iterate_exit hstep _

/-- The loop that leaves the vector makes an exchange first. -/
theorem Leaves.lessAt (h : Leaves v d i) (hd : 0 < d) (hdi : d ≤ i) (hi : i < v.length) :
    LessAt v i (i - d) := by
  obtain ⟨q, hq⟩ : ∃ q, i / d = q + 1 :=
    Nat.exists_eq_add_of_le' ((Nat.one_le_div_iff hd).2 hdi)
  have hmod := Nat.mod_add_div' i d
  rw [hq, Nat.succ_mul] at hmod
  have hlow : i % d + q * d = i - d := by omega
  have hhigh : i % d + (q + 1) * d = i := by rw [Nat.succ_mul]; omega
  have hlt := h.2 q (by omega) v[i - d] (by rw [hlow]; simp) v[i] (by rw [hhigh]; simp)
  exact ⟨v[i], by simp, v[i - d], by simp, hlt⟩

/-- In the first round of a pass, all elements but the first one have no second chance. -/
theorem leaves_of_lessAt (hlow : d < i) (hhigh : i < 2 * d) (h : LessAt v i (i - d)) :
    Leaves v d i := by
  have hdiv : i / d = 1 := Nat.div_eq_of_lt_le (by omega) (by omega)
  have hmod : i % d = i - d := by
    have := Nat.mod_add_div' i d
    rw [hdiv, Nat.one_mul] at this
    omega
  refine ⟨by omega, fun k hk x hx y hy => ?_⟩
  obtain rfl : k = 0 := by omega
  obtain ⟨y', hy', x', hx', hlt⟩ := h
  rw [hmod, Nat.zero_mul, Nat.add_zero] at hx
  rw [hmod, Nat.zero_add, Nat.one_mul, Nat.sub_add_cancel hlow.le] at hy
  rwa [Option.mem_unique hx hx', Option.mem_unique hy hy']

/-! ## Passes without exchanges -/

/-- A part of a pass in which all elements stay where they are. -/
theorem ShellReaches.pass (h : ShellReaches v v d d) (hdm : d ≤ m) (hm : m ≤ v.length)
    (hstay : ∀ i, d ≤ i → i < m → ¬LessAt v i (i - d)) : ShellReaches v v d m := by
  induction m, hdm using Nat.le_induction with
  | base => exact h
  | succ i hdi ih =>
    have hreach := ih (Nat.le_of_succ_le hm) fun j hj hlt => hstay j hj (Nat.lt_succ_of_lt hlt)
    exact hreach.insert hm (shellInsert_of_not_lessAt h.pos hdi hm
      (hstay i hdi (Nat.lt_succ_self i)))

/-- With each gap but the last one, no element is smaller than the one a gap before it. -/
def GapSorted (v : List T) : Prop :=
  ∀ k < v.length, 2 ≤ v.length / 2 ^ (k + 1) → ∀ i < v.length, v.length / 2 ^ (k + 1) ≤ i →
    ¬LessAt v i (i - v.length / 2 ^ (k + 1))

instance (v : List T) : Decidable (GapSorted v) :=
  inferInstanceAs (Decidable (∀ k < v.length, _ → ∀ i < v.length, _ → _))

/-- The gap is halved in each pass, so there are fewer passes than elements. -/
theorem lt_of_two_le_gap (h : 2 ≤ n / 2 ^ (k + 1)) : k < n := by
  by_contra hnot
  have hlt : n < 2 ^ (k + 1) := (Nat.lt_succ_of_le (not_lt.1 hnot)).trans Nat.lt_two_pow_self
  rw [Nat.div_eq_of_lt hlt] at h
  omega

/-- Gaps become smaller. -/
theorem gap_le (n : ℕ) (hjk : j ≤ k) : n / 2 ^ (k + 1) ≤ n / 2 ^ (j + 1) :=
  Nat.div_le_div_left (Nat.pow_le_pow_right (by decide) (Nat.succ_le_succ hjk))
    (Nat.two_pow_pos _)

/-- The gap of the next pass. -/
theorem half_gap (n k : ℕ) : n / 2 ^ (k + 1) / 2 = n / 2 ^ (k + 1 + 1) := by
  rw [Nat.div_div_eq_div_mul, ← Nat.pow_succ]

/-- No gap is more than half of the length. -/
theorem ShellReaches.le_half (h : ShellReaches v w d i) : d ≤ v.length / 2 := by
  induction h with
  | start => exact le_rfl
  | insert _ _ _ ih => exact ih
  | nextGap _ _ _ ih => exact (Nat.div_le_self _ _).trans ih

/-- The run finds the vector as it was in all passes but the last one. -/
theorem ShellReaches.eq_of_gapSorted (hv : GapSorted v) (h : ShellReaches v w d i) (hd : 2 ≤ d) :
    w = v ∧ d ≤ i ∧ ∃ k, d = v.length / 2 ^ (k + 1) := by
  induction h with
  | start => exact ⟨rfl, le_rfl, 0, by rw [Nat.zero_add, Nat.pow_one]⟩
  | @insert w w' d i hreach hi hrun ih =>
    obtain ⟨heq, hdi, k, rfl⟩ := ih hd
    rw [heq, shellInsert_of_not_lessAt hreach.pos hdi hi
      (hv k (lt_of_two_le_gap hd) hd i hi hdi)] at hrun
    exact ⟨(Except.ok.inj hrun).symm, by omega, k, rfl⟩
  | @nextGap w d i hreach hi hpos ih =>
    obtain ⟨heq, -, k, rfl⟩ := ih (by omega)
    exact ⟨heq, le_rfl, k + 1, half_gap v.length k⟩

/-- If the elements at each gap are in order, no insertion leaves the vector. -/
theorem stays_of_gapSorted (hv : GapSorted v) (h : ShellReaches v w d i) (hi : i < v.length) :
    ¬Leaves w d i := by
  intro hleaves
  rcases Nat.lt_or_ge d 2 with hone | hd
  · obtain rfl : d = 1 := by
      have := h.pos
      omega
    exact hleaves.1 (Nat.mod_one i)
  · obtain ⟨heq, hdi, k, rfl⟩ := h.eq_of_gapSorted hv hd
    rw [heq] at hleaves
    exact hv k (lt_of_two_le_gap hd) hd i hi hdi (hleaves.lessAt h.pos hdi hi)

/-- If an element is smaller than the one a gap before it, the run finds two such elements, while
the vector is as it was, and exchanges the wrong ones. -/
theorem exists_reaches_of_not_gapSorted (hv : ¬GapSorted v) :
    ∃ d i, 2 ≤ d ∧ d ≤ i ∧ i < v.length ∧ ShellReaches v v d i ∧ LessAt v i (i - d) := by
  have hex : ∃ k, 2 ≤ v.length / 2 ^ (k + 1) ∧ ∃ i, v.length / 2 ^ (k + 1) ≤ i ∧ i < v.length ∧
      LessAt v i (i - v.length / 2 ^ (k + 1)) := by
    simp only [GapSorted, not_forall, not_not] at hv
    obtain ⟨k, -, hd, i, hi, hdi, hless⟩ := hv
    exact ⟨k, hd, i, hdi, hi, hless⟩
  classical
  -- the first gap, and the first element in its pass
  obtain ⟨hd, hex'⟩ := Nat.find_spec hex
  have hgaps : ∀ k < Nat.find hex, ∀ i, v.length / 2 ^ (k + 1) ≤ i → i < v.length →
      ¬LessAt v i (i - v.length / 2 ^ (k + 1)) := by
    intro k hk i hdi hi hless
    exact Nat.find_min hex hk ⟨hd.trans (gap_le _ hk.le), i, hdi, hi, hless⟩
  generalize Nat.find hex = k at hd hex' hgaps
  have hreach : ∀ j ≤ k, ShellReaches v v (v.length / 2 ^ (j + 1)) (v.length / 2 ^ (j + 1)) := by
    intro j
    induction j with
    | zero =>
      intro _
      have hle := gap_le v.length (Nat.zero_le k)
      rw [Nat.zero_add, Nat.pow_one] at hle ⊢
      exact .start (by omega)
    | succ j ih =>
      intro hj
      have hend := (ih (by omega)).pass (Nat.div_le_self _ _) le_rfl (hgaps j (by omega))
      have hle := gap_le v.length hj
      rw [← half_gap] at hle ⊢
      exact hend.nextGap le_rfl (by omega)
  obtain ⟨hdi, hi, hless⟩ := Nat.find_spec hex'
  refine ⟨_, _, hd, hdi, hi, (hreach k le_rfl).pass hdi hi.le fun i hdi' hlt hless' => ?_, hless⟩
  exact Nat.find_min hex' hlt ⟨hdi', hlt.trans hi, hless'⟩

/-! ## The first pass -/

/-- The position whose element the one at `d + r` is compared with in the pass with gap `d`. The
first exchange of the pass may have moved the element at `d` in front of it. -/
def compared (v : List T) (d r : ℕ) : ℕ := if r + 1 = d ∧ LessAt v d 0 then d else r

/-- In the pass with the first gap, no element but the first one is smaller than the one that it is
compared with. -/
def FirstPass (v : List T) : Prop :=
  ∀ r < v.length / 2, 1 ≤ r → ¬LessAt v (v.length / 2 + r) (compared v (v.length / 2) r)

instance (v : List T) : Decidable (FirstPass v) :=
  inferInstanceAs (Decidable (∀ r < v.length / 2, 1 ≤ r → _))

/-- The first insertion of a pass moves the element at `d` by one position, or does nothing. -/
theorem exists_shellInsert_first (hd : 2 ≤ d) (hlen : d < v.length) :
    ∃ w, shellInsert d d v = .ok w ∧ w.length = v.length ∧
      ∀ r, 1 ≤ r → r < d → (LessAt w (d + r) r ↔ LessAt v (d + r) (compared v d r)) := by
  have hstep := shellInsertStep_eq (v := v) (j := 0) (show 0 < d by omega) (by omega) v[0]
  rw [Nat.zero_add] at hstep
  have hiff := lessAt_iff (v := v) hlen (show 0 < v.length by omega) v[0]
  by_cases hless : LessAt v d 0
  · obtain ⟨w, hw, hre, hcell, -⟩ := swap_rearranged (v := v) (i := d - 1) (j := d)
      (Nat.zero_le _) (show _ < v.length by omega) (Nat.zero_le _) hlen (by omega) hlen
    rw [if_pos (hiff.1 hless), hw] at hstep
    refine ⟨w, ?_, hre.length_eq, fun r hr hrd => LessAt.congr ?_ ?_⟩
    · obtain ⟨fuel, rfl⟩ := Nat.exists_eq_add_of_le' (show 1 ≤ d by omega)
      rw [shellInsert, iterate, hstep]
      exact iterate_exit (shellInsertStep_zero _ w) _
    · rw [hcell, Equiv.swap_apply_of_ne_of_ne (by omega) (by omega)]
    · rw [hcell, compared]
      split_ifs with hlast
      · rw [show r = d - 1 by omega, Equiv.swap_apply_left]
      · have hne : r + 1 ≠ d := fun h => hlast ⟨h, hless⟩
        rw [Equiv.swap_apply_of_ne_of_ne (by omega) (by omega)]
  · rw [if_neg fun hlt => hless (hiff.2 hlt)] at hstep
    refine ⟨v, iterate_exit hstep _, rfl, fun r _ _ => ?_⟩
    rw [compared, if_neg fun h => hless h.2]

/-- If `shell_sort` sorts the vector, all elements pass the comparison in the first pass. -/
theorem firstPass_of_stays
    (hstays : ∀ w d i, ShellReaches v w d i → i < v.length → ¬Leaves w d i) : FirstPass v := by
  intro r hr hr1
  obtain ⟨w, hrun, hlen, hiff⟩ :=
    exists_shellInsert_first (v := v) (d := v.length / 2) (by omega) (by omega)
  have hfirst := (ShellReaches.start (v := v) (by omega)).insert (by omega) hrun
  -- the next elements stay where they are
  have hreach : ∀ r, 1 ≤ r → r < v.length / 2 → ShellReaches v w (v.length / 2)
      (v.length / 2 + r) := by
    intro r hr1
    induction r, hr1 using Nat.le_induction with
    | base => exact fun _ => hfirst
    | succ r hr1 ih =>
      intro hr
      have hprev := ih (by omega)
      have hnot : ¬LessAt w (v.length / 2 + r) (v.length / 2 + r - v.length / 2) := fun hless =>
        hstays _ _ _ hprev (by omega) (leaves_of_lessAt (by omega) (by omega) hless)
      exact hprev.insert (by omega)
        (shellInsert_of_not_lessAt hprev.pos (by omega) (by omega) hnot)
  rw [← hiff r hr1 hr]
  intro hless
  refine hstays _ _ _ (hreach r hr1 hr) (by omega) (leaves_of_lessAt (by omega) (by omega) ?_)
  rwa [Nat.add_sub_cancel_left]

/-- With less than eight elements, there is one pass with a gap of two or three at most, and its
first insertion is the only one that moves something in the first round. -/
theorem ShellReaches.eq_of_firstPass {u : List T} (hlen : v.length < 8) (hv : FirstPass v)
    (hu : shellInsert (v.length / 2 : ℕ) (v.length / 2) v = .ok u) (hulen : u.length = v.length)
    (hiff : ∀ r, 1 ≤ r → r < v.length / 2 →
      (LessAt u (v.length / 2 + r) r ↔ LessAt v (v.length / 2 + r) (compared v (v.length / 2) r)))
    (h : ShellReaches v w d i) (hd : 2 ≤ d) :
    d = v.length / 2 ∧ d ≤ i ∧ (i = d → w = v) ∧ (d < i → i ≤ 2 * d → w = u) := by
  induction h with
  | start => exact ⟨rfl, le_rfl, fun _ => rfl, fun hlt => absurd hlt (lt_irrefl _)⟩
  -- in the second round of the pass no element is less, so that nothing moves
  | @insert w w' d i hreach hi hrun ih =>
    obtain ⟨rfl, hdi, heq, hnext⟩ := ih hd
    refine ⟨rfl, by omega, fun h => by omega, fun _ hle => ?_⟩
    rcases hdi.eq_or_lt with rfl | hlt
    · rw [heq rfl, hu] at hrun
      exact (Except.ok.inj hrun).symm
    · obtain rfl := hnext hlt (by omega)
      have hnot : ¬LessAt w i (i - v.length / 2) := by
        obtain ⟨r, rfl⟩ := Nat.exists_eq_add_of_le hdi
        rw [Nat.add_sub_cancel_left, hiff r (by omega) (by omega)]
        exact hv r (by omega) (by omega)
      rw [shellInsert_of_not_lessAt hreach.pos hdi (by omega) hnot] at hrun
      exact (Except.ok.inj hrun).symm
  | nextGap hreach hi hpos ih =>
    have := (ih (by omega)).1
    omega

/-- With less than eight elements, this is decided in the first pass. -/
theorem stays_of_firstPass (hlen : v.length < 8) (hv : FirstPass v) (h : ShellReaches v w d i)
    (hi : i < v.length) : ¬Leaves w d i := by
  intro hleaves
  have hne := hleaves.1
  rcases Nat.lt_or_ge d 2 with hone | hd
  · obtain rfl : d = 1 := by
      have := h.pos
      omega
    exact hne (Nat.mod_one i)
  have hhalf := h.le_half
  obtain ⟨u, hu, hulen, hiff⟩ :=
    exists_shellInsert_first (v := v) (d := v.length / 2) (by omega) (by omega)
  obtain ⟨rfl, hdi, -, hnext⟩ := h.eq_of_firstPass hlen hv hu hulen hiff hd
  rcases hdi.eq_or_lt with rfl | hlt
  · exact hne (Nat.mod_self _)
  rcases Nat.lt_or_ge i (2 * (v.length / 2)) with hlow | hhigh
  · obtain rfl := hnext hlt hlow.le
    obtain ⟨r, rfl⟩ := Nat.exists_eq_add_of_le hdi
    have hless := hleaves.lessAt h.pos hdi (by omega)
    rw [Nat.add_sub_cancel_left, hiff r (by omega) (by omega)] at hless
    exact hv r (by omega) (by omega) hless
  · -- the last element of an odd number
    obtain rfl : i = 2 * (v.length / 2) := by omega
    exact hne (Nat.mul_mod_left _ _)

/-! ## Sorted vectors -/

/-- A pass over the first `n` elements of a sorted vector. -/
theorem shellPass_of_sorted (hv : v.Pairwise (· ≤ ·)) (hd : 0 < d) (hn : n ≤ v.length) :
    shellPass n (v, (d : ℤ)) = .ok (v, ((d / 2 : ℕ) : ℤ)) := by
  rw [shellPass_eq]
  rcases Nat.le_total n d with hnd | hdn
  · rw [forLoop_of_le hnd]
    rfl
  obtain ⟨w, hrun, rfl⟩ : ∃ w, forLoop d n (shellInsert (d : ℕ)) v = .ok w ∧ w = v := by
    refine forLoop_spec (I := fun _ w => w = v) ?_ hdn rfl
    intro i w hdi hi hw
    have hless : ¬LessAt v i (i - d) := by
      rintro ⟨x, hx, y, hy, hlt⟩
      obtain ⟨hi', rfl⟩ := List.getElem?_eq_some_iff.1 hx
      obtain ⟨hj', rfl⟩ := List.getElem?_eq_some_iff.1 hy
      exact hlt.not_ge (List.pairwise_iff_getElem.1 hv _ _ hj' hi' (by omega))
    rw [hw]
    exact ⟨v, shellInsert_of_not_lessAt hd hdi (hi.trans_le hn) hless, rfl⟩
  rw [hrun]
  rfl

/-- A sorted vector of any length is not changed. -/
theorem shellSort_of_sorted (hv : v.Pairwise (· ≤ ·)) : shellSort v = .ok v := by
  have hle : narrow 32 v.length ≤ v.length := narrow_le (Int.natCast_nonneg _)
  rw [shellSort]
  generalize narrow 32 v.length = n at hle
  obtain ⟨s, hrun, rfl⟩ : ∃ s : List T × ℤ, whileLoop (fun _ => .diverged)
      (fun s => .ok (decide (s.2 ≥ 1))) (shellPass n) (n.toNat + 1) (v, n / 2) = .ok s ∧
        s.1 = v := by
    refine whileLoop_spec (I := fun m s => s.1 = v ∧ s.2.toNat = m ∧ (s.2 ≥ 1 → s.2 ≤ n))
      (fun _ _ hI _ => hI.1) (fun _ _ _ => ⟨_, rfl⟩) ?_ ⟨rfl, rfl, ?_⟩ ?_
    · rintro m ⟨u, d⟩ ⟨rfl, rfl, hd⟩ hon
      have hpos : d ≥ 1 := of_decide_eq_true (Except.ok.inj hon)
      dsimp only at hd hle hv ⊢
      obtain ⟨d, rfl⟩ := Int.eq_ofNat_of_zero_le (show 0 ≤ d by omega)
      obtain ⟨n, rfl⟩ := Int.eq_ofNat_of_zero_le (show 0 ≤ n by omega)
      have hpass := shellPass_of_sorted (n := n) hv (show 0 < d by omega) (by omega)
      exact ⟨_, _, hpass, by omega, rfl, rfl, by omega⟩
    · omega
    · omega
  rw [hrun]
  rfl

/-! ## The procedure -/

/-- No exchange is made with a larger gap than one, as the vector is sorted or its elements are not
smaller than those a gap before them; or there are less than eight elements, and no exchange is made
that reads before the beginning of the vector. -/
def ShellSortable (v : List T) : Prop :=
  v.Pairwise (· ≤ ·) ∨ v.length < 2 ^ 31 ∧ GapSorted v ∨ v.length < 8 ∧ FirstPass v

/-- `shell_sort` stays inside a vector that meets the condition, and sorts it. If it does so for a
vector, all elements pass the comparison in the first pass, which is the condition if there are less
than eight elements. In all vectors that do not meet it, the wrong elements are exchanged: the run
comes to two elements with a gap between them that are in the wrong order. -/
theorem shellSort_sorts (v : List T) :
    (ShellSortable v → ∃ w, shellSort v = .ok w ∧ w.Perm v ∧ w.Pairwise (· ≤ ·)) ∧
    (v.length < 2 ^ 31 → (∃ w, shellSort v = .ok w ∧ w.Perm v ∧ w.Pairwise (· ≤ ·)) →
      FirstPass v) ∧
    (v.length < 2 ^ 31 → ¬ShellSortable v →
      ∃ d i, 2 ≤ d ∧ d ≤ i ∧ i < v.length ∧ ShellReaches v v d i ∧ LessAt v i (i - d)) := by
  refine ⟨?_, fun hlen hsorts => firstPass_of_stays ((shellSort_iff_reaches hlen).1 hsorts),
    fun hlen hnot => exists_reaches_of_not_gapSorted fun hgap => hnot (.inr (.inl ⟨hlen, hgap⟩))⟩
  rintro (hsorted | ⟨hlen, hgap⟩ | ⟨hlen, hfirst⟩)
  · exact ⟨v, shellSort_of_sorted hsorted, .refl v, hsorted⟩
  · exact shellSort_spec hlen fun _ _ _ => stays_of_gapSorted hgap
  · exact shellSort_spec (by omega) fun _ _ _ => stays_of_firstPass hlen hfirst

/-- Eight elements of which neighbours are in the wrong order, and four elements of which the third
one is moved in the first pass. -/
theorem shellSort_sorts_eight :
    (∃ w, shellSort [1, 0, 3, 2, 5, 4, 7, (6 : ℤ)] = .ok w ∧ w.Perm [1, 0, 3, 2, 5, 4, 7, 6] ∧
      w.Pairwise (· ≤ ·)) ∧
    ∃ w, shellSort [3, 0, 1, (5 : ℤ)] = .ok w ∧ w.Perm [3, 0, 1, 5] ∧ w.Pairwise (· ≤ ·) :=
  ⟨(shellSort_sorts [1, 0, 3, 2, 5, 4, 7, 6]).1 (.inr (.inl ⟨by decide, by decide⟩)),
    (shellSort_sorts [3, 0, 1, 5]).1 (.inr (.inr ⟨by decide, by decide⟩))⟩

/-- The last element is compared with the one before the first. -/
theorem shellSort_leaves :
    ¬∃ w, shellSort [3, 2, 1, (0 : ℤ)] = .ok w ∧ w.Perm [3, 2, 1, 0] ∧ w.Pairwise (· ≤ ·) := by
  rintro ⟨w, hrun, -⟩
  have herror : shellSort [3, 2, 1, (0 : ℤ)] = .error .invalidAccess := by decide
  rw [herror] at hrun
  cases hrun

end CppLearn.Sorting

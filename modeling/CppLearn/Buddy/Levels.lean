import CppLearn.Buddy.Defs
import CppLearn.Lib.BuddyTree

/-!
# Sizes and levels of the buddy allocator

The arithmetic of the allocator when the pool size is `unit * 2 ^ H` for a tree of `H + 1` levels,
so that all halvings down to the last level are exact.

`Geometry` has the fields of an allocator that `create` sets and that never change. The level of a
request is that of the smallest block that is large enough (`request_spec`), `computeBlockSize_eq`
is the size of a node, and a new allocator represents the free tree (`create_spec`).
-/

namespace CppLearn.Buddy

open BoundedLoop Unsigned HeapOrder BuddyTree

/-- The fixed part of an allocator whose smallest blocks have size `unit`, on `H + 1` levels. The
pool is an existing memory region. -/
structure Geometry (a : Allocator) (unit H : ℕ) : Prop where
  unit_pos : 0 < unit
  order : a.numOrder = H + 1
  order_le : a.numOrder ≤ 30
  size : a.poolSize = unit * 2 ^ H
  min : a.minBlockSize = unit / 2 * 2
  addr_pos : 0 < a.poolAddr
  addr_bound : a.poolAddr + a.poolSize ≤ 2 ^ 64

/-- The size of the block that `allocate` takes for a request, and that `deallocate` gives back. -/
def Allocator.blockLength (a : Allocator) (size : ℕ) : Except Fault ℕ := do
  let allocateBlockSize ← roundedUpToMinBlockSize size a.minBlockSize
  let level ← computeLevel a.poolSize allocateBlockSize
  .ok (a.poolSize / 2 ^ level)

/-- `rounded_up` on the sizes that it can round: the least power of two that is large enough. -/
theorem roundedUp_spec {size : ℕ} (hsize : size ≤ 2 ^ 63) :
    ∃ j, roundedUp size = .ok (2 ^ j) ∧ size ≤ 2 ^ j ∧ ∀ k, size ≤ 2 ^ k → j ≤ k := by
  obtain ⟨v, hrun, j, rfl, hle, hleast⟩ : ∃ v, roundedUp size = .ok v ∧
      ∃ j, v = 2 ^ j ∧ size ≤ 2 ^ j ∧ ∀ k, size ≤ 2 ^ k → j ≤ k := by
    -- the value is a power of two, doubled at most 63 times, and smaller ones are too small
    refine whileLoop_spec
      (I := fun n v => ∃ j, v = 2 ^ j ∧ n + j = 63 ∧ ∀ k, size ≤ 2 ^ k → j ≤ k) (n := 63) ?_ ?_ ?_
      ⟨0, rfl, rfl, fun k _ => k.zero_le⟩ (by decide)
    · rintro n v ⟨j, rfl, -, hleast⟩ hexit
      simp only [Except.ok.injEq, decide_eq_false_iff_not, Nat.not_lt] at hexit
      exact ⟨j, rfl, hexit, hleast⟩
    · exact fun n v _ => ⟨_, rfl⟩
    · rintro n v ⟨j, rfl, hn, -⟩ hcond
      simp only [Except.ok.injEq, decide_eq_true_eq] at hcond
      have hexp {k : ℕ} (hk : size ≤ 2 ^ k) : j < k :=
        (Nat.pow_lt_pow_iff_right (by decide)).1 (Nat.lt_of_lt_of_le hcond hk)
      have hj := hexp hsize
      have hpow : 2 ^ j * 2 = 2 ^ (j + 1) := rfl
      -- the size is at most `2 ^ 63`, so the doubling does not wrap
      have hlt : 2 ^ (j + 1) < 2 ^ 64 := Nat.pow_lt_pow_right (by decide) (by omega)
      refine ⟨2 ^ (j + 1), n - 1, ?_, by omega, j + 1, rfl, by omega, fun k hk => hexp hk⟩
      rw [hpow, Nat.mod_eq_of_lt hlt]
  exact ⟨j, hrun, hle, hleast⟩

/-- The loop of `rounded_up` is not left for larger sizes, however often the value is doubled: it
wraps to zero. -/
theorem doubling_diverges {size : ℕ} (hsize : 2 ^ 63 < size) (fuel : ℕ) :
    whileLoop (fun _ => Fault.diverged) (fun value => .ok (value < size))
      (fun value => .ok (value * 2 % 2 ^ 64)) fuel 1 = .error .diverged := by
  refine (whileLoop_diverges (I := fun v => v = 0 ∨ ∃ j ≤ 63, v = 2 ^ j) ?_ ?_ fuel
    (.inr ⟨0, by decide, rfl⟩)).choose_spec
  · -- the value is zero or a power of two below the size
    intro v hv
    have hlt : v < size := by
      rcases hv with rfl | ⟨j, hj, rfl⟩
      · omega
      · exact (Nat.pow_le_pow_right (by decide) hj).trans_lt hsize
    simp [hlt]
  · intro v hv
    refine ⟨_, rfl, ?_⟩
    rcases hv with rfl | ⟨j, hj, rfl⟩
    · exact .inl rfl
    · have hpow : 2 ^ j * 2 = 2 ^ (j + 1) := rfl
      rw [hpow]
      rcases Nat.lt_or_ge j 63 with hlt | hge
      · have hbound : 2 ^ (j + 1) < 2 ^ 64 := Nat.pow_lt_pow_right (by decide) (by omega)
        exact .inr ⟨j + 1, hlt, Nat.mod_eq_of_lt hbound⟩
      · obtain rfl : j = 63 := by omega
        exact .inl rfl

theorem roundedUp_diverges {size : ℕ} (hsize : 2 ^ 63 < size) :
    roundedUp size = .error .diverged := doubling_diverges hsize bitFuel

/-- `compute_level` stops at the first level whose halves are too small. -/
theorem computeLevel_eq {poolSize b H : ℕ} (hH : H ≤ 63) (hb : poolSize / 2 ^ (H + 1) < b) :
    ∃ L ≤ H, computeLevel poolSize b = .ok L ∧ poolSize / 2 ^ (L + 1) < b ∧
      ∀ j < L, b ≤ poolSize / 2 ^ (j + 1) := by
  obtain ⟨s, hrun, hle, hlast, hfit⟩ : ∃ s : ℕ × ℕ,
      whileLoop (fun _ => Fault.diverged) (fun s : ℕ × ℕ => .ok (decide (s.2 / 2 ≥ b)))
        (fun s => .ok (s.1 + 1, s.2 / 2)) bitFuel (0, poolSize) = .ok s ∧
      s.1 ≤ H ∧ poolSize / 2 ^ (s.1 + 1) < b ∧ ∀ j < s.1, b ≤ poolSize / 2 ^ (j + 1) := by
    have hhalf : ∀ k, poolSize / 2 ^ k / 2 = poolSize / 2 ^ (k + 1) := by
      intro k
      rw [Nat.div_div_eq_div_mul, Nat.pow_succ]
    refine whileLoop_spec
      (I := fun n s => n + s.1 = H ∧ s.2 = poolSize / 2 ^ s.1 ∧
        ∀ j < s.1, b ≤ poolSize / 2 ^ (j + 1))
      (n := H) ?_ ?_ ?_ ⟨rfl, by simp, by simp⟩ (by unfold bitFuel; omega)
    · rintro n s ⟨hn, hs, hfit⟩ hexit
      simp only [Except.ok.injEq, decide_eq_false_iff_not, Nat.not_le, hs, hhalf] at hexit
      exact ⟨by omega, hexit, hfit⟩
    · exact fun n s _ => ⟨_, rfl⟩
    · rintro n ⟨level, size⟩ ⟨hn, hs, hfit⟩ hcond
      simp only [Except.ok.injEq, decide_eq_true_eq] at hcond hn hs hfit
      rw [hs, hhalf] at hcond
      -- the last level is never left
      have hlevel : level ≠ H := by
        rintro rfl
        omega
      have hsize : size / 2 = poolSize / 2 ^ (level + 1) := by rw [hs, hhalf]
      refine ⟨(level + 1, size / 2), n - 1, rfl, by omega, by simp only; omega, hsize, ?_⟩
      intro j hj
      rcases Nat.lt_succ_iff_lt_or_eq.1 hj with hlt | rfl
      · exact hfit j hlt
      · exact hcond
  refine ⟨s.1, hle, ?_, hlast, hfit⟩
  simp only [computeLevel, hrun, bind, Except.bind]

theorem div_pow_eq (unit : ℕ) {H L : ℕ} (hL : L ≤ H) :
    unit * 2 ^ H / 2 ^ L = unit * 2 ^ (H - L) := by
  have hpow : unit * 2 ^ H = unit * 2 ^ (H - L) * 2 ^ L := by
    rw [Nat.mul_assoc, ← Nat.pow_add, Nat.sub_add_cancel hL]
  rw [hpow, Nat.mul_div_cancel _ (Nat.two_pow_pos L)]

/-- `compute_level`: the deepest level whose blocks suffice. -/
theorem computeLevel_spec (unit : ℕ) {H b : ℕ} (hH : H ≤ 30) (hmin : unit / 2 * 2 ≤ b)
    (hb : 0 < b) :
    ∃ L, computeLevel (unit * 2 ^ H) b = .ok L ∧ L ≤ H ∧
      (b ≤ unit * 2 ^ H → b ≤ unit * 2 ^ (H - L)) ∧ (L < H → unit * 2 ^ (H - L - 1) < b) := by
  -- the blocks of the last level are smaller than twice the request
  have hend : unit * 2 ^ H / 2 ^ (H + 1) < b := by
    rw [Nat.pow_succ, ← Nat.div_div_eq_div_mul, Nat.mul_div_cancel _ (Nat.two_pow_pos H)]
    omega
  obtain ⟨L, hL, hrun, hlast, hfit⟩ := computeLevel_eq (by omega) hend
  refine ⟨L, hrun, hL, fun hle => ?_, fun hlt => ?_⟩
  · cases L with
    | zero => exact hle
    | succ k => exact (hfit k (Nat.lt_succ_self k)).trans_eq (div_pow_eq unit hL)
  · rw [div_pow_eq unit hlt] at hlast
    exact hlast

theorem roundedUpToMinBlockSize_eq {size v : ℕ} (h : roundedUp size = .ok v) (minBlockSize : ℕ) :
    roundedUpToMinBlockSize size minBlockSize = .ok (max v minBlockSize) := by
  simp only [roundedUpToMinBlockSize, h, bind, Except.bind]

/-- The block for a request of an admissible size: `b` is the rounded size, `L` the level. -/
theorem request_spec {a : Allocator} {unit H size : ℕ} (hg : Geometry a unit H)
    (hsize : size ≤ 2 ^ 63) :
    ∃ b L, roundedUpToMinBlockSize size a.minBlockSize = .ok b ∧ computeLevel a.poolSize b = .ok L ∧
      a.blockLength size = .ok (unit * 2 ^ (H - L)) ∧ size ≤ b ∧ 0 < b ∧ L ≤ H ∧
      (b ≤ unit * 2 ^ H → b ≤ unit * 2 ^ (H - L)) ∧ (L < H → unit * 2 ^ (H - L - 1) < b) := by
  obtain ⟨j, hv, hle, -⟩ := roundedUp_spec hsize
  have hpos := Nat.two_pow_pos j
  have horder := hg.order
  have hround := roundedUpToMinBlockSize_eq hv a.minBlockSize
  obtain ⟨L, hL, hLH, hfit, hlast⟩ := computeLevel_spec unit (H := H)
    (b := max (2 ^ j) a.minBlockSize) (by have := hg.order_le; omega) (by rw [← hg.min]; omega)
    (by omega)
  rw [← hg.size] at hL
  have hlength : a.poolSize / 2 ^ L = unit * 2 ^ (H - L) := by
    rw [hg.size]
    exact div_pow_eq unit hLH
  refine ⟨_, L, hround, hL, ?_, by omega, by omega, hLH, hfit, hlast⟩
  simp only [Allocator.blockLength, hround, hL, bind, Except.bind, hlength]

/-- The table index of a node determines its block size. -/
theorem computeBlockSize_eq (poolSize : ℕ) {p : List Bool} (hp : p.length ≤ 62) :
    computeBlockSize poolSize (nodeIndex 0 p) = .ok (poolSize / 2 ^ p.length) := by
  obtain ⟨hlow, hhigh⟩ := nodeIndex_bounds 0 p
  rw [Nat.zero_add, Nat.one_mul] at hlow
  rw [Nat.zero_add, Nat.mul_comm, ← Nat.pow_succ] at hhigh
  -- at level `j` the variable `tmp` is the number of nodes above
  obtain ⟨r, hrun, rfl⟩ : ∃ r, iterate (fun _ => Fault.diverged)
      (computeBlockSizeStep (nodeIndex 0 p)) bitFuel (0, 1, poolSize) = .ok r ∧
        r = poolSize / 2 ^ p.length := by
    refine iterate_spec
      (I := fun n s => ∃ j, n + j = p.length ∧ s = (2 ^ j - 1, 2 ^ j, poolSize / 2 ^ j))
      (n := p.length) ?_ ⟨0, rfl, by simp⟩ (by unfold bitFuel; omega)
    rintro n s ⟨j, hj, rfl⟩
    have hpos := Nat.two_pow_pos j
    have hbound : 2 ^ (j + 1) ≤ 2 ^ 63 := Nat.pow_le_pow_right (by decide) (by omega)
    have hdouble : 2 ^ (j + 1) = 2 ^ j * 2 := Nat.pow_succ ..
    have hsum : add 64 (2 ^ j - 1) (2 ^ j) = 2 ^ (j + 1) - 1 := by
      rw [add_eq (by omega)]
      omega
    by_cases hlevel : j = p.length
    · subst hlevel
      refine .inl ⟨_, ?_, rfl⟩
      simp only [computeBlockSizeStep, hsum]
      rw [if_neg (by omega)]
    · have hpow : 2 ^ (j + 1) ≤ 2 ^ p.length := Nat.pow_le_pow_right (by decide) (by omega)
      have hhalf : poolSize / 2 ^ j / 2 = poolSize / 2 ^ (j + 1) := by
        rw [Nat.div_div_eq_div_mul, Nat.pow_succ]
      refine .inr ⟨_, n - 1, ?_, by omega, j + 1, by omega, rfl⟩
      simp only [computeBlockSizeStep, hsum, hhalf]
      rw [if_pos (by omega), Nat.mod_eq_of_lt (by omega), hdouble]
  exact hrun

/-! ## A new allocator -/

/-- The orders from `order` on leave the entries above alone. -/
theorem initOrders_above (n order size : ℕ) (pool : ℕ → ℕ) {i : ℕ} (hi : i + 1 < 2 ^ order) :
    (initOrders n order (2 ^ order - 1) size pool).1 i = pool i := by
  induction n generalizing order size pool with
  | zero => rfl
  | succ n ih =>
    have hdouble : 2 ^ (order + 1) = 2 ^ order * 2 := Nat.pow_succ ..
    have hpos : 2 ^ order - 1 + 2 ^ order = 2 ^ (order + 1) - 1 := by omega
    rw [initOrders, hpos, ih _ _ _ (by omega), fillOrder, if_neg (by omega)]

/-- The entry of a node on level `k`. -/
theorem initOrders_level (n order size : ℕ) (pool : ℕ → ℕ) {i k : ℕ} (hlow : 2 ^ k ≤ i + 1)
    (hhigh : i + 1 < 2 ^ (k + 1)) (hk : order ≤ k) (hkn : k < order + n) :
    (initOrders n order (2 ^ order - 1) size pool).1 i = size / 2 ^ (k - order) := by
  induction n generalizing order size pool with
  | zero => omega
  | succ n ih =>
    have hpow := Nat.two_pow_pos order
    have hdouble : 2 ^ (order + 1) = 2 ^ order * 2 := Nat.pow_succ ..
    have hpos : 2 ^ order - 1 + 2 ^ order = 2 ^ (order + 1) - 1 := by omega
    rw [initOrders, hpos]
    by_cases heq : k = order
    · subst heq
      rw [initOrders_above _ _ _ _ hhigh, fillOrder, if_pos (by omega), Nat.sub_self, Nat.pow_zero,
        Nat.div_one]
    · -- further levels are filled from their own first index, with half the size
      have hexp : k - order = 1 + (k - (order + 1)) := by omega
      rw [ih _ _ _ (by omega) (by omega), hexp, Nat.pow_add, Nat.pow_one, Nat.div_div_eq_div_mul]

theorem initOrders_size (n order pos size : ℕ) (pool : ℕ → ℕ) :
    (initOrders n order pos size pool).2 = size / 2 ^ n := by
  induction n generalizing order pos size pool with
  | zero => rw [initOrders, Nat.pow_zero, Nat.div_one]
  | succ n ih => rw [initOrders, ih, Nat.pow_succ', Nat.div_div_eq_div_mul]

/-- The fields of a new allocator. The entry of a node is the size of its level; after the last
level the size has been halved once too often. -/
theorem create_fields {poolAddr poolSize numOrder : ℕ} {a : Allocator}
    (hcreate : Allocator.create poolAddr poolSize numOrder = .ok a) :
    numOrder ≤ 30 ∧ a.poolAddr = poolAddr ∧ a.poolSize = poolSize ∧ a.numOrder = numOrder ∧
      a.minBlockSize = poolSize / 2 ^ numOrder * 2 % 2 ^ 64 ∧
      ∀ p : List Bool, p.length < numOrder → a.pool (nodeIndex 0 p) = poolSize / 2 ^ p.length := by
  unfold Allocator.create at hcreate
  split_ifs at hcreate with hle
  obtain rfl := Except.ok.inj hcreate
  refine ⟨hle, rfl, rfl, rfl, by simp only [initOrders_size], fun p hp => ?_⟩
  -- the index of a node tells its level, and the level its entry
  obtain ⟨hlow, hhigh⟩ := nodeIndex_bounds 0 p
  rw [Nat.zero_add, Nat.one_mul] at hlow
  rw [Nat.zero_add, Nat.mul_comm, ← Nat.pow_succ] at hhigh
  exact initOrders_level numOrder 0 poolSize (fun _ => 0) hlow hhigh (Nat.zero_le _) (by omega)

/-- The table of a new allocator is that of a free block. -/
theorem create_spec {poolAddr poolSize numOrder unit : ℕ} {a : Allocator} (hunit : 0 < unit)
    (horder : 1 ≤ numOrder) (hsize : poolSize = unit * 2 ^ (numOrder - 1)) (haddr : 0 < poolAddr)
    (hbound : poolAddr + poolSize ≤ 2 ^ 64)
    (hcreate : Allocator.create poolAddr poolSize numOrder = .ok a) :
    Geometry a unit (numOrder - 1) ∧ Represents unit a.pool 0 (numOrder - 1) .free ∧
      a.poolAddr = poolAddr ∧ a.poolSize = poolSize := by
  obtain ⟨hle, rfl, rfl, rfl, hmin, hpool⟩ := create_fields hcreate
  -- the loop has halved the size once more than there are levels
  have hlast : a.poolSize / 2 ^ a.numOrder = unit / 2 := by
    have hexp : a.numOrder = a.numOrder - 1 + 1 := by omega
    rw [hsize]
    conv_lhs => rw [hexp]
    rw [Nat.add_sub_cancel, Nat.pow_succ, ← Nat.div_div_eq_div_mul,
      Nat.mul_div_cancel _ (Nat.two_pow_pos _)]
  have hunit_le : unit ≤ a.poolSize := by
    rw [hsize]
    exact Nat.le_mul_of_pos_right unit (Nat.two_pow_pos _)
  refine ⟨⟨hunit, by omega, hle, hsize, ?_, haddr, hbound⟩, ?_, rfl, rfl⟩
  · rw [hmin, hlast]
    exact Nat.mod_eq_of_lt (by omega)
  · refine represents_free.2 (full_of_nodeIndex fun p hp => ?_)
    rw [hpool p (by omega), ← div_pow_eq unit hp, ← hsize]

end CppLearn.Buddy

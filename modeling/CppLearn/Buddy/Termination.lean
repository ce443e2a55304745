import CppLearn.Buddy.Histories

/-!
# Requests that no power of two can serve

`allocate` rounds the requested size up before it compares the size with what is free. The loop of
`rounded_up` doubles a 64-bit number until it is large enough. Behind `2 ^ 63` the number wraps to
zero, where doubling does not change it, so for larger sizes the comparison is never reached. For
all other sizes each loop of `allocate` ends, whatever is in the table.

What a call should do is `EndsWell`. It does so for sizes up to `2 ^ 63` only
(`allocate_endsWell_iff`): these calls end (`terminates_allocate`), and the others do not
(`allocate_diverges`).
-/

namespace CppLearn.Buddy

open BoundedLoop Unsigned HeapOrder BuddyTree

variable {a : Allocator} {size : ℕ}

/-- What a call of `allocate` should do. -/
structure EndsWell (a : Allocator) (size : ℕ) : Prop where
  /-- The call ends. -/
  terminates : Terminates (a.allocate size)
  /-- The size is rounded up to the least power of two that is not smaller, if 64 bits are enough
  for one. -/
  rounds : (∃ j < 64, max size 1 ≤ 2 ^ j) → ∃ j < 64, roundedUp size = .ok (2 ^ j) ∧
    max size 1 ≤ 2 ^ j ∧ ∀ k, max size 1 ≤ 2 ^ k → 2 ^ j ≤ 2 ^ k
  /-- Other sizes are refused. -/
  refuses : (∀ j < 64, 2 ^ j < max size 1) → ∃ a', a.allocate size = .ok (none, a')

/-! ## The table -/

theorem terminates_read (a : Allocator) (i : ℕ) : Terminates (a.read i) := by
  unfold Allocator.read
  split_ifs
  · exact terminates_ok _
  · exact terminates_error.2 (by decide)

theorem terminates_write (a : Allocator) (i v : ℕ) : Terminates (a.write i v) := by
  unfold Allocator.write
  split_ifs
  · exact terminates_ok _
  · exact terminates_error.2 (by decide)

/-- An iteration of `update_pool` ends. -/
theorem terminates_updatePoolBody (s : Allocator × ℕ × ℕ) : Terminates (updatePoolBody s) := by
  obtain ⟨a, blockIdx, blockSize⟩ := s
  refine (terminates_read a _).bind fun left _ => (terminates_read a _).bind fun right _ =>
    Terminates.bind ?_ fun a' _ => terminates_ok _
  split_ifs
  · exact terminates_write _ _ _
  · exact terminates_write _ _ _

/-- An iteration of `update_pool` that returns goes on with the parent. -/
theorem updatePoolBody_parent {s s' : Allocator × ℕ × ℕ} (h : updatePoolBody s = .ok s') :
    s'.2.1 = (s.2.1 - 1) / 2 := by
  obtain ⟨left, -, h⟩ := bind_eq_ok.1 h
  obtain ⟨right, -, h⟩ := bind_eq_ok.1 h
  obtain ⟨a', -, h⟩ := bind_eq_ok.1 h
  obtain rfl := Except.ok.inj h
  rfl

/-- `update_pool` ends for every index that a 32-bit number can hold. -/
theorem terminates_updatePool {blockIdx : ℕ} (hidx : blockIdx < 2 ^ 32) :
    Terminates (a.updatePool blockIdx) := by
  obtain ⟨p, hp, rfl⟩ := exists_nodeIndex_of_lt (show blockIdx + 1 < 2 ^ (32 + 1) by omega)
  have hblock := computeBlockSize_eq a.poolSize (p := p) (by omega)
  refine Terminates.bind (by rw [hblock]; exact terminates_ok _) fun blockSize _ => ?_
  refine Terminates.bind ?_ fun _ _ => terminates_ok _
  -- the parent is on a higher level
  refine terminates_whileLoop (I := fun n s => s.2.1 + 1 < 2 ^ (n + 1)) (fun _ => terminates_ok _)
    terminates_updatePoolBody ?_ (n := 32) (by simp only; omega) (by decide)
  intro n s s' hlevel hcond hbody
  have hne : s.2.1 ≠ 0 := by simpa using hcond
  have hparent := updatePoolBody_parent hbody
  cases n with
  | zero => omega
  | succ n =>
    have hdouble : 2 ^ (n + 1 + 1) = 2 ^ (n + 1) * 2 := Nat.pow_succ ..
    exact ⟨n, Nat.lt_succ_self n, by omega⟩

/-! ## Calls -/

/-- The search ends after one iteration for each level. -/
theorem terminates_search (b : ℕ) (L blockIdx addr blockSize : ℕ) :
    Terminates (a.searchSuitableBlock b L blockIdx addr blockSize) := by
  induction L generalizing blockIdx addr blockSize with
  | zero => exact terminates_ok _
  | succ L ih =>
    refine (terminates_read a _).bind fun left _ => ?_
    split_ifs
    · exact ih _ _ _
    · refine (terminates_read a _).bind fun right _ => ?_
      split_ifs
      · exact ih _ _ _
      · exact terminates_error.2 (by decide)

/-- The two loops in front of the search return. -/
theorem request_returns (hpool : a.poolSize < 2 ^ 64) (hsize : size ≤ 2 ^ 63) :
    ∃ b L, roundedUpToMinBlockSize size a.minBlockSize = .ok b ∧
      computeLevel a.poolSize b = .ok L := by
  obtain ⟨j, hround, -⟩ := roundedUp_spec hsize
  have hpos := Nat.two_pow_pos j
  have hend : a.poolSize / 2 ^ (63 + 1) < max (2 ^ j) a.minBlockSize := by
    rw [Nat.div_eq_of_lt hpool]
    omega
  obtain ⟨L, -, hlevel, -⟩ := computeLevel_eq (le_refl 63) hend
  exact ⟨_, L, roundedUpToMinBlockSize_eq hround a.minBlockSize, hlevel⟩

/-- `allocate` ends for sizes up to `2 ^ 63`, whatever is in the table. -/
theorem terminates_allocate (hpool : a.poolSize < 2 ^ 64) (hsize : size ≤ 2 ^ 63) :
    Terminates (a.allocate size) := by
  obtain ⟨b, L, hround, hlevel⟩ := request_returns hpool hsize
  unfold Allocator.allocate
  rw [hround, ok_bind, hlevel, ok_bind]
  refine (terminates_read a 0).bind fun root _ => ?_
  split_ifs
  · exact terminates_ok _
  · refine (terminates_search b L _ _ _).bind fun block _ => ?_
    obtain ⟨blockIdx, addr⟩ := block
    simp only
    split_ifs
    · exact terminates_error.2 (by decide)
    · -- the index has been converted to 32 bits
      have hidx : blockIdx % 2 ^ 32 < 2 ^ 32 := Nat.mod_lt _ (by decide)
      refine (terminates_write a _ _).bind fun a' _ => ?_
      exact (terminates_updatePool hidx).bind fun _ _ => terminates_ok _

/-- `allocate` does not end for larger sizes. The table is not even read. -/
theorem allocate_diverges (a : Allocator) (hsize : 2 ^ 63 < size) :
    a.allocate size = .error .diverged := by
  unfold Allocator.allocate roundedUpToMinBlockSize
  rw [roundedUp_diverges hsize]
  rfl

/-- `rounded_up` finds the least power of two of 64 bits, if there is one. -/
theorem roundedUp_least (hfits : ∃ j < 64, max size 1 ≤ 2 ^ j) :
    ∃ j < 64, roundedUp size = .ok (2 ^ j) ∧ max size 1 ≤ 2 ^ j ∧
      ∀ k, max size 1 ≤ 2 ^ k → 2 ^ j ≤ 2 ^ k := by
  obtain ⟨i, hi, hle⟩ := hfits
  have hpow : 2 ^ i ≤ 2 ^ 63 := Nat.pow_le_pow_right (by decide) (by omega)
  have hsize : size ≤ 2 ^ 63 := by omega
  obtain ⟨j, hrun, hj, hleast⟩ := roundedUp_spec hsize
  have hpos := Nat.two_pow_pos j
  have hji := hleast i (by omega)
  refine ⟨j, by omega, hrun, by omega, fun k hk => ?_⟩
  exact Nat.pow_le_pow_right (by decide) (hleast k (by omega))

/-- For an allocator whose pool size is a 64-bit number, and with any table: `allocate` ends as it
should if and only if the size is at most `2 ^ 63`. For larger sizes the loop of `rounded_up` goes
on after any number of iterations. -/
theorem allocate_endsWell_iff (a : Allocator) (hpool : a.poolSize < 2 ^ 64) (size : ℕ) :
    (EndsWell a size ↔ size ≤ 2 ^ 63) ∧
      (2 ^ 63 < size → ∀ fuel, whileLoop (fun _ => Fault.diverged)
        (fun value => .ok (value < size)) (fun value => .ok (value * 2 % 2 ^ 64)) fuel 1 =
          .error .diverged) := by
  refine ⟨⟨fun h => ?_, fun hsize => ?_⟩, doubling_diverges⟩
  · by_contra hlt
    exact h.terminates (allocate_diverges a (Nat.lt_of_not_le hlt))
  · refine ⟨terminates_allocate hpool hsize, roundedUp_least, fun hlarge => ?_⟩
    -- `2 ^ 63` is a power of two of 64 bits
    have := hlarge 63 (by decide)
    omega

/-- The largest size for which this is so. -/
theorem allocate_endsWell_iff_largest :
    ∃ a, Allocator.create 4096 64 3 = .ok a ∧ EndsWell a (2 ^ 63) := by
  obtain ⟨a, hcreate⟩ : ∃ a, Allocator.create 4096 64 3 = .ok a := ⟨_, rfl⟩
  obtain ⟨-, -, hpool, -⟩ := create_fields hcreate
  exact ⟨a, hcreate, (allocate_endsWell_iff a (by rw [hpool]; decide) (2 ^ 63)).1.2 (le_refl _)⟩

/-- One more byte. -/
theorem allocate_never_ends :
    ∃ a, Allocator.create 4096 64 3 = .ok a ∧
      a.allocate (2 ^ 63 + 1) = .error .diverged ∧ ¬EndsWell a (2 ^ 63 + 1) := by
  obtain ⟨a, hcreate⟩ : ∃ a, Allocator.create 4096 64 3 = .ok a := ⟨_, rfl⟩
  have hrun : a.allocate (2 ^ 63 + 1) = .error .diverged :=
    allocate_diverges a (Nat.lt_succ_self _)
  exact ⟨a, hcreate, hrun, fun h => h.terminates hrun⟩

/-- In the states that histories of a new allocator lead to, with a pool size that halves exactly,
`allocate` returns if and only if the size is at most `2 ^ 63`. -/
theorem History.allocate_returns_iff {poolAddr poolSize numOrder : ℕ} {a₀ : Allocator}
    {live : List (ℕ × ℕ)} (horder : 1 ≤ numOrder) (hpos : 0 < poolSize)
    (hdvd : 2 ^ (numOrder - 1) ∣ poolSize) (hregion : PoolRegion poolAddr poolSize)
    (hcreate : Allocator.create poolAddr poolSize numOrder = .ok a₀) (h : History a₀ a live)
    (size : ℕ) : (∃ r, a.allocate size = .ok r) ↔ size ≤ 2 ^ 63 := by
  obtain ⟨h₀, -, -⟩ := tracks_create horder hpos hdvd hregion hcreate
  obtain ⟨-, t, reqs, ht, -⟩ := h.tracks h₀
  constructor
  · rintro ⟨r, hrun⟩
    exact le_of_allocate hrun
  · intro hsize
    rcases ht.allocate hsize with hnull | ⟨addr, a', -, hrun, -⟩
    · exact ⟨_, hnull⟩
    · exact ⟨_, hrun⟩

end CppLearn.Buddy

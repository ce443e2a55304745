import CppLearn.BinaryIndexTree.Correctness
import Mathlib.Algebra.Order.Ring.Abs
import Mathlib.Data.BitVec
import Mathlib.Tactic.LinearCombination

/-!
# Binary index trees over 32-bit integers

In a `BinaryIndexTree<int32_t>` the entries of both vectors are 32-bit integers, and the products
`i * val` too. An entry that does not fit keeps its residue only, and the result of `range_sum`,
although it is computed with 64 bits, is then wrong. For arrays of fewer than `2 ^ 31` elements that
fit in 32 bits, all results are right exactly if all entries fit.

An entry of `diff_` is wrong by at most `2 ^ 32`, which `range_sum` multiplies by `r + 1`; an entry
of `idiff_` at position `r` is wrong by at most `r * 2 ^ 32`. So the two errors cannot cancel at the
first entry that does not fit.

The condition on the array is `BinaryIndexTree.EntriesFit`, and the equivalence is
`BinaryIndexTree.rangeSum64_exact_iff`. The array is the one that the changes among the calls leave
(`TreeCall.elements`).
-/

namespace CppLearn

open BoundedLoop CheckedVector Signed RangeSums

namespace TreeCall

/-- The same call with another type of values. -/
def map {T U : Type} (f : T → U) : TreeCall T → TreeCall U
  | .update i val => .update i (f val)
  | .rangeUpdate l r val => .rangeUpdate l r (f val)
  | .query i => .query i
  | .rangeSum l r => .rangeSum l r
  | .prefixSum r => .prefixSum r

/-- A call of `update` or `range_update`. -/
def IsChange {T : Type} : TreeCall T → Prop
  | .update _ _ => True
  | .rangeUpdate _ _ _ => True
  | _ => False

instance {T : Type} : (c : TreeCall T) → Decidable c.IsChange
  | .update _ _ => inferInstanceAs (Decidable True)
  | .rangeUpdate _ _ _ => inferInstanceAs (Decidable True)
  | .query _ => inferInstanceAs (Decidable False)
  | .rangeSum _ _ => inferInstanceAs (Decidable False)
  | .prefixSum _ => inferInstanceAs (Decidable False)

/-- What a call has to make of the array. -/
def next (e : ℤ → ℤ) : TreeCall ℤ → ℤ → ℤ
  | .update i val => rangeAdd e i i val
  | .rangeUpdate l r val => rangeAdd e l r val
  | _ => e

/-- The array that calls have to leave, when all elements are zero at first. -/
def elements (calls : List (TreeCall (BitVec 32))) : ℤ → ℤ :=
  (calls.map (map BitVec.toInt)).foldl next fun _ => 0

end TreeCall

namespace BinaryIndexTree

/-- `range_sum` of a `BinaryIndexTree<int32_t>`. The additions and multiplications of `int64_t` keep
the residue modulo `2 ^ 64`, so one conversion of the exact result is enough. -/
def rangeSum64 (s : BinaryIndexTree (BitVec 32)) (l r : ℤ) : Except Fault ℤ := do
  let x ← s.rangeSum BitVec.toInt l r
  .ok (narrow 64 x)

/-- The differences of neighbouring elements; the array starts at position `1`. -/
def differences (e : ℤ → ℤ) (p : ℕ) : ℤ := if p = 1 then e 1 else e p - e (p - 1)

/-- The elements fit in 32 bits. -/
def ElementsFit (n : ℕ) (e : ℤ → ℤ) : Prop := ∀ k : ℕ, 0 < k → k ≤ n → Fits 32 (e k)

/-- The exact values of all entries of `diff_` and `idiff_` fit in 32 bits. -/
def EntriesFit (n : ℕ) (e : ℤ → ℤ) : Prop :=
  ∀ j, 0 < j → j ≤ n → Fits 32 (Fenwick.segment (differences e) j) ∧
    Fits 32 (Fenwick.segment (fun p => p * differences e p) j)

/-- The positions of the tree are those from `1` to `n`. -/
theorem forall_position_iff {P : ℕ → Prop} {n : ℕ} :
    (∀ j ∈ Finset.Ioc 0 n, P j) ↔ ∀ j, 0 < j → j ≤ n → P j := by
  simp only [Finset.mem_Ioc, and_imp]

instance (n : ℕ) (e : ℤ → ℤ) : Decidable (ElementsFit n e) :=
  decidable_of_iff _ forall_position_iff

instance (n : ℕ) (e : ℤ → ℤ) : Decidable (EntriesFit n e) :=
  decidable_of_iff _ forall_position_iff

variable {s : BinaryIndexTree (BitVec 32)} {n : ℕ} {e : ℤ → ℤ} {d : ℕ → ℤ}

/-! ## Words -/

/-- The conversion to 32 bits keeps the lowest bits, -/
theorem toInt_intCast (x : ℤ) : ((x : ℤ) : BitVec 32).toInt = narrow 32 x :=
  BitVec.toInt_ofInt x

/-- and can be undone. -/
theorem intCast_toInt (x : BitVec 32) : ((x.toInt : ℤ) : BitVec 32) = x :=
  BitVec.ofInt_toInt

/-- The tree holds the words of the differences of the elements of `e` from `1` to `n`. -/
structure TracksWords (s : BinaryIndexTree (BitVec 32)) (n : ℕ) (e : ℤ → ℤ) (d : ℕ → ℤ) : Prop where
  holds : Holds s n fun k => (d k : BitVec 32)
  sum : ∀ k : ℕ, 0 < k → k ≤ n → e k = ∑ p ∈ Finset.Ioc 0 k, d p

/-- The entries are sums of differences, with the upper bits lost, -/
theorem TracksWords.diffAt (h : TracksWords s n e d) {j : ℕ} (hj : 0 < j) (hjn : j ≤ n) :
    (s.diffAt j).toInt = narrow 32 (Fenwick.segment d j) := by
  rw [h.holds.diffHolds j hj hjn, Fenwick.segment_intCast, toInt_intCast]

/-- for both vectors. -/
theorem TracksWords.idiffAt (h : TracksWords s n e d) {j : ℕ} (hj : 0 < j) (hjn : j ≤ n) :
    (s.idiffAt j).toInt = narrow 32 (Fenwick.segment (fun p => p * d p) j) := by
  have hcast : (fun k : ℕ => (k : BitVec 32) * (d k : BitVec 32)) =
      fun k : ℕ => ((k * d k : ℤ) : BitVec 32) := by
    funext k
    push_cast
    rfl
  rw [h.holds.idiffHolds j hj hjn, hcast, Fenwick.segment_intCast, toInt_intCast]

/-- A new tree is about zeros. -/
theorem create_tracksWords (n : ℕ) : TracksWords (create n) n (fun _ => 0) fun _ => 0 := by
  refine ⟨?_, fun _ _ _ => Finset.sum_const_zero.symm⟩
  simpa using create_holds (T := BitVec 32) n

/-- An update changes the elements in its range. -/
theorem TracksWords.rangeUpdate (h : TracksWords s n e d) (val : BitVec 32) {l r : ℤ} (hlr : l ≤ r)
    (hl : Fits 32 l) (hr : Fits 32 (r + 1)) (hwalk : WalkFits n (clamp l))
    (hwalk' : WalkFits n (clamp (r + 1))) :
    ∃ s' d', s.rangeUpdate l r val = .ok s' ∧ TracksWords s' n (rangeAdd e l r val.toInt) d' := by
  obtain ⟨s', hs', hholds⟩ := rangeUpdate_holds h.holds val hl hr hwalk hwalk'
  refine ⟨s', _, hs', ?_, sum_changes h.sum val.toInt hlr⟩
  convert hholds using 2 with k
  push_cast
  simp only [intCast_toInt]

/-- Any sequence of changes. -/
theorem TracksWords.run (h : TracksWords s n e d) (calls : List (TreeCall (BitVec 32)))
    (hcalls : ∀ c ∈ calls, c.IsChange ∧ (c.map BitVec.toInt).Allowed n ∧
      (c.map BitVec.toInt).Exact n) :
    ∃ s' d', s.run BitVec.toInt calls = .ok ([], s') ∧
      TracksWords s' n ((calls.map (TreeCall.map BitVec.toInt)).foldl TreeCall.next e) d' := by
  induction calls generalizing s e d with
  | nil => exact ⟨s, d, rfl, h⟩
  | cons c calls ih =>
    obtain ⟨hchange, hallowed, hexact⟩ := hcalls c List.mem_cons_self
    have hrest := fun c hmem => hcalls c (List.mem_cons_of_mem _ hmem)
    cases c with
    | update i val =>
      obtain ⟨s₁, d₁, hs₁, h₁⟩ := h.rangeUpdate val le_rfl hexact.1 hexact.2.1 hexact.2.2.1
        hexact.2.2.2
      obtain ⟨s', d', hs', h'⟩ := ih h₁ hrest
      exact ⟨s', d', by simp only [BinaryIndexTree.run, update, hs₁, hs', bind, Except.bind], h'⟩
    | rangeUpdate l r val =>
      obtain ⟨s₁, d₁, hs₁, h₁⟩ := h.rangeUpdate val hallowed hexact.1 hexact.2.1 hexact.2.2.1
        hexact.2.2.2
      obtain ⟨s', d', hs', h'⟩ := ih h₁ hrest
      exact ⟨s', d', by simp only [BinaryIndexTree.run, hs₁, hs', bind, Except.bind], h'⟩
    | query i => exact hchange.elim
    | rangeSum l r => exact hchange.elim
    | prefixSum r => exact hchange.elim

/-! ## Bounds -/

/-- Summation by parts. -/
theorem sum_mul_by_parts (d : ℕ → ℤ) {a j : ℕ} (h : a ≤ j) :
    ∑ p ∈ Finset.Ioc a j, p * d p =
      j * ∑ p ∈ Finset.Ioc 0 j, d p - a * ∑ p ∈ Finset.Ioc 0 a, d p -
        ∑ k ∈ Finset.Ico a j, ∑ p ∈ Finset.Ioc 0 k, d p := by
  induction j, h using Nat.le_induction with
  | base => simp
  | succ j h ih =>
    rw [Finset.sum_Ioc_succ_top h, ih, Finset.sum_Ioc_succ_top (Nat.zero_le j),
      Finset.sum_Ico_succ_top h]
    push_cast
    ring

/-- An entry of `idiff_` grows with its position. -/
theorem abs_segment_mul_le {j : ℕ} {b : ℤ}
    (hb : ∀ k ≤ j, |∑ p ∈ Finset.Ioc 0 k, d p| ≤ b) :
    |Fenwick.segment (fun p => p * d p) j| ≤ 2 * j * b := by
  have hlow := Fenwick.lowbit_le j
  obtain ⟨a, ha⟩ : ∃ a, j - Fenwick.lowbit j = a := ⟨_, rfl⟩
  have haj : a ≤ j := by omega
  -- the sum of the multiples, by parts, is bounded term by term
  have hmul {k : ℕ} (hk : k ≤ j) : |k * ∑ p ∈ Finset.Ioc 0 k, d p| ≤ k * b := by
    rw [abs_mul, Nat.abs_cast]
    exact mul_le_mul_of_nonneg_left (hb k hk) (Nat.cast_nonneg k)
  have hsum : |∑ k ∈ Finset.Ico a j, ∑ p ∈ Finset.Ioc 0 k, d p| ≤ (j - a) * b := by
    have hterm : ∀ k ∈ Finset.Ico a j, |∑ p ∈ Finset.Ioc 0 k, d p| ≤ b :=
      fun k hk => hb k (Finset.mem_Ico.1 hk).2.le
    have hcard := (Finset.abs_sum_le_sum_abs _ _).trans (Finset.sum_le_card_nsmul _ _ _ hterm)
    rwa [Nat.card_Ico, nsmul_eq_mul, Nat.cast_sub haj] at hcard
  unfold Fenwick.segment
  rw [ha, sum_mul_by_parts d haj]
  calc _ ≤ |j * ∑ p ∈ Finset.Ioc 0 j, d p| + |a * ∑ p ∈ Finset.Ioc 0 a, d p| +
        |∑ k ∈ Finset.Ico a j, ∑ p ∈ Finset.Ioc 0 k, d p| :=
      (abs_sub _ _).trans (add_le_add (abs_sub _ _) le_rfl)
    _ ≤ j * b + a * b + (j - a) * b := add_le_add (add_le_add (hmul le_rfl) (hmul haj)) hsum
    _ = 2 * j * b := by ring

/-- Errors of the two vectors that cancel in the result for position `j` are zero. -/
theorem errors_eq_zero {j κ μ q : ℤ} (hj : 0 ≤ j) (hj' : j < 2 ^ 31) (hκ : -1 ≤ κ ∧ κ ≤ 1)
    (hμ : -j ≤ μ ∧ μ ≤ j) (h : (j + 1) * κ - μ + 2 ^ 32 * q = 0) : κ = 0 ∧ μ = 0 := by
  obtain rfl | rfl | rfl : κ = -1 ∨ κ = 0 ∨ κ = 1 := by omega
  all_goals omega

/-! ## Exact results -/

/-- A sum of differences is an element, which fits by assumption. -/
theorem TracksWords.prefix_fits (h : TracksWords s n e d) (he : ElementsFit n e) {k : ℕ}
    (hk : k ≤ n) : Fits 32 (∑ p ∈ Finset.Ioc 0 k, d p) := by
  rcases Nat.eq_zero_or_pos k with rfl | hpos
  · rw [Finset.Ioc_self, Finset.sum_empty]
    decide
  · rw [← h.sum k hpos hk]
    exact he k hpos hk

/-- The walks of a tree whose entries are exact. -/
theorem TracksWords.walkSum_eq (h : TracksWords s n e d) {i : ℕ} (hi : i ≤ n)
    (hfits : ∀ j, 0 < j → j ≤ i → Fits 32 (Fenwick.segment d j) ∧
      Fits 32 (Fenwick.segment (fun p => p * d p) j)) :
    Fenwick.walkSum (fun j => (s.diffAt j).toInt) i = ∑ p ∈ Finset.Ioc 0 i, d p ∧
      Fenwick.walkSum (fun j => (s.idiffAt j).toInt) i = ∑ p ∈ Finset.Ioc 0 i, p * d p := by
  have hdiff : Fenwick.Holds (fun j => (s.diffAt j).toInt) i d :=
    fun j hj hji => (h.diffAt hj (by omega)).trans (narrow_eq (hfits j hj hji).1)
  have hidiff : Fenwick.Holds (fun j => (s.idiffAt j).toInt) i fun p => p * d p :=
    fun j hj hji => (h.idiffAt hj (by omega)).trans (narrow_eq (hfits j hj hji).2)
  exact ⟨hdiff.walkSum_eq le_rfl, hidiff.walkSum_eq le_rfl⟩

/-- Exact and stored entries differ by multiples of `2 ^ 32`, which the elements bound. -/
theorem TracksWords.carries (h : TracksWords s n e d) (he : ElementsFit n e) {j : ℕ} (hj : 0 < j)
    (hjn : j ≤ n) :
    ∃ κ μ : ℤ, (-1 ≤ κ ∧ κ ≤ 1) ∧ (-(j : ℤ) ≤ μ ∧ μ ≤ j) ∧
      (s.diffAt j).toInt = Fenwick.segment d j + 2 ^ 32 * κ ∧
      (s.idiffAt j).toInt = Fenwick.segment (fun p => p * d p) j + 2 ^ 32 * μ := by
  have hdiff := h.diffAt hj hjn
  have hidiff := h.idiffAt hj hjn
  obtain ⟨κ, hκ⟩ := exists_narrow_eq_add 32 (Fenwick.segment d j)
  obtain ⟨μ, hμ⟩ := exists_narrow_eq_add 32 (Fenwick.segment (fun p => p * d p) j)
  obtain ⟨_, _⟩ := narrow_fits 32 (Fenwick.segment d j)
  obtain ⟨_, _⟩ := narrow_fits 32 (Fenwick.segment (fun p => p * d p) j)
  refine ⟨κ, μ, ?_, ?_, hdiff.trans hκ, hidiff.trans hμ⟩
  · -- the exact entry is a difference of two elements
    obtain ⟨_, _⟩ := h.prefix_fits he hjn
    obtain ⟨_, _⟩ := h.prefix_fits he (by omega : j - Fenwick.lowbit j ≤ n)
    have hsplit := Finset.sum_Ioc_consecutive d (Nat.zero_le _) (Nat.sub_le j (Fenwick.lowbit j))
    change _ + Fenwick.segment d j = _ at hsplit
    constructor <;> omega
  · have hbound : ∀ k ≤ j, |∑ p ∈ Finset.Ioc 0 k, d p| ≤ 2 ^ 31 := fun k hk => by
      obtain ⟨_, _⟩ := h.prefix_fits he (by omega : k ≤ n)
      exact abs_le.2 ⟨by omega, by omega⟩
    obtain ⟨_, _⟩ := abs_le.1 (abs_segment_mul_le hbound)
    constructor <;> omega

/-- The first entries that do not fit make the sum of the elements up to their position wrong. -/
theorem TracksWords.entry_fits (h : TracksWords s n e d) (hn : n < 2 ^ 31) (he : ElementsFit n e)
    {j : ℕ} (hj : 0 < j) (hjn : j ≤ n)
    (hbelow : ∀ i, 0 < i → i < j → Fits 32 (Fenwick.segment d i) ∧
      Fits 32 (Fenwick.segment (fun p => p * d p) i))
    (hsum : s.rangeSum64 1 j = .ok (∑ k ∈ Finset.Icc 1 (j : ℤ), e k)) :
    Fits 32 (Fenwick.segment d j) ∧ Fits 32 (Fenwick.segment (fun p => p * d p) j) := by
  have hlow := Fenwick.lowbit_pos hj
  obtain ⟨hwalk, hiwalk⟩ := h.walkSum_eq (by omega : j - Fenwick.lowbit j ≤ n)
    fun i hi hij => hbelow i hi (by omega)
  obtain ⟨κ, μ, hκ, hμ, hdiff, hidiff⟩ := h.carries he hj hjn
  -- the result is exact modulo `2 ^ 64`
  have hexact := sum_range h.sum (Nat.zero_le j) hjn
  have hrun := rangeSum_walk BitVec.toInt h.holds.toShape (Nat.zero_le n) hjn
  rw [Nat.zero_add, Nat.cast_one] at hexact hrun
  rw [Fenwick.walkSum_zero, Fenwick.walkSum_zero, Fenwick.walkSum_pos _ hj,
    Fenwick.walkSum_pos _ hj, hdiff, hidiff, hwalk, hiwalk] at hrun
  simp only [rangeSum64, hrun, bind, Except.bind, Except.ok.injEq] at hsum
  obtain ⟨q, hq⟩ : ∃ q : ℤ, (∑ k ∈ Finset.Icc 1 (j : ℤ), e k) = _ + 2 ^ 64 * q :=
    hsum ▸ exists_narrow_eq_add 64 _
  have hprefix (f : ℕ → ℤ) : ∑ p ∈ Finset.Ioc 0 j, f p =
      ∑ p ∈ Finset.Ioc 0 (j - Fenwick.lowbit j), f p + Fenwick.segment f j :=
    (Finset.sum_Ioc_consecutive f (Nat.zero_le _) (Nat.sub_le j (Fenwick.lowbit j))).symm
  rw [hexact, hprefix, hprefix, Finset.Ioc_self, Finset.sum_empty, Finset.sum_empty] at hq
  have hcancel : (j + 1) * κ - μ + 2 ^ 32 * q = 0 := by
    have hmul : 2 ^ 32 * ((j + 1) * κ - μ + 2 ^ 32 * q) = 0 := by linear_combination -hq
    exact (mul_eq_zero.1 hmul).resolve_left (by decide)
  obtain ⟨rfl, rfl⟩ := errors_eq_zero (Int.natCast_nonneg j) (by omega) hκ hμ hcancel
  rw [mul_zero, add_zero] at hdiff hidiff
  exact ⟨narrow_eq_iff.1 ((h.diffAt hj hjn).symm.trans hdiff),
    narrow_eq_iff.1 ((h.idiffAt hj hjn).symm.trans hidiff)⟩

/-- A sum of elements that fit in 32 bits fits in 64 bits. -/
theorem sum_fits (hn : n < 2 ^ 31) (he : ElementsFit n e) {m r : ℕ} (hr : r ≤ n) :
    Fits 64 (∑ k ∈ Finset.Icc ((m + 1 : ℕ) : ℤ) r, e k) := by
  have hterm : ∀ k ∈ Finset.Icc ((m + 1 : ℕ) : ℤ) r, |e k| ≤ 2 ^ 31 := by
    intro k hk
    obtain ⟨hlow, hhigh⟩ := Finset.mem_Icc.1 hk
    obtain ⟨k, rfl⟩ := Int.eq_ofNat_of_zero_le (by omega : 0 ≤ k)
    obtain ⟨_, _⟩ := he k (by omega) (by omega)
    exact abs_le.2 ⟨by omega, by omega⟩
  have hcard := (Finset.abs_sum_le_sum_abs _ _).trans (Finset.sum_le_card_nsmul _ _ _ hterm)
  rw [Int.card_Icc, nsmul_eq_mul] at hcard
  obtain ⟨_, _⟩ := abs_le.1 hcard
  constructor <;> omega

/-- All entries are exact if all sums are, and the other way round. -/
theorem TracksWords.exact_iff (h : TracksWords s n e d) (hn : n < 2 ^ 31) (he : ElementsFit n e) :
    (∀ l r : ℤ, 1 ≤ l → l ≤ r → r ≤ n →
      s.rangeSum64 l r = .ok (∑ k ∈ Finset.Icc l r, e k)) ↔
      ∀ j, 0 < j → j ≤ n → Fits 32 (Fenwick.segment d j) ∧
        Fits 32 (Fenwick.segment (fun p => p * d p) j) := by
  constructor
  · intro hsum j
    -- by induction, the entries before `j` fit
    induction j using Nat.strong_induction_on with
    | _ j ih =>
      intro hj hjn
      exact h.entry_fits hn he hj hjn (fun i hi hij => ih i hij hi (by omega))
        (hsum 1 j le_rfl (by omega) (by omega))
  · intro hfits l r hl hlr hr
    obtain ⟨r, rfl⟩ := Int.eq_ofNat_of_zero_le (by omega : 0 ≤ r)
    obtain ⟨m, hm⟩ := Int.eq_ofNat_of_zero_le (by omega : 0 ≤ l - 1)
    obtain rfl : l = (m + 1 : ℕ) := by omega
    have hr' : r ≤ n := by omega
    have hm' : m ≤ n := by omega
    obtain ⟨hright, hright'⟩ := h.walkSum_eq hr' fun j hj hjr => hfits j hj (by omega)
    obtain ⟨hleft, hleft'⟩ := h.walkSum_eq hm' fun j hj hjm => hfits j hj (by omega)
    have hrun := rangeSum_walk BitVec.toInt h.holds.toShape hm' hr'
    rw [hright, hright', hleft, hleft', ← sum_range h.sum (by omega) hr'] at hrun
    simp only [rangeSum64, hrun, bind, Except.bind, narrow_eq (sum_fits hn he hr')]

/-- The differences are those of the elements. -/
theorem TracksWords.differences_eq (h : TracksWords s n e d) {p : ℕ} (hp : 0 < p) (hpn : p ≤ n) :
    d p = differences e p := by
  unfold differences
  have hp' := h.sum p hp hpn
  obtain ⟨k, rfl⟩ := Nat.exists_eq_add_of_lt hp
  rw [Nat.zero_add] at hp' hpn ⊢
  rw [Finset.sum_Ioc_succ_top (Nat.zero_le k)] at hp'
  split_ifs with hfirst
  · obtain rfl : k = 0 := by omega
    simpa using hp'.symm
  · have hk := h.sum k (by omega) (by omega)
    have hcast : ((k + 1 : ℕ) : ℤ) - 1 = k := by omega
    rw [hcast, hp', ← hk]
    omega

/-- After any changes that leave elements that fit in 32 bits, all sums are exact exactly if all
entries fit in 32 bits. -/
theorem rangeSum64_exact_iff (n : ℕ) (hn : n < 2 ^ 31) (calls : List (TreeCall (BitVec 32)))
    (hcalls : ∀ c ∈ calls, c.IsChange ∧ (c.map BitVec.toInt).Allowed n ∧
      (c.map BitVec.toInt).Exact n) (he : ElementsFit n (TreeCall.elements calls)) :
    ∃ s, (create n).run BitVec.toInt calls = .ok ([], s) ∧
      ((∀ l r : ℤ, 1 ≤ l → l ≤ r → r ≤ n →
        s.rangeSum64 l r = .ok (∑ k ∈ Finset.Icc l r, TreeCall.elements calls k)) ↔
        EntriesFit n (TreeCall.elements calls)) := by
  obtain ⟨s, d, hs, h⟩ := (create_tracksWords n).run calls hcalls
  refine ⟨s, hs, (h.exact_iff hn he).trans ?_⟩
  -- the differences are those of the elements
  have hsegment {j : ℕ} (hjn : j ≤ n) : Fenwick.segment d j =
      Fenwick.segment (differences (TreeCall.elements calls)) j :=
    Fenwick.segment_congr fun p hp hpj => h.differences_eq hp (by omega)
  have hisegment {j : ℕ} (hjn : j ≤ n) : Fenwick.segment (fun p => p * d p) j =
      Fenwick.segment (fun p => p * differences (TreeCall.elements calls) p) j :=
    Fenwick.segment_congr fun p hp hpj =>
      congrArg ((p : ℤ) * ·) (h.differences_eq hp (by omega))
  refine forall_congr' fun j => forall_congr' fun _ => forall_congr' fun hjn => ?_
  rw [hsegment hjn, hisegment hjn]

/-- Two changes of three elements. -/
theorem rangeSum64_exact_iff_three :
    ∃ s, (create 3).run BitVec.toInt [.update 2 7, .rangeUpdate 1 3 (-5)] = .ok ([], s) ∧
      ∀ l r : ℤ, 1 ≤ l → l ≤ r → r ≤ 3 → s.rangeSum64 l r =
        .ok (∑ k ∈ Finset.Icc l r, TreeCall.elements [.update 2 7, .rangeUpdate 1 3 (-5)] k) := by
  have hfits : ElementsFit 3 (TreeCall.elements [.update 2 7, .rangeUpdate 1 3 (-5)]) := by decide
  have hentries : EntriesFit 3 (TreeCall.elements [.update 2 7, .rangeUpdate 1 3 (-5)]) := by
    decide +kernel
  have hcalls : ∀ c ∈ ([.update 2 7, .rangeUpdate 1 3 (-5)] : List (TreeCall (BitVec 32))),
      c.IsChange ∧ (c.map BitVec.toInt).Allowed 3 ∧ (c.map BitVec.toInt).Exact 3 := by
    decide +kernel
  obtain ⟨s, hs, hiff⟩ := rangeSum64_exact_iff 3 (by decide) _ hcalls hfits
  exact ⟨s, hs, hiff.2 hentries⟩

/-- One element `2 ^ 30` at position `2`: twice this value does not fit in the second vector. -/
theorem rangeSum64_overflow :
    ElementsFit 2 (TreeCall.elements [.update 2 (2 ^ 30)]) ∧
      TreeCall.elements [.update 2 (2 ^ 30)] 2 = 2 ^ 30 ∧
      ∃ s, (create 2).run BitVec.toInt [.update 2 (2 ^ 30)] = .ok ([], s) ∧
        s.rangeSum64 2 2 = .ok (5 * 2 ^ 30) := by
  refine ⟨by decide, by decide, ⟨2, [0, 0, 2 ^ 30], [0, 0, 2 ^ 31]⟩, ?_, ?_⟩
  · decide +kernel
  · decide +kernel

end BinaryIndexTree

end CppLearn

import Mathlib.Algebra.BigOperators.Intervals
import Mathlib.Algebra.BigOperators.Ring.Finset
import Mathlib.Algebra.Order.Ring.Nat
import Mathlib.Algebra.Order.BigOperators.Group.Finset
import Mathlib.Tactic.Abel
import Mathlib.Tactic.Ring

/-!
# Fenwick trees

An array of numbers in which entry `j` holds the sum of the `lowbit j` elements up to position `j`.
Positions start at `1`, and `lowbit j` is the largest power of two that divides `j`.

A prefix is the union of the intervals of the entries that are met when `lowbit` is subtracted
again and again; the entries whose interval contains a position are those that are met when
`lowbit` is added again and again.

## Main definitions

* `lowbit`; `Covers`: the interval of an entry contains a position;
* `Holds`: the entries hold the sums of their intervals;
* `walkSum`: the sum of the entries that make a prefix.

## Main results

* `covers_iff_next`: the entries that cover a position;
* `Holds.update`: adding a value to an element;
* `Holds.walkSum_eq`: the sum of a prefix;
* `segment_eq_children`: an entry in terms of the entries below it;
* `Holds.unique`: the entries determine the elements;
* `InProgress.step`: building the entries one after the other;
* `InProgress.step_old`: the same on top of old entries.
-/

namespace Fenwick

/-- The largest power of two that divides a positive number. -/
def lowbit (n : ℕ) : ℕ :=
  if n = 0 then 0 else if n % 2 = 1 then 1 else 2 * lowbit (n / 2)
termination_by n
decreasing_by omega

@[simp]
theorem lowbit_zero : lowbit 0 = 0 := by rw [lowbit, if_pos rfl]

/-- The lowest bit of an odd number is `1`, -/
@[simp]
theorem lowbit_odd (n : ℕ) : lowbit (2 * n + 1) = 1 := by
  rw [lowbit, if_neg (by omega), if_pos (by omega)]

/-- and that of an even one is twice that of its half. -/
@[simp]
theorem lowbit_even (n : ℕ) : lowbit (2 * n) = 2 * lowbit n := by
  rcases Nat.eq_zero_or_pos n with rfl | hpos
  · simp
  · rw [lowbit, if_neg (by omega), if_neg (by omega), Nat.mul_div_cancel_left n (by decide)]

/-- Induction along the binary digits of a number. -/
theorem binary_induction {P : ℕ → Prop} (h0 : P 0) (hodd : ∀ n, P (2 * n + 1))
    (heven : ∀ n, 0 < n → P n → P (2 * n)) (n : ℕ) : P n := by
  induction n using Nat.strong_induction_on with
  | _ n ih =>
    rcases Nat.eq_zero_or_pos n with rfl | hpos
    · exact h0
    · rcases Nat.even_or_odd' n with ⟨k, rfl | rfl⟩
      · exact heven k (by omega) (ih k (by omega))
      · exact hodd k

/-- Positive numbers have a lowest bit. -/
theorem lowbit_pos {n : ℕ} (h : 0 < n) : 0 < lowbit n := by
  induction n using binary_induction with
  | h0 => omega
  | hodd n => simp
  | heven n hpos ih => simpa using ih hpos

/-- It is not larger than the number. -/
theorem lowbit_le (n : ℕ) : lowbit n ≤ n := by
  induction n using binary_induction with
  | h0 => simp
  | hodd n => simp
  | heven n _ ih => simpa using ih

/-- The interval of entry `j` contains position `p`. -/
def Covers (j p : ℕ) : Prop := j - lowbit j < p ∧ p ≤ j

instance (j p : ℕ) : Decidable (Covers j p) := inferInstanceAs (Decidable (_ ∧ _))

/-- A node covers its own position. -/
theorem covers_self {p : ℕ} (h : 0 < p) : Covers p p :=
  ⟨Nat.sub_lt h (lowbit_pos h), le_rfl⟩

/-- Even positions are covered as their halves are, and by even entries only. -/
theorem covers_even (j p : ℕ) : Covers j (2 * p) ↔ ∃ k, j = 2 * k ∧ Covers k p := by
  unfold Covers
  constructor
  · rintro ⟨hlow, hhigh⟩
    rcases Nat.even_or_odd' j with ⟨k, rfl | rfl⟩
    · rw [lowbit_even] at hlow
      exact ⟨k, rfl, by omega, by omega⟩
    · rw [lowbit_odd] at hlow
      omega
  · rintro ⟨k, rfl, hlow, hhigh⟩
    rw [lowbit_even]
    omega

/-- The entries that cover an odd position: the one at the position, and those that cover the
even position after it. -/
theorem covers_odd (j p : ℕ) : Covers j (2 * p + 1) ↔ j = 2 * p + 1 ∨ Covers j (2 * (p + 1)) := by
  rw [covers_even]
  unfold Covers
  constructor
  · rintro ⟨hlow, hhigh⟩
    -- an odd entry covers its own position only
    rcases Nat.even_or_odd' j with ⟨k, rfl | rfl⟩
    · rw [lowbit_even] at hlow
      exact .inr ⟨k, rfl, by omega, by omega⟩
    · rw [lowbit_odd] at hlow
      exact .inl (by omega)
  · rintro (rfl | ⟨k, rfl, hlow, hhigh⟩)
    · rw [lowbit_odd]
      omega
    · rw [lowbit_even]
      omega

/-- The entries that cover a position: the one at the position, and those that cover the position
that is reached by adding `lowbit`. -/
theorem covers_iff_next {p : ℕ} (hp : 0 < p) (j : ℕ) :
    Covers j p ↔ j = p ∨ Covers j (p + lowbit p) := by
  induction p using binary_induction generalizing j with
  | h0 => omega
  | hodd p =>
    rw [lowbit_odd, covers_odd]
    rfl
  | heven p hpos ih =>
    rw [lowbit_even, ← Nat.mul_add, covers_even, covers_even]
    constructor
    · rintro ⟨k, rfl, hk⟩
      rcases (ih hpos k).1 hk with rfl | hk
      · exact .inl rfl
      · exact .inr ⟨k, rfl, hk⟩
    · rintro (rfl | ⟨k, rfl, hk⟩)
      · exact ⟨p, rfl, covers_self hpos⟩
      · exact ⟨k, rfl, (ih hpos k).2 (.inr hk)⟩

section Sums

variable {R : Type*} [AddCommGroup R]

/-- The sum of the interval of entry `j`. -/
def segment (d : ℕ → R) (j : ℕ) : R := ∑ p ∈ Finset.Ioc (j - lowbit j) j, d p

/-- The entries up to `n` hold the sums of their intervals. -/
def Holds (node : ℕ → R) (n : ℕ) (d : ℕ → R) : Prop := ∀ j, 0 < j → j ≤ n → node j = segment d j

variable {node node' : ℕ → R} {n p : ℕ} {d : ℕ → R}

/-- The sum of an interval after a value has been added to one element. -/
theorem segment_add (d : ℕ → R) (j p : ℕ) (v : R) :
    segment (fun k => d k + if k = p then v else 0) j =
      segment d j + if Covers j p then v else 0 := by
  unfold segment
  rw [Finset.sum_add_distrib, Finset.sum_ite_eq']
  exact congrArg _ (if_congr Finset.mem_Ioc rfl rfl)

/-- A value is added to an element by adding it to all entries that cover its position. -/
theorem Holds.update (h : Holds node n d) (v : R)
    (hnode : ∀ j, 0 < j → j ≤ n → node' j = node j + if Covers j p then v else 0) :
    Holds node' n fun k => d k + if k = p then v else 0 := by
  intro j hj hjn
  rw [hnode j hj hjn, h j hj hjn, segment_add]

/-- A prefix is the interval of its last entry, after a shorter prefix. -/
theorem Holds.prefixSum (h : Holds node n d) {i : ℕ} (hpos : 0 < i) (hin : i ≤ n) :
    ∑ p ∈ Finset.Ioc 0 i, d p = node i + ∑ p ∈ Finset.Ioc 0 (i - lowbit i), d p := by
  rw [h i hpos hin, segment, add_comm]
  exact (Finset.sum_Ioc_consecutive d (Nat.zero_le _) (Nat.sub_le _ _)).symm

/-- The sum of a node depends on the positions up to it. -/
theorem segment_congr {d' : ℕ → R} {j : ℕ} (h : ∀ p, 0 < p → p ≤ j → d p = d' p) :
    segment d j = segment d' j := by
  refine Finset.sum_congr rfl fun p hp => ?_
  obtain ⟨hlow, hhigh⟩ := Finset.mem_Ioc.1 hp
  exact h p (by omega) hhigh

/-- Sums of intervals are compatible with the conversion of integers. -/
theorem segment_intCast {A : Type*} [Ring A] (d : ℕ → ℤ) (j : ℕ) :
    segment (fun k => (d k : A)) j = (segment d j : ℤ) :=
  (Int.cast_sum _ d).symm

/-- The sum of the entries that are met when `lowbit` is subtracted again and again. -/
def walkSum (node : ℕ → R) (i : ℕ) : R :=
  if h : 0 < i then
    have : i - lowbit i < i := Nat.sub_lt h (lowbit_pos h)
    node i + walkSum node (i - lowbit i)
  else 0
termination_by i

@[simp]
theorem walkSum_zero (node : ℕ → R) : walkSum node 0 = 0 := by
  rw [walkSum, dif_neg (lt_irrefl 0)]

/-- One step of the walk down. -/
theorem walkSum_pos (node : ℕ → R) {i : ℕ} (hi : 0 < i) :
    walkSum node i = node i + walkSum node (i - lowbit i) := by
  rw [walkSum, dif_pos hi]

/-- The walk adds up a prefix. -/
theorem Holds.walkSum_eq (h : Holds node n d) {i : ℕ} (hi : i ≤ n) :
    walkSum node i = ∑ p ∈ Finset.Ioc 0 i, d p := by
  induction i using Nat.strong_induction_on with
  | _ i ih =>
    rcases Nat.eq_zero_or_pos i with rfl | hpos
    · simp
    · have hlow := lowbit_pos hpos
      rw [walkSum_pos node hpos, ih (i - lowbit i) (by omega) (by omega), h.prefixSum hpos hi]

/-- The sums of all walks determine the entries. -/
theorem eq_of_walkSum (h : ∀ i ≤ n, walkSum node i = walkSum node' i) {j : ℕ} (hj : 0 < j)
    (hjn : j ≤ n) : node j = node' j := by
  have hj' := h j hjn
  rw [walkSum_pos node hj, walkSum_pos node' hj, h (j - lowbit j) (by omega)] at hj'
  exact add_right_cancel hj'

/-! ## Building -/

/-- The entries whose sums are part of entry `j`. -/
def children (j : ℕ) : Finset ℕ := (Finset.Ioo 0 j).filter fun c => c + lowbit c = j

/-- The children of a node are those from which one step up leads to it. -/
theorem mem_children {c j : ℕ} : c ∈ children j ↔ 0 < c ∧ c + lowbit c = j := by
  unfold children
  rw [Finset.mem_filter, Finset.mem_Ioo]
  constructor
  · exact fun h => ⟨h.1.1, h.2⟩
  · intro h
    have := lowbit_pos h.1
    omega

/-- Nodes with odd numbers have no children. -/
theorem children_odd (n : ℕ) : children (2 * n + 1) = ∅ := by
  refine Finset.eq_empty_of_forall_notMem fun c hc => ?_
  obtain ⟨-, hsum⟩ := mem_children.1 hc
  rcases Nat.even_or_odd' c with ⟨k, rfl | rfl⟩
  · rw [lowbit_even] at hsum
    omega
  · rw [lowbit_odd] at hsum
    omega

/-- The other ones have the children of their half, doubled, and the node before them. -/
theorem children_even {n : ℕ} (hn : 0 < n) :
    children (2 * n) = insert (2 * n - 1) ((children n).image (2 * ·)) := by
  ext c
  rw [Finset.mem_insert, Finset.mem_image]
  constructor
  · intro hc
    obtain ⟨hpos, hsum⟩ := mem_children.1 hc
    rcases Nat.even_or_odd' c with ⟨k, rfl | rfl⟩
    · rw [lowbit_even] at hsum
      exact .inr ⟨k, mem_children.2 ⟨by omega, by omega⟩, rfl⟩
    · rw [lowbit_odd] at hsum
      exact .inl (by omega)
  · -- `2 * n - 1` is the only odd child
    rintro (rfl | ⟨k, hk, rfl⟩)
    · obtain ⟨m, rfl⟩ := Nat.exists_eq_add_of_lt hn
      have hodd : 2 * (0 + m + 1) - 1 = 2 * m + 1 := by omega
      rw [hodd, mem_children, lowbit_odd]
      omega
    · obtain ⟨hpos, hsum⟩ := mem_children.1 hk
      rw [mem_children, lowbit_even]
      omega

/-- Two elements at a time. -/
def pairs (d : ℕ → R) : ℕ → R := fun k => d (2 * k - 1) + d (2 * k)

/-- Sums of an even number of elements are sums of pairs. -/
theorem sum_Ioc_double (d : ℕ → R) {a b : ℕ} (h : a ≤ b) :
    ∑ p ∈ Finset.Ioc (2 * a) (2 * b), d p = ∑ p ∈ Finset.Ioc a b, pairs d p := by
  induction b, h using Nat.le_induction with
  | base => simp
  | succ b hab ih =>
    rw [Finset.sum_Ioc_succ_top hab, ← ih, Nat.mul_add, Nat.mul_one,
      Finset.sum_Ioc_succ_top (by omega : 2 * a ≤ 2 * b + 1),
      Finset.sum_Ioc_succ_top (by omega : 2 * a ≤ 2 * b), add_assoc]
    rfl

/-- So the sum of an even node is that of its half for the pairs, -/
theorem segment_even (d : ℕ → R) (n : ℕ) : segment d (2 * n) = segment (pairs d) n := by
  unfold segment
  rw [lowbit_even, ← Nat.mul_sub, sum_Ioc_double d (Nat.sub_le _ _)]

/-- and that of an odd node is one element. -/
theorem segment_odd (d : ℕ → R) (n : ℕ) : segment d (2 * n + 1) = d (2 * n + 1) := by
  unfold segment
  rw [lowbit_odd, Nat.add_sub_cancel, Finset.sum_Ioc_succ_top le_rfl, Finset.Ioc_self,
    Finset.sum_empty, zero_add]

/-- The sum of an entry is its last element and the sums of its children. -/
theorem segment_eq_children {j : ℕ} (hj : 0 < j) (d : ℕ → R) :
    segment d j = d j + ∑ c ∈ children j, segment d c := by
  induction j using binary_induction generalizing d with
  | h0 => omega
  | hodd n => rw [segment_odd, children_odd, Finset.sum_empty, add_zero]
  | heven n hpos ih =>
    have hlast : segment d (2 * n - 1) = d (2 * n - 1) := by
      obtain ⟨m, rfl⟩ := Nat.exists_eq_add_of_lt hpos
      have hodd : 2 * (0 + m + 1) - 1 = 2 * m + 1 := by omega
      rw [hodd, segment_odd]
    have hnotMem : 2 * n - 1 ∉ (children n).image (2 * ·) := by
      rw [Finset.mem_image]
      rintro ⟨k, -, hk⟩
      omega
    -- the odd child adds one element, the even ones are the children of `n` in pairs
    rw [children_even hpos, Finset.sum_insert hnotMem, hlast,
      Finset.sum_image (fun _ _ _ _ h => Nat.eq_of_mul_eq_mul_left (by decide) h)]
    simp only [segment_even]
    rw [ih hpos (pairs d), pairs, add_comm (d (2 * n - 1)), add_assoc]

/-- The entries determine the elements. -/
theorem Holds.unique {d' : ℕ → R} (h : Holds node n d) (h' : Holds node' n d')
    (heq : ∀ j, 0 < j → j ≤ n → node j = node' j) {j : ℕ} (hj : 0 < j) (hjn : j ≤ n) :
    d j = d' j := by
  have hsegment {k : ℕ} (hk : 0 < k) (hkn : k ≤ n) : segment d k = segment d' k := by
    rw [← h k hk hkn, ← h' k hk hkn, heq k hk hkn]
  have hlast := hsegment hj hjn
  have hchildren : ∑ c ∈ children j, segment d c = ∑ c ∈ children j, segment d' c := by
    refine Finset.sum_congr rfl fun c hc => ?_
    obtain ⟨hpos, hsum⟩ := mem_children.1 hc
    exact hsegment hpos (by omega)
  rw [segment_eq_children hj d, segment_eq_children hj d', hchildren] at hlast
  exact add_right_cancel hlast

/-- The entries while they are built in increasing order, after `i` of them: the first `i` are
complete, and the others have received the sums of their complete children. -/
structure InProgress (node : ℕ → R) (n i : ℕ) (d : ℕ → R) : Prop where
  done : ∀ j, 0 < j → j ≤ i → j ≤ n → node j = segment d j
  todo : ∀ j, i < j → j ≤ n → node j = ∑ c ∈ (children j).filter (· ≤ i), segment d c

/-- After the last position, all nodes hold their sums. -/
theorem InProgress.holds {i : ℕ} (h : InProgress node n i d) (hi : n ≤ i) : Holds node n d :=
  fun j hj hjn => h.done j hj (by omega) hjn

/-- The next entry is complete once its last element has been added. -/
theorem InProgress.entry {i : ℕ} (h : InProgress node n i d) (hi : i < n) :
    node (i + 1) + d (i + 1) = segment d (i + 1) := by
  rw [h.todo (i + 1) (by omega) (by omega), segment_eq_children (by omega) d, add_comm,
    Finset.filter_true_of_mem]
  intro c hc
  obtain ⟨hpos, hsum⟩ := mem_children.1 hc
  have := lowbit_pos hpos
  omega

/-- The step that completes an entry and passes its sum on. -/
theorem InProgress.step {i : ℕ} (h : InProgress node n i d) (hi : i < n)
    (hnode : ∀ j ≤ n, node' j = (node j + if j = i + 1 then d (i + 1) else 0) +
      if j = i + 1 + lowbit (i + 1) then segment d (i + 1) else 0) :
    InProgress node' n (i + 1) d := by
  have hlow : 0 < lowbit (i + 1) := lowbit_pos (Nat.succ_pos i)
  refine ⟨fun j hj hji hjn => ?_, fun j hji hjn => ?_⟩
  · -- an entry up to `i + 1` is complete: the step completes the last one
    rw [hnode j hjn, if_neg (by omega : ¬ j = i + 1 + lowbit (i + 1)), add_zero]
    by_cases hlast : j = i + 1
    · subst hlast
      rw [if_pos rfl, h.entry hi]
    · rw [if_neg hlast, add_zero, h.done j hj (by omega) hjn]
  · rw [hnode j hjn, if_neg (by omega : ¬ j = i + 1), add_zero, h.todo j (by omega) hjn]
    -- a later entry gets one more child, or stays as it is
    by_cases hnext : j = i + 1 + lowbit (i + 1)
    · have hset : (children j).filter (· ≤ i + 1) =
          insert (i + 1) ((children j).filter (· ≤ i)) := by
        ext c
        simp only [Finset.mem_filter, Finset.mem_insert, mem_children]
        constructor
        · rintro ⟨hc, hle⟩
          by_cases heq : c = i + 1
          · exact .inl heq
          · exact .inr ⟨hc, by omega⟩
        · rintro (rfl | ⟨hc, hle⟩)
          · exact ⟨⟨by omega, hnext.symm⟩, le_rfl⟩
          · exact ⟨hc, by omega⟩
      have hnotMem : i + 1 ∉ (children j).filter (· ≤ i) := fun hmem => by
        have := (Finset.mem_filter.1 hmem).2
        omega
      rw [if_pos hnext, hset, Finset.sum_insert hnotMem, add_comm]
    · rw [if_neg hnext, add_zero]
      refine Finset.sum_congr (Finset.filter_congr fun c hc => ?_) fun _ _ => rfl
      have hne : c ≠ i + 1 := by
        rintro rfl
        exact hnext (mem_children.1 hc).2.symm
      omega

/-! ## Building on top of old entries -/

/-- What has been added to the old entries so far: those after `i` still contain their old value,
the others count it as an element. -/
def withoutOld (node old : ℕ → R) (i : ℕ) : ℕ → R := fun j => node j - if i < j then old j else 0

variable {old : ℕ → R}

/-- Before the first position, with entries that were there before. -/
theorem inProgress_old (n : ℕ) (hnode : ∀ j, 0 < j → j ≤ n → node j = old j) :
    InProgress (withoutOld node old 0) n 0 fun k => d k + old k := by
  refine ⟨fun j hj hj' => by omega, fun j hj hjn => ?_⟩
  rw [withoutOld, if_pos hj, hnode j hj hjn, sub_self, Finset.filter_false_of_mem, Finset.sum_empty]
  intro c hc
  have := (mem_children.1 hc).1
  omega

/-- The next node, with its element, has the whole sum. -/
theorem InProgress.entry_old {i : ℕ}
    (h : InProgress (withoutOld node old i) n i fun k => d k + old k) (hi : i < n) :
    node (i + 1) + d (i + 1) = segment (fun k => d k + old k) (i + 1) := by
  rw [← h.entry hi, withoutOld, if_pos (Nat.lt_succ_self i)]
  abel

/-- The loop adds the sum of a node to its parent. -/
theorem InProgress.step_old {i : ℕ}
    (h : InProgress (withoutOld node old i) n i fun k => d k + old k) (hi : i < n)
    (hnode : ∀ j ≤ n, node' j = (node j + if j = i + 1 then d (i + 1) else 0) +
      if j = i + 1 + lowbit (i + 1) then segment (fun k => d k + old k) (i + 1) else 0) :
    InProgress (withoutOld node' old (i + 1)) n (i + 1) fun k => d k + old k := by
  refine h.step hi fun j hj => ?_
  unfold withoutOld
  rw [hnode j hj]
  by_cases hlast : j = i + 1
  · -- the old value of the entry that is completed becomes an element
    subst hlast
    rw [if_pos rfl, if_pos rfl, if_pos (Nat.lt_succ_self i), if_neg (lt_irrefl _)]
    abel
  · have hlt : i + 1 < j ↔ i < j := by omega
    simp only [if_neg hlast, hlt]
    abel

end Sums

end Fenwick

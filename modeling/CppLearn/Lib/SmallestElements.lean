import Mathlib.Data.List.Sort
import Mathlib.Order.Basic

/-!
# The smallest elements of a list

The `k` smallest elements of a list, sorted, while the list gets longer: a new element is inserted,
and the largest one is dropped, unless it is the new element.

The list is `smallest`. How one more element changes it is in `smallest_cons_of_lt` and
`smallest_cons_of_le`, and for a list that is not long enough in `smallest_cons_of_length_lt`.
-/

namespace SmallestElements

variable {α : Type*} [LinearOrder α] {k : ℕ} {l l' : List α} {x y : α}

/-- The `k` smallest elements of a list, sorted. -/
def smallest (k : ℕ) (l : List α) : List α := (l.insertionSort (· ≤ ·)).take k

theorem length_smallest (k : ℕ) (l : List α) : (smallest k l).length = min k l.length := by
  rw [smallest, List.length_take, List.length_insertionSort]

theorem pairwise_smallest (k : ℕ) (l : List α) : (smallest k l).Pairwise (· ≤ ·) :=
  (List.pairwise_insertionSort _ l).sublist (List.take_sublist ..)

/-- The order of the elements does not matter. -/
theorem smallest_perm (h : l.Perm l') : smallest k l = smallest k l' := by
  have hperm := ((List.perm_insertionSort (· ≤ ·) l).trans h).trans
    (List.perm_insertionSort (· ≤ ·) l').symm
  rw [smallest, hperm.eq_of_pairwise' (List.pairwise_insertionSort _ l)
    (List.pairwise_insertionSort _ l'), smallest]

/-! ## Insertion into a sorted list -/

theorem orderedInsert_concat_of_le (h : x ≤ y) (l : List α) :
    (l ++ [y]).orderedInsert (· ≤ ·) x = l.orderedInsert (· ≤ ·) x ++ [y] := by
  induction l with
  | nil => exact List.orderedInsert_cons_of_le _ [] h
  | cons z l ih =>
    rw [List.cons_append, List.orderedInsert_cons, List.orderedInsert_cons]
    split_ifs
    · rfl
    · rw [ih, List.cons_append]

theorem orderedInsert_of_forall_le (hl : l.Pairwise (· ≤ ·)) (h : ∀ y ∈ l, y ≤ x) :
    l.orderedInsert (· ≤ ·) x = l ++ [x] := by
  have hsorted : (l ++ [x]).Pairwise (· ≤ ·) :=
    List.pairwise_append.2 ⟨hl, List.pairwise_singleton _ x, fun y hy z hz =>
      List.mem_singleton.1 hz ▸ h y hy⟩
  have hperm := (List.perm_orderedInsert (· ≤ ·) x l).trans (List.perm_append_singleton x l).symm
  exact hperm.eq_of_pairwise' (hl.orderedInsert x l) hsorted

theorem take_orderedInsert (k : ℕ) (x : α) (l : List α) :
    (l.orderedInsert (· ≤ ·) x).take k = ((l.take k).orderedInsert (· ≤ ·) x).take k := by
  induction l generalizing k with
  | nil => rw [List.take_nil]
  | cons y l ih =>
    cases k with
    | zero => rfl
    | succ k =>
      rw [List.take_succ_cons, List.orderedInsert_cons, List.orderedInsert_cons]
      split_ifs
      · cases k with
        | zero => rfl
        | succ k => simp [List.take_take]
      · rw [List.take_succ_cons, List.take_succ_cons, ih k]

/-! ## One more element -/

theorem smallest_cons (k : ℕ) (x : α) (l : List α) :
    smallest k (x :: l) = ((smallest k l).orderedInsert (· ≤ ·) x).take k := by
  rw [smallest, List.insertionSort_cons, take_orderedInsert, ← smallest]

/-- There is room for the element. -/
theorem smallest_cons_of_length_lt (h : l.length < k) :
    smallest k (x :: l) = (smallest k l).orderedInsert (· ≤ ·) x := by
  rw [smallest_cons, List.take_of_length_le]
  rw [List.orderedInsert_length, length_smallest]
  omega

/-- The element takes the place of a larger one. -/
theorem smallest_cons_of_lt (hlast : smallest k l = l' ++ [y]) (hk : k ≤ l.length) (h : x ≤ y) :
    smallest k (x :: l) = l'.orderedInsert (· ≤ ·) x := by
  have hlen := length_smallest k l
  rw [hlast, List.length_append, List.length_singleton] at hlen
  rw [smallest_cons, hlast, orderedInsert_concat_of_le h]
  exact List.take_left' (by rw [List.orderedInsert_length]; omega)

/-- The element is too large. -/
theorem smallest_cons_of_le (hlast : smallest k l = l' ++ [y]) (hk : k ≤ l.length) (h : y ≤ x) :
    smallest k (x :: l) = smallest k l := by
  have hlen := length_smallest k l
  have hle : ∀ z ∈ smallest k l, z ≤ x := by
    have hsorted := pairwise_smallest k l
    rw [hlast, List.pairwise_append] at hsorted
    intro z hz
    rw [hlast] at hz
    rcases List.mem_append.1 hz with hz | hz
    · exact (hsorted.2.2 z hz y List.mem_cons_self).trans h
    · rwa [List.mem_singleton.1 hz]
  rw [smallest_cons, orderedInsert_of_forall_le (pairwise_smallest k l) hle]
  exact List.take_left' (by omega)

/-- The first one of the sorted elements is the least one. -/
theorem insertionSort_getD_zero (hl : l ≠ []) (d : α) :
    (l.insertionSort (· ≤ ·)).getD 0 d ∈ l ∧ ∀ y ∈ l, (l.insertionSort (· ≤ ·)).getD 0 d ≤ y := by
  have hsorted := List.pairwise_insertionSort (· ≤ ·) l
  have hperm := List.perm_insertionSort (· ≤ ·) l
  cases hs : l.insertionSort (· ≤ ·) with
  | nil => exact absurd (List.nil_perm.1 (hs ▸ hperm)) hl
  | cons z s =>
    rw [hs] at hsorted hperm
    rw [List.getD_cons_zero]
    refine ⟨hperm.mem_iff.1 List.mem_cons_self, fun y hy => ?_⟩
    rcases List.mem_cons.1 (hperm.mem_iff.2 hy) with rfl | hy
    · exact le_rfl
    · exact (List.pairwise_cons.1 hsorted).1 y hy

end SmallestElements

import CppLearn.Sorting.Defs
import Mathlib.Data.List.Induction

/-!
# `merge_sort` sorts a part of a vector

A vector is written as the concatenation of the part to be sorted and of what is before and behind
it. `_merge` moves the smaller one of the first elements of the two halves, and the one of the right
half if they are equal; this is `List.merge` of the right half and the left one.

The state of the loop of `_merge` is `mergeAt`. Two sorted parts are merged by `merge_eq`, and
`mergeSort_eq` is the procedure on the three pieces of a vector; `mergeSort_sorts` states it for
ranges of positions.
-/

namespace CppLearn.Sorting

open BoundedLoop CheckedVector

variable {T : Type}

/-! ## The copies of the halves -/

theorem mapM_range_eq {ε : Type} {f : ℕ → Except ε T} {l : List T}
    (h : ∀ (i : ℕ) (hi : i < l.length), f i = .ok l[i]) :
    (List.range l.length).mapM f = .ok l := by
  induction l using List.reverseRecOn with
  | nil => rfl
  | append_singleton l x ih =>
    have hlast : f l.length = .ok x := by
      rw [h l.length (by simp)]
      simp
    have hinit : (List.range l.length).mapM f = .ok l := by
      refine ih fun i hi => ?_
      rw [h i (by simp; omega)]
      simp [hi]
    rw [List.length_append, List.length_singleton, List.range_succ, List.mapM_append, hinit]
    simp [hlast, bind, Except.bind, pure, Except.pure]

theorem copy_eq (A B C : List T) : copy (A ++ B ++ C) A.length B.length = .ok B := by
  rw [copy, Int.toNat_natCast]
  refine mapM_range_eq fun i hi => ?_
  have hlt : A.length + i < (A ++ B ++ C).length := by
    simp only [List.length_append]
    omega
  rw [← Nat.cast_add, read_eq hlt]
  simp [hi]

/-! ## The loop of `_merge` -/

/-- The elements `M` were moved, `i` of them from the left half and `j` from the right one. -/
def mergeAt (A B₁ B₂ C M : List T) (i j : ℕ) : MergeState T :=
  ⟨A ++ M ++ (B₁ ++ B₂ ++ C).drop (i + j), (A.length + (i + j) : ℕ), i, j⟩

variable {A B₁ B₂ C M : List T} {i j : ℕ} {x : T}

/-- The next element is written. -/
theorem write_mergeAt (hi : i + j < B₁.length + B₂.length) (hM : M.length = i + j) (x : T) :
    write (A ++ M ++ (B₁ ++ B₂ ++ C).drop (i + j)) (A.length + (i + j) : ℕ) x =
      .ok (A ++ (M ++ [x]) ++ (B₁ ++ B₂ ++ C).drop (i + j + 1)) := by
  have hlt : i + j < (B₁ ++ B₂ ++ C).length := by
    simp only [List.length_append]
    omega
  have hlen : (A ++ M).length = A.length + (i + j) := by rw [List.length_append, hM]
  rw [write_ok, List.drop_eq_getElem_cons hlt, List.set_append_right _ _ hlen.le, hlen,
    Nat.sub_self, List.set_cons_zero]
  · simp
  · simp only [List.length_append, List.length_drop] at hlt ⊢
    omega

theorem takeLeft_mergeAt (hi : i < B₁.length) (hj : j ≤ B₂.length) (hM : M.length = i + j) :
    (mergeAt A B₁ B₂ C M i j).takeLeft B₁ = .ok (mergeAt A B₁ B₂ C (M ++ [B₁[i]]) (i + 1) j) := by
  have hnext : i + j + 1 = i + 1 + j := by omega
  simp only [MergeState.takeLeft, mergeAt, read_eq hi, bind, Except.bind,
    write_mergeAt (show i + j < B₁.length + B₂.length by omega) hM]
  rw [hnext]
  push_cast
  congr 2
  omega

theorem takeRight_mergeAt (hi : i ≤ B₁.length) (hj : j < B₂.length) (hM : M.length = i + j) :
    (mergeAt A B₁ B₂ C M i j).takeRight B₂ = .ok (mergeAt A B₁ B₂ C (M ++ [B₂[j]]) i (j + 1)) := by
  have hnext : i + j + 1 = i + (j + 1) := by omega
  simp only [MergeState.takeRight, mergeAt, read_eq hj, bind, Except.bind,
    write_mergeAt (show i + j < B₁.length + B₂.length by omega) hM]
  rw [hnext]
  push_cast
  congr 2

variable [LinearOrder T]

/-- An iteration moves the first element of what `List.merge` makes of the rest. -/
theorem mergeStep_mergeAt (hi : i ≤ B₁.length) (hj : j ≤ B₂.length)
    (hij : i + j < B₁.length + B₂.length) (hM : M.length = i + j) :
    ∃ x i' j', mergeStep B₁ B₂ B₁.length B₂.length (mergeAt A B₁ B₂ C M i j) =
        .ok (mergeAt A B₁ B₂ C (M ++ [x]) i' j') ∧
      i' ≤ B₁.length ∧ j' ≤ B₂.length ∧ i' + j' = i + j + 1 ∧
      List.merge (B₂.drop j) (B₁.drop i) = x :: List.merge (B₂.drop j') (B₁.drop i') := by
  have hleft : ((mergeAt A B₁ B₂ C M i j).i < B₁.length) ↔ i < B₁.length := Nat.cast_lt
  have hright : ((mergeAt A B₁ B₂ C M i j).j < B₂.length) ↔ j < B₂.length := Nat.cast_lt
  unfold mergeStep
  by_cases hi' : i < B₁.length
  · by_cases hj' : j < B₂.length
    · -- if the elements are equal, both `_merge` and `List.merge B₂ B₁` take the one of `B₂`
      have hx : read B₁ (mergeAt A B₁ B₂ C M i j).i = .ok B₁[i] := read_eq hi'
      have hy : read B₂ (mergeAt A B₁ B₂ C M i j).j = .ok B₂[j] := read_eq hj'
      rw [if_pos ⟨hleft.2 hi', hright.2 hj'⟩, hx, hy, List.drop_eq_getElem_cons hi',
        List.drop_eq_getElem_cons hj', List.merge]
      simp only [bind, Except.bind]
      by_cases hlt : B₁[i] < B₂[j]
      · refine ⟨B₁[i], i + 1, j, ?_, hi', hj, by omega, ?_⟩
        · rw [if_pos hlt, takeLeft_mergeAt hi' hj hM]
        · rw [if_neg (by simpa using hlt), List.drop_eq_getElem_cons hj']
      · refine ⟨B₂[j], i, j + 1, ?_, hi, hj', by omega, ?_⟩
        · rw [if_neg hlt, takeRight_mergeAt hi hj' hM]
        · rw [if_pos (by simpa using hlt), List.drop_eq_getElem_cons hi']
    · -- the right half is exhausted
      refine ⟨B₁[i], i + 1, j, ?_, hi', hj, by omega, ?_⟩
      · rw [if_neg fun hand => hj' (hright.1 hand.2), if_pos (hleft.2 hi'),
          takeLeft_mergeAt hi' hj hM]
      · rw [List.drop_of_length_le (not_lt.1 hj'), List.nil_merge, List.nil_merge,
          List.drop_eq_getElem_cons hi']
  · -- the left half is exhausted
    have hj' : j < B₂.length := by omega
    refine ⟨B₂[j], i, j + 1, ?_, hi, hj', by omega, ?_⟩
    · rw [if_neg fun hand => hi' (hleft.1 hand.1), if_neg (mt hleft.1 hi'),
        takeRight_mergeAt hi hj' hM]
    · rw [List.drop_of_length_le (not_lt.1 hi'), List.merge_right, List.merge_right,
        List.drop_eq_getElem_cons hj']

/-- The loop of `_merge`. -/
theorem mergeLoop_eq (A B₁ B₂ C : List T) :
    ∃ s, whileLoop (fun _ => .diverged)
      (fun s : MergeState T => .ok (decide (s.index < (A ++ B₁ ++ B₂).length)))
      (mergeStep B₁ B₂ B₁.length B₂.length) (B₁.length + B₂.length + 1)
      ⟨A ++ B₁ ++ B₂ ++ C, A.length, 0, 0⟩ = .ok s ∧ s.v = A ++ List.merge B₂ B₁ ++ C := by
  -- what has been moved, followed by the merge of the rests, is the merge of the halves
  refine whileLoop_spec (I := fun n s => ∃ M i j, s = mergeAt A B₁ B₂ C M i j ∧
    n = B₁.length + B₂.length - (i + j) ∧ i ≤ B₁.length ∧ j ≤ B₂.length ∧ M.length = i + j ∧
    M ++ List.merge (B₂.drop j) (B₁.drop i) = List.merge B₂ B₁) ?_ (fun _ _ _ => ⟨_, rfl⟩) ?_
    ⟨[], 0, 0, ?_, rfl, Nat.zero_le _, Nat.zero_le _, rfl, rfl⟩ (by omega)
  · -- both halves are used up
    rintro _ _ ⟨M, i, j, rfl, -, hi, hj, hM, hmerge⟩ hcond
    have hindex : ¬(A.length + (i + j) : ℕ) < ((A ++ B₁ ++ B₂).length : ℤ) := by
      simpa [mergeAt] using hcond
    simp only [List.length_append] at hindex
    obtain rfl : i = B₁.length := by omega
    obtain rfl : j = B₂.length := by omega
    rw [List.drop_length, List.drop_length, List.nil_merge, List.append_nil] at hmerge
    rw [mergeAt, hmerge, ← List.length_append, List.drop_append_length]
  · rintro _ _ ⟨M, i, j, rfl, rfl, hi, hj, hM, hmerge⟩ hcond
    have hindex : (A.length + (i + j) : ℕ) < ((A ++ B₁ ++ B₂).length : ℤ) := by
      simpa [mergeAt] using hcond
    simp only [List.length_append] at hindex
    obtain ⟨x, i', j', hstep, hi', hj', hsum, hcons⟩ :=
      mergeStep_mergeAt (A := A) (C := C) hi hj (by omega) hM
    refine ⟨_, _, hstep, ?_, M ++ [x], i', j', rfl, rfl, hi', hj', ?_, ?_⟩
    · omega
    · rw [List.length_append, List.length_singleton, hM, hsum]
    · rw [List.append_assoc, List.singleton_append, ← hcons, hmerge]
  · simp [mergeAt]

/-- `_merge` merges two adjacent parts. -/
theorem merge_eq (A B₁ B₂ C : List T) :
    merge (A ++ B₁ ++ B₂ ++ C) A.length (A ++ B₁).length (A ++ B₁ ++ B₂).length =
      .ok (A ++ List.merge B₂ B₁ ++ C) := by
  obtain ⟨s, hrun, hs⟩ := mergeLoop_eq A B₁ B₂ C
  -- the copies are taken before anything is written
  have hlen₁ : ((A ++ B₁).length : ℤ) - A.length = B₁.length := by simp
  have hlen₂ : ((A ++ B₁ ++ B₂).length : ℤ) - (A ++ B₁).length = B₂.length := by
    simp only [List.length_append]
    omega
  have hfuel : (((A ++ B₁ ++ B₂).length : ℤ) - A.length).toNat = B₁.length + B₂.length := by
    simp only [List.length_append]
    omega
  have hcopy₁ : copy (A ++ B₁ ++ B₂ ++ C) A.length B₁.length = .ok B₁ := by
    rw [List.append_assoc _ B₂]
    exact copy_eq A B₁ (B₂ ++ C)
  have hcopy₂ := copy_eq (A ++ B₁) B₂ C
  simp only [merge, hlen₁, hlen₂, hfuel, hcopy₁, hcopy₂, bind, Except.bind, hrun, hs]

/-! ## The recursion -/

/-- The part `B` of the vector is sorted. -/
theorem mergeSort_eq (A B C : List T) {fuel : ℕ} (hfuel : B.length < fuel) :
    ∃ B', mergeSort fuel (A ++ B ++ C) A.length (A ++ B).length = .ok (A ++ B' ++ C) ∧
      B'.Perm B ∧ B'.Pairwise (· ≤ ·) := by
  induction fuel generalizing A B C with
  | zero => exact absurd hfuel (Nat.not_lt_zero _)
  | succ fuel ih =>
    by_cases hlen : 1 < B.length
    · -- the halves
      have hlt : (A.length : ℤ) < (A ++ B).length - 1 := by
        rw [List.length_append]
        omega
      obtain ⟨B₁, B₂, rfl, hB₁⟩ : ∃ B₁ B₂, B = B₁ ++ B₂ ∧ B₁.length = B.length / 2 :=
        ⟨B.take (B.length / 2), B.drop (B.length / 2), (List.take_append_drop ..).symm, by
          rw [List.length_take]
          omega⟩
      rw [List.length_append] at hlen hB₁ hfuel
      have hmid : (A.length : ℤ) + ((A ++ (B₁ ++ B₂)).length - A.length) / 2 =
          (A ++ B₁).length := by
        simp only [List.length_append]
        omega
      -- the second call finds the first half sorted, and of the same length
      obtain ⟨B₁', hrun₁, hperm₁, hsorted₁⟩ := ih A B₁ (B₂ ++ C) (by omega)
      obtain ⟨B₂', hrun₂, hperm₂, hsorted₂⟩ := ih (A ++ B₁') B₂ C (by omega)
      have hlen₁ : (A ++ B₁').length = (A ++ B₁).length := by
        rw [List.length_append, List.length_append, hperm₁.length_eq]
      have hlen₂ : (A ++ B₁' ++ B₂').length = (A ++ (B₁ ++ B₂)).length := by
        simp only [List.length_append, hperm₁.length_eq, hperm₂.length_eq, Nat.add_assoc]
      have hlen₃ : (A ++ B₁' ++ B₂).length = (A ++ (B₁ ++ B₂)).length := by
        simp only [List.length_append, hperm₁.length_eq, Nat.add_assoc]
      have hmerge := merge_eq A B₁' B₂' C
      rw [hlen₁, hlen₂] at hmerge
      rw [hlen₁, hlen₃] at hrun₂
      refine ⟨List.merge B₂' B₁', ?_, ?_, ?_⟩
      · rw [mergeSort, if_pos hlt, hmid]
        simp only [← List.append_assoc] at hrun₁ hrun₂ hmerge ⊢
        simp only [bind, Except.bind, hrun₁, hrun₂, hmerge]
      · refine (List.merge_perm_append _).trans ?_
        exact List.perm_append_comm.trans (hperm₁.append hperm₂)
      · simpa using @List.pairwise_merge T (fun x y => decide (x ≤ y))
          (by simpa using fun a b c => le_trans) (by simpa using le_total) B₂' B₁'
          (by simpa using hsorted₂) (by simpa using hsorted₁)
    · have hge : ¬(A.length : ℤ) < (A ++ B).length - 1 := by
        rw [List.length_append]
        omega
      refine ⟨B, by rw [mergeSort, if_neg hge], .refl B, ?_⟩
      match B, hlen with
      | [], _ => exact .nil
      | [x], _ => exact List.pairwise_singleton ..
      | _ :: _ :: _, hlen => exact absurd hlen (by simp)

/-- `merge_sort` returns; it sorts the elements from `start` on and before `stop`, and leaves the
other ones. -/
theorem mergeSort_sorts (v : List T) (start stop : ℕ) (hle : start ≤ stop) (hstop : stop ≤ v.length)
    (fuel : ℕ) (hfuel : stop - start < fuel) :
    ∃ B, mergeSort fuel v start stop = .ok (v.take start ++ B ++ v.drop stop) ∧
      B.Perm ((v.take stop).drop start) ∧ B.Pairwise (· ≤ ·) := by
  have hlen₁ : (v.take start).length = start := by
    rw [List.length_take]
    omega
  have happend : v.take start ++ (v.take stop).drop start = v.take stop := by
    have hmin : min start stop = start := min_eq_left hle
    rw [← hmin, ← List.take_take, hmin]
    exact List.take_append_drop start (v.take stop)
  have hlen₂ : (v.take start ++ (v.take stop).drop start).length = stop := by
    rw [happend, List.length_take]
    omega
  have hlen₃ : ((v.take stop).drop start).length < fuel := by
    rw [List.length_drop, List.length_take]
    omega
  obtain ⟨B, hrun, hperm, hsorted⟩ :=
    mergeSort_eq (v.take start) ((v.take stop).drop start) (v.drop stop) hlen₃
  rw [hlen₁, hlen₂, happend, List.take_append_drop] at hrun
  exact ⟨B, hrun, hperm, hsorted⟩

theorem mergeSort_sorts_five :
    ∃ B, mergeSort 5 [4, 3, 1, 2, 0] 1 4 = .ok ([4] ++ B ++ [(0 : ℤ)]) ∧
      B.Perm [3, 1, 2] ∧ B.Pairwise (· ≤ ·) :=
  mergeSort_sorts [4, 3, 1, 2, 0] 1 4 (by decide) (by decide) 5 (by decide)

end CppLearn.Sorting

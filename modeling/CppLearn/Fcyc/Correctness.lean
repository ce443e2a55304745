import CppLearn.Fcyc.Defs
import CppLearn.Lib.SmallestElements
import Mathlib.Data.List.Induction
import Mathlib.Order.Bounds.Basic

/-!
# Correctness of `fcyc`

After any number of measurements, `values` holds the smallest ones, sorted, and then the zeros that
`calloc` has put there. So the loop ends at the first number of measurements of which the smallest
ones are close, or with `maxsamples` measurements, and the result is the smallest of all of them.

The first part is `addSamples_values`, and the second one `fcyc_eq`.
-/

namespace CppLearn.Fcyc

open BoundedLoop CheckedVector SmallestElements

variable {α : Type} {kbest maxsamples : ℕ} {s : Sampler α} {xs l rest : List α} {zero x : α}
  {close : α → α → Bool} {cyc : ℕ → α}

/-! ## Measurements -/

/-- The measurements before the one with number `n`. -/
def samples (cyc : ℕ → α) (n : ℕ) : List α := (List.range n).map cyc

/-- One more measurement. -/
theorem samples_succ (cyc : ℕ → α) (n : ℕ) : samples cyc (n + 1) = samples cyc n ++ [cyc n] := by
  rw [samples, List.range_succ, List.map_append, samples]
  rfl

/-- There are `n` of them. -/
theorem length_samples (cyc : ℕ → α) (n : ℕ) : (samples cyc n).length = n := by
  rw [samples, List.length_map, List.length_range]

variable [LinearOrder α]

/-! ## `add_sample` -/

/-- The element behind a sorted beginning of the array is inserted into it. -/
theorem insertionLoop_eq (hl : l.Pairwise (· ≤ ·)) (x : α) (rest : List α) :
    insertionLoop l.length (l ++ x :: rest) = .ok (l.orderedInsert (· ≤ ·) x ++ rest) := by
  induction l using List.reverseRecOn generalizing rest with
  | nil => rfl
  | append_singleton l y ih =>
    obtain ⟨hl', -, hlast⟩ := List.pairwise_append.1 hl
    have hy : read (l ++ y :: x :: rest) (l.length : ℤ) = .ok y := by
      rw [read_ok (by simp) y]
      simp
    have hx : read (l ++ y :: x :: rest) ((l.length + 1 : ℕ) : ℤ) = .ok x := by
      rw [read_ok (by simp) x]
      simp
    rw [List.append_assoc, List.length_append]
    show insertionLoop (l.length + 1) (l ++ y :: x :: rest) = _
    rw [insertionLoop, hy, ok_bind, hx, ok_bind]
    by_cases hlt : y > x
    · rw [if_pos hlt, swap_append_cons, ok_bind, ih hl', orderedInsert_concat_of_le hlt.le,
        List.append_assoc]
      rfl
    · have hle : ∀ z ∈ l ++ [y], z ≤ x := by
        intro z hz
        rcases List.mem_append.1 hz with hz | hz
        · exact (hlast z hz y List.mem_cons_self).trans (not_lt.1 hlt)
        · rw [List.mem_singleton.1 hz]
          exact not_lt.1 hlt
      rw [if_neg hlt, orderedInsert_of_forall_le hl hle]
      simp

/-- The sampler after the measurements `xs`. -/
def sampled (kbest : ℕ) (zero : α) (xs : List α) : Sampler α :=
  ⟨smallest kbest xs ++ List.replicate (kbest - xs.length) zero, xs.length⟩

/-- Before the first measurement. -/
theorem sampled_nil (kbest : ℕ) (zero : α) : sampled kbest zero [] = initSampler kbest zero := by
  simp [sampled, initSampler, smallest]

/-- The order of the measurements does not matter. -/
theorem sampled_concat (kbest : ℕ) (zero : α) (xs : List α) (x : α) :
    sampled kbest zero (xs ++ [x]) =
      ⟨smallest kbest (x :: xs) ++ List.replicate (kbest - (xs.length + 1)) zero,
        xs.length + 1⟩ := by
  rw [sampled, smallest_perm (List.perm_append_singleton x xs), List.length_append,
    List.length_singleton]

/-- Where the new value belongs, it is inserted. -/
theorem addSample_of_place {pos : ℕ} (hl : l.Pairwise (· ≤ ·)) (hpos : pos = l.length)
    (hplace : placeSample kbest s x = .ok (pos, l ++ x :: rest)) :
    addSample kbest s x = .ok ⟨l.orderedInsert (· ≤ ·) x ++ rest, s.samplecount + 1⟩ := by
  rw [addSample, hplace, ok_bind]
  dsimp only
  rw [hpos, insertionLoop_eq hl, ok_bind]

/-- The measurement is written behind the others. -/
theorem addSample_of_lt (hlt : xs.length < kbest) :
    addSample kbest (sampled kbest zero xs) x = .ok (sampled kbest zero (xs ++ [x])) := by
  have hlen : (smallest kbest xs).length = xs.length := by
    rw [length_smallest]
    omega
  have hvalues : (sampled kbest zero xs).values =
      smallest kbest xs ++ zero :: List.replicate (kbest - (xs.length + 1)) zero := by
    rw [sampled, ← List.replicate_succ,
      show kbest - (xs.length + 1) + 1 = kbest - xs.length by omega]
  have hwrite : write (sampled kbest zero xs).values (xs.length : ℕ) x =
      .ok (smallest kbest xs ++ x :: List.replicate (kbest - (xs.length + 1)) zero) := by
    rw [hvalues, write_ok (by simp [hlen]), List.set_append_right _ _ hlen.le, hlen, Nat.sub_self,
      List.set_cons_zero]
  have hplace : placeSample kbest (sampled kbest zero xs) x = .ok (xs.length,
      smallest kbest xs ++ x :: List.replicate (kbest - (xs.length + 1)) zero) := by
    have hcount : (sampled kbest zero xs).samplecount = xs.length := rfl
    rw [placeSample, hcount, if_pos hlt, hwrite, ok_bind]
  rw [addSample_of_place (pairwise_smallest kbest xs) hlen.symm hplace, sampled_concat,
    smallest_cons_of_length_lt hlt]
  rfl

/-- The largest one of the values, when all of them are measurements. -/
theorem exists_last (hk : 1 ≤ kbest) (hle : kbest ≤ xs.length) (zero : α) :
    ∃ l y, smallest kbest xs = l ++ [y] ∧ l.length = kbest - 1 ∧
      (sampled kbest zero xs).values = l ++ [y] ∧
      read (sampled kbest zero xs).values (kbest - 1 : ℤ) = .ok y := by
  have hlen := length_smallest kbest xs
  rw [Nat.min_eq_left hle] at hlen
  obtain ⟨l, y, hl⟩ := (smallest kbest xs).eq_nil_or_concat.resolve_left fun hnil => by
    rw [hnil, List.length_nil] at hlen
    omega
  rw [List.concat_eq_append] at hl
  rw [hl, List.length_append, List.length_singleton] at hlen
  have hvalues : (sampled kbest zero xs).values = l ++ [y] := by
    rw [sampled, Nat.sub_eq_zero_of_le hle, List.replicate_zero, List.append_nil, hl]
  refine ⟨l, y, hl, by omega, hvalues, ?_⟩
  rw [hvalues, show (kbest : ℤ) - 1 = (l.length : ℕ) by omega, read_ok (by simp) y]
  simp

/-- The measurement takes the place of the largest one, or is not kept. -/
theorem addSample_of_le (hk : 1 ≤ kbest) (hle : kbest ≤ xs.length) :
    addSample kbest (sampled kbest zero xs) x = .ok (sampled kbest zero (xs ++ [x])) := by
  obtain ⟨l, y, hl, hlen, hvalues, hread⟩ := exists_last hk hle zero
  have hzeros : List.replicate (kbest - (xs.length + 1)) zero = [] := by
    rw [Nat.sub_eq_zero_of_le (by omega), List.replicate_zero]
  have hcount : ¬(sampled kbest zero xs).samplecount < kbest := not_lt.2 hle
  rw [sampled_concat, hzeros, List.append_nil]
  -- the sample replaces the largest one, or it is not among the smallest
  by_cases hlt : x < y
  · have hwrite : write (sampled kbest zero xs).values (kbest - 1 : ℤ) x = .ok (l ++ [x]) := by
      rw [hvalues, show (kbest : ℤ) - 1 = (l.length : ℕ) by omega, write_ok (by simp),
        List.set_append_right _ _ le_rfl, Nat.sub_self, List.set_cons_zero]
    have hplace : placeSample kbest (sampled kbest zero xs) x = .ok (kbest - 1, l ++ [x]) := by
      rw [placeSample, if_neg hcount, hread, ok_bind, if_pos hlt, hwrite, ok_bind]
    have hsorted := pairwise_smallest kbest xs
    rw [hl, List.pairwise_append] at hsorted
    rw [addSample_of_place hsorted.1 hlen.symm hplace, smallest_cons_of_lt hl hle hlt.le,
      List.append_nil]
    rfl
  · have hplace : placeSample kbest (sampled kbest zero xs) x =
        .ok (0, (sampled kbest zero xs).values) := by
      rw [placeSample, if_neg hcount, hread, ok_bind, if_neg hlt]
    rw [addSample, hplace, ok_bind]
    dsimp only
    rw [insertionLoop, ok_bind, smallest_cons_of_le hl hle (not_lt.1 hlt), hvalues, ← hl]
    rfl

/-- One more value keeps the smallest ones in order. -/
theorem addSample_sampled (hk : 1 ≤ kbest) :
    addSample kbest (sampled kbest zero xs) x = .ok (sampled kbest zero (xs ++ [x])) := by
  rcases Nat.lt_or_ge xs.length kbest with hlt | hle
  · exact addSample_of_lt hlt
  · exact addSample_of_le hk hle

/-- After any measurements, the values are the smallest ones, sorted, and zeros. -/
theorem addSamples_values (kbest : ℕ) (hk : 1 ≤ kbest) (zero : α) (xs : List α) :
    xs.foldlM (addSample kbest) (initSampler kbest zero) =
      .ok ⟨(xs.insertionSort (· ≤ ·)).take kbest ++ List.replicate (kbest - xs.length) zero,
        xs.length⟩ := by
  suffices hrun : ∀ ys, xs.foldlM (addSample kbest) (sampled kbest zero ys) =
      .ok (sampled kbest zero (ys ++ xs)) by
    rw [← sampled_nil, hrun]
    rfl
  induction xs with
  | nil =>
    intro ys
    rw [List.append_nil]
    rfl
  | cons x xs ih =>
    intro ys
    rw [List.foldlM_cons, addSample_sampled hk]
    exact (ih (ys ++ [x])).trans (by rw [List.append_assoc]; rfl)

/-- Three values, and six measurements in disorder. -/
theorem addSamples_values_six :
    [7, 9, 4, 8, 4, 5].foldlM (addSample 3) (initSampler 3 0) = .ok ⟨[4, 4, 5], 6⟩ :=
  addSamples_values 3 (by decide) 0 [7, 9, 4, 8, 4, 5]

/-! ## `fcyc` -/

/-- The smallest measurements are close. -/
def Converged (kbest : ℕ) (close : α → α → Bool) (zero : α) (xs : List α) : Prop :=
  kbest ≤ xs.length ∧ close ((xs.insertionSort (· ≤ ·)).getD 0 zero)
    ((xs.insertionSort (· ≤ ·)).getD (kbest - 1) zero)

instance (kbest : ℕ) (close : α → α → Bool) (zero : α) (xs : List α) :
    Decidable (Converged kbest close zero xs) :=
  inferInstanceAs (Decidable (_ ∧ _))

/-- The values that are kept. -/
theorem read_sampled {i : ℕ} (zero : α) (hi : i < kbest) (hle : i < xs.length) :
    read (sampled kbest zero xs).values (i : ℤ) =
      .ok ((xs.insertionSort (· ≤ ·)).getD i zero) := by
  have hlen : i < (smallest kbest xs).length := by
    rw [length_smallest]
    omega
  rw [sampled, read_ok (by rw [List.length_append]; omega) zero, List.getD_eq_getElem?_getD,
    List.getElem?_append_left hlen, smallest, List.getElem?_take_of_lt hi,
    List.getD_eq_getElem?_getD]

/-- The test looks at the last of the values that are kept. -/
theorem hasConverged_sampled (hk : 1 ≤ kbest) :
    hasConverged kbest close (sampled kbest zero xs) =
      .ok (decide (Converged kbest close zero xs)) := by
  have hcount : (sampled kbest zero xs).samplecount = xs.length := rfl
  rw [hasConverged, hcount]
  by_cases hle : kbest ≤ xs.length
  · have hfirst : read (sampled kbest zero xs).values 0 = _ := read_sampled zero hk (hk.trans hle)
    have hlast := read_sampled zero (show kbest - 1 < kbest by omega)
      (show kbest - 1 < xs.length by omega)
    rw [if_pos hle, hfirst, ok_bind, show (kbest : ℤ) - 1 = (kbest - 1 : ℕ) by omega, hlast,
      ok_bind]
    simp [Converged, hle]
  · rw [if_neg hle, decide_eq_false fun h => hle h.1]

/-- The loop ends after `n` measurements. -/
def Ends (kbest maxsamples : ℕ) (close : α → α → Bool) (zero : α) (cyc : ℕ → α) (n : ℕ) : Prop :=
  Converged kbest close zero (samples cyc n) ∨ maxsamples ≤ n

/-- One iteration measures, adds the value, and perhaps stops. -/
theorem step_sampled (hk : 1 ≤ kbest) (maxsamples : ℕ) (close : α → α → Bool) (zero : α)
    (cyc : ℕ → α) (n : ℕ) :
    (Ends kbest maxsamples close zero cyc (n + 1) ∧
      step kbest maxsamples close cyc (sampled kbest zero (samples cyc n)) =
        .ok (.inr (sampled kbest zero (samples cyc (n + 1))))) ∨
    (¬Ends kbest maxsamples close zero cyc (n + 1) ∧
      step kbest maxsamples close cyc (sampled kbest zero (samples cyc n)) =
        .ok (.inl (sampled kbest zero (samples cyc (n + 1))))) := by
  have hadd : addSample kbest (sampled kbest zero (samples cyc n)) (cyc n) =
      .ok (sampled kbest zero (samples cyc (n + 1))) := by
    rw [addSample_sampled hk, samples_succ]
  have hcount : ∀ n, (sampled kbest zero (samples cyc n)).samplecount = n := length_samples cyc
  rw [step, hcount, hadd, ok_bind, hasConverged_sampled hk, ok_bind, hcount]
  by_cases hend : Ends kbest maxsamples close zero cyc (n + 1)
  · refine .inl ⟨hend, if_neg fun hgo => ?_⟩
    simp at hgo
    exact hend.elim hgo.1 hgo.2.not_ge
  · refine .inr ⟨hend, if_pos ?_⟩
    obtain ⟨hnot, hlt⟩ := not_or.1 hend
    simp [hnot, not_le.1 hlt]

/-- The loop ends when the smallest measurements are close for the first time, or with `maxsamples`
measurements. The result is the least one. -/
theorem fcyc_eq (kbest maxsamples : ℕ) (hk : 1 ≤ kbest) (close : α → α → Bool) (zero : α)
    (cyc : ℕ → α) :
    ∃ n r, 1 ≤ n ∧ Ends kbest maxsamples close zero cyc n ∧
      (∀ j, 1 ≤ j → j < n → ¬Ends kbest maxsamples close zero cyc j) ∧
      IsLeast (cyc '' Set.Iio n) r ∧
      fcyc kbest maxsamples close zero cyc (maxsamples + 1) =
        .ok (r, sampled kbest zero (samples cyc n)) := by
  -- the invariant is the closed form of the values, and that no number so far ends the loop
  have hloop : ∃ s : Sampler α, iterate (fun _ => Fault.diverged) (step kbest maxsamples close cyc)
      (maxsamples + 1) (initSampler kbest zero) = .ok s ∧
      ∃ n, Ends kbest maxsamples close zero cyc (n + 1) ∧
        (∀ j, 1 ≤ j → j ≤ n → ¬Ends kbest maxsamples close zero cyc j) ∧
        s = sampled kbest zero (samples cyc (n + 1)) := by
    refine iterate_spec (I := fun m (s : Sampler α) => ∃ n,
      s = sampled kbest zero (samples cyc n) ∧ m = maxsamples - n ∧
        ∀ j, 1 ≤ j → j ≤ n → ¬Ends kbest maxsamples close zero cyc j) ?_ ⟨0, ?_, rfl, ?_⟩
      (Nat.lt_succ_self maxsamples)
    · rintro _ _ ⟨n, rfl, rfl, hbefore⟩
      rcases step_sampled hk maxsamples close zero cyc n with ⟨hend, hstep⟩ | ⟨hend, hstep⟩
      · exact .inl ⟨_, hstep, n, hend, hbefore, rfl⟩
      · refine .inr ⟨_, _, hstep, ?_, n + 1, rfl, rfl, fun j hj hle => ?_⟩
        · have hlt := not_le.1 (not_or.1 hend).2
          omega
        · rcases hle.lt_or_eq with hlt | rfl
          · exact hbefore j hj (Nat.le_of_lt_succ hlt)
          · exact hend
    · exact (sampled_nil kbest zero).symm
    · intro j hj hle
      omega
  obtain ⟨s, hloop, n, hend, hbefore, rfl⟩ := hloop
  -- the first value is the smallest of all samples
  have hlen := length_samples cyc (n + 1)
  have hread : read (sampled kbest zero (samples cyc (n + 1))).values 0 = _ :=
    read_sampled zero hk (by rw [hlen]; exact Nat.succ_pos n)
  obtain ⟨hmem, hleast⟩ := insertionSort_getD_zero
    (List.ne_nil_of_length_pos (by rw [hlen]; exact Nat.succ_pos n)) zero
  refine ⟨n + 1, _, Nat.le_add_left 1 n, hend, fun j hj hlt => hbefore j hj (Nat.le_of_lt_succ hlt),
    ⟨?_, ?_⟩, by rw [fcyc, hloop, ok_bind, hread, ok_bind]⟩
  · obtain ⟨i, hi, heq⟩ := List.mem_map.1 hmem
    exact ⟨i, List.mem_range.1 hi, heq⟩
  · rintro _ ⟨i, hi, rfl⟩
    exact hleast _ (List.mem_map_of_mem (List.mem_range.2 hi))

/-- Measurements of which the first two are not close, and the two smallest ones are. -/
def fourSamples (i : ℕ) : ℕ := [9, 5, 7, 6].getD i 0

/-- Four measurements, until two of them differ by one. -/
theorem fcyc_eq_four :
    ∃ n r, 1 ≤ n ∧ Ends 2 20 (fun a b => decide (b ≤ a + 1)) 0 fourSamples n ∧
      (∀ j, 1 ≤ j → j < n → ¬Ends 2 20 (fun a b => decide (b ≤ a + 1)) 0 fourSamples j) ∧
      IsLeast (fourSamples '' Set.Iio n) r ∧
      fcyc 2 20 (fun a b => decide (b ≤ a + 1)) 0 fourSamples 21 =
        .ok (r, sampled 2 0 (samples fourSamples n)) :=
  fcyc_eq 2 20 (by decide) (fun a b => decide (b ≤ a + 1)) 0 fourSamples

end CppLearn.Fcyc

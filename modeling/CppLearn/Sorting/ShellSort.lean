import CppLearn.Lib.Rearrangement
import CppLearn.Sorting.Exchange

/-!
# The runs of `shell_sort`

The loop that inserts an element compares elements with distance `d`, exchanges neighbours, and
stops at position zero only. If the positions that it visits end between zero and `d`, it reads
before the beginning of the vector (`Leaves`). A run without such a step ends with an insertion
sort, which does not depend on what the passes before it did.

The states of a run before its insertions are those that it reaches (`ShellReaches`), and
`shellSort_iff_reaches` says what they decide.
-/

namespace CppLearn.Sorting

open BoundedLoop CheckedVector Signed

variable {T : Type} [LinearOrder T] {v w : List T} {z : T} {c d i j m n : ℕ}

/-! ## The body of the loop -/

/-- An insertion ends at position zero, -/
theorem shellInsertStep_zero (d : ℤ) (v : List T) : shellInsertStep d (v, 0) = .ok (.inr v) := rfl

/-- Between zero and the gap, the other element is before the beginning of the vector. -/
theorem shellInsertStep_of_lt (hpos : 0 < j) (hlt : j < d) :
    shellInsertStep (d : ℤ) (v, (j : ℤ)) = .error .invalidAccess := by
  have hread : read v ((j : ℤ) - d) = .error .invalidAccess := if_neg (by omega)
  simp only [shellInsertStep, if_pos (show (j : ℤ) > 0 by omega), hread, bind, Except.bind]

/-- or when the element before is not larger; otherwise it swaps neighbours, not the elements it has
compared. -/
theorem shellInsertStep_eq (hd : 0 < d) (hj : j + d < v.length) (z : T) :
    shellInsertStep (d : ℤ) (v, ((j + d : ℕ) : ℤ)) =
      if v.getD (j + d) z < v.getD j z then
        (swap v ((j + d - 1 : ℕ) : ℤ) ((j + d : ℕ) : ℤ)).map fun w => .inl (w, (j : ℤ))
      else .ok (.inr v) := by
  have hlow : ((j + d : ℕ) : ℤ) - d = j := by omega
  have hprev : ((j + d : ℕ) : ℤ) - 1 = (j + d - 1 : ℕ) := by omega
  simp only [shellInsertStep, if_pos (show ((j + d : ℕ) : ℤ) > 0 by omega), hlow, hprev,
    read_ok (show j < v.length by omega) z, read_ok hj z, bind, Except.bind, gt_iff_lt]
  by_cases hlt : v.getD (j + d) z < v.getD j z
  · rw [if_pos hlt, if_pos hlt]
    cases swap v ((j + d - 1 : ℕ) : ℤ) ((j + d : ℕ) : ℤ) <;> rfl
  · rw [if_neg hlt, if_neg hlt]

/-! ## Insertions with any gap -/

/-- The elements at the positions `c, c + d, ..., c + m * d` are strictly descending. -/
def Descends (v : List T) (d c m : ℕ) : Prop :=
  ∀ k < m, ∀ x ∈ v[c + k * d]?, ∀ y ∈ v[c + (k + 1) * d]?, y < x

/-- The insertion of the element at position `i` visits a position between zero and the gap. -/
def Leaves (v : List T) (d i : ℕ) : Prop := i % d ≠ 0 ∧ Descends v d (i % d) (i / d)

/-- A longer descending run. -/
theorem descends_succ_iff (hlen : c + m * d + d < v.length) (z : T) :
    Descends v d c (m + 1) ↔
      Descends v d c m ∧ v.getD (c + m * d + d) z < v.getD (c + m * d) z := by
  have hnext : c + (m + 1) * d = c + m * d + d := by rw [Nat.succ_mul, Nat.add_assoc]
  unfold Descends
  rw [Nat.forall_lt_succ_right, hnext, List.getElem?_eq_getElem hlen,
    List.getElem?_eq_getElem (show c + m * d < v.length by omega)]
  simp [hlen, show c + m * d < v.length by omega]

/-- Only the elements up to the last position matter. -/
theorem Descends.congr (h : Descends v d c m) (hget : ∀ k ≤ c + m * d, w[k]? = v[k]?) :
    Descends w d c m := by
  intro k hk x hx y hy
  rw [hget _ (Nat.add_le_add_left (Nat.mul_le_mul_right d hk.le) c)] at hx
  rw [hget _ (Nat.add_le_add_left (Nat.mul_le_mul_right d hk) c)] at hy
  exact h k hk x hx y hy

/-- The loop from position `c + m * d` on: it leaves the vector, or permutes its elements. -/
theorem shellInsert_run {fuel : ℕ} (hc : c < d) (hlen : c + m * d < v.length) (hfuel : m < fuel) :
    (c ≠ 0 ∧ Descends v d c m → iterate (fun _ => .diverged) (shellInsertStep (d : ℤ)) fuel
        (v, ((c + m * d : ℕ) : ℤ)) = .error .invalidAccess) ∧
    (¬(c ≠ 0 ∧ Descends v d c m) → ∃ w, iterate (fun _ => .diverged) (shellInsertStep (d : ℤ)) fuel
        (v, ((c + m * d : ℕ) : ℤ)) = .ok w ∧ w.Perm v) := by
  obtain ⟨fuel, rfl⟩ := Nat.exists_eq_add_of_le' (Nat.one_le_of_lt hfuel)
  -- `m` comparisons are left until the position is below the gap
  induction m generalizing fuel v with
  | zero =>
    have hzero : c + 0 * d = c := by rw [Nat.zero_mul, Nat.add_zero]
    rw [hzero]
    refine ⟨fun h => ?_, fun h => ?_⟩
    · simp only [iterate, shellInsertStep_of_lt (Nat.pos_of_ne_zero h.1) hc]
    · obtain rfl : c = 0 := by
        by_contra hne
        exact h ⟨hne, fun k hk => absurd hk (Nat.not_lt_zero k)⟩
      exact ⟨v, by simp only [iterate, Nat.cast_zero, shellInsertStep_zero], .refl v⟩
  | succ m ih =>
    have hnext : c + (m + 1) * d = c + m * d + d := by rw [Nat.succ_mul, Nat.add_assoc]
    rw [hnext] at hlen
    obtain ⟨z, -⟩ : ∃ z, v[0]? = some z := ⟨v[0], List.getElem?_eq_getElem (by omega)⟩
    have hstep := shellInsertStep_eq (show 0 < d by omega) hlen z
    rw [descends_succ_iff hlen z, hnext]
    by_cases hlt : v.getD (c + m * d + d) z < v.getD (c + m * d) z
    · obtain ⟨w, hw, hre, hcell, -⟩ := swap_rearranged (v := v) (i := c + m * d + d - 1)
        (j := c + m * d + d) (Nat.zero_le _) (show _ < v.length by omega) (Nat.zero_le _) hlen
        (by omega) hlen
      rw [if_pos hlt, hw] at hstep
      obtain ⟨fuel, rfl⟩ := Nat.exists_eq_add_of_le' (show 1 ≤ fuel by omega)
      have hiterate : iterate (fun _ => .diverged) (shellInsertStep (d : ℤ)) (fuel + 1 + 1)
          (v, ((c + m * d + d : ℕ) : ℤ)) = iterate (fun _ => .diverged) (shellInsertStep (d : ℤ))
          (fuel + 1) (w, ((c + m * d : ℕ) : ℤ)) := by
        rw [iterate, hstep]
        rfl
      -- the exchange does not touch the positions that are still to be visited
      have hdescends : c ≠ 0 → (Descends w d c m ↔ Descends v d c m) := by
        intro hne
        have hget : ∀ k ≤ c + m * d, w[k]? = v[k]? := by
          intro k hk
          rw [hcell, Equiv.swap_apply_of_ne_of_ne (by omega) (by omega)]
        exact ⟨fun h => h.congr fun k hk => (hget k hk).symm, fun h => h.congr hget⟩
      obtain ⟨hleaves, hstays⟩ := ih (show c + m * d < w.length by rw [hre.length_eq]; omega) fuel
        (by omega)
      rw [hiterate]
      refine ⟨fun h => hleaves ⟨h.1, (hdescends h.1).2 h.2.1⟩, fun h => ?_⟩
      obtain ⟨w', hrun, hperm⟩ := hstays fun h' => h ⟨h'.1, (hdescends h'.1).1 h'.2, hlt⟩
      exact ⟨w', hrun, hperm.trans hre.perm⟩
    · -- the loop is left by `break`
      rw [if_neg hlt] at hstep
      exact ⟨fun h => absurd h.2.2 hlt, fun _ => ⟨v, iterate_exit hstep _, .refl v⟩⟩

/-- An insertion that goes on to the front leaves the vector, -/
theorem shellInsert_of_leaves (hd : 0 < d) (hi : i < v.length) (h : Leaves v d i) :
    shellInsert d i v = .error .invalidAccess := by
  have hrun := (shellInsert_run (v := v) (Nat.mod_lt i hd) (m := i / d)
    (by rwa [Nat.mod_add_div']) (Nat.lt_succ_of_le (Nat.div_le_self i d))).1 h
  rwa [Nat.mod_add_div'] at hrun

/-- and any other one permutes it. -/
theorem shellInsert_of_not_leaves (hd : 0 < d) (hi : i < v.length) (h : ¬Leaves v d i) :
    ∃ w, shellInsert d i v = .ok w ∧ w.Perm v := by
  have hrun := (shellInsert_run (v := v) (Nat.mod_lt i hd) (m := i / d)
    (by rwa [Nat.mod_add_div']) (Nat.lt_succ_of_le (Nat.div_le_self i d))).2 h
  rwa [Nat.mod_add_div'] at hrun

/-- An insertion that returns permutes the elements. -/
theorem shellInsert_perm (hd : 0 < d) (hi : i < v.length) (hrun : shellInsert d i v = .ok w) :
    w.Perm v := by
  by_cases h : Leaves v d i
  · rw [shellInsert_of_leaves hd hi h] at hrun
    cases hrun
  · obtain ⟨w', hrun', hperm⟩ := shellInsert_of_not_leaves hd hi h
    rw [hrun'] at hrun
    exact Except.ok.inj hrun ▸ hperm

/-! ## Insertions with gap one -/

/-- With gap one, the element is inserted as by `insert_sort`. -/
theorem shellInsert_one (i : ℕ) (v : List T) : shellInsert (1 : ℕ) i v = insertElement i v := rfl

/-- One more element of a sorted beginning. -/
theorem shellInsert_one_spec (hi : i < v.length)
    (h : MonotoneOn (fun k => v.getD k z) (Set.Ico 0 i)) :
    ∃ w, shellInsert (1 : ℕ) i v = .ok w ∧
      MonotoneOn (fun k => w.getD k z) (Set.Ico 0 (i + 1)) := by
  obtain ⟨w, hw, -, hsorted⟩ := insertElement_spec hi h
  exact ⟨w, shellInsert_one i v ▸ hw, hsorted⟩

/-! ## Runs -/

/-- A run of `shell_sort` on `v` gets to the vector `w` in the pass with gap `d`, and the element at
position `i` is inserted next. The pass ends when `i` is the number of elements. -/
inductive ShellReaches (v : List T) : List T → ℕ → ℕ → Prop
  | start : 0 < v.length / 2 → ShellReaches v v (v.length / 2) (v.length / 2)
  | insert {w w' : List T} {d i : ℕ} : ShellReaches v w d i → i < v.length →
      shellInsert d i w = .ok w' → ShellReaches v w' d (i + 1)
  | nextGap {w : List T} {d i : ℕ} : ShellReaches v w d i → v.length ≤ i → 0 < d / 2 →
      ShellReaches v w (d / 2) (d / 2)

namespace ShellReaches

/-- Gaps are positive. -/
theorem pos (h : ShellReaches v w d i) : 0 < d := by
  induction h with
  | start hpos => exact hpos
  | insert _ _ _ ih => exact ih
  | nextGap _ _ hpos => exact hpos

/-- The insertions permute the vector. -/
theorem perm (h : ShellReaches v w d i) : w.Perm v := by
  induction h with
  | start => exact .refl v
  | insert hreach hi hrun ih =>
    exact (shellInsert_perm hreach.pos (hi.trans_eq ih.length_eq.symm) hrun).trans ih
  | nextGap _ _ _ ih => exact ih

end ShellReaches

/-- The loop over the gaps. -/
def shellPasses (n fuel : ℕ) : List T × ℤ → Except Fault (List T × ℤ) :=
  whileLoop (fun _ => .diverged) (fun s => .ok (decide (s.2 ≥ 1))) (shellPass n) fuel

/-- What is left of a run: the rest of a pass, and the next ones. -/
def shellRest (n fuel d i : ℕ) (w : List T) : Except Fault (List T × ℤ) :=
  (forLoop i n (shellInsert d) w).bind fun w => shellPasses n fuel (w, ((d / 2 : ℕ) : ℤ))

/-- The procedure without the conversions of its counters, -/
theorem shellSort_eq (hlen : v.length < 2 ^ 31) :
    shellSort v = (shellPasses v.length (v.length + 1) (v, ((v.length / 2 : ℕ) : ℤ))).bind
      fun s => .ok s.1 := by
  have hnarrow : narrow 32 v.length = v.length := narrow_natCast (by omega)
  have hhalf : (v.length : ℤ) / 2 = (v.length / 2 : ℕ) := by omega
  rw [shellSort, hnarrow, hhalf, Int.toNat_natCast]
  rfl

/-- and one of its passes. -/
theorem shellPass_eq (n d : ℕ) (v : List T) :
    shellPass n (v, (d : ℤ)) =
      (forLoop d n (shellInsert d) v).bind fun w => .ok (w, ((d / 2 : ℕ) : ℤ)) := rfl

/-- The first insertion of a pass is the next one. -/
theorem shellPasses_eq {fuel : ℕ} (hd : 0 < d) (hfuel : 0 < fuel) (w : List T) :
    shellPasses n fuel (w, (d : ℤ)) = shellRest n (fuel - 1) d d w := by
  rw [shellPasses, whileLoop_of_true (by simpa using Nat.succ_le_of_lt hd) hfuel, shellPass_eq,
    shellRest]
  cases forLoop d n (shellInsert d) w <;> rfl

/-- What a run returns depends on the state that it gets to only. -/
theorem ShellReaches.shellPasses_eq (h : ShellReaches v w d i) :
    ∃ fuel, d ≤ fuel ∧ shellPasses v.length (v.length + 1) (v, ((v.length / 2 : ℕ) : ℤ)) =
      shellRest v.length fuel d i w := by
  induction h with
  | start hpos =>
    exact ⟨v.length, Nat.div_le_self _ _, Sorting.shellPasses_eq hpos (Nat.succ_pos _) v⟩
  | insert _ hi hrun ih =>
    obtain ⟨fuel, hfuel, heq⟩ := ih
    refine ⟨fuel, hfuel, heq.trans ?_⟩
    rw [shellRest, forLoop_of_lt hi, hrun]
    rfl
  | @nextGap w d i hreach hi hpos ih =>
    obtain ⟨fuel, hfuel, heq⟩ := ih
    refine ⟨fuel - 1, by omega, heq.trans ?_⟩
    rw [shellRest, forLoop_of_le hi]
    exact Sorting.shellPasses_eq hpos (by omega) w

/-- A run that gets to an insertion which leaves the vector fails. -/
theorem ShellReaches.shellSort_error (hlen : v.length < 2 ^ 31) (h : ShellReaches v w d i)
    (hi : i < v.length) (hleaves : Leaves w d i) : shellSort v = .error .invalidAccess := by
  obtain ⟨fuel, -, heq⟩ := h.shellPasses_eq
  rw [shellSort_eq hlen, heq, shellRest, forLoop_of_lt hi,
    shellInsert_of_leaves h.pos (by rwa [h.perm.length_eq]) hleaves]
  rfl

/-! ## The procedure -/

/-- A pass: the run gets to its end, and the pass with gap one sorts. -/
theorem shellPass_spec (hstays : ∀ w d i, ShellReaches v w d i → i < v.length → ¬Leaves w d i)
    (hd : 0 < d) (hdn : d ≤ v.length) (h : ShellReaches v w d d) (z : T) :
    ∃ w', shellPass v.length (w, (d : ℤ)) = .ok (w', ((d / 2 : ℕ) : ℤ)) ∧
      ShellReaches v w' d v.length ∧
      (d = 1 → MonotoneOn (fun k => w'.getD k z) (Set.Ico 0 v.length)) := by
  have hloop : ∃ w', forLoop d v.length (shellInsert d) w = .ok w' ∧
      (ShellReaches v w' d v.length ∧
      (d = 1 → MonotoneOn (fun k => w'.getD k z) (Set.Ico 0 v.length))) := by
    refine forLoop_spec (I := fun i w => ShellReaches v w d i ∧
      (d = 1 → MonotoneOn (fun k => w.getD k z) (Set.Ico 0 i))) ?_ hdn ⟨h, ?_⟩
    · rintro i u - hi ⟨hreach, hsorted⟩
      have hi' : i < u.length := hi.trans_eq hreach.perm.length_eq.symm
      -- with gap one the order is kept, too; with other gaps it does not matter
      by_cases hone : d = 1
      · subst hone
        obtain ⟨u', hrun, hsorted'⟩ := shellInsert_one_spec hi' (hsorted rfl)
        exact ⟨u', hrun, hreach.insert hi hrun, fun _ => hsorted'⟩
      · obtain ⟨u', hrun, -⟩ := shellInsert_of_not_leaves hd hi' (hstays u d i hreach hi)
        exact ⟨u', hrun, hreach.insert hi hrun, fun h => absurd h hone⟩
    · rintro rfl
      exact monotoneOn_Ico_of_le le_rfl
  obtain ⟨w', hrun, hrest⟩ := hloop
  exact ⟨w', by rw [shellPass_eq, hrun]; rfl, hrest⟩

/-- `shell_sort` returns if no insertion of its run leaves the vector, and then the result is
sorted. -/
theorem shellSort_spec (hlen : v.length < 2 ^ 31)
    (hstays : ∀ w d i, ShellReaches v w d i → i < v.length → ¬Leaves w d i) :
    ∃ w, shellSort v = .ok w ∧ w.Perm v ∧ w.Pairwise (· ≤ ·) := by
  have hloop : ∃ s : List T × ℤ, shellPasses v.length (v.length + 1)
      (v, ((v.length / 2 : ℕ) : ℤ)) = .ok s ∧ (s.1.Perm v ∧ s.1.Pairwise (· ≤ ·)) := by
    refine whileLoop_spec (I := fun m s => ∃ w, s = (w, (m : ℤ)) ∧ w.Perm v ∧ m ≤ v.length ∧
      (0 < m → ShellReaches v w m m) ∧ (m = 0 → w.Pairwise (· ≤ ·))) ?_ (fun _ _ _ => ⟨_, rfl⟩) ?_
      ⟨v, rfl, .refl v, Nat.div_le_self _ _, .start, fun hzero => ?_⟩
      (Nat.lt_succ_of_le (Nat.div_le_self _ _))
    · rintro m _ ⟨w, rfl, hperm, -, -, hsorted⟩ hexit
      have hzero : ¬(m : ℤ) ≥ 1 := by simpa using hexit
      exact ⟨hperm, hsorted (by omega)⟩
    · rintro m _ ⟨w, rfl, -, hm, hreach, -⟩ hon
      have hpos : (m : ℤ) ≥ 1 := by simpa using hon
      obtain ⟨z, -⟩ : ∃ z, v[0]? = some z := ⟨v[0], List.getElem?_eq_getElem (by omega)⟩
      obtain ⟨w', hrun, hreach', hsorted⟩ := shellPass_spec hstays (by omega) hm
        (hreach (by omega)) z
      refine ⟨_, m / 2, hrun, by omega, w', rfl, hreach'.perm, by omega,
        hreach'.nextGap le_rfl, fun hzero => ?_⟩
      -- the gap was one
      refine pairwise_of_monotoneOn (d := z) ?_
      rw [hreach'.perm.length_eq]
      exact hsorted (by omega)
    · -- at most one element
      match v, hzero with
      | [], _ => exact .nil
      | [x], _ => exact List.pairwise_singleton ..
      | _ :: _ :: tail, hzero =>
        have hlong : (tail.length + 1 + 1) / 2 = 0 := hzero
        omega
  obtain ⟨s, hrun, hresult⟩ := hloop
  exact ⟨s.1, by rw [shellSort_eq hlen, hrun]; rfl, hresult⟩

/-- `shell_sort` stays inside the vector and sorts it if and only if none of the insertions of its
run visits a position between zero and the gap. -/
theorem shellSort_iff_reaches (hlen : v.length < 2 ^ 31) :
    (∃ w, shellSort v = .ok w ∧ w.Perm v ∧ w.Pairwise (· ≤ ·)) ↔
    ∀ w d i, ShellReaches v w d i → i < v.length → ¬Leaves w d i := by
  refine ⟨?_, shellSort_spec hlen⟩
  rintro ⟨u, hrun, -⟩ w d i hreach hi hleaves
  rw [hreach.shellSort_error hlen hi hleaves] at hrun
  cases hrun

end CppLearn.Sorting

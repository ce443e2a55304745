import CppLearn.Kmp.PrefixFunction
import Mathlib.Data.List.Induction

/-!
# The matching automaton

State `i` stands for the first `i` characters of the pattern. Row `i` says to which state each
letter leads: to the longest beginning of the pattern that is at the end of these characters and the
letter. If the letter is not the next character, this is what row `pi[i - 1]` says for it, which has
been filled before. No letter is the next character for the last row, because of the `'#'`.

A cell leads to the right state if it is `CellOk` for one of the letters (`Letter`). One cell is
`automatonStep_spec`, and all of them are `computeAutomaton_spec`. The states after the beginnings
of a text follow from them (`computeAutomaton_follows`).
-/

namespace CppLearn.Kmp

open BoundedLoop CheckedVector Signed

variable {s t pi : List ℤ} {aut aut' : List (List ℤ)} {x : ℤ} {c i j m q : ℕ}

/-- The codes of the letters from `'a'` to `'z'`. -/
def Letter (x : ℤ) : Prop := 97 ≤ x ∧ x ≤ 122

instance (x : ℤ) : Decidable (Letter x) := inferInstanceAs (Decidable (_ ∧ _))

/-! ## Cells -/

/-- The table has `n` rows of 26 cells. -/
structure Table (aut : List (List ℤ)) (n : ℕ) : Prop where
  length_eq : aut.length = n
  length_row : ∀ i < n, (aut.getD i []).length = 26

/-- The contents of a cell. -/
def cellD (aut : List (List ℤ)) (i c : ℕ) : ℤ := (aut.getD i []).getD c 0

theorem Table.cell_eq {n : ℕ} (h : Table aut n) (hi : i < n) (hc : c < 26) :
    cell aut i c = .ok (cellD aut i c) := by
  rw [cell, read_ok (by rwa [h.length_eq]) [], ok_bind]
  exact read_ok (by rwa [h.length_row i hi]) 0

/-- A cell is written, and the others stay. -/
theorem Table.setCell_spec {n : ℕ} (h : Table aut n) (hi : i < n) (hc : c < 26) (r : ℤ) :
    ∃ aut', setCell aut i c r = .ok aut' ∧ Table aut' n ∧ cellD aut' i c = r ∧
      ∀ j d, (j, d) ≠ (i, c) → cellD aut' j d = cellD aut j d := by
  have hi' : i < aut.length := by rwa [h.length_eq]
  have hc' : c < (aut.getD i []).length := by rwa [h.length_row i hi]
  have hrow : ∀ j, (aut.set i ((aut.getD i []).set c r)).getD j [] =
      Function.update (fun j => aut.getD j []) i ((aut.getD i []).set c r) j :=
    congrFun (getD_set hi' _ [])
  refine ⟨aut.set i ((aut.getD i []).set c r), ?_, ⟨by simpa using h.length_eq, fun j hj => ?_⟩, ?_,
    fun j d hne => ?_⟩
  · rw [setCell, read_ok hi' [], ok_bind, write_ok hc', ok_bind, write_ok hi']
  · rw [hrow]
    rcases eq_or_ne j i with rfl | hji
    · rw [Function.update_self, List.length_set, h.length_row j hj]
    · rw [Function.update_of_ne hji, h.length_row j hj]
  · rw [cellD, hrow, Function.update_self, congrFun (getD_set hc' r 0) c, Function.update_self]
  · rw [cellD, hrow, cellD]
    rcases eq_or_ne j i with rfl | hji
    · have hdc : d ≠ c := fun h => hne (by rw [h])
      rw [Function.update_self, congrFun (getD_set hc' r 0) d, Function.update_of_ne hdc]
    · rw [Function.update_of_ne hji]

/-- The cell for state `i` and letter number `c` leads to the longest beginning of `s` that is at
the end of the first `i` characters and the letter. -/
def CellOk (s : List ℤ) (aut : List (List ℤ)) (i c : ℕ) : Prop :=
  ∃ q : ℕ, cellD aut i c = q ∧ LongestOverlap s (s.take i ++ [97 + (c : ℤ)]) q

/-- The next character of the pattern with the `'#'` is a letter if it is the next one of the
pattern. -/
theorem getElem?_concat_eq_iff (hx : 97 ≤ x) : (s ++ [35])[i]? = some x ↔ s[i]? = some x := by
  rcases Nat.lt_or_ge i s.length with hlt | hge
  · rw [List.getElem?_append_left hlt]
  · rw [List.getElem?_append_right hge, List.getElem?_eq_none hge]
    cases h : i - s.length with
    | zero => simp; omega
    | succ k => simp

/-- What is written to a cell, after the rows before its own. -/
theorem automatonStep_eq (hpi : PrefixTable (s ++ [35]) pi (s.length + 1))
    (haut : Table aut (s.length + 1)) (hi : i ≤ s.length) (hc : c < 26)
    (hrows : ∀ j < i, CellOk s aut j c) :
    ∃ q : ℕ, automatonStep (s ++ [35]) pi i c aut = setCell aut i c q ∧
      LongestOverlap s (s.take i ++ [97 + (c : ℤ)]) q := by
  have hlen : i < (s ++ [35]).length := by
    rw [List.length_append]
    exact Nat.lt_succ_of_le hi
  have hnext : (s ++ [35])[i] = 97 + (c : ℤ) ↔ s[i]? = some (97 + (c : ℤ)) := by
    rw [← getElem?_concat_eq_iff (by omega), List.getElem?_eq_getElem hlen, Option.some.injEq]
  by_cases hx : s[i]? = some (97 + (c : ℤ))
  · refine ⟨i + 1, ?_, longestOverlap_take_succ hx⟩
    rw [automatonStep, read_eq hlen, ok_bind, hnext.2 hx, if_neg (fun h => h.2 rfl), if_pos rfl]
    rfl
  -- any other letter: a later row has what the row of the longest border has
  have hne : (97 + c : ℤ) ≠ (s ++ [35])[i] := fun h => hx (hnext.1 h.symm)
  cases i with
  | zero =>
    refine ⟨0, ?_, longestOverlap_singleton hx⟩
    rw [automatonStep, read_eq hlen, ok_bind, if_neg (fun h => absurd h.1 (lt_irrefl 0)),
      if_neg hne]
    rfl
  | succ i =>
    obtain ⟨p, hp, hlongest⟩ := hpi.longest i (Nat.lt_succ_of_lt hi)
    rw [longestBorder_append_iff hi] at hlongest
    obtain ⟨q, hq, hoverlap⟩ := hrows p hlongest.1.1
    refine ⟨q, ?_, (hlongest.overlaps_iff hi hx).2 hoverlap⟩
    have hprev : ((i + 1 : ℕ) : ℤ) - 1 = i := by omega
    have hread : read pi (i : ℤ) = .ok (p : ℤ) := by
      rw [read_ok (by rw [hpi.length_eq, List.length_append]; omega) 0, hp]
    rw [automatonStep, read_eq hlen, ok_bind, if_pos ⟨Nat.succ_pos i, hne⟩, hprev, hread, ok_bind,
      haut.cell_eq (by have := hlongest.1.1; omega) hc, ok_bind, hq]

/-- One cell, after the rows before its own. -/
theorem automatonStep_spec (hpi : PrefixTable (s ++ [35]) pi (s.length + 1))
    (haut : Table aut (s.length + 1)) (hi : i ≤ s.length) (hc : c < 26)
    (hrows : ∀ j < i, CellOk s aut j c) :
    ∃ aut', automatonStep (s ++ [35]) pi i c aut = .ok aut' ∧ Table aut' (s.length + 1) ∧
      CellOk s aut' i c ∧ ∀ j d, (j, d) ≠ (i, c) → cellD aut' j d = cellD aut j d := by
  obtain ⟨q, heq, hoverlap⟩ := automatonStep_eq hpi haut hi hc hrows
  obtain ⟨aut', hset, haut', hcell, hrest⟩ := haut.setCell_spec (Nat.lt_succ_of_le hi) hc (q : ℤ)
  exact ⟨aut', heq.trans hset, haut', ⟨q, hcell, hoverlap⟩, hrest⟩

/-! ## The loops -/

/-- The cells of the first `i` rows lead to the right states, and so do the first `c` cells of
row `i`. -/
structure Filled (s : List ℤ) (aut : List (List ℤ)) (i c : ℕ) : Prop extends
    Table aut (s.length + 1) where
  rows : ∀ j < i, ∀ d < 26, CellOk s aut j d
  row : ∀ d < c, CellOk s aut i d

theorem CellOk.congr (h : CellOk s aut i c) (heq : cellD aut' i c = cellD aut i c) :
    CellOk s aut' i c := by
  obtain ⟨q, hq, hoverlap⟩ := h
  exact ⟨q, heq.trans hq, hoverlap⟩

theorem Filled.automatonStep_spec (h : Filled s aut i c)
    (hpi : PrefixTable (s ++ [35]) pi (s.length + 1)) (hi : i ≤ s.length) (hc : c < 26) :
    ∃ aut', automatonStep (s ++ [35]) pi i c aut = .ok aut' ∧ Filled s aut' i (c + 1) := by
  obtain ⟨aut', hrun, haut', hcell, hrest⟩ := Kmp.automatonStep_spec hpi h.toTable hi hc
    fun j hj => h.rows j hj c hc
  refine ⟨aut', hrun, haut', fun j hj d hd => ?_, fun d hd => ?_⟩
  · exact (h.rows j hj d hd).congr (hrest j d fun heq => hj.ne (Prod.mk.inj heq).1)
  · rcases (Nat.le_of_lt_succ hd).eq_or_lt with rfl | hd
    · exact hcell
    · exact (h.row d hd).congr (hrest i d fun heq => hd.ne (Prod.mk.inj heq).2)

/-- One row. -/
theorem Filled.automatonRow_spec (h : Filled s aut i 0)
    (hpi : PrefixTable (s ++ [35]) pi (s.length + 1)) (hi : i ≤ s.length) :
    ∃ aut', forLoop 0 26 (automatonStep (s ++ [35]) pi i) aut = .ok aut' ∧
      Filled s aut' (i + 1) 0 := by
  obtain ⟨aut', hrun, hfilled⟩ := forLoop_spec (I := fun c aut => Filled s aut i c)
    (fun c aut _ hc h => h.automatonStep_spec hpi hi hc) (Nat.zero_le 26) h
  refine ⟨aut', hrun, hfilled.toTable, fun j hj d hd => ?_,
    fun d hd => absurd hd (Nat.not_lt_zero d)⟩
  rcases (Nat.le_of_lt_succ hj).eq_or_lt with rfl | hj
  · exact hfilled.row d hd
  · exact hfilled.rows j hj d hd

/-- All cells lead to the right states. -/
theorem computeAutomaton_spec (hlen : s.length + 1 < 2 ^ 31) :
    ∃ aut, computeAutomaton s = .ok aut ∧ Filled s aut (s.length + 1) 0 := by
  have hsize : (s ++ [35]).length = s.length + 1 := List.length_append
  obtain ⟨pi, hpi, htable⟩ := prefixFunction_spec (s := s ++ [35]) (by rwa [hsize])
  rw [hsize] at htable
  have hstart : Filled s (List.replicate (s.length + 1) (List.replicate 26 0)) 0 0 := by
    refine ⟨⟨List.length_replicate .., fun i hi => ?_⟩, fun j hj => absurd hj (Nat.not_lt_zero j),
      fun d hd => absurd hd (Nat.not_lt_zero d)⟩
    simp [hi]
  -- the prefix function is that of the pattern with the `'#'`, the rows are those of the pattern
  obtain ⟨aut, hrun, hfilled⟩ := forLoop_spec (I := fun i aut => Filled s aut i 0)
    (fun i aut _ hi h => h.automatonRow_spec htable (Nat.le_of_lt_succ hi))
    (Nat.zero_le (s.length + 1)) hstart
  refine ⟨aut, ?_, hfilled⟩
  unfold computeAutomaton
  dsimp only
  rw [hsize, narrow_natCast (w := 32) (by omega), hpi, ok_bind, Int.toNat_natCast, hrun]

/-! ## Texts -/

/-- One more letter of the text. -/
theorem Filled.cell_spec (h : Filled s aut (s.length + 1) 0) (hx : Letter x)
    (hq : LongestOverlap s t q) :
    ∃ r : ℕ, cell aut q (x - 97) = .ok (r : ℤ) ∧ LongestOverlap s (t ++ [x]) r := by
  obtain ⟨c, rfl⟩ : ∃ c : ℕ, x = 97 + c := ⟨(x - 97).toNat, by have := hx.1; omega⟩
  have hc : c < 26 := by
    have := hx.2
    omega
  obtain ⟨r, hr, hoverlap⟩ := h.rows q (Nat.lt_succ_of_le hq.1.1) c hc
  refine ⟨r, ?_, hq.concat_iff.2 hoverlap⟩
  rw [add_sub_cancel_left, h.cell_eq (Nat.lt_succ_of_le hq.1.1) hc, hr]

/-- The state after a text is the length of the longest beginning of the pattern at its end. -/
theorem Filled.follow_spec (h : Filled s aut (s.length + 1) 0) (ht : ∀ x ∈ t, Letter x) :
    ∃ q : ℕ, follow aut t = .ok (q : ℤ) ∧ LongestOverlap s t q := by
  -- the text is read from its beginning, so the induction takes the last letter off
  induction t using List.reverseRecOn with
  | nil =>
    exact ⟨0, rfl, overlaps_zero s [], fun k hk => Overlaps.le_length hk⟩
  | append_singleton t x ih =>
    rw [List.forall_mem_append, List.forall_mem_singleton] at ht
    obtain ⟨q, hq, hoverlap⟩ := ih ht.1
    obtain ⟨r, hr, hoverlap'⟩ := h.cell_spec ht.2 hoverlap
    refine ⟨r, ?_, hoverlap'⟩
    rw [follow, List.foldlM_append]
    exact bind_eq_ok.2 ⟨q, hq, bind_eq_ok.2 ⟨r, hr, rfl⟩⟩

/-- The table is the matching automaton of the pattern: the state after a text is the length of the
longest prefix of the pattern that is a suffix of the text, and it is the last state if and only if
the pattern ends there. -/
theorem computeAutomaton_follows (s : List ℤ) (hlen : s.length + 1 < 2 ^ 31) :
    ∃ aut, computeAutomaton s = .ok aut ∧ ∀ t, (∀ x ∈ t, Letter x) →
      ∃ q : ℕ, follow aut t = .ok (q : ℤ) ∧
        IsGreatest {k | k ≤ s.length ∧ s.take k <:+ t} q ∧ (q = s.length ↔ s <:+ t) := by
  obtain ⟨aut, hrun, hfilled⟩ := computeAutomaton_spec hlen
  refine ⟨aut, hrun, fun t ht => ?_⟩
  obtain ⟨q, hq, hoverlap⟩ := hfilled.follow_spec ht
  exact ⟨q, hq, hoverlap, hoverlap.eq_length_iff⟩

theorem computeAutomaton_follows_aba :
    ∃ aut, computeAutomaton [97, 98, 97] = .ok aut ∧ ∀ t, (∀ x ∈ t, Letter x) →
      ∃ q : ℕ, follow aut t = .ok (q : ℤ) ∧
        IsGreatest {k | k ≤ 3 ∧ [97, 98, 97].take k <:+ t} q ∧ (q = 3 ↔ [97, 98, 97] <:+ t) :=
  computeAutomaton_follows [97, 98, 97] (by decide)

/-- The length of the pattern with the `'#'` is converted to a negative number. -/
theorem computeAutomaton_overflow :
    computeAutomaton (List.replicate (2 ^ 31 - 1) 97) = .error .checkFailed := by
  have hlen : (List.replicate (2 ^ 31 - 1) (97 : ℤ) ++ [35]).length = 2 ^ 31 := by
    rw [List.length_append, List.length_replicate]
    rfl
  have hthrow : prefixFunction (List.replicate (2 ^ 31 - 1) (97 : ℤ) ++ [35]) =
      .error .checkFailed := by
    unfold prefixFunction
    dsimp only
    rw [hlen, if_pos (by decide)]
  unfold computeAutomaton
  dsimp only
  rw [hthrow]
  rfl

end CppLearn.Kmp

import CppLearn.Lib.RangeFold
import CppLearn.SparseTable.Defs

/-!
# When a sparse table answers queries

The constructor fills column after column. A cell whose elements all exist gets the right value,
because the two cells that it is computed from are of the same kind; what the other cells contain
does not matter, since a query reads complete ones only. A query for a single element asks for
column `-1`.

`SparseTable.cell` is the content of a cell, and `SparseTable.Filled` is the table after some of the
columns, which the constructor fills one by one (`SparseTable.create_spec`). What a query computes
is `SparseTable.query_eq`, and that this is the fold over the range is `SparseTable.query_fold`.
When a query stays inside the table is `SparseTable.query_returns_iff`.
-/

namespace CppLearn.SparseTable

open BoundedLoop CheckedVector Signed

variable {T : Type} {op : T → T → T} {a : ℕ → T} {table : List (List T)} {len l1 i j : ℕ} {x d : T}
  {v : List T}

/-- The content of a cell. -/
def cell (table : List (List T)) (i j : ℕ) : Option T := table[i]?.bind (·[j]?)

/-- The table has `len` rows and `l1` columns. -/
structure Dims (table : List (List T)) (len l1 : ℕ) : Prop where
  rows : table.length = len
  columns : ∀ row ∈ table, row.length = l1

/-- In the first `j` columns, the complete cells have their values. -/
structure Filled (op : T → T → T) (a : ℕ → T) (len l1 j : ℕ) (table : List (List T)) : Prop where
  dims : Dims table len l1
  complete : ∀ k < j, ∀ i, i + 2 ^ k ≤ len → cell table i k = some (doublingFold op a i k)

/-! ## Cells -/

theorem Dims.exists_cell (h : Dims table len l1) (hi : i < len) (hj : j < l1) :
    ∃ x, cell table i j = some x := by
  have hi' : i < table.length := h.rows ▸ hi
  have hj' : j < table[i].length := by rw [h.columns _ (List.getElem_mem hi')]; exact hj
  exact ⟨table[i][j], by simp [cell, hi', hj']⟩

theorem readCell_eq (h : cell table i j = some x) : readCell table i j = .ok x := by
  rw [cell, Option.bind_eq_some_iff] at h
  obtain ⟨row, hrow, hx⟩ := h
  obtain ⟨hi, rfl⟩ := List.getElem?_eq_some_iff.1 hrow
  obtain ⟨hj, rfl⟩ := List.getElem?_eq_some_iff.1 hx
  simp only [readCell, read_eq hi, bind, Except.bind, read_eq hj]

/-- A write changes one cell. -/
theorem writeCell_spec (h : Dims table len l1) (hi : i < len) (hj : j < l1) (x : T) :
    ∃ table', writeCell table i j x = .ok table' ∧ Dims table' len l1 ∧
      ∀ i' j', cell table' i' j' = if i' = i ∧ j' = j then some x else cell table i' j' := by
  have hi' : i < table.length := h.rows ▸ hi
  have hj' : j < table[i].length := by rw [h.columns _ (List.getElem_mem hi')]; exact hj
  refine ⟨table.set i (table[i].set j x), ?_, ⟨?_, ?_⟩, fun i' j' => ?_⟩
  · simp only [writeCell, read_eq hi', bind, Except.bind, write_ok hj']
    exact write_ok hi' _
  · rw [List.length_set, h.rows]
  · intro row hrow
    rcases List.mem_or_eq_of_mem_set hrow with hrow | rfl
    · exact h.columns row hrow
    · rw [List.length_set, h.columns _ (List.getElem_mem hi')]
  · by_cases hii : i' = i
    · subst hii
      by_cases hjj : j' = j
      · subst hjj
        simp [cell, hi', hj']
      · simp [cell, hi', List.getElem?_set_ne (Ne.symm hjj), hjj]
    · simp [cell, List.getElem?_set_ne (Ne.symm hii), hii]

/-! ## The constructor -/

theorem shiftOne_eq {k : ℕ} (hk : k < 31) : shiftOne k = .ok (2 ^ k : ℕ) := by
  rw [shiftOne, if_pos ⟨by omega, by omega⟩]
  simp

/-- A step of the loop over the rows of column `k + 1`. -/
theorem fillCell_eq {k : ℕ} {y : T} (hk : k < 31) (hx : cell table i k = some x)
    (hy : cell table (i + 2 ^ k) k = some y) :
    fillCell op (k + 1) i table = writeCell table i (k + 1 : ℕ) (op x y) := by
  have hcol : ((k + 1 : ℕ) : ℤ) - 1 = k := by omega
  have hrow : ((i : ℤ) + (2 ^ k : ℕ)) = ((i + 2 ^ k : ℕ) : ℤ) := by push_cast; rfl
  simp only [fillCell, hcol, readCell_eq hx, shiftOne_eq hk, bind, Except.bind, hrow,
    readCell_eq hy]

/-- One cell of the next column. It is right if its window does not go past the end. -/
theorem fillCell_spec {k n : ℕ} (hk : k < 31) (hcol : k + 1 < l1) (hn : n < len - 2 ^ k)
    (h : Filled op a len l1 (k + 1) table) :
    ∃ table', fillCell op (k + 1) n table = .ok table' ∧ Filled op a len l1 (k + 1) table' ∧
      (∀ i, i ≠ n → cell table' i (k + 1) = cell table i (k + 1)) ∧
      (n + 2 ^ (k + 1) ≤ len → cell table' n (k + 1) = some (doublingFold op a n (k + 1))) := by
  have hpow : 0 < 2 ^ k := Nat.two_pow_pos k
  -- both cells are inside the table, whether they are complete or not
  obtain ⟨x, hx⟩ := h.dims.exists_cell (i := n) (j := k) (by omega) (by omega)
  obtain ⟨y, hy⟩ := h.dims.exists_cell (i := n + 2 ^ k) (j := k) (by omega) (by omega)
  obtain ⟨table', hwrite, hdims, hcell⟩ :=
    writeCell_spec h.dims (i := n) (by omega) hcol (op x y)
  refine ⟨table', (fillCell_eq hk hx hy).trans hwrite, ⟨hdims, fun j hj i hi => ?_⟩,
    fun i hin => ?_, fun hcomplete => ?_⟩
  · rw [hcell, if_neg (by omega)]
    exact h.complete j hj i hi
  · rw [hcell, if_neg fun hand => hin hand.1]
  · -- both halves are complete, too
    rw [Nat.pow_succ] at hcomplete
    have hleft := h.complete k (by omega) n (by omega)
    have hright := h.complete k (by omega) (n + 2 ^ k) (by omega)
    rw [hcell, if_pos ⟨rfl, rfl⟩, doublingFold, Option.some.inj (hx.symm.trans hleft),
      Option.some.inj (hy.symm.trans hright)]

/-- The loop over the rows. -/
theorem fillColumn_spec {k : ℕ} (hk : k < 31) (hcol : k + 1 < l1)
    (h : Filled op a len l1 (k + 1) table) :
    ∃ table', fillColumn op len (k + 1) table = .ok table' ∧
      Filled op a len l1 (k + 2) table' := by
  have hpow : 0 < 2 ^ k := Nat.two_pow_pos k
  have hloop : ∃ table', forLoop 0 (len - 2 ^ k) (fillCell op (k + 1)) table = .ok table' ∧
      (Filled op a len l1 (k + 1) table' ∧
        ∀ i < len - 2 ^ k, i + 2 ^ (k + 1) ≤ len →
          cell table' i (k + 1) = some (doublingFold op a i (k + 1))) := by
    -- the rows before `n` are done; the cells whose windows go past the end are written, too
    refine forLoop_spec (I := fun n table => Filled op a len l1 (k + 1) table ∧
      ∀ i < n, i + 2 ^ (k + 1) ≤ len →
        cell table i (k + 1) = some (doublingFold op a i (k + 1)))
      ?_ (Nat.zero_le _) ⟨h, fun i hi => absurd hi (Nat.not_lt_zero i)⟩
    rintro n table - hn ⟨hfilled, hcolumn⟩
    obtain ⟨table', hrun, hfilled', hother, hnew⟩ := fillCell_spec hk hcol hn hfilled
    refine ⟨table', hrun, hfilled', fun i hi hcomplete => ?_⟩
    rcases Nat.lt_succ_iff_lt_or_eq.1 hi with hlt | rfl
    · rw [hother i hlt.ne]
      exact hcolumn i hlt hcomplete
    · exact hnew hcomplete
  obtain ⟨table', hrun, hfilled, hcolumn⟩ := hloop
  refine ⟨table', ?_, hfilled.dims, fun j hj i hi => ?_⟩
  · have hcol : ((k + 1 : ℕ) : ℤ) - 1 = k := by omega
    have hbound : ((len : ℤ) - (2 ^ k : ℕ)).toNat = len - 2 ^ k := by omega
    simp only [fillColumn, hcol, shiftOne_eq hk, bind, Except.bind, hbound, hrun]
  · by_cases hjk : j = k + 1
    · subst hjk
      refine hcolumn i ?_ hi
      rw [Nat.pow_succ] at hi
      omega
    · exact hfilled.complete j (by omega) i hi

/-- The first column. -/
theorem firstColumn_spec (h : Dims table v.length l1) (hl1 : 0 < l1) (d : T) :
    ∃ table', forLoop 0 v.length (fun i table => do
        let x ← read v i
        writeCell table i 0 x) table = .ok table' ∧
      Filled op (fun k => v.getD k d) v.length l1 1 table' := by
  have hloop : ∃ table', forLoop 0 v.length (fun i table => do
      let x ← read v i
      writeCell table i 0 x) table = .ok table' ∧
      (Dims table' v.length l1 ∧ ∀ i < v.length, cell table' i 0 = some (v.getD i d)) := by
    refine forLoop_spec (I := fun n table => Dims table v.length l1 ∧
      ∀ i < n, cell table i 0 = some (v.getD i d)) ?_ (Nat.zero_le _)
      ⟨h, fun i hi => absurd hi (Nat.not_lt_zero i)⟩
    -- each step writes one cell of the column, and keeps those before
    rintro n table - hn ⟨hdims, hcolumn⟩
    obtain ⟨table', hwrite, hdims', hcell⟩ := writeCell_spec hdims hn hl1 (v.getD n d)
    refine ⟨table', ?_, hdims', fun i hi => ?_⟩
    · simp only [read_ok hn d, bind, Except.bind]
      exact hwrite
    · rw [hcell]
      by_cases hin : i = n
      · rw [if_pos ⟨hin, rfl⟩, hin]
      · rw [if_neg (by omega)]
        exact hcolumn i (by omega)
  obtain ⟨table', hrun, hdims, hcolumn⟩ := hloop
  refine ⟨table', hrun, hdims, fun j hj i hi => ?_⟩
  obtain rfl : j = 0 := by omega
  exact hcolumn i (by omega)

/-- The logarithm of a length that is negative as an `int`. -/
theorem create_error {zero : T} (h : ¬0 < narrow 32 v.length) :
    create op zero v = .error .checkFailed := by
  have hlog : ceilLog2 (narrow 32 v.length) = .error .checkFailed := if_neg h
  rw [create, hlog]
  rfl

/-- The constructor fills all columns. -/
theorem create_spec (op : T → T → T) (zero : T) (hne : v ≠ []) (hlen : v.length < 2 ^ 31) :
    ∃ t, create op zero v = .ok t ∧ t.op = op ∧
      Filled op (fun k => v.getD k zero) v.length (Nat.clog 2 v.length + 1)
        (Nat.clog 2 v.length + 1) t.table := by
  -- the number of rows is the length, and fits in an `int`
  have hpos : 0 < v.length := List.length_pos_iff.2 hne
  have hnarrow : narrow 32 v.length = v.length := narrow_natCast (by omega)
  have hceil : ceilLog2 (v.length : ℤ) = .ok (Nat.clog 2 v.length) :=
    if_pos (Int.natCast_pos.2 hpos)
  have hlog : Nat.clog 2 v.length ≤ 31 := (Nat.clog_le_iff_le_pow Nat.one_lt_two).2 hlen.le
  have hdims : Dims (List.replicate v.length (List.replicate (Nat.clog 2 v.length + 1) zero))
      v.length (Nat.clog 2 v.length + 1) := by
    refine ⟨List.length_replicate, fun row hrow => ?_⟩
    rw [List.eq_of_mem_replicate hrow, List.length_replicate]
  obtain ⟨table₁, hfirst, hfilled⟩ := @firstColumn_spec _ op _ _ _ hdims (Nat.succ_pos _) zero
  have hloop : ∃ table₂, forLoop 1 (Nat.clog 2 v.length + 1) (fillColumn op v.length) table₁ =
      .ok table₂ ∧ Filled op (fun k => v.getD k zero) v.length (Nat.clog 2 v.length + 1)
        (Nat.clog 2 v.length + 1) table₂ := by
    -- the other columns are filled from left to right
    refine forLoop_spec (fun n table hn hn' hI => ?_) (Nat.le_add_left 1 _) hfilled
    obtain ⟨k, rfl⟩ := Nat.exists_eq_add_of_le' hn
    exact fillColumn_spec (by omega) hn' hI
  obtain ⟨table₂, hrest, hfilled'⟩ := hloop
  refine ⟨⟨op, table₂⟩, ?_, rfl, hfilled'⟩
  have hrows : (v.length : ℤ).toNat = v.length := by omega
  have hcols : ((Nat.clog 2 v.length : ℤ) + 1).toNat = Nat.clog 2 v.length + 1 := by omega
  rw [create, hnarrow, hceil]
  simp only [bind, Except.bind, hrows, hcols] at hfirst ⊢
  rw [hfirst]
  simp only [hrest]

/-! ## Queries -/

/-- The logarithm in `query`. -/
theorem ceilLog2_range {l r : ℕ} (hlr : l ≤ r) :
    ceilLog2 ((r : ℤ) - l + 1) = .ok (Nat.clog 2 (r - l + 1) : ℕ) := by
  have hlt : ((r : ℤ) - l + 1).toNat = r - l + 1 := by omega
  rw [ceilLog2, if_pos (by omega), hlt]

/-- A query combines two complete cells that overlap. -/
theorem query_eq {t : SparseTable T} {l r : ℕ} (hlen : len < 2 ^ 31)
    (h : Filled op a len (Nat.clog 2 len + 1) (Nat.clog 2 len + 1) t.table) (hlr : l < r)
    (hr : r < len) :
    ∃ q, 2 ^ q ≤ r - l ∧ r - l < 2 ^ (q + 1) ∧
      t.query l r = .ok (t.op (doublingFold op a l q) (doublingFold op a (r + 1 - 2 ^ q) q)) := by
  have hpos : 0 < Nat.clog 2 (r - l + 1) := Nat.clog_pos Nat.one_lt_two (by omega)
  obtain ⟨q, hq⟩ := Nat.exists_eq_add_of_le' hpos
  -- a window of length `2 ^ q` is not longer than the range, and two of them cover it
  have hlow : 2 ^ q < r - l + 1 := Nat.pow_lt_of_lt_clog (by omega)
  have hhigh : r - l + 1 ≤ 2 ^ (q + 1) := by
    rw [← hq]
    exact Nat.le_pow_clog Nat.one_lt_two _
  have hcol : q < Nat.clog 2 len := by
    have := Nat.clog_mono_right 2 (show r - l + 1 ≤ len by omega)
    omega
  have hlog : Nat.clog 2 len ≤ 31 := (Nat.clog_le_iff_le_pow Nat.one_lt_two).2 hlen.le
  have hx := h.complete q (by omega) l (by omega)
  have hy := h.complete q (by omega) (r + 1 - 2 ^ q) (by omega)
  refine ⟨q, by omega, by omega, ?_⟩
  have hamount : ((Nat.clog 2 (r - l + 1) : ℕ) : ℤ) - 1 = q := by omega
  have hrow : ((r : ℤ) - (2 ^ q : ℕ) + 1) = ((r + 1 - 2 ^ q : ℕ) : ℤ) := by omega
  simp only [query, ceilLog2_range hlr.le, bind, Except.bind, hamount, readCell_eq hx,
    shiftOne_eq (show q < 31 by omega), hrow, readCell_eq hy]

/-- A query for a single element asks for column `-1`. -/
theorem query_self (t : SparseTable T) (l : ℕ) : ∃ e, t.query l l = .error e := by
  -- the logarithm of 1 is 0, and the column is one less
  have hcolumn : ∀ row : List T, read row (-1) = .error .invalidAccess := fun row => rfl
  simp only [query, ceilLog2_range (le_refl l), Nat.sub_self, Nat.zero_add, Nat.clog_one_right,
    bind, Except.bind, readCell]
  cases read t.table l with
  | error e => exact ⟨e, rfl⟩
  | ok row => exact ⟨.invalidAccess, rfl⟩

/-- A query for more than one element of a vector with fewer than `2 ^ 31` elements returns the
fold over the range. -/
theorem query_fold (op : T → T → T) (zero : T) (v : List T) (l r : ℕ) (hop : IsSemilattice op)
    (hlen : v.length < 2 ^ 31) (hlr : l < r) (hr : r < v.length) :
    ∃ t, create op zero v = .ok t ∧
      t.query l r = .ok (((v.drop (l + 1)).take (r - l)).foldl op v[l]) := by
  have hne : v ≠ [] := List.ne_nil_of_length_pos (by omega)
  obtain ⟨t, hrun, htop, hfilled⟩ := create_spec op zero hne hlen
  obtain ⟨q, hlow, hhigh, hquery⟩ := query_eq hlen hfilled hlr hr
  refine ⟨t, hrun, ?_⟩
  have hpow : 0 < 2 ^ q := Nat.two_pow_pos q
  rw [Nat.pow_succ] at hhigh
  have hget : v[l] = v.getD l zero := by simp [show l < v.length by omega]
  have hlast : r + 1 - 2 ^ q + (2 ^ q - 1) - l = r - l := by omega
  rw [hquery, htop, doublingFold_eq hop, doublingFold_eq hop,
    rangeFold_overlap hop (by omega) (by omega), max_eq_right (by omega), hlast, hget,
    foldl_take_drop op v zero (by omega)]

theorem query_fold_five :
    ∃ t, create max 0 [3, 1, 4, 1, 5] = .ok t ∧ t.query 1 3 = .ok (4 : ℤ) :=
  query_fold max 0 [3, 1, 4, 1, 5] 1 3 ⟨max_assoc, max_comm, max_self⟩ (by decide) (by decide)
    (by decide)

/-- The length of a vector with `2 ^ 31` elements is negative as an `int`. -/
theorem create_overflow :
    ¬∃ t, create max 0 (List.replicate (2 ^ 31) (0 : ℤ)) = .ok t ∧ t.query 0 1 = .ok 0 := by
  rintro ⟨t, hrun, -⟩
  rw [create_error (by rw [List.length_replicate]; decide)] at hrun
  cases hrun

/-- The table has a row for every element, and the columns that the constructor has chosen. A query
shifts by an amount that is not negative and reads cells of the table only, exactly if it is for
more than one element. -/
theorem query_returns_iff (op : T → T → T) (zero : T) (v : List T) (l r : ℕ)
    (hlen : v.length < 2 ^ 31) (hlr : l ≤ r) (hr : r < v.length) :
    ∃ t, create op zero v = .ok t ∧ Dims t.table v.length (Nat.clog 2 v.length + 1) ∧
      ((∃ x, t.query l r = .ok x) ↔ l < r) := by
  have hne : v ≠ [] := List.ne_nil_of_length_pos (by omega)
  obtain ⟨t, hrun, -, hfilled⟩ := create_spec op zero hne hlen
  refine ⟨t, hrun, hfilled.dims, ?_, fun hlt => ?_⟩
  · rintro ⟨x, hx⟩
    by_contra hnot
    obtain rfl : l = r := by omega
    obtain ⟨e, he⟩ := t.query_self l
    rw [he] at hx
    cases hx
  · obtain ⟨q, -, -, hquery⟩ := query_eq hlen hfilled hlt hr
    exact ⟨_, hquery⟩

theorem query_returns_iff_two :
    ∃ t, create max 0 [5, 3] = .ok t ∧ Dims t.table 2 (Nat.clog 2 2 + 1) ∧
      ((∃ x : ℤ, t.query 0 1 = .ok x) ↔ 0 < 1) :=
  query_returns_iff max 0 [5, 3] 0 1 (by decide) (by decide) (by decide)

/-- The maximum of a single element. -/
theorem query_single :
    ∃ t, create max 0 [(5 : ℤ), 3] = .ok t ∧ ∃ e, t.query 1 1 = .error e := by
  obtain ⟨t, hrun, -⟩ := create_spec max (0 : ℤ) (v := [5, 3]) (by decide) (by decide)
  exact ⟨t, hrun, t.query_self 1⟩

end CppLearn.SparseTable

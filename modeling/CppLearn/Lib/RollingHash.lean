import Mathlib.Data.List.Induction
import Mathlib.Tactic.Ring

/-!
# Rolling polynomial hashes

The polynomial hash of a list with base `b` is the value at `b` of the polynomial whose coefficients
are the elements, the last one being the constant. The hash of the next window of a list comes from
that of a window by one multiplication, and by taking out the first element of the old window and
adding the last one of the new window.

The hash is `polyHash`, and `window` is the sublist of a length from a position on. The step to the
next window is `polyHash_roll` for lists, and `polyHash_window_succ` for windows of one list.
-/

variable {R α : Type*} [CommRing R] {b x y : R} {xs : List R} {s t : List α} {k n size : ℕ}

/-- The polynomial hash, by Horner's rule. -/
def polyHash (b : R) (xs : List R) : R := xs.foldl (fun h x => h * b + x) 0

theorem polyHash_concat (b : R) (xs : List R) (x : R) :
    polyHash b (xs ++ [x]) = polyHash b xs * b + x := by
  simp [polyHash]

theorem polyHash_cons (b x : R) (xs : List R) :
    polyHash b (x :: xs) = x * b ^ xs.length + polyHash b xs := by
  induction xs using List.reverseRecOn with
  | nil => simp [polyHash]
  | append_singleton xs y ih =>
    rw [← List.cons_append, polyHash_concat, polyHash_concat, ih, List.length_append,
      List.length_singleton, pow_succ]
    ring

/-- The first element is taken out, and another one is added at the end. -/
theorem polyHash_roll (b x y : R) (xs : List R) :
    polyHash b (xs ++ [y]) = polyHash b (x :: xs) * b - b ^ (xs.length + 1) * x + y := by
  rw [polyHash_concat, polyHash_cons]
  ring

theorem polyHash_replicate_zero (b : R) (n : ℕ) : polyHash b (List.replicate n 0) = 0 := by
  induction n with
  | zero => rfl
  | succ n ih => rw [List.replicate_succ, polyHash_cons, zero_mul, ih, add_zero]

/-! ## Windows -/

/-- The elements of `s` at the positions `k, ..., k + size - 1`. -/
def window (s : List α) (size k : ℕ) : List α := (s.drop k).take size

/-- A window with one more element. -/
theorem window_concat (h : k + n < s.length) : window s (n + 1) k = window s n k ++ [s[k + n]] := by
  have hlen : n < (s.drop k).length := by
    rw [List.length_drop]
    omega
  rw [window, window, List.take_succ_eq_append_getElem hlen, List.getElem_drop]

/-- Two windows, one position apart. -/
theorem exists_window_succ (hsize : 0 < size) (h : k + size < s.length) :
    ∃ ws : List α, ws.length + 1 = size ∧ window s size k = s[k] :: ws ∧
      window s size (k + 1) = ws ++ [s[k + size]] := by
  obtain ⟨n, rfl⟩ := Nat.exists_eq_add_of_le' hsize
  refine ⟨(s.drop (k + 1)).take n, ?_, ?_, ?_⟩
  · rw [List.length_take, List.length_drop]
    omega
  · rw [window, List.drop_eq_getElem_cons (by omega), List.take_succ_cons]
  · rw [window_concat (by omega)]
    simp only [window, Nat.add_right_comm k 1 n, Nat.add_assoc]

/-- The hash of the next window. -/
theorem polyHash_window_succ (f : α → R) (b : R) (hsize : 0 < size) (h : k + size < s.length) :
    polyHash b ((window s size (k + 1)).map f) =
      polyHash b ((window s size k).map f) * b - b ^ size * f s[k] + f s[k + size] := by
  obtain ⟨ws, hlen, hfirst, hsecond⟩ := exists_window_succ hsize h
  rw [hfirst, hsecond, List.map_append, List.map_cons, List.map_cons, List.map_nil,
    polyHash_roll b (f s[k]) (f s[k + size]) (ws.map f), List.length_map, hlen]

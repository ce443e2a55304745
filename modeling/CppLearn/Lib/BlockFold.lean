import Mathlib.Algebra.Order.Ring.Nat
import Mathlib.Data.List.Basic

/-!
# Folding over the blocks of a list

A list is cut into blocks of `n` elements, and a function is folded over them. What is left at the
end and does not fill a block is not looked at. If the list comes in pieces, the state of the fold
and the rest of the list so far are enough to go on.

`foldBlocks` is the fold, and `rest` is what is left at the end. Whole blocks can be folded first
(`foldBlocks_append`), and in general the fold over a longer list goes on with the rest of the
shorter one (`foldBlocks_append_rest`, `rest_append_rest`). A map that commutes with the function
commutes with the fold (`foldBlocks_hom`).
-/

namespace BlockFold

variable {α σ : Type*}

/-- Fold `f` over the blocks of `n` elements. -/
def foldBlocks (n : ℕ) (f : σ → List α → σ) (s : σ) (l : List α) : σ :=
  (List.range (l.length / n)).foldl (fun s i => f s ((l.drop (n * i)).take n)) s

/-- The elements behind the last whole block. -/
def rest (n : ℕ) (l : List α) : List α := l.drop (n * (l.length / n))

variable {n : ℕ} {f : σ → List α → σ} {s : σ} {l l' : List α}

theorem foldBlocks_of_lt (h : l.length < n) : foldBlocks n f s l = s := by
  rw [foldBlocks, Nat.div_eq_of_lt h]
  rfl

theorem rest_of_lt (h : l.length < n) : rest n l = l := by
  rw [rest, Nat.div_eq_of_lt h]
  rfl

/-- One block. -/
theorem foldBlocks_block (hn : 0 < n) (h : l.length = n) : foldBlocks n f s l = f s l := by
  rw [foldBlocks, h, Nat.div_self hn]
  simp [← h]

/-- A map that takes the steps of one fold to the steps of another one. -/
theorem foldBlocks_hom {τ : Type*} {f' : τ → List α → τ} (g : σ → τ)
    (hg : ∀ s b, g (f s b) = f' (g s) b) :
    g (foldBlocks n f s l) = foldBlocks n f' (g s) l :=
  (List.foldl_hom g fun s i => (hg s ((l.drop (n * i)).take n)).symm).symm

/-- Whole blocks can be folded first. -/
theorem foldBlocks_append (hn : 0 < n) (h : n ∣ l.length) :
    foldBlocks n f s (l ++ l') = foldBlocks n f (foldBlocks n f s l) l' := by
  obtain ⟨k, hk⟩ := h
  have hdiv : (l ++ l').length / n = k + l'.length / n := by
    rw [List.length_append, hk, Nat.mul_add_div hn]
  have hdiv' : l.length / n = k := by rw [hk, Nat.mul_div_cancel_left k hn]
  unfold foldBlocks
  rw [hdiv, hdiv', List.range_add, List.foldl_append, List.foldl_map]
  have hfirst : (List.range k).foldl (fun s i => f s (((l ++ l').drop (n * i)).take n)) s =
      (List.range k).foldl (fun s i => f s ((l.drop (n * i)).take n)) s := by
    refine List.foldl_ext _ _ s fun s i hi => ?_
    -- the block ends before the first list does
    have hle : n * i + n ≤ l.length := by
      rw [hk, ← Nat.mul_succ]
      exact Nat.mul_le_mul_left n (List.mem_range.1 hi)
    rw [List.drop_append_of_le_length (by omega), List.take_append_of_le_length (by simp; omega)]
  rw [hfirst]
  refine List.foldl_ext _ _ _ fun s i _ => ?_
  rw [Nat.mul_add, ← hk, List.drop_append, List.drop_eq_nil_of_le (Nat.le_add_right ..),
    Nat.add_sub_cancel_left, List.nil_append]

theorem length_rest (n : ℕ) (l : List α) : (rest n l).length = l.length % n := by
  have := Nat.div_add_mod l.length n
  rw [rest, List.length_drop]
  omega

/-- The whole blocks, and the rest. -/
theorem take_append_rest (n : ℕ) (l : List α) :
    l.take (n * (l.length / n)) ++ rest n l = l := List.take_append_drop ..

theorem dvd_length_take (n : ℕ) (l : List α) : n ∣ (l.take (n * (l.length / n))).length := by
  rw [List.length_take, Nat.min_eq_left (Nat.mul_div_le _ _)]
  exact Nat.dvd_mul_right ..

/-- The fold over a longer list goes on with the rest. -/
theorem foldBlocks_append_rest (hn : 0 < n) :
    foldBlocks n f s (l ++ l') = foldBlocks n f (foldBlocks n f s l) (rest n l ++ l') := by
  have hlt : (rest n l).length < n := by
    rw [length_rest]
    exact Nat.mod_lt _ hn
  have hfold : foldBlocks n f s l = foldBlocks n f s (l.take (n * (l.length / n))) := by
    conv_lhs => rw [← take_append_rest n l]
    rw [foldBlocks_append hn (dvd_length_take n l), foldBlocks_of_lt hlt]
  conv_lhs => rw [← take_append_rest n l, List.append_assoc]
  rw [foldBlocks_append hn (dvd_length_take n l), hfold]

theorem rest_append (hn : 0 < n) (h : n ∣ l.length) : rest n (l ++ l') = rest n l' := by
  obtain ⟨k, hk⟩ := h
  unfold rest
  rw [List.length_append, hk, Nat.mul_add_div hn, Nat.mul_add, ← hk, List.drop_append]
  simp

/-- The rest of a longer list depends on the rest so far only. -/
theorem rest_append_rest (hn : 0 < n) : rest n (l ++ l') = rest n (rest n l ++ l') := by
  conv_lhs => rw [← take_append_rest n l, List.append_assoc]
  exact rest_append hn (dvd_length_take n l)

/-- Elements in front of a list that were kept, either none or not enough for a block with the list,
do not change the blocks. -/
theorem foldBlocks_kept (h : l = [] ∨ (l ++ l').length < n) :
    foldBlocks n f s (l ++ l') = foldBlocks n f s l' := by
  rcases h with rfl | hlt
  · rw [List.nil_append]
  · have hlt' : l'.length < n := by
      rw [List.length_append] at hlt
      omega
    rw [foldBlocks_of_lt hlt, foldBlocks_of_lt hlt']

/-- Such elements stay in front of the rest. -/
theorem rest_kept (h : l = [] ∨ (l ++ l').length < n) : rest n (l ++ l') = l ++ rest n l' := by
  rcases h with rfl | hlt
  · rw [List.nil_append, List.nil_append]
  · have hlt' : l'.length < n := by
      rw [List.length_append] at hlt
      omega
    rw [rest_of_lt hlt, rest_of_lt hlt']

end BlockFold

import Mathlib.Algebra.Order.Ring.Nat
import Mathlib.Data.List.Nodup
import Mathlib.Logic.Function.Basic
import Mathlib.Tactic.Common

/-!
# Intrusive linked lists

Singly linked lists whose links are stored in their nodes. `next i` is the successor of node `i`,
and `none` is the null pointer.

`Chain` are the nodes that are visited from a pointer on, up to the null pointer. It depends on the
links of its own nodes only (`Chain.congr`), so that a node can be added at the front and at the end
(`Chain.push`, `Chain.append`).
-/

namespace LinkedList

/-- Following the links from the pointer `p` visits the nodes in `l` and ends at the null
pointer. -/
def Chain (next : ℕ → Option ℕ) : Option ℕ → List ℕ → Prop
  | p, [] => p = none
  | p, i :: l => p = some i ∧ Chain next (next i) l

variable {next next' : ℕ → Option ℕ} {p : Option ℕ} {i j : ℕ} {l : List ℕ}

theorem Chain.congr (h : Chain next p l) (heq : ∀ i ∈ l, next' i = next i) : Chain next' p l := by
  induction l generalizing p with
  | nil => exact h
  | cons i l ih =>
    refine ⟨h.1, ?_⟩
    rw [heq i (List.mem_cons_self ..)]
    exact ih h.2 fun j hj => heq j (List.mem_cons_of_mem i hj)

/-- The pointer to a chain is its first node. -/
theorem Chain.head (h : Chain next p l) : p = l.head? := by
  cases l with
  | nil => exact h
  | cons i l => exact h.1

/-- A node whose link is set to the first node of a chain is a new first node. -/
theorem Chain.push (h : Chain next p l) (hi : i ∉ l) (hnew : next' i = p)
    (heq : ∀ j, j ≠ i → next' j = next j) : Chain next' (some i) (i :: l) := by
  refine ⟨rfl, ?_⟩
  rw [hnew]
  exact h.congr fun j hj => heq j (ne_of_mem_of_not_mem hj hi)

/-- A node with a null link, to which the last node of a chain is linked, is a new last node. -/
theorem Chain.append (h : Chain next p (l ++ [j])) (hnd : (l ++ [j]).Nodup) (hi : i ∉ l ++ [j])
    (hlast : next' j = some i) (hnew : next' i = none)
    (heq : ∀ k, k ≠ i → k ≠ j → next' k = next k) : Chain next' p (l ++ [j] ++ [i]) := by
  induction l generalizing p with
  | nil => exact ⟨h.1, hlast, hnew⟩
  | cons k l ih =>
    rw [List.cons_append, List.nodup_cons] at hnd
    rw [List.cons_append, List.mem_cons, not_or] at hi
    have hkj : k ≠ j := by
      rintro rfl
      exact hnd.1 (List.mem_append_right _ (List.mem_singleton_self _))
    refine ⟨h.1, ?_⟩
    rw [heq k (Ne.symm hi.1) hkj]
    exact ih h.2 hnd.2 hi.2

/-- The nodes from index `a` on, each linked to the following one. -/
theorem chain_range {n : ℕ} (a : ℕ) (hlink : ∀ i, i + 1 < a + n → a ≤ i → next i = some (i + 1))
    (hend : ∀ i, i + 1 = a + n → a ≤ i → next i = none) (hn : 0 < n) :
    Chain next (some a) (List.range' a n) := by
  induction n generalizing a with
  | zero => omega
  | succ n ih =>
    rw [List.range'_succ]
    refine ⟨rfl, ?_⟩
    cases n with
    | zero => exact hend a (by omega) (Nat.le_refl a)
    | succ n =>
      rw [hlink a (by omega) (Nat.le_refl a)]
      exact ih (a + 1) (fun i hi hle => hlink i (by omega) (by omega))
        (fun i hi hle => hend i (by omega) (by omega)) (Nat.succ_pos n)

end LinkedList

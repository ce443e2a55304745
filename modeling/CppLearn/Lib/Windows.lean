import Mathlib.Data.List.TakeDrop

/-!
# Lists that differ in a window

Two lists of one length are equal outside a window of `n` elements. Then they consist of a common
beginning, two parts that are not longer than the window, and a common end.

The relation is `Windows.DiffersIn`, and `Windows.DiffersIn.exists_cut` gives the parts.
-/

namespace Windows

variable {α : Type*} {l l' : List α} {k n : ℕ}

/-- The elements in which the lists differ are among the `n` elements from `k` on. -/
def DiffersIn (k n : ℕ) (l l' : List α) : Prop := ∀ i, l[i]? ≠ l'[i]? → k ≤ i ∧ i < k + n

theorem DiffersIn.take_eq (h : DiffersIn k n l l') : l'.take k = l.take k := by
  refine List.ext_getElem? fun i => ?_
  rcases Nat.lt_or_ge i k with hlt | hge
  · rw [List.getElem?_take_of_lt hlt, List.getElem?_take_of_lt hlt]
    by_contra hne
    exact Nat.not_le.2 hlt (h i (Ne.symm hne)).1
  · rw [List.getElem?_eq_none (Nat.le_trans (List.length_take_le ..) hge),
      List.getElem?_eq_none (Nat.le_trans (List.length_take_le ..) hge)]

theorem DiffersIn.drop_eq (h : DiffersIn k n l l') : (l'.drop k).drop n = (l.drop k).drop n := by
  refine List.ext_getElem? fun i => ?_
  rw [List.drop_drop, List.drop_drop, List.getElem?_drop, List.getElem?_drop]
  by_contra hne
  have := (h _ (Ne.symm hne)).2
  omega

/-- The lists are cut at the ends of the window. -/
theorem DiffersIn.exists_cut (hlen : l'.length = l.length) (h : DiffersIn k n l l') :
    ∃ pre mid mid' post, l = pre ++ (mid ++ post) ∧ l' = pre ++ (mid' ++ post) ∧
      mid'.length = mid.length ∧ mid.length ≤ n ∧ (mid ≠ [] → pre.length = k) ∧
        (post ≠ [] → mid.length = n) := by
  refine ⟨l.take k, (l.drop k).take n, (l'.drop k).take n, (l.drop k).drop n, ?_, ?_, ?_, ?_, ?_,
    ?_⟩
  · rw [List.take_append_drop, List.take_append_drop]
  · rw [← h.take_eq, ← h.drop_eq, List.take_append_drop, List.take_append_drop]
  · simp [hlen]
  · exact List.length_take_le ..
  · intro hmid
    have hpos := List.length_pos_iff.2 hmid
    rw [List.length_take, List.length_drop] at hpos
    rw [List.length_take]
    omega
  · intro hpost
    have hpos := List.length_pos_iff.2 hpost
    rw [List.length_drop] at hpos
    rw [List.length_take]
    omega

end Windows

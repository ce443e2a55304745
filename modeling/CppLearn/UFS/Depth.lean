import CppLearn.UFS.Correctness
import Mathlib.Data.Nat.Log

/-!
# The depth of the recursion in `FindAndSet`

`FindAndSet` calls itself once for each link of the chain from an element to its root. Along a chain
the ranks of the forest increase, whatever the path compression has done to it, and the size at the
root is at least two to the power of its rank. So a chain is not longer than the logarithm of that
size. The sizes at other elements may be old, but are not needed.

`UF.Chain` is the chain of `father_` from an element to its root. The recursion returns if it may go
as deep as the chain is long, and not otherwise (`UF.Chain.findAndSetRec_iff`). `UF.Shallow` says
that the chains are not longer than the logarithms of the sizes, which is so in a forest with sizes
(`UF.Represents.shallow`), and therefore after any sequence of calls (`UF.run_shallow`).
-/

namespace CppLearn.UF

open BoundedLoop CheckedVector UnionFind

variable {n k fuel v r : ℕ} {s s' : UF}

/-- The chain of `father_` from `v` to its root `r` has `k` links. -/
inductive Chain (s : UF) : ℕ → ℕ → ℕ → Prop
  | root {v : ℕ} : read s.father v = .ok v → Chain s 0 v v
  | link {k v f r : ℕ} : read s.father v = .ok f → f ≠ v → Chain s k f r → Chain s (k + 1) v r

/-- The recursion runs out of depth as long as the chain does not fit. -/
theorem Chain.findAndSetRec_diverges (h : Chain s k v r) (hfuel : fuel ≤ k) :
    findAndSetRec fuel s v = .error .diverged := by
  induction fuel generalizing k v with
  | zero => rfl
  | succ fuel ih =>
    cases h with
    | root => omega
    | link hread hne hchain =>
      simp only [findAndSetRec, hread, bind, Except.bind, if_neg hne, ih hchain (by omega)]

/-- The recursion returns the root if the chain fits. -/
theorem Chain.findAndSetRec_ok (h : Chain s k v r) (hfuel : k < fuel) :
    ∃ s', findAndSetRec fuel s v = .ok (r, s') ∧ s'.father.length = s.father.length := by
  induction h generalizing fuel with
  | root hread =>
    obtain ⟨fuel, rfl⟩ := Nat.exists_eq_add_of_le' (Nat.zero_lt_of_lt hfuel)
    exact ⟨s, by simp only [findAndSetRec, hread, bind, Except.bind, if_true], rfl⟩
  | @link k v f r hread hne _ ih =>
    obtain ⟨fuel, rfl⟩ := Nat.exists_eq_add_of_le' (Nat.zero_lt_of_lt hfuel)
    obtain ⟨s', hrun, hlen⟩ := ih (Nat.lt_of_succ_lt_succ hfuel)
    have hv : v < s'.father.length := by
      rw [hlen]
      exact lt_of_read hread
    refine ⟨{ s' with father := s'.father.set v r }, ?_, by rw [List.length_set, hlen]⟩
    simp only [findAndSetRec, hread, bind, Except.bind, if_neg hne, hrun, write_ok hv]

/-- The depth of the recursion is the number of elements of the chain. -/
theorem Chain.findAndSetRec_iff (h : Chain s k v r) (depth : ℕ) :
    (∃ s', findAndSetRec depth s v = .ok (r, s')) ↔ k + 1 ≤ depth := by
  constructor
  · rintro ⟨s', hrun⟩
    by_contra hlt
    rw [h.findAndSetRec_diverges (by omega)] at hrun
    exact absurd hrun (by simp)
  · intro hdepth
    obtain ⟨s', hrun, -⟩ := h.findAndSetRec_ok hdepth
    exact ⟨s', hrun⟩

/-- The chain of each of the `n` elements is not longer than the logarithm of the size at its root,
and `FindAndSet` calls itself down to a depth of one more than its length. -/
def Shallow (n : ℕ) (s : UF) : Prop :=
  ∀ v : Fin n, ∃ k r size, Chain s k v r ∧ read s.size r = .ok size ∧ k ≤ Nat.log 2 size ∧
    (∀ depth, (∃ s', findAndSetRec depth s v = .ok (r, s')) ↔ k + 1 ≤ depth) ∧
    k + 1 ≤ Nat.log 2 n + 1

variable {father root : Fin n → Fin n} {rank size : Fin n → ℕ}

/-- A chain is not longer than the difference of the ranks of its ends. -/
theorem Represents.exists_chain (h : Represents s father root rank size) (v : Fin n) :
    ∃ k, Chain s k v (root v) ∧ rank v + k ≤ rank (root v) := by
  have hread : read s.father (v : ℕ) = .ok (father v : ℕ) := by
    rw [h.father_eq, read_ofFn fun i => (father i : ℕ)]
  by_cases hv : father v = v
  · rw [hv] at hread
    rw [h.forest.root_of_fixed v hv]
    exact ⟨0, .root hread, le_rfl⟩
  · -- the father is closer to the root
    have hlt := h.forest.rank_lt v hv
    have hroot := h.forest.root_father v
    have hle : rank (father v) ≤ rank (root v) := hroot ▸ h.forest.rank_le (father v)
    obtain ⟨k, hchain, hk⟩ := h.exists_chain (father v)
    rw [hroot] at hchain hk
    exact ⟨k + 1, .link hread (fun heq => hv (Fin.ext heq)) hchain, by omega⟩
termination_by rank (root v) - rank v
decreasing_by
  rw [hroot]
  omega

/-- The chains of a forest with its sizes. -/
theorem Represents.shallow (h : Represents s father root rank size) : Shallow n s := by
  intro v
  obtain ⟨k, hchain, hk⟩ := h.exists_chain v
  have hroot := h.forest.root_root v
  have hlog : k ≤ Nat.log 2 (size (root v)) := by
    have hrank := Nat.le_log_of_pow_le Nat.one_lt_two (h.sized.pow_le _ hroot)
    omega
  have hsize : size (root v) ≤ n := by
    have hcard := h.sized.size_le hroot
    rwa [Fintype.card_fin] at hcard
  have hread : read s.size (root v : ℕ) = .ok (size (root v)) := by rw [h.size_eq, read_ofFn]
  exact ⟨k, root v, size (root v), hchain, hread, hlog, hchain.findAndSetRec_iff,
    Nat.succ_le_succ (hlog.trans (Nat.log_mono_right hsize))⟩

/-- After any sequence of calls the chain of each element is not longer than the logarithm of the
size at its root, and the recursion is not deeper than the logarithm of the number of elements and
one more. This is also so between the two searches of `FindAndUnit`. -/
theorem run_shallow (n : ℕ) (calls : List (UFCall n)) :
    ∃ s, (create n).run calls = .ok s ∧ Shallow n s ∧
      ∀ v : Fin n, ∃ r s', s.findAndSet v = .ok (r, s') ∧ Shallow n s' := by
  obtain ⟨s, hrun, father, root, rank, size, h, -⟩ := (create_tracks n).run calls
  refine ⟨s, hrun, h.shallow, fun v => ?_⟩
  obtain ⟨s', father', hs', h'⟩ := findAndSet_ok h v
  exact ⟨_, s', hs', h'.shallow⟩

end CppLearn.UF

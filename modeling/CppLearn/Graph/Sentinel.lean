import CppLearn.Graph.Spfa
import Mathlib.Tactic.FinCases

/-!
# Distances around `INT32_MAX`

In `BellmanFord` and `SPFA` the entries are of type `int64_t`, but the entry `INT32_MAX` stands for
a vertex that has not been reached. An entry is never raised to `INT32_MAX` or above, and the edges
of a vertex with this entry are not followed. Hence the algorithms find the paths along which all
distances are below `INT32_MAX`, and no others.

`Graph.WithinSentinel` are the graphs for which this makes no difference, and by
`Graph.distances_iff` both algorithms compute the distances for these graphs only.
-/

namespace CppLearn.Graph

open BoundedLoop ShortestPath

variable {n : ℕ}

/-- The distance of every vertex is at most `INT32_MAX`; if it is less, then there is a shortest
path to the vertex along which all distances are less. -/
def WithinSentinel (g : Graph n) (start : Fin n) : Prop :=
  ∀ v d, IsLeast {x | Walk g.Edge start v x} d →
    d = int32Max ∨ ∃ S, PathBelow g.Edge int32Max start S v d

/-- Without negative cycles, there is a shortest path to every vertex that can be reached. -/
theorem exists_isLeast {g : Graph n} {start v : Fin n} {d : ℤ}
    (hcycle : ¬ NegativeCycle g.Edge start) (h : Walk g.Edge start v d) :
    ∃ x, IsLeast {x | Walk g.Edge start v x} x := by
  have hsmall : Small g.Edge g.outWeight (g.totalWeight + 1) := small (lt_add_one _)
  refine h.exists_isLeast_of_not_negativeCycle hsmall.nonneg (fun u v w hedge => ?_) hcycle
  have habs := hsmall.abs_le u v w hedge
  have := neg_abs_le w
  omega

/-- For every graph without a negative cycle that can be reached, `BellmanFord` and `SPFA` end with
the distances of all vertices that can be reached if and only if the graph is within the range of
the sentinel. -/
theorem distances_iff (g : Graph n) (start : Fin n) (hcycle : ¬ NegativeCycle g.Edge start) :
    ((∀ v x, Walk g.Edge start v x →
        IsLeast {x | Walk g.Edge start v x} ((g.bellmanFord start).2 v)) ↔
      g.WithinSentinel start) ∧
    ∃ bound, ∀ fuel, bound < fuel → ∃ result answer, g.spfa fuel start = .ok (result, answer) ∧
      ((∀ v x, Walk g.Edge start v x → IsLeast {x | Walk g.Edge start v x} (answer v)) ↔
        g.WithinSentinel start) := by
  have hinit := initialAnswer_sound g start
  have hleast (v : Fin n) (d : ℤ) (h : Walk g.Edge start v d) := exists_isLeast hcycle h
  -- both tables are settled, and have come about by relaxation
  have hiff {answer : Fin n → ℤ} (hsettled : Settled g.Edge int32Max answer)
      (hrelaxes : Relaxes g.Edge int32Max (initialAnswer start) answer) :=
    hsettled.isLeast_iff (by decide) (hrelaxes.sound hinit)
      (hrelaxes.reached hcycle hinit.le_inf (initialAnswer_reached g start)) hleast
  constructor
  · obtain ⟨-, hsettled⟩ := bellmanFord_settled (bellmanFord_eq_false hcycle)
    exact hiff hsettled (relaxRounds_relaxes hinit.le_inf n false)
  · obtain ⟨bound, hspfa⟩ := spfa_spec g start
    refine ⟨bound, fun fuel hfuel => ?_⟩
    obtain ⟨result, answer, hrun, htrue, hfalse⟩ := hspfa fuel hfuel
    refine ⟨result, answer, hrun, ?_⟩
    cases result with
    | false => exact absurd (hfalse rfl) hcycle
    | true =>
      obtain ⟨-, hsettled, hrelaxes⟩ := htrue rfl
      exact hiff hsettled hrelaxes

/-- A distance of `INT32_MAX` behind which there is nothing. -/
theorem distances_iff_last :
    ((⟨![[(1, 2 ^ 31 - 1)], []]⟩ : Graph 2).bellmanFord 0).2 1 = int32Max ∧
      ∀ v x, Walk (Edge ⟨![[(1, 2 ^ 31 - 1)], []]⟩) 0 v x →
        IsLeast {x | Walk (Edge ⟨![[(1, 2 ^ 31 - 1)], []]⟩) 0 v x}
          (((⟨![[(1, 2 ^ 31 - 1)], []]⟩ : Graph 2).bellmanFord 0).2 v) := by
  have hpot : ∀ u v w, Edge ⟨![[(1, 2 ^ 31 - 1)], []]⟩ u v w →
      ![0, int32Max] v - ![0, int32Max] u ≤ w := by
    have hall : ∀ u, ∀ p ∈ (![[(1, 2 ^ 31 - 1)], []] : Fin 2 → List (Fin 2 × ℤ)) u,
        ![0, int32Max] p.1 - ![0, int32Max] u ≤ p.2 := by decide
    exact fun u v w hedge => hall u (v, w) hedge
  refine ⟨by decide, (distances_iff (⟨![[(1, 2 ^ 31 - 1)], []]⟩ : Graph 2) 0
    (not_negativeCycle_of_potential hpot)).1.2 fun v d hd => ?_⟩
  have hlow := hd.1.potential_le hpot
  fin_cases v
  · have hup : d ≤ 0 := hd.2 (.refl 0)
    obtain rfl : d = 0 := le_antisymm hup (by simpa using hlow)
    exact .inr ⟨_, .refl⟩
  · have hup : d ≤ 0 + (2 ^ 31 - 1) := hd.2 ((Walk.refl 0).snoc (List.mem_singleton.2 rfl))
    exact .inl (le_antisymm hup (by simpa using hlow))

/-- A distance of `INT32_MAX` hides the vertex behind it, whose distance is smaller. -/
theorem sentinel_hides_distance :
    ¬ NegativeCycle (Edge ⟨![[(1, 2 ^ 31 - 1)], [(2, -5)], []]⟩) 0 ∧
      IsLeast {x | Walk (Edge ⟨![[(1, 2 ^ 31 - 1)], [(2, -5)], []]⟩) 0 2 x} (int32Max - 5) ∧
      ((⟨![[(1, 2 ^ 31 - 1)], [(2, -5)], []]⟩ : Graph 3).bellmanFord 0).2 2 = int32Max ∧
      ((⟨![[(1, 2 ^ 31 - 1)], [(2, -5)], []]⟩ : Graph 3).spfa 4 0).toOption.map
        (fun r => r.2 2) = some int32Max := by
  have hpot : ∀ u v w, Edge ⟨![[(1, 2 ^ 31 - 1)], [(2, -5)], []]⟩ u v w →
      ![0, int32Max, int32Max - 5] v - ![0, int32Max, int32Max - 5] u ≤ w := by
    have hall : ∀ u, ∀ p ∈ (![[(1, 2 ^ 31 - 1)], [(2, -5)], []] : Fin 3 → List (Fin 3 × ℤ)) u,
        ![0, int32Max, int32Max - 5] p.1 - ![0, int32Max, int32Max - 5] u ≤ p.2 := by decide
    exact fun u v w hedge => hall u (v, w) hedge
  refine ⟨not_negativeCycle_of_potential hpot, ⟨?_, fun x hx => ?_⟩, by decide, by decide⟩
  · have hfirst : Edge ⟨![[(1, 2 ^ 31 - 1)], [(2, -5)], []]⟩ 0 1 int32Max :=
      List.mem_singleton.2 rfl
    have hsecond : Edge ⟨![[(1, 2 ^ 31 - 1)], [(2, -5)], []]⟩ 1 2 (-5) := List.mem_singleton.2 rfl
    exact ((Walk.refl 0).snoc hfirst).snoc hsecond
  · simpa using hx.potential_le hpot

end CppLearn.Graph

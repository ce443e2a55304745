import CppLearn.Lib.ShortestPath

/-!
# Shortest paths between all pairs of vertices

Walks whose inner vertices come from a set, which is what the tables of distances between all pairs
of vertices are about while the vertices are admitted one after the other. Potentials show that a
graph has no negative cycles, also after edges of large weight have been added.

## Main definitions

* `Via`: walks with at least one edge and inner vertices from a set;
* `Padded`: a graph in which missing edges have been given a large weight.

## Main results

* `Via.insert_cases`: a walk through one more vertex passes through it once, or can be made to;
* `exists_potential`: a graph without negative cycles has a potential;
* `Padded.isLeast`, `Padded.exists_parts`: the distances in a graph to which edges of large weight
  have been added;
* `Walk.exists_negative_edge`: a walk of negative weight has an edge of negative weight.
-/

namespace ShortestPath

variable {V : Type*} {E : V → V → ℤ → Prop}

/-! ## Inner vertices -/

/-- Walks with at least one edge, all of whose inner vertices are in `K`. -/
inductive Via (E : V → V → ℤ → Prop) (K : Set V) (u : V) : V → ℤ → Prop
  | edge {v : V} {w : ℤ} : E u v w → Via E K u v w
  | snoc {x v : V} {d w : ℤ} : Via E K u x d → x ∈ K → E x v w → Via E K u v (d + w)

variable {K : Set V} {u v : V} {d : ℤ}

theorem Via.walk (h : Via E K u v d) : Walk E u v d := by
  induction h with
  | edge hedge => simpa using (Walk.refl u).snoc hedge
  | snoc _ _ hedge ih => exact ih.snoc hedge

/-- A walk has no edge, or all vertices may be inner ones. -/
theorem Walk.via (h : Walk E u v d) : u = v ∧ d = 0 ∨ Via E Set.univ u v d := by
  induction h with
  | refl => exact .inl ⟨rfl, rfl⟩
  | snoc _ hedge ih =>
    right
    rcases ih with ⟨rfl, rfl⟩ | hvia
    · rw [zero_add]
      exact .edge hedge
    · exact hvia.snoc trivial hedge

/-- Without inner vertices there is one edge. -/
theorem Via.of_empty (h : Via E ∅ u v d) : E u v d := by
  cases h with
  | edge hedge => exact hedge
  | snoc _ hx => exact absurd hx (Set.notMem_empty _)

/-- When `k` is admitted as an inner vertex and no cycle through it is negative, then a walk avoids
`k`, or it is not shorter than one that consists of a part to `k` and a part from `k`. -/
theorem Via.insert_cases {k : V} (hcycle : ∀ c, Walk E k k c → 0 ≤ c)
    (h : Via E (insert k K) u v d) :
    Via E K u v d ∨ ∃ d₁ d₂, Via E K u k d₁ ∧ Via E K k v d₂ ∧ d₁ + d₂ ≤ d := by
  induction h with
  | edge hedge => exact .inl (.edge hedge)
  | @snoc x v d w _ hx hedge ih =>
    rcases Set.mem_insert_iff.1 hx with rfl | hxK
    · -- the walk is at `k`, perhaps after a cycle that can be left out
      rcases ih with hvia | ⟨d₁, d₂, hto, hfrom, hle⟩
      · exact .inr ⟨d, w, hvia, .edge hedge, le_rfl⟩
      · have := hcycle d₂ hfrom.walk
        exact .inr ⟨d₁, w, hto, .edge hedge, by omega⟩
    · rcases ih with hvia | ⟨d₁, d₂, hto, hfrom, hle⟩
      · exact .inl (hvia.snoc hxK hedge)
      · exact .inr ⟨d₁, d₂ + w, hto, hfrom.snoc hxK hedge, by omega⟩

/-! ## Potentials -/

/-- A finite graph without negative cycles has a potential, between `0` and what the weights of the
edges add up to at least. -/
theorem exists_potential [Fintype V] {low : V → ℤ} (hnonneg : ∀ u, 0 ≤ low u)
    (hlow : ∀ u v w, E u v w → -low u ≤ w) (hcycle : ∀ u, ¬ NegativeCycle E u) :
    ∃ pot : V → ℤ, (∀ u v w, E u v w → pot v - pot u ≤ w) ∧
      ∀ v, -∑ u, low u ≤ pot v ∧ pot v ≤ 0 := by
  -- the weight of the shortest walk that ends at the vertex
  have hbound (v : V) (x : ℤ) (hx : ∃ u, Walk E u v x) : -∑ u, low u ≤ x := by
    obtain ⟨u, hwalk⟩ := hx
    exact hwalk.weight_ge hnonneg hlow (hcycle u)
  have hleast (v : V) := Int.exists_least_of_bdd (P := fun x => ∃ u, Walk E u v x)
    ⟨_, hbound v⟩ ⟨0, v, .refl v⟩
  choose pot hpot hmin using hleast
  refine ⟨pot, fun u v w hedge => ?_, fun v => ⟨hbound v _ (hpot v), hmin v 0 ⟨v, .refl v⟩⟩⟩
  obtain ⟨x, hwalk⟩ := hpot u
  have := hmin v _ ⟨x, hwalk.snoc hedge⟩
  omega

/-- When every edge can be replaced by a walk that is not longer, then so can every walk. -/
theorem Walk.exists_le {E' : V → V → ℤ → Prop}
    (hE : ∀ u v w, E u v w → ∃ x ≤ w, Walk E' u v x) (h : Walk E u v d) :
    ∃ x ≤ d, Walk E' u v x := by
  induction h with
  | refl => exact ⟨0, le_rfl, .refl u⟩
  | snoc _ hedge ih =>
    obtain ⟨x, hx, hwalk⟩ := ih
    obtain ⟨y, hy, hwalk'⟩ := hE _ _ _ hedge
    exact ⟨x + y, add_le_add hx hy, hwalk.trans hwalk'⟩

theorem Walk.mono {E' : V → V → ℤ → Prop} (hE : ∀ u v w, E u v w → E' u v w) (h : Walk E u v d) :
    Walk E' u v d := by
  induction h with
  | refl => exact .refl u
  | snoc _ hedge ih => exact ih.snoc (hE _ _ _ hedge)

/-- A walk of negative weight has an edge of negative weight. -/
theorem Walk.exists_negative_edge (h : Walk E u v d) (hneg : d < 0) :
    ∃ x y w d₁ d₂, Walk E u x d₁ ∧ E x y w ∧ w < 0 ∧ Walk E y v d₂ := by
  induction h with
  | refl => omega
  | @snoc x v d w hwalk hedge ih =>
    by_cases hw : w < 0
    · exact ⟨x, v, w, d, 0, hwalk, hedge, hw, .refl v⟩
    · obtain ⟨x', y, w', d₁, d₂, hto, hedge', hw', hfrom⟩ := ih (by omega)
      exact ⟨x', y, w', d₁, d₂ + w, hto, hedge', hw', hfrom.snoc hedge⟩

/-! ## Edges of large weight -/

/-- The edges of `C` between different vertices are edges of `E`, or have weight `inf`. The weights
in `E` are between `-low u` and `high u`, and all these bounds add up to less than `inf`. -/
structure Padded [Fintype V] (E C : V → V → ℤ → Prop) (low high : V → ℤ) (inf : ℤ) : Prop where
  edge : ∀ u v w, C u v w → u ≠ v → E u v w ∨ w = inf
  loop : ∀ u w, C u u w → 0 ≤ w
  low_nonneg : ∀ u, 0 ≤ low u
  high_nonneg : ∀ u, 0 ≤ high u
  low_le : ∀ u v w, E u v w → -low u ≤ w
  le_high : ∀ u v w, E u v w → w ≤ high u
  sum_lt : ∑ u, high u + ∑ u, low u < inf

section Padded

variable [Fintype V] {C : V → V → ℤ → Prop} {low high : V → ℤ} {inf : ℤ}

theorem Padded.sum_low_lt (h : Padded E C low high inf) : ∑ u, low u < inf := by
  have hhigh : 0 ≤ ∑ u, high u := Finset.sum_nonneg fun u _ => h.high_nonneg u
  have := h.sum_lt
  omega

/-- A potential of `E` is one of `C`. -/
theorem Padded.exists_potential (h : Padded E C low high inf) (hcycle : ∀ u, ¬ NegativeCycle E u) :
    ∃ pot : V → ℤ, (∀ u v w, C u v w → pot v - pot u ≤ w) ∧
      ∀ v, -∑ u, low u ≤ pot v ∧ pot v ≤ 0 := by
  obtain ⟨pot, hpot, hbound⟩ := ShortestPath.exists_potential h.low_nonneg h.low_le hcycle
  refine ⟨pot, fun u v w hw => ?_, hbound⟩
  by_cases huv : u = v
  · subst huv
    have := h.loop u w hw
    omega
  · rcases h.edge u v w hw huv with hedge | rfl
    · exact hpot u v w hedge
    · have hlt := h.sum_low_lt
      have := hbound u
      have := hbound v
      omega

/-- A path in `C` is one in `E`, or it has one edge of weight `inf`, or at least two of them. -/
theorem Padded.simplePath_cases [DecidableEq V] (h : Padded E C low high inf) {S : Finset V}
    (hpath : SimplePath C u S v d) :
    (Walk E u v d ∧ low v - ∑ x ∈ S, low x ≤ d) ∨
      (∃ x y d₁ d₂, Walk E u x d₁ ∧ Walk E y v d₂ ∧ d = d₁ + inf + d₂ ∧
        inf + low v - ∑ x ∈ S, low x ≤ d) ∨
      2 * inf + low v - ∑ x ∈ S, low x ≤ d := by
  induction hpath with
  | refl => exact .inl ⟨.refl u, by simp⟩
  | @snoc S x v d w hpath hedge hv ih =>
    have hne : x ≠ v := fun heq => hv (heq ▸ hpath.mem)
    have hx := h.low_nonneg x
    rw [Finset.sum_insert hv]
    rcases h.edge x v w hedge hne with hE | rfl
    · -- one more edge of `E`
      have hw := h.low_le x v w hE
      rcases ih with ⟨hwalk, hle⟩ | ⟨y, z, d₁, d₂, hto, hfrom, rfl, hle⟩ | hle
      · exact .inl ⟨hwalk.snoc hE, by omega⟩
      · exact .inr (.inl ⟨y, z, d₁, d₂ + w, hto, hfrom.snoc hE, by omega, by omega⟩)
      · exact .inr (.inr (by omega))
    · -- one more edge of weight `inf`
      rcases ih with ⟨hwalk, hle⟩ | ⟨-, -, -, -, -, -, -, hle⟩ | hle
      · exact .inr (.inl ⟨x, v, d, 0, hwalk, .refl v, by omega, by omega⟩)
      · exact .inr (.inr (by omega))
      · have hsum := Finset.sum_nonneg fun u (_ : u ∈ Finset.univ) => h.low_nonneg u
        have hlt := h.sum_low_lt
        exact .inr (.inr (by omega))

/-- The shortest walks in `C` are walks in `E`, or have one edge of weight `inf`, or are longer than
both `inf` and any path in `E`. -/
theorem Padded.isLeast_cases (h : Padded E C low high inf) (hcycle : ∀ u, ¬ NegativeCycle E u)
    (hd : IsLeast {x | Walk C u v x} d) :
    Walk E u v d ∨
      (∃ x y d₁ d₂, Walk E u x d₁ ∧ Walk E y v d₂ ∧ d = d₁ + inf + d₂ ∧ ∑ x, high x < d) ∨
      inf < d := by
  classical
  obtain ⟨pot, hpot, -⟩ := h.exists_potential hcycle
  obtain ⟨S, d', hpath, hle⟩ :=
    Walk.exists_simplePath hd.1 (not_negativeCycle_of_potential hpot)
  obtain rfl : d' = d := le_antisymm hle (hd.2 hpath.walk)
  have hsum : ∑ x ∈ S, low x ≤ ∑ x, low x := Finset.sum_le_univ_sum_of_nonneg h.low_nonneg
  have hv := h.low_nonneg v
  have hlow := h.sum_low_lt
  have hlt := h.sum_lt
  rcases h.simplePath_cases hpath with ⟨hwalk, -⟩ | ⟨x, y, d₁, d₂, hto, hfrom, heq, hge⟩ | hge
  · exact .inl hwalk
  · exact .inr (.inl ⟨x, y, d₁, d₂, hto, hfrom, heq, by omega⟩)
  · exact .inr (.inr (by omega))

/-- Where there is a walk in `E`, the distance in `C` is that in `E`. -/
theorem Padded.isLeast (h : Padded E C low high inf) (hcycle : ∀ u, ¬ NegativeCycle E u)
    (hC : ∀ u v w, E u v w → ∃ x ≤ w, Walk C u v x) (hd : IsLeast {x | Walk C u v x} d) {x : ℤ}
    (hreach : Walk E u v x) : IsLeast {x | Walk E u v x} d := by
  classical
  have hlower : d ∈ lowerBounds {x | Walk E u v x} := by
    intro y hy
    obtain ⟨z, hz, hwalk⟩ := Walk.exists_le hC hy
    exact (hd.2 hwalk).trans hz
  -- a simple path in `E` is shorter than an edge of weight `inf`
  obtain ⟨S, y, hpath, -⟩ := hreach.exists_simplePath (hcycle u)
  have hy := hpath.weight_le h.le_high
  have hsum : ∑ x ∈ S, high x ≤ ∑ x, high x := Finset.sum_le_univ_sum_of_nonneg h.high_nonneg
  have hv := h.high_nonneg v
  have hle := hlower hpath.walk
  have hlow : 0 ≤ ∑ u, low u := Finset.sum_nonneg fun u _ => h.low_nonneg u
  have hlt := h.sum_lt
  rcases h.isLeast_cases hcycle hd with hwalk | ⟨-, -, -, -, -, -, -, hge⟩ | hge
  · exact ⟨hwalk, hlower⟩
  · omega
  · omega

/-- Where there is none, but an edge of weight `inf` in `C`, a shortest walk has one such edge. -/
theorem Padded.exists_parts (h : Padded E C low high inf) (hcycle : ∀ u, ¬ NegativeCycle E u)
    (hd : IsLeast {x | Walk C u v x} d) (hreach : ∀ x, ¬ Walk E u v x) (hinf : C u v inf) :
    ∃ x y d₁ d₂, Walk E u x d₁ ∧ Walk E y v d₂ ∧ d = d₁ + inf + d₂ := by
  have hle : d ≤ inf := hd.2 (by simpa using (Walk.refl u).snoc hinf)
  rcases h.isLeast_cases hcycle hd with hwalk | ⟨x, y, d₁, d₂, hto, hfrom, heq, -⟩ | hge
  · exact absurd hwalk (hreach d)
  · exact ⟨x, y, d₁, d₂, hto, hfrom, heq⟩
  · omega

end Padded

end ShortestPath

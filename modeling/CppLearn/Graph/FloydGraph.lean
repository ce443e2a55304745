import CppLearn.Graph.Floyd
import Mathlib.Tactic.FinCases

/-!
# Floyd's algorithm on a graph

The constructor of `Floyd` enters the edges of a graph into a matrix in the order of the adjacency
lists, so that of several edges between two vertices the last one counts. Where there is no edge the
entry is `INT32_MAX`, which `operator()` treats as the weight of an edge.

The distances in the complete graph of the matrix are those of the graph of the last edges wherever
there is a path. Where there is none, a path with one edge of weight `INT32_MAX` is a shortest one,
and the entry is `INT32_MAX` unless the rest of this path has negative weight.

The edges that the constructor leaves are `Graph.LastEdge`. For the distances to be those of the
graph itself, these edges must suffice (`Floyd.LastEdgesSuffice`), and a path with a weight below
`INT32_MAX` must not use a missing edge (`Floyd.NegativeEdgesConnect`). The two conditions are also
necessary (`Floyd.run_create_iff`).
-/

namespace CppLearn

open ShortestPath Signed

variable {n : ℕ}

namespace Graph

variable {g : Graph n} {u v : Fin n} {w : ℤ}

/-- The edge from `u` to `v` that comes last in the adjacency list of `u`. -/
def LastEdge (g : Graph n) (u v : Fin n) (w : ℤ) : Prop :=
  ∃ l₁ l₂, g.graph u = l₁ ++ (v, w) :: l₂ ∧ ∀ p ∈ l₂, p.1 ≠ v

/-- The last of several edges is one of them. -/
theorem LastEdge.edge (h : g.LastEdge u v w) : g.Edge u v w := by
  obtain ⟨l₁, l₂, hl, -⟩ := h
  rw [Edge, hl]
  simp

/-- It is what a search from the end finds, -/
theorem LastEdge.find_eq (h : g.LastEdge u v w) :
    (g.graph u).reverse.find? (fun p => p.1 = v) = some (v, w) := by
  obtain ⟨l₁, l₂, hl, hlast⟩ := h
  have hnone : l₂.reverse.find? (fun p => p.1 = v) = none := by
    simpa using fun a b hab => hlast (a, b) hab
  rw [hl, List.reverse_append, List.reverse_cons, List.append_assoc, List.find?_append, hnone]
  simp

/-- so that there is only one. -/
theorem LastEdge.unique {w' : ℤ} (h : g.LastEdge u v w) (h' : g.LastEdge u v w') : w = w' := by
  have hfind := h.find_eq.symm.trans h'.find_eq
  simpa using hfind

/-- The sum of the values of `f` at the weights of the edges from `u`. -/
def outSum (g : Graph n) (f : ℤ → ℤ) (u : Fin n) : ℤ := ((g.graph u).map fun p => f p.2).sum

/-- Sums over the edges of a vertex, of numbers that are not negative, -/
theorem outSum_nonneg {f : ℤ → ℤ} (hf : ∀ w, 0 ≤ f w) (g : Graph n) (u : Fin n) :
    0 ≤ g.outSum f u := by
  refine List.sum_nonneg fun x hx => ?_
  obtain ⟨p, -, rfl⟩ := List.mem_map.1 hx
  exact hf p.2

/-- are at least the number of each edge. -/
theorem Edge.le_outSum {f : ℤ → ℤ} (hf : ∀ w, 0 ≤ f w) (h : g.Edge u v w) : f w ≤ g.outSum f u := by
  refine List.single_le_sum (fun x hx => ?_) _ (List.mem_map.2 ⟨(v, w), h, rfl⟩)
  obtain ⟨p, -, rfl⟩ := List.mem_map.1 hx
  exact hf p.2

/-- The sum of the positive weights of the edges from `u`. -/
def outPositive (g : Graph n) : Fin n → ℤ := g.outSum (max · 0)

/-- The sum of the absolute values of the negative weights of the edges from `u`. -/
def outNegative (g : Graph n) : Fin n → ℤ := g.outSum fun w => max (-w) 0

/-- This is so for the positive parts of the weights, -/
theorem outPositive_nonneg (g : Graph n) (u : Fin n) : 0 ≤ g.outPositive u :=
  outSum_nonneg (fun _ => le_max_right _ _) g u

/-- and for the negative ones, -/
theorem outNegative_nonneg (g : Graph n) (u : Fin n) : 0 ≤ g.outNegative u :=
  outSum_nonneg (fun _ => le_max_right _ _) g u

/-- which bound the weight of an edge from above -/
theorem Edge.le_outPositive (h : g.Edge u v w) : w ≤ g.outPositive u :=
  (le_max_left _ _).trans (h.le_outSum (f := (max · 0)) fun _ => le_max_right _ _)

/-- and from below. -/
theorem Edge.neg_outNegative_le (h : g.Edge u v w) : -g.outNegative u ≤ w := by
  have hle : max (-w) 0 ≤ g.outNegative u :=
    h.le_outSum (f := fun w => max (-w) 0) fun _ => le_max_right _ _
  omega

/-- The positive and the negative weights make the sum of all absolute weights. -/
theorem outPositive_add_outNegative (g : Graph n) (u : Fin n) :
    g.outPositive u + g.outNegative u = g.outWeight u := by
  unfold outPositive outNegative outSum outWeight
  rw [← List.sum_map_add]
  congr 2
  funext p
  have habs : |p.2| = max p.2 (-p.2) := abs_eq_max_neg
  simp only [habs]
  omega

/-- Together they are the total weight. -/
theorem sum_outPositive_add (g : Graph n) :
    ∑ u, g.outPositive u + ∑ u, g.outNegative u = g.totalWeight := by
  rw [← Finset.sum_add_distrib]
  exact Finset.sum_congr rfl fun u _ => g.outPositive_add_outNegative u

end Graph

open CppLearn.Graph

namespace Floyd

variable {g : Graph n} {u v : Fin n} {w : ℤ}

/-! ## The constructor -/

/-- The loop over the edges of a vertex. -/
theorem foldl_set_row (a : Fin n → Fin n → ℤ) (u : Fin n) (l : List (Fin n × ℤ)) :
    (∀ y z, y ≠ u → l.foldl (fun a p => set a u p.1 p.2) a y z = a y z) ∧
      ∀ v, (∃ w l₁ l₂, l = l₁ ++ (v, w) :: l₂ ∧ (∀ p ∈ l₂, p.1 ≠ v) ∧
          l.foldl (fun a p => set a u p.1 p.2) a u v = w) ∨
        (∀ w, (v, w) ∉ l) ∧ l.foldl (fun a p => set a u p.1 p.2) a u v = a u v := by
  induction l using List.reverseRecOn with
  | nil => exact ⟨fun _ _ _ => rfl, fun v => .inr ⟨by simp, rfl⟩⟩
  | append_singleton l p ih =>
    obtain ⟨hother, hrow⟩ := ih
    rw [List.foldl_append]
    refine ⟨fun y z hy => ?_, fun v => ?_⟩
    · exact (set_of_ne _ _ fun h => hy h.1).trans (hother y z hy)
    · by_cases hv : p.1 = v
      · subst hv
        exact .inl ⟨p.2, l, [], rfl, by simp, set_self ..⟩
      · have hkeep := set_of_ne (l.foldl (fun a p => set a u p.1 p.2) a) (u := u) p.2
          (y := u) (z := v) fun h => hv h.2.symm
        -- an edge to another vertex does not matter
        rcases hrow v with ⟨w, l₁, l₂, rfl, hlast, hw⟩ | ⟨hnone, hsame⟩
        · refine .inl ⟨w, l₁, l₂ ++ [p], by simp, fun q hq => ?_, hkeep.trans hw⟩
          rcases List.mem_append.1 hq with hq | hq
          · exact hlast q hq
          · rwa [List.mem_singleton.1 hq]
        · refine .inr ⟨fun w hw => ?_, hkeep.trans hsame⟩
          rcases List.mem_append.1 hw with hw | hw
          · exact hnone w hw
          · exact hv (congrArg Prod.fst (List.mem_singleton.1 hw)).symm

/-- The loop over the vertices. -/
theorem foldl_rows (g : Graph n) (a : Fin n → Fin n → ℤ) {us : List (Fin n)} (hus : us.Nodup) :
    (∀ u ∉ us, us.foldl (fun a u => (g.graph u).foldl (fun a p => set a u p.1 p.2) a) a u = a u) ∧
      ∀ u ∈ us, ∀ v,
        g.LastEdge u v
          (us.foldl (fun a u => (g.graph u).foldl (fun a p => set a u p.1 p.2) a) a u v) ∨
        (∀ w, ¬ g.Edge u v w) ∧
          us.foldl (fun a u => (g.graph u).foldl (fun a p => set a u p.1 p.2) a) a u v = a u v := by
  induction us generalizing a with
  | nil => exact ⟨fun _ _ => rfl, by simp⟩
  | cons u us ih =>
    obtain ⟨hu, hus⟩ := List.nodup_cons.1 hus
    obtain ⟨hother, hrow⟩ := foldl_set_row a u (g.graph u)
    obtain ⟨hrest, hrows⟩ := ih ((g.graph u).foldl (fun a p => set a u p.1 p.2) a) hus
    rw [List.foldl_cons]
    refine ⟨fun x hx => ?_, fun x hx v => ?_⟩
    · -- a row that does not occur in the list is left alone
      have hxu : x ≠ u := fun h => hx (h ▸ List.mem_cons_self)
      rw [hrest x fun h => hx (List.mem_cons_of_mem _ h)]
      exact funext fun z => hother x z hxu
    · rcases List.mem_cons.1 hx with rfl | hmem
      · rw [hrest x hu]
        -- the row at the head is filled, and no later one changes it
        rcases hrow v with ⟨w, l₁, l₂, hl, hlast, rfl⟩ | hnone
        · exact .inl ⟨l₁, l₂, hl, hlast⟩
        · exact .inr hnone
      · have hxu : x ≠ u := fun h => hu (h ▸ hmem)
        rcases hrows x hmem v with hlast | ⟨hnone, hsame⟩
        · exact .inl hlast
        · exact .inr ⟨hnone, hsame.trans (hother x v hxu)⟩

/-- The loop that fills the diagonal. -/
theorem foldl_set_diagonal (a : Fin n → Fin n → ℤ) (us : List (Fin n)) :
    (∀ u ∈ us, us.foldl (fun a u => set a u u 0) a u u = 0) ∧
      ∀ u v, u ≠ v → us.foldl (fun a u => set a u u 0) a u v = a u v := by
  induction us using List.reverseRecOn with
  | nil => exact ⟨by simp, fun _ _ _ => rfl⟩
  | append_singleton us x ih =>
    obtain ⟨hdiag, hother⟩ := ih
    rw [List.foldl_append]
    refine ⟨fun u hu => ?_, fun u v huv => ?_⟩
    · by_cases hux : u = x
      · subst hux
        exact set_self ..
      · have hmem := (List.mem_append.1 hu).resolve_right (by simpa using hux)
        exact (set_of_ne _ _ fun h => hux h.1).trans (hdiag u hmem)
    · exact (set_of_ne _ _ fun h => huv (h.1.trans h.2.symm)).trans (hother u v huv)

/-- A vertex has the distance zero from itself. -/
theorem create_diagonal (g : Graph n) (u : Fin n) : (create g).answer u u = 0 :=
  (foldl_set_diagonal _ _).1 u (List.mem_finRange u)

/-- Outside the diagonal, an entry is the weight of the last edge, or `INT32_MAX`. -/
theorem create_cases (g : Graph n) (h : u ≠ v) :
    g.LastEdge u v ((create g).answer u v) ∨
      (∀ w, ¬ g.Edge u v w) ∧ (create g).answer u v = int32Max := by
  have hsame := (foldl_set_diagonal ((List.finRange n).foldl
    (fun a u => (g.graph u).foldl (fun a p => set a u p.1 p.2) a) fun _ _ => int32Max)
    (List.finRange n)).2 u v h
  have hrows := (foldl_rows g (fun _ _ => int32Max) (List.nodup_finRange n)).2 u
    (List.mem_finRange u) v
  rw [← hsame] at hrows
  exact hrows

/-! ## The padded matrix -/

/-- Elsewhere the entry is the weight of the last edge. -/
theorem create_eq_of_lastEdge (h : g.LastEdge u v w) (huv : u ≠ v) : (create g).answer u v = w := by
  rcases create_cases g huv with hlast | ⟨hnone, -⟩
  · exact hlast.unique h
  · exact absurd h.edge (hnone w)

/-- Of what the constructor enters, a path uses the last edges and edges of weight `INT32_MAX`. -/
theorem create_padded (g : Graph n) (htotal : g.totalWeight < int32Max) :
    Padded g.LastEdge (Complete (create g).answer) g.outNegative g.outPositive int32Max where
  edge u v w hw huv := by
    obtain rfl := hw
    rcases create_cases g huv with hlast | ⟨-, heq⟩
    · exact .inl hlast
    · exact .inr heq
  loop u w hw := by
    rw [hw, create_diagonal]
  low_nonneg := g.outNegative_nonneg
  high_nonneg := g.outPositive_nonneg
  low_le _ _ _ h := h.edge.neg_outNegative_le
  le_high _ _ _ h := h.edge.le_outPositive
  sum_lt := by
    rw [sum_outPositive_add]
    exact htotal

/-- The matrix that the constructor makes does not let the sums overflow. -/
theorem create_noOverflow (htotal : g.totalWeight < int32Max)
    (hcycle : ∀ u, ¬ NegativeCycle g.LastEdge u) : NoOverflow (create g).answer := by
  have hpadded := create_padded g htotal
  have hlow := hpadded.sum_low_lt
  have hmax : int32Max = 2 ^ 31 - 1 := rfl
  obtain ⟨pot, hpot, hbound⟩ := hpadded.exists_potential hcycle
  -- a potential bounds the weights of all walks from below
  have hwalk {u v : Fin n} {d : ℤ} (h : Walk (Complete (create g).answer) u v d) :
      -int32Max ≤ d := by
    have := h.potential_le hpot
    have := hbound u
    have := hbound v
    omega
  have hlower (u v : Fin n) : -int32Max ≤ (create g).answer u v :=
    hwalk (by simpa using (Walk.refl u).snoc (rfl : Complete _ u v _))
  -- an entry is the weight of an edge or `INT32_MAX`
  have hupper (u v : Fin n) : (create g).answer u v ≤ int32Max := by
    by_cases huv : u = v
    · rw [huv, create_diagonal]
      decide
    · rcases create_cases g huv with hlast | ⟨-, heq⟩
      · have hle := hlast.edge.le_outPositive
        have hsum := Finset.single_le_sum (fun x _ => g.outPositive_nonneg x) (Finset.mem_univ u)
        have hneg := Finset.sum_nonneg fun x (_ : x ∈ Finset.univ) => g.outNegative_nonneg x
        have := g.sum_outPositive_add
        omega
      · exact heq.le
  refine ⟨fun u k v => ⟨?_, ?_⟩, fun u S v d hpath => ?_⟩
  · have := hlower u k
    have := hlower k v
    omega
  · have := hupper u k
    have := hupper k v
    omega
  · have := hwalk hpath.walk
    omega

/-! ## Distances -/

/-- The edges that the constructor replaces are not needed. -/
def LastEdgesSuffice (g : Graph n) : Prop :=
  ∀ u v w, g.Edge u v w → ∃ x ≤ w, Walk g.LastEdge u v x

/-- From the source of an edge of negative weight every vertex can be reached, and its target can be
reached from every vertex. -/
def NegativeEdgesConnect (g : Graph n) : Prop :=
  ∀ u v w, g.Edge u v w → w < 0 → ∀ x, (∃ d, Walk g.Edge u x d) ∧ ∃ d, Walk g.Edge x v d

/-- Every walk can be replaced by one along last edges, of another weight. -/
theorem exists_walk_lastEdge {d : ℤ} (h : Walk g.Edge u v d) : ∃ x, Walk g.LastEdge u v x := by
  induction h with
  | refl => exact ⟨0, .refl u⟩
  | @snoc y z d w _ hedge ih =>
    obtain ⟨x, hx⟩ := ih
    by_cases hyz : y = z
    · exact ⟨x, hyz ▸ hx⟩
    · rcases create_cases g hyz with hlast | ⟨hnone, -⟩
      · exact ⟨_, hx.snoc hlast⟩
      · exact absurd hedge (hnone w)

section Distances

variable (hcycle : ∀ u, ¬ NegativeCycle g.Edge u) (htotal : g.totalWeight < int32Max)
include hcycle

/-- The bound on the weights leaves no room for a negative cycle. -/
theorem not_negativeCycle_lastEdge (u : Fin n) : ¬ NegativeCycle g.LastEdge u := by
  rintro ⟨v, d, c, hto, hround, hneg⟩
  exact hcycle u ⟨v, d, c, hto.mono fun _ _ _ h => h.edge, hround.mono fun _ _ _ h => h.edge, hneg⟩

/-- Walks along last edges are walks of the matrix. -/
theorem exists_complete_of_lastEdge (h : g.LastEdge u v w) :
    ∃ x ≤ w, Walk (Complete (create g).answer) u v x := by
  by_cases huv : u = v
  · subst huv
    refine ⟨0, ?_, .refl u⟩
    by_contra hneg
    exact hcycle u ⟨u, 0, w, .refl u, by simpa using (Walk.refl u).snoc h.edge, by omega⟩
  · refine ⟨w, le_rfl, ?_⟩
    simpa using (Walk.refl u).snoc (show Complete _ u v w from (create_eq_of_lastEdge h huv).symm)

include htotal

/-- The closure has the least weights of walks of the matrix. -/
theorem run_create_isLeast (u v : Fin n) :
    IsLeast {x | Walk (Complete (create g).answer) u v x} ((run (create g)).answer u v) := by
  have hlast := not_negativeCycle_lastEdge hcycle
  obtain ⟨pot, hpot, -⟩ := (create_padded g htotal).exists_potential hlast
  exact run_isLeast (create_noOverflow htotal hlast)
    (fun _ => not_negativeCycle_of_potential hpot) (create_diagonal g) u v

/-- Where there is a path, `operator()` finds the distance along last edges. -/
theorem run_create_isLeast_lastEdge {x : ℤ} (h : Walk g.Edge u v x) :
    IsLeast {x | Walk g.LastEdge u v x} ((run (create g)).answer u v) := by
  obtain ⟨y, hy⟩ := exists_walk_lastEdge h
  exact (create_padded g htotal).isLeast (not_negativeCycle_lastEdge hcycle)
    (fun _ _ _ hlast => exists_complete_of_lastEdge hcycle hlast)
    (run_create_isLeast hcycle htotal u v) hy

omit hcycle htotal in
/-- A pair that no walk connects keeps the largest number as its entry. -/
theorem complete_int32Max (h : ∀ x, ¬ Walk g.Edge u v x) :
    Complete (create g).answer u v int32Max := by
  have huv : u ≠ v := fun heq => h 0 (heq ▸ .refl u)
  rcases create_cases g huv with hlast | ⟨-, heq⟩
  · exact absurd (by simpa using (Walk.refl u).snoc hlast.edge) (h _)
  · exact heq.symm

/-- Where there is none, the entry is `INT32_MAX` and the weights of two walks. -/
theorem run_create_parts (h : ∀ x, ¬ Walk g.Edge u v x) :
    ∃ x y d₁ d₂, Walk g.LastEdge u x d₁ ∧ Walk g.LastEdge y v d₂ ∧
      (run (create g)).answer u v = d₁ + int32Max + d₂ :=
  (create_padded g htotal).exists_parts (not_negativeCycle_lastEdge hcycle)
    (run_create_isLeast hcycle htotal u v)
    (fun x hx => h x (hx.mono fun _ _ _ hlast => hlast.edge)) (complete_int32Max h)

/-- An entry is at most what a detour over a pair of vertices without a path costs. -/
theorem run_create_le_detour {x y : Fin n} {d₁ d₂ : ℤ} (hto : Walk g.LastEdge u x d₁)
    (hgap : ∀ d, ¬ Walk g.Edge x y d) (hfrom : Walk g.LastEdge y v d₂) :
    (run (create g)).answer u v ≤ d₁ + int32Max + d₂ := by
  have hle := (run_create_isLeast hcycle htotal u v).2
  obtain ⟨e₁, he₁, hto⟩ := Walk.exists_le
    (fun _ _ _ hlast => exists_complete_of_lastEdge hcycle hlast) hto
  obtain ⟨e₂, he₂, hfrom⟩ := Walk.exists_le
    (fun _ _ _ hlast => exists_complete_of_lastEdge hcycle hlast) hfrom
  have := hle ((hto.snoc (complete_int32Max hgap)).trans hfrom)
  omega

/-- When all pairs without a path have the entry `INT32_MAX`, then edges of negative weight do not
lie next to such pairs. -/
theorem negativeEdgesConnect (hsuffice : LastEdgesSuffice g)
    (hinf : ∀ u v, (∀ x, ¬ Walk g.Edge u v x) → (run (create g)).answer u v = int32Max) :
    NegativeEdgesConnect g := by
  intro u v w hedge hneg x
  obtain ⟨d, hd, hwalk⟩ := hsuffice u v w hedge
  have hstep : Walk g.Edge u v w := by simpa using (Walk.refl u).snoc hedge
  constructor
  · by_contra hgap
    -- from `u` along the edge, and then to `x`
    have hgap' : ∀ e, ¬ Walk g.Edge v x e := fun e he => hgap ⟨w + e, hstep.trans he⟩
    have hle := run_create_le_detour hcycle htotal hwalk hgap' (.refl x)
    have heq := hinf u x fun e he => hgap ⟨e, he⟩
    omega
  · by_contra hgap
    have hgap' : ∀ e, ¬ Walk g.Edge x u e := fun e he => hgap ⟨e + w, he.trans hstep⟩
    have hle := run_create_le_detour hcycle htotal (.refl x) hgap' hwalk
    have heq := hinf x v fun e he => hgap ⟨e, he⟩
    omega

/-- Without edges of negative weight next to a pair without a path, its entry is `INT32_MAX`. -/
theorem run_create_eq_int32Max (hconnect : NegativeEdgesConnect g)
    (h : ∀ x, ¬ Walk g.Edge u v x) : (run (create g)).answer u v = int32Max := by
  obtain ⟨x, y, d₁, d₂, hto, hfrom, heq⟩ := run_create_parts hcycle htotal h
  have hle := run_create_le_detour hcycle htotal (.refl u) h (.refl v)
  have hto' : Walk g.Edge u x d₁ := hto.mono fun _ _ _ hlast => hlast.edge
  have hfrom' : Walk g.Edge y v d₂ := hfrom.mono fun _ _ _ hlast => hlast.edge
  have hd₁ : 0 ≤ d₁ := by
    by_contra hneg
    obtain ⟨y', z, w, e₁, e₂, hbefore, hedge, hw, -⟩ := hto'.exists_negative_edge (by omega)
    obtain ⟨e, he⟩ := (hconnect y' z w hedge hw v).1
    exact h _ (hbefore.trans he)
  have hd₂ : 0 ≤ d₂ := by
    by_contra hneg
    obtain ⟨y', z, w, e₁, e₂, -, hedge, hw, hbehind⟩ := hfrom'.exists_negative_edge (by omega)
    obtain ⟨e, he⟩ := (hconnect y' z w hedge hw u).2
    exact h _ (he.trans hbehind)
  omega

end Distances

/-- For a graph without negative cycles and with small weights, `operator()` on a new object finds
the distances of the graph, and `INT32_MAX` where there is no path, if and only if the edges that
the constructor replaces are not needed and edges of negative weight do not lie next to pairs of
vertices without a path. -/
theorem run_create_iff (g : Graph n) (hcycle : ∀ u, ¬ NegativeCycle g.Edge u)
    (htotal : g.totalWeight < int32Max) :
    (∀ u v, IsLeast {x | Walk g.Edge u v x} ((run (create g)).answer u v) ∨
        (∀ x, ¬ Walk g.Edge u v x) ∧ (run (create g)).answer u v = int32Max) ↔
      LastEdgesSuffice g ∧ NegativeEdgesConnect g := by
  constructor
  · intro h
    -- all edges lead to distances, so that the last ones must be as short
    have hsuffice : LastEdgesSuffice g := by
      intro u v w hedge
      have hstep : Walk g.Edge u v w := by simpa using (Walk.refl u).snoc hedge
      have hleast := (h u v).resolve_right fun hnone => hnone.1 w hstep
      exact ⟨_, hleast.2 hstep, (run_create_isLeast_lastEdge hcycle htotal hstep).1⟩
    refine ⟨hsuffice, negativeEdgesConnect hcycle htotal hsuffice fun u v hnone => ?_⟩
    exact ((h u v).resolve_left fun hleast => hnone _ hleast.1).2
  · rintro ⟨hsuffice, hconnect⟩ u v
    -- where there is a path, the last edges give its weight
    by_cases hreach : ∃ x, Walk g.Edge u v x
    · left
      obtain ⟨x, hx⟩ := hreach
      have hleast := run_create_isLeast_lastEdge hcycle htotal hx
      refine ⟨hleast.1.mono fun _ _ _ hlast => hlast.edge, fun y hy => ?_⟩
      obtain ⟨z, hz, hwalk⟩ := Walk.exists_le hsuffice hy
      exact (hleast.2 hwalk).trans hz
    · have hnone : ∀ x, ¬ Walk g.Edge u v x := fun x hx => hreach ⟨x, hx⟩
      exact .inr ⟨hnone, run_create_eq_int32Max hcycle htotal hconnect hnone⟩

/-- Two vertices on a cycle with an edge of negative weight, which replaces another edge. -/
theorem run_create_iff_cycle :
    (run (create (⟨![[(1, 5), (1, -1)], [(0, 2)]]⟩ : Graph 2))).answer 0 1 = -1 ∧
      ∀ u v, IsLeast {x | Walk (Edge ⟨![[(1, 5), (1, -1)], [(0, 2)]]⟩) u v x}
          ((run (create (⟨![[(1, 5), (1, -1)], [(0, 2)]]⟩ : Graph 2))).answer u v) ∨
        (∀ x, ¬ Walk (Edge ⟨![[(1, 5), (1, -1)], [(0, 2)]]⟩) u v x) ∧
          (run (create (⟨![[(1, 5), (1, -1)], [(0, 2)]]⟩ : Graph 2))).answer u v = int32Max := by
  -- a potential shows that there is no negative cycle
  have hpot : ∀ u v w, Edge ⟨![[(1, 5), (1, -1)], [(0, 2)]]⟩ u v w →
      ![0, -1] v - ![0, -1] u ≤ w := by
    have hall : ∀ u, ∀ p ∈ (![[(1, 5), (1, -1)], [(0, 2)]] : Fin 2 → List (Fin 2 × ℤ)) u,
        ![0, -1] p.1 - ![0, -1] u ≤ p.2 := by decide
    exact fun u v w hedge => hall u (v, w) hedge
  have hthere : LastEdge ⟨![[(1, 5), (1, -1)], [(0, 2)]]⟩ 0 1 (-1) :=
    ⟨[(1, 5)], [], rfl, by simp⟩
  have hback : LastEdge ⟨![[(1, 5), (1, -1)], [(0, 2)]]⟩ 1 0 2 := ⟨[], [], rfl, by simp⟩
  have hwalk (u v : Fin 2) : ∃ d, Walk (Edge ⟨![[(1, 5), (1, -1)], [(0, 2)]]⟩) u v d := by
    fin_cases u <;> fin_cases v
    · exact ⟨_, .refl 0⟩
    · exact ⟨_, (Walk.refl 0).snoc hthere.edge⟩
    · exact ⟨_, (Walk.refl 1).snoc hback.edge⟩
    · exact ⟨_, .refl 1⟩
  refine ⟨by decide, (run_create_iff _ (fun u => not_negativeCycle_of_potential hpot) (by decide)).2
    ⟨fun u v w hedge => ?_, fun u v w _ _ x => ⟨hwalk u x, hwalk x v⟩⟩⟩
  fin_cases u <;> simp [Edge] at hedge
  · rcases hedge with ⟨rfl, rfl⟩ | ⟨rfl, rfl⟩
    · exact ⟨_, by decide, (Walk.refl 0).snoc hthere⟩
    · exact ⟨_, by decide, (Walk.refl 0).snoc hthere⟩
  · obtain ⟨rfl, rfl⟩ := hedge
    exact ⟨_, by decide, (Walk.refl 1).snoc hback⟩

/-- The second of two edges replaces the first one, although it is longer. The third vertex cannot
be reached, but the negative weight makes its entry smaller than `INT32_MAX`. -/
theorem create_replaces_shorter_edge :
    (∀ u, ¬ NegativeCycle (Edge ⟨![[(1, -2), (1, -1)], [], []]⟩) u) ∧
      totalWeight ⟨![[(1, -2), (1, -1)], [], []]⟩ < int32Max ∧
      Walk (Edge ⟨![[(1, -2), (1, -1)], [], []]⟩) 0 1 (-2) ∧
      (run (create (⟨![[(1, -2), (1, -1)], [], []]⟩ : Graph 3))).answer 0 1 = -1 ∧
      (∀ x, ¬ Walk (Edge ⟨![[(1, -2), (1, -1)], [], []]⟩) 0 2 x) ∧
      (run (create (⟨![[(1, -2), (1, -1)], [], []]⟩ : Graph 3))).answer 0 2 = int32Max - 1 := by
  have hedges : ∀ u, ∀ p ∈ (![[(1, -2), (1, -1)], [], []] : Fin 3 → List (Fin 3 × ℤ)) u,
      ![0, -2, 0] p.1 - ![0, -2, 0] u ≤ p.2 ∧ p.1 ≠ 2 := by decide
  have hpot : ∀ u v w, Edge ⟨![[(1, -2), (1, -1)], [], []]⟩ u v w →
      ![0, -2, 0] v - ![0, -2, 0] u ≤ w := fun u v w hedge => (hedges u (v, w) hedge).1
  refine ⟨fun u => not_negativeCycle_of_potential hpot, by decide, ?_, by decide, fun x hx => ?_,
    by decide⟩
  · have hedge : Edge ⟨![[(1, -2), (1, -1)], [], []]⟩ 0 1 (-2) := List.mem_cons_self
    simpa using (Walk.refl 0).snoc hedge
  · cases hx with
    | snoc _ hedge => exact (hedges _ _ hedge).2 rfl

end Floyd

end CppLearn

import CppLearn.Graph.Dijkstra
import Mathlib.Tactic.FinCases

/-!
# The quadratic version of Dijkstra's algorithm

`Dijkstra::force` makes one iteration for each vertex of the graph. An iteration looks for the
nearest vertex that has not been visited, among those with an entry below `INT32_MAX`, and visits
it. When there is no such vertex, the index of the vertex stays `-1`, and the access that follows is
outside the vector.

The invariant of the loop of `Dijkstra.force` is `Dijkstra.Nearer`. By `Dijkstra.forceLoop_spec` the
loop ends with a settled table, or comes to a point where the vertices that are left have no entry
below `INT32_MAX`. So there is a condition on the graph for `force` and `dijkstra` to agree
(`Dijkstra.force_eq_dijkstra_iff`).
-/

namespace CppLearn

open BoundedLoop ShortestPath CppLearn.Graph

namespace Dijkstra

variable {n : ℕ}

/-- The body of the loop that looks for the next vertex, on `u` and `m_value`. As long as `u` is
`-1`, it is `none` here. -/
def scanStep (d : Dijkstra n) (s : Option (Fin n) × ℤ) (j : Fin n) : Option (Fin n) × ℤ :=
  if !d.visit j ∧ d.answer j < s.2 then (some j, d.answer j) else s

/-- The loop that looks for the next vertex. -/
def scan (d : Dijkstra n) : Option (Fin n) :=
  ((List.finRange n).foldl d.scanStep (none, int32Max)).1

/-- The body of the loop over the edges of `u`. -/
def forceEdge (u : Fin n) (d : Dijkstra n) (p : Fin n × ℤ) : Dijkstra n :=
  if d.answer p.1 > d.answer u + p.2 then
    { d with answer := Function.update d.answer p.1 (d.answer u + p.2) }
  else d

/-- One iteration of the loop of `force`. -/
def forceStep (d : Dijkstra n) : Except Fault (Dijkstra n) :=
  match d.scan with
  -- `visit_[-1] = 1`
  | none => .error .invalidAccess
  | some u =>
    .ok ((d.graph u).foldl (forceEdge u) { d with visit := Function.update d.visit u true })

/-- The remaining `k` iterations of the loop of `force`. -/
def forceLoop : ℕ → Dijkstra n → Except Fault (Dijkstra n)
  | 0, d => .ok d
  | k + 1, d => do
    let d ← d.forceStep
    forceLoop k d

/-- `force`. -/
def force (d : Dijkstra n) (start : Fin n) : Except Fault (Dijkstra n) :=
  forceLoop n { d with answer := Function.update d.answer start 0 }

/-! ## The next vertex -/

variable {d : Dijkstra n}

/-- The vertices of `l`, one after the other: the least entry so far, and the vertex it belongs
to. -/
theorem foldl_scanStep (d : Dijkstra n) (l : List (Fin n)) (s : Option (Fin n) × ℤ) :
    (l.foldl d.scanStep s).2 ≤ s.2 ∧
      (∀ j ∈ l, d.visit j = false → (l.foldl d.scanStep s).2 ≤ d.answer j) ∧
      (l.foldl d.scanStep s = s ∨ ∃ u, l.foldl d.scanStep s = (some u, d.answer u) ∧
        d.visit u = false ∧ d.answer u < s.2) := by
  induction l generalizing s with
  | nil => exact ⟨le_rfl, by simp, .inl rfl⟩
  | cons j l ih =>
    obtain ⟨hle, hall, hlast⟩ := ih (d.scanStep s j)
    rw [List.foldl_cons]
    -- the vertex is nearer than those before, or it is passed over
    by_cases hj : d.visit j = false ∧ d.answer j < s.2
    · have hstep : d.scanStep s j = (some j, d.answer j) := by simp [scanStep, hj]
      rw [hstep] at hle hall hlast ⊢
      refine ⟨hle.trans hj.2.le, fun k hk hvisit => ?_, .inr ?_⟩
      · rcases List.mem_cons.1 hk with rfl | hmem
        · exact hle
        · exact hall k hmem hvisit
      · rcases hlast with heq | ⟨u, heq, hu, hlt⟩
        · exact ⟨j, heq, hj⟩
        · exact ⟨u, heq, hu, lt_trans hlt hj.2⟩
    · have hstep : d.scanStep s j = s := by
        refine if_neg fun h => hj ?_
        simpa using h
      rw [hstep] at hle hall hlast ⊢
      refine ⟨hle, fun k hk hvisit => ?_, hlast⟩
      rcases List.mem_cons.1 hk with rfl | hmem
      · exact hle.trans (not_lt.1 fun hlt => hj ⟨hvisit, hlt⟩)
      · exact hall k hmem hvisit

/-- The vertex that is found is the nearest one among those that have not been visited. -/
theorem scan_some {u : Fin n} (h : d.scan = some u) :
    d.visit u = false ∧ d.answer u < int32Max ∧
      ∀ v, d.visit v = false → d.answer u ≤ d.answer v := by
  obtain ⟨-, hall, hlast⟩ := d.foldl_scanStep (List.finRange n) (none, int32Max)
  rw [scan] at h
  rcases hlast with heq | ⟨x, heq, hvisit, hlt⟩
  · rw [heq] at h
    cases h
  · rw [heq] at h hall
    obtain rfl := Option.some.inj h
    exact ⟨hvisit, hlt, fun v => hall v (List.mem_finRange v)⟩

/-- If none is found, then the vertices that are left have no entry below `INT32_MAX`. -/
theorem scan_none (h : d.scan = none) (v : Fin n) (hv : d.visit v = false) :
    int32Max ≤ d.answer v := by
  obtain ⟨-, hall, hlast⟩ := d.foldl_scanStep (List.finRange n) (none, int32Max)
  rw [scan] at h
  rcases hlast with heq | ⟨x, heq, -⟩
  · rw [heq] at hall
    exact hall v (List.mem_finRange v) hv
  · rw [heq] at h
    cases h

/-! ## The invariant -/

variable {g : Graph n} {start u : Fin n} {ok : Fin n → List (Fin n × ℤ)}

/-- The invariant of the loops. The vertices that have been visited are nearer than the others, and
their edges cannot lower entries; while the edges of a vertex are gone through, `ok` has those that
it has been done for. -/
structure Nearer (g : Graph n) (start : Fin n) (ok : Fin n → List (Fin n × ℤ)) (d : Dijkstra n) :
    Prop where
  graph : d.graph = g.graph
  sound : Sound g.Edge start int32Max d.answer
  reached : ∀ u, d.visit u = true → d.answer u ≠ int32Max
  relaxed : ∀ u, d.visit u = true → ∀ p ∈ ok u, d.answer p.1 ≤ d.answer u + p.2
  nearer : ∀ u v, d.visit u = true → d.visit v = false → d.answer u ≤ d.answer v

/-- A vertex is marked: nothing is known about its edges. Its distance is the largest one among the
visited vertices. -/
theorem Nearer.mark (h : Nearer g start g.graph d) (hscan : d.scan = some u) :
    Nearer g start (Function.update g.graph u [])
        { d with visit := Function.update d.visit u true } ∧
      ∀ v, Function.update d.visit u true v = true → d.answer v ≤ d.answer u := by
  obtain ⟨hvisit, hlt, hleast⟩ := scan_some hscan
  have hold {v : Fin n} (hv : Function.update d.visit u true v = true) (hne : v ≠ u) :
      d.visit v = true := by
    rwa [Function.update_of_ne hne] at hv
  refine ⟨⟨h.graph, h.sound, fun v hv => ?_, fun v hv p hp => ?_, fun v x hv hx => ?_⟩,
    fun v hv => ?_⟩
  · -- for `u` each of the conditions holds at once, and for the other vertices as before
    by_cases hvu : v = u
    · rw [hvu]
      exact hlt.ne
    · exact h.reached v (hold hv hvu)
  · by_cases hvu : v = u
    · simp [hvu] at hp
    · rw [Function.update_of_ne hvu] at hp
      exact h.relaxed v (hold hv hvu) p hp
  · have hxu : x ≠ u := by
      rintro rfl
      simp at hx
    simp only [Function.update_of_ne hxu] at hx
    by_cases hvu : v = u
    · rw [hvu]
      exact hleast x hx
    · exact h.nearer v x (hold hv hvu) hx
  · by_cases hvu : v = u
    · rw [hvu]
    · exact h.nearer v u (hold hv hvu) hvisit

/-- One edge of the vertex that is visited. -/
theorem Nearer.edge {p : Fin n × ℤ} {done : List (Fin n × ℤ)}
    (h : Nearer g start (Function.update g.graph u done) d) (hu : d.visit u = true)
    (hmax : ∀ v, d.visit v = true → d.answer v ≤ d.answer u) (hp : p ∈ g.graph u)
    (hw : 0 ≤ p.2) :
    Nearer g start (Function.update g.graph u (p :: done)) (forceEdge u d p) ∧
      (forceEdge u d p).visit = d.visit ∧
      ∀ v, d.visit v = true → (forceEdge u d p).answer v = d.answer v := by
  unfold forceEdge
  split_ifs with hlt
  · -- visited vertices are not further away than `u`, so the entry of none of them is lowered
    have hsame {v : Fin n} (hv : d.visit v = true) :
        Function.update d.answer p.1 (d.answer u + p.2) v = d.answer v := by
      refine Function.update_of_ne ?_ _ _
      rintro rfl
      have := hmax p.1 hv
      omega
    have hle : Function.update d.answer p.1 (d.answer u + p.2) ≤ d.answer :=
      update_le_self_iff.2 hlt.le
    have hrelaxed := relaxed_cons h.relaxed hle (fun v hv => hsame hv) (Function.update_self ..).le
    refine ⟨⟨h.graph, h.sound.relax (h.reached u hu) hp hlt, fun v hv => ?_, hrelaxed,
      fun v x hv hx => ?_⟩, rfl, fun v hv => hsame hv⟩
    · simp only [hsame hv]
      exact h.reached v hv
    · simp only [hsame hv]
      by_cases hxp : x = p.1
      · rw [hxp, Function.update_self]
        have := hmax v hv
        omega
      · rw [Function.update_of_ne hxp]
        exact h.nearer v x hv hx
  · have hrelaxed := relaxed_cons h.relaxed le_rfl (fun _ _ => rfl) (Int.not_lt.1 hlt)
    exact ⟨⟨h.graph, h.sound, h.reached, hrelaxed, h.nearer⟩, rfl, fun _ _ => rfl⟩

/-- The edges of the vertex that is visited, one after the other. -/
theorem Nearer.edges {edges done : List (Fin n × ℤ)}
    (h : Nearer g start (Function.update g.graph u done) d) (hu : d.visit u = true)
    (hmax : ∀ v, d.visit v = true → d.answer v ≤ d.answer u)
    (hedges : ∀ p ∈ edges, p ∈ g.graph u ∧ 0 ≤ p.2) :
    Nearer g start (Function.update g.graph u (edges.reverse ++ done))
        (edges.foldl (forceEdge u) d) ∧
      (edges.foldl (forceEdge u) d).visit = d.visit := by
  induction edges generalizing d done with
  | nil => exact ⟨h, rfl⟩
  | cons p edges ih =>
    obtain ⟨hp, hw⟩ := hedges p List.mem_cons_self
    obtain ⟨hinv, hvisit, hanswer⟩ := h.edge hu hmax hp hw
    have hmax' : ∀ v, (forceEdge u d p).visit v = true →
        (forceEdge u d p).answer v ≤ (forceEdge u d p).answer u := by
      intro v hv
      rw [hvisit] at hv
      rw [hanswer v hv, hanswer u hu]
      exact hmax v hv
    obtain ⟨hend, hvisit'⟩ := ih hinv (by rwa [hvisit]) hmax'
      fun q hq => hedges q (List.mem_cons_of_mem p hq)
    rw [List.reverse_cons, List.append_assoc, List.singleton_append, List.foldl_cons]
    exact ⟨hend, hvisit'.trans hvisit⟩

/-! ## The loop -/

/-- One iteration: a vertex is visited, or those that are left have no entry below `INT32_MAX`. -/
theorem forceStep_spec (hweights : ∀ u, ∀ p ∈ g.graph u, 0 ≤ p.2) (h : Nearer g start g.graph d) :
    (∃ u d', d.forceStep = .ok d' ∧ Nearer g start g.graph d' ∧ d.visit u = false ∧
      d'.visit = Function.update d.visit u true) ∨
      d.forceStep = .error .invalidAccess ∧ ∀ v, d.visit v = false → d.answer v = int32Max := by
  unfold forceStep
  cases hscan : d.scan with
  | none =>
    exact .inr ⟨rfl, fun v hv => le_antisymm (h.sound.le_inf v) (scan_none hscan v hv)⟩
  | some u =>
    obtain ⟨hmark, hmax⟩ := h.mark hscan
    have hedges : ∀ p ∈ d.graph u, p ∈ g.graph u ∧ 0 ≤ p.2 := by
      rw [h.graph]
      exact fun p hp => ⟨hp, hweights u p hp⟩
    obtain ⟨hend, hvisit⟩ := hmark.edges (Function.update_self ..) hmax hedges
    refine .inl ⟨u, _, rfl, ⟨hend.graph, hend.sound, hend.reached, fun v hv p hp => ?_,
      hend.nearer⟩, (scan_some hscan).1, hvisit⟩
    refine hend.relaxed v hv p ?_
    by_cases hvu : v = u
    · subst hvu
      simpa [h.graph] using hp
    · rwa [Function.update_of_ne hvu]

/-- When the vertices that are left have no entry below `INT32_MAX`, no edge can lower an entry. -/
theorem Nearer.settled (h : Nearer g start g.graph d)
    (hrest : ∀ v, d.visit v = false → d.answer v = int32Max) :
    Settled g.Edge int32Max d.answer := by
  intro u v w hedge hu
  refine h.relaxed u ?_ (v, w) hedge
  by_contra hvisit
  exact hu (hrest u (by simpa using hvisit))

/-- The loop, when as many vertices are left as iterations. -/
theorem forceLoop_spec (hweights : ∀ u, ∀ p ∈ g.graph u, 0 ≤ p.2) (h : Nearer g start g.graph d)
    {k : ℕ} (hk : (Finset.univ.filter fun v => d.visit v = false).card = k) :
    (∃ d', forceLoop k d = .ok d' ∧ Sound g.Edge start int32Max d'.answer ∧
      Settled g.Edge int32Max d'.answer ∧ ∀ v, d'.answer v ≠ int32Max) ∨
      forceLoop k d = .error .invalidAccess ∧
        ∃ answer v, Sound g.Edge start int32Max answer ∧ Settled g.Edge int32Max answer ∧
          answer v = int32Max := by
  induction k generalizing d with
  | zero =>
    -- all vertices have been visited
    have hall (v : Fin n) : d.visit v = true := by
      by_contra hv
      have hmem : v ∈ Finset.univ.filter fun v => d.visit v = false := by simpa using hv
      rw [Finset.card_eq_zero.1 hk] at hmem
      exact Finset.notMem_empty v hmem
    refine .inl ⟨d, rfl, h.sound, h.settled fun v hv => ?_, fun v => h.reached v (hall v)⟩
    rw [hall v] at hv
    cases hv
  | succ k ih =>
    rcases forceStep_spec hweights h with ⟨u, d', hstep, hinv, hu, hvisit⟩ | ⟨hstep, hrest⟩
    · -- one more vertex has been visited
      have hcard : (Finset.univ.filter fun v => d'.visit v = false).card = k := by
        have hset : (Finset.univ.filter fun v => d'.visit v = false) =
            (Finset.univ.filter fun v => d.visit v = false).erase u := by
          ext v
          by_cases hvu : v = u
          · simp [hvisit, hvu]
          · simp [hvisit, hvu]
        rw [hset, Finset.card_erase_of_mem (by simpa using hu), hk]
        rfl
      simp only [forceLoop, hstep, bind, Except.bind]
      exact ih hinv hcard
    · -- there is a vertex left, and the table is settled without it
      obtain ⟨v, hv⟩ : (Finset.univ.filter fun v => d.visit v = false).Nonempty := by
        rw [← Finset.card_pos]
        omega
      refine .inr ⟨by simp only [forceLoop, hstep, bind, Except.bind], d.answer, v, h.sound,
        h.settled hrest, hrest v (Finset.mem_filter.1 hv).2⟩

/-- Before the first iteration. -/
theorem initial_nearer (g : Graph n) (start : Fin n) :
    Nearer g start g.graph ⟨initialAnswer start, fun _ => false, g.graph⟩ := by
  refine ⟨rfl, initialAnswer_sound g start, ?_, ?_, ?_⟩
  all_goals
    intro u
    simp

/-! ## The result -/

/-- On fresh objects, or after `reset`, `force` returns and computes the same vector as `dijkstra`
if and only if all vertices can be reached, with distances below `INT32_MAX`. -/
theorem force_eq_dijkstra_iff (pq : Queues n) (g : Graph n)
    (hweights : ∀ u, ∀ p ∈ g.graph u, 0 ≤ p.2 ∧ p.2 ≤ int32Max) (start : Fin n)
    (d e : Dijkstra n)
    (hd : d = create g ∨ ∃ d₀ : Dijkstra n, d₀.graph = g.graph ∧ d = d₀.reset)
    (he : e = create g ∨ ∃ e₀ : Dijkstra n, e₀.graph = g.graph ∧ e = e₀.reset) (fuel : ℕ)
    (hfuel : (∑ v, (g.graph v).length) + 1 < fuel) :
    (∃ d' e', d.force start = .ok d' ∧ e.dijkstra pq fuel start = .ok e' ∧
        d'.answer = e'.answer) ↔
      ∀ v, ∃ x, Walk g.Edge start v x ∧ x < int32Max := by
  have hnonneg : ∀ u, ∀ p ∈ g.graph u, 0 ≤ p.2 := fun u p hp => (hweights u p hp).1
  have hE : ∀ u v w, g.Edge u v w → 0 ≤ w := fun u v w hedge => hnonneg u (v, w) hedge
  obtain ⟨e', hrun, hsound, hsettled⟩ := dijkstra_settled pq hnonneg start hfuel
  rw [eq_create hd, eq_create he, hrun]
  -- `force` fails exactly if the settled table has an entry `INT32_MAX`
  rcases forceLoop_spec hnonneg (initial_nearer g start) (k := n) (by simp) with
    ⟨d', hforce, hsound', hsettled', hall⟩ | ⟨hforce, answer, v, hsound', hsettled', hv⟩
  · refine iff_of_true ⟨d', e', hforce, rfl, ?_⟩ fun v => ?_
    · exact hsettled'.eq_of_nonneg hE hsettled hsound' hsound
    · exact ⟨_, hsound'.walk v (hall v), lt_of_le_of_ne (hsound'.le_inf v) (hall v)⟩
  · refine iff_of_false ?_ fun hreach => ?_
    · rintro ⟨d', e', hok, -⟩
      rw [show (create g).force start = .error .invalidAccess from hforce] at hok
      cases hok
    · obtain ⟨x, hwalk, hlt⟩ := hreach v
      have := hsettled'.le_weight hE hsound' hwalk
      omega

/-- The shortest path to the second vertex is not its edge from the start node. -/
theorem force_eq_dijkstra_iff_detour :
    ∃ d' e', (create (⟨![[(1, 4), (2, 1)], [], [(1, 2)]]⟩ : Graph 3)).force 0 = .ok d' ∧
      (create (⟨![[(1, 4), (2, 1)], [], [(1, 2)]]⟩ : Graph 3)).dijkstra
        (PriorityQueue.sorted Node.weight) 5 0 = .ok e' ∧ d'.answer = e'.answer := by
  refine (force_eq_dijkstra_iff (PriorityQueue.sorted Node.weight)
    ⟨![[(1, 4), (2, 1)], [], [(1, 2)]]⟩ (by decide) 0 _ _ (.inl rfl) (.inl rfl) 5
    (by decide)).2 fun v => ?_
  have hfirst : Edge ⟨![[(1, 4), (2, 1)], [], [(1, 2)]]⟩ 0 1 4 := List.mem_cons_self
  have hsecond : Edge ⟨![[(1, 4), (2, 1)], [], [(1, 2)]]⟩ 0 2 1 :=
    List.mem_cons_of_mem _ (List.mem_singleton.2 rfl)
  fin_cases v
  · exact ⟨_, .refl 0, by decide⟩
  · exact ⟨_, (Walk.refl 0).snoc hfirst, by decide⟩
  · exact ⟨_, (Walk.refl 0).snoc hsecond, by decide⟩

/-- Two vertices without an edge between them: `dijkstra` returns, and `force` does not. -/
theorem force_index_out_of_bounds :
    (create (⟨![[], []]⟩ : Graph 2)).force 0 = .error .invalidAccess ∧
      ∃ e', (create (⟨![[], []]⟩ : Graph 2)).dijkstra
        (PriorityQueue.sorted Node.weight) 2 0 = .ok e' ∧ e'.answer = ![0, int32Max] := by
  refine ⟨rfl, _, rfl, ?_⟩
  decide

end Dijkstra

end CppLearn

import CppLearn.Graph.BellmanFord
import CppLearn.Lib.PriorityQueue
import Mathlib.Data.Fin.VecNotation

/-!
# Dijkstra's algorithm

`Dijkstra::dijkstra` of `dijkstra.h` keeps entries of a vertex and a distance in a priority queue.
An entry stays in the queue when the distance of its vertex is lowered, and is skipped later since
the vertex has been visited by then. The vertices are visited in the order of their distances, so
that the distance of a visited vertex is not lowered any more: it is at most all keys of the queue,
and the keys of new entries are not smaller.

Sums of an entry of `answer` and a weight are below `2 ^ 32`, so `int64_t` is modelled by `ℤ`.

`Dijkstra.dijkstra` takes any priority queue as an argument. One iteration of its loop keeps
`Dijkstra.Invariant` and lowers `Dijkstra.potential` (`Dijkstra.step_spec`), so the loop ends and
`answer` holds the distances (`Dijkstra.dijkstra_distances`).
-/

namespace CppLearn

open BoundedLoop ShortestPath CppLearn.Graph

variable {n : ℕ}

/-- `Dijkstra::Node`. -/
structure Dijkstra.Node (n : ℕ) where
  node : Fin n
  weight : ℤ

/-- The fields of a `Dijkstra`. -/
structure Dijkstra (n : ℕ) where
  answer : Fin n → ℤ
  visit : Fin n → Bool
  graph : Fin n → List (Fin n × ℤ)

namespace Dijkstra

/-- The constructor. -/
def create (g : Graph n) : Dijkstra n := ⟨fun _ => int32Max, fun _ => false, g.graph⟩

/-- `reset`. -/
def reset (d : Dijkstra n) : Dijkstra n :=
  (List.finRange n).foldl (fun d i =>
    { d with
      answer := Function.update d.answer i int32Max
      visit := Function.update d.visit i false }) d

/-- Priority queues of nodes, ordered by `operator>`. -/
abbrev Queues (n : ℕ) := PriorityQueue (Node.weight (n := n))

variable (pq : Queues n)

/-- The body of the loop over the edges of `u`. -/
def relaxEdge (u : Fin n) (s : Dijkstra n × pq.Queue) (p : Fin n × ℤ) : Dijkstra n × pq.Queue :=
  if s.1.answer p.1 > s.1.answer u + p.2 then
    let weight := s.1.answer u + p.2
    ({ s.1 with answer := Function.update s.1.answer p.1 weight }, pq.push s.2 ⟨p.1, weight⟩)
  else s

/-- Visit `u`. -/
def visitNode (u : Fin n) (s : Dijkstra n × pq.Queue) : Dijkstra n × pq.Queue :=
  (s.1.graph u).foldl (relaxEdge pq u)
    ({ s.1 with visit := Function.update s.1.visit u true }, s.2)

/-- One iteration of the loop of `dijkstra`. -/
def step (s : Dijkstra n × pq.Queue) : Except Fault ((Dijkstra n × pq.Queue) ⊕ Dijkstra n) :=
  match pq.pop s.2 with
  | none => .ok (.inr s.1)
  | some (top, q) =>
    -- an entry of a vertex that has been visited is outdated
    if s.1.visit top.node then .ok (.inl (s.1, q))
    else .ok (.inl (visitNode pq top.node (s.1, q)))

/-- `dijkstra`, for at most `fuel` iterations of its loop. -/
def dijkstra (d : Dijkstra n) (fuel : ℕ) (start : Fin n) : Except Fault (Dijkstra n) :=
  iterate (fun _ => .diverged) (step pq) fuel
    ({ d with answer := Function.update d.answer start 0 }, pq.push pq.empty ⟨start, 0⟩)

/-! ## The invariant -/

variable {pq} {g : Graph n} {start : Fin n}

/-- The invariant of the loops. Edges of visited vertices cannot lower entries; while the edges of
a vertex are gone through, `ok` has those that it has been done for. -/
structure Invariant (g : Graph n) (start : Fin n) (ok : Fin n → List (Fin n × ℤ))
    (s : Dijkstra n × pq.Queue) : Prop where
  graph : s.1.graph = g.graph
  sound : Sound g.Edge start int32Max s.1.answer
  queued : ∀ v, s.1.visit v = false → s.1.answer v ≠ int32Max →
    ⟨v, s.1.answer v⟩ ∈ pq.elems s.2
  entry : ∀ e ∈ pq.elems s.2, s.1.answer e.node ≤ e.weight ∧ e.weight < int32Max
  reached : ∀ u, s.1.visit u = true → s.1.answer u ≠ int32Max
  relaxed : ∀ u, s.1.visit u = true → ∀ p ∈ ok u, s.1.answer p.1 ≤ s.1.answer u + p.2
  below : ∀ u, s.1.visit u = true → ∀ e ∈ pq.elems s.2, s.1.answer u ≤ e.weight

variable {ok : Fin n → List (Fin n × ℤ)} {s : Dijkstra n × pq.Queue} {u : Fin n}

/-- Before the first iteration. -/
theorem initial_invariant (pq : Queues n) (g : Graph n) (start : Fin n) :
    Invariant g start g.graph
      ((⟨initialAnswer start, fun _ => false, g.graph⟩, pq.push pq.empty ⟨start, 0⟩) :
        Dijkstra n × pq.Queue) := by
  have helems : pq.elems (pq.push pq.empty ⟨start, 0⟩) = {⟨start, 0⟩} := by
    rw [pq.elems_push, pq.elems_empty, Multiset.cons_zero]
  refine ⟨rfl, initialAnswer_sound g start, fun v _ hv => ?_, fun e he => ?_, ?_, ?_, ?_⟩
  · have hvs : v = start := by
      by_contra hne
      exact hv (initialAnswer_of_ne hne)
    subst hvs
    simp only [initialAnswer_self, helems]
    exact Multiset.mem_singleton_self _
  · simp only [helems, Multiset.mem_singleton] at he
    subst he
    have hpos : (0 : ℤ) < int32Max := by decide
    exact ⟨(initialAnswer_self start).le, hpos⟩
  all_goals
    intro u hu
    cases hu

/-- An outdated entry is removed. -/
theorem Invariant.skip {top : Node n} {q : pq.Queue} (h : Invariant g start g.graph s)
    (hpop : pq.pop s.2 = some (top, q)) (hvisit : s.1.visit top.node = true) :
    Invariant g start g.graph (s.1, q) := by
  have hsub {e : Node n} (he : e ∈ pq.elems q) : e ∈ pq.elems s.2 :=
    (PriorityQueue.mem_of_pop hpop).2 (.inr he)
  refine ⟨h.graph, h.sound, fun v hv hne => ?_, fun e he => h.entry e (hsub he), h.reached,
    h.relaxed, fun u hu e he => h.below u hu e (hsub he)⟩
  refine ((PriorityQueue.mem_of_pop hpop).1 (h.queued v hv hne)).resolve_left fun htop => ?_
  rw [← htop, hv] at hvisit
  cases hvisit

/-- The entry that is removed first has the distance of its vertex, unless it is outdated. -/
theorem Invariant.weight_eq {top : Node n} {q : pq.Queue} (h : Invariant g start g.graph s)
    (hpop : pq.pop s.2 = some (top, q)) (hvisit : s.1.visit top.node = false) :
    top.weight = s.1.answer top.node := by
  obtain ⟨hle, hlt⟩ := h.entry top ((PriorityQueue.mem_of_pop hpop).2 (.inl rfl))
  have hmem := h.queued top.node hvisit (by omega)
  refine le_antisymm ?_ hle
  rcases (PriorityQueue.mem_of_pop hpop).1 hmem with heq | hrest
  · exact (congrArg Node.weight heq).ge
  · exact pq.key_le_of_pop _ _ _ hpop _ hrest

/-- A vertex is marked: nothing is known about its edges. Its distance is the largest one among the
visited vertices. -/
theorem Invariant.mark {top : Node n} {q : pq.Queue} (h : Invariant g start g.graph s)
    (hpop : pq.pop s.2 = some (top, q)) (hvisit : s.1.visit top.node = false) :
    Invariant g start (Function.update g.graph top.node [])
        ({ s.1 with visit := Function.update s.1.visit top.node true }, q) ∧
      ∀ v, Function.update s.1.visit top.node true v = true →
        s.1.answer v ≤ s.1.answer top.node := by
  have hsub {e : Node n} (he : e ∈ pq.elems q) : e ∈ pq.elems s.2 :=
    (PriorityQueue.mem_of_pop hpop).2 (.inr he)
  have hweight := h.weight_eq hpop hvisit
  have htop := (PriorityQueue.mem_of_pop hpop).2 (.inl rfl)
  have hlt := (h.entry top htop).2
  have hold {v : Fin n} (hv : Function.update s.1.visit top.node true v = true)
      (hne : v ≠ top.node) : s.1.visit v = true := by
    rwa [Function.update_of_ne hne] at hv
  refine ⟨⟨h.graph, h.sound, fun v hv hne => ?_, fun e he => h.entry e (hsub he),
    fun v hv => ?_, fun v hv p hp => ?_, fun v hv e he => ?_⟩, fun v hv => ?_⟩
  · have hvt : v ≠ top.node := by
      rintro rfl
      simp at hv
    simp only [Function.update_of_ne hvt] at hv
    refine ((PriorityQueue.mem_of_pop hpop).1 (h.queued v hv hne)).resolve_left fun heq => ?_
    exact hvt (congrArg Node.node heq)
  · by_cases hvt : v = top.node
    · subst hvt
      simp only
      omega
    · exact h.reached v (hold hv hvt)
  · by_cases hvt : v = top.node
    · subst hvt
      simp at hp
    · rw [Function.update_of_ne hvt] at hp
      exact h.relaxed v (hold hv hvt) p hp
  · by_cases hvt : v = top.node
    · subst hvt
      exact hweight.ge.trans (pq.key_le_of_pop _ _ _ hpop e he)
    · exact h.below v (hold hv hvt) e (hsub he)
  · by_cases hvt : v = top.node
    · rw [hvt]
    · exact (h.below v (hold hv hvt) top htop).trans hweight.le

/-- One more edge of `u` that is satisfied, if no entry has become larger and those of the visited
vertices are the same. -/
theorem relaxed_cons {visit : Fin n → Bool} {ok : Fin n → List (Fin n × ℤ)} {p : Fin n × ℤ}
    {done : List (Fin n × ℤ)} {a a' : Fin n → ℤ}
    (h : ∀ v, visit v = true → ∀ q ∈ Function.update ok u done v, a q.1 ≤ a v + q.2)
    (hle : a' ≤ a) (hsame : ∀ v, visit v = true → a' v = a v) (hp : a' p.1 ≤ a u + p.2) :
    ∀ v, visit v = true → ∀ q ∈ Function.update ok u (p :: done) v, a' q.1 ≤ a' v + q.2 := by
  intro v hv q hq
  rw [hsame v hv]
  by_cases hvu : v = u
  · subst hvu
    rw [Function.update_self] at hq
    rcases List.mem_cons.1 hq with rfl | hdone
    · exact hp
    · exact (hle q.1).trans (h v hv q (by rwa [Function.update_self]))
  · rw [Function.update_of_ne hvu] at hq
    exact (hle q.1).trans (h v hv q (by rwa [Function.update_of_ne hvu]))

/-- One edge of the vertex that is visited. -/
theorem Invariant.relaxEdge {p : Fin n × ℤ} {done : List (Fin n × ℤ)}
    (h : Invariant g start (Function.update g.graph u done) s) (hu : s.1.visit u = true)
    (hmax : ∀ v, s.1.visit v = true → s.1.answer v ≤ s.1.answer u) (hp : p ∈ g.graph u)
    (hw : 0 ≤ p.2) :
    Invariant g start (Function.update g.graph u (p :: done)) (relaxEdge pq u s p) ∧
      (relaxEdge pq u s p).1.visit = s.1.visit ∧
      ∀ v, s.1.visit v = true → (relaxEdge pq u s p).1.answer v = s.1.answer v := by
  unfold Dijkstra.relaxEdge
  split_ifs with hlt
  · -- visited vertices are not further away than `u`, so the entry of none of them is lowered
    have hne {v : Fin n} (hv : s.1.visit v = true) : v ≠ p.1 := by
      rintro rfl
      have := hmax p.1 hv
      omega
    have hsame {v : Fin n} (hv : s.1.visit v = true) :
        Function.update s.1.answer p.1 (s.1.answer u + p.2) v = s.1.answer v :=
      Function.update_of_ne (hne hv) _ _
    have hle : Function.update s.1.answer p.1 (s.1.answer u + p.2) ≤ s.1.answer :=
      update_le_self_iff.2 hlt.le
    have hlow := h.sound.le_inf p.1
    have hrelaxed := relaxed_cons h.relaxed hle (fun v hv => hsame hv) (Function.update_self ..).le
    refine ⟨⟨h.graph, h.sound.relax (h.reached u hu) hp hlt, fun v hv hinf => ?_, fun e he => ?_,
      fun v hv => ?_, hrelaxed, fun v hv e he => ?_⟩, rfl, fun v hv => hsame hv⟩
    · refine PriorityQueue.mem_push.2 ?_
      simp only at hinf ⊢
      by_cases hvp : v = p.1
      · left
        rw [hvp, Function.update_self]
      · right
        rw [Function.update_of_ne hvp] at hinf ⊢
        exact h.queued v hv hinf
    · rcases PriorityQueue.mem_push.1 he with rfl | hold
      · exact ⟨(Function.update_self ..).le, by simp only; omega⟩
      · obtain ⟨hentry, hlt'⟩ := h.entry e hold
        exact ⟨(hle e.node).trans hentry, hlt'⟩
    · simp only [hsame hv]
      exact h.reached v hv
    · simp only [hsame hv]
      rcases PriorityQueue.mem_push.1 he with rfl | hold
      · have := hmax v hv
        simp only
        omega
      · exact h.below v hv e hold
  · have hrelaxed := relaxed_cons h.relaxed le_rfl (fun _ _ => rfl) (Int.not_lt.1 hlt)
    exact ⟨⟨h.graph, h.sound, h.queued, h.entry, h.reached, hrelaxed, h.below⟩, rfl,
      fun _ _ => rfl⟩

/-- The edges of the vertex that is visited, one after the other. -/
theorem Invariant.relaxEdges {edges done : List (Fin n × ℤ)}
    (h : Invariant g start (Function.update g.graph u done) s) (hu : s.1.visit u = true)
    (hmax : ∀ v, s.1.visit v = true → s.1.answer v ≤ s.1.answer u)
    (hedges : ∀ p ∈ edges, p ∈ g.graph u ∧ 0 ≤ p.2) :
    Invariant g start (Function.update g.graph u (edges.reverse ++ done))
        (edges.foldl (Dijkstra.relaxEdge pq u) s) ∧
      (edges.foldl (Dijkstra.relaxEdge pq u) s).1.visit = s.1.visit := by
  induction edges generalizing s done with
  | nil => exact ⟨h, rfl⟩
  | cons p edges ih =>
    obtain ⟨hp, hw⟩ := hedges p List.mem_cons_self
    obtain ⟨hinv, hvisit, hanswer⟩ := h.relaxEdge hu hmax hp hw
    have hmax' : ∀ v, (Dijkstra.relaxEdge pq u s p).1.visit v = true →
        (Dijkstra.relaxEdge pq u s p).1.answer v ≤ (Dijkstra.relaxEdge pq u s p).1.answer u := by
      intro v hv
      rw [hvisit] at hv
      rw [hanswer v hv, hanswer u hu]
      exact hmax v hv
    obtain ⟨hend, hvisit'⟩ := ih hinv (by rwa [hvisit]) hmax'
      fun q hq => hedges q (List.mem_cons_of_mem p hq)
    rw [List.reverse_cons, List.append_assoc, List.singleton_append, List.foldl_cons]
    exact ⟨hend, hvisit'.trans hvisit⟩

/-- Visiting the vertex of the entry that is removed. -/
theorem Invariant.visitNode {top : Node n} {q : pq.Queue}
    (hweights : ∀ u, ∀ p ∈ g.graph u, 0 ≤ p.2) (h : Invariant g start g.graph s)
    (hpop : pq.pop s.2 = some (top, q)) (hvisit : s.1.visit top.node = false) :
    Invariant g start g.graph (visitNode pq top.node (s.1, q)) ∧
      (Dijkstra.visitNode pq top.node (s.1, q)).1.visit =
        Function.update s.1.visit top.node true := by
  obtain ⟨hmark, hmax⟩ := h.mark hpop hvisit
  unfold Dijkstra.visitNode
  rw [h.graph]
  obtain ⟨hend, hvisit'⟩ := hmark.relaxEdges (Function.update_self ..) hmax
    fun p hp => ⟨hp, hweights top.node p hp⟩
  refine ⟨⟨hend.graph, hend.sound, hend.queued, hend.entry, hend.reached, fun v hv p hp => ?_,
    hend.below⟩, hvisit'⟩
  refine hend.relaxed v hv p ?_
  by_cases hvt : v = top.node
  · subst hvt
    simpa using hp
  · rwa [Function.update_of_ne hvt]

/-! ## Termination -/

/-- The entries of the queue, and the edges of the vertices that have not been visited. -/
def potential (g : Graph n) (s : Dijkstra n × pq.Queue) : ℕ :=
  (pq.elems s.2).card + ∑ v, if s.1.visit v then 0 else (g.graph v).length

theorem card_relaxEdges_le (edges : List (Fin n × ℤ)) (s : Dijkstra n × pq.Queue) :
    (pq.elems (edges.foldl (relaxEdge pq u) s).2).card ≤ (pq.elems s.2).card + edges.length := by
  induction edges generalizing s with
  | nil => exact le_rfl
  | cons p edges ih =>
    refine (ih (relaxEdge pq u s p)).trans ?_
    have hone : (pq.elems (relaxEdge pq u s p).2).card ≤ (pq.elems s.2).card + 1 := by
      unfold relaxEdge
      split_ifs
      · exact (congrArg Multiset.card (pq.elems_push ..)).le.trans (Multiset.card_cons ..).le
      · exact Nat.le_succ _
    rw [List.length_cons]
    omega

/-- Marking a vertex takes its edges away. -/
theorem sum_unvisited (visit : Fin n → Bool) (hvisit : visit u = false) :
    (∑ v, if Function.update visit u true v then 0 else (g.graph v).length) + (g.graph u).length =
      ∑ v, if visit v then 0 else (g.graph v).length := by
  rw [← Finset.add_sum_erase _ _ (Finset.mem_univ u),
    ← Finset.add_sum_erase Finset.univ (fun v => if visit v then 0 else (g.graph v).length)
      (Finset.mem_univ u)]
  have hrest : ∀ v ∈ Finset.univ.erase u,
      (if Function.update visit u true v then 0 else (g.graph v).length) =
        if visit v then 0 else (g.graph v).length := by
    intro v hv
    rw [Function.update_of_ne (Finset.ne_of_mem_erase hv)]
  rw [Finset.sum_congr rfl hrest]
  simp [hvisit]
  omega

/-- When the queue is empty, no edge can lower an entry. -/
theorem Invariant.settled (h : Invariant g start g.graph s) (hempty : pq.elems s.2 = 0) :
    Settled g.Edge int32Max s.1.answer := by
  intro u v w hedge hu
  refine h.relaxed u ?_ (v, w) hedge
  by_contra hvisit
  have hmem := h.queued u (by simpa using hvisit) hu
  rw [hempty] at hmem
  exact Multiset.notMem_zero _ hmem

/-- One iteration of the loop. -/
theorem step_spec (hweights : ∀ u, ∀ p ∈ g.graph u, 0 ≤ p.2)
    (h : Invariant g start g.graph s) :
    (∃ d, step pq s = .ok (.inr d) ∧ Sound g.Edge start int32Max d.answer ∧
      Settled g.Edge int32Max d.answer) ∨
      ∃ s', step pq s = .ok (.inl s') ∧ potential g s' < potential g s ∧
        Invariant g start g.graph s' := by
  unfold step
  cases hpop : pq.pop s.2 with
  | none => exact .inl ⟨s.1, rfl, h.sound, h.settled (pq.elems_of_pop_none _ hpop)⟩
  | some r =>
    obtain ⟨top, q⟩ := r
    have hcard : (pq.elems s.2).card = (pq.elems q).card + 1 := by
      rw [pq.elems_of_pop _ _ _ hpop, Multiset.card_cons]
    -- with a vertex that has been visited the queue gets shorter
    right
    cases hvisit : s.1.visit top.node with
    | true =>
      refine ⟨(s.1, q), by simp only [hvisit, if_true], ?_, h.skip hpop hvisit⟩
      simp only [potential]
      omega
    | false =>
      -- otherwise its edges are relaxed, and there is one vertex less to visit
      obtain ⟨hinv, hvisit'⟩ := h.visitNode hweights hpop hvisit
      refine ⟨visitNode pq top.node (s.1, q), by simp [hvisit], ?_, hinv⟩
      have hpush := card_relaxEdges_le (u := top.node) (s.1.graph top.node)
        ({ s.1 with visit := Function.update s.1.visit top.node true }, q)
      rw [h.graph] at hpush
      have hsum := sum_unvisited (g := g) s.1.visit hvisit
      unfold potential
      rw [hvisit', visitNode, h.graph]
      simp only at hpush ⊢
      omega

/-! ## The result -/

/-- `reset` makes an object as new. -/
theorem reset_eq (d : Dijkstra n) : d.reset = create ⟨d.graph⟩ := by
  have hloop (l : List (Fin n)) (d : Dijkstra n) :
      l.foldl (fun d i => { d with
        answer := Function.update d.answer i int32Max
        visit := Function.update d.visit i false }) d =
      ⟨fun v => if v ∈ l then int32Max else d.answer v,
        fun v => if v ∈ l then false else d.visit v, d.graph⟩ := by
    induction l generalizing d with
    | nil => simp
    | cons i l ih =>
      rw [List.foldl_cons, ih]
      congr 1
      all_goals
        funext v
        by_cases hvl : v ∈ l
        · simp [hvl]
        · by_cases hvi : v = i <;> simp [hvl, hvi]
  rw [reset, hloop]
  simp [create]

/-- A fresh object, or one after `reset`. -/
theorem eq_create {d : Dijkstra n}
    (hd : d = create g ∨ ∃ d₀ : Dijkstra n, d₀.graph = g.graph ∧ d = d₀.reset) : d = create g := by
  rcases hd with hd | ⟨d₀, hgraph, hd⟩
  · exact hd
  · rw [hd, reset_eq, hgraph]

/-- `dijkstra` ends with a sound and settled table. -/
theorem dijkstra_settled (pq : Queues n) (hweights : ∀ u, ∀ p ∈ g.graph u, 0 ≤ p.2) (start : Fin n)
    {fuel : ℕ} (hfuel : (∑ v, (g.graph v).length) + 1 < fuel) :
    ∃ d', (create g).dijkstra pq fuel start = .ok d' ∧ Sound g.Edge start int32Max d'.answer ∧
      Settled g.Edge int32Max d'.answer := by
  refine iterate_spec (I := fun k s => Invariant g start g.graph s ∧ potential g s = k)
    (fun k s hs => ?_) ⟨initial_invariant pq g start, rfl⟩ ?_
  · rcases step_spec hweights hs.1 with hend | ⟨s', hstep, hlt, hinv⟩
    · exact .inl hend
    · exact .inr ⟨s', potential g s', hstep, hs.2 ▸ hlt, hinv, rfl⟩
  · simp only [potential, create, pq.elems_push, pq.elems_empty, Multiset.cons_zero,
      Multiset.card_singleton, Bool.false_eq_true, if_false]
    omega

/-- On a fresh object, or after `reset`, `dijkstra` ends for every tie-breaking of the priority
queue, and `answer` holds the lengths of shortest paths, cut off at `INT32_MAX`. -/
theorem dijkstra_distances (pq : Queues n) (g : Graph n)
    (hweights : ∀ u, ∀ p ∈ g.graph u, 0 ≤ p.2 ∧ p.2 ≤ int32Max) (start : Fin n) (d : Dijkstra n)
    (hd : d = create g ∨ ∃ d₀ : Dijkstra n, d₀.graph = g.graph ∧ d = d₀.reset) (fuel : ℕ)
    (hfuel : (∑ v, (g.graph v).length) + 1 < fuel) :
    ∃ d', d.dijkstra pq fuel start = .ok d' ∧
      ∀ v, (∃ x, IsLeast {x | Walk g.Edge start v x} x ∧ d'.answer v = min int32Max x) ∨
        (∀ x, ¬ Walk g.Edge start v x) ∧ d'.answer v = int32Max := by
  have hnonneg : ∀ u, ∀ p ∈ g.graph u, 0 ≤ p.2 := fun u p hp => (hweights u p hp).1
  obtain ⟨d', hrun, hsound, hsettled⟩ := dijkstra_settled pq hnonneg start hfuel
  rw [eq_create hd]
  exact ⟨d', hrun, hsettled.eq_min (fun u v w hedge => hnonneg u (v, w) hedge) hsound⟩

/-- The length of the shortest path to the last vertex is `2 ^ 31`, which is above `INT32_MAX`. -/
theorem dijkstra_distances_saturated :
    ∃ d', (create (⟨![[(1, 2 ^ 31 - 1)], [(2, 1)], []]⟩ : Graph 3)).dijkstra
        (PriorityQueue.sorted Node.weight) 4 0 = .ok d' ∧ d'.answer 2 = int32Max ∧
      ∀ v, (∃ x, IsLeast {x | Walk (Edge ⟨![[(1, 2 ^ 31 - 1)], [(2, 1)], []]⟩) 0 v x} x ∧
          d'.answer v = min int32Max x) ∨
        (∀ x, ¬ Walk (Edge ⟨![[(1, 2 ^ 31 - 1)], [(2, 1)], []]⟩) 0 v x) ∧
          d'.answer v = int32Max := by
  obtain ⟨d', hrun, hanswer⟩ := dijkstra_distances (PriorityQueue.sorted Node.weight)
    ⟨![[(1, 2 ^ 31 - 1)], [(2, 1)], []]⟩ (by decide) 0 _ (.inl rfl) 4 (by decide)
  refine ⟨d', hrun, ?_, hanswer⟩
  rw [← Except.ok.inj hrun]
  rfl

end Dijkstra

end CppLearn

import CppLearn.Lib.BoundedLoop
import CppLearn.Lib.TopologicalOrder
import Mathlib.Algebra.BigOperators.Group.Finset.Basic
import Mathlib.Algebra.Order.BigOperators.Group.Finset
import Mathlib.Algebra.Order.Ring.Int
import Mathlib.Data.Fin.VecNotation
import Mathlib.Data.Fintype.BigOperators

/-!
# The topological sort of `topological_sort.h`

`TopoLogicalSort` is called with the adjacency lists of a graph and with the number of edges into
each vertex. It removes vertices without edges into them, one after the other, and counts down the
numbers for their targets. An edge can occur several times, and it can lead from a vertex to itself.

While the loop runs, the number of a vertex is the number of edges into it from vertices that are
not in `answer` yet, and the vertices of `answer` and of the queue are those with number zero.

`TopoLogicalSort.pending` counts the edges into a vertex from vertices that are not in `answer` yet.
The vertices that are listed, their order and the result are in `TopoLogicalSort.sort_spec`.
-/

namespace CppLearn.TopoLogicalSort

open BoundedLoop TopologicalOrder Relation

variable {n : ℕ}

/-- The local variables `in` and `q` of `operator()`, and the field `answer`. -/
structure State (n : ℕ) where
  inDegree : Fin n → ℤ
  queue : List (Fin n)
  answer : List (Fin n)

/-- The body of the loop over the edges of a vertex: `if (--in[v] == 0) q.push(v)`. -/
def visitEdge (s : (Fin n → ℤ) × List (Fin n)) (v : Fin n) : (Fin n → ℤ) × List (Fin n) :=
  let inDegree := Function.update s.1 v (s.1 v - 1)
  if inDegree v = 0 then (inDegree, s.2 ++ [v]) else (inDegree, s.2)

/-- One iteration of the `while` loop. It ends with `answer` when the queue is empty. -/
def step (graph : Fin n → List (Fin n)) (s : State n) :
    Except Fault (State n ⊕ List (Fin n)) :=
  match s.queue with
  | [] => .ok (.inr s.answer)
  | u :: queue =>
    let answer := s.answer ++ [u]
    let (inDegree, queue) := (graph u).foldl visitEdge (s.inDegree, queue)
    .ok (.inl { inDegree, queue, answer })

/-- The first loop: the vertices without an edge into them. -/
def sources (inDegree : Fin n → ℤ) : List (Fin n) :=
  (List.finRange n).filter fun node => inDegree node = 0

/-- `operator()` on an object with the given `answer`, for at most `fuel` iterations of its loop:
the result, and the new `answer`. -/
def sort (answer : List (Fin n)) (inDegree : Fin n → ℤ) (graph : Fin n → List (Fin n))
    (fuel : ℕ) : Except Fault (Bool × List (Fin n)) := do
  let answer ← iterate (fun _ => .diverged) (step graph) fuel
    { inDegree, queue := sources inDegree, answer }
  return (answer.length == n, answer)

/-! ## Edges -/

/-- There is an edge from `u` to `v`. -/
def Edge (graph : Fin n → List (Fin n)) (u v : Fin n) : Prop := v ∈ graph u

/-- The number of edges into `v` from vertices that are not listed. -/
def pending (graph : Fin n → List (Fin n)) (answer : List (Fin n)) (v : Fin n) : ℕ :=
  ∑ u with u ∉ answer, (graph u).count v

variable {graph : Fin n → List (Fin n)} {answer : List (Fin n)} {u v : Fin n}

theorem pending_eq_zero : pending graph answer v = 0 ↔ ∀ u, Edge graph u v → u ∈ answer := by
  unfold pending
  rw [Finset.sum_eq_zero_iff]
  refine forall_congr' fun u => ?_
  rw [Finset.mem_filter_univ, List.count_eq_zero, Edge]
  tauto

/-- Listing a vertex takes its edges out of the count. -/
theorem pending_append (hu : u ∉ answer) (v : Fin n) :
    pending graph (answer ++ [u]) v + (graph u).count v = pending graph answer v := by
  have hset : ({x | x ∉ answer ++ [u]} : Finset (Fin n)) =
      ({x | x ∉ answer} : Finset (Fin n)).erase u := by
    ext x
    simp [and_comm]
  rw [pending, hset]
  exact Finset.sum_erase_add _ _ ((Finset.mem_filter_univ u).2 hu)

/-! ## The loops -/

/-- The loop over the edges of a vertex: the counts go down, and the vertices whose count meets zero
are appended to the queue. -/
theorem foldl_visitEdge (edges : List (Fin n)) (inDegree : Fin n → ℤ) (queue : List (Fin n)) :
    ∃ new, edges.foldl visitEdge (inDegree, queue) =
        (fun v => inDegree v - edges.count v, queue ++ new) ∧ new.Nodup ∧
      ∀ v, v ∈ new ↔ 0 < inDegree v ∧ inDegree v ≤ edges.count v := by
  induction edges generalizing inDegree queue with
  | nil =>
    refine ⟨[], by simp, List.nodup_nil, fun v => ?_⟩
    rw [List.count_nil, Nat.cast_zero]
    simp
  | cons x edges ih =>
    set inDegree' : Fin n → ℤ := Function.update inDegree x (inDegree x - 1) with hin
    have hself : inDegree' x = inDegree x - 1 := Function.update_self ..
    have hother (v : Fin n) (hv : v ≠ x) : inDegree' v = inDegree v := Function.update_of_ne hv ..
    have hcount : (fun v => inDegree' v - edges.count v) =
        fun v => inDegree v - ((x :: edges).count v : ℤ) := by
      funext v
      by_cases hv : v = x
      · rw [hv, hself, List.count_cons_self]
        omega
      · rw [hother v hv, List.count_cons_of_ne (Ne.symm hv)]
    -- what the rest of the edges appends, with `x` before it if its count has met zero
    by_cases hzero : inDegree' x = 0
    · obtain ⟨new, hfold, hnodup, hmem⟩ := ih inDegree' (queue ++ [x])
      have hx : x ∉ new := by
        rw [hmem x]
        omega
      refine ⟨x :: new, ?_, List.nodup_cons.2 ⟨hx, hnodup⟩, fun v => ?_⟩
      · rw [List.foldl_cons, visitEdge, if_pos hzero, hfold, hcount, List.append_assoc]
        rfl
      · by_cases hv : v = x
        · subst hv
          rw [List.count_cons_self]
          simp only [List.mem_cons, true_or, true_iff]
          omega
        · rw [List.mem_cons, or_iff_right hv, hmem v, hother v hv,
            List.count_cons_of_ne (Ne.symm hv)]
    · obtain ⟨new, hfold, hnodup, hmem⟩ := ih inDegree' queue
      refine ⟨new, ?_, hnodup, fun v => ?_⟩
      · rw [List.foldl_cons, visitEdge, if_neg hzero, hfold, hcount]
      · rw [hmem v]
        by_cases hv : v = x
        · subst hv
          rw [List.count_cons_self]
          omega
        · rw [hother v hv, List.count_cons_of_ne (Ne.symm hv)]

/-- The invariant of the `while` loop. -/
structure Invariant (graph : Fin n → List (Fin n)) (s : State n) : Prop where
  ordered : Ordered (Edge graph) s.answer
  count : ∀ v, s.inDegree v = pending graph s.answer v
  nodup : (s.answer ++ s.queue).Nodup
  mem_iff : ∀ v, v ∈ s.answer ++ s.queue ↔ s.inDegree v = 0

theorem initial_invariant (graph : Fin n → List (Fin n)) :
    Invariant graph ⟨fun v => pending graph [] v, sources fun v => pending graph [] v, []⟩ where
  ordered := .nil
  count _ := rfl
  nodup := (List.nodup_finRange n).filter _
  mem_iff v := by simp [sources]

/-- One iteration of the loop. -/
theorem step_invariant {s : State n} {queue : List (Fin n)} (h : Invariant graph s)
    (hqueue : s.queue = u :: queue) :
    ∃ s', step graph s = .ok (.inl s') ∧ s'.answer = s.answer ++ [u] ∧ Invariant graph s' := by
  obtain ⟨new, hfold, hnew, hmem⟩ := foldl_visitEdge (graph u) s.inDegree queue
  have hlist : s.answer ++ s.queue = s.answer ++ [u] ++ queue := by
    rw [hqueue, List.append_assoc, List.singleton_append]
  have hnodup := h.nodup
  rw [hlist] at hnodup
  have hu : u ∉ s.answer := by
    intro hu
    have := (List.nodup_append.1 (List.nodup_append.1 hnodup).1).2.2 u hu u
    simp at this
  -- the next vertex has no predecessor that is not listed
  have hpred : ∀ x, Edge graph x u → x ∈ s.answer := by
    have hzero := (h.mem_iff u).1 (by rw [hqueue]; simp)
    rw [h.count u] at hzero
    exact pending_eq_zero.1 (by exact_mod_cast hzero)
  have hcount (v : Fin n) :
      s.inDegree v - (graph u).count v = pending graph (s.answer ++ [u]) v := by
    rw [h.count v, ← pending_append hu v]
    omega
  refine ⟨⟨fun v => s.inDegree v - (graph u).count v, queue ++ new, s.answer ++ [u]⟩, ?_, rfl,
    h.ordered.append hu hpred, hcount, ?_, fun v => ?_⟩
  · simp only [step, hqueue, hfold]
  · rw [← List.append_assoc]
    refine List.nodup_append.2 ⟨hnodup, hnew, ?_⟩
    rintro x hx _ hx' rfl
    have hzero := (h.mem_iff x).1 (by rwa [hlist])
    have := (hmem x).1 hx'
    omega
  · have hold := h.mem_iff v
    have hge := hcount v
    have hpos := h.count v
    rw [hlist] at hold
    rw [← List.append_assoc, List.mem_append, hold, hmem v]
    simp only
    omega

/-- When the queue is empty, no more vertex can be listed. -/
theorem Invariant.full {s : State n} (h : Invariant graph s) (hqueue : s.queue = []) (v : Fin n)
    (hpred : ∀ u, Edge graph u v → u ∈ s.answer) : v ∈ s.answer := by
  have hmem := h.mem_iff v
  rw [hqueue, List.append_nil] at hmem
  rw [hmem, h.count v, pending_eq_zero.2 hpred]
  rfl

/-- The loop returns after at most one iteration for each vertex. -/
theorem iterate_step (graph : Fin n → List (Fin n)) {fuel : ℕ} (hfuel : n < fuel) {s : State n}
    (h : Invariant graph s) (hanswer : s.answer = []) :
    ∃ answer, iterate (fun _ => .diverged) (step graph) fuel s = .ok answer ∧
      Ordered (Edge graph) answer ∧ ∀ v, (∀ u, Edge graph u v → u ∈ answer) → v ∈ answer := by
  refine iterate_spec (I := fun k s => Invariant graph s ∧ s.answer.length + k = n)
    (fun k s hI => ?_) ⟨h, by simp [hanswer]⟩ hfuel
  obtain ⟨hinv, hlen⟩ := hI
  cases hqueue : s.queue with
  | nil =>
    exact .inl ⟨s.answer, by simp only [step, hqueue], hinv.ordered, hinv.full hqueue⟩
  | cons u queue =>
    obtain ⟨s', hstep, hanswer', hinv'⟩ := step_invariant hinv hqueue
    have hle : s'.answer.length ≤ n := by simpa using hinv'.ordered.nodup.length_le_card
    have hlen' : s'.answer.length = s.answer.length + 1 := by simp [hanswer']
    exact .inr ⟨s', k - 1, hstep, by omega, hinv', by omega⟩

/-- `operator()` on a new object, called with the numbers of edges into the vertices, returns; it
lists the vertices that cannot be reached from a cycle, each one after its predecessors, and returns
`true` exactly when there is no cycle, in which case it lists all vertices. -/
theorem sort_spec (graph : Fin n → List (Fin n)) (inDegree : Fin n → ℤ)
    (hin : ∀ v, inDegree v = ∑ u, (graph u).count v) (fuel : ℕ) (hfuel : n < fuel) :
    ∃ result answer, sort [] inDegree graph fuel = .ok (result, answer) ∧ answer.Nodup ∧
      (∀ v, v ∈ answer ↔ ¬ ∃ c, TransGen (Edge graph) c c ∧ ReflTransGen (Edge graph) c v) ∧
      (∀ u v, Edge graph u v → u ∈ answer → v ∈ answer → answer.idxOf u < answer.idxOf v) ∧
      (result = true ↔ ∀ c, ¬ TransGen (Edge graph) c c) ∧
      (result = true → ∀ v, v ∈ answer) := by
  obtain rfl : inDegree = fun v => (pending graph [] v : ℤ) := by
    funext v
    rw [hin v]
    simp [pending]
  obtain ⟨answer, hloop, hordered, hfull⟩ :=
    iterate_step graph hfuel (initial_invariant graph) rfl
  have hmem (v : Fin n) := hordered.mem_iff (v := v) hfull
  -- the list is as long as there are vertices exactly when all of them are there
  have hall : answer.length = n ↔ ∀ v, v ∈ answer := by
    have hcard := List.toFinset_card_of_nodup hordered.nodup
    rw [← hcard]
    have huniv := Finset.card_eq_iff_eq_univ answer.toFinset
    rw [Fintype.card_fin] at huniv
    rw [huniv, Finset.eq_univ_iff_forall]
    simp
  refine ⟨answer.length == n, answer, ?_, hordered.nodup, hmem,
    fun u v hedge _ hv => hordered.idxOf_lt hedge hv, ?_, fun h => hall.1 (by simpa using h)⟩
  · unfold sort
    rw [hloop]
    rfl
  · rw [beq_iff_eq, hall]
    constructor
    · exact fun h c hcycle => hordered.not_transGen (h c) hcycle
    · rintro h v
      rw [hmem v]
      rintro ⟨c, hcycle, -⟩
      exact h c hcycle

/-- A graph with an edge that occurs twice, a vertex with an edge to itself and a vertex behind it:
the last two are not listed. -/
theorem sort_spec_four :
    sort [] ![0, 2, 1, 1] ![[1, 1], [], [2, 3], []] 5 = .ok (false, [0, 1]) ∧
      ∃ c, TransGen (Edge (![[1, 1], [], [2, 3], []] : Fin 4 → List (Fin 4))) c c := by
  have hrun : sort [] ![0, 2, 1, 1] ![[1, 1], [], [2, 3], []] 5 = .ok (false, [0, 1]) := by
    decide
  obtain ⟨result, answer, hsort, -, -, -, hresult, -⟩ :=
    sort_spec ![[1, 1], [], [2, 3], []] ![0, 2, 1, 1] (by decide) 5 (by decide)
  obtain ⟨rfl, -⟩ := Prod.mk.inj (Except.ok.inj (hrun.symm.trans hsort))
  refine ⟨hrun, ?_⟩
  by_contra hno
  exact Bool.false_ne_true (hresult.2 fun c hc => hno ⟨c, hc⟩)

end CppLearn.TopoLogicalSort

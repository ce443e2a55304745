import CppLearn.Lib.BoundedLoop
import Mathlib.Algebra.Order.Group.Abs
import Mathlib.Algebra.Order.Ring.Int
import Mathlib.Data.Fintype.Card
import Mathlib.Algebra.BigOperators.Group.Finset.Basic

/-!
# The shortest path algorithms of `bellman_ford.h`

`BellmanFord` and `SPFA` compute distances from a start node in a graph given by adjacency lists,
and detect cycles of negative weight. The graph is a function from vertices to lists of pairs of a
target and a weight, so that all targets are vertices of the graph. Both algorithms work on a
vector `answer` of type `int64_t`, in which `INT32_MAX` stands for a vertex that has not been
reached.

A `Graph` is given by its adjacency lists; `Graph.bellmanFord` and `Graph.spfa` are the two call
operators on a fresh object.
-/

namespace CppLearn

open BoundedLoop

/-- Adjacency lists: `(v, w) ∈ graph u` is an edge from `u` to `v` of weight `w`. -/
structure Graph (n : ℕ) where
  graph : Fin n → List (Fin n × ℤ)

namespace Graph

variable {n : ℕ}

/-- `INT32_MAX`. -/
def int32Max : ℤ := 2 ^ 31 - 1

/-- The vector `answer` of a fresh object, after `answer[start_node] = 0`. -/
def initialAnswer (start : Fin n) : Fin n → ℤ := Function.update (fun _ => int32Max) start 0

/-! ## Bellman-Ford -/

/-- The body of the innermost loop of `BellmanFord`, on `answer` and `flag`. -/
def relaxEdge (u : Fin n) (s : (Fin n → ℤ) × Bool) (p : Fin n × ℤ) : (Fin n → ℤ) × Bool :=
  if s.1 p.1 > s.1 u + p.2 then (Function.update s.1 p.1 (s.1 u + p.2), true) else s

/-- The loop over the edges of `u`, unless `u` has not been reached. -/
def relaxVertex (g : Graph n) (s : (Fin n → ℤ) × Bool) (u : Fin n) : (Fin n → ℤ) × Bool :=
  if s.1 u = int32Max then s else (g.graph u).foldl (relaxEdge u) s

/-- One round over all vertices: the new `answer`, and whether an entry was lowered. -/
def relaxRound (g : Graph n) (answer : Fin n → ℤ) : (Fin n → ℤ) × Bool :=
  (List.finRange n).foldl g.relaxVertex (answer, false)

/-- The loop over the rounds, for the remaining `k` rounds: `flag` and `answer` at its end. -/
def relaxRounds (g : Graph n) : ℕ → Bool → (Fin n → ℤ) → Bool × (Fin n → ℤ)
  | 0, flag, answer => (flag, answer)
  | k + 1, _, answer =>
    let (answer, flag) := g.relaxRound answer
    -- a round without a change ends the loop
    if !flag then (flag, answer) else g.relaxRounds k flag answer

/-- `BellmanFord::operator()` on a fresh object: the result and `answer`. The variable `flag` is
assigned in the first round, which takes place since there is a start node. -/
def bellmanFord (g : Graph n) (start : Fin n) : Bool × (Fin n → ℤ) :=
  g.relaxRounds n false (initialAnswer start)

/-! ## SPFA -/

/-- The local variables of `SPFA::operator()`, and `answer`. -/
structure SpfaState (n : ℕ) where
  answer : Fin n → ℤ
  visit : Fin n → Bool
  count : Fin n → ℕ
  queue : List (Fin n)

/-- Lower the entry of `v` to the distance through `u`, and count the edges of the path. -/
def SpfaState.lower (s : SpfaState n) (u v : Fin n) (w : ℤ) : SpfaState n :=
  { s with
    answer := Function.update s.answer v (s.answer u + w)
    count := Function.update s.count v (s.count u + 1) }

/-- Append `v` to the queue, unless it is there. -/
def SpfaState.enqueue (s : SpfaState n) (v : Fin n) : SpfaState n :=
  if !s.visit v then { s with queue := s.queue ++ [v], visit := Function.update s.visit v true }
  else s

/-- The loop over the edges of `u`. It ends with `.inr` when the function returns `false`. -/
def spfaEdges (u : Fin n) : List (Fin n × ℤ) → SpfaState n → SpfaState n ⊕ (Fin n → ℤ)
  | [], s => .inl s
  | (v, w) :: edges, s =>
    if s.answer v > s.answer u + w then
      let s := s.lower u v w
      -- a path with `n` edges visits a vertex twice
      if s.count v ≥ n then .inr s.answer
      else spfaEdges u edges (s.enqueue v)
    else spfaEdges u edges s

/-- One iteration of the loop of `SPFA`: the result is returned together with `answer`. -/
def spfaStep (g : Graph n) (s : SpfaState n) :
    Except Fault (SpfaState n ⊕ (Bool × (Fin n → ℤ))) :=
  match s.queue with
  | [] => .ok (.inr (true, s.answer))
  | u :: queue =>
    -- `visit[u] = false` comes before the edges of `u`
    match spfaEdges u (g.graph u) { s with queue, visit := Function.update s.visit u false } with
    | .inl s => .ok (.inl s)
    | .inr answer => .ok (.inr (false, answer))

/-- The state in which the loop of `SPFA` starts. -/
def spfaInitial (start : Fin n) : SpfaState n where
  answer := initialAnswer start
  visit := Function.update (fun _ => false) start true
  count := fun _ => 0
  queue := [start]

/-- `SPFA::operator()` on a fresh object, for at most `fuel` iterations of its loop: the result and
`answer`. -/
def spfa (g : Graph n) (fuel : ℕ) (start : Fin n) : Except Fault (Bool × (Fin n → ℤ)) :=
  iterate (fun _ => .diverged) g.spfaStep fuel (spfaInitial start)

/-! ## Weights -/

/-- The sum of the absolute weights of the edges from `u`. -/
def outWeight (g : Graph n) (u : Fin n) : ℤ := ((g.graph u).map fun p => |p.2|).sum

/-- The sum of the absolute weights of all edges. -/
def totalWeight (g : Graph n) : ℤ := ∑ u, g.outWeight u

end Graph

end CppLearn

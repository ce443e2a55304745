import CppLearn.Lib.CheckedVector
import CppLearn.Lib.Signed

/-!
# The strong components of `tarjan.h`

The block after the class, whose `operator()` is empty. As it stands the block does not compile: it
is outside every function, and `N`, `h`, `e` and `min` are not declared. The size `N` of the arrays
is a parameter here, and so are the edges, as the targets of the edges of a vertex in the order of
its list.

The arrays are global, so that they are zero before the first call, and an access outside an array
is a fault. The entries of `dfn` and of `in_stack` tell apart zero from other numbers, and the list
of the edges ends with the number zero, so that the vertices are numbers from `1` to `N - 1`
(`IsVertex`).

The depth of the recursion is bounded by `fuel`. The function is called for vertices that have not
been visited.
-/

namespace CppLearn.Tarjan

open BoundedLoop CheckedVector Signed

/-- The vertices are the positive numbers of type `int` that are less than `N`. -/
def IsVertex (N : ℕ) (v : ℤ) : Prop := 0 < v ∧ v < N ∧ v < 2 ^ 31

/-- The global variables. -/
structure Globals where
  dfn : List ℤ
  low : List ℤ
  dfncnt : ℤ
  s : List ℤ
  inStack : List ℤ
  tp : ℤ
  scc : List ℤ
  sc : ℤ
  sz : List ℤ
  deriving DecidableEq, Repr

namespace Globals

/-- Before the first call. -/
def create (N : ℕ) : Globals where
  dfn := List.replicate N 0
  low := List.replicate N 0
  dfncnt := 0
  s := List.replicate N 0
  inStack := List.replicate N 0
  tp := 0
  scc := List.replicate N 0
  sc := 0
  sz := List.replicate N 0

/-- The first line of `tarjan`. -/
def enter (g : Globals) (u : ℤ) : Except Fault Globals := do
  let dfncnt := narrow 32 (g.dfncnt + 1)
  let dfn ← write g.dfn u dfncnt
  let low ← write g.low u dfncnt
  let tp := narrow 32 (g.tp + 1)
  let s ← write g.s tp u
  let inStack ← write g.inStack u 1
  .ok { g with dfn, low, dfncnt, s, inStack, tp }

/-- `low[u] = min(low[u], x)`. -/
def lower (g : Globals) (u x : ℤ) : Except Fault Globals := do
  let old ← read g.low u
  let low ← write g.low u (min old x)
  .ok { g with low }

/-- The body of the `while` loop, which is also written behind the loop. -/
def pop (g : Globals) : Except Fault Globals := do
  let v ← read g.s g.tp
  let scc ← write g.scc v g.sc
  let size ← read g.sz g.sc
  let sz ← write g.sz g.sc (narrow 32 (size + 1))
  let inStack ← write g.inStack v 0
  .ok { g with scc, sz, inStack, tp := narrow 32 (g.tp - 1) }

/-- The condition of the `while` loop. -/
def aboveVertex (u : ℤ) (g : Globals) : Except Fault Bool := do
  let v ← read g.s g.tp
  .ok (v ≠ u)

/-- The numbers above `u` are removed from `s`, and then `u`. Each iteration makes `tp` smaller, and
`s` has no negative positions. -/
def popUntil (g : Globals) (u : ℤ) : Except Fault Globals := do
  let g ← whileLoop (fun _ => .diverged) (aboveVertex u) pop (g.tp.toNat + 2) g
  g.pop

end Globals

/-- The body of the loop over the edges, where `call` is `tarjan`. -/
def visitEdge (call : Globals → ℤ → Except Fault Globals) (u : ℤ) (g : Globals) (v : ℤ) :
    Except Fault Globals := do
  let number ← read g.dfn v
  if number = 0 then
    let g ← call g v
    let x ← read g.low v
    g.lower u x
  else
    let onStack ← read g.inStack v
    if onStack ≠ 0 then g.lower u number
    else .ok g

/-- `tarjan`. -/
def tarjan (edges : ℤ → List ℤ) : ℕ → Globals → ℤ → Except Fault Globals
  | 0, _, _ => .error .diverged
  | fuel + 1, g, u => do
    let g ← g.enter u
    let g ← (edges u).foldlM (visitEdge (tarjan edges fuel) u) g
    let number ← read g.dfn u
    let x ← read g.low u
    if number = x then Globals.popUntil { g with sc := narrow 32 (g.sc + 1) } u
    else .ok g

/-- `tarjan` is called for the vertices of the list that have not been visited. -/
def tarjanAll (edges : ℤ → List ℤ) (fuel : ℕ) (g : Globals) (roots : List ℤ) :
    Except Fault Globals :=
  roots.foldlM (fun g u => do
    let number ← read g.dfn u
    if number = 0 then tarjan edges fuel g u else .ok g) g

end CppLearn.Tarjan

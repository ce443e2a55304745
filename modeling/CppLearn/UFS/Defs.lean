import CppLearn.Lib.CheckedVector

/-!
# The disjoint sets of `UFS.h`

`UF` keeps a forest over `0, ..., n - 1` in `father_`, the sizes of the classes in `size_`, and the
number of classes in `count_`. `FindAndSet` calls itself; a recursion that visits more elements than
there are counts as divergence.

The constructor is `UF.create`; the operations are `UF.findAndSet`, `UF.unit` and `UF.findAndUnit`.
A `UFCall` is one call, and `UF.run` a sequence of them.
-/

namespace CppLearn

open BoundedLoop CheckedVector

/-- The fields of a `UF`. -/
structure UF where
  count : ℤ
  father : List ℕ
  size : List ℕ

namespace UF

/-- The constructor: `father_` is filled by `std::iota`. -/
def create (n : ℕ) : UF := ⟨n, List.range n, List.replicate n 1⟩

/-- The recursion of `FindAndSet`, down to depth `fuel`. -/
def findAndSetRec : ℕ → UF → ℕ → Except Fault (ℕ × UF)
  | 0, _, _ => .error .diverged
  | fuel + 1, s, v => do
    let f ← read s.father v
    if f = v then .ok (v, s)
    else
      let (root, s) ← findAndSetRec fuel s f
      -- the path is compressed on the way back
      let father ← write s.father v root
      .ok (root, { s with father })

/-- `FindAndSet`. -/
def findAndSet (s : UF) (v : ℕ) : Except Fault (ℕ × UF) := findAndSetRec (s.father.length + 1) s v

/-- `Unit`: hang the root of the smaller class below the other one. -/
def unit (s : UF) (x y : ℕ) : Except Fault UF := do
  let sizeX ← read s.size x
  let sizeY ← read s.size y
  -- `std::swap`, so that `x` is the root of the larger class
  let (x, y) := if sizeX < sizeY then (y, x) else (x, y)
  let father ← write s.father y x
  let size ← write s.size x ((← read s.size x) + (← read s.size y))
  .ok { count := s.count - 1, father, size }

/-- `FindAndUnit`. -/
def findAndUnit (s : UF) (x y : ℕ) : Except Fault (Bool × UF) := do
  let (a, s) ← s.findAndSet x
  let (b, s) ← s.findAndSet y
  if a ≠ b then
    let s ← s.unit a b
    .ok (true, s)
  else .ok (false, s)

end UF

/-- A call of one of the two public operations, with arguments in `[0, n)`. -/
inductive UFCall (n : ℕ) where
  | findAndSet (v : Fin n)
  | findAndUnit (x y : Fin n)

/-- Execute a sequence of calls. -/
def UF.run {n : ℕ} : UF → List (UFCall n) → Except Fault UF
  | s, [] => .ok s
  | s, .findAndSet v :: calls => do
    let (_, s) ← s.findAndSet v
    s.run calls
  | s, .findAndUnit x y :: calls => do
    let (_, s) ← s.findAndUnit x y
    s.run calls

end CppLearn

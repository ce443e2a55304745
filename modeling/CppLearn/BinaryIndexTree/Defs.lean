import CppLearn.Lib.CheckedVector
import CppLearn.Lib.Signed
import Mathlib.Algebra.Ring.Defs
import Mathlib.Data.Int.Bitwise
import Mathlib.Data.Int.Cast.Defs

/-!
# The binary index tree of `binary_index_tree.h`

`BinaryIndexTree<T>` keeps an array at positions `1` to `size_` through its differences: `diff_` is
a Fenwick tree over the differences `d i` of neighbouring elements, and `idiff_` one over the
products `i * d i`.

The value type is any commutative ring. Queries accumulate in an `int64_t`; the model takes the
conversion of a value to an integer as an argument, and adds up exactly. Positions are of type
`int64_t` and are exact too, except in `prefix_sum` and in the local function `__update` of
`range_update`, whose parameters are of type `int`: there a position is converted to 32 bits each
time it is assigned.

## Main definitions

* `BinaryIndexTree.create`, `BinaryIndexTree.init`: the constructor, and building from a vector;
* `BinaryIndexTree.update`, `BinaryIndexTree.rangeUpdate`: changes;
* `BinaryIndexTree.query`, `BinaryIndexTree.rangeSum`, `BinaryIndexTree.prefixSum`: queries;
* `TreeCall`, `BinaryIndexTree.run`: sequences of calls.
-/

namespace CppLearn

open BoundedLoop CheckedVector Signed

/-- The fields of a `BinaryIndexTree<T>`. -/
structure BinaryIndexTree (T : Type) where
  size : ℤ
  diff : List T
  idiff : List T
  deriving DecidableEq

namespace BinaryIndexTree

variable {T : Type}

/-- `__lowbit`: `i & -i`. -/
def lowbit (i : ℤ) : ℤ := Int.land i (-i)

variable [CommRing T]

/-- The constructor. -/
def create (n : ℕ) : BinaryIndexTree T := ⟨n, resize [] (n + 1) 0, resize [] (n + 1) 0⟩

/-- `diff_[i] += x` and `idiff_[i] += y`. -/
def addAt (s : BinaryIndexTree T) (i : ℤ) (x y : T) : Except Fault (BinaryIndexTree T) := do
  let diff ← write s.diff i ((← read s.diff i) + x)
  let idiff ← write s.idiff i ((← read s.idiff i) + y)
  .ok { s with diff, idiff }

/-! ## Building -/

/-- `(i == 1) ? vec[i - 1] : vec[i - 1] - vec[i - 2]`. -/
def difference (vec : List T) (i : ℤ) : Except Fault T := do
  if i = 1 then read vec (i - 1)
  else .ok ((← read vec (i - 1)) - (← read vec (i - 2)))

/-- The body of the loop of `init`: complete entry `i`, and pass it on. -/
def initStep (vec : List T) (i : ℤ) (s : BinaryIndexTree T) : Except Fault (BinaryIndexTree T) := do
  let d ← difference vec i
  let s ← s.addAt i d (i * d)
  -- the next entry that covers `i`; those behind the end are skipped
  let j := i + lowbit i
  if j ≤ s.size then s.addAt j (← read s.diff i) (← read s.idiff i) else .ok s

/-- The loop of `init`, for the remaining `n` positions from `i` on. -/
def initLoop (vec : List T) : ℕ → ℤ → BinaryIndexTree T → Except Fault (BinaryIndexTree T)
  | 0, _, s => .ok s
  | n + 1, i, s => do
    let s ← initStep vec i s
    initLoop vec n (i + 1) s

/-- `init`. -/
def init (s : BinaryIndexTree T) (vec : List T) : Except Fault (BinaryIndexTree T) :=
  initLoop vec vec.length 1
    ⟨vec.length, resize s.diff (vec.length + 1) 0, resize s.idiff (vec.length + 1) 0⟩

/-! ## Changes -/

/-- The body of the loop of `__update`, on the tree and `i`. -/
def updateBody (val ival : T) (s : BinaryIndexTree T × ℤ) :
    Except Fault (BinaryIndexTree T × ℤ) := do
  let (s, i) := s
  let s ← s.addAt i val ival
  -- the loop variable is an `int`
  .ok (s, narrow 32 (i + lowbit i))

/-- The loop of `__update`. -/
def updateLoop (val ival : T) (fuel : ℕ) (s : BinaryIndexTree T × ℤ) :
    Except Fault (BinaryIndexTree T × ℤ) :=
  whileLoop (fun _ => .diverged) (fun s => .ok (s.2 ≤ s.1.size)) (updateBody val ival) fuel s

/-- `__update`: add `val` to the difference at position `i`, or at the first position. -/
def updateDiff (s : BinaryIndexTree T) (i : ℤ) (val : T) :
    Except Fault (BinaryIndexTree T) := do
  -- the parameter is an `int`
  let i := narrow 32 i
  let i := if i ≤ 0 then 1 else i
  let ival := i * val
  let (s, _) ← updateLoop val ival (s.size.toNat + 2) (s, i)
  .ok s

/-- `range_update`. -/
def rangeUpdate (s : BinaryIndexTree T) (left right : ℤ) (val : T) :
    Except Fault (BinaryIndexTree T) := do
  let s ← s.updateDiff left val
  s.updateDiff (right + 1) (-val)

/-- `update`. -/
def update (s : BinaryIndexTree T) (i : ℤ) (val : T) : Except Fault (BinaryIndexTree T) :=
  s.rangeUpdate i i val

/-! ## Queries -/

variable (widen : T → ℤ)

/-- The body of the loop of `_query`, on `i` and `result`. -/
def queryBody (arr : List T) (s : ℤ × ℤ) : Except Fault (ℤ × ℤ) := do
  let (i, result) := s
  let x ← read arr i
  .ok (i - lowbit i, result + widen x)

/-- `_query`: the sum of the entries on the way down from `i`. -/
def querySum (arr : List T) (i : ℤ) : Except Fault ℤ := do
  let (_, result) ← whileLoop (fun _ => .diverged) (fun s : ℤ × ℤ => .ok (s.1 != 0))
    (queryBody widen arr) (i.toNat + 1) (i, 0)
  .ok result

/-- `query`: its loop is the one of `_query` on `diff_`. -/
def query (s : BinaryIndexTree T) (i : ℤ) : Except Fault ℤ := querySum widen s.diff i

/-- `range_sum`. -/
def rangeSum (s : BinaryIndexTree T) (l r : ℤ) : Except Fault ℤ := do
  let a ← querySum widen s.diff r
  let b ← querySum widen s.idiff r
  let c ← querySum widen s.diff (l - 1)
  let d ← querySum widen s.idiff (l - 1)
  -- `(r + 1) * diff - idiff` up to `r`, less `l * diff - idiff` up to `l - 1`
  .ok ((r + 1) * a - b - l * c + d)

/-- `prefix_sum`, whose parameter is an `int`. -/
def prefixSum (s : BinaryIndexTree T) (i : ℤ) : Except Fault ℤ := s.rangeSum widen 1 (narrow 32 i)

end BinaryIndexTree

/-- A call of one of the public operations after construction. -/
inductive TreeCall (T : Type) where
  | update (i : ℤ) (val : T)
  | rangeUpdate (l r : ℤ) (val : T)
  | query (i : ℤ)
  | rangeSum (l r : ℤ)
  | prefixSum (r : ℤ)

/-- Execute a sequence of calls: the results of the queries, and the final tree. -/
def BinaryIndexTree.run {T : Type} [CommRing T] (widen : T → ℤ) :
    BinaryIndexTree T → List (TreeCall T) → Except Fault (List ℤ × BinaryIndexTree T)
  | s, [] => .ok ([], s)
  | s, .update i val :: calls => do
    let s ← s.update i val
    s.run widen calls
  | s, .rangeUpdate l r val :: calls => do
    let s ← s.rangeUpdate l r val
    s.run widen calls
  | s, .query i :: calls => do
    let x ← s.query widen i
    let (xs, s) ← s.run widen calls
    .ok (x :: xs, s)
  | s, .rangeSum l r :: calls => do
    let x ← s.rangeSum widen l r
    let (xs, s) ← s.run widen calls
    .ok (x :: xs, s)
  | s, .prefixSum r :: calls => do
    let x ← s.prefixSum widen r
    let (xs, s) ← s.run widen calls
    .ok (x :: xs, s)

end CppLearn

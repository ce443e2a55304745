import CppLearn.Lib.CheckedVector
import CppLearn.Lib.Signed
import Mathlib.Algebra.Ring.Defs
import Mathlib.Data.Int.Cast.Defs

/-!
# The segment tree of `segment_tree.h`

`SegmentTree<T>` keeps the sums of intervals of an array in `tree_`, and values that are still to
be added below a node in `lazy_`. Both vectors have four entries for each element of the array.

The value type is any commutative ring. Positions and node numbers are of type `int32_t`: the
number of a child wraps around behind `2 ^ 31`, and the access that follows is then a fault. The
local functions `_build`, `_query` and `_update` call themselves; the depth of the recursion is
bounded, and a deeper one counts as divergence.

## Main definitions

* `SegmentTree.init`, `SegmentTree.rangeSum`, `SegmentTree.rangeAdd`: the public operations;
* `SegmentTree.maintain`: the private one;
* `RangeCall`, `SegmentTree.run`: sequences of calls.
-/

namespace CppLearn

open BoundedLoop CheckedVector Signed

/-- The fields of a `SegmentTree<T>`. -/
structure SegmentTree (T : Type) where
  tree : List T
  lazy : List T

namespace SegmentTree

variable {T : Type}

/-- A tree before `init`. -/
def fresh : SegmentTree T := ⟨[], []⟩

/-- `tree_[i] = x`. -/
def setTree (s : SegmentTree T) (i : ℤ) (x : T) : Except Fault (SegmentTree T) := do
  let tree ← write s.tree i x
  .ok { s with tree }

/-- `lazy_[i] = x`. -/
def setLazy (s : SegmentTree T) (i : ℤ) (x : T) : Except Fault (SegmentTree T) := do
  let lazy ← write s.lazy i x
  .ok { s with lazy }

/-- `root * 2 + 1`. -/
def leftChild (root : ℤ) : ℤ := narrow 32 (root * 2 + 1)

/-- `root * 2 + 2`. -/
def rightChild (root : ℤ) : ℤ := narrow 32 (root * 2 + 2)

/-- `cl + (cr - cl) / 2`, with the division of C++ that rounds towards zero. -/
def middle (cl cr : ℤ) : ℤ := cl + (cr - cl).tdiv 2

/-- The depth of recursion that is granted to the local functions. -/
def depthFuel : ℕ := 64

variable [CommRing T]

/-- `tree_[i] += x`. -/
def addTree (s : SegmentTree T) (i : ℤ) (x : T) : Except Fault (SegmentTree T) := do
  let old ← read s.tree i
  s.setTree i (old + x)

/-- `lazy_[i] += x`. -/
def addLazy (s : SegmentTree T) (i : ℤ) (x : T) : Except Fault (SegmentTree T) := do
  let old ← read s.lazy i
  s.setLazy i (old + x)

/-- `tree_[root] = tree_[root * 2 + 1] + tree_[root * 2 + 2]`. -/
def sumChildren (s : SegmentTree T) (root : ℤ) : Except Fault (SegmentTree T) := do
  let left ← read s.tree (leftChild root)
  let right ← read s.tree (rightChild root)
  s.setTree root (left + right)

/-- `_build`. -/
def build (v : List T) : ℕ → ℤ → ℤ → ℤ → SegmentTree T → Except Fault (SegmentTree T)
  | 0, _, _, _, _ => .error .diverged
  | fuel + 1, root, cl, cr, s => do
    if cl = cr then
      let x ← read v cl
      s.setTree root x
    else
      let cm := middle cl cr
      let s ← build v fuel (leftChild root) cl cm s
      let s ← build v fuel (rightChild root) (cm + 1) cr s
      s.sumChildren root

/-- `init`. With `initValue` false the vectors are only resized. -/
def init (s : SegmentTree T) (v : List T) (initValue : Bool) : Except Fault (SegmentTree T) := do
  let s : SegmentTree T := ⟨resize s.tree (v.length * 4) 0, resize s.lazy (v.length * 4) 0⟩
  if initValue then build v depthFuel 0 0 (narrow 32 (v.length - 1)) s
  else .ok s

variable [DecidableEq T]

/-- `_maintain`: pass the tag of `root` on to its children. -/
def maintain (s : SegmentTree T) (cl cr root : ℤ) : Except Fault (SegmentTree T) := do
  let cm := middle cl cr
  if cl ≠ cr then
    -- a leaf keeps its tag
    let tag ← read s.lazy root
    if tag ≠ 0 then
      let s ← s.addLazy (leftChild root) tag
      let s ← s.addLazy (rightChild root) tag
      let s ← s.addTree (leftChild root) (tag * ((cm - cl + 1 : ℤ) : T))
      let s ← s.addTree (rightChild root) (tag * ((cr - cm : ℤ) : T))
      s.setLazy root 0
    else .ok s
  else .ok s

/-- `_query`. -/
def query (l r : ℤ) : ℕ → ℤ → ℤ → ℤ → SegmentTree T → Except Fault (T × SegmentTree T)
  | 0, _, _, _, _ => .error .diverged
  | fuel + 1, cl, cr, root, s => do
    if l ≤ cl ∧ cr ≤ r then
      let x ← read s.tree root
      .ok (x, s)
    else
      -- `_maintain` writes, so a query changes the tree too
      let s ← s.maintain cl cr root
      let cm := middle cl cr
      let sum := 0
      let (sum, s) ← (
        if l ≤ cm then do
          let (x, s) ← query l r fuel cl cm (leftChild root) s
          .ok (sum + x, s)
        else .ok (sum, s))
      if cm < r then
        let (x, s) ← query l r fuel (cm + 1) cr (rightChild root) s
        .ok (sum + x, s)
      else .ok (sum, s)

/-- `tree_.size() / 4 - 1`, converted to `int32_t`. -/
def lastPosition (s : SegmentTree T) : ℤ := narrow 32 ((s.tree.length / 4 : ℕ) - 1)

/-- `range_sum`. -/
def rangeSum (s : SegmentTree T) (l r : ℤ) : Except Fault (T × SegmentTree T) :=
  query l r depthFuel 0 s.lastPosition 0 s

/-- `_update`. -/
def update (l r : ℤ) (value : T) :
    ℕ → ℤ → ℤ → ℤ → SegmentTree T → Except Fault (SegmentTree T)
  | 0, _, _, _, _ => .error .diverged
  | fuel + 1, cl, cr, root, s => do
    if l ≤ cl ∧ cr ≤ r then
      -- the whole interval is inside the range: the tag stays here
      let s ← s.addLazy root value
      s.addTree root (((cr - cl + 1 : ℤ) : T) * value)
    else
      let s ← s.maintain cl cr root
      let cm := middle cl cr
      let s ← (if l ≤ cm then update l r value fuel cl cm (leftChild root) s else .ok s)
      let s ← (if cm < r then update l r value fuel (cm + 1) cr (rightChild root) s else .ok s)
      s.sumChildren root

/-- `range_add`. -/
def rangeAdd (s : SegmentTree T) (l r : ℤ) (value : T) : Except Fault (SegmentTree T) :=
  update l r value depthFuel 0 s.lastPosition 0 s

end SegmentTree

/-- A call of one of the two public operations on ranges. -/
inductive RangeCall (T : Type) where
  | rangeAdd (l r : ℤ) (value : T)
  | rangeSum (l r : ℤ)

/-- Execute a sequence of calls: the results of the calls of `range_sum`, and the final tree. -/
def SegmentTree.run {T : Type} [CommRing T] [DecidableEq T] :
    SegmentTree T → List (RangeCall T) → Except Fault (List T × SegmentTree T)
  | s, [] => .ok ([], s)
  | s, .rangeAdd l r value :: calls => do
    let s ← s.rangeAdd l r value
    s.run calls
  | s, .rangeSum l r :: calls => do
    let (sum, s) ← s.rangeSum l r
    let (sums, s) ← s.run calls
    .ok (sum :: sums, s)

end CppLearn

import CppLearn.Lib.BoundedLoop
import CppLearn.Lib.Traces
import Mathlib.Data.Finset.Card
import Mathlib.Logic.Function.Basic
import Mathlib.Order.Defs.LinearOrder

/-!
# The pairing heap of `pair_heap.h`

A `PairTree` links nodes that its users allocate. A node points to its first child and to its next
brother; `father` is the preceding brother, and for a first child the node above it.

Pointers are numbers, and `none` is the null pointer. To dereference it is a fault. The recursion of
`_merges` is bounded, and a deeper one counts as divergence.

`PairTree.merge` and `PairTree.merges` are the private methods, `PairTree.push`, `PairTree.update`
and `PairTree.pop` the public ones. `Session.next` is a call in a sequence of calls, which keeps
track of the nodes that were pushed and popped.
-/

namespace CppLearn

open BoundedLoop

/-- A node. -/
structure PairNode (T : Type) where
  value : T
  child : Option ℕ
  brother : Option ℕ
  father : Option ℕ

/-- The nodes by address. -/
abbrev PairNodes (T : Type) := ℕ → PairNode T

namespace PairNodes

variable {T : Type}

/-- `p->value = value`. -/
def setValue (h : PairNodes T) (p : ℕ) (value : T) : PairNodes T :=
  Function.update h p { h p with value := value }

/-- `p->child = q`. -/
def setChild (h : PairNodes T) (p : ℕ) (q : Option ℕ) : PairNodes T :=
  Function.update h p { h p with child := q }

/-- `p->brother = q`. -/
def setBrother (h : PairNodes T) (p : ℕ) (q : Option ℕ) : PairNodes T :=
  Function.update h p { h p with brother := q }

/-- `p->father = q`. -/
def setFather (h : PairNodes T) (p : ℕ) (q : Option ℕ) : PairNodes T :=
  Function.update h p { h p with father := q }

/-- `if (p != nullptr) p->father = q`. -/
def setFatherOf (h : PairNodes T) (p q : Option ℕ) : PairNodes T :=
  match p with
  | none => h
  | some p => h.setFather p q

end PairNodes

/-- A `PairTree`, with the nodes. -/
structure PairTree (T : Type) where
  nodes : PairNodes T
  root : Option ℕ

namespace PairTree

variable {T : Type}

/-- The second half of `_merge`: `b` becomes the first child of `a`. -/
def link (h : PairNodes T) (a b : ℕ) : PairNodes T :=
  let h := h.setFatherOf (h a).child (some b)
  let h := h.setBrother b (h a).child
  let h := h.setFather b (some a)
  h.setChild a (some b)

/-- The part of `update` that takes the node out of the list of brothers. -/
def unlink (h : PairNodes T) (node father : ℕ) : PairNodes T :=
  let h := if (h father).child = some node then h.setChild father (h node).brother
    else h.setBrother father (h node).brother
  let h := h.setFatherOf (h node).brother (h node).father
  let h := h.setBrother node none
  h.setFather node none

variable [LinearOrder T]

/-- `_merge`. -/
def merge (h : PairNodes T) (a b : Option ℕ) : Option ℕ × PairNodes T :=
  match a, b with
  | none, b => (b, h)
  | some a, none => (some a, h)
  | some a, some b =>
    let (a, b) := if (h a).value > (h b).value then (b, a) else (a, b)
    (some a, link h a b)

/-- `_merges`, down to depth `fuel`. The two arguments of the last `_merge` have no nodes in common,
so it does not matter which one is evaluated first. -/
def merges : ℕ → PairNodes T → Option ℕ → Except Fault (Option ℕ × PairNodes T)
  | 0, _, _ => .error .diverged
  | _ + 1, h, none => .ok (none, h)
  | fuel + 1, h, some root => do
    let h := h.setFather root none
    match (h root).brother with
    | none => .ok (some root, h)
    | some brother =>
      let nextBrother := (h brother).brother
      let h := h.setFather brother none
      let h := (h.setBrother brother none).setBrother root none
      let (a, h) ← merges fuel h nextBrother
      let (b, h) := merge h (some root) (some brother)
      .ok (merge h a b)

/-- The constructor. -/
def create (h : PairNodes T) : PairTree T := ⟨h, none⟩

/-- `push`. -/
def push (t : PairTree T) (node : ℕ) : PairTree T :=
  let (root, h) := merge t.nodes (some node) t.root
  ⟨h, root⟩

/-- `update`. -/
def update (t : PairTree T) (node : ℕ) (value : T) : Except Fault (PairTree T) :=
  let h := t.nodes.setValue node value
  if t.root = some node then .ok ⟨h, t.root⟩
  else
    match (h node).father with
    -- `node->father->child`
    | none => .error .invalidAccess
    | some father =>
      let (root, h) := merge (unlink h node father) t.root (some node)
      .ok ⟨h, root⟩

/-- `pop`. -/
def pop (fuel : ℕ) (t : PairTree T) : Except Fault (ℕ × PairTree T) := do
  let (root, h) ← merges fuel t.nodes t.root
  match t.root with
  -- `res->brother`
  | none => .error .invalidAccess
  | some res => .ok (res, ⟨(h.setBrother res none).setFather res none, root⟩)

/-! ## Sequences of calls -/

/-- A call. A node that is pushed was constructed with the value. -/
inductive Call (T : Type) where
  | push (node : ℕ) (value : T)
  | update (node : ℕ) (value : T)
  | pop

/-- A heap in use. -/
structure Session (T : Type) where
  tree : PairTree T
  /-- All nodes that were pushed so far. -/
  pushed : Finset ℕ
  /-- The nodes that were pushed and not popped. -/
  held : Finset ℕ

namespace Session

/-- A new heap. -/
def init (h : PairNodes T) : Session T := ⟨create h, ∅, ∅⟩

/-- The call is one that the heap is made for. -/
def Admits (s : Session T) : Call T → Prop
  | .push node _ => node ∉ s.pushed
  | .update node value => node ∈ s.held ∧ value ≤ (s.tree.nodes node).value
  | .pop => s.held ≠ ∅

instance (s : Session T) : (c : Call T) → Decidable (s.Admits c)
  | .push node _ => inferInstanceAs (Decidable (node ∉ s.pushed))
  | .update _ _ => inferInstanceAs (Decidable (_ ∧ _))
  | .pop => inferInstanceAs (Decidable (s.held ≠ ∅))

/-- The code of a call. -/
def exec (s : Session T) : Call T → Except Fault (Session T)
  | .push node value =>
    let h := Function.update s.tree.nodes node ⟨value, none, none, none⟩
    .ok ⟨push ⟨h, s.tree.root⟩ node, insert node s.pushed, insert node s.held⟩
  | .update node value => do
    let t ← s.tree.update node value
    .ok { s with tree := t }
  | .pop => do
    let (res, t) ← s.tree.pop (s.pushed.card + 1)
    .ok { s with tree := t, held := s.held.erase res }

/-- What a call does, if it is admitted. -/
def next (s : Session T) (c : Call T) : Option (Session T) :=
  if s.Admits c then (s.exec c).toOption else none

end Session

end PairTree

end CppLearn

import CppLearn.Lib.BoundedLoop
import CppLearn.Lib.RedBlackShape
import Mathlib.Logic.Function.Basic
import Mathlib.Order.Defs.LinearOrder

/-!
# The red-black tree of `red_black_tree.h`

`RBTree<T, I>` keeps its nodes in separately allocated cells that point to each other. The model
is the same code over an explicit heap: a pointer is an address, `new` takes the next unused
address, `delete` empties a cell, and a read or a write through a pointer to no cell is a fault.

The shared leaf `null_node_` is the cell at address `nullNode`. Its key and value are never
initialised by the source; `RBTree.empty` takes them as arguments.

Left and right cases of the source are mirror images. Each pair is one definition that takes the
side, and the functions of the source are its two instances.

## Main definitions

* `RBTree.find`, `RBTree.insert`, `RBTree.erase`: the public operations;
* `RBTree.insertFixup`, `RBTree.eraseFixup`, `RBTree.rotateLeft`, `RBTree.rotateRight`: the
  private ones;
* `Op` and `RBTree.run`: sequences of calls.
-/

namespace CppLearn

open RedBlack BoundedLoop

/-- Addresses of nodes. -/
abbrev Ptr := ℕ

/-- The address of `null_node_`. -/
def nullNode : Ptr := 0

/-- A node: `tree::Node<T, I>`. -/
structure Node (K V : Type) where
  key : K
  value : V
  color : Color
  left : Ptr
  right : Ptr
  parent : Ptr

namespace Node

variable {K V : Type}

/-- The child pointer on side `d`. -/
def child (n : Node K V) : Side → Ptr
  | .left => n.left
  | .right => n.right

/-- Assign the child pointer on side `d`. -/
def setChild (n : Node K V) : Side → Ptr → Node K V
  | .left, p => { n with left := p }
  | .right, p => { n with right := p }

/-- Assign the parent pointer. -/
def setParent (n : Node K V) (p : Ptr) : Node K V := { n with parent := p }

/-- Assign the colour. -/
def setColor (n : Node K V) (c : Color) : Node K V := { n with color := c }

end Node

/-- The state of an `RBTree<T, I>`: the allocated nodes, `root_`, and the address that the next
`new` returns. -/
structure RBTree (K V : Type) where
  heap : Ptr → Option (Node K V)
  root : Ptr
  next : Ptr

namespace RBTree

variable {K V : Type}

/-- The constructor: the tree consists of `null_node_` only. -/
def empty (k₀ : K) (v₀ : V) : RBTree K V where
  heap := Function.update (fun _ => none) nullNode
    (some ⟨k₀, v₀, .BLACK, nullNode, nullNode, nullNode⟩)
  root := nullNode
  next := nullNode + 1

/-- Dereference a pointer. -/
def read (t : RBTree K V) (p : Ptr) : Except Fault (Node K V) :=
  match t.heap p with
  | some n => .ok n
  | none => .error .invalidAccess

/-- Write through a pointer. -/
def modify (t : RBTree K V) (p : Ptr) (f : Node K V → Node K V) : Except Fault (RBTree K V) :=
  match t.heap p with
  | some n => .ok { t with heap := Function.update t.heap p (some (f n)) }
  | none => .error .invalidAccess

/-- `new Node<T, I>()`, with the fields that are assigned right after it. -/
def alloc (t : RBTree K V) (n : Node K V) : Ptr × RBTree K V :=
  (t.next, { t with heap := Function.update t.heap t.next (some n), next := t.next + 1 })

/-- `delete p`. -/
def delete (t : RBTree K V) (p : Ptr) : Except Fault (RBTree K V) :=
  match t.heap p with
  | some _ => .ok { t with heap := Function.update t.heap p none }
  | none => .error .invalidAccess

/-- The number of iterations granted to a loop over the nodes of the tree. -/
def fuel (t : RBTree K V) : ℕ := 2 * t.next + 4

/-! ## Rotations -/

/-- Let `new` take the place of `old` below `up`, the parent of `old`. -/
def relink (t : RBTree K V) (up old new : Ptr) : Except Fault (RBTree K V) := do
  if up = nullNode then
    .ok { t with root := new }
  else
    let n ← t.read up
    if old = n.left then t.modify up (·.setChild .left new)
    else t.modify up (·.setChild .right new)

/-- Rotate `rotateNode` down on side `d`: its child on the other side takes its place. -/
def rotate (d : Side) (t : RBTree K V) (rotateNode : Ptr) : Except Fault (RBTree K V) := do
  let replaceNode := (← t.read rotateNode).child d.flip
  -- step 1: the inner subtree of `replaceNode` moves to `rotateNode`
  let inner := (← t.read replaceNode).child d
  let t ← t.modify rotateNode (·.setChild d.flip inner)
  let inner := (← t.read replaceNode).child d
  let t ← (if inner ≠ nullNode then t.modify inner (·.setParent rotateNode) else .ok t)
  -- step 2: `replaceNode` hangs where `rotateNode` did
  let up := (← t.read rotateNode).parent
  let t ← t.modify replaceNode (·.setParent up)
  let up := (← t.read rotateNode).parent
  let t ← t.relink up rotateNode replaceNode
  -- step 3: `rotateNode` hangs below `replaceNode`
  let t ← t.modify replaceNode (·.setChild d rotateNode)
  t.modify rotateNode (·.setParent replaceNode)

/-- `_rotate_left`. -/
def rotateLeft (t : RBTree K V) (rotateNode : Ptr) : Except Fault (RBTree K V) :=
  rotate .left t rotateNode

/-- `_rotate_right`. -/
def rotateRight (t : RBTree K V) (rotateNode : Ptr) : Except Fault (RBTree K V) :=
  rotate .right t rotateNode

/-- The rotation that moves a node down on side `d`, under its name in the source. -/
def rotateTo (d : Side) (t : RBTree K V) (rotateNode : Ptr) : Except Fault (RBTree K V) :=
  match d with
  | .left => rotateLeft t rotateNode
  | .right => rotateRight t rotateNode

/-! ## Insertion -/

/-- The body of the loop of `_insert_fixup` for a parent on side `d` of the grandparent. -/
def insertFixupSide (d : Side) (t : RBTree K V) (iterNode : Ptr) :
    Except Fault (RBTree K V × Ptr) := do
  let parent := (← t.read iterNode).parent
  let grand := (← t.read parent).parent
  let uncle := (← t.read grand).child d.flip
  if (← t.read uncle).color = .RED then
    -- red uncle: recolour and go on from the grandparent
    let t ← t.modify parent (·.setColor .BLACK)
    let t ← t.modify uncle (·.setColor .BLACK)
    let t ← t.modify grand (·.setColor .RED)
    .ok (t, grand)
  else if iterNode = (← t.read parent).child d.flip then
    -- inner grandchild: rotate the parent and look at it again
    let t ← t.rotateTo d parent
    .ok (t, parent)
  else
    -- outer grandchild: recolour and rotate the grandparent
    let t ← t.modify parent (·.setColor .BLACK)
    let t ← t.modify grand (·.setColor .RED)
    let t ← t.rotateTo d.flip grand
    .ok (t, iterNode)

/-- The loop condition of `_insert_fixup`: the parent is red. -/
def insertFixupCond (s : RBTree K V × Ptr) : Except Fault Bool := do
  let parent := (← s.1.read s.2).parent
  .ok ((← s.1.read parent).color == .RED)

/-- The loop body of `_insert_fixup`. -/
def insertFixupBody (s : RBTree K V × Ptr) : Except Fault (RBTree K V × Ptr) := do
  let parent := (← s.1.read s.2).parent
  let grand := (← s.1.read parent).parent
  if parent = (← s.1.read grand).left then insertFixupSide .left s.1 s.2
  else insertFixupSide .right s.1 s.2

/-- `_insert_fixup`. -/
def insertFixup (t : RBTree K V) (insertNode : Ptr) : Except Fault (RBTree K V) := do
  let (t, _) ← whileLoop (fun _ => .diverged) insertFixupCond insertFixupBody t.fuel (t, insertNode)
  t.modify t.root (·.setColor .BLACK)

/-! ## Search -/

section Search

variable [LinearOrder K]

/-- One iteration of the loop of `find`, at `node`. -/
def findStep (t : RBTree K V) (key : K) (node : Ptr) : Except Fault (Ptr ⊕ Option Ptr) :=
  if node = nullNode then .ok (.inr none)
  else do
    let n ← t.read node
    if n.key = key then .ok (.inr (some node))
    else if n.key < key then .ok (.inl n.right)
    else .ok (.inl n.left)

/-- `find`: the node with the given key, `none` for `nullptr`. -/
def find (t : RBTree K V) (key : K) : Except Fault (Option Ptr) :=
  iterate (fun _ => .diverged) (t.findStep key) t.fuel t.root

/-- One iteration of the loop of `insert` that looks for the parent of the new node. The state
is the pair of `iter_node` and `insert_parent_node`; the result is `none` when the key exists. -/
def insertSearchStep (t : RBTree K V) (key : K) (s : Ptr × Ptr) :
    Except Fault (Ptr × Ptr ⊕ Option Ptr) :=
  if s.1 = nullNode then .ok (.inr (some s.2))
  else do
    let n ← t.read s.1
    if key < n.key then .ok (.inl (n.left, s.1))
    else if n.key < key then .ok (.inl (n.right, s.1))
    else .ok (.inr none)

/-- The search of `insert` for the parent of the new node. -/
def insertSearch (t : RBTree K V) (key : K) : Except Fault (Option Ptr) :=
  iterate (fun _ => .diverged) (t.insertSearchStep key) t.fuel (t.root, nullNode)

/-- The part of `insert` after the search: create the node and hang it below its parent. -/
def insertLink (t : RBTree K V) (insertParentNode : Ptr) (key : K) (value : V) :
    Except Fault (RBTree K V) := do
  let (insertNode, t) := t.alloc ⟨key, value, .RED, nullNode, nullNode, insertParentNode⟩
  let t ← (
    if insertParentNode = nullNode then .ok { t with root := insertNode }
    else do
      let n ← t.read insertParentNode
      if key < n.key then t.modify insertParentNode (·.setChild .left insertNode)
      else t.modify insertParentNode (·.setChild .right insertNode))
  t.insertFixup insertNode

end Search

/-! ## Deletion -/

/-- `_rb_transplant`: replace the subtree at `originSubtree` by the one at `newSubtree`. -/
def rbTransplant (t : RBTree K V) (originSubtree newSubtree : Ptr) :
    Except Fault (RBTree K V) := do
  let up := (← t.read originSubtree).parent
  let t ← t.relink up originSubtree newSubtree
  let up := (← t.read originSubtree).parent
  t.modify newSubtree (·.setParent up)

/-- The loop of `_tree_minimum`, at `node`. -/
def treeMinimumStep (t : RBTree K V) (node : Ptr) : Except Fault (Ptr ⊕ Ptr) := do
  let n ← t.read node
  if n.left ≠ nullNode then .ok (.inl n.left) else .ok (.inr node)

/-- `_tree_minimum`. -/
def treeMinimum (t : RBTree K V) (indexNode : Ptr) : Except Fault Ptr :=
  iterate (fun _ => .diverged) t.treeMinimumStep t.fuel indexNode

/-- The first half of the loop body of `_erase_fixup` for a node on side `d`: make the brother
black. Returns the tree and the brother. -/
def eraseFixupBrother (d : Side) (t : RBTree K V) (fixupNode : Ptr) :
    Except Fault (RBTree K V × Ptr) := do
  let parent := (← t.read fixupNode).parent
  let brother := (← t.read parent).child d.flip
  if (← t.read brother).color = .RED then
    let t ← t.modify brother (·.setColor .BLACK)
    let t ← t.modify parent (·.setColor .RED)
    let t ← t.rotateTo d parent
    let parent := (← t.read fixupNode).parent
    .ok (t, (← t.read parent).child d.flip)
  else
    .ok (t, brother)

/-- The test `b->left->color == BLACK && b->right->color == BLACK`. -/
def childrenBlack (t : RBTree K V) (b : Node K V) : Except Fault Bool := do
  let l ← t.read b.left
  let r ← t.read b.right
  .ok (l.color == .BLACK && r.color == .BLACK)

/-- The second half of the loop body of `_erase_fixup` for a node on side `d` with a black
brother. -/
def eraseFixupBlack (d : Side) (t : RBTree K V) (fixupNode brother : Ptr) :
    Except Fault (RBTree K V × Ptr) := do
  let parent := (← t.read fixupNode).parent
  let b ← t.read brother
  if ← t.childrenBlack b then
    let t ← t.modify brother (·.setColor .RED)
    .ok (t, parent)
  else if (← t.read (b.child d.flip)).color = .BLACK then
    let t ← t.modify (b.child d) (·.setColor .BLACK)
    let t ← t.modify brother (·.setColor .RED)
    let t ← t.rotateTo d.flip brother
    .ok (t, fixupNode)
  else
    let parentColor := (← t.read parent).color
    let t ← t.modify brother (·.setColor parentColor)
    let t ← t.modify parent (·.setColor .BLACK)
    let t ← t.modify (b.child d.flip) (·.setColor .BLACK)
    let t ← t.rotateTo d parent
    .ok (t, t.root)

/-- The loop condition of `_erase_fixup`. -/
def eraseFixupCond (s : RBTree K V × Ptr) : Except Fault Bool :=
  if s.2 = s.1.root then .ok false
  else do
    let n ← s.1.read s.2
    .ok (n.color == .BLACK)

/-- The loop body of `_erase_fixup`. -/
def eraseFixupBody (s : RBTree K V × Ptr) : Except Fault (RBTree K V × Ptr) := do
  let parent := (← s.1.read s.2).parent
  let d : Side := if s.2 = (← s.1.read parent).left then .left else .right
  let (t, brother) ← eraseFixupBrother d s.1 s.2
  eraseFixupBlack d t s.2 brother

/-- `_erase_fixup`. -/
def eraseFixup (t : RBTree K V) (fixupNode : Ptr) : Except Fault (RBTree K V) := do
  let (t, fixupNode) ←
    whileLoop (fun _ => .diverged) eraseFixupCond eraseFixupBody t.fuel (t, fixupNode)
  t.modify fixupNode (·.setColor .BLACK)

/-- With two children, first step: take the successor `replaceNode` out of the right subtree of
`eraseNode` and make that subtree its own. `r` is the cell of `replaceNode`. -/
def eraseDetach (t : RBTree K V) (eraseNode replaceNode : Ptr) (r : Node K V) :
    Except Fault (RBTree K V) := do
  if r.parent = eraseNode then t.modify r.right (·.setParent replaceNode)
  else
    let t ← t.rbTransplant replaceNode r.right
    let right := (← t.read eraseNode).right
    let t ← t.modify replaceNode (·.setChild .right right)
    let right := (← t.read replaceNode).right
    t.modify right (·.setParent replaceNode)

/-- With two children, second step: put `replaceNode` into the place of `eraseNode`. -/
def eraseReplace (t : RBTree K V) (eraseNode replaceNode : Ptr) : Except Fault (RBTree K V) := do
  let t ← t.rbTransplant eraseNode replaceNode
  let left := (← t.read eraseNode).left
  let t ← t.modify replaceNode (·.setChild .left left)
  let left := (← t.read replaceNode).left
  let t ← t.modify left (·.setParent replaceNode)
  let eraseColor := (← t.read eraseNode).color
  t.modify replaceNode (·.setColor eraseColor)

/-- The case of `erase` where the erased node has two children. Returns the tree, the original
colour of the successor and the node where the repair starts. -/
def eraseTwoChildren (t : RBTree K V) (eraseNode : Ptr) :
    Except Fault (RBTree K V × Color × Ptr) := do
  let replaceNode ← t.treeMinimum (← t.read eraseNode).right
  let r ← t.read replaceNode
  let t ← t.eraseDetach eraseNode replaceNode r
  let t ← t.eraseReplace eraseNode replaceNode
  .ok (t, r.color, r.right)

/-- The part of `erase` that takes `eraseNode` out of the tree, before any repair. -/
def eraseUnlink (t : RBTree K V) (eraseNode : Ptr) : Except Fault (RBTree K V × Color × Ptr) := do
  let e ← t.read eraseNode
  if e.left = nullNode then
    let t ← t.rbTransplant eraseNode e.right
    .ok (t, e.color, e.right)
  else if e.right = nullNode then
    let t ← t.rbTransplant eraseNode e.left
    .ok (t, e.color, e.left)
  else
    t.eraseTwoChildren eraseNode

section Operations

variable [LinearOrder K]

/-- `erase`: whether the key was present, and the tree afterwards. -/
def erase (t : RBTree K V) (key : K) : Except Fault (Bool × RBTree K V) := do
  match ← t.find key with
  | none => .ok (false, t)
  | some eraseNode =>
    let (t, originColor, startFixupNode) ← t.eraseUnlink eraseNode
    let t ← (if originColor = .BLACK then t.eraseFixup startFixupNode else .ok t)
    let t ← t.delete eraseNode
    .ok (true, t)

/-- `insert`, with a bound on the depth of its recursion. -/
def insertRec : ℕ → RBTree K V → K → V → Except Fault (RBTree K V)
  | 0, _, _, _ => .error .diverged
  | depth + 1, t, key, value => do
    match ← t.insertSearch key with
    | none =>
      let (_, t) ← t.erase key
      insertRec depth t key value
    | some insertParentNode => t.insertLink insertParentNode key value

/-- `insert`. An existing key is erased first and inserted by a recursive call, which finds it
absent, so that two levels suffice. -/
def insert (t : RBTree K V) (key : K) (value : V) : Except Fault (RBTree K V) :=
  insertRec 2 t key value

end Operations

end RBTree

/-- A call that modifies a tree. -/
inductive Op (K V : Type) where
  | insert (key : K) (value : V)
  | erase (key : K)

/-- The key that a call is about. -/
def Op.key {K V : Type} : Op K V → K
  | .insert key _ => key
  | .erase key => key

namespace RBTree

variable {K V : Type} [LinearOrder K]

/-- The tree after a call. -/
def apply (t : RBTree K V) : Op K V → Except Fault (RBTree K V)
  | .insert key value => t.insert key value
  | .erase key => do
    let (_, t) ← t.erase key
    .ok t

/-- The tree after a sequence of calls. -/
def run : RBTree K V → List (Op K V) → Except Fault (RBTree K V)
  | t, [] => .ok t
  | t, op :: ops => do
    let t ← t.apply op
    run t ops

/-- The value that a caller reads from the node that `find` returns. -/
def lookup (t : RBTree K V) (key : K) : Except Fault (Option V) := do
  match ← t.find key with
  | none => .ok none
  | some node =>
    let n ← t.read node
    .ok (some n.value)

end RBTree

end CppLearn

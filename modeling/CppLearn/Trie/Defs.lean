import CppLearn.Lib.BoundedLoop

/-!
# The trie of `trie.h`

A `Trie` keeps a tree of nodes in separately allocated cells. Nothing is deallocated while the trie
is in use, so the cells are a list, a pointer is a position in it, and `new` appends a cell. A read
or a write through any other pointer is a fault. Strings are lists over an arbitrary type of
characters.

The public methods are `Trie.insert`, `Trie.query` and `Trie.startWith`, and `Trie.run` is a
sequence of insertions into a new trie.
-/

namespace CppLearn

open BoundedLoop

/-- A node: the mark `end`, and the pointers in the map `children`. -/
structure TrieNode (χ : Type) where
  isEnd : Bool
  children : χ → Option ℕ

namespace TrieNode

variable {χ : Type}

/-- `Node()`. -/
def create : TrieNode χ := ⟨false, fun _ => none⟩

/-- `children[ch] = p`. -/
def setChild [DecidableEq χ] (n : TrieNode χ) (ch : χ) (p : ℕ) : TrieNode χ :=
  { n with children := Function.update n.children ch (some p) }

/-- `end = true`. -/
def setEnd (n : TrieNode χ) : TrieNode χ := { n with isEnd := true }

end TrieNode

/-- A `Trie`: the allocated nodes and `root_`. -/
structure Trie (χ : Type) where
  nodes : List (TrieNode χ)
  root : ℕ

namespace Trie

variable {χ : Type}

/-- The constructor. -/
def create : Trie χ := ⟨[.create], 0⟩

/-- Dereference a pointer. -/
def read (t : Trie χ) (p : ℕ) : Except Fault (TrieNode χ) :=
  match t.nodes[p]? with
  | some n => .ok n
  | none => .error .invalidAccess

/-- Write through a pointer. -/
def modify (t : Trie χ) (p : ℕ) (f : TrieNode χ → TrieNode χ) : Except Fault (Trie χ) := do
  let n ← t.read p
  .ok { t with nodes := t.nodes.set p (f n) }

/-- `new Node()`. -/
def alloc (t : Trie χ) : ℕ × Trie χ :=
  (t.nodes.length, { t with nodes := t.nodes ++ [.create] })

/-- The loop body of `insert`, with `tmp` next to the trie. -/
def insertStep [DecidableEq χ] (s : Trie χ × ℕ) (ch : χ) : Except Fault (Trie χ × ℕ) := do
  let (t, tmp) := s
  let n ← t.read tmp
  match n.children ch with
  | some child => .ok (t, child)
  | none =>
    let (child, t) := t.alloc
    let t ← t.modify tmp (·.setChild ch child)
    .ok (t, child)

/-- `insert`. -/
def insert [DecidableEq χ] (t : Trie χ) (s : List χ) : Except Fault (Bool × Trie χ) := do
  let (t, tmp) ← s.foldlM insertStep (t, t.root)
  let t ← t.modify tmp (·.setEnd)
  .ok (true, t)

/-- The loop that `query` and `start_with` have in common: the node that it arrives at, or `none`
if it is left by `return false`. -/
def descend (t : Trie χ) : ℕ → List χ → Except Fault (Option ℕ)
  | tmp, [] => .ok (some tmp)
  | tmp, ch :: s => do
    let n ← t.read tmp
    match n.children ch with
    | some child => t.descend child s
    | none => .ok none

/-- `query`. -/
def query (t : Trie χ) (s : List χ) : Except Fault Bool := do
  match ← t.descend t.root s with
  | some tmp => do
    let n ← t.read tmp
    .ok n.isEnd
  | none => .ok false

/-- `start_with`. -/
def startWith (t : Trie χ) (s : List χ) : Except Fault Bool := do
  match ← t.descend t.root s with
  | some _ => .ok true
  | none => .ok false

/-- The trie after some insertions. -/
def run [DecidableEq χ] (words : List (List χ)) : Except Fault (Trie χ) :=
  words.foldlM (fun t s => do
    let (_, t) ← t.insert s
    .ok t) create

end Trie

end CppLearn

import CppLearn.Lib.BoundedLoop
import Mathlib.Logic.Function.Basic

/-!
# The linked stack of `stack.h`

`Stack<T>` keeps its values in nodes that are linked from the top to the bottom. A node is an
address, `new` takes the next unused one, `delete` empties a cell, and an access through a pointer
to no cell is a fault.

The functions are `Stack.push`, `Stack.pop`, `Stack.top` and `Stack.destruct`. Sequences of calls
are run on a stack by `run`, and on a list by `applyList`.
-/

namespace CppLearn.LinkedStack

open BoundedLoop

/-- `Node<T>`. -/
structure Node (T : Type) where
  value : T
  next : Option ℕ

/-- `Stack<T>`, with the nodes and the address that the next `new` returns. -/
structure Stack (T : Type) where
  heap : ℕ → Option (Node T)
  fresh : ℕ
  size : UInt64
  tail : Option ℕ

namespace Stack

variable {T : Type}

/-- `Stack()`. -/
def create (T : Type) : Stack T := ⟨fun _ => none, 0, 0, none⟩

/-- Dereference a pointer. -/
def read (s : Stack T) (p : Option ℕ) : Except Fault (Node T) :=
  match p.bind s.heap with
  | some node => .ok node
  | none => .error .invalidAccess

/-- `empty`. -/
def empty (s : Stack T) : Bool := s.tail.isNone

/-- `top`. -/
def top (s : Stack T) : Except Fault T := do .ok (← s.read s.tail).value

/-- `node->next = next`. -/
def setNext (s : Stack T) (node : ℕ) (next : Option ℕ) : Except Fault (Stack T) := do
  let n ← s.read (some node)
  .ok { s with heap := Function.update s.heap node (some { n with next }) }

/-- `delete p`, where `p` is not null. -/
def delete (s : Stack T) (p : Option ℕ) : Except Fault (Stack T) :=
  match p with
  | none => .error .invalidAccess
  | some i =>
    match s.heap i with
    | some _ => .ok { s with heap := Function.update s.heap i none }
    | none => .error .invalidAccess

/-- `push`. -/
def push (s : Stack T) (value : T) : Except Fault (Stack T) := do
  let node := s.fresh
  let s := { s with heap := Function.update s.heap node (some ⟨value, none⟩), fresh := node + 1 }
  let s ← if s.empty then .ok s else s.setNext node s.tail
  .ok { s with tail := some node, size := s.size + 1 }

/-- `pop`, where `minusOne` is `T(-1)`. -/
def pop (minusOne : T) (s : Stack T) : Except Fault (T × Stack T) := do
  if s.empty then .ok (minusOne, s)
  else
    let node := s.tail
    let s := { s with tail := (← s.read s.tail).next }
    let value := (← s.read node).value
    let s ← s.delete node
    .ok (value, { s with size := s.size - 1 })

/-- The loop of `~Stack`. -/
def destructLoop : ℕ → Stack T → Except Fault (Stack T)
  | 0, _ => .error .diverged
  | fuel + 1, s => do
    if s.tail.isSome then
      let tmp := s.tail
      let s := { s with tail := (← s.read s.tail).next }
      let s ← s.delete tmp
      s.destructLoop fuel
    else .ok s

/-- `~Stack`. -/
def destruct (s : Stack T) : Except Fault (Stack T) := s.destructLoop (s.fresh + 1)

end Stack

/-! ## Calls -/

/-- A call. -/
inductive Op (T : Type) where
  | push (value : T)
  | pop
  | top
  | size
  | empty

/-- What a call returns. -/
inductive Output (T : Type) where
  | unit
  | value (value : T)
  | size (n : UInt64)
  | bool (b : Bool)

variable {T : Type}

/-- A call of a stack. -/
def Stack.apply (minusOne : T) (s : Stack T) : Op T → Except Fault (Output T × Stack T)
  | .push value => do .ok (.unit, ← s.push value)
  | .pop => do
    let (value, s) ← s.pop minusOne
    .ok (.value value, s)
  | .top => do .ok (.value (← s.top), s)
  | .size => .ok (.size s.size, s)
  | .empty => .ok (.bool s.empty, s)

/-- The same call on a list that begins with the top. -/
def applyList (minusOne : T) (xs : List T) : Op T → Except Fault (Output T × List T)
  | .push value => .ok (.unit, value :: xs)
  | .pop => .ok (.value (xs.headD minusOne), xs.tail)
  | .top =>
    match xs with
    | [] => .error .invalidAccess
    | x :: _ => .ok (.value x, xs)
  | .size => .ok (.size (UInt64.ofNat xs.length), xs)
  | .empty => .ok (.bool xs.isEmpty, xs)

/-- A sequence of calls: what they return, and the last state. -/
def run {σ : Type} (apply : σ → Op T → Except Fault (Output T × σ)) (s : σ) :
    List (Op T) → Except Fault (List (Output T) × σ)
  | [] => .ok ([], s)
  | op :: ops => do
    let (output, s) ← apply s op
    let (outputs, s) ← run apply s ops
    .ok (output :: outputs, s)

end CppLearn.LinkedStack

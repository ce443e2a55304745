import CppLearn.Lib.CheckedVector
import Mathlib.Order.Defs.LinearOrder

/-!
# The heaps of `heap.h`

`MaxHeap` and `MinHeap` keep a binary heap in the first `size_` elements of `buffer_`. The two
classes differ in the comparison only, so they are written once, for a comparison `less` that says
when a child has to be above its parent. An access outside `buffer_` is a fault.

`Heap.push`, `Heap.pop` and `Heap.top` take the comparison as an argument, and `MaxHeap` and
`MinHeap` apply them to theirs. `MaxHeap.run` and `MinHeap.run` are sequences of operations.
-/

namespace CppLearn

open BoundedLoop CheckedVector

/-- The fields of a `MaxHeap<T>` or a `MinHeap<T>`. -/
structure Heap (T : Type) where
  size : ℕ
  buffer : List T

namespace Heap

variable {T : Type} (less : T → T → Bool)

/-- The constructor. -/
def create : Heap T := ⟨0, []⟩

/-- `top`. -/
def top (s : Heap T) : Except Fault T := read s.buffer 0

/-- An iteration of the loop in `push`. -/
def heapifyUpStep : ℕ × List T → Except Fault ((ℕ × List T) ⊕ List T)
  | (child, buffer) =>
    if child = 0 then .ok (.inr buffer)
    else do
      let parent := (child - 1) / 2
      let x ← read buffer parent
      let y ← read buffer child
      if less x y then
        let buffer ← swap buffer parent child
        .ok (.inl (parent, buffer))
      else .ok (.inr buffer)

/-- `_heapify` in `push`. -/
def heapifyUp (size : ℕ) (buffer : List T) : Except Fault (List T) :=
  iterate (fun _ => .diverged) (heapifyUpStep less) size (size - 1, buffer)

/-- The first half of `push`: an old place behind the elements in use is taken again. -/
def store (s : Heap T) (value : T) : Except Fault (List T) :=
  if s.size + 1 > s.buffer.length then .ok (s.buffer ++ [value])
  else write s.buffer (((s.size + 1 : ℕ) : ℤ) - 1) value

/-- `push`. -/
def push (s : Heap T) (value : T) : Except Fault (Heap T) := do
  let buffer ← s.store value
  let buffer ← heapifyUp less (s.size + 1) buffer
  .ok ⟨s.size + 1, buffer⟩

/-- The larger one of the children. -/
def largerChild (size : ℕ) (buffer : List T) (child : ℕ) : Except Fault ℕ := do
  if child + 1 < size then
    let x ← read buffer child
    let y ← read buffer ((child + 1 : ℕ) : ℤ)
    .ok (if less x y then child + 1 else child)
  else .ok child

/-- An iteration of the loop in `pop`. -/
def heapifyDownStep (size : ℕ) :
    ℕ × ℕ × List T → Except Fault ((ℕ × ℕ × List T) ⊕ List T)
  | (parent, child, buffer) =>
    if child < size then do
      let child ← largerChild less size buffer child
      let x ← read buffer parent
      let y ← read buffer child
      if less x y then
        let buffer ← swap buffer parent child
        .ok (.inl (child, 2 * child + 1, buffer))
      else .ok (.inr buffer)
    else .ok (.inr buffer)

/-- `_heapify` in `pop`. -/
def heapifyDown (size : ℕ) (buffer : List T) : Except Fault (List T) :=
  iterate (fun _ => .diverged) (heapifyDownStep less size) (size + 1) (0, 1, buffer)

/-- `pop`. -/
def pop (s : Heap T) : Except Fault (Heap T) := do
  let buffer ← swap s.buffer 0 (s.size - 1 : ℤ)
  let size := s.size - 1
  let buffer ← heapifyDown less size buffer
  .ok ⟨size, buffer⟩

end Heap

/-! ## The two classes -/

section Classes

open Heap

variable {T : Type} [LinearOrder T]

/-- `push` of a `MaxHeap`. -/
def MaxHeap.push (s : Heap T) (value : T) : Except Fault (Heap T) :=
  Heap.push (fun x y => x < y) s value

/-- `pop` of a `MaxHeap`. -/
def MaxHeap.pop (s : Heap T) : Except Fault (Heap T) := Heap.pop (fun x y => x < y) s

/-- `push` of a `MinHeap`. -/
def MinHeap.push (s : Heap T) (value : T) : Except Fault (Heap T) :=
  Heap.push (fun x y => x > y) s value

/-- `pop` of a `MinHeap`. -/
def MinHeap.pop (s : Heap T) : Except Fault (Heap T) := Heap.pop (fun x y => x > y) s

/-- An operation. -/
inductive Heap.Op (T : Type) where
  | push (value : T)
  | pop

/-- One operation on a heap with the given `push` and `pop`. What `top` returns before `pop` is
added to the list of removed values. -/
def Heap.exec (push : Heap T → T → Except Fault (Heap T)) (pop : Heap T → Except Fault (Heap T))
    (s : List T × Heap T) : Op T → Except Fault (List T × Heap T)
  | .push value => do
    let h ← push s.2 value
    .ok (s.1, h)
  | .pop => do
    let x ← s.2.top
    let h ← pop s.2
    .ok (s.1 ++ [x], h)

/-- The removed values and the heap after some operations on a new `MaxHeap`. -/
def MaxHeap.run (ops : List (Op T)) : Except Fault (List T × Heap T) :=
  ops.foldlM (exec MaxHeap.push MaxHeap.pop) ([], create)

/-- The removed values and the heap after some operations on a new `MinHeap`. -/
def MinHeap.run (ops : List (Op T)) : Except Fault (List T × Heap T) :=
  ops.foldlM (exec MinHeap.push MinHeap.pop) ([], create)

end Classes

end CppLearn

import Mathlib.Data.List.Sort
import Mathlib.Data.Multiset.Basic
import Mathlib.Order.Basic

/-!
# Priority queues

The interface of a priority queue from which an element with the least key is removed. Which of
several such elements comes first is left open, and so is the way in which the elements are stored:
a program that is correct for every `PriorityQueue` is correct for every tie-breaking.

`PriorityQueue` has the operations with their specification as fields; `PriorityQueue.sorted` is one
of them, the elements in a sorted list.
-/

/-- Queues of elements of type `α` that are removed in the order of their keys. -/
structure PriorityQueue {α κ : Type} [LinearOrder κ] (key : α → κ) where
  /-- The type of the queues. -/
  Queue : Type
  empty : Queue
  push : Queue → α → Queue
  /-- The first element and the queue without it, or `none` for the empty queue. -/
  pop : Queue → Option (α × Queue)
  elems : Queue → Multiset α
  elems_empty : elems empty = 0
  elems_push : ∀ q x, elems (push q x) = x ::ₘ elems q
  elems_of_pop_none : ∀ q, pop q = none → elems q = 0
  elems_of_pop : ∀ q x q', pop q = some (x, q') → elems q = x ::ₘ elems q'
  key_le_of_pop : ∀ q x q', pop q = some (x, q') → ∀ y ∈ elems q', key x ≤ key y

namespace PriorityQueue

variable {α κ : Type} [LinearOrder κ] {key : α → κ}

/-- The elements in a sorted list. Among elements with the same key, the last one to come is the
first one to go. -/
def sorted (key : α → κ) : PriorityQueue key where
  Queue := { l : List α // l.Pairwise fun x y => key x ≤ key y }
  empty := ⟨[], List.Pairwise.nil⟩
  push q x := ⟨q.1.orderedInsert (fun x y => key x ≤ key y) x, by
    have : Std.Total fun x y => key x ≤ key y := ⟨fun x y => le_total (key x) (key y)⟩
    have : IsTrans α fun x y => key x ≤ key y := ⟨fun _ _ _ h h' => le_trans h h'⟩
    exact q.2.orderedInsert x q.1⟩
  pop
    | ⟨[], _⟩ => none
    | ⟨x :: l, h⟩ => some (x, ⟨l, h.of_cons⟩)
  elems q := q.1
  elems_empty := rfl
  elems_push q x := Multiset.coe_eq_coe.2 (List.perm_orderedInsert _ x q.1)
  elems_of_pop_none := by
    rintro ⟨_ | ⟨x, l⟩, h⟩ hpop
    · rfl
    · cases hpop
  elems_of_pop := by
    rintro ⟨_ | ⟨x, l⟩, h⟩ y q' hpop
    · cases hpop
    · obtain ⟨rfl, rfl⟩ := Prod.mk.inj (Option.some.inj hpop)
      rfl
  key_le_of_pop := by
    rintro ⟨_ | ⟨x, l⟩, h⟩ y q' hpop z hz
    · cases hpop
    · obtain ⟨rfl, rfl⟩ := Prod.mk.inj (Option.some.inj hpop)
      exact List.rel_of_pairwise_cons h (Multiset.mem_coe.1 hz)

variable {pq : PriorityQueue key} {q q' : pq.Queue} {x y : α}

theorem mem_push : y ∈ pq.elems (pq.push q x) ↔ y = x ∨ y ∈ pq.elems q := by
  rw [pq.elems_push, Multiset.mem_cons]

theorem mem_of_pop (h : pq.pop q = some (x, q')) : y ∈ pq.elems q ↔ y = x ∨ y ∈ pq.elems q' := by
  rw [pq.elems_of_pop q x q' h, Multiset.mem_cons]

end PriorityQueue

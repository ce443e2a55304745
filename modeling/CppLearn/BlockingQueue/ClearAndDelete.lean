import CppLearn.Lib.BoundedLoop

/-!
# `ClearAndDelete`

The loop that hands the tasks to the deleter runs while the deque is empty, not while it has tasks.
So a queue with tasks keeps all of them, and the front of an empty one is read.

What the operation does is `clearAndDelete_eq`; that it empties no queue is `clearAndDelete_ne`.
-/

namespace CppLearn.BlockingQueue

open BoundedLoop

variable {Task : Type*}

/-- An iteration, on the tasks in the deque and those that the deleter was called on. The front of
an empty deque is an access outside of it. -/
def deleteFront (s : List Task × List Task) : Except Fault (List Task × List Task) :=
  match s.1 with
  | [] => .error .invalidAccess
  | task :: rest => .ok (rest, s.2 ++ [task])

/-- `ClearAndDelete`, while the mutex is locked: the tasks that are left, and those that the deleter
was called on, in this order. -/
def clearAndDelete (tasks : List Task) : Except Fault (List Task × List Task) :=
  whileLoop (fun _ => .diverged) (fun s => .ok s.1.isEmpty) deleteFront (tasks.length + 1)
    (tasks, [])

/-- An empty deque is read, and other deques are left alone. -/
theorem clearAndDelete_eq (tasks : List Task) :
    clearAndDelete tasks =
      if tasks.isEmpty then .error .invalidAccess else .ok (tasks, []) := by
  cases tasks with
  | nil => exact whileLoop_error rfl rfl (Nat.succ_pos _)
  | cons task rest => exact (Steps.refl _).whileLoop_exit rfl (Nat.succ_pos _)

/-- Whatever the queue contains, the deleter is not called on the tasks in their order with an empty
queue in the end. -/
theorem clearAndDelete_ne (tasks : List Task) : clearAndDelete tasks ≠ .ok ([], tasks) := by
  rw [clearAndDelete_eq]
  cases tasks with
  | nil => exact fun h => nomatch h
  | cons task rest => exact fun h => List.cons_ne_nil task rest (Prod.mk.inj (Except.ok.inj h)).1

/-- One task, which stays in the queue. -/
theorem clearAndDelete_singleton :
    clearAndDelete [7] = .ok ([7], []) ∧ clearAndDelete [7] ≠ .ok ([], [7]) := by
  decide

end CppLearn.BlockingQueue

import CppLearn.Lib.Traces
import Mathlib.Data.Int.Notation
import Mathlib.Logic.Function.Basic

/-!
# The lock of `spin_lock.h`

The threads of the test count in one variable: each of them locks, adds one, and unlocks again. An
exchange and a store of `lock_` are one event each, and so are the load and the store of `num++`,
which is not atomic. Between these events the threads interleave in any order. What a thread does
next depends on nothing but its own state, so an event is a thread.

The orders `acquire` and `release` let the holder of the lock see what the previous holder wrote.
The count is an integer, which is never as large as 2³¹ in the test.

`Point` says where a thread is in `func`. A `State` is the lock and the count with the threads, and
`State.next` is the next event of a thread.
-/

namespace CppLearn.SpinLock

/-- Where a thread is in `func`. -/
inductive Point where
  /-- before the test of the loop in `func` -/
  | looping
  /-- before the exchange in `lock`, with the value of `expected` -/
  | exchanging (expected : Bool)
  /-- after an exchange that failed, with the value of `expected` -/
  | failed (expected : Bool)
  /-- before `num` is loaded -/
  | locked
  /-- before the value after `value` is stored -/
  | loaded (value : ℤ)
  /-- before `lock_` is stored in `unlock` -/
  | stored
  | returned
  deriving DecidableEq

/-- A thread: the number `i` of the iteration, and where it is. -/
structure Thread where
  i : ℕ
  point : Point
  deriving DecidableEq

/-- The lock and the count, and `n` threads. -/
structure State (n : ℕ) where
  lock : Bool
  num : ℤ
  threads : Fin n → Thread

/-- Before the threads run. -/
def State.create (n : ℕ) : State n := ⟨false, 0, fun _ => ⟨0, .looping⟩⟩

/-- `lock_.compare_exchange_strong(expected, true)`: what is stored in `lock_` and in `expected`,
and the result. -/
def compareExchange (lock expected : Bool) : Bool × Bool × Bool :=
  if lock = expected then (true, expected, true) else (lock, lock, false)

variable {n : ℕ}

/-- The thread `t` is at another point. -/
def State.goto (s : State n) (t : Fin n) (point : Point) : State n :=
  { s with threads := Function.update s.threads t ⟨(s.threads t).i, point⟩ }

/-- The next event of a thread, where `rounds` is the number of iterations in `func`. -/
def State.next (rounds : ℕ) (s : State n) (t : Fin n) : Option (State n) :=
  match (s.threads t).point with
  | .looping => some (s.goto t (if (s.threads t).i < rounds then .exchanging false else .returned))
  | .exchanging expected =>
    let (lock, expected, success) := compareExchange s.lock expected
    some { s.goto t (if success then .locked else .failed expected) with lock }
  | .failed _ => some (s.goto t (.exchanging false))
  | .locked => some (s.goto t (.loaded s.num))
  | .loaded value => some { s.goto t .stored with num := value + 1 }
  | .stored =>
    -- the lock guard is destroyed, and `i` is incremented
    some { s with
      lock := false
      threads := Function.update s.threads t ⟨(s.threads t).i + 1, .looping⟩ }
  | .returned => none

/-- Two threads that count to two each, one after the other. -/
example : (Traces.run (State.next 2) (State.create 2) (List.replicate 11 0 ++
    List.replicate 11 1)).map (·.num) = some 4 := by decide

end CppLearn.SpinLock

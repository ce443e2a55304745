import CppLearn.Lib.Traces
import Mathlib.Logic.Function.Basic

/-!
# The thread pool of `thread_pool.cc`

The worker threads run `Loop`, any threads submit tasks with `Run`, and one thread runs the
destructor. All accesses to `stop_` and `tasks_` are made with `queue_mutex_` locked, so that what a
thread does between locking and unlocking is one event. Between these events the threads interleave
in any order. `condition_.wait` unlocks the mutex; a waiting worker is woken by a notification or
for no reason, and then locks the mutex and tests the predicate again.

`Worker.body` is what a worker does with the mutex locked. A `State` is a pool with what it has done
so far, and `State.next` is what an `Event` does to it.
-/

namespace CppLearn.ThreadPool

/-- Where a worker is in `Loop`. -/
inductive Worker (Task : Type*) where
  /-- about to lock the mutex, at the top of the loop -/
  | looping
  /-- in `condition_.wait`, not notified -/
  | waiting
  /-- in `condition_.wait`, about to lock the mutex again -/
  | woken
  /-- executing `task()`, with the mutex unlocked -/
  | running (task : Task)
  | returned
  deriving DecidableEq

/-- The worker is in the set of threads that a notification wakes. -/
def Worker.isWaiting {Task : Type*} : Worker Task → Bool
  | .waiting => true
  | _ => false

/-- Where the thread is that destroys the pool. -/
inductive Destructor where
  /-- the destructor has not locked the mutex yet -/
  | alive
  /-- `stop_` is set, and the workers are not notified yet -/
  | stopped
  /-- that many workers are joined -/
  | joining (count : ℕ)
  deriving DecidableEq

/-- What happens at the pool. -/
inductive Event (n : ℕ) (Task : Type*) where
  /-- the worker locks the mutex, and goes on until it unlocks it -/
  | lock (worker : Fin n)
  /-- the worker wakes up without a notification -/
  | wake (worker : Fin n)
  /-- the worker's call `task()` returns -/
  | finish (worker : Fin n)
  /-- `Run` appends the task -/
  | emplace (task : Task)
  /-- `Run` calls `notify_one`, which wakes the worker, if there is one to wake -/
  | notifyOne (worker : Option (Fin n))
  /-- the destructor sets `stop_` -/
  | stop
  /-- the destructor calls `notify_all` -/
  | notifyAll
  /-- the destructor's next `join` returns -/
  | join

variable {n : ℕ} {Task : Type*}

/-- The body of `Loop` from locking the mutex, or from the return of the wait, to the point where
the mutex is unlocked: the tasks and the state of the worker after it. Undefined if the front of an
empty queue is taken. -/
def Worker.body (stop : Bool) (tasks : List Task) : Option (List Task × Worker Task) :=
  -- the predicate of `condition_.wait`
  if !(stop || !tasks.isEmpty) then some (tasks, .waiting)
  else if stop && tasks.isEmpty then some (tasks, .returned)
  else match tasks with
    | [] => none
    | task :: rest => some (rest, .running task)

/-- The fields of a pool of `n` workers, where its threads are, and what they have done: the tasks
appended before and after `stop_` was set, and the tasks that the workers have taken from the queue
and executed, in the order in which they did so. -/
structure State (n : ℕ) (Task : Type*) where
  stop : Bool
  tasks : List Task
  workers : Fin n → Worker Task
  /-- the number of calls of `Run` that have appended their task and not yet notified -/
  notifying : ℕ
  destructor : Destructor
  early : List Task
  late : List Task
  taken : List (Fin n × Task)
  executed : List (Fin n × Task)

namespace State

/-- The constructor starts the workers. -/
def create (n : ℕ) (Task : Type*) : State n Task where
  stop := false
  tasks := []
  workers _ := .looping
  notifying := 0
  destructor := .alive
  early := []
  late := []
  taken := []
  executed := []

/-- The tasks in the order in which they were submitted. -/
def submitted (s : State n Task) : List Task := s.early ++ s.late

/-- The destructor's joins have all returned. -/
def Destroyed (s : State n Task) : Prop := s.destructor = .joining n

/-- The state of one worker changes. -/
def setWorker (s : State n Task) (i : Fin n) (w : Worker Task) : State n Task :=
  { s with workers := Function.update s.workers i w }

/-- A worker that has locked the mutex. -/
def lock (s : State n Task) (i : Fin n) : Option (State n Task) := do
  let (tasks, w) ← Worker.body s.stop s.tasks
  some { s.setWorker i w with
    tasks
    taken := match w with
      | .running task => s.taken ++ [(i, task)]
      | _ => s.taken }

/-- The waiting workers are notified. -/
def wakeAll (s : State n Task) : State n Task :=
  { s with workers := fun i => match s.workers i with
      | .waiting => .woken
      | w => w }

/-- What an event does, where it can happen. -/
def next (s : State n Task) : Event n Task → Option (State n Task)
  | .lock i =>
    match s.workers i with
    | .looping | .woken => s.lock i
    | _ => none
  | .wake i =>
    match s.workers i with
    | .waiting => some (s.setWorker i .woken)
    | _ => none
  | .finish i =>
    match s.workers i with
    | .running task => some { s.setWorker i .looping with executed := s.executed ++ [(i, task)] }
    | _ => none
  | .emplace task =>
    let s := { s with tasks := s.tasks ++ [task], notifying := s.notifying + 1 }
    some (if s.stop then { s with late := s.late ++ [task] }
      else { s with early := s.early ++ [task] })
  | .notifyOne (some i) =>
    match s.notifying, s.workers i with
    | k + 1, .waiting => some { s.setWorker i .woken with notifying := k }
    | _, _ => none
  | .notifyOne none =>
    match s.notifying with
    | k + 1 =>
      if ∀ i, ¬(s.workers i).isWaiting then some { s with notifying := k } else none
    | 0 => none
  | .stop =>
    if s.destructor = .alive then some { s with stop := true, destructor := .stopped } else none
  | .notifyAll =>
    if s.destructor = .stopped then some { s.wakeAll with destructor := .joining 0 } else none
  | .join =>
    match s.destructor with
    | .joining k =>
      if h : k < n then
        match s.workers ⟨k, h⟩ with
        | .returned => some { s with destructor := .joining (k + 1) }
        | _ => none
      else none
    | _ => none

end State

end CppLearn.ThreadPool

import CppLearn.Lib.Deque
import CppLearn.Lib.Traces
import Mathlib.Logic.Function.Basic

/-!
# The blocking queue of `blocking_queue.h`

Every operation locks `mutex_` for its whole body, and gives it up only while it waits on `cv_full_`
or `cv_empty_`. So what a thread does between locking the mutex and giving it up is one event, and
the threads interleave in any order between these events. A waiting thread is woken by `notify_all`
or for no reason; a timed wait may end at any time. In each case the thread locks the mutex before
it goes on.

Time is not modelled: the argument `timewait` of the timed operations is left out.

## Main definitions

* `Call`, `Call.body`: the operations, and their bodies;
* `State`, `State.create`: a queue with the threads that use it;
* `Event`, `State.next`: the steps of the threads.
-/

namespace CppLearn.BlockingQueue

/-- The condition variables. -/
inductive Condition where
  /-- `cv_empty_` -/
  | empty
  /-- `cv_full_` -/
  | full
  deriving DecidableEq

/-- The operations of a queue of tasks. -/
inductive Call (Task : Type*) where
  | enqueue (task : Task)
  | forceEnqueue (task : Task)
  | tryEnqueue (task : Task)
  | enqueueFront (task : Task)
  | dequeue
  | tryDequeue
  | clear
  | size
  | full
  | empty
  deriving DecidableEq

/-- What an operation returns. -/
inductive Reply (Task : Type*) where
  | done
  | flag (value : Bool)
  | size (value : ℕ)
  /-- the result of `Dequeue`, or `true` from `TryDequeue` with the task in the out parameter -/
  | task (task : Task)
  deriving DecidableEq

/-- How a thread comes to hold the mutex. -/
inductive Arrival where
  /-- at the start of the operation -/
  | entered
  /-- in a wait, notified or for no reason -/
  | woken
  /-- in a timed wait, after the time -/
  | timedOut
  deriving DecidableEq

/-- What a thread does when it has the mutex: it waits, or it leaves with a reply after it has
changed the tasks and notified the threads that wait on a condition. -/
inductive Outcome (Task : Type*) where
  | wait (cv : Condition)
  | leave (reply : Reply Task) (tasks : List Task) (notified : Option Condition)
  /-- the front of an empty deque is read -/
  | undefined

/-- `cv.wait(lock, pred)`, and what follows it. -/
def waitUntil {Task : Type*} (cv : Condition) (pred : Bool) (rest : Outcome Task) : Outcome Task :=
  if pred then rest else .wait cv

/-- `cv.wait_for(lock, time, pred)`, and what follows it: the predicate is tested again after the
time, but its value is not used. -/
def waitFor {Task : Type*} (arrival : Arrival) (cv : Condition) (pred : Bool)
    (rest : Outcome Task) : Outcome Task :=
  if pred || arrival = .timedOut then rest else .wait cv

variable {ι Task : Type*}

namespace Call

/-- The operation waits for a limited time only. -/
def isTimed : Call Task → Bool
  | tryEnqueue _ | tryDequeue | full => true
  | _ => false

/-- The bodies of the operations, from locking the mutex to giving it up. -/
def body (capacity : ℕ) (tasks : List Task) (arrival : Arrival) : Call Task → Outcome Task
  | enqueue task =>
    waitUntil .full (tasks.length < capacity) (.leave .done (tasks ++ [task]) (some .empty))
  | forceEnqueue task => .leave .done (tasks ++ [task]) (some .empty)
  | tryEnqueue task =>
    waitFor arrival .full (tasks.length < capacity)
      (if tasks.length ≥ capacity then .leave (.flag false) tasks none
      else .leave (.flag true) (tasks ++ [task]) (some .empty))
  | enqueueFront task =>
    waitUntil .full (tasks.length < capacity) (.leave .done (task :: tasks) (some .empty))
  | dequeue =>
    waitUntil .empty (!tasks.isEmpty) (match tasks with
      | [] => .undefined
      | task :: rest => .leave (.task task) rest (some .full))
  | tryDequeue =>
    waitFor arrival .empty (!tasks.isEmpty) (if tasks.isEmpty then .leave (.flag false) tasks none
      else match tasks with
      | [] => .undefined
      | task :: rest => .leave (.task task) rest (some .full))
  | clear => .leave .done [] none
  | size => .leave (.size tasks.length) tasks none
  | full =>
    -- the wait has no predicate: it ends with the first wake-up
    match arrival with
    | .entered =>
      if tasks.length < capacity then .leave (.flag false) tasks none else .wait .full
    | _ => .leave (.flag (tasks.length ≥ capacity)) tasks none
  | empty => .leave (.flag (tasks.length = 0)) tasks none

/-- What a call with this reply does to a sequential deque. -/
def op : Call Task → Reply Task → Option (Deque.Op Task)
  | enqueue task, .done | forceEnqueue task, .done | tryEnqueue task, .flag true =>
    some (.pushBack task)
  | enqueueFront task, .done => some (.pushFront task)
  | dequeue, .task task | tryDequeue, .task task => some (.popFront task)
  | clear, .done => some .clear
  | _, _ => none

end Call

/-- Where a thread is. -/
inductive Thread (Task : Type*) where
  | outside
  /-- about to lock the mutex -/
  | locking (call : Call Task) (arrival : Arrival)
  /-- waiting, not notified -/
  | waiting (call : Call Task) (cv : Condition)
  deriving DecidableEq

/-- `notify_all` on `cv`. -/
def Thread.notify (cv : Condition) : Thread Task → Thread Task
  | waiting call cv' => if cv' = cv then locking call .woken else waiting call cv'
  | t => t

/-- The queue, the threads that use it, and the calls that have left, in the order of their last
locking of the mutex. -/
structure State (ι Task : Type*) where
  capacity : ℕ
  tasks : List Task
  threads : ι → Thread Task
  history : List (ι × Call Task × Reply Task)

/-- What happens at the queue. -/
inductive Event (ι Task : Type*) where
  /-- the thread calls an operation -/
  | call (i : ι) (call : Call Task)
  /-- the thread locks the mutex, and goes on until it gives it up -/
  | lock (i : ι)
  /-- the wait of the thread ends without a notification -/
  | wake (i : ι)
  /-- the time of the thread's wait is over -/
  | timeOut (i : ι)

namespace State

/-- The constructor. -/
def create (ι : Type*) {Task : Type*} (capacity : ℕ) : State ι Task where
  capacity
  tasks := []
  -- all threads are outside
  threads _ := .outside
  history := []

/-- The operations that the calls so far amount to. -/
def ops (s : State ι Task) : List (Deque.Op Task) :=
  s.history.filterMap fun (_, call, reply) => call.op reply

variable [DecidableEq ι]

/-- The state of one thread changes. -/
def setThread (s : State ι Task) (i : ι) (t : Thread Task) : State ι Task :=
  { s with threads := Function.update s.threads i t }

/-- The threads are notified; the thread that notifies is not one of those that wait. -/
def notify (s : State ι Task) : Option Condition → State ι Task
  | none => s
  | some cv => { s with threads := fun i => (s.threads i).notify cv }

/-- What an event does, where it can happen. -/
def next (s : State ι Task) : Event ι Task → Option (State ι Task)
  | .call i call =>
    match s.threads i with
    | .outside => some (s.setThread i (.locking call .entered))
    | _ => none
  | .lock i =>
    match s.threads i with
    | .locking call arrival =>
      match call.body s.capacity s.tasks arrival with
      | .wait cv => some (s.setThread i (.waiting call cv))
      | .leave reply tasks notified =>
        some { (s.setThread i .outside).notify notified with
          tasks, history := s.history ++ [(i, call, reply)] }
      | .undefined => none
    | _ => none
  | .wake i =>
    match s.threads i with
    | .waiting call _ => some (s.setThread i (.locking call .woken))
    | _ => none
  | .timeOut i =>
    match s.threads i with
    | .waiting call _ =>
      if call.isTimed then some (s.setThread i (.locking call .timedOut)) else none
    | _ => none

end State

end CppLearn.BlockingQueue

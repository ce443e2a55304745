import CppLearn.Lib.Traces
import Mathlib.Logic.Function.Basic

/-!
# The singletons of `singleton.h`

`Instance` tests the pointer, locks the mutex, and tests the pointer again before it constructs the
object. The first test is not protected, so it may miss a pointer that another thread has stored.
Threads that have seen the pointer, or have held the mutex, read what is stored. The objects are
numbered in the order in which they are constructed, and a constructor may throw.

`Get` is `Instance` without arguments, and the singleton of the design patterns is the same without
arguments and with a plain pointer, so that `reset` stores only.

`Point` says where a thread is in `Instance`. A `State` has the static members with the threads, and
`State.next` is what an `Event` does to it.
-/

namespace CppLearn.Singleton

/-- Where a thread is in `Instance(args)`. -/
inductive Point (Args : Type*) where
  | outside
  /-- before the first test -/
  | testing (args : Args)
  /-- before the mutex is locked -/
  | locking (args : Args)
  /-- before the second test -/
  | locked (args : Args)
  /-- before `new T(args)` -/
  | constructing (args : Args)
  /-- before `instance_.reset(object)` -/
  | resetting (object : ℕ)
  /-- before the mutex is unlocked -/
  | unlocking
  /-- before `instance_` is read for the result -/
  | reading
  deriving DecidableEq

/-- The static members, with the objects that were constructed and deleted, the results of the
calls, and the threads. -/
structure State (Thread Args : Type*) where
  instance_ : Option ℕ
  mutex : Option Thread
  constructed : List Args
  deleted : List ℕ
  results : List (Option ℕ)
  points : Thread → Point Args

/-- Before the first call. -/
def State.create (Thread Args : Type*) : State Thread Args :=
  ⟨none, none, [], [], [], fun _ => .outside⟩

/-- The events. -/
inductive Event (Thread Args : Type*) where
  | call (t : Thread) (args : Args)
  /-- the first test, and whether it finds the pointer -/
  | test (t : Thread) (found : Bool)
  | step (t : Thread)
  /-- the constructor throws -/
  | throws (t : Thread)

variable {Thread Args : Type*} [DecidableEq Thread]

/-- The thread `t` is at another point. -/
def State.goto (s : State Thread Args) (t : Thread) (point : Point Args) : State Thread Args :=
  { s with points := Function.update s.points t point }

/-- The next step of a thread after the first test. -/
def State.step (s : State Thread Args) (t : Thread) : Option (State Thread Args) :=
  match s.points t with
  | .locking args =>
    if s.mutex = none then some { s.goto t (.locked args) with mutex := t } else none
  | .locked args => some (s.goto t (if s.instance_ = none then .constructing args else .unlocking))
  | .constructing args =>
    some { s.goto t (.resetting s.constructed.length) with constructed := s.constructed ++ [args] }
  | .resetting object =>
    -- `reset` deletes the object that the pointer has owned
    some { s.goto t .unlocking with
      instance_ := object
      deleted := s.deleted ++ s.instance_.toList }
  | .unlocking => some { s.goto t .reading with mutex := none }
  | .reading => some { s.goto t .outside with results := s.results ++ [s.instance_] }
  | _ => none

/-- The state after an event. -/
def State.next (s : State Thread Args) : Event Thread Args → Option (State Thread Args)
  | .call t args => if s.points t matches .outside then some (s.goto t (.testing args)) else none
  | .test t found =>
    match s.points t with
    | .testing args =>
      if found = true ∧ s.instance_ = none then none
      else some (s.goto t (if found then .reading else .locking args))
    | _ => none
  | .step t => s.step t
  | .throws t =>
    match s.points t with
    | .constructing _ => some { s.goto t .outside with mutex := none }
    | _ => none

end CppLearn.Singleton

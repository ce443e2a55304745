import CppLearn.Reactor.Defs

/-!
# Requests and responses of one handler

`Dispatch` calls `Handler::Read` and `Handler::Write` on the thread of the event loop. `Read` puts a
request into `request_q_` and submits a task; the task holds the mutex of the handler while it
answers all requests, and its call-back then asks for a write event. `Write` takes one response,
without looking whether there is one.

Here the steps of both sides are those on the queues, on the type of the handler and on the mutex,
in any order. `RegisterEventHandler` and `ClearEventHandler` touch neither the queues nor the type.

`Exchange.State.next` is what a step does. The invariant `Exchange.Inv` balances requests, tasks,
responses and call-backs, and all steps keep it (`Exchange.Inv.next`). So `Write` always finds a
response (`Exchange.run_write_ne_nil`).
-/

namespace CppLearn.Reactor.Exchange

open Traces

/-- Where the event loop is. -/
inductive Loop where
  | idle
  /-- `Read` was called. -/
  | read
  /-- `Read` has pushed the request. -/
  | pushed
  /-- `Write` was called. -/
  | write
  /-- `Write` has returned. -/
  | written
  deriving DecidableEq

/-- What the task that holds the mutex does next. -/
inductive Worker where
  /-- `request_q_.empty()`. -/
  | test
  | front
  | pop
  | push
  /-- `SetType(kWrite)` in the call-back. -/
  | callback
  /-- `RegisterEventHandler` in the call-back, and the end of the task. -/
  | unlock
  deriving DecidableEq

/-- A handler, with the thread of the event loop and the tasks that were submitted for it. -/
structure State where
  handler : Handler
  loop : Loop
  /-- How many tasks have not locked the mutex yet. -/
  waiting : ℕ
  /-- The task that holds the mutex. -/
  holder : Option Worker
  /-- How often `Write` was called. -/
  writes : ℕ
  /-- How many call-backs have set the type to `kWrite`. -/
  callbacks : ℕ
  /-- How many responses were pushed. -/
  responses : ℕ

/-- What can happen. -/
inductive Event where
  /-- The loop finds `EPOLLERR`, and sets the type to `kError`. -/
  | error
  /-- `Dispatch` looks at the type. -/
  | dispatch
  /-- `Read` pushes what it has received, or sets the type to `kError`. -/
  | read (received : Option String)
  /-- `Read` submits a task if there is a request. -/
  | submit
  /-- The body of `Write`, with the mutex. -/
  | write
  /-- `SetType(kRead)` after `Write`. -/
  | setRead
  /-- A task locks the mutex. -/
  | lock
  /-- The task that holds the mutex goes on. -/
  | work

namespace State

/-- A new handler of a connection. -/
def init (fd : ℕ) : State := ⟨.create fd .kRead, .idle, 0, none, 0, 0, 0⟩

def setType (s : State) (type : EventType) : State :=
  { s with handler := { s.handler with eventType := type } }

def setRequestQ (s : State) (q : List String) : State :=
  { s with handler := { s.handler with requestQ := q } }

def setResponseQ (s : State) (q : List String) : State :=
  { s with handler := { s.handler with responseQ := q } }

/-- The next step of the task that holds the mutex. -/
def work (s : State) : Worker → Option State
  | .test => some { s with holder := some (if s.handler.requestQ = [] then .callback else .front) }
  | .front => if s.handler.requestQ = [] then none else some { s with holder := some .pop }
  | .pop =>
    match s.handler.requestQ with
    | [] => none
    | _ :: q => some { s.setRequestQ q with holder := some .push }
  | .push =>
    some { s.setResponseQ (s.handler.responseQ ++ [processor]) with
      holder := some .test, responses := s.responses + 1 }
  | .callback =>
    some { s.setType .kWrite with holder := some .unlock, callbacks := s.callbacks + 1 }
  | .unlock => some { s with holder := none }

/-- What an event does in a state, if it can happen. -/
def next (s : State) : Event → Option State
  | .error => if s.loop = .idle then some (s.setType .kError) else none
  | .dispatch =>
    if s.loop = .idle then
      match s.handler.eventType with
      | .kRead => some { s with loop := .read }
      | .kWrite => some { s with loop := .write, writes := s.writes + 1 }
      -- another handler is created, or this one is cleared
      | .kAccept | .kError => some s
    else none
  | .read received =>
    if s.loop = .read then
      match received with
      | none => some { s.setType .kError with loop := .idle }
      | some data => some { s.setRequestQ (s.handler.requestQ ++ [data]) with loop := .pushed }
    else none
  | .submit =>
    if s.loop = .pushed then
      if s.handler.requestQ = [] then some { s with loop := .idle }
      else some { s with loop := .idle, waiting := s.waiting + 1 }
    else none
  | .write =>
    if s.loop = .write ∧ s.holder = none then
      match s.handler.responseQ with
      -- `front` of an empty queue
      | [] => none
      | _ :: q => some { s.setResponseQ q with loop := .written }
    else none
  | .setRead => if s.loop = .written then some { s.setType .kRead with loop := .idle } else none
  | .lock =>
    if s.holder = none ∧ 0 < s.waiting then
      some { s with waiting := s.waiting - 1, holder := some .test }
    else none
  | .work => s.holder.bind s.work

end State

/-! ## The invariant -/

/-- The request for which no task was submitted yet. -/
@[simp]
def Loop.unserved : Loop → ℕ
  | .pushed => 1
  | .idle | .read | .write | .written => 0

/-- The call of `Write` that has not taken its response yet. -/
@[simp]
def Loop.writing : Loop → ℕ
  | .write => 1
  | .idle | .read | .pushed | .written => 0

/-- The call-back that no `Write` has answered yet, while the type is `kWrite`. -/
@[simp]
def Loop.armed : Loop → EventType → ℕ
  | .idle, type | .read, type | .pushed, type => if type = .kWrite then 1 else 0
  | .write, _ | .written, _ => 0

/-- The call-back that the task with the mutex still has to make. -/
@[simp]
def Worker.active : Worker → ℕ
  | .test | .front | .pop | .push | .callback => 1
  | .unlock => 0

/-- The request that was popped and not answered yet. -/
@[simp]
def Worker.popped : Worker → ℕ
  | .push => 1
  | .test | .front | .pop | .callback | .unlock => 0

/-- The call-back for which there is a response already. -/
@[simp]
def Worker.answered : Worker → ℕ
  | .callback => 1
  | .test | .front | .pop | .push | .unlock => 0

/-- The invariant. -/
structure Inv (s : State) : Prop where
  /-- There was a request for every task. -/
  tasks_le : s.waiting + s.holder.elim 0 Worker.active + s.callbacks + s.loop.unserved ≤
    s.responses + s.handler.requestQ.length + s.holder.elim 0 Worker.popped
  /-- There was a response for every call-back. -/
  callbacks_le : s.callbacks + s.holder.elim 0 Worker.answered ≤ s.responses
  writes_le : s.writes + s.loop.armed s.handler.eventType ≤ s.callbacks
  responses_eq : s.responses + s.loop.writing = s.writes + s.handler.responseQ.length

variable {s s' : State} {e : Event} {w : Worker} {fd : ℕ}

theorem inv_init : Inv (.init fd) := ⟨Nat.le_refl 0, Nat.le_refl 0, Nat.le_refl 0, rfl⟩

/-- The type `kWrite` counts for one call-back at most. -/
theorem armed_le_one (loop : Loop) (type : EventType) : loop.armed type ≤ 1 := by
  cases loop <;> cases type <;> simp

/-- The steps of the task that holds the mutex. -/
theorem Inv.work (h : Inv s) (hholder : s.holder = some w) (hw : s.work w = some s') : Inv s' := by
  obtain ⟨htasks, hcallbacks, hwrites, hresponses⟩ := h
  rw [hholder] at htasks hcallbacks
  cases w with
  | test =>
    obtain rfl := Option.some.inj hw
    by_cases hq : s.handler.requestQ = []
    · -- no request is left: there are at least as many responses as tasks
      refine ⟨?_, ?_, hwrites, hresponses⟩ <;> simp [hq] at * <;> omega
    · exact ⟨by simpa [hq] using htasks, by simpa [hq] using hcallbacks, hwrites, hresponses⟩
  | front =>
    simp only [State.work] at hw
    split_ifs at hw
    obtain rfl := Option.some.inj hw
    exact ⟨htasks, hcallbacks, hwrites, hresponses⟩
  | pop =>
    simp only [State.work] at hw
    split at hw
    · cases hw
    next q hq =>
      obtain rfl := Option.some.inj hw
      refine ⟨?_, hcallbacks, hwrites, hresponses⟩
      simp [State.setRequestQ, hq] at *
      omega
  | push =>
    obtain rfl := Option.some.inj hw
    refine ⟨?_, ?_, hwrites, ?_⟩ <;> simp [State.setResponseQ] at * <;> omega
  | callback =>
    obtain rfl := Option.some.inj hw
    have := armed_le_one s.loop .kWrite
    refine ⟨?_, ?_, ?_, hresponses⟩ <;> simp [State.setType] at * <;> omega
  | unlock =>
    obtain rfl := Option.some.inj hw
    exact ⟨htasks, hcallbacks, hwrites, hresponses⟩

/-- All steps keep the invariant. -/
theorem Inv.next (h : Inv s) (hnext : s.next e = some s') : Inv s' := by
  have hinv := h
  obtain ⟨htasks, hcallbacks, hwrites, hresponses⟩ := h
  cases e with
  | work =>
    obtain ⟨w, hholder, hw⟩ := Option.bind_eq_some_iff.1 hnext
    exact hinv.work hholder hw
  | error =>
    simp only [State.next] at hnext
    split_ifs at hnext with hloop
    obtain rfl := Option.some.inj hnext
    refine ⟨htasks, hcallbacks, ?_, hresponses⟩
    simp [State.setType, hloop]
    omega
  | dispatch =>
    simp only [State.next] at hnext
    split_ifs at hnext with hloop
    rw [hloop] at htasks hwrites hresponses
    split at hnext <;> obtain rfl := Option.some.inj hnext
    next htype =>
      exact ⟨htasks, hcallbacks, by simpa [htype] using hwrites, hresponses⟩
    next htype =>
      -- the type says that there is a call-back which no `Write` has answered
      refine ⟨htasks, hcallbacks, ?_, ?_⟩ <;> simp [htype] at * <;> omega
    all_goals exact ⟨by rwa [hloop], hcallbacks, by rwa [hloop], by rwa [hloop]⟩
  | read received =>
    simp only [State.next] at hnext
    split_ifs at hnext with hloop
    rw [hloop] at htasks hwrites hresponses
    split at hnext <;> obtain rfl := Option.some.inj hnext
    · refine ⟨htasks, hcallbacks, ?_, hresponses⟩
      simp [State.setType]
      omega
    · refine ⟨?_, hcallbacks, hwrites, hresponses⟩
      simp [State.setRequestQ] at *
      omega
  | submit =>
    simp only [State.next] at hnext
    split_ifs at hnext with hloop hq <;> obtain rfl := Option.some.inj hnext <;>
      rw [hloop] at htasks hwrites hresponses
    all_goals
      refine ⟨?_, hcallbacks, hwrites, hresponses⟩
      simp only [Loop.unserved] at *
      omega
  | write =>
    simp only [State.next] at hnext
    split_ifs at hnext with hloop
    rw [hloop.1] at htasks hwrites hresponses
    split at hnext
    · cases hnext
    next q hq =>
      obtain rfl := Option.some.inj hnext
      refine ⟨htasks, hcallbacks, hwrites, ?_⟩
      simp [State.setResponseQ, hq] at *
      omega
  | setRead =>
    simp only [State.next] at hnext
    split_ifs at hnext with hloop
    obtain rfl := Option.some.inj hnext
    rw [hloop] at htasks hwrites hresponses
    exact ⟨htasks, hcallbacks, by simpa [State.setType] using hwrites, hresponses⟩
  | lock =>
    simp only [State.next] at hnext
    split_ifs at hnext with hlock
    obtain rfl := Option.some.inj hnext
    rw [hlock.1] at htasks hcallbacks
    refine ⟨?_, hcallbacks, hwrites, hresponses⟩
    have := hlock.2
    simp at *
    omega

/-- All states that a handler of a connection can reach. -/
theorem inv_of_run {es : List Event} (hrun : run State.next (.init fd) es = some s) : Inv s :=
  run_invariant (P := fun _ s => Inv s) inv_init (fun _ _ _ _ h hnext => h.next hnext) hrun

/-- There is a response for a call of `Write`. -/
theorem Inv.write_ne_nil (h : Inv s) (hloop : s.loop = .write) : s.handler.responseQ ≠ [] := by
  intro hq
  obtain ⟨-, hcallbacks, hwrites, hresponses⟩ := h
  simp only [hloop, hq, Loop.writing, List.length_nil] at hresponses
  omega

/-- In every state that a handler of a connection can reach, `Write` was called at most as often as
call-backs have set the type, and no more of these were made than responses were pushed; and
whenever `Write` was called and has not taken a response yet, there is one. -/
theorem run_write_ne_nil (fd : ℕ) (es : List Event) (hrun : run State.next (.init fd) es = some s) :
    (s.loop = .write → s.handler.responseQ ≠ []) ∧ s.writes ≤ s.callbacks ∧
      s.callbacks ≤ s.responses := by
  have hinv := inv_of_run hrun
  have hcallbacks := hinv.callbacks_le
  have hwrites := hinv.writes_le
  exact ⟨hinv.write_ne_nil, by omega, by omega⟩

/-- One task answers two requests and the other one none; `Write` is called for both of them. -/
theorem run_write_ne_nil_two :
    ∃ s, run State.next (.init 5) [.dispatch, .read (some "a"), .submit, .dispatch,
        .read (some "b"), .submit, .lock, .work, .work, .work, .work, .work, .work, .work, .work,
        .work, .work, .work, .dispatch, .write, .lock, .work, .setRead, .work, .dispatch] = some s ∧
      s.loop = .write ∧ s.writes = 2 ∧ s.handler.responseQ ≠ [] :=
  ⟨_, rfl, rfl, rfl, (run_write_ne_nil 5 [.dispatch, .read (some "a"), .submit, .dispatch,
    .read (some "b"), .submit, .lock, .work, .work, .work, .work, .work, .work, .work, .work,
    .work, .work, .work, .dispatch, .write, .lock, .work, .setRead, .work, .dispatch] rfl).1 rfl⟩

end CppLearn.Reactor.Exchange

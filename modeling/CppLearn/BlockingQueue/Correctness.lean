import CppLearn.BlockingQueue.Defs

/-!
# The blocking queue is a deque

The calls, in the order of their last locking of the mutex, act on the tasks as on a sequential
deque. What is said about sequential deques in `Deque` then holds for every interleaving.

What an event does to the queue is a `Step`, and what a call does to the tasks when it leaves is an
`Effect`; there is one lemma about the bodies for each of the two ways in which they end
(`body_effect`, `body_wait`). The result for all runs is `run_deque`. It also says that without
`ForceEnqueue` the queue keeps to its capacity (`Bounded`).
-/

namespace CppLearn.BlockingQueue

open Traces

variable {ι Task : Type*} {capacity : ℕ} {tasks tasks' : List Task} {arrival : Arrival}
  {call : Call Task} {reply : Reply Task} {notified : Option Condition} {cv : Condition}

/-! ## Bodies -/

/-- What a call that leaves does to the tasks, and whom it notifies. -/
inductive Effect (capacity : ℕ) (tasks : List Task) :
    Call Task → Reply Task → List Task → Option Condition → Prop
  | keeps {call : Call Task} {reply : Reply Task} : call.op reply = none →
      Effect capacity tasks call reply tasks none
  | pushesBack {call : Call Task} {reply : Reply Task} (task : Task) :
      call.op reply = some (.pushBack task) →
      call = .forceEnqueue task ∨ tasks.length < capacity →
      Effect capacity tasks call reply (tasks ++ [task]) (some .empty)
  | pushesFront {call : Call Task} {reply : Reply Task} (task : Task) :
      call.op reply = some (.pushFront task) → tasks.length < capacity →
      Effect capacity tasks call reply (task :: tasks) (some .empty)
  | pops {call : Call Task} {reply : Reply Task} {rest : List Task} (task : Task) :
      call.op reply = some (.popFront task) → tasks = task :: rest →
      Effect capacity tasks call reply rest (some .full)
  | clears : Effect capacity tasks .clear .done [] none

/-- A call that leaves has found its predicate true. -/
theorem waitUntil_eq_leave {pred : Bool} {rest : Outcome Task}
    (h : waitUntil cv pred rest = .leave reply tasks' notified) :
    pred = true ∧ rest = .leave reply tasks' notified := by
  unfold waitUntil at h
  split at h
  · exact ⟨‹_›, h⟩
  · cases h

/-- With a time limit, it may be false. -/
theorem waitFor_eq_leave {pred : Bool} {rest : Outcome Task}
    (h : waitFor arrival cv pred rest = .leave reply tasks' notified) :
    rest = .leave reply tasks' notified := by
  unfold waitFor at h
  split at h
  · exact h
  · cases h

/-- A body that leaves. -/
theorem body_effect (h : call.body capacity tasks arrival = .leave reply tasks' notified) :
    Effect capacity tasks call reply tasks' notified := by
  cases call with
  | enqueue task =>
    -- the predicate of the wait held, so there is room
    obtain ⟨hpred, hrest⟩ := waitUntil_eq_leave h
    cases hrest
    exact .pushesBack task rfl (.inr (of_decide_eq_true hpred))
  | forceEnqueue task =>
    cases h
    exact .pushesBack task rfl (.inl rfl)
  | tryEnqueue task =>
    -- `wait_for` also returns at the deadline, so the size is tested again
    have hrest := waitFor_eq_leave h
    split at hrest
    · cases hrest
      exact .keeps rfl
    · cases hrest
      exact .pushesBack task rfl (.inr (Nat.lt_of_not_le ‹_›))
  | enqueueFront task =>
    obtain ⟨hpred, hrest⟩ := waitUntil_eq_leave h
    cases hrest
    exact .pushesFront task rfl (of_decide_eq_true hpred)
  | dequeue =>
    -- on an empty deque the body would be undefined, not leave
    obtain ⟨-, hrest⟩ := waitUntil_eq_leave h
    cases tasks with
    | nil => cases hrest
    | cons task rest =>
      cases hrest
      exact .pops task rfl rfl
  | tryDequeue =>
    have hrest := waitFor_eq_leave h
    cases tasks with
    | nil =>
      cases hrest
      exact .keeps rfl
    | cons task rest =>
      cases hrest
      exact .pops task rfl rfl
  | clear =>
    cases h
    exact .clears
  | size =>
    cases h
    exact .keeps rfl
  | full =>
    -- whether it waited or not, `Full` only compares the size
    simp only [Call.body] at h
    split at h
    · split at h
      · cases h
        exact .keeps rfl
      · cases h
    · cases h
      exact .keeps rfl
  | empty =>
    cases h
    exact .keeps rfl

/-- A call that waits has found it false. -/
theorem waitUntil_eq_wait {cv' : Condition} {pred : Bool} {rest : Outcome Task}
    (h : waitUntil cv' pred rest = .wait cv) (hrest : rest ≠ .wait cv) :
    cv = cv' ∧ pred = false := by
  unfold waitUntil at h
  split at h
  · exact absurd h hrest
  · cases h
    exact ⟨rfl, eq_false_of_ne_true ‹_›⟩

/-- So has a call with a time limit. -/
theorem waitFor_eq_wait {cv' : Condition} {pred : Bool} {rest : Outcome Task}
    (h : waitFor arrival cv' pred rest = .wait cv) (hrest : rest ≠ .wait cv) :
    cv = cv' ∧ pred = false := by
  unfold waitFor at h
  split at h
  · exact absurd h hrest
  case isFalse hpred =>
    cases h
    rw [Bool.or_eq_true, not_or] at hpred
    exact ⟨rfl, eq_false_of_ne_true hpred.1⟩

/-- A thread waits on `cv_full_` only if the queue is full, and on `cv_empty_` only if it is
empty. -/
theorem body_wait (h : call.body capacity tasks arrival = .wait cv) :
    (cv = .full ∧ capacity ≤ tasks.length) ∨ (cv = .empty ∧ tasks = []) := by
  have hfull : decide (tasks.length < capacity) = false → capacity ≤ tasks.length :=
    fun hpred => Nat.le_of_not_lt (of_decide_eq_false hpred)
  cases call with
  | enqueue task | enqueueFront task =>
    obtain ⟨rfl, hpred⟩ := waitUntil_eq_wait h nofun
    exact .inl ⟨rfl, hfull hpred⟩
  | tryEnqueue task =>
    obtain ⟨rfl, hpred⟩ := waitFor_eq_wait h (by split <;> nofun)
    exact .inl ⟨rfl, hfull hpred⟩
  | dequeue =>
    obtain ⟨rfl, hpred⟩ := waitUntil_eq_wait h (by split <;> nofun)
    exact .inr ⟨rfl, by simpa using hpred⟩
  | tryDequeue =>
    obtain ⟨rfl, hpred⟩ := waitFor_eq_wait h (by split <;> (try split) <;> nofun)
    exact .inr ⟨rfl, by simpa using hpred⟩
  | full =>
    -- `Full` waits with no predicate, but only after it has seen the queue full
    simp only [Call.body] at h
    split at h
    · split at h
      · cases h
      · cases h
        exact .inl ⟨rfl, Nat.le_of_not_lt ‹_›⟩
    · cases h
  | forceEnqueue task | clear | size | empty => cases h

/-! ## Steps -/

/-- The call that a thread is in. -/
def Thread.call? : Thread Task → Option (Call Task)
  | .outside => none
  | .locking call _ | .waiting call _ => some call

variable {s s' : State ι Task} {e : Event ι Task} {i j : ι}

/-- The capacity never changes. -/
@[simp]
theorem notify_capacity : (s.notify notified).capacity = s.capacity := by
  cases notified <;> rfl

/-- A notification does not change which call a thread is in. -/
@[simp]
theorem notify_call (j : ι) : ((s.notify notified).threads j).call? = (s.threads j).call? := by
  cases notified with
  | none => rfl
  | some cv =>
    simp only [State.notify]
    cases s.threads j with
    | waiting call cv' =>
      simp only [Thread.notify]
      split <;> rfl
    | _ => rfl

variable [DecidableEq ι]

/-- A step changes its own thread, -/
@[simp]
theorem setThread_self (t : Thread Task) : (s.setThread i t).threads i = t :=
  Function.update_self ..

/-- and no other one. -/
theorem setThread_of_ne (hj : j ≠ i) (t : Thread Task) :
    (s.setThread i t).threads j = s.threads j :=
  Function.update_of_ne hj ..

/-- What the events do to a queue. -/
inductive Step (s : State ι Task) : Event ι Task → State ι Task → Prop
  | calls (i : ι) (call : Call Task) : s.threads i = .outside →
      Step s (.call i call) (s.setThread i (.locking call .entered))
  | waits (i : ι) (call : Call Task) (arrival : Arrival) (cv : Condition) :
      s.threads i = .locking call arrival →
      (cv = .full ∧ s.capacity ≤ s.tasks.length) ∨ (cv = .empty ∧ s.tasks = []) →
      Step s (.lock i) (s.setThread i (.waiting call cv))
  | leaves (i : ι) (call : Call Task) (arrival : Arrival) (reply : Reply Task) (tasks : List Task)
      (notified : Option Condition) : s.threads i = .locking call arrival →
      Effect s.capacity s.tasks call reply tasks notified →
      Step s (.lock i) { (s.setThread i .outside).notify notified with
        tasks, history := s.history ++ [(i, call, reply)] }
  | wakes (e : Event ι Task) (i : ι) (call : Call Task) (cv : Condition) (arrival : Arrival) :
      s.threads i = .waiting call cv → Step s e (s.setThread i (.locking call arrival))

/-- All steps of the model are steps in this sense. -/
theorem next_step (h : s.next e = some s') : Step s e s' := by
  cases e with
  | call i call =>
    simp only [State.next] at h
    split at h
    case h_1 hi =>
      obtain rfl := Option.some.inj h
      exact .calls i call hi
    case h_2 => cases h
  | lock i =>
    simp only [State.next] at h
    split at h
    case h_1 call arrival hi =>
      split at h
      -- the body ends in a wait, in a return, or nowhere
      case h_1 cv hbody =>
        obtain rfl := Option.some.inj h
        exact .waits i call arrival cv hi (body_wait hbody)
      case h_2 reply tasks notified hbody =>
        obtain rfl := Option.some.inj h
        exact .leaves i call arrival reply tasks notified hi (body_effect hbody)
      case h_3 => cases h
    case h_2 => cases h
  | wake i =>
    simp only [State.next] at h
    split at h
    case h_1 call cv hi =>
      obtain rfl := Option.some.inj h
      exact .wakes _ i call cv .woken hi
    case h_2 => cases h
  | timeOut i =>
    simp only [State.next] at h
    split at h
    case h_1 call cv hi =>
      split at h
      · obtain rfl := Option.some.inj h
        exact .wakes _ i call cv .timedOut hi
      · cases h
    case h_2 => cases h

/-- No step changes the capacity. -/
theorem Step.capacity_eq (h : Step s e s') : s'.capacity = s.capacity := by
  cases h with
  | leaves => exact notify_capacity
  | _ => rfl

/-! ## The sequential deque -/

/-- The calls so far act on the tasks as on a sequential deque. -/
theorem Step.acts (h : Step s e s') (hacts : Deque.Acts [] s.ops s.tasks) :
    Deque.Acts [] s'.ops s'.tasks := by
  cases h with
  -- only a call that returns adds an operation; the other steps leave the tasks as they are
  | leaves i call arrival reply tasks notified hi heffect =>
    simp only [State.ops, List.filterMap_append, List.filterMap_cons, List.filterMap_nil]
      at hacts ⊢
    cases heffect with
    | keeps hop => simpa [hop] using hacts
    | pushesBack task hop => simpa only [hop] using hacts.pushBack task
    | pushesFront task hop => simpa only [hop] using hacts.pushFront task
    | pops task hop htasks =>
      rw [htasks] at hacts
      simpa only [hop] using hacts.popFront task
    | clears => exact hacts.clear
  | _ => exact hacts

/-- The calls that threads are in were made, and without calls of `ForceEnqueue` the queue keeps to
its capacity. -/
structure Bounded (capacity : ℕ) (es : List (Event ι Task)) (s : State ι Task) : Prop where
  capacity_eq : s.capacity = capacity
  called : ∀ i call, (s.threads i).call? = some call → .call i call ∈ es
  length_le : (∀ i task, .call i (.forceEnqueue task) ∉ es) → s.tasks.length ≤ capacity

/-- The length after an operation that keeps to the capacity. -/
theorem Effect.length_le (h : Effect capacity tasks call reply tasks' notified)
    (hforce : ∀ task, call ≠ .forceEnqueue task) (hle : tasks.length ≤ capacity) :
    tasks'.length ≤ capacity := by
  cases h with
  | keeps => exact hle
  | pushesBack task hop hcase =>
    have hlt := hcase.resolve_left (hforce task)
    rw [List.length_append, List.length_singleton]
    omega
  | pushesFront task hop hlt =>
    rw [List.length_cons]
    omega
  | pops task hop htasks =>
    rw [htasks, List.length_cons] at hle
    omega
  | clears => exact Nat.zero_le _

/-- The calls that the threads are in after a step. -/
theorem Step.called {es : List (Event ι Task)} (h : Step s e s')
    (hcalled : ∀ i call, (s.threads i).call? = some call → .call i call ∈ es) :
    ∀ i call, (s'.threads i).call? = some call → .call i call ∈ es ++ [e] := by
  -- a thread that changes is in a call that was made; the others are where they were
  have hset : ∀ i t call', t.call? = some call' → .call i call' ∈ es ++ [e] →
      ∀ j call, ((s.setThread i t).threads j).call? = some call → .call j call ∈ es ++ [e] := by
    intro i t call' ht hmem j call hj
    by_cases hji : j = i
    · subst hji
      rw [setThread_self, ht] at hj
      obtain rfl := Option.some.inj hj
      exact hmem
    · rw [setThread_of_ne hji] at hj
      exact List.mem_append_left _ (hcalled j call hj)
  cases h with
  | calls i call hi => exact hset i _ call rfl (by simp)
  | waits i call arrival cv hi =>
    exact hset i _ call rfl (List.mem_append_left _ (hcalled i call (by rw [hi]; rfl)))
  | wakes e i call cv arrival hi =>
    exact hset i _ call rfl (List.mem_append_left _ (hcalled i call (by rw [hi]; rfl)))
  | leaves i call arrival reply tasks notified hi heffect =>
    intro j call' hj
    simp only [notify_call] at hj
    by_cases hji : j = i
    · subst hji
      rw [setThread_self] at hj
      cases hj
    · rw [setThread_of_ne hji] at hj
      exact List.mem_append_left _ (hcalled j call' hj)

/-- The number of tasks stays within it. -/
theorem Bounded.step {es : List (Event ι Task)} (h : Bounded capacity es s) (hstep : Step s e s') :
    Bounded capacity (es ++ [e]) s' where
  capacity_eq := hstep.capacity_eq.trans h.capacity_eq
  called := hstep.called h.called
  length_le hforce := by
    have hle := h.length_le fun i task hmem => hforce i task (List.mem_append_left _ hmem)
    cases hstep with
    | leaves i call arrival reply tasks notified hi heffect =>
      rw [h.capacity_eq] at heffect
      refine heffect.length_le (fun task hcall => ?_) hle
      -- the call that leaves was made
      have hmem := h.called i call (by rw [hi]; rfl)
      rw [hcall] at hmem
      exact hforce i task (List.mem_append_left _ hmem)
    | _ => exact hle

/-- A call with the result `false` of `TryEnqueue` or `TryDequeue` leaves the tasks as they are. -/
theorem Step.tasks_of_false (h : Step s e s')
    (hhistory : s'.history = s.history ++ [(i, call, .flag false)]) : s'.tasks = s.tasks := by
  cases h with
  | leaves j call' arrival reply tasks notified hj heffect =>
    -- the call that returned `false` is the one that the step added to the history
    obtain ⟨-, hlast⟩ := List.append_inj' hhistory rfl
    simp only [List.cons.injEq, Prod.mk.injEq, and_true] at hlast
    obtain ⟨rfl, rfl, rfl⟩ := hlast
    cases heffect with
    | keeps => rfl
    -- an operation that changes the tasks does not return `false`
    | pushesBack task hop => cases call' <;> cases hop
    | pushesFront task hop => cases call' <;> cases hop
    | pops task hop => cases call' <;> cases hop
  | _ => rfl

/-- In every interleaving the queue behaves as one sequential deque, on which the calls act in the
order of their last locking of the mutex. Its ledger accounts for all tasks: those that were
delivered were inserted before and are delivered once, and with those that are queued or were
discarded by `Clear` they are all that were inserted; tasks inserted at the back are delivered in
the order of insertion. `TryEnqueue` and `TryDequeue` change nothing when they return `false`.
Without calls of `ForceEnqueue` the length is at most the capacity. -/
theorem run_deque (es : List (Event ι Task))
    (hrun : run State.next (State.create ι capacity) es = some s) :
    Deque.Acts [] s.ops s.tasks ∧
      (Deque.ledger s.ops).Sound s.tasks (Deque.popped s.ops) ∧
      (∀ e s' i call, s.next e = some s' →
        s'.history = s.history ++ [(i, call, .flag false)] → s'.tasks = s.tasks) ∧
      ((∀ i task, .call i (.forceEnqueue task) ∉ es) → s.tasks.length ≤ capacity) := by
  -- both are invariants of runs; the rest follows from the ledger of a sequential deque
  have hacts : Deque.Acts [] s.ops s.tasks :=
    run_invariant (P := fun _ s => Deque.Acts [] s.ops s.tasks) .nil
      (fun _ _ _ _ hacts hnext => (next_step hnext).acts hacts) hrun
  have hbounded : Bounded capacity es s :=
    run_invariant ⟨rfl, fun _ _ h => (by cases h), fun _ => Nat.zero_le _⟩
      (fun _ _ _ _ h hnext => h.step (next_step hnext)) hrun
  refine ⟨hacts, hacts.sound, fun e s' i call hnext hhistory => ?_, hbounded.length_le⟩
  exact (next_step hnext).tasks_of_false hhistory

/-- The second `Enqueue` on a queue of capacity 1 waits until the first task is dequeued; meanwhile
a `TryEnqueue` times out. -/
def oneSlot : List (Event ℕ ℕ) :=
  [.call 0 (.enqueue 7), .lock 0, .call 0 (.enqueue 8), .lock 0, .call 1 (.tryEnqueue 9), .lock 1,
    .timeOut 1, .lock 1, .call 2 .dequeue, .lock 2, .lock 0]

/-- Two threads that put a task each, and a third one that takes the first of them. -/
theorem run_deque_oneSlot :
    ∃ s, run State.next (State.create ℕ 1) oneSlot = some s ∧ s.tasks = [8] ∧
      Deque.popped s.ops = [7] ∧ (Deque.ledger s.ops).Sound s.tasks (Deque.popped s.ops) ∧
      s.tasks.length ≤ 1 := by
  have hrun : run State.next (State.create ℕ 1) oneSlot = some _ := rfl
  obtain ⟨-, hsound, -, hlength⟩ := run_deque oneSlot hrun
  refine ⟨_, rfl, rfl, rfl, hsound, hlength fun i task hmem => ?_⟩
  simp [oneSlot] at hmem

end CppLearn.BlockingQueue

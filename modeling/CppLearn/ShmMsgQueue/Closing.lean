import CppLearn.ShmMsgQueue.Shutdown

/-!
# Closing the queue

`close` counts the counter of active producers down by one, as `signal_preducing_complete` does. An
iteration of `dequeue` that finds no message takes the queue for closed if the counter is exactly
zero. So the effect of `close` depends on all the calls that touch the counter: it closes the queue
only if the counter was one, and a later signal opens it again.

The counter is an integer here; its overflow, after 2^31 signals, is left out.

`Steps` are the runs of the clients, with their actions, and `Action.close` says that a client
closes the queue. The counter after a run is `Steps.activePreducerCount`. When an empty queue that
was closed is found closed is `close_closed_iff`.
-/

namespace CppLearn.ShmMsgQueue

/-- From the first state the actions, the oldest first, can lead to the second one. -/
inductive Steps (s₀ : State) : List Action → State → Prop
  | nil : Steps s₀ [] s₀
  | snoc {actions : List Action} {action : Action} {s s' : State} : Steps s₀ actions s →
      Step s action s' → Steps s₀ (actions ++ [action]) s'

/-- `close`, which signals the completion of a producer. -/
def Action.close (client : ℕ) : Action := .signalPreducingComplete client

/-- The action signals the completion of a producer. -/
def Action.isSignal : Action → Bool
  | .signalPreducingComplete _ => true
  | _ => false

variable {options : Options} {bufferAddr n : ℕ} {s₀ s : State} {q : Queue} {free msgs : List ℕ}
  {actions before later : List Action}

/-- Nodes stay in custody along a run, and the counter is what the actions make of it. -/
theorem Steps.activePreducerCount (h : Steps s₀ actions s) (hc : Custody n s₀ free msgs) :
    (∃ free' msgs', Custody n s free' msgs') ∧
      s.queue.activePreducerCount =
        actions.foldl Action.countAfter s₀.queue.activePreducerCount := by
  induction h with
  | nil => exact ⟨⟨free, msgs, hc⟩, rfl⟩
  | snoc _ hstep ih =>
    obtain ⟨⟨free', msgs', hc'⟩, hcount⟩ := ih
    refine ⟨hstep.custody hc', ?_⟩
    rw [hstep.activePreducerCount hc', hcount, List.foldl_append]
    rfl

/-- Without calls of `set_preducer_count` the counter goes down with each signal. -/
theorem foldl_countAfter (hset : ∀ count, .setPreducerCount count ∉ later) (count : ℤ) :
    later.foldl Action.countAfter count = count - later.countP Action.isSignal := by
  induction later generalizing count with
  | nil => simp
  | cons action later ih =>
    have htail : ∀ c, Action.setPreducerCount c ∉ later :=
      fun c hmem => hset c (List.mem_cons_of_mem action hmem)
    -- the counter at the end is the one after the first action, less the later signals
    rw [List.foldl_cons, ih htail, List.countP_cons]
    cases action with
    | setPreducerCount c => exact absurd List.mem_cons_self (hset c)
    | signalPreducingComplete client =>
      simp only [Action.countAfter, Action.isSignal, if_true]
      omega
    | _ => simp [Action.countAfter, Action.isSignal]

/-- An iteration of `dequeue` that finds no message looks at the counter. -/
theorem Custody.dequeue_of_empty (hc : Custody n s free msgs)
    (hempty : s.queue.chunkList.head = none) :
    s.queue.dequeue =
      .ok (if s.queue.activePreducerCount = 0 then .closed else .wait, s.queue) := by
  rcases hc.dequeue with ⟨-, hq⟩ | ⟨chunk, addr, size, rest, q, hq, -⟩
  · exact hq
  · simp [Queue.dequeue, ChunkList.pop, hempty, bind, Except.bind] at hq
    split at hq <;> simp at hq

/-- After a call of `close`, and any later actions other than `set_preducer_count`, an iteration of
`dequeue` that finds no message returns `closed` if and only if the counter, before that call of
`close`, was larger by one than the number of the signals after it. -/
theorem close_closed_iff (hinit : Queue.init options bufferAddr = .ok q) (client : ℕ)
    (hset : ∀ count, .setPreducerCount count ∉ later)
    (hrun : Steps ⟨q, [], [], []⟩ (before ++ .close client :: later) s)
    (hempty : s.queue.chunkList.head = none) :
    s.queue.dequeue = .ok (.closed, s.queue) ↔
      before.foldl Action.countAfter (-1) = 1 + later.countP Action.isSignal := by
  -- the counter is determined by the actions, whatever else they do
  obtain ⟨⟨free, msgs, hc⟩, hcount⟩ := hrun.activePreducerCount (init_custody hinit)
  have hinitial : q.activePreducerCount = -1 := (init_cases hinit).2.2.1
  rw [List.foldl_append, List.foldl_cons, foldl_countAfter hset, hinitial] at hcount
  -- `close` is one more signal
  simp only [Action.close, Action.countAfter] at hcount
  rw [hc.dequeue_of_empty hempty]
  split <;> simp <;> omega

/-- A small queue can be initialised. -/
theorem exists_init : ∃ q, Queue.init ⟨2, 1⟩ 4096 = .ok q ∧ q.chunkList.head = none := by
  have heval : (Queue.init ⟨2, 1⟩ 4096).toOption.map (·.chunkList.head) = some none := by
    decide +kernel
  cases hinit : Queue.init ⟨2, 1⟩ 4096 with
  | error e => simp [hinit, Except.toOption] at heval
  | ok q => exact ⟨q, rfl, by simpa [hinit, Except.toOption] using heval⟩

/-- With one producer announced, `close` closes the queue. -/
theorem close_closed_iff_one : ∃ q, Queue.init ⟨2, 1⟩ 4096 = .ok q ∧
    (q.setPreducerCount 1).close.dequeue = .ok (.closed, (q.setPreducerCount 1).close) := by
  obtain ⟨q, hinit, hempty⟩ := exists_init
  have hrun : Steps ⟨q, [], [], []⟩ ([.setPreducerCount 1] ++ .close 0 :: [])
      ⟨(q.setPreducerCount 1).close, [], [], []⟩ :=
    .snoc (.snoc .nil .setPreducerCount) .signalPreducingComplete
  exact ⟨q, hinit, (close_closed_iff hinit 0 (by simp) hrun hempty).2 rfl⟩

/-- Without a call of `set_preducer_count` the closed queue goes on waiting. -/
theorem close_waits : ∃ q, Queue.init ⟨2, 1⟩ 4096 = .ok q ∧
    Steps ⟨q, [], [], []⟩ [.close 0] ⟨q.close, [], [], []⟩ ∧ q.close.chunkList.head = none ∧
    q.close.dequeue = .ok (.wait, q.close) := by
  obtain ⟨q, hinit, hempty⟩ := exists_init
  have hrun : Steps ⟨q, [], [], []⟩ [.close 0] ⟨q.close, [], [], []⟩ :=
    .snoc .nil .signalPreducingComplete
  obtain ⟨⟨free, msgs, hc⟩, hcount⟩ := hrun.activePreducerCount (init_custody hinit)
  refine ⟨q, hinit, hrun, hempty, ?_⟩
  have hdequeue := hc.dequeue_of_empty hempty
  simp only [Action.close, List.foldl_cons, List.foldl_nil, Action.countAfter,
    (init_cases hinit).2.2.1] at hcount
  rwa [if_neg (by rw [hcount]; decide)] at hdequeue

end CppLearn.ShmMsgQueue

import CppLearn.ShmMsgQueue.Custody
import Mathlib.Data.Finset.Card
import Mathlib.Logic.Relation

/-!
# Shutting down

`set_preducer_count` tells the queue how many producers there are, and each of them calls
`signal_preducing_complete` after its last message. A consumer that finds no message and no active
producer is told that the queue is closed. Then all messages have been received, and no further
one will be sent.

A `Session` is the queue with its clients, and how far the producers are. The rules that the
producers keep to are `Session.Permits`, and the invariant is `Session.Counted`. Nothing is lost
when the queue is closed (`closed_complete`).
-/

namespace CppLearn.ShmMsgQueue

/-- A session: whether the number of producers has been set, and which of them are finished. -/
structure Session where
  state : State
  started : Bool
  finished : List ℕ

namespace Session

/-- The rules for `n` producers: their number is set once, before any of them starts, and a
producer that has signalled is finished. Consumers may come at any time. -/
def Permits (n : ℕ) (x : Session) : Action → Prop
  | .allocate client _ | .enqueue client _ | .signalPreducingComplete client =>
    x.started = true ∧ client < n ∧ client ∉ x.finished
  | .dequeue _ | .release _ _ => True
  | .setPreducerCount count => x.started = false ∧ count = n

/-- The session after an action that led to the state `s`. -/
def after (x : Session) (s : State) : Action → Session
  | .setPreducerCount _ => { x with state := s, started := true }
  | .signalPreducingComplete client => { x with state := s, finished := client :: x.finished }
  | _ => { x with state := s }

/-- An action by the rules. -/
def Next (n : ℕ) (x y : Session) : Prop :=
  ∃ action s, x.Permits n action ∧ Step x.state action s ∧ y = x.after s action

/-- The sessions of a new queue with `n` producers. -/
inductive Reachable (options : Options) (bufferAddr n : ℕ) : Session → Prop
  | init {q : Queue} : Queue.init options bufferAddr = .ok q →
      Reachable options bufferAddr n ⟨⟨q, [], [], []⟩, false, []⟩
  | next {x y : Session} : Reachable options bufferAddr n x → Next n x y →
      Reachable options bufferAddr n y

/-- The counter says how many producers are not finished, once their number is set. -/
structure Counted (n : ℕ) (x : Session) : Prop where
  count : x.state.queue.activePreducerCount =
    if x.started then (n : ℤ) - x.finished.length else -1
  waiting : x.started = false → x.finished = []
  nodup : x.finished.Nodup
  lt : ∀ client ∈ x.finished, client < n

/-- All producers are finished. -/
def Complete (n : ℕ) (x : Session) : Prop :=
  x.started = true ∧ ∀ client < n, client ∈ x.finished

end Session

variable {options : Options} {bufferAddr n m : ℕ} {s s' : State} {x y : Session}
  {free msgs : List ℕ}

/-- The counter after an action. -/
def Action.countAfter (count : ℤ) : Action → ℤ
  | .setPreducerCount c => c
  | .signalPreducingComplete _ => count - 1
  | _ => count

/-- Only two of the actions touch the counter. -/
theorem Step.activePreducerCount {action : Action} (hstep : Step s action s')
    (h : Custody m s free msgs) :
    s'.queue.activePreducerCount = action.countAfter s.queue.activePreducerCount := by
  cases hstep with
  | allocate hrun => exact (h.allocate hrun).1.activePreducerCount
  | allocateFails hrun => exact (h.allocate hrun).1.activePreducerCount
  | enqueue hx hrun =>
    obtain ⟨q, hq, hcontrol, -⟩ := h.enqueue hx
    obtain rfl := Except.ok.inj (hq.symm.trans hrun)
    exact hcontrol.activePreducerCount
  | dequeue hrun => exact (h.dequeue_sameControl hrun).activePreducerCount
  | dequeueEmpty hrun _ => exact (h.dequeue_sameControl hrun).activePreducerCount
  | release hx hrun => exact (h.release hx hrun).1.activePreducerCount
  | setPreducerCount => rfl
  | signalPreducingComplete => rfl

/-- Only `enqueue` adds to the messages. -/
theorem Step.enqueued_eq {action : Action} (hstep : Step s action s')
    (hne : ∀ client chunk, action ≠ .enqueue client chunk) : s'.enqueued = s.enqueued := by
  cases hstep with
  | enqueue _ _ => exact absurd rfl (hne _ _)
  | _ => rfl

namespace Session

theorem after_state (x : Session) (s : State) (action : Action) : (x.after s action).state = s := by
  cases action <;> rfl

/-- Actions by the rules keep the counter right. -/
theorem Counted.next {action : Action} (h : Counted n x) (hc : Custody m x.state free msgs)
    (hpermits : x.Permits n action) (hstep : Step x.state action s) :
    Counted n (x.after s action) := by
  have hcount := hstep.activePreducerCount hc
  have hold := h.count
  cases action with
  | setPreducerCount count =>
    obtain ⟨hstarted, rfl⟩ := hpermits
    refine ⟨?_, fun hfalse => absurd hfalse.symm Bool.false_ne_true, h.nodup, h.lt⟩
    -- no producer has finished before the start
    show s.queue.activePreducerCount = (n : ℤ) - x.finished.length
    rw [hcount, h.waiting hstarted]
    exact (Int.sub_zero _).symm
  | signalPreducingComplete client =>
    obtain ⟨hstarted, hlt, hnew⟩ := hpermits
    refine ⟨?_, fun hfalse => ?_, List.nodup_cons.2 ⟨hnew, h.nodup⟩, ?_⟩
    · show s.queue.activePreducerCount =
        if x.started then (n : ℤ) - (client :: x.finished).length else -1
      rw [if_pos hstarted] at hold ⊢
      rw [hcount, Action.countAfter, hold, List.length_cons]
      omega
    · rw [show x.started = false from hfalse] at hstarted
      exact absurd hstarted Bool.false_ne_true
    · intro c hmem
      rcases List.mem_cons.1 hmem with rfl | hmem
      · exact hlt
      · exact h.lt c hmem
  | allocate _ _ => exact ⟨hcount.trans hold, h.waiting, h.nodup, h.lt⟩
  | enqueue _ _ => exact ⟨hcount.trans hold, h.waiting, h.nodup, h.lt⟩
  | dequeue _ => exact ⟨hcount.trans hold, h.waiting, h.nodup, h.lt⟩
  | release _ _ => exact ⟨hcount.trans hold, h.waiting, h.nodup, h.lt⟩

/-- A reachable session after an action by the rules. -/
theorem Reachable.act (h : Reachable options bufferAddr n x) (action : Action)
    (hpermits : x.Permits n action) (hstep : Step x.state action s) :
    Reachable options bufferAddr n (x.after s action) :=
  .next h ⟨action, s, hpermits, hstep, rfl⟩

theorem Reachable.counted (h : Reachable options bufferAddr n x) :
    Counted n x ∧ ∃ free msgs, Custody (options.capacity % 2 ^ 32) x.state free msgs := by
  induction h with
  | init hinit =>
    have hcount := (init_cases hinit).2.2.1
    exact ⟨⟨hcount, fun _ => rfl, .nil, by simp⟩, _, _, init_custody hinit⟩
  | next _ hnext ih =>
    obtain ⟨hcounted, free, msgs, hc⟩ := ih
    obtain ⟨action, s, hpermits, hstep, rfl⟩ := hnext
    refine ⟨hcounted.next hc hpermits hstep, ?_⟩
    rw [after_state]
    exact hstep.custody hc

/-- If the counter is zero, all producers are finished. -/
theorem Counted.complete (h : Counted n x) (hzero : x.state.queue.activePreducerCount = 0) :
    Complete n x := by
  have hcount := h.count
  rw [hzero] at hcount
  have hstarted : x.started = true := by
    by_contra hne
    rw [if_neg hne] at hcount
    omega
  rw [if_pos hstarted] at hcount
  refine ⟨hstarted, fun client hlt => ?_⟩
  -- `n` different numbers below `n` are all of them
  have hsub : x.finished.toFinset ⊆ Finset.range n := fun c hc =>
    Finset.mem_range.2 (h.lt c (List.mem_toFinset.1 hc))
  have hcard : (Finset.range n).card ≤ x.finished.toFinset.card := by
    rw [Finset.card_range, List.toFinset_card_of_nodup h.nodup]
    omega
  rw [← List.mem_toFinset, Finset.eq_of_subset_of_card_le hsub hcard]
  exact Finset.mem_range.2 hlt

/-- Once all producers are finished, they stay so, and nothing is enqueued. -/
theorem Complete.next (h : Complete n x) (hnext : Next n x y) :
    Complete n y ∧ y.state.enqueued = x.state.enqueued := by
  obtain ⟨action, s, hpermits, hstep, rfl⟩ := hnext
  rw [after_state]
  refine ⟨?_, hstep.enqueued_eq ?_⟩
  · cases action with
    | setPreducerCount count => exact ⟨rfl, h.2⟩
    | signalPreducingComplete client =>
      exact ⟨h.1, fun c hc => List.mem_cons_of_mem client (h.2 c hc)⟩
    | _ => exact h
  · rintro client chunk rfl
    exact hpermits.2.2 (h.2 client hpermits.2.1)

theorem Complete.enqueued_eq (h : Complete n x) (hlater : Relation.ReflTransGen (Next n) x y) :
    Complete n y ∧ y.state.enqueued = x.state.enqueued := by
  induction hlater with
  | refl => exact ⟨h, rfl⟩
  | tail _ hnext ih =>
    obtain ⟨hcomplete, heq⟩ := ih.1.next hnext
    exact ⟨hcomplete, heq.trans ih.2⟩

/-- If `dequeue` returns `closed` in a session with `n` producers, then all messages have been
received, and none is enqueued in any continuation. -/
theorem closed_complete (options : Options) (bufferAddr n : ℕ) (x : Session) (q : Queue)
    (hreach : Reachable options bufferAddr n x)
    (hclosed : x.state.queue.dequeue = .ok (.closed, q)) :
    x.state.dequeued = x.state.enqueued ∧
      ∀ y, Relation.ReflTransGen (Next n) x y → y.state.enqueued = x.state.enqueued := by
  obtain ⟨hcounted, free, msgs, hc⟩ := hreach.counted
  rcases hc.dequeue with ⟨rfl, hq⟩ | ⟨_, _, _, _, _, hq, -⟩
  · have houtcome := (Prod.mk.inj (Except.ok.inj (hclosed.symm.trans hq))).1
    -- with no message the outcome is decided by the counter
    have hzero : x.state.queue.activePreducerCount = 0 := by
      by_contra hne
      rw [if_neg hne] at houtcome
      exact Outcome.noConfusion houtcome
    refine ⟨?_, fun y hlater => ((hcounted.complete hzero).enqueued_eq hlater).2⟩
    -- no message is left, so those enqueued are those dequeued
    rw [hc.order, List.append_nil]
  · exact Outcome.noConfusion (Prod.mk.inj (Except.ok.inj (hclosed.symm.trans hq))).1

/-- One producer sends a message, a consumer receives it, and the producer signals. -/
theorem closed_complete_one_message :
    ∃ x q, Reachable ⟨2, 1⟩ 4096 1 x ∧ x.state.queue.dequeue = .ok (.closed, q) ∧
      x.state.enqueued = [0] ∧ x.state.dequeued = x.state.enqueued := by
  -- the calls are evaluated once, and their results name the states of the run
  have heval : (do
      let q ← Queue.init ⟨2, 1⟩ 4096
      let (r, q) ← (q.setPreducerCount 1).allocate 1
      let q ← q.enqueue 0
      let (o, q) ← q.dequeue
      let (o', _) ← q.signalPreducingComplete.dequeue
      pure (r, o, o')).toOption = some (some (0, 4096), .ok 0 4096 1, .closed) := by decide +kernel
  simp only [bind, BoundedLoop.toOption_bind_eq_some, Prod.exists] at heval
  obtain ⟨q₀, h₀, r, q₁, h₁, q₂, h₂, o, q₃, h₃, o', q₄, h₄, heq⟩ := heval
  obtain ⟨rfl, rfl, rfl⟩ : r = some (0, 4096) ∧ o = .ok 0 4096 1 ∧ o' = .closed := by
    simpa [Except.toOption, pure, Except.pure] using heq
  have hreach : Reachable ⟨2, 1⟩ 4096 1
      ⟨⟨q₃.signalPreducingComplete, [⟨1, 0, .dequeued⟩], [0], [0]⟩, true, [0]⟩ := by
    have r₁ := (Reachable.init (n := 1) h₀).act (.setPreducerCount 1) ⟨rfl, rfl⟩ .setPreducerCount
    have r₂ := r₁.act (.allocate 0 1) ⟨rfl, by decide, by simp [after]⟩ (.allocate h₁)
    have r₃ := r₂.act (.enqueue 0 0) ⟨rfl, by decide, by simp [after]⟩
      (.enqueue (List.mem_cons_self ..) h₂)
    have r₄ := r₃.act (.dequeue 1) trivial (.dequeue h₃)
    exact r₄.act (.signalPreducingComplete 0) ⟨rfl, by decide, by simp [after]⟩
      .signalPreducingComplete
  exact ⟨_, q₄, hreach, h₄, rfl, (closed_complete ⟨2, 1⟩ 4096 1 _ q₄ hreach h₄).1⟩

end Session

end CppLearn.ShmMsgQueue

import CppLearn.BlockingQueue.Correctness

/-!
# Lost wake-ups

A thread that waits on `cv_full_` should be notified when the queue is no longer full, and a thread
that waits on `cv_empty_` when it is no longer empty. The operations that insert or remove one task
see to that. `Clear` empties the queue without notifying the threads that wait on `cv_full_`.

`NoLostWakeup` says that no thread waits for what has already come. Of all steps only `Clear` can
break it (`Step.noLostWakeup`), and it does if some thread waits on `cv_full_` (`next_of_clears`).
So a run loses no wake-up exactly if it clears the queue only when no thread waits there
(`run_noLostWakeup`).
-/

namespace CppLearn.BlockingQueue

open Traces

variable {ι Task : Type*} {capacity : ℕ} {s s' : State ι Task} {e : Event ι Task} {i j : ι}
  {call : Call Task} {cv : Condition} {notified : Option Condition}

/-- A thread waits, without having been notified, on `cv_full_` only if the queue is full, and on
`cv_empty_` only if it is empty. -/
def NoLostWakeup (s : State ι Task) : Prop :=
  ∀ i call, (s.threads i = .waiting call .full → s.capacity ≤ s.tasks.length) ∧
    (s.threads i = .waiting call .empty → s.tasks = [])

/-- Some thread waits on `cv_full_` without having been notified. -/
def WatchedFull (s : State ι Task) : Prop := ∃ i call, s.threads i = .waiting call .full

/-- The event is the locking of the mutex by `Clear`. -/
def Clears (s : State ι Task) (e : Event ι Task) : Prop :=
  ∃ i arrival, e = .lock i ∧ s.threads i = .locking .clear arrival

/-- A thread that is waiting after a notification was waiting before, on another condition. -/
theorem waiting_of_notify (h : (s.notify notified).threads i = .waiting call cv) :
    s.threads i = .waiting call cv ∧ notified ≠ some cv := by
  cases notified with
  | none => exact ⟨h, nofun⟩
  | some cv' =>
    simp only [State.notify] at h
    rcases ht : s.threads i with _ | ⟨_, _⟩ | ⟨call', cv''⟩
    · rw [ht] at h
      cases h
    · rw [ht] at h
      cases h
    · rw [ht, Thread.notify] at h
      split at h
      · -- a thread on the notified condition is no longer waiting
        cases h
      case isFalse hne =>
        cases h
        exact ⟨rfl, fun heq => hne (Option.some.inj heq).symm⟩

variable [DecidableEq ι]

/-- A change of one thread that does not begin to wait loses no wake-up. -/
theorem NoLostWakeup.setThread (h : NoLostWakeup s) {t : Thread Task}
    (ht : ∀ call cv, t = .waiting call cv →
      (cv = .full ∧ s.capacity ≤ s.tasks.length) ∨ (cv = .empty ∧ s.tasks = [])) :
    NoLostWakeup (s.setThread i t) := by
  intro j call
  by_cases hj : j = i
  · subst hj
    rw [setThread_self]
    constructor <;> intro hw <;> rcases ht call _ hw with ⟨hcv, hlen⟩ | ⟨hcv, hlen⟩
    · exact hlen
    · cases hcv
    · cases hcv
    · exact hlen
  · rw [setThread_of_ne hj]
    exact h j call

/-- A step loses no wake-up, unless it clears the queue while a thread waits on `cv_full_`. -/
theorem Step.noLostWakeup (h : Step s e s') (hs : NoLostWakeup s)
    (hclears : Clears s e → ¬WatchedFull s) : NoLostWakeup s' := by
  cases h with
  | calls i call hi => exact hs.setThread nofun
  | wakes e i call cv arrival hi => exact hs.setThread nofun
  | waits i call arrival cv hi hcv =>
    refine hs.setThread ?_
    rintro _ _ ⟨⟩
    exact hcv
  | leaves i call arrival reply tasks notified hi heffect =>
    -- who is waiting afterwards was waiting before
    have hbefore : ∀ {j call' cv}, ((s.setThread i .outside).notify notified).threads j =
        .waiting call' cv → s.threads j = .waiting call' cv ∧ notified ≠ some cv := by
      intro j call' cv hj
      obtain ⟨hj, hcv⟩ := waiting_of_notify hj
      have hji : j ≠ i := by
        rintro rfl
        rw [setThread_self] at hj
        cases hj
      rw [setThread_of_ne hji] at hj
      exact ⟨hj, hcv⟩
    intro j call'
    simp only [notify_capacity]
    constructor <;> intro hw <;> obtain ⟨hj, hcv⟩ := hbefore hw
    · have hlen : s.capacity ≤ s.tasks.length := (hs j call').1 hj
      cases heffect with
      | keeps => exact hlen
      | pushesBack task =>
        rw [List.length_append]
        exact hlen.trans (Nat.le_add_right _ _)
      | pushesFront task => exact hlen.trans (Nat.le_succ _)
      | pops => exact absurd rfl hcv
      | clears => exact absurd ⟨j, call', hj⟩ (hclears ⟨i, arrival, rfl, hi⟩)
    · have hnil : s.tasks = [] := (hs j call').2 hj
      cases heffect with
      | keeps => exact hnil
      | pushesBack | pushesFront => exact absurd rfl hcv
      | pops task hop htasks =>
        rw [hnil] at htasks
        cases htasks
      | clears => rfl

/-- `Clear` loses the wake-up of a thread that waits on `cv_full_`. -/
theorem next_of_clears (hclears : Clears s e) (hwatched : WatchedFull s) (hcap : 1 ≤ s.capacity) :
    ∃ s', s.next e = some s' ∧ ¬NoLostWakeup s' := by
  obtain ⟨i, arrival, rfl, hi⟩ := hclears
  obtain ⟨j, call, hj⟩ := hwatched
  refine ⟨{ s.setThread i .outside with tasks := [], history := s.history ++ [(i, .clear, .done)] },
    by simp only [State.next, hi, Call.body, State.notify], fun hlost => ?_⟩
  have hji : j ≠ i := by
    rintro rfl
    rw [hi] at hj
    cases hj
  have hlen : s.capacity ≤ 0 := (hlost j call).1 ((setThread_of_ne hji _).trans hj)
  omega

/-- The capacity does not change. -/
theorem run_capacity {es : List (Event ι Task)}
    (hrun : run State.next (State.create ι capacity) es = some s) : s.capacity = capacity :=
  run_invariant (P := fun _ s => s.capacity = capacity) rfl
    (fun _ _ _ _ h hnext => (next_step hnext).capacity_eq.trans h) hrun

/-- In a run no wake-up is ever lost if and only if `Clear` locks the mutex only when no thread is
waiting on `cv_full_`. -/
theorem run_noLostWakeup (hcap : 1 ≤ capacity) (es : List (Event ι Task)) :
    (∀ past s, past <+: es → run State.next (State.create ι capacity) past = some s →
        NoLostWakeup s) ↔
      ∀ past e s, past ++ [e] <+: es → run State.next (State.create ι capacity) past = some s →
        Clears s e → ¬WatchedFull s := by
  constructor
  · -- a `Clear` that finds a waiting producer leads to a state with a lost wake-up
    intro h past e s hpast hrun hclears hwatched
    have hcap' : 1 ≤ s.capacity := by rwa [run_capacity hrun]
    obtain ⟨s', hnext, hlost⟩ := next_of_clears hclears hwatched hcap'
    exact hlost (h _ s' hpast (run_concat_eq_some.2 ⟨s, hrun, hnext⟩))
  · intro h past
    -- every prefix of the run, from its end
    induction past using List.reverseRecOn with
    | nil =>
      rintro s - hrun
      obtain rfl := Option.some.inj hrun
      exact fun i call => ⟨nofun, nofun⟩
    | append_singleton past e ih =>
      intro s hpast hrun
      obtain ⟨s₁, hrun₁, hnext⟩ := run_concat_eq_some.1 hrun
      have hs₁ := ih s₁ ((List.prefix_append past [e]).trans hpast) hrun₁
      exact (next_step hnext).noLostWakeup hs₁ (h past e s₁ hpast hrun₁)

/-- The only thread enqueues a task and clears the queue. -/
def clearAlone : List (Event Unit ℕ) :=
  [.call () (.enqueue 7), .lock (), .call () .clear, .lock ()]

theorem run_noLostWakeup_clear :
    ∃ s, run State.next (State.create Unit 1) clearAlone = some s ∧ NoLostWakeup s := by
  refine ⟨_, rfl, (run_noLostWakeup le_rfl clearAlone).2 ?_ clearAlone _ (List.prefix_refl _) rfl⟩
  rintro past e s - - ⟨i, arrival, -, hi⟩ ⟨j, call, hj⟩
  rw [Subsingleton.elim j i, hi] at hj
  cases hj

/-- The second thread waits to enqueue, and is not notified when the third one clears the queue. -/
theorem clear_loses_wakeup :
    ∃ s, run State.next (State.create ℕ 1) [.call 0 (.enqueue 7), .lock 0, .call 1 (.enqueue 8),
        .lock 1, .call 2 .clear, .lock 2] = some s ∧
      s.threads 1 = .waiting (.enqueue 8) .full ∧ s.tasks = [] ∧ ¬NoLostWakeup s := by
  refine ⟨_, rfl, rfl, rfl, fun h => ?_⟩
  exact absurd ((h 1 (.enqueue 8)).1 rfl) (by decide)

end CppLearn.BlockingQueue

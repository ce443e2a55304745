import CppLearn.ThreadPool.Defs
import Mathlib.Data.Fintype.Basic

/-!
# The thread pool executes every task once

Tasks leave the queue in the order of their submission, and the worker that takes a task executes it
before it takes another one. A worker returns only when `stop_` is set and the queue is empty; by
then all tasks that were submitted before `stop_` was set have been taken. So the joins of the
destructor wait for all of them.

`Step` are the effects of the events, and `Invariant` is what holds in every reachable state
(`Invariant.step`, `run_inv`). Order, execution exactly once and completion are in
`run_executesOnce`.
-/

namespace CppLearn.ThreadPool

open Traces

variable {n : ℕ} {Task : Type*} {s s' : State n Task} {e : Event n Task}

/-! ## Steps -/

/-- The body of a worker waits, returns or takes the front of the queue, and never takes the front
of an empty queue. -/
theorem Worker.body_eq (stop : Bool) (tasks : List Task) :
    Worker.body stop tasks = some (match tasks with
      | [] => ([], if stop then .returned else .waiting)
      | task :: rest => (rest, .running task)) := by
  cases tasks <;> cases stop <;> rfl

/-- What the events do to a pool. -/
inductive Step (s : State n Task) : State n Task → Prop
  | waits (i : Fin n) : s.workers i = .looping ∨ s.workers i = .woken → s.stop = false →
      s.tasks = [] → Step s (s.setWorker i .waiting)
  | returns (i : Fin n) : s.workers i = .looping ∨ s.workers i = .woken → s.stop = true →
      s.tasks = [] → Step s (s.setWorker i .returned)
  | takes (i : Fin n) (task : Task) (rest : List Task) :
      s.workers i = .looping ∨ s.workers i = .woken → s.tasks = task :: rest →
      Step s { s.setWorker i (.running task) with tasks := rest, taken := s.taken ++ [(i, task)] }
  | wakes (i : Fin n) (notifying : ℕ) : s.workers i = .waiting →
      Step s { s.setWorker i .woken with notifying }
  | finishes (i : Fin n) (task : Task) : s.workers i = .running task →
      Step s { s.setWorker i .looping with executed := s.executed ++ [(i, task)] }
  | emplacesEarly (task : Task) : s.stop = false →
      Step s { s with
        tasks := s.tasks ++ [task], notifying := s.notifying + 1, early := s.early ++ [task] }
  | emplacesLate (task : Task) : s.stop = true →
      Step s { s with
        tasks := s.tasks ++ [task], notifying := s.notifying + 1, late := s.late ++ [task] }
  | notifiesNone (notifying : ℕ) : (∀ i, ¬(s.workers i).isWaiting) → Step s { s with notifying }
  | stops : s.destructor = .alive → Step s { s with stop := true, destructor := .stopped }
  | notifiesAll : s.destructor = .stopped → Step s { s.wakeAll with destructor := .joining 0 }
  | joins (k : ℕ) (hk : k < n) : s.destructor = .joining k → s.workers ⟨k, hk⟩ = .returned →
      Step s { s with destructor := .joining (k + 1) }

/-- What a worker does while it holds the mutex, -/
theorem lock_step {i : Fin n} (hi : s.workers i = .looping ∨ s.workers i = .woken)
    (h : s.lock i = some s') : Step s s' := by
  obtain ⟨stop, tasks, workers, notifying, destructor, early, late, taken, executed⟩ := s
  simp only [State.lock, Worker.body_eq, Option.bind_eq_bind, Option.bind_some] at h
  obtain rfl := Option.some.inj h
  match tasks, stop with
  | [], false => exact .waits i hi rfl rfl
  | [], true => exact .returns i hi rfl rfl
  | task :: rest, _ => exact .takes i task rest hi rfl

theorem emplace_step {task : Task} (h : s.next (.emplace task) = some s') : Step s s' := by
  simp only [State.next] at h
  obtain rfl := Option.some.inj h
  split
  -- `stop_` is not tested: a task is appended in either case
  case isTrue hstop => exact .emplacesLate task hstop
  case isFalse hstop => exact .emplacesEarly task (eq_false_of_ne_true hstop)

/-- A notification wakes the worker that it is given, or none if no worker waits. -/
theorem notifyOne_step {worker : Option (Fin n)} (h : s.next (.notifyOne worker) = some s') :
    Step s s' := by
  cases worker with
  | none =>
    simp only [State.next] at h
    split at h
    case h_1 k hk =>
      split at h
      · obtain rfl := Option.some.inj h
        exact .notifiesNone k ‹_›
      · cases h
    case h_2 => cases h
  | some i =>
    simp only [State.next] at h
    split at h
    case h_1 k hk hi =>
      obtain rfl := Option.some.inj h
      exact .wakes i k hi
    case h_2 => cases h

/-- The destructor joins the next worker as soon as this one has returned. -/
theorem join_step (h : s.next .join = some s') : Step s s' := by
  simp only [State.next] at h
  split at h
  case h_1 k hk =>
    split at h
    case isTrue hlt =>
      split at h
      case h_1 hw =>
        obtain rfl := Option.some.inj h
        exact .joins k hlt hk hw
      case h_2 => cases h
    case isFalse => cases h
  case h_2 => cases h

/-- Every event has one of the effects that `Step` lists. -/
theorem next_step (h : s.next e = some s') : Step s s' := by
  cases e with
  | lock i =>
    simp only [State.next] at h
    split at h
    -- at the top of the loop and after a wait the body is the same
    case h_1 hi => exact lock_step (.inl hi) h
    case h_2 hi => exact lock_step (.inr hi) h
    case h_3 => cases h
  | wake i =>
    simp only [State.next] at h
    split at h
    case h_1 hi =>
      obtain rfl := Option.some.inj h
      exact .wakes i s.notifying hi
    case h_2 => cases h
  | finish i =>
    simp only [State.next] at h
    split at h
    case h_1 task hi =>
      obtain rfl := Option.some.inj h
      exact .finishes i task hi
    case h_2 => cases h
  | emplace task => exact emplace_step h
  | notifyOne worker => exact notifyOne_step h
  | stop =>
    simp only [State.next] at h
    split at h
    · obtain rfl := Option.some.inj h
      exact .stops ‹_›
    · cases h
  | notifyAll =>
    simp only [State.next] at h
    split at h
    · obtain rfl := Option.some.inj h
      exact .notifiesAll ‹_›
    · cases h
  | join => exact join_step h

/-! ## The invariant -/

/-- The task that a worker has taken and not yet executed. -/
def Worker.current (i : Fin n) : Worker Task → List (Fin n × Task)
  | .running task => [(i, task)]
  | _ => []

/-- Tasks are taken in the order of submission and executed by the worker that took them; a worker
that has returned has seen the end of the tasks that were submitted before `stop_` was set. -/
structure Invariant (s : State n Task) : Prop where
  order : s.taken.map Prod.snd ++ s.tasks = s.submitted
  executed : ∀ i, s.executed.filter (·.1 = i) ++ (s.workers i).current i = s.taken.filter (·.1 = i)
  late : s.stop = false → s.late = []
  returned : ∀ i, s.workers i = .returned → s.stop = true ∧ s.early <+: s.taken.map Prod.snd
  joined : ∀ k, s.destructor = .joining k → ∀ i : Fin n, i < k → s.workers i = .returned

/-- The invariant holds at first. -/
theorem create_inv : Invariant (State.create n Task) where
  order := rfl
  executed _ := rfl
  late _ := rfl
  returned _ h := by cases h
  joined _ h := by cases h

/-- A worker changes its own state, -/
@[simp]
theorem setWorker_self (i : Fin n) (w : Worker Task) : (s.setWorker i w).workers i = w :=
  Function.update_self ..

@[simp]
theorem setWorker_taken (i : Fin n) (w : Worker Task) : (s.setWorker i w).taken = s.taken := rfl

@[simp]
theorem setWorker_executed (i : Fin n) (w : Worker Task) :
    (s.setWorker i w).executed = s.executed := rfl

/-- and no other one. -/
theorem setWorker_of_ne {i j : Fin n} (hj : j ≠ i) (w : Worker Task) :
    (s.setWorker i w).workers j = s.workers j :=
  Function.update_of_ne hj ..

/-- A worker that has not returned moves on: the tasks that are taken and executed by the others
stay as they are. -/
theorem Invariant.move (h : Invariant s) {i : Fin n} {w : Worker Task} {tasks : List Task}
    {taken executed : List (Fin n × Task)} (notifying : ℕ) (hi : s.workers i ≠ .returned)
    (horder : taken.map Prod.snd ++ tasks = s.submitted) (htaken : s.taken <+: taken)
    (hself : executed.filter (·.1 = i) ++ w.current i = taken.filter (·.1 = i))
    (hothers : ∀ j ≠ i, executed.filter (·.1 = j) = s.executed.filter (·.1 = j) ∧
      taken.filter (·.1 = j) = s.taken.filter (·.1 = j))
    (hreturned : w = .returned → s.stop = true ∧ tasks = []) :
    Invariant { s.setWorker i w with tasks, taken, executed, notifying } where
  order := horder
  executed j := by
    by_cases hj : j = i
    · subst hj
      simpa using hself
    · obtain ⟨hexecuted, htaken⟩ := hothers j hj
      simp only [setWorker_of_ne hj, hexecuted, htaken]
      exact h.executed j
  late := h.late
  returned j hw := by
    by_cases hj : j = i
    · subst hj
      simp only [setWorker_self] at hw
      obtain ⟨hstop, rfl⟩ := hreturned hw
      refine ⟨hstop, ?_⟩
      -- the queue is empty, so that all submitted tasks are taken
      rw [List.append_nil] at horder
      exact ⟨s.late, horder.symm⟩
    · simp only [setWorker_of_ne hj] at hw
      obtain ⟨hstop, hearly⟩ := h.returned j hw
      exact ⟨hstop, hearly.trans (htaken.map Prod.snd)⟩
  joined k hk j hlt := by
    have hj : j ≠ i := fun hji => hi (hji ▸ h.joined k hk j hlt)
    simp only [setWorker_of_ne hj]
    exact h.joined k hk j hlt

/-- The same for a worker that neither takes nor finishes a task. -/
theorem Invariant.setWorker (h : Invariant s) {i : Fin n} {w : Worker Task} (notifying : ℕ)
    (hi : s.workers i ≠ .returned) (hcurrent : w.current i = (s.workers i).current i)
    (hreturned : w = .returned → s.stop = true ∧ s.tasks = []) :
    Invariant { s.setWorker i w with notifying } := by
  refine h.move notifying hi h.order (List.prefix_refl _) ?_ (fun j _ => ⟨rfl, rfl⟩) hreturned
  rw [hcurrent]
  exact h.executed i

/-- Every event keeps the invariant. -/
theorem Invariant.step (h : Invariant s) (hstep : Step s s') : Invariant s' := by
  have hidle : ∀ {i}, s.workers i = .looping ∨ s.workers i = .woken →
      s.workers i ≠ .returned ∧ (s.workers i).current i = [] := by
    intro i hi
    rcases hi with hi | hi <;> rw [hi] <;> exact ⟨nofun, rfl⟩
  cases hstep with
  | waits i hi hstop htasks =>
    exact h.setWorker s.notifying (hidle hi).1 (hidle hi).2.symm nofun
  | returns i hi hstop htasks =>
    exact h.setWorker s.notifying (hidle hi).1 (hidle hi).2.symm fun _ => ⟨hstop, htasks⟩
  | takes i task rest hi htasks =>
    refine h.move s.notifying (hidle hi).1 ?_ (List.prefix_append _ _) ?_ ?_ nofun
    · rw [← h.order, htasks]
      simp
    · have hexecuted := h.executed i
      rw [(hidle hi).2, List.append_nil] at hexecuted
      simp [hexecuted, Worker.current]
    · intro j hj
      exact ⟨rfl, by simp [Ne.symm hj]⟩
  | wakes i notifying hi =>
    exact h.setWorker notifying (by rw [hi]; nofun) (by rw [hi]; rfl) nofun
  | finishes i task hi =>
    refine h.move s.notifying (by rw [hi]; nofun) h.order (List.prefix_refl _) ?_ ?_ nofun
    · have hexecuted := h.executed i
      rw [hi] at hexecuted
      rw [setWorker_taken, ← hexecuted]
      simp [Worker.current]
    · intro j hj
      exact ⟨by simp [Ne.symm hj], rfl⟩
  | emplacesEarly task hstop =>
    have hlate := h.late hstop
    refine ⟨?_, h.executed, fun _ => hlate, fun i hi => ?_, h.joined⟩
    · have horder := h.order
      simp only [State.submitted, hlate, List.append_nil] at horder ⊢
      rw [← List.append_assoc, horder]
    · -- no worker returns before `stop_` is set
      have hreturned := (h.returned i hi).1
      rw [hstop] at hreturned
      cases hreturned
  | emplacesLate task hstop =>
    refine ⟨?_, h.executed, fun hfalse => ?_, h.returned, h.joined⟩
    · have horder := h.order
      simp only [State.submitted] at horder ⊢
      rw [← List.append_assoc, horder, List.append_assoc]
    · simp only [hstop] at hfalse
      cases hfalse
  | notifiesNone notifying hnone => exact ⟨h.order, h.executed, h.late, h.returned, h.joined⟩
  | stops halive =>
    exact ⟨h.order, h.executed, nofun, fun i hi => ⟨rfl, (h.returned i hi).2⟩, nofun⟩
  | notifiesAll hstopped =>
    have hwake : ∀ i, (s.wakeAll.workers i).current i = (s.workers i).current i ∧
        (s.wakeAll.workers i = .returned → s.workers i = .returned) := by
      intro i
      simp only [State.wakeAll]
      cases s.workers i with
      | waiting => exact ⟨rfl, nofun⟩
      | _ => exact ⟨rfl, id⟩
    refine ⟨h.order, fun i => ?_, h.late, fun i hi => h.returned i ((hwake i).2 hi), ?_⟩
    · simp only [(hwake i).1]
      exact h.executed i
    · rintro k ⟨⟩ i hlt
      exact absurd hlt (Nat.not_lt_zero _)
  | joins k hk hjoining hreturned =>
    refine ⟨h.order, h.executed, h.late, h.returned, ?_⟩
    rintro _ ⟨⟩ i hlt
    rcases Nat.lt_succ_iff_lt_or_eq.1 hlt with hlt | heq
    · exact h.joined k hjoining i hlt
    · have hi : i = ⟨k, hk⟩ := Fin.ext heq
      rw [hi]
      exact hreturned

/-- The invariant holds after every run. -/
theorem run_inv {es : List (Event n Task)}
    (hrun : run State.next (State.create n Task) es = some s) : Invariant s :=
  run_invariant (P := fun _ s => Invariant s) create_inv
    (fun _ _ _ _ h hnext => h.step (next_step hnext)) hrun

/-! ## The results -/

/-- When the joins have returned, all workers have. -/
theorem Invariant.returned_of_destroyed (h : Invariant s) (hd : s.Destroyed) (i : Fin n) :
    s.workers i = .returned :=
  h.joined n hd i i.isLt

/-- The tasks that the workers have executed are those that they have taken, once no worker has a
task in hand. -/
theorem Invariant.executed_perm (h : Invariant s) (hidle : ∀ i, (s.workers i).current i = []) :
    s.executed.Perm s.taken := by
  have hfilter : ∀ i, s.executed.filter (·.1 = i) = s.taken.filter (·.1 = i) := by
    intro i
    rw [← h.executed i, hidle i, List.append_nil]
  exact perm_of_filter_eq hfilter

/-- When the joins have returned, the queue is empty, provided that there is a worker and no task
was submitted after `stop_` was set. -/
theorem Invariant.tasks_of_destroyed (h : Invariant s) (hn : 0 < n) (hd : s.Destroyed)
    (hlate : s.late = []) : s.tasks = [] := by
  obtain ⟨-, hearly⟩ := h.returned ⟨0, hn⟩ (h.returned_of_destroyed hd _)
  have horder := h.order
  rw [State.submitted, hlate, List.append_nil] at horder
  have hlength := hearly.length_le
  rw [← horder, List.length_append] at hlength
  exact List.length_eq_zero_iff.1 (by omega)

/-- A list of pairs whose second components are `l` gives each position of `l` a first component. -/
theorem eq_ofFn_of_map_snd {α β : Type*} {l : List β} {pairs : List (α × β)}
    (h : pairs.map Prod.snd = l) :
    ∃ f : Fin l.length → α, pairs = List.ofFn fun k => (f k, l.get k) := by
  subst h
  refine ⟨fun k => (pairs.get (k.cast (by simp))).1, List.ext_get (by simp) fun k _ _ => ?_⟩
  simp

/-- In every run tasks leave the queue in the order of submission, and a worker executes the tasks
that it takes, one after the other. When the joins of the destructor have returned and all tasks
were submitted before `stop_` was set, the queue is empty, and there is exactly one execution for
each submitted task. -/
theorem run_executesOnce (es : List (Event n Task))
    (hrun : run State.next (State.create n Task) es = some s) :
    s.taken.map Prod.snd ++ s.tasks = s.submitted ∧
      (∀ i, s.executed.filter (·.1 = i) ++ (s.workers i).current i = s.taken.filter (·.1 = i)) ∧
      (0 < n → s.Destroyed → s.late = [] → s.tasks = [] ∧
        ∃ worker : Fin s.submitted.length → Fin n,
          s.executed.Perm (List.ofFn fun k => (worker k, s.submitted.get k))) := by
  have h := run_inv hrun
  refine ⟨h.order, h.executed, fun hn hd hlate => ?_⟩
  have htasks := h.tasks_of_destroyed hn hd hlate
  -- all submitted tasks were taken
  have htaken : s.taken.map Prod.snd = s.submitted := by
    rw [← h.order, htasks, List.append_nil]
  obtain ⟨worker, hworker⟩ := eq_ofFn_of_map_snd htaken
  refine ⟨htasks, worker, ?_⟩
  rw [← hworker]
  -- and a worker that has returned has executed all that it took
  apply h.executed_perm
  intro i
  rw [h.returned_of_destroyed hd i]
  rfl

/-- Two tasks, the second submitted while the only worker executes the first, and the destructor. -/
def twoTasks : List (Event 1 ℕ) :=
  [.lock 0, .emplace 7, .notifyOne (some 0), .lock 0, .emplace 8, .notifyOne none, .stop, .finish 0,
    .notifyAll, .lock 0, .finish 0, .lock 0, .join]

/-- One worker and two tasks. -/
theorem run_executesOnce_two :
    ∃ s, run State.next (State.create 1 ℕ) twoTasks = some s ∧ s.Destroyed ∧ s.late = [] ∧
      s.submitted = [7, 8] ∧ s.tasks = [] ∧ ∃ worker : Fin s.submitted.length → Fin 1,
        s.executed.Perm (List.ofFn fun k => (worker k, s.submitted.get k)) :=
  ⟨_, rfl, rfl, rfl, rfl, (run_executesOnce twoTasks rfl).2.2 Nat.one_pos rfl rfl⟩

end CppLearn.ThreadPool

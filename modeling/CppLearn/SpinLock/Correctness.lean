import CppLearn.SpinLock.Defs
import Mathlib.Algebra.BigOperators.Fin
import Mathlib.Algebra.Order.BigOperators.Group.Finset
import Mathlib.Tactic.Ring
import Mathlib.Tactic.SplitIfs

/-!
# Mutual exclusion in `spin_lock.h`

An exchange succeeds only while no thread holds the lock, because `expected` is set to `false` again
after an exchange that fails. So at most one thread is between the load and the store of the count,
and no addition is lost. A thread that waits does not keep the others from going on.

`Step` is what an event changes, and `Invariant` holds in every state. At most one thread holds the
lock (`mutual_exclusion`), the count is right after all threads have returned (`num_eq`), and all
threads can return (`reaches_returned`).
-/

namespace CppLearn.SpinLock

open Traces

variable {n rounds : ℕ} {s s' : State n} {t : Fin n}

/-! ## Steps -/

/-- What an event of the thread `t` changes. -/
inductive Step (rounds : ℕ) (s : State n) (t : Fin n) : State n → Prop where
  | begins : (s.threads t).point = .looping → (s.threads t).i < rounds →
      Step rounds s t (s.goto t (.exchanging false))
  | returns : (s.threads t).point = .looping → rounds ≤ (s.threads t).i →
      Step rounds s t (s.goto t .returned)
  | acquires (expected : Bool) : (s.threads t).point = .exchanging expected → s.lock = expected →
      Step rounds s t { s.goto t .locked with lock := true }
  | fails (expected : Bool) : (s.threads t).point = .exchanging expected → s.lock ≠ expected →
      Step rounds s t (s.goto t (.failed s.lock))
  | retries (expected : Bool) : (s.threads t).point = .failed expected →
      Step rounds s t (s.goto t (.exchanging false))
  | loads : (s.threads t).point = .locked → Step rounds s t (s.goto t (.loaded s.num))
  | stores (value : ℤ) : (s.threads t).point = .loaded value →
      Step rounds s t { s.goto t .stored with num := value + 1 }
  | unlocks : (s.threads t).point = .stored →
      Step rounds s t { s with
        lock := false
        threads := Function.update s.threads t ⟨(s.threads t).i + 1, .looping⟩ }

theorem next_step (h : s.next rounds t = some s') : Step rounds s t s' := by
  rw [State.next] at h
  split at h
  -- the loop goes on, or ends
  case h_1 hpoint =>
    obtain rfl := Option.some.inj h
    split_ifs with hi
    · exact .begins hpoint hi
    · exact .returns hpoint (Nat.le_of_not_lt hi)
  -- the exchange succeeds if the lock has the expected value
  case h_2 expected hpoint =>
    by_cases hlock : s.lock = expected
    · rw [compareExchange, if_pos hlock] at h
      obtain rfl := Option.some.inj h
      exact .acquires expected hpoint hlock
    · rw [compareExchange, if_neg hlock] at h
      obtain rfl := Option.some.inj h
      exact .fails expected hpoint hlock
  case h_3 expected hpoint =>
    obtain rfl := Option.some.inj h
    exact .retries expected hpoint
  -- `num++` reads first, and writes in a step of its own
  case h_4 hpoint =>
    obtain rfl := Option.some.inj h
    exact .loads hpoint
  case h_5 value hpoint =>
    obtain rfl := Option.some.inj h
    exact .stores value hpoint
  -- the lock guard is destroyed
  case h_6 hpoint =>
    obtain rfl := Option.some.inj h
    exact .unlocks hpoint
  case h_7 => cases h

/-! ## The invariant -/

/-- The thread is between the exchange that succeeds and the end of `unlock`. -/
def Thread.Holds (th : Thread) : Prop :=
  match th.point with
  | .locked | .loaded _ | .stored => True
  | _ => False

/-- What a thread has added to the count. -/
def Thread.added (th : Thread) : ℤ := if th.point = .stored then th.i + 1 else th.i

/-- What a thread knows of the state. -/
def Thread.Ok (rounds : ℕ) (num : ℤ) (th : Thread) : Prop :=
  match th.point with
  | .looping => th.i ≤ rounds
  | .exchanging expected => th.i < rounds ∧ expected = false
  | .loaded value => th.i < rounds ∧ value = num
  | .returned => th.i = rounds
  | _ => th.i < rounds

structure Invariant (rounds : ℕ) (s : State n) : Prop where
  ok : ∀ t, (s.threads t).Ok rounds s.num
  free : s.lock = false → ∀ t, ¬(s.threads t).Holds
  held : s.lock = true → ∃ t, ∀ u, (s.threads u).Holds ↔ u = t
  count : s.num = ∑ t, (s.threads t).added

theorem create_inv (n rounds : ℕ) : Invariant rounds (State.create n) where
  ok _ := Nat.zero_le rounds
  free _ _ := id
  held h := by cases h
  count := by simp [State.create, Thread.added]

/-- If one thread holds the lock, it is the only one. -/
theorem Invariant.holds_iff (h : Invariant rounds s) (ht : (s.threads t).Holds) (u : Fin n) :
    s.lock = true ∧ ((s.threads u).Holds ↔ u = t) := by
  cases hlock : s.lock with
  | false => exact absurd ht (h.free hlock t)
  | true =>
    obtain ⟨v, hv⟩ := h.held hlock
    obtain rfl := (hv t).1 ht
    exact ⟨rfl, hv u⟩

theorem sum_added_update (threads : Fin n → Thread) (t : Fin n) (th : Thread) :
    ∑ u, (Function.update threads t th u).added =
      ∑ u, (threads u).added + (th.added - (threads t).added) := by
  have hrest : ∑ u ∈ Finset.univ.erase t, (Function.update threads t th u).added =
      ∑ u ∈ Finset.univ.erase t, (threads u).added :=
    Finset.sum_congr rfl fun u hu => by rw [Function.update_of_ne (Finset.ne_of_mem_erase hu)]
  rw [← Finset.add_sum_erase _ _ (Finset.mem_univ t), hrest, Function.update_self,
    ← Finset.add_sum_erase _ _ (Finset.mem_univ t)]
  ring

/-- A thread moves on, and changes nothing that the others know. -/
theorem Invariant.move (h : Invariant rounds s) (th : Thread) {lock : Bool} {num : ℤ}
    (hth : th.Ok rounds num) (hothers : ∀ u ≠ t, (s.threads u).Ok rounds num)
    (hfree : lock = false → ¬th.Holds ∧ ∀ u ≠ t, ¬(s.threads u).Holds)
    (hheld : lock = true → ∃ v, ∀ u, (Function.update s.threads t th u).Holds ↔ u = v)
    (hcount : num = s.num + (th.added - (s.threads t).added)) :
    Invariant rounds { lock, num, threads := Function.update s.threads t th } where
  ok := (Function.forall_update_iff _ fun _ => Thread.Ok rounds num).2 ⟨hth, hothers⟩
  free hlock := (Function.forall_update_iff _ fun _ th => ¬Thread.Holds th).2 (hfree hlock)
  held := hheld
  count := by rw [sum_added_update, ← h.count, hcount]

/-- A thread moves on that does not lock or unlock, or change the count. -/
theorem Invariant.goto (h : Invariant rounds s) {point : Point}
    (hok : Thread.Ok rounds s.num ⟨(s.threads t).i, point⟩)
    (hholds : Thread.Holds ⟨(s.threads t).i, point⟩ ↔ (s.threads t).Holds)
    (hadded : Thread.added ⟨(s.threads t).i, point⟩ = (s.threads t).added) :
    Invariant rounds (s.goto t point) := by
  refine h.move _ hok (fun u _ => h.ok u) (fun hlock => ?_) (fun hlock => ?_) ?_
  · exact ⟨fun hth => h.free hlock t (hholds.1 hth), fun u _ => h.free hlock u⟩
  · obtain ⟨v, hv⟩ := h.held hlock
    refine ⟨v, fun u => ?_⟩
    rcases eq_or_ne u t with rfl | hu
    · rw [Function.update_self, hholds, hv]
    · rw [Function.update_of_ne hu, hv]
  · rw [hadded, sub_self, add_zero]

theorem Invariant.step (h : Invariant rounds s) (hstep : Step rounds s t s') :
    Invariant rounds s' := by
  have hok := h.ok t
  cases hstep with
  | begins hpoint hi =>
    exact h.goto ⟨hi, rfl⟩ (by simp [Thread.Holds, hpoint]) (by simp [Thread.added, hpoint])
  | returns hpoint hi =>
    rw [Thread.Ok, hpoint] at hok
    exact h.goto (le_antisymm hok hi) (by simp [Thread.Holds, hpoint])
      (by simp [Thread.added, hpoint])
  | acquires expected hpoint hlock =>
    rw [Thread.Ok, hpoint] at hok
    obtain ⟨hi, rfl⟩ := hok
    -- no thread held the lock
    refine h.move ⟨(s.threads t).i, .locked⟩ hi (fun u _ => h.ok u) nofun (fun _ => ⟨t, ?_⟩)
      (by simp [Thread.added, hpoint, State.goto])
    intro u
    rcases eq_or_ne u t with rfl | hu
    · rw [Function.update_self]
      exact ⟨fun _ => rfl, fun _ => trivial⟩
    · rw [Function.update_of_ne hu]
      exact ⟨fun hholds => absurd hholds (h.free hlock u), fun heq => absurd heq hu⟩
  | fails expected hpoint hlock =>
    rw [Thread.Ok, hpoint] at hok
    exact h.goto hok.1 (by simp [Thread.Holds, hpoint]) (by simp [Thread.added, hpoint])
  | retries expected hpoint =>
    rw [Thread.Ok, hpoint] at hok
    exact h.goto ⟨hok, rfl⟩ (by simp [Thread.Holds, hpoint]) (by simp [Thread.added, hpoint])
  | loads hpoint =>
    rw [Thread.Ok, hpoint] at hok
    exact h.goto ⟨hok, rfl⟩ (by simp [Thread.Holds, hpoint]) (by simp [Thread.added, hpoint])
  | stores value hpoint =>
    rw [Thread.Ok, hpoint] at hok
    obtain ⟨hi, rfl⟩ := hok
    have hholds (u : Fin n) := h.holds_iff (t := t) (by simp [Thread.Holds, hpoint]) u
    have hlock := (hholds t).1
    refine h.move ⟨(s.threads t).i, .stored⟩ hi (fun u hu => ?_)
      (fun hfree => ?_) (fun _ => ⟨t, fun u => ?_⟩) (by simp [Thread.added, hpoint])
    · -- no other thread has loaded the count
      have hnot : ¬(s.threads u).Holds := fun hu' => hu ((hholds u).2.1 hu')
      have hoku := h.ok u
      unfold Thread.Holds at hnot
      unfold Thread.Ok at hoku ⊢
      split at hoku <;> simp_all
    · exact absurd (hlock.symm.trans hfree) (by decide)
    · rcases eq_or_ne u t with rfl | hu
      · rw [Function.update_self]
        exact ⟨fun _ => rfl, fun _ => trivial⟩
      · rw [Function.update_of_ne hu, (hholds u).2]
  | unlocks hpoint =>
    rw [Thread.Ok, hpoint] at hok
    have hholds (u : Fin n) := h.holds_iff (t := t) (by simp [Thread.Holds, hpoint]) u
    exact h.move ⟨(s.threads t).i + 1, .looping⟩ hok (fun u _ => h.ok u)
      (fun _ => ⟨id, fun u hu hu' => hu ((hholds u).2.1 hu')⟩) nofun
      (by simp [Thread.added, hpoint])

/-- The invariant holds in every state. -/
theorem run_inv {events : List (Fin n)}
    (hrun : run (State.next rounds) (State.create n) events = some s) : Invariant rounds s :=
  run_invariant (P := fun _ s => Invariant rounds s) (create_inv n rounds)
    (fun _ _ _ _ h hnext => h.step (next_step hnext)) hrun

/-- In every state, at most one thread is between the exchange in `lock` that succeeds and the store
in `unlock`. -/
theorem mutual_exclusion (n rounds : ℕ) (events : List (Fin n)) (s : State n)
    (hrun : run (State.next rounds) (State.create n) events = some s) {t u : Fin n} (hne : t ≠ u)
    (ht : (s.threads t).Holds) : ¬(s.threads u).Holds :=
  fun hu => hne (((run_inv hrun).holds_iff hu t).2.1 ht)

/-- The first thread has the lock, and the second one has failed to lock. -/
theorem mutual_exclusion_pair :
    ∃ s : State 2, run (State.next 1) (State.create 2) [0, 0, 1, 1, 1, 1] = some s ∧
      ¬(s.threads 1).Holds :=
  ⟨_, rfl, mutual_exclusion 2 1 [0, 0, 1, 1, 1, 1] _ rfl (t := 0) (by decide) trivial⟩

/-- Whatever the order of the events was, no addition is lost: when all threads have returned, the
count is the number of their iterations. -/
theorem num_eq (n rounds : ℕ) (events : List (Fin n)) (s : State n)
    (hrun : run (State.next rounds) (State.create n) events = some s)
    (hreturned : ∀ t, (s.threads t).point = .returned) : s.num = n * rounds := by
  have hinv := run_inv hrun
  have hadded (t : Fin n) : (s.threads t).added = rounds := by
    have hok := hinv.ok t
    rw [Thread.Ok, hreturned t] at hok
    rw [Thread.added, hreturned t, if_neg nofun, hok]
  rw [hinv.count, Finset.sum_congr rfl fun t _ => hadded t, Finset.sum_const, Finset.card_univ,
    Fintype.card_fin, nsmul_eq_mul]

/-- Two threads, one iteration each. -/
theorem num_eq_pair :
    ∃ s : State 2, run (State.next 1) (State.create 2)
      [0, 0, 1, 1, 0, 1, 0, 0, 1, 1, 1, 1, 0, 1] = some s ∧ s.num = (2 : ℕ) * (1 : ℕ) :=
  ⟨_, rfl, num_eq 2 1 [0, 0, 1, 1, 0, 1, 0, 0, 1, 1, 1, 1, 0, 1] _ rfl (by decide)⟩

/-! ## Progress -/

/-- A bound on the events of a thread that are left if no exchange fails. -/
def Thread.left (rounds : ℕ) (th : Thread) : ℕ :=
  7 * (rounds - th.i) + match th.point with
    | .looping => 6
    | .failed _ => 5
    | .exchanging _ => 4
    | .locked => 3
    | .loaded _ => 2
    | .stored => 1
    | .returned => 0

/-- The events that are left in all threads. -/
def State.left (rounds : ℕ) (s : State n) : ℕ := ∑ t, (s.threads t).left rounds

theorem left_update_lt {threads : Fin n → Thread} (th : Thread)
    (hth : th.left rounds < (threads t).left rounds) :
    ∑ u, (Function.update threads t th u).left rounds < ∑ u, (threads u).left rounds := by
  refine Finset.sum_lt_sum (fun u _ => ?_) ⟨t, Finset.mem_univ t, ?_⟩
  · exact (Function.forall_update_iff _
      fun u th' => Thread.left rounds th' ≤ (threads u).left rounds).2 ⟨hth.le, fun u _ => le_rfl⟩ u
  · rwa [Function.update_self]

/-- As long as a thread has not returned, some thread can go on: the holder of the lock, or any
thread if there is no holder. -/
theorem Invariant.exists_next (h : Invariant rounds s) (ht : (s.threads t).point ≠ .returned) :
    ∃ u s', s.next rounds u = some s' ∧ s'.left rounds < s.left rounds := by
  have hgoto (u : Fin n) (point : Point) (lock : Bool) (num : ℤ)
      (hnext : s.next rounds u = some { s.goto u point with lock, num })
      (hleft : Thread.left rounds ⟨(s.threads u).i, point⟩ < (s.threads u).left rounds) :
      ∃ u s', s.next rounds u = some s' ∧ s'.left rounds < s.left rounds :=
    ⟨u, _, hnext, left_update_lt _ hleft⟩
  cases hlock : s.lock with
  | true =>
    obtain ⟨u, hu⟩ := h.held hlock
    have hholds := (hu u).2 rfl
    rcases hthread : (s.threads u).point with _ | expected | expected | _ | value | _ | _
    case locked =>
      refine hgoto u (.loaded s.num) _ _ (by rw [State.next, hthread]) ?_
      simp [Thread.left, hthread]
    case loaded =>
      refine hgoto u .stored _ _ (by rw [State.next, hthread]) ?_
      simp [Thread.left, hthread]
    case stored =>
      have hok := h.ok u
      rw [Thread.Ok, hthread] at hok
      have hi : (s.threads u).i < rounds := hok
      refine ⟨u, { s with
          lock := false
          threads := Function.update s.threads u ⟨(s.threads u).i + 1, .looping⟩ },
        by rw [State.next, hthread], left_update_lt _ ?_⟩
      simp only [Thread.left, hthread]
      omega
    all_goals simp [Thread.Holds, hthread] at hholds
  | false =>
    have hok := h.ok t
    have hfree := h.free hlock t
    rcases hthread : (s.threads t).point with _ | expected | expected | _ | value | _ | _
    case looping =>
      refine hgoto t (if (s.threads t).i < rounds then .exchanging false else .returned) _ _
        (by rw [State.next, hthread]) ?_
      split_ifs <;> simp [Thread.left, hthread]
    case exchanging =>
      -- the exchange succeeds
      rw [Thread.Ok, hthread] at hok
      obtain ⟨-, rfl⟩ := hok
      refine hgoto t .locked true s.num ?_ (by simp [Thread.left, hthread])
      simp only [State.next, hthread, compareExchange, hlock, if_true]
      rfl
    case failed =>
      refine hgoto t (.exchanging false) _ _ (by rw [State.next, hthread]) ?_
      simp [Thread.left, hthread]
    case returned => exact absurd hthread ht
    all_goals simp [Thread.Holds, hthread] at hfree

/-- No thread keeps the others from returning for ever: after any events, there are further ones
after which all threads have returned, and the count is complete. -/
theorem reaches_returned (n rounds : ℕ) (events : List (Fin n)) (s : State n)
    (hrun : run (State.next rounds) (State.create n) events = some s) :
    ∃ rest s', run (State.next rounds) (State.create n) (events ++ rest) = some s' ∧
      ∀ t, (s'.threads t).point = .returned := by
  -- the events that are left become fewer
  induction hleft : s.left rounds using Nat.strong_induction_on generalizing events s with
  | _ left ih =>
    by_cases hall : ∀ t, (s.threads t).point = .returned
    · exact ⟨[], s, by rw [List.append_nil, hrun], hall⟩
    · obtain ⟨t, ht⟩ := not_forall.1 hall
      obtain ⟨u, s', hnext, hlt⟩ := (run_inv hrun).exists_next ht
      obtain ⟨rest, s'', hrun', hreturned⟩ := ih _ (hleft ▸ hlt) (events ++ [u]) s'
        (run_concat_eq_some.2 ⟨s, hrun, hnext⟩) rfl
      exact ⟨u :: rest, s'', by rw [← hrun', List.append_assoc]; rfl, hreturned⟩

/-- Both threads wait for each other in no state. -/
theorem reaches_returned_pair :
    ∃ rest s', run (State.next 3) (State.create 2) ([0, 1, 1, 0] ++ rest) = some s' ∧
      ∀ t, (s'.threads t).point = .returned :=
  reaches_returned 2 3 [0, 1, 1, 0] _ rfl

end CppLearn.SpinLock

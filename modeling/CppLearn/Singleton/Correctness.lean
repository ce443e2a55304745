import CppLearn.Singleton.Defs
import Mathlib.Tactic.SplitIfs

/-!
# One instance

The pointer is tested again while the mutex is held, so only one object is constructed, even if the
first test misses the pointer. The pointer is read only by threads that have seen it or have held
the mutex, so each call returns it.

The invariant is `Invariant`, and the result about the object and the calls is `instance_unique`.
-/

namespace CppLearn.Singleton

open Traces

variable {Thread Args : Type*} [DecidableEq Thread] {s s' : State Thread Args} {t : Thread}
  {e : Event Thread Args}

/-- The thread holds the mutex. -/
def Point.Holds : Point Args → Prop
  | .locked _ | .constructing _ | .resetting _ | .unlocking => True
  | _ => False

/-- What a thread knows of the pointer and of the number of objects. -/
def Point.Ok (instance_ : Option ℕ) (count : ℕ) : Point Args → Prop
  | .locked _ => instance_ = none → count = 0
  | .constructing _ => instance_ = none ∧ count = 0
  | .resetting object => instance_ = none ∧ object = 0 ∧ count = 1
  | .unlocking | .reading => instance_ = some 0
  | _ => True

structure Invariant (s : State Thread Args) : Prop where
  ok : ∀ t, (s.points t).Ok s.instance_ s.constructed.length
  holder : ∀ t, (s.points t).Holds ↔ s.mutex = some t
  free : s.mutex = none → s.instance_ = none → s.constructed.length = 0
  pointer : ∀ object, s.instance_ = some object → object = 0 ∧ s.constructed.length = 1
  count : s.constructed.length ≤ 1
  deleted : s.deleted = []
  results : ∀ r ∈ s.results, r = some 0 ∧ s.instance_ = some 0

theorem create_inv (Thread Args : Type*) : Invariant (State.create Thread Args) where
  ok _ := trivial
  holder _ := ⟨nofun, nofun⟩
  free _ _ := rfl
  pointer _ h := by cases h
  count := Nat.zero_le 1
  deleted := rfl
  results _ h := by cases h

/-- While there is no pointer, the threads that do not hold the mutex know nothing. -/
theorem Point.Ok.of_not_holds {p : Point Args} {count count' : ℕ} {instance_ : Option ℕ}
    (hp : ¬p.Holds) (h : p.Ok none count) : p.Ok instance_ count' := by
  cases p
  case reading => cases h
  case outside | testing | locking => trivial
  all_goals exact absurd trivial hp

omit [DecidableEq Thread] in
theorem Invariant.not_holds_of_ne (h : Invariant s) (ht : (s.points t).Holds) {u : Thread}
    (hu : u ≠ t) : ¬(s.points u).Holds := by
  rw [h.holder, (h.holder t).1 ht]
  exact fun heq => hu (Option.some.inj heq).symm

/-- A thread moves on without the mutex. -/
theorem Invariant.goto (h : Invariant s) {p : Point Args}
    (hp : p.Ok s.instance_ s.constructed.length) (hholds : p.Holds ↔ (s.points t).Holds) :
    Invariant (s.goto t p) where
  ok := (Function.forall_update_iff _ fun _ => Point.Ok s.instance_ s.constructed.length).2
    ⟨hp, fun u _ => h.ok u⟩
  holder := (Function.forall_update_iff _ fun u q => Point.Holds q ↔ s.mutex = some u).2
    ⟨hholds.trans (h.holder t), fun u _ => h.holder u⟩
  free := h.free
  pointer := h.pointer
  count := h.count
  deleted := h.deleted
  results := h.results

/-- The holder gives the mutex up. -/
theorem Invariant.release (h : Invariant s) (ht : (s.points t).Holds) {p : Point Args}
    (hp : p.Ok s.instance_ s.constructed.length) (hholds : ¬p.Holds)
    (hfree : s.instance_ = none → s.constructed.length = 0) :
    Invariant { s.goto t p with mutex := none } where
  ok := (Function.forall_update_iff _ fun _ => Point.Ok s.instance_ s.constructed.length).2
    ⟨hp, fun u _ => h.ok u⟩
  holder := (Function.forall_update_iff _ fun u q => Point.Holds q ↔ none = some u).2
    ⟨⟨fun hh => absurd hh hholds, nofun⟩,
      fun _ hu => ⟨fun hh => absurd hh (h.not_holds_of_ne ht hu), nofun⟩⟩
  free _ := hfree
  pointer := h.pointer
  count := h.count
  deleted := h.deleted
  results := h.results

/-- The mutex is locked by a thread that has not seen the pointer. -/
theorem Invariant.acquire (h : Invariant s) (args : Args) (hmutex : s.mutex = none) :
    Invariant { s.goto t (.locked args) with mutex := t } where
  ok := (Function.forall_update_iff _ fun _ => Point.Ok s.instance_ s.constructed.length).2
    ⟨h.free hmutex, fun u _ => h.ok u⟩
  holder := (Function.forall_update_iff _ fun u q => Point.Holds q ↔ some t = some u).2
    ⟨⟨fun _ => rfl, fun _ => trivial⟩, fun u hu =>
      ⟨fun hh => by simp [h.holder, hmutex] at hh, fun heq => absurd (Option.some.inj heq).symm hu⟩⟩
  free hfree := by cases hfree
  pointer := h.pointer
  count := h.count
  deleted := h.deleted
  results := h.results

/-- The object is constructed. -/
theorem Invariant.construct (h : Invariant s) {args : Args}
    (hpoint : s.points t = .constructing args) :
    Invariant { s.goto t (.resetting s.constructed.length) with
      constructed := s.constructed ++ [args] } := by
  have hholds : (s.points t).Holds := by rw [hpoint]; trivial
  obtain ⟨hnone, hcount⟩ : s.instance_ = none ∧ s.constructed.length = 0 := by
    have hok := h.ok t
    rwa [hpoint] at hok
  have hlength : (s.constructed ++ [args]).length = 1 := by
    rw [List.length_append, hcount, List.length_singleton]
  refine ⟨?_, ?_, ?_, ?_, hlength.le, h.deleted, h.results⟩
  · refine (Function.forall_update_iff _
      fun _ => Point.Ok s.instance_ (s.constructed ++ [args]).length).2
      ⟨⟨hnone, hcount, hlength⟩, fun u hu => ?_⟩
    have hok := h.ok u
    rw [hnone] at hok
    exact hok.of_not_holds (h.not_holds_of_ne hholds hu)
  · exact (Function.forall_update_iff _ fun u q => Point.Holds q ↔ s.mutex = some u).2
      ⟨⟨fun _ => (h.holder t).1 hholds, fun _ => trivial⟩, fun u _ => h.holder u⟩
  · exact fun hmutex => absurd (((h.holder t).1 hholds).symm.trans hmutex) nofun
  · exact fun object hobject => absurd (hnone.symm.trans hobject) nofun

/-- The pointer is stored. -/
theorem Invariant.reset (h : Invariant s) {object : ℕ} (hpoint : s.points t = .resetting object) :
    Invariant { s.goto t .unlocking with
      instance_ := object
      deleted := s.deleted ++ s.instance_.toList } := by
  have hholds : (s.points t).Holds := by rw [hpoint]; trivial
  obtain ⟨hnone, rfl, hcount⟩ : s.instance_ = none ∧ object = 0 ∧ s.constructed.length = 1 := by
    have hok := h.ok t
    rwa [hpoint] at hok
  refine ⟨?_, ?_, nofun, ?_, hcount.le, ?_, fun r hr => ?_⟩
  · refine (Function.forall_update_iff _ fun _ => Point.Ok (some 0) s.constructed.length).2
      ⟨rfl, fun u hu => ?_⟩
    have hok := h.ok u
    rw [hnone] at hok
    exact hok.of_not_holds (h.not_holds_of_ne hholds hu)
  · exact (Function.forall_update_iff _ fun u q => Point.Holds q ↔ s.mutex = some u).2
      ⟨⟨fun _ => (h.holder t).1 hholds, fun _ => trivial⟩, fun u _ => h.holder u⟩
  · rintro object ⟨⟩
    exact ⟨rfl, hcount⟩
  · rw [hnone, h.deleted]
    rfl
  · have hr := (h.results r hr).2
    rw [hnone] at hr
    cases hr

theorem Invariant.step (h : Invariant s) (hstep : s.step t = some s') : Invariant s' := by
  have hok := h.ok t
  rw [State.step] at hstep
  split at hstep
  -- the thread gets the mutex
  case h_1 args hpoint =>
    split_ifs at hstep with hmutex
    obtain rfl := Option.some.inj hstep
    exact h.acquire args hmutex
  -- the second test, under the mutex
  case h_2 args hpoint =>
    rw [hpoint] at hok
    obtain rfl := Option.some.inj hstep
    refine h.goto ?_ ?_
    · split_ifs with hnone
      · exact ⟨hnone, hok hnone⟩
      · obtain ⟨object, hobject⟩ := Option.ne_none_iff_exists'.1 hnone
        exact hobject.trans (congrArg some (h.pointer object hobject).1)
    · rw [hpoint]
      split_ifs <;> exact Iff.rfl
  -- the constructor returns, and `reset` is next
  case h_3 args hpoint =>
    obtain rfl := Option.some.inj hstep
    exact h.construct hpoint
  case h_4 object hpoint =>
    obtain rfl := Option.some.inj hstep
    exact h.reset hpoint
  -- the mutex is released, and the pointer has been set before
  case h_5 hpoint =>
    rw [hpoint] at hok
    obtain rfl := Option.some.inj hstep
    have hpointer : s.instance_ = some 0 := hok
    exact h.release (by rw [hpoint]; trivial) hok id
      fun hnone => absurd (hnone.symm.trans hpointer) nofun
  -- the caller gets the instance
  case h_6 hpoint =>
    rw [hpoint] at hok
    obtain rfl := Option.some.inj hstep
    have hinv := h.goto (t := t) (p := .outside) trivial (by rw [hpoint]; exact Iff.rfl)
    refine ⟨hinv.ok, hinv.holder, hinv.free, hinv.pointer, hinv.count, hinv.deleted, fun r hr => ?_⟩
    rcases List.mem_append.1 hr with hr | hr
    · exact h.results r hr
    · rw [List.mem_singleton.1 hr]
      exact ⟨hok, hok⟩
  case h_7 => cases hstep

theorem Invariant.next (h : Invariant s) (hnext : s.next e = some s') : Invariant s' := by
  cases e with
  | call t args =>
    rw [State.next] at hnext
    split_ifs at hnext with houtside
    obtain rfl := Option.some.inj hnext
    refine h.goto trivial ?_
    -- a thread that calls held no mutex
    cases hpoint : s.points t <;> simp_all [Point.Holds]
  | test t found =>
    rw [State.next] at hnext
    split at hnext
    case h_1 args hpoint =>
      -- a test that finds the pointer set, or one that reads the old value
      split_ifs at hnext with hmiss hfound
      · obtain rfl := Option.some.inj hnext
        refine h.goto ?_ (by rw [hpoint]; exact Iff.rfl)
        obtain ⟨object, hobject⟩ := Option.ne_none_iff_exists'.1 fun hnone => hmiss ⟨hfound, hnone⟩
        exact hobject.trans (congrArg some (h.pointer object hobject).1)
      · obtain rfl := Option.some.inj hnext
        exact h.goto trivial (by rw [hpoint]; exact Iff.rfl)
    case h_2 => cases hnext
  | step t => exact h.step hnext
  | throws t =>
    rw [State.next] at hnext
    split at hnext
    -- the lock guard is destroyed by the exception, too
    case h_1 args hpoint =>
      obtain rfl := Option.some.inj hnext
      have hok := h.ok t
      rw [hpoint] at hok
      exact h.release (by rw [hpoint]; trivial) trivial id fun _ => hok.2
    case h_2 => cases hnext

/-- In every run, at most one object is constructed to the end, it is never deleted, and each call
that returns gives a pointer to it. -/
theorem instance_unique (Thread Args : Type*) [DecidableEq Thread]
    (events : List (Event Thread Args)) (s : State Thread Args)
    (hrun : run State.next (State.create Thread Args) events = some s) :
    s.constructed.length ≤ 1 ∧ s.deleted = [] ∧
      ∀ r ∈ s.results, r = some 0 ∧ s.constructed.length = 1 := by
  have hinv : Invariant s := run_invariant (P := fun _ s => Invariant s) (create_inv Thread Args)
    (fun _ _ _ _ h hnext => h.next hnext) hrun
  refine ⟨hinv.count, hinv.deleted, fun r hr => ?_⟩
  obtain ⟨hzero, hpointer⟩ := hinv.results r hr
  exact ⟨hzero, (hinv.pointer 0 hpointer).2⟩

/-- The second thread misses the pointer in the first test. -/
theorem instance_unique_pair :
    ∃ s : State (Fin 2) Bool, s.results = [some 0] ∧ s.constructed.length ≤ 1 ∧ s.deleted = [] ∧
      ∀ r ∈ s.results, r = some 0 ∧ s.constructed.length = 1 :=
  ⟨_, rfl, instance_unique (Fin 2) Bool [.call 0 true, .test 0 false, .step 0, .step 0, .step 0,
    .step 0, .call 1 false, .test 1 false, .step 0, .step 1, .step 1, .step 1, .step 1] _ rfl⟩

end CppLearn.Singleton

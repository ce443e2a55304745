import CppLearn.Reactor.Steps

/-!
# The event counter of the reactor

`epoll_event_count_` is meant to be the number of watched descriptors, and it is what `epoll_wait`
is told about the length of the array of events. But registering a handler again, as every read and
write turn does, counts it again; and the array has the length that the counter had when the loop
was entered.

For calls on a demultiplexer, `run_count_iff` says that the counter is right as long as no handler
is registered again. In a run of the event loop, each event adds one to the counter (`Registers`),
or takes one away (`Clears`), or leaves it alone, which can be told from the event and the state
before it. Hence `epoll_wait` is told the truth if and only if there were no more events of the
first kind than of the second one (`run_maxevents_iff`).
-/

namespace CppLearn.Reactor

open Traces

variable {d d' : Demultiplex} {granted : Bool} {id : ℕ} {h h' : Handler}

/-! ## Sequences of calls -/

/-- A call on a demultiplexer that returns `0`, or a change of the type of a handler. -/
inductive Call where
  | register (id : ℕ)
  | clear (id : ℕ)
  | setType (id : ℕ) (type : EventType)

/-- A call by handlers that are given by their numbers. -/
def call (s : Demultiplex × (ℕ → Handler)) : Call → Option (Demultiplex × (ℕ → Handler))
  | .register id => do
    let (d, h) ← s.1.registerEventHandler true id (s.2 id)
    some (d, Function.update s.2 id h)
  | .clear id => do
    let d ← s.1.clearEventHandler true (s.2 id)
    some (d, s.2)
  | .setType id type => some (s.1, Function.update s.2 id { s.2 id with eventType := type })

/-- The watched descriptors are those with an entry in the map, and the counter counts all of
them. -/
structure Counted (d : Demultiplex) : Prop where
  keys : ∀ fd, fd ∈ d.interest ↔ fd ∈ d.fdToHandler
  le : (d.interest.card : ℤ) ≤ d.epollEventCount

/-- The map has one entry for each watched descriptor. -/
theorem Counted.card_eq (hd : Counted d) : d.interest.card = d.fdToHandler.keys.length := by
  have hset : d.interest = d.fdToHandler.keys.toFinset := by
    ext fd
    rw [hd.keys, List.mem_toFinset, AList.mem_keys]
  rw [hset, List.toFinset_card_of_nodup d.fdToHandler.keys_nodup]

/-- A registration adds the descriptor to the map, and it counts one too many if and only if the
handler was registered before. -/
theorem Counted.register (hd : Counted d)
    (hreg : d.registerEventHandler granted id h = some (d', h')) :
    Counted d' ∧ (d'.epollEventCount = d'.interest.card ↔
      d.epollEventCount = d.interest.card ∧ h.registered = false) := by
  obtain ⟨-, hmem, rfl, -⟩ := Demultiplex.registerEventHandler_eq_some.1 hreg
  have hle := hd.le
  refine ⟨⟨fun fd => ?_, ?_⟩, ?_⟩
  · simp [hd.keys]
  · have := Finset.card_insert_le h.fd d.interest
    simp only
    omega
  · cases hr : h.registered with
    | false =>
      have hnot : h.fd ∉ d.interest := by simpa [hr] using hmem
      simp only [Finset.card_insert_of_notMem hnot, and_true]
      omega
    | true =>
      have hin : h.fd ∈ d.interest := by simpa [hr] using hmem
      simp only [Finset.insert_eq_of_mem hin, Bool.true_eq_false, and_false, iff_false]
      omega

/-- A clear takes the descriptor out everywhere. -/
theorem Counted.clear (hd : Counted d) (hclear : d.clearEventHandler granted h = some d') :
    Counted d' ∧ (d'.epollEventCount = d'.interest.card ↔
      d.epollEventCount = d.interest.card) := by
  obtain ⟨-, hmem, rfl⟩ := Demultiplex.clearEventHandler_eq_some.1 hclear
  have hle := hd.le
  have hcard := Finset.card_erase_add_one hmem
  refine ⟨⟨fun fd => ?_, ?_⟩, ?_⟩
  · simp [hd.keys]
  · simp only
    omega
  · simp only
    omega

variable {s s' : Demultiplex × (ℕ → Handler)} {hs : ℕ → Handler} {c : Call}

/-- The call registers a handler that was registered before. -/
def Reregisters (s : Demultiplex × (ℕ → Handler)) (c : Call) : Prop :=
  ∃ id, c = .register id ∧ (s.2 id).registered = true

/-- One call on a counted demultiplexer. -/
theorem call_counted (hd : Counted s.1) (hcall : call s c = some s') :
    Counted s'.1 ∧ (s'.1.epollEventCount = s'.1.interest.card ↔
      s.1.epollEventCount = s.1.interest.card ∧ ¬Reregisters s c) := by
  cases c with
  | register id =>
    simp only [call, Option.bind_eq_bind, Option.bind_eq_some_iff] at hcall
    obtain ⟨⟨d, h⟩, hreg, heq⟩ := hcall
    obtain rfl := Option.some.inj heq
    obtain ⟨hd', hiff⟩ := hd.register hreg
    refine ⟨hd', hiff.trans (and_congr_right fun _ => ?_)⟩
    simp [Reregisters]
  | clear id =>
    simp only [call, Option.bind_eq_bind, Option.bind_eq_some_iff] at hcall
    obtain ⟨d, hclear, heq⟩ := hcall
    obtain rfl := Option.some.inj heq
    obtain ⟨hd', hiff⟩ := hd.clear hclear
    refine ⟨hd', hiff.trans ?_⟩
    simp [Reregisters]
  | setType id type =>
    obtain rfl := Option.some.inj hcall
    refine ⟨hd, ?_⟩
    simp [Reregisters]

/-- After a sequence of successful calls on a new demultiplexer, the counter is the number of
watched descriptors and the number of entries of the map if and only if none of the calls registered
a handler again. -/
theorem run_count_iff (calls : List Call)
    (hrun : run call (Demultiplex.create, hs) calls = some s) :
    (s.1.epollEventCount = s.1.interest.card ∧
        s.1.interest.card = s.1.fdToHandler.keys.length) ↔
      StepsMeet call (Demultiplex.create, hs) (fun t c => ¬Reregisters t c) calls := by
  -- the counter is right as long as nothing was registered again
  have hinv : run call (Demultiplex.create, hs) calls = some s ∧ Counted s.1 ∧
      (s.1.epollEventCount = s.1.interest.card ↔
        StepsMeet call (Demultiplex.create, hs) (fun t c => ¬Reregisters t c) calls) := by
    refine run_invariant (P := fun es s => run call (Demultiplex.create, hs) es = some s ∧
      Counted s.1 ∧ (s.1.epollEventCount = s.1.interest.card ↔
        StepsMeet call (Demultiplex.create, hs) (fun t c => ¬Reregisters t c) es)) ?_ ?_ hrun
    · refine ⟨rfl, ⟨by simp [Demultiplex.create], by simp [Demultiplex.create]⟩, ?_⟩
      exact iff_of_true (by simp [Demultiplex.create]) stepsMeet_nil
    · rintro es s e s' ⟨hes, hcounted, hiff⟩ hcall
      obtain ⟨hcounted', hiff'⟩ := call_counted hcounted hcall
      refine ⟨run_concat_eq_some.2 ⟨s, hes, hcall⟩, hcounted', ?_⟩
      rw [hiff', hiff, stepsMeet_concat hes hcall]
  rw [← hinv.2.2]
  exact and_iff_left hinv.2.1.card_eq

/-- New handlers, with the descriptors as their numbers. -/
def newHandlers (fd : ℕ) : Handler := .create fd .kRead

/-- Two handlers are registered. -/
theorem run_count_iff_two :
    ∃ s, run call (Demultiplex.create, newHandlers) [.register 3, .register 4] = some s ∧
      s.1.epollEventCount = s.1.interest.card ∧
        s.1.interest.card = s.1.fdToHandler.keys.length := by
  obtain ⟨s, hs⟩ : ∃ s, call (Demultiplex.create, newHandlers) (.register 3) = some s := ⟨_, rfl⟩
  have hnew : (s.2 4).registered = false := by
    obtain rfl := Option.some.inj hs
    rfl
  obtain ⟨s', hs'⟩ : ∃ s', call s (.register 4) = some s' := by
    obtain rfl := Option.some.inj hs
    exact ⟨_, rfl⟩
  have hrun : run call (Demultiplex.create, newHandlers) [.register 3, .register 4] = some s' := by
    simp [run_cons, hs, hs']
  refine ⟨s', hrun, (run_count_iff _ hrun).2 ?_⟩
  -- neither of the handlers was registered before
  have hfirst : StepsMeet call (Demultiplex.create, newHandlers) (fun t c => ¬Reregisters t c)
      [.register 3] :=
    (stepsMeet_concat run_nil hs).2
      ⟨stepsMeet_nil, by simp [Reregisters, newHandlers, Handler.create]⟩
  have hrun₁ : run call (Demultiplex.create, newHandlers) [.register 3] = some s := by
    simp [run_cons, hs]
  exact (stepsMeet_concat hrun₁ hs').2 ⟨hfirst, by simp [Reregisters, hnew]⟩

/-- A handler that is registered again for a write event is counted twice. -/
theorem reregistration_counts_twice :
    ∃ s, run call (Demultiplex.create, newHandlers)
        [.register 3, .setType 3 .kWrite, .register 3] = some s ∧
      s.1.epollEventCount = 2 ∧ s.1.interest.card = 1 :=
  ⟨_, rfl, rfl, rfl⟩

/-! ## Runs of the event loop -/

section Loop

variable {s s' s₀ : State} {accepted : ℕ} {received : Option String} {e : Event}

/-- The element of `events` that is handled next, and the handler that the map has for it. -/
def State.current (s : State) : Option (Ready × Handler) :=
  match s.events with
  | [] => none
  | ready :: _ => (s.demultiplex.fdToHandler.lookup ready.fd).map fun id => (ready, s.handlers id)

/-- The event lets a handler be watched once more. A connection is accepted, a response is sent, or
a worker's call-back runs while `epoll_ctl` has what it needs: the descriptor is open, and is
watched if and only if the handler is marked as registered. -/
def Registers (s : State) : Event → Bool
  | .handle _ _ _ => s.current.any fun r =>
    !r.1.err && !r.1.rdhup && (r.2.eventType = .kAccept || r.2.eventType = .kWrite)
  | .task i granted => s.tasks[i]?.any fun id =>
    granted && s.isOpen (s.handlers id).fd &&
      ((s.handlers id).registered == decide ((s.handlers id).fd ∈ s.demultiplex.interest))
  | _ => false

/-- The event ends the watch of a handler, as its peer has gone, or there was an error. -/
def Clears (s : State) : Event → Bool
  | .handle _ _ _ => s.current.any fun r => r.1.err || r.1.rdhup || r.2.eventType = .kError
  | _ => false

/-- The counter of `s'` is that of `s` with `n` more registrations and `m` more clears, and the
array of events has the same length. -/
structure Counts (n m : ℕ) (s s' : State) : Prop where
  count : s'.demultiplex.epollEventCount + m = s.demultiplex.epollEventCount + n
  size : s'.eventsSize = s.eventsSize

theorem counts_register (h : s.registerEventHandler granted id = some s') : Counts 1 0 s s' := by
  obtain ⟨-, -, -, rfl⟩ := State.registerEventHandler_eq_some.1 h
  refine ⟨?_, rfl⟩
  dsimp only
  omega

theorem counts_clear (h : s.clearEventHandler granted id = some s') : Counts 0 1 s s' := by
  obtain ⟨-, -, -, rfl⟩ := State.clearEventHandler_eq_some.1 h
  refine ⟨?_, rfl⟩
  simp only [State.close]
  omega

/-- What `Dispatch` does to the counter depends on the type of the handler only. -/
theorem counts_dispatch (h : s.dispatch granted accepted received id = some s') :
    Counts ((s.handlers id).eventType = .kAccept || (s.handlers id).eventType = .kWrite).toNat
      (decide ((s.handlers id).eventType = .kError)).toNat s s' := by
  simp only [State.dispatch] at h
  split at h
  next htype =>
    -- accept
    rw [htype]
    split_ifs at h
    obtain ⟨hcount, hsize⟩ := counts_register h
    exact ⟨hcount, hsize⟩
  next htype =>
    -- read
    rw [htype]
    split at h <;> obtain rfl := Option.some.inj h <;> exact ⟨rfl, rfl⟩
  next htype =>
    -- write
    rw [htype]
    split at h
    · cases h
    · obtain ⟨hcount, hsize⟩ := counts_register h
      exact ⟨hcount, hsize⟩
  next htype =>
    rw [htype]
    exact counts_clear h

theorem demultiplex_taken (s : State) (ready : Ready) (events : List Ready) (id : ℕ) :
    (s.taken ready events id).demultiplex = s.demultiplex ∧
      (s.taken ready events id).eventsSize = s.eventsSize := by
  unfold State.taken
  split_ifs <;> exact ⟨rfl, rfl⟩

theorem eventType_taken (s : State) (ready : Ready) (events : List Ready) (id : ℕ) :
    ((s.taken ready events id).handlers id).eventType =
      if ready.err then .kError else (s.handlers id).eventType := by
  unfold State.taken
  split_ifs
  · simp only [State.setHandler, Function.update_self]
  · rfl

/-- What a ready event does to the counter. -/
theorem counts_handle (h : s.handle granted accepted received = some s') :
    Counts (Registers s (.handle granted accepted received)).toNat
      (Clears s (.handle granted accepted received)).toNat s s' := by
  unfold State.handle at h
  split at h
  · cases h
  next ready events hevents =>
    simp only [Option.bind_eq_bind, Option.bind_eq_some_iff] at h
    obtain ⟨id, hid, h⟩ := h
    change (if ready.rdhup then (s.taken ready events id).clearEventHandler granted id
      else (s.taken ready events id).dispatch granted accepted received id) = some s' at h
    have hcurrent : s.current = some (ready, s.handlers id) := by
      simp only [State.current, hevents, hid, Option.map_some]
    obtain ⟨hdemultiplex, hlength⟩ := demultiplex_taken s ready events id
    have htype := eventType_taken s ready events id
    simp only [Registers, Clears, hcurrent, Option.any_some]
    cases hrdhup : ready.rdhup with
    | true =>
      -- a closed connection is cleared at once
      rw [hrdhup, if_pos rfl] at h
      obtain ⟨hcount, hsize⟩ := counts_clear h
      rw [hdemultiplex] at hcount
      exact ⟨by simpa using hcount, hsize.trans hlength⟩
    | false =>
      rw [hrdhup, if_neg Bool.false_ne_true] at h
      obtain ⟨hcount, hsize⟩ := counts_dispatch h
      rw [hdemultiplex, htype] at hcount
      refine ⟨?_, hsize.trans hlength⟩
      generalize ready.err = err at hcount ⊢
      cases err <;> simpa using hcount

/-- What a worker's call-back does to the counter. -/
theorem counts_task {i : ℕ} (h : s.task i granted = some s') :
    Counts (Registers s (.task i granted)).toNat 0 s s' := by
  simp only [State.task, Option.bind_eq_bind, Option.bind_eq_some_iff, Option.some.injEq] at h
  obtain ⟨id, hid, rfl⟩ := h
  change Counts _ _ s (((s.answered i id).registerEventHandler granted id).getD (s.answered i id))
  -- the handler has new queues and a new type, but it is the same socket
  have hregisters : Registers s (.task i granted) = true ↔ granted = true ∧
      (s.answered i id).isOpen ((s.answered i id).handlers id).fd = true ∧
        (((s.answered i id).handlers id).registered = true ↔
          ((s.answered i id).handlers id).fd ∈ (s.answered i id).demultiplex.interest) := by
    have hmarked : (s.handlers id).registered =
          decide ((s.handlers id).fd ∈ s.demultiplex.interest) ↔
        ((s.handlers id).registered = true ↔ (s.handlers id).fd ∈ s.demultiplex.interest) := by
      rw [Bool.eq_iff_iff, decide_eq_true_iff]
    simp [Registers, hid, State.answered, State.setHandler, State.isOpen, and_assoc, hmarked]
  cases hreg : (s.answered i id).registerEventHandler granted id with
  | none =>
    have hnot : Registers s (.task i granted) = false := by
      rw [← Bool.not_eq_true, hregisters]
      rintro ⟨hgranted, hopen, hmem⟩
      rw [State.registerEventHandler_eq_some.2 ⟨hgranted, hopen, hmem, rfl⟩] at hreg
      cases hreg
    rw [hnot]
    exact ⟨rfl, rfl⟩
  | some s' =>
    obtain ⟨hgranted, hopen, hmem, -⟩ := State.registerEventHandler_eq_some.1 hreg
    rw [hregisters.2 ⟨hgranted, hopen, hmem⟩]
    obtain ⟨hcount, hsize⟩ := counts_register hreg
    exact ⟨hcount, hsize⟩

/-- What an event does to the counter. -/
theorem next_counts (h : s.next e = some s') :
    Counts (Registers s e).toNat (Clears s e).toNat s s' := by
  cases e with
  | epollWait ready =>
    simp only [State.next] at h
    split_ifs at h
    obtain rfl := Option.some.inj h
    exact ⟨rfl, rfl⟩
  | handle granted accepted received => exact counts_handle h
  | task i granted => exact counts_task h
  | destroy id =>
    simp only [State.next] at h
    split_ifs at h
    obtain rfl := Option.some.inj h
    exact ⟨rfl, rfl⟩

/-- What a run does to the counter. -/
theorem run_counts (es : List Event) (hrun : run State.next s₀ es = some s) :
    Counts (stepCount State.next Registers s₀ es) (stepCount State.next Clears s₀ es) s₀ s := by
  have hinv : run State.next s₀ es = some s ∧
      Counts (stepCount State.next Registers s₀ es) (stepCount State.next Clears s₀ es) s₀ s := by
    refine run_invariant (P := fun es s => run State.next s₀ es = some s ∧
      Counts (stepCount State.next Registers s₀ es) (stepCount State.next Clears s₀ es) s₀ s)
      ⟨rfl, rfl, rfl⟩ ?_ hrun
    rintro es s e s' ⟨hes, hcount, hsize⟩ hnext
    obtain ⟨hcount', hsize'⟩ := next_counts hnext
    refine ⟨run_concat_eq_some.2 ⟨s, hes, hnext⟩, ?_, hsize'.trans hsize⟩
    rw [stepCount_concat hes, stepCount_concat hes]
    omega
  exact hinv.2

/-- In a run of the loop of `WaitForEvents`: every call of `epoll_wait` passes at most the length of
the array if and only if, at every such call, at most as many of the events so far have registered
a handler as have cleared one. -/
theorem run_maxevents_iff (s₀ : State)
    (hentered : s₀.demultiplex.epollEventCount = s₀.eventsSize) (es : List Event) :
    (∀ past ready s, past ++ [.epollWait ready] <+: es → run State.next s₀ past = some s →
        s.demultiplex.epollEventCount ≤ s.eventsSize) ↔
      ∀ past ready s, past ++ [.epollWait ready] <+: es → run State.next s₀ past = some s →
        stepCount State.next Registers s₀ past ≤ stepCount State.next Clears s₀ past := by
  refine forall₃_congr fun past ready s => forall₂_congr fun _ hrun => ?_
  obtain ⟨hcount, hsize⟩ := run_counts past hrun
  omega

/-- `WaitForEvents` is entered with the listening socket 3 and a connection with descriptor 5. -/
def twoHandlers : State :=
  { State.init 3 {0, 1, 2, 4} with
    demultiplex := ⟨{3, 5}, 2, (AList.singleton 3 0).insert 5 1⟩
    handlers := fun id =>
      { Handler.create (if id = 0 then 3 else 5) (if id = 0 then .kAccept else .kRead) with
        registered := true }
    created := 2
    table := fun fd =>
      if fd = 3 then .socket 0 else if fd = 5 then .socket 1 else if fd < 5 then .other else .free
    eventsSize := 2 }

/-- A new connection is accepted, and the old one is cleared, before the second call. -/
theorem run_maxevents_iff_exchanged :
    ∃ s, run State.next twoHandlers [.epollWait [⟨3, false, false⟩, ⟨5, false, true⟩],
        .handle true 6 none, .handle true 0 none] = some s ∧
      s.demultiplex.epollEventCount ≤ s.eventsSize := by
  obtain ⟨s, hrun⟩ : ∃ s, run State.next twoHandlers
      [.epollWait [⟨3, false, false⟩, ⟨5, false, true⟩], .handle true 6 none,
        .handle true 0 none] = some s := ⟨_, rfl⟩
  refine ⟨s, hrun, (run_maxevents_iff twoHandlers rfl
    [.epollWait [⟨3, false, false⟩, ⟨5, false, true⟩], .handle true 6 none, .handle true 0 none,
      .epollWait []]).2 ?_ _ [] s (List.prefix_refl _) hrun⟩
  intro past ready _ hpast _
  match past with
  | [] => exact Nat.le_refl 0
  | [_] | [_, _] => simp [List.cons_prefix_cons] at hpast
  | [a, b, c] =>
    -- one registration, and one clear
    obtain ⟨rfl, rfl, rfl, -⟩ : a = .epollWait [⟨3, false, false⟩, ⟨5, false, true⟩] ∧
        b = .handle true 6 none ∧ c = .handle true 0 none ∧ ready = [] := by
      simpa [List.cons_prefix_cons] using hpast
    exact Nat.le_refl 1
  | _ :: _ :: _ :: _ :: _ => simp [List.cons_prefix_cons] at hpast

/-- After the first connection `epoll_wait` is asked for two events, and two are ready, but the
array has one element. -/
theorem accept_overruns_events :
    ∃ s, run State.next (State.init 3 {0, 1, 2, 4})
        [.epollWait [⟨3, false, false⟩], .handle true 5 none] = some s ∧
      s.demultiplex.epollEventCount = 2 ∧ s.eventsSize = 1 ∧
      (s.next (.epollWait [⟨3, false, false⟩, ⟨5, false, false⟩])).isSome :=
  ⟨_, rfl, rfl, rfl, rfl⟩

end Loop

end CppLearn.Reactor

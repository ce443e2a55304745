import CppLearn.Reactor.Defs

/-!
# What the events of the reactor do

The calls on the demultiplexer are described by when they succeed and what they do then, and every
event by the calls it makes.

`Step` lists what an event can do, in terms of the calls on the demultiplexer, and `next_step` says
that there is nothing else. When the calls succeed is in `State.registerEventHandler_eq_some` and
`State.clearEventHandler_eq_some`. In between, `State.taken` and `State.answered` are the states in
which the event loop and a worker make their calls.
-/

namespace CppLearn.Reactor

variable {d d' : Demultiplex} {granted : Bool} {id : ℕ} {h h' : Handler}

/-- Registering succeeds for a new handler of a descriptor that is not watched, and for an old
handler of one that is. -/
theorem Demultiplex.registerEventHandler_eq_some :
    d.registerEventHandler granted id h = some (d', h') ↔
      granted = true ∧ (h.registered = true ↔ h.fd ∈ d.interest) ∧
        d' = ⟨insert h.fd d.interest, d.epollEventCount + 1, d.fdToHandler.insert h.fd id⟩ ∧
        h' = { h with registered := true } := by
  unfold Demultiplex.registerEventHandler epollCtl
  by_cases hmem : h.fd ∈ d.interest
  · -- then the descriptor stays as it is
    have hinsert := Finset.insert_eq_of_mem hmem
    cases h.registered <;> cases granted <;> simp [hmem, hinsert, eq_comm]
  · cases h.registered <;> cases granted <;> simp [hmem, eq_comm]

theorem Demultiplex.clearEventHandler_eq_some :
    d.clearEventHandler granted h = some d' ↔ granted = true ∧ h.fd ∈ d.interest ∧
      d' = ⟨d.interest.erase h.fd, d.epollEventCount - 1, d.fdToHandler.erase h.fd⟩ := by
  unfold Demultiplex.clearEventHandler epollCtl
  by_cases hmem : h.fd ∈ d.interest <;> cases granted <;> simp [hmem, eq_comm]

variable {s s' : State} {accepted : ℕ} {received : Option String} {e : Event}

/-- What `RegisterEventHandler` does when it succeeds. -/
theorem State.registerEventHandler_eq_some :
    s.registerEventHandler granted id = some s' ↔
      granted = true ∧ s.isOpen (s.handlers id).fd = true ∧
        ((s.handlers id).registered = true ↔ (s.handlers id).fd ∈ s.demultiplex.interest) ∧
        s' = { s.setHandler id { s.handlers id with registered := true } with
          demultiplex := ⟨insert (s.handlers id).fd s.demultiplex.interest,
            s.demultiplex.epollEventCount + 1,
            s.demultiplex.fdToHandler.insert (s.handlers id).fd id⟩ } := by
  simp only [State.registerEventHandler, Option.bind_eq_bind, Option.bind_eq_some_iff, Prod.exists,
    Demultiplex.registerEventHandler_eq_some, Bool.and_eq_true, Option.some.injEq]
  constructor
  · rintro ⟨d, h, ⟨⟨hgranted, hopen⟩, hmem, rfl, rfl⟩, rfl⟩
    exact ⟨hgranted, hopen, hmem, rfl⟩
  · rintro ⟨hgranted, hopen, hmem, rfl⟩
    exact ⟨_, _, ⟨⟨hgranted, hopen⟩, hmem, rfl, rfl⟩, rfl⟩

/-- What `ClearEventHandler` does when it succeeds. -/
theorem State.clearEventHandler_eq_some :
    s.clearEventHandler granted id = some s' ↔
      granted = true ∧ s.isOpen (s.handlers id).fd = true ∧
        (s.handlers id).fd ∈ s.demultiplex.interest ∧
        s' = State.close { s with
          demultiplex := ⟨s.demultiplex.interest.erase (s.handlers id).fd,
            s.demultiplex.epollEventCount - 1,
            s.demultiplex.fdToHandler.erase (s.handlers id).fd⟩ } (s.handlers id).fd := by
  simp only [State.clearEventHandler, Option.bind_eq_bind, Option.bind_eq_some_iff,
    Demultiplex.clearEventHandler_eq_some, Bool.and_eq_true, Option.some.injEq]
  constructor
  · rintro ⟨d, ⟨⟨hgranted, hopen⟩, hmem, rfl⟩, rfl⟩
    exact ⟨hgranted, hopen, hmem, rfl⟩
  · rintro ⟨hgranted, hopen, hmem, rfl⟩
    exact ⟨_, ⟨⟨hgranted, hopen⟩, hmem, rfl⟩, rfl⟩

/-- The state in which a ready event is handled: the event is taken from the list, and the type of
the handler is set to `kError` if the event says so. -/
def State.taken (s : State) (ready : Ready) (events : List Ready) (id : ℕ) : State :=
  if ready.err then
    { s with events := events }.setHandler id { s.handlers id with eventType := .kError }
  else { s with events := events }

/-- The state in which the call-back of a task registers the handler. -/
def State.answered (s : State) (i id : ℕ) : State :=
  { s.setHandler id { s.handlers id with
    requestQ := []
    responseQ := (s.handlers id).responseQ ++ (s.handlers id).requestQ.map fun _ => processor
    eventType := .kWrite } with tasks := s.tasks.eraseIdx i }

/-- What `Dispatch` can do for the handler `id`. -/
inductive Dispatched (granted : Bool) (accepted : ℕ) (id : ℕ) (s : State) : State → Prop
  | accepts {s' : State} : (s.handlers id).eventType = .kAccept → s.Accepts accepted →
      (s.connect accepted).registerEventHandler granted s.created = some s' →
      Dispatched granted accepted id s s'
  | fails : (s.handlers id).eventType = .kRead → Dispatched granted accepted id s
      (s.setHandler id { s.handlers id with eventType := .kError })
  | reads (data : String) : (s.handlers id).eventType = .kRead →
      Dispatched granted accepted id s
        { s.setHandler id { s.handlers id with requestQ := (s.handlers id).requestQ ++ [data] } with
          tasks := s.tasks ++ [id] }
  | writes {response : String} {responseQ : List String} {s' : State} :
      (s.handlers id).eventType = .kWrite → (s.handlers id).responseQ = response :: responseQ →
      (s.setHandler id { s.handlers id with
        responseQ := responseQ, eventType := .kRead }).registerEventHandler granted id = some s' →
      Dispatched granted accepted id s s'
  | clears {s' : State} : s.clearEventHandler granted id = some s' →
      Dispatched granted accepted id s s'

theorem dispatched (h : s.dispatch granted accepted received id = some s') :
    Dispatched granted accepted id s s' := by
  simp only [State.dispatch] at h
  split at h
  next htype =>
    -- accept
    split_ifs at h with haccept
    exact .accepts htype haccept.2 h
  next htype =>
    -- read
    split at h <;> obtain rfl := Option.some.inj h
    · exact .fails htype
    · exact .reads _ htype
  next htype =>
    -- write
    split at h
    · cases h
    · next response responseQ hq => exact .writes htype hq h
  next => exact .clears h

/-- What an event can do. -/
inductive Step (s : State) : Event → State → Prop
  | waits {ready : List Ready} : s.Waits ready →
      Step s (.epollWait ready) { s with events := ready }
  | handles {granted : Bool} {accepted : ℕ} {received : Option String} {ready : Ready}
      {events : List Ready} {id : ℕ} {s' : State} :
      s.demultiplex.fdToHandler.lookup ready.fd = some id →
      Dispatched granted accepted id (s.taken ready events id) s' →
      Step s (.handle granted accepted received) s'
  | registers {i : ℕ} {granted : Bool} {id : ℕ} {s' : State} : s.tasks[i]? = some id →
      (s.answered i id).registerEventHandler granted id = some s' → Step s (.task i granted) s'
  | ignores {i : ℕ} {granted : Bool} {id : ℕ} : s.tasks[i]? = some id →
      (s.answered i id).registerEventHandler granted id = none →
      Step s (.task i granted) (s.answered i id)
  | destroys {id : ℕ} : s.Unreferenced id → Step s (.destroy id)
      (State.close { s with destroyed := insert id s.destroyed } (s.handlers id).fd)

theorem next_step (h : s.next e = some s') : Step s e s' := by
  cases e with
  | epollWait ready =>
    simp only [State.next] at h
    split_ifs at h with hwaits
    obtain rfl := Option.some.inj h
    exact .waits hwaits
  | handle granted accepted received =>
    simp only [State.next, State.handle] at h
    split at h
    · cases h
    · next ready events hevents =>
      simp only [Option.bind_eq_bind, Option.bind_eq_some_iff] at h
      obtain ⟨id, hid, h⟩ := h
      change (if ready.rdhup then (s.taken ready events id).clearEventHandler granted id
        else (s.taken ready events id).dispatch granted accepted received id) = some s' at h
      -- a closed connection is cleared at once
      have hd : Dispatched granted accepted id (s.taken ready events id) s' := by
        split_ifs at h
        · exact .clears h
        · exact dispatched h
      exact .handles hid hd
  | task i granted =>
    simp only [State.next, State.task, Option.bind_eq_bind, Option.bind_eq_some_iff,
      Option.some.injEq] at h
    obtain ⟨id, hid, rfl⟩ := h
    cases hreg : (s.answered i id).registerEventHandler granted id with
    | none =>
      have hkeep := Step.ignores hid hreg
      rwa [← Option.getD_none (a := s.answered i id), ← hreg] at hkeep
    | some s' =>
      have hdone := Step.registers hid hreg
      rwa [← Option.getD_some (a := s') (b := s.answered i id), ← hreg] at hdone
  | destroy id =>
    simp only [State.next] at h
    split_ifs at h with hunref
    obtain rfl := Option.some.inj h
    exact .destroys hunref

end CppLearn.Reactor

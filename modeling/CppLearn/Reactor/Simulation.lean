import CppLearn.Reactor.Responses
import CppLearn.Reactor.Steps

/-!
# The reactor, seen from one handler

The events of the reactor handle a ready descriptor, or run a worker task, in one go. Seen from the
handler of a connection each of them is a run of the smaller steps of an exchange, with the event
loop idle and the mutex free before and after it. So what holds in all states of an exchange holds
for every handler of the program, and `Dispatch` never calls `Write` without a response.

`Matches` relates a handler of the program to the state of an exchange, and `Simulated` does so for
all handlers of connections. Every event is a run of the exchange of the handler that it is about
(`Simulated.step`), and all states of the program are simulated (`run_simulated`). In terms of the
program, a handler with the type `kWrite` has a response (`dispatch_finds_response`).
-/

namespace CppLearn.Reactor

open Traces

/-! ## Runs of an exchange -/

namespace Exchange

variable {x : State}

/-- The peer may close the connection while the loop is idle, -/
theorem reaches_error (hloop : x.loop = .idle) : Reaches State.next x (x.setType .kError) :=
  .single (e := .error) (if_pos hloop)

/-- it may send a message, which is read, -/
theorem reaches_read (hloop : x.loop = .idle) (htype : x.handler.eventType = .kRead)
    (data : String) :
    Reaches State.next x { x.setRequestQ (x.handler.requestQ ++ [data]) with
      waiting := x.waiting + 1 } := by
  refine ⟨[.dispatch, .read (some data), .submit], ?_⟩
  simp [run_cons, State.next, State.setRequestQ, hloop, htype]

/-- and a response that has been stored may be written. -/
theorem reaches_write {response : String} {q : List String} (hloop : x.loop = .idle)
    (hholder : x.holder = none) (htype : x.handler.eventType = .kWrite)
    (hq : x.handler.responseQ = response :: q) :
    Reaches State.next x { (x.setResponseQ q).setType .kRead with writes := x.writes + 1 } := by
  refine ⟨[.dispatch, .write, .setRead], ?_⟩
  simp [run_cons, State.next, State.setResponseQ, State.setType, hloop, hholder, htype, hq]

/-- The handler after a task. -/
def answer (h : Handler) : Handler :=
  { h with
    requestQ := []
    responseQ := h.responseQ ++ h.requestQ.map fun _ => processor
    eventType := .kWrite }

/-- The task that has locked the mutex answers all requests and makes its call-back. -/
theorem reaches_unlock (hholder : x.holder = some .test) :
    ∃ x', Reaches State.next x x' ∧ x'.handler = answer x.handler ∧ x'.loop = x.loop ∧
      x'.holder = none ∧ x'.waiting = x.waiting := by
  induction hq : x.handler.requestQ generalizing x with
  | nil =>
    refine ⟨{ x.setType .kWrite with holder := none, callbacks := x.callbacks + 1 },
      ⟨[.work, .work, .work], ?_⟩, ?_, rfl, rfl, rfl⟩
    · simp [run_cons, State.next, State.work, State.setType, hholder, hq]
    · simp [State.setType, answer, hq]
  | cons data q ih =>
    -- one request is answered, and the mutex is kept
    obtain ⟨x', hreach, hhandler, hloop, hnone, hwaiting⟩ :=
      ih (x := { (x.setRequestQ q).setResponseQ (x.handler.responseQ ++ [processor]) with
        holder := some .test, responses := x.responses + 1 }) rfl rfl
    refine ⟨x', .trans ⟨[.work, .work, .work, .work], ?_⟩ hreach, ?_, hloop, hnone, hwaiting⟩
    · simp [run_cons, State.next, State.work, State.setRequestQ, State.setResponseQ, hholder, hq]
    · simp [hhandler, State.setRequestQ, State.setResponseQ, answer, hq]

/-- A task, from the lock to the unlock. -/
theorem reaches_task (hholder : x.holder = none) (hwaiting : 0 < x.waiting) :
    ∃ x', Reaches State.next x x' ∧ x'.handler = answer x.handler ∧ x'.loop = x.loop ∧
      x'.holder = none ∧ x'.waiting = x.waiting - 1 := by
  have hlock : x.next .lock = some { x with waiting := x.waiting - 1, holder := some .test } :=
    if_pos ⟨hholder, hwaiting⟩
  obtain ⟨x', hreach, hrest⟩ :=
    reaches_unlock (x := { x with waiting := x.waiting - 1, holder := some .test }) rfl
  exact ⟨x', .head hlock hreach, hrest⟩

end Exchange

/-! ## Handlers of the program -/

/-- Between two events of the program, the handler `id` is as in the state `x` of an exchange. -/
structure Matches (s : State) (id : ℕ) (x : Exchange.State) : Prop where
  eventType : x.handler.eventType = (s.handlers id).eventType
  requestQ : x.handler.requestQ = (s.handlers id).requestQ
  responseQ : x.handler.responseQ = (s.handlers id).responseQ
  loop : x.loop = .idle
  holder : x.holder = none
  waiting : x.waiting = s.tasks.count id

/-- Nothing that an exchange is about is different for the handler `id`. -/
structure SameExchange (s s' : State) (id : ℕ) : Prop where
  eventType : (s'.handlers id).eventType = (s.handlers id).eventType
  requestQ : (s'.handlers id).requestQ = (s.handlers id).requestQ
  responseQ : (s'.handlers id).responseQ = (s.handlers id).responseQ
  tasks : s'.tasks.count id = s.tasks.count id

variable {s s' s'' : State} {id j : ℕ} {x : Exchange.State} {granted : Bool} {accepted : ℕ}
  {e : Event}

/-- Events of other handlers do not matter. -/
theorem Matches.congr (h : Matches s id x) (hs : SameExchange s s' id) : Matches s' id x :=
  ⟨h.eventType.trans hs.eventType.symm, h.requestQ.trans hs.requestQ.symm,
    h.responseQ.trans hs.responseQ.symm, h.loop, h.holder, h.waiting.trans hs.tasks.symm⟩

/-- Nothing has happened to an exchange if its handler and its tasks are as before. -/
theorem sameExchange_of_eq (hhandler : s'.handlers id = s.handlers id)
    (htasks : s'.tasks.count id = s.tasks.count id) : SameExchange s s' id :=
  ⟨by rw [hhandler], by rw [hhandler], by rw [hhandler], htasks⟩

/-- Registering a handler with `epoll` is no part of an exchange, -/
theorem sameExchange_register (h : s.registerEventHandler granted j = some s') (id : ℕ) :
    SameExchange s s' id := by
  obtain ⟨-, -, -, rfl⟩ := State.registerEventHandler_eq_some.1 h
  by_cases hid : id = j
  · subst hid
    refine ⟨?_, ?_, ?_, rfl⟩ <;> simp [State.setHandler]
  · exact sameExchange_of_eq (Function.update_of_ne hid _ _) rfl

/-- and neither is clearing it. -/
theorem sameExchange_clear (h : s.clearEventHandler granted j = some s') (id : ℕ) :
    SameExchange s s' id := by
  obtain ⟨-, -, -, rfl⟩ := State.clearEventHandler_eq_some.1 h
  exact ⟨rfl, rfl, rfl, rfl⟩

/-- All handlers of connections are as in exchanges that can happen. Tasks are those of handlers of
connections, and the listening socket has another type. -/
structure Simulated (s : State) : Prop where
  created_pos : 0 < s.created
  tasks : ∀ id ∈ s.tasks, 0 < id ∧ id < s.created
  lookup_lt : ∀ fd id, s.demultiplex.fdToHandler.lookup fd = some id → id < s.created
  listener : (s.handlers 0).eventType = .kAccept ∨ (s.handlers 0).eventType = .kError
  exchange : ∀ id, 0 < id → id < s.created →
    ∃ fd x, Reaches Exchange.State.next (.init fd) x ∧ Matches s id x

/-- The handler `j` goes on with its exchange, and nothing happens to the others. -/
theorem Simulated.update (h : Simulated s) (hcreated : s'.created = s.created)
    (hmap : s'.demultiplex.fdToHandler = s.demultiplex.fdToHandler)
    (htasks : ∀ id ∈ s'.tasks, 0 < id ∧ id < s.created)
    (hothers : ∀ id, id ≠ j → SameExchange s s' id)
    (hlistener : j = 0 → (s'.handlers 0).eventType = .kError)
    (hj : ∀ x, Matches s j x → ∃ x', Reaches Exchange.State.next x x' ∧ Matches s' j x') :
    Simulated s' := by
  refine ⟨hcreated ▸ h.created_pos, hcreated ▸ htasks, ?_, ?_, fun id hpos hlt => ?_⟩
  · rw [hmap, hcreated]
    exact h.lookup_lt
  · by_cases hzero : j = 0
    · exact .inr (hlistener hzero)
    · rw [(hothers 0 (Ne.symm hzero)).eventType]
      exact h.listener
  · obtain ⟨fd, x, hreach, hm⟩ := h.exchange id hpos (hcreated ▸ hlt)
    by_cases hid : id = j
    · subst hid
      obtain ⟨x', hreach', hm'⟩ := hj x hm
      exact ⟨fd, x', hreach.trans hreach', hm'⟩
    · exact ⟨fd, x, hreach, hm.congr (hothers id hid)⟩

/-- Nothing happens to any handler. -/
theorem Simulated.congr (h : Simulated s) (hcreated : s'.created = s.created)
    (htasks : s'.tasks = s.tasks)
    (hlookup : ∀ fd id, s'.demultiplex.fdToHandler.lookup fd = some id → id < s.created)
    (hsame : ∀ id, SameExchange s s' id) : Simulated s' := by
  refine ⟨hcreated ▸ h.created_pos, ?_, hcreated ▸ hlookup, ?_, fun id hpos hlt => ?_⟩
  · rw [htasks, hcreated]
    exact h.tasks
  · rw [(hsame 0).eventType]
    exact h.listener
  · obtain ⟨fd, x, hreach, hm⟩ := h.exchange id hpos (hcreated ▸ hlt)
    exact ⟨fd, x, hreach, hm.congr (hsame id)⟩

/-- So the simulation goes on after a handler was registered, -/
theorem Simulated.register (h : Simulated s) (hj : j < s.created)
    (hreg : s.registerEventHandler granted j = some s') : Simulated s' := by
  have hsame := sameExchange_register hreg
  obtain ⟨-, -, -, rfl⟩ := State.registerEventHandler_eq_some.1 hreg
  refine h.congr rfl rfl (fun fd id hid => ?_) hsame
  simp only at hid
  by_cases hfd : fd = (s.handlers j).fd
  · rw [hfd, AList.lookup_insert] at hid
    exact Option.some.inj hid ▸ hj
  · rw [AList.lookup_insert_ne hfd] at hid
    exact h.lookup_lt fd id hid

/-- or cleared, -/
theorem Simulated.clear (h : Simulated s) (hclear : s.clearEventHandler granted j = some s') :
    Simulated s' := by
  have hsame := sameExchange_clear hclear
  obtain ⟨-, -, -, rfl⟩ := State.clearEventHandler_eq_some.1 hclear
  refine h.congr rfl rfl (fun fd id hid => ?_) hsame
  simp only [State.close] at hid
  by_cases hfd : fd = (s.handlers j).fd
  · rw [hfd, AList.lookup_erase] at hid
    cases hid
  · rw [AList.lookup_erase_ne hfd] at hid
    exact h.lookup_lt fd id hid

/-- A new handler starts an exchange. -/
theorem Simulated.connect (h : Simulated s) (fd : ℕ) : Simulated (s.connect fd) := by
  have hold : ∀ id, id ≠ s.created → SameExchange s (s.connect fd) id := fun id hid =>
    sameExchange_of_eq (Function.update_of_ne hid _ _) rfl
  refine ⟨Nat.succ_pos _, fun id hid => ?_, fun k id hid => ?_, ?_, fun id hpos hlt => ?_⟩
  · exact ⟨(h.tasks id hid).1, (h.tasks id hid).2.trans (Nat.lt_succ_self _)⟩
  · exact (h.lookup_lt k id hid).trans (Nat.lt_succ_self _)
  · rw [(hold 0 (Nat.ne_of_lt h.created_pos)).eventType]
    exact h.listener
  · by_cases hid : id = s.created
    · -- there are no tasks for the new handler
      have hcount : s.tasks.count id = 0 :=
        List.count_eq_zero.2 fun hmem => Nat.ne_of_lt (h.tasks id hmem).2 hid
      subst hid
      refine ⟨fd, .init fd, .refl _ _, ?_, ?_, ?_, rfl, rfl, hcount.symm⟩ <;>
        simp [State.connect, State.setHandler, Exchange.State.init]
    · have hlt' : id < s.created := Nat.lt_of_le_of_ne (Nat.le_of_lt_succ hlt) hid
      obtain ⟨fd', x, hreach, hm⟩ := h.exchange id hpos hlt'
      exact ⟨fd', x, hreach, hm.congr (hold id hid)⟩

/-! ## Events -/

/-- Only handlers of connections read and write. -/
theorem Simulated.pos (h : Simulated s)
    (htype : (s.handlers id).eventType = .kRead ∨ (s.handlers id).eventType = .kWrite) :
    0 < id := by
  refine Nat.pos_of_ne_zero fun hzero => ?_
  rw [hzero] at htype
  rcases h.listener with hl | hl <;> simp [hl] at htype

/-- The type of a handler is set to `kError`, by the loop or by `Read`. -/
theorem Simulated.setError (h : Simulated s) (j : ℕ) :
    Simulated (s.setHandler j { s.handlers j with eventType := .kError }) := by
  have hself : (s.setHandler j { s.handlers j with eventType := .kError }).handlers j =
      { s.handlers j with eventType := .kError } := Function.update_self ..
  refine h.update (j := j) rfl rfl h.tasks
    (fun id hid => sameExchange_of_eq (Function.update_of_ne hid _ _) rfl)
    (fun hzero => by rw [← hzero, hself]) fun x hm => ?_
  refine ⟨_, Exchange.reaches_error hm.loop, ?_, ?_, ?_, hm.loop, hm.holder, hm.waiting⟩
  · rw [hself]
    rfl
  · rw [hself]
    exact hm.requestQ
  · rw [hself]
    exact hm.responseQ

/-- or after the next event was taken from the list. -/
theorem Simulated.taken (h : Simulated s) (ready : Ready) (events : List Ready) (id : ℕ) :
    Simulated (s.taken ready events id) := by
  have hevents : Simulated { s with events := events } :=
    h.congr rfl rfl h.lookup_lt fun _ => sameExchange_of_eq rfl rfl
  unfold State.taken
  split_ifs
  · exact hevents.setError id
  · exact hevents

/-- `Dispatch` is a run of the exchange of the handler. -/
theorem Simulated.dispatched (h : Simulated s) (hid : id < s.created)
    (hd : Dispatched granted accepted id s s') : Simulated s' := by
  cases hd with
  | accepts _ _ hreg => exact (h.connect accepted).register (Nat.lt_succ_self _) hreg
  | fails => exact h.setError id
  -- the message becomes a task, and the exchange has read it
  | reads data htype =>
    have hpos := h.pos (.inl htype)
    refine h.update (j := id) rfl rfl (fun k hk => ?_) (fun k hk => ?_)
      (fun hzero => absurd hzero hpos.ne') fun x hm => ?_
    · rcases List.mem_append.1 hk with hk | hk
      · exact h.tasks k hk
      · obtain rfl := List.mem_singleton.1 hk
        exact ⟨hpos, hid⟩
    · refine sameExchange_of_eq (Function.update_of_ne hk _ _) ?_
      simp [Ne.symm hk]
    · refine ⟨_, Exchange.reaches_read hm.loop (hm.eventType.trans htype) data, ?_, ?_, ?_,
        hm.loop, hm.holder, ?_⟩
      · simpa [State.setHandler, Exchange.State.setRequestQ] using hm.eventType
      · simpa [State.setHandler, Exchange.State.setRequestQ] using hm.requestQ
      · simpa [State.setHandler, Exchange.State.setRequestQ] using hm.responseQ
      · simpa using hm.waiting
  -- the response is sent first, and then the handler waits for the next message
  | @writes response responseQ s' htype hq hreg =>
    have hpos := h.pos (.inr htype)
    have hwritten : Simulated (s.setHandler id { s.handlers id with
        responseQ := responseQ, eventType := .kRead }) := by
      refine h.update (j := id) rfl rfl h.tasks
        (fun k hk => sameExchange_of_eq (Function.update_of_ne hk _ _) rfl)
        (fun hzero => absurd hzero hpos.ne') fun x hm => ?_
      have hreach := Exchange.reaches_write hm.loop hm.holder (hm.eventType.trans htype)
        (hm.responseQ.trans hq)
      refine ⟨_, hreach, ?_, ?_, ?_, hm.loop, hm.holder, hm.waiting⟩
      · simp [State.setHandler, Exchange.State.setType]
      · simpa [State.setHandler, Exchange.State.setType, Exchange.State.setResponseQ]
          using hm.requestQ
      · simp [State.setHandler, Exchange.State.setType, Exchange.State.setResponseQ]
    exact hwritten.register hid hreg
  | clears hclear => exact h.clear hclear

/-- A task is a run of the exchange of its handler. -/
theorem Simulated.answered (h : Simulated s) {i : ℕ} (hid : s.tasks[i]? = some id) :
    Simulated (s.answered i id) := by
  have hmem := List.mem_of_getElem? hid
  have hpos := (h.tasks id hmem).1
  -- the task is no longer there
  obtain ⟨hi, hget⟩ := List.getElem?_eq_some_iff.1 hid
  have hperm : (id :: s.tasks.eraseIdx i).Perm s.tasks := hget ▸ List.getElem_cons_eraseIdx_perm hi
  refine h.update (j := id) rfl rfl (fun k hk => h.tasks k (List.mem_of_mem_eraseIdx hk))
    (fun k hk => ?_) (fun hzero => absurd hzero hpos.ne') fun x hm => ?_
  · refine sameExchange_of_eq (Function.update_of_ne hk _ _) ?_
    rw [← hperm.count_eq k, List.count_cons_of_ne (Ne.symm hk)]
    rfl
  · have hwaiting := hm.waiting
    rw [← hperm.count_eq id, List.count_cons_self] at hwaiting
    obtain ⟨x', hreach, hhandler, hloop, hholder, hrest⟩ :=
      Exchange.reaches_task hm.holder (hwaiting ▸ Nat.succ_pos _)
    refine ⟨x', hreach, ?_, ?_, ?_, hloop.trans hm.loop, hholder, ?_⟩
    · simp [hhandler, Exchange.answer, State.answered, State.setHandler]
    · simp [hhandler, Exchange.answer, State.answered, State.setHandler]
    · simp [hhandler, Exchange.answer, State.answered, State.setHandler, hm.requestQ, hm.responseQ]
    · rw [hrest, hwaiting]
      rfl

/-- Every event is a run of the exchange of the handler that it is about. -/
theorem Simulated.step (h : Simulated s) (hstep : Step s e s') : Simulated s' := by
  cases hstep with
  | waits => exact h.congr rfl rfl h.lookup_lt fun _ => sameExchange_of_eq rfl rfl
  | @handles _ _ _ ready events id _ hlookup hd =>
    refine (h.taken ready events id).dispatched ?_ hd
    have hlt := h.lookup_lt _ _ hlookup
    unfold State.taken
    split_ifs <;> exact hlt
  | registers hid hreg =>
    exact (h.answered hid).register (h.tasks _ (List.mem_of_getElem? hid)).2 hreg
  | ignores hid _ => exact h.answered hid
  | destroys => exact h.congr rfl rfl h.lookup_lt fun _ => sameExchange_of_eq rfl rfl

/-- At first, there is no exchange. -/
theorem simulated_init (listenFd : ℕ) (others : Finset ℕ) :
    Simulated (State.init listenFd others) := by
  refine ⟨Nat.zero_lt_one, fun id hid => ?_, fun fd id hid => ?_, .inl rfl, fun id hpos hlt => ?_⟩
  · cases hid
  · have hmem := List.of_mem_dlookup hid
    simp only [State.init, AList.singleton_entries, List.mem_singleton, Sigma.mk.injEq] at hmem
    rw [eq_of_heq hmem.2]
    exact Nat.zero_lt_one
  · exact absurd hpos (by simpa [State.init] using hlt)

/-- In all states that the program reaches the handlers of connections are as in exchanges. -/
theorem run_simulated {listenFd : ℕ} {others : Finset ℕ} {es : List Event}
    (hrun : run State.next (State.init listenFd others) es = some s) : Simulated s :=
  run_invariant (P := fun _ s => Simulated s) (simulated_init listenFd others)
    (fun _ _ _ _ h hnext => h.step (next_step hnext)) hrun

/-- In all states that the program reaches, a handler that `Dispatch` would call `Write` for has a
response. -/
theorem dispatch_finds_response {listenFd : ℕ} {others : Finset ℕ} {es : List Event}
    (hrun : run State.next (State.init listenFd others) es = some s) (hid : id < s.created)
    (htype : (s.handlers id).eventType = .kWrite) : (s.handlers id).responseQ ≠ [] := by
  have h := run_simulated hrun
  obtain ⟨fd, x, ⟨es, hreach⟩, hm⟩ := h.exchange id (h.pos (.inr htype)) hid
  rw [← hm.responseQ]
  -- `Write` would be called now
  have hcall : x.next .dispatch = some { x with loop := .write, writes := x.writes + 1 } := by
    simp [Exchange.State.next, hm.loop, hm.eventType, htype]
  exact ((Exchange.inv_of_run hreach).next hcall).write_ne_nil rfl

end CppLearn.Reactor

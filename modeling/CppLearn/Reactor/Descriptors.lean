import CppLearn.Reactor.Steps

/-!
# Descriptors of connections

`ClearEventHandler` closes the descriptor of a handler, and so does the destructor of the handler.
In between, `accept` may have given the number to another connection; a call-back that was started
for the old one registers the old handler under it. So each descriptor is closed once, and
belongs to the handler that is registered for it, exactly as long as no handler of a connection is
destroyed and no call-back finds its descriptor in other hands.

What should hold in every state is `Owned`, and `Harmless` is the condition on an event. The
invariant is kept by the calls that an event makes (`Inv.register`, `Inv.connect`, `Inv.clear`) and
so by every harmless event (`Inv.step`), while any other one breaks what should hold
(`not_owned_of_step`). For whole runs this is `run_owned_iff`.
-/

namespace CppLearn.Reactor

open Traces

variable {s s' : State} {granted : Bool} {id fd accepted : ℕ} {e : Event}

/-- No descriptor was closed twice since `accept` returned it, and every registered handler is that
of the connection which owns the descriptor. -/
structure Owned (s : State) : Prop where
  closes : ∀ fd, s.closes fd ≤ 1
  owner : ∀ fd id, s.demultiplex.fdToHandler.lookup fd = some id → s.table fd = .socket id

/-- The event destroys no handler, and it is no call-back whose descriptor belongs to another
connection by now and for which `epoll_ctl` is granted. -/
def Harmless (s : State) : Event → Prop
  | .epollWait _ => True
  | .handle _ _ _ => True
  | .task i granted => ∀ id other, s.tasks[i]? = some id → granted = true →
      s.table (s.handlers id).fd = .socket other → other = id
  | .destroy _ => False

/-- The invariant: registered handlers, watched descriptors and sockets are the same. -/
structure Inv (s : State) : Prop where
  lookup_iff : ∀ fd id,
    s.demultiplex.fdToHandler.lookup fd = some id ↔ s.table fd = .socket id
  interest_iff : ∀ fd, fd ∈ s.demultiplex.interest ↔ ∃ id, s.table fd = .socket id
  fd_eq : ∀ fd id, s.table fd = .socket id → (s.handlers id).fd = fd
  lt_created : ∀ fd id, s.table fd = .socket id → id < s.created
  registered : ∀ id < s.created, (s.handlers id).registered = true
  closes_le : ∀ fd, s.closes fd ≤ 1
  closes_socket : ∀ fd id, s.table fd = .socket id → s.closes fd = 0
  /-- The descriptor of a handler is a socket, or it is free and was closed. -/
  closes_free : ∀ id < s.created,
    (∃ other, s.table (s.handlers id).fd = .socket other) ∨ s.closes (s.handlers id).fd = 1
  tasks_lt : ∀ id ∈ s.tasks, id < s.created

/-- Each handler owns its descriptor. -/
theorem Inv.owned (h : Inv s) : Owned s := ⟨h.closes_le, fun fd id => (h.lookup_iff fd id).1⟩

/-! ## The calls -/

/-- Nothing that the invariant speaks about is different, except for tasks. -/
structure SameSockets (s s' : State) : Prop where
  demultiplex : s'.demultiplex = s.demultiplex
  table : s'.table = s.table
  closes : s'.closes = s.closes
  created : s'.created = s.created
  handlers : ∀ id, (s'.handlers id).fd = (s.handlers id).fd ∧
    (s'.handlers id).registered = (s.handlers id).registered

/-- The invariant is about sockets and handlers only. -/
theorem Inv.of_sameSockets (h : Inv s) (hs : SameSockets s s')
    (htasks : ∀ id ∈ s'.tasks, id < s.created) : Inv s' := by
  refine ⟨?_, ?_, ?_, ?_, ?_, ?_, ?_, ?_, ?_⟩
  · rw [hs.demultiplex, hs.table]
    exact h.lookup_iff
  · rw [hs.demultiplex, hs.table]
    exact h.interest_iff
  · intro fd id hid
    rw [(hs.handlers id).1]
    exact h.fd_eq fd id (hs.table ▸ hid)
  · rw [hs.table, hs.created]
    exact h.lt_created
  · intro id hid
    rw [(hs.handlers id).2]
    exact h.registered id (hs.created ▸ hid)
  · rw [hs.closes]
    exact h.closes_le
  · rw [hs.closes, hs.table]
    exact h.closes_socket
  · intro id hid
    rw [(hs.handlers id).1, hs.closes, hs.table]
    exact h.closes_free id (hs.created ▸ hid)
  · intro id hid
    rw [hs.created]
    exact htasks id hid

/-- Another type and other queues for a handler. -/
theorem sameSockets_setHandler (s : State) (id : ℕ) (h' : Handler)
    (hfd : h'.fd = (s.handlers id).fd) (hreg : h'.registered = (s.handlers id).registered) :
    SameSockets s (s.setHandler id h') := by
  refine ⟨rfl, rfl, rfl, rfl, fun j => ?_⟩
  by_cases hj : j = id
  · subst hj
    simp [State.setHandler, hfd, hreg]
  · simp [State.setHandler, Function.update_of_ne hj]

/-- Registering the handler of a socket again changes nothing. -/
theorem Inv.register (h : Inv s) (hid : s.table (s.handlers id).fd = .socket id)
    (hreg : s.registerEventHandler granted id = some s') : Inv s' := by
  obtain ⟨-, -, -, rfl⟩ := State.registerEventHandler_eq_some.1 hreg
  have hlookup := (h.lookup_iff _ _).2 hid
  have hmem : (s.handlers id).fd ∈ s.demultiplex.interest := (h.interest_iff _).2 ⟨id, hid⟩
  have hflag := h.registered id (h.lt_created _ _ hid)
  have hsame := sameSockets_setHandler s id { s.handlers id with registered := true } rfl
    hflag.symm
  have hset := h.of_sameSockets hsame h.tasks_lt
  refine ⟨fun fd j => ?_, fun fd => ?_, hset.fd_eq, hset.lt_created, hset.registered,
    hset.closes_le, hset.closes_socket, hset.closes_free, hset.tasks_lt⟩
  · rw [← hset.lookup_iff]
    by_cases hfd : fd = (s.handlers id).fd
    · subst hfd
      simp only [AList.lookup_insert]
      exact (congrArg (· = some j) hlookup.symm).to_iff
    · simp only [AList.lookup_insert_ne hfd]
      exact Iff.rfl
  · rw [← hset.interest_iff]
    simp only [Finset.insert_eq_of_mem hmem]
    exact Iff.rfl

/-- A new connection on a free descriptor, with its handler registered. -/
theorem Inv.connect (h : Inv s) (hfree : s.table fd = .free)
    (hreg : (s.connect fd).registerEventHandler granted s.created = some s') : Inv s' := by
  obtain ⟨-, -, -, hs'⟩ := State.registerEventHandler_eq_some.1 hreg
  have hnew : (s.connect fd).handlers s.created = .create fd .kRead := by
    simp [State.connect, State.setHandler]
  rw [hnew] at hs'
  -- the new handler has a number of its own, and the old ones are not affected
  have hself : s'.handlers s.created = { Handler.create fd .kRead with registered := true } := by
    simp [hs', State.setHandler]
  have hold : ∀ j < s.created, s'.handlers j = s.handlers j := by
    intro j hj
    simp [hs', State.connect, State.setHandler, Function.update_of_ne (Nat.ne_of_lt hj)]
  have htable : s'.table = Function.update s.table fd (.socket s.created) := by rw [hs']; rfl
  have hcloses : s'.closes = Function.update s.closes fd 0 := by rw [hs']; rfl
  have hcreated : s'.created = s.created + 1 := by rw [hs']; rfl
  have hinterest : s'.demultiplex.interest = insert fd s.demultiplex.interest := by rw [hs']; rfl
  have hmap : s'.demultiplex.fdToHandler = s.demultiplex.fdToHandler.insert fd s.created := by
    rw [hs']; rfl
  have htasks : s'.tasks = s.tasks := by rw [hs']; rfl
  have hother : ∀ {k}, k ≠ fd → s'.table k = s.table k := by
    intro k hk
    rw [htable, Function.update_of_ne hk]
  have hsocket : s'.table fd = .socket s.created := by rw [htable, Function.update_self]
  refine ⟨fun k j => ?_, fun k => ?_, fun k j hj => ?_, fun k j hj => ?_, fun j hj => ?_,
    fun k => ?_, fun k j hj => ?_, fun j hj => ?_, fun j hj => ?_⟩
  · by_cases hk : k = fd
    · subst hk
      rw [hmap, AList.lookup_insert, hsocket, Option.some.injEq, Descriptor.socket.injEq]
    · rw [hmap, AList.lookup_insert_ne hk, hother hk, h.lookup_iff]
  · by_cases hk : k = fd
    · subst hk
      simp [hinterest, hsocket]
    · simp [hinterest, hk, hother hk, h.interest_iff]
  · by_cases hk : k = fd
    · subst hk
      obtain rfl : s.created = j := by simpa [hsocket] using hj
      rw [hself]
      rfl
    · rw [hother hk] at hj
      rw [hold j (h.lt_created k j hj)]
      exact h.fd_eq k j hj
  · by_cases hk : k = fd
    · subst hk
      obtain rfl : s.created = j := by simpa [hsocket] using hj
      omega
    · rw [hother hk] at hj
      have := h.lt_created k j hj
      omega
  · rcases Nat.lt_succ_iff_lt_or_eq.1 (hcreated ▸ hj) with hlt | rfl
    · rw [hold j hlt]
      exact h.registered j hlt
    · rw [hself]
  · by_cases hk : k = fd
    · simp [hcloses, hk]
    · rw [hcloses, Function.update_of_ne hk]
      exact h.closes_le k
  · by_cases hk : k = fd
    · simp [hcloses, hk]
    · rw [hother hk] at hj
      rw [hcloses, Function.update_of_ne hk]
      exact h.closes_socket k j hj
  · rcases Nat.lt_succ_iff_lt_or_eq.1 (hcreated ▸ hj) with hlt | rfl
    · rw [hold j hlt]
      by_cases hk : (s.handlers j).fd = fd
      · exact .inl ⟨s.created, by rw [hk, hsocket]⟩
      · rw [hother hk, hcloses, Function.update_of_ne hk]
        exact h.closes_free j hlt
    · refine .inl ⟨s.created, ?_⟩
      rw [hself]
      exact hsocket
  · have := h.tasks_lt j (htasks ▸ hj)
    omega

/-- Clearing the handler of a socket closes its descriptor for the first time. -/
theorem Inv.clear (h : Inv s) (hid : s.table (s.handlers id).fd = .socket id)
    (hclear : s.clearEventHandler granted id = some s') : Inv s' := by
  obtain ⟨-, -, -, hs'⟩ := State.clearEventHandler_eq_some.1 hclear
  set fd := (s.handlers id).fd with hfd
  have hopen := h.closes_socket fd id hid
  have htable : s'.table = Function.update s.table fd .free := by rw [hs']; rfl
  have hcloses : s'.closes = Function.update s.closes fd 1 := by
    rw [hs']
    simp [State.close, hopen]
  have hhandlers : s'.handlers = s.handlers := by rw [hs']; rfl
  have hcreated : s'.created = s.created := by rw [hs']; rfl
  have hinterest : s'.demultiplex.interest = s.demultiplex.interest.erase fd := by
    rw [hs']
    simp [State.close]
  have hmap : s'.demultiplex.fdToHandler = s.demultiplex.fdToHandler.erase fd := by rw [hs']; rfl
  have htasks : s'.tasks = s.tasks := by rw [hs']; rfl
  have hother : ∀ {k}, k ≠ fd → s'.table k = s.table k := by
    intro k hk
    rw [htable, Function.update_of_ne hk]
  have hfree : s'.table fd = .free := by rw [htable, Function.update_self]
  -- a socket has another descriptor
  have hne : ∀ {k j}, s'.table k = .socket j → k ≠ fd ∧ s.table k = .socket j := by
    intro k j hj
    have hk : k ≠ fd := by
      rintro rfl
      simp [hfree] at hj
    exact ⟨hk, hother hk ▸ hj⟩
  refine ⟨fun k j => ?_, fun k => ?_, fun k j hj => ?_, fun k j hj => ?_, fun j hj => ?_,
    fun k => ?_, fun k j hj => ?_, fun j hj => ?_, fun j hj => ?_⟩
  · by_cases hk : k = fd
    · subst hk
      simp [hmap, hfree]
    · rw [hmap, AList.lookup_erase_ne hk, hother hk, h.lookup_iff]
  · by_cases hk : k = fd
    · subst hk
      simp [hinterest, hfree]
    · simp [hinterest, hk, hother hk, h.interest_iff]
  · rw [hhandlers]
    exact h.fd_eq k j (hne hj).2
  · rw [hcreated]
    exact h.lt_created k j (hne hj).2
  · rw [hhandlers]
    exact h.registered j (hcreated ▸ hj)
  · by_cases hk : k = fd
    · simp [hcloses, hk]
    · rw [hcloses, Function.update_of_ne hk]
      exact h.closes_le k
  · obtain ⟨hk, hj⟩ := hne hj
    rw [hcloses, Function.update_of_ne hk]
    exact h.closes_socket k j hj
  · rw [hhandlers]
    by_cases hk : (s.handlers j).fd = fd
    · exact .inr (by rw [hk, hcloses, Function.update_self])
    · rw [hother hk, hcloses, Function.update_of_ne hk]
      exact h.closes_free j (hcreated ▸ hj)
  · rw [hcreated]
    exact h.tasks_lt j (htasks ▸ hj)

/-! ## The events -/

/-- Taking an event from the list concerns neither, -/
theorem sameSockets_taken (s : State) (ready : Ready) (events : List Ready) (id : ℕ) :
    SameSockets s (s.taken ready events id) := by
  unfold State.taken
  split_ifs
  · obtain ⟨hd, ht, hc, hn, hh⟩ :=
      sameSockets_setHandler { s with events := events } id
        { s.handlers id with eventType := .kError } rfl rfl
    exact ⟨hd, ht, hc, hn, hh⟩
  · exact ⟨rfl, rfl, rfl, rfl, fun _ => ⟨rfl, rfl⟩⟩

/-- and dispatching it keeps the invariant. -/
theorem Inv.dispatched (h : Inv s) (hid : s.table (s.handlers id).fd = .socket id)
    (hd : Dispatched granted accepted id s s') : Inv s' := by
  cases hd with
  | accepts _ haccept hreg => exact h.connect haccept.1 hreg
  | fails => exact h.of_sameSockets (sameSockets_setHandler s id _ rfl rfl) h.tasks_lt
  | reads data =>
    obtain ⟨hd, ht, hc, hn, hh⟩ := sameSockets_setHandler s id
      { s.handlers id with requestQ := (s.handlers id).requestQ ++ [data] } rfl rfl
    refine h.of_sameSockets ⟨hd, ht, hc, hn, hh⟩ fun j hj => ?_
    rcases List.mem_append.1 hj with hj | hj
    · exact h.tasks_lt j hj
    · obtain rfl := List.mem_singleton.1 hj
      exact h.lt_created _ _ hid
  | @writes response responseQ s' _ hq hreg =>
    have hsame := sameSockets_setHandler s id
      { s.handlers id with responseQ := responseQ, eventType := .kRead } rfl rfl
    refine (h.of_sameSockets hsame h.tasks_lt).register ?_ hreg
    rw [(hsame.handlers id).1]
    exact hid
  | clears hclear => exact h.clear hid hclear

/-- So does a worker that stores an answer, -/
theorem sameSockets_answered (s : State) (i id : ℕ) : SameSockets s (s.answered i id) := by
  obtain ⟨hd, ht, hc, hn, hh⟩ := sameSockets_setHandler s id { s.handlers id with
    requestQ := []
    responseQ := (s.handlers id).responseQ ++ (s.handlers id).requestQ.map fun _ => processor
    eventType := .kWrite } rfl rfl
  exact ⟨hd, ht, hc, hn, hh⟩

/-- at any time. -/
theorem Inv.answered (h : Inv s) (i id : ℕ) : Inv (s.answered i id) :=
  h.of_sameSockets (sameSockets_answered s i id) fun j hj =>
    h.tasks_lt j (List.mem_of_mem_eraseIdx hj)

/-- Harmless events keep the invariant. -/
theorem Inv.step (h : Inv s) (hharmless : Harmless s e) (hstep : Step s e s') : Inv s' := by
  cases hstep with
  | waits => exact h.of_sameSockets ⟨rfl, rfl, rfl, rfl, fun _ => ⟨rfl, rfl⟩⟩ h.tasks_lt
  | @handles _ _ _ ready events id _ hlookup hd =>
    have hsame := sameSockets_taken s ready events id
    have htable := (h.lookup_iff _ _).1 hlookup
    have htasks : (s.taken ready events id).tasks = s.tasks := by
      unfold State.taken
      split_ifs <;> rfl
    refine (h.of_sameSockets hsame (by rw [htasks]; exact h.tasks_lt)).dispatched ?_ hd
    -- the handler that is registered for a descriptor has this descriptor
    rw [(hsame.handlers id).1, hsame.table, h.fd_eq _ _ htable]
    exact htable
  | @registers i granted id _ hid hreg =>
    obtain ⟨hgranted, -, hmem, -⟩ := State.registerEventHandler_eq_some.1 hreg
    have hsame := sameSockets_answered s i id
    have hinv := h.answered i id
    have hlt := h.tasks_lt id (List.mem_of_getElem? hid)
    refine hinv.register ?_ hreg
    -- `epoll_ctl` succeeds for a socket only, and the socket is the handler's own
    obtain ⟨other, hother⟩ :=
      (hinv.interest_iff _).1 (hmem.1 (hinv.registered id (hsame.created ▸ hlt)))
    rw [hother]
    rw [hsame.table, (hsame.handlers id).1] at hother
    rw [hharmless id other hid hgranted hother]
  | ignores hid _ => exact h.answered _ _
  | destroys => exact absurd hharmless id

/-- The other events lead to a descriptor that is closed twice, or in the wrong hands. -/
theorem not_owned_of_step (h : Inv s) (hharmless : ¬Harmless s e) (hstep : Step s e s') :
    ¬Owned s' := by
  intro howned
  cases hstep with
  | waits | handles => exact hharmless trivial
  | @registers i granted id _ hid hreg =>
    refine hharmless fun id' other hid' _ hother => ?_
    obtain rfl := Option.some.inj (hid.symm.trans hid')
    -- the handler is registered for the descriptor now
    obtain ⟨-, -, -, rfl⟩ := State.registerEventHandler_eq_some.1 hreg
    have hsame := sameSockets_answered s i id
    have hlookup := howned.owner ((s.answered i id).handlers id).fd id (AList.lookup_insert _)
    have htable : (s.answered i id).table ((s.answered i id).handlers id).fd = .socket id := hlookup
    rw [hsame.table, (hsame.handlers id).1, hother] at htable
    exact Descriptor.socket.inj htable
  | @ignores i granted id hid hreg =>
    -- `epoll_ctl` would have succeeded
    refine hharmless fun id' other hid' hgranted hother => ?_
    obtain rfl := Option.some.inj (hid.symm.trans hid')
    have hsame := sameSockets_answered s i id
    have hinv := h.answered i id
    have hlt := h.tasks_lt id (List.mem_of_getElem? hid)
    have hsocket : (s.answered i id).table ((s.answered i id).handlers id).fd = .socket other := by
      rwa [hsame.table, (hsame.handlers id).1]
    have hmem := iff_of_true (hinv.registered id (hsame.created ▸ hlt))
      ((hinv.interest_iff _).2 ⟨other, hsocket⟩)
    have hsome : (s.answered i id).registerEventHandler granted id = some _ :=
      State.registerEventHandler_eq_some.2
        ⟨hgranted, by simp [State.isOpen, hsocket], hmem, rfl⟩
    rw [hreg] at hsome
    cases hsome
  | @destroys id hunref =>
    obtain ⟨-, hlt, -, -, hmap⟩ := hunref
    rcases h.closes_free id hlt with ⟨other, hother⟩ | hclosed
    · -- the descriptor of a registered handler is closed
      have hlookup := (h.lookup_iff _ _).2 hother
      have := howned.owner _ other hlookup
      simp [State.close] at this
    · have := howned.closes (s.handlers id).fd
      simp [State.close, hclosed] at this

/-- At first there are no handlers. -/
theorem inv_init (listenFd : ℕ) (others : Finset ℕ) : Inv (State.init listenFd others) := by
  -- at first the listening descriptor is the only one that belongs to a handler
  have hsocket : ∀ fd id, (State.init listenFd others).table fd = .socket id ↔
      fd = listenFd ∧ id = 0 := by
    intro fd id
    by_cases hfd : fd = listenFd
    · simp [State.init, hfd, eq_comm]
    · by_cases hother : fd ∈ others <;> simp [State.init, hfd, hother]
  refine ⟨fun fd id => ?_, fun fd => ?_, fun fd id hid => ?_, fun fd id hid => ?_, fun _ _ => rfl,
    fun fd => Nat.zero_le 1, fun fd id _ => rfl, fun id hid => ?_, fun id hid => ?_⟩
  · rw [hsocket]
    by_cases hfd : fd = listenFd
    · subst hfd
      have hlookup : (State.init fd others).demultiplex.fdToHandler.lookup fd = some 0 :=
        List.dlookup_cons_eq _ _ _
      simp [hlookup, eq_comm]
    · have hmem : fd ∉ (State.init listenFd others).demultiplex.fdToHandler := by
        simp [State.init, AList.mem_keys, hfd]
      rw [AList.lookup_eq_none.2 hmem]
      simp [hfd]
  · simp only [hsocket]
    simp [State.init]
  · exact ((hsocket fd id).1 hid).1.symm
  · rw [((hsocket fd id).1 hid).2]
    exact Nat.zero_lt_one
  · exact .inl ⟨0, (hsocket _ _).2 ⟨rfl, rfl⟩⟩
  · cases hid

/-! ## Runs -/

/-- In all states of a run each descriptor is closed at most once, and registered for the handler
of the connection that owns it, exactly if all events of the run are harmless. -/
theorem run_owned_iff (listenFd : ℕ) (others : Finset ℕ) (es : List Event) :
    StatesMeet State.next (State.init listenFd others) Owned es ↔
      StepsMeet State.next (State.init listenFd others) Harmless es :=
  statesMeet_iff (inv_init listenFd others) (fun _ h => h.owned)
    (fun _ _ _ h hharmless hstep => h.step hharmless (next_step hstep))
    (fun _ _ _ h hharmless hstep => not_owned_of_step h hharmless (next_step hstep)) es

/-- A client connects and leaves again: `ClearEventHandler` closes descriptor 5, and so does the
destructor of the handler, whose last reference was in `fd_to_handler_`. -/
theorem destructor_closes_again :
    ¬StatesMeet State.next (State.init 3 {0, 1, 2, 4}) Owned
      [.epollWait [⟨3, false, false⟩], .handle true 5 none, .epollWait [⟨5, false, true⟩],
        .handle true 0 none, .destroy 1] := by
  intro h
  have hclosed : (Traces.run State.next (State.init 3 {0, 1, 2, 4})
      [.epollWait [⟨3, false, false⟩], .handle true 5 none, .epollWait [⟨5, false, true⟩],
        .handle true 0 none, .destroy 1]).map (fun s => s.closes 5) = some 2 := by decide
  obtain ⟨s, hrun, hs⟩ := Option.map_eq_some_iff.1 hclosed
  have := (h _ s (List.prefix_refl _) hrun).closes 5
  omega

end CppLearn.Reactor

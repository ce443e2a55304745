import CppLearn.Lib.Traces
import Mathlib.Data.Finset.Card
import Mathlib.Data.List.AList
import Mathlib.Logic.Function.Basic

/-!
# The reactor of `event_demultiplex.cc` and `handler.cc`

An event loop waits for ready descriptors with `epoll`. It accepts connections, reads requests and
writes responses; requests are processed by worker threads, whose call-backs register the handler
of the connection again. The program is modelled as an event system: one event for each call of
`epoll_wait`, each ready descriptor that is handled, each worker task and each destruction of a
handler.

The kernel is part of the state: its descriptor table, and the list of descriptors that the `epoll`
instance watches. `server_fd_`, the addresses of the peers and `buffer_`, which no function depends
on, are left out, and `epoll_event_count_` is an unbounded integer. Where the program stops, because
a `CHECK` fails, an event is undefined.

## Main definitions

* `Demultiplex.registerEventHandler`, `Demultiplex.clearEventHandler`: the methods of
  `EpollEventDemultiplex`;
* `State.dispatch`, `State.handle`: `Dispatch`, and the body of the loop of `WaitForEvents`;
* `State.next`: what an event does.
-/

namespace CppLearn.Reactor

/-- `EventType`. -/
inductive EventType where
  | kAccept
  | kRead
  | kWrite
  | kError
  deriving DecidableEq

/-- The fields of a `Handler`. -/
structure Handler where
  fd : ℕ
  eventType : EventType
  registered : Bool
  requestQ : List String
  responseQ : List String

/-- The constructor. -/
def Handler.create (fd : ℕ) (type : EventType) : Handler := ⟨fd, type, false, [], []⟩

/-- `Processor::processor`. -/
def processor : String := "I am server"

/-! ## The demultiplexer -/

/-- The operations of `epoll_ctl`. -/
inductive CtlOp where
  | add
  | mod
  | del

/-- `epoll_ctl` on the list of watched descriptors. All that the kernel demands besides, that the
descriptor is open and that there is memory, is in `granted`. -/
def epollCtl (granted : Bool) (interest : Finset ℕ) (op : CtlOp) (fd : ℕ) : Option (Finset ℕ) :=
  match op with
  | .add => if granted ∧ fd ∉ interest then some (insert fd interest) else none
  | .mod => if granted ∧ fd ∈ interest then some interest else none
  | .del => if granted ∧ fd ∈ interest then some (interest.erase fd) else none

/-- The fields of an `EpollEventDemultiplex`, with the descriptors that its `epoll` instance
watches. Handlers are named by numbers. -/
structure Demultiplex where
  interest : Finset ℕ
  epollEventCount : ℤ
  fdToHandler : AList fun _ : ℕ => ℕ

/-- The constructor. -/
def Demultiplex.create : Demultiplex := ⟨∅, 0, ∅⟩

/-- `RegisterEventHandler` for the handler `h` with the number `id`, undefined when it returns
`-1`. -/
def Demultiplex.registerEventHandler (d : Demultiplex) (granted : Bool) (id : ℕ) (h : Handler) :
    Option (Demultiplex × Handler) := do
  let op := if h.registered then .mod else .add
  let interest ← epollCtl granted d.interest op h.fd
  some (⟨interest, d.epollEventCount + 1, d.fdToHandler.insert h.fd id⟩,
    { h with registered := true })

/-- `ClearEventHandler`, without the `close` at its end; undefined when it returns `-1`. -/
def Demultiplex.clearEventHandler (d : Demultiplex) (granted : Bool) (h : Handler) :
    Option Demultiplex := do
  let interest ← epollCtl granted d.interest .del h.fd
  some ⟨interest, d.epollEventCount - 1, d.fdToHandler.erase h.fd⟩

/-! ## The program and the kernel -/

/-- An entry of the kernel's descriptor table. -/
inductive Descriptor where
  | free
  /-- A descriptor that has nothing to do with the reactor. -/
  | other
  /-- The socket that the handler with the given number was created for. -/
  | socket (id : ℕ)
  deriving DecidableEq

/-- An element of the `events` array. -/
structure Ready where
  fd : ℕ
  err : Bool
  rdhup : Bool
  deriving DecidableEq

/-- A state of the program. -/
structure State where
  demultiplex : Demultiplex
  /-- The handler objects, by number. -/
  handlers : ℕ → Handler
  /-- How many handlers were created. -/
  created : ℕ
  destroyed : Finset ℕ
  table : ℕ → Descriptor
  /-- How often each descriptor was closed since `accept` returned it. -/
  closes : ℕ → ℕ
  /-- The handlers of the worker tasks that have not run yet. -/
  tasks : List ℕ
  /-- The ready events of this iteration that are still to be handled. -/
  events : List Ready
  /-- `events.size()`. -/
  eventsSize : ℕ

/-- What can happen. -/
inductive Event where
  /-- `epoll_wait` returns these events. -/
  | epollWait (ready : List Ready)
  /-- The next ready event is handled. The kernel grants `epoll_ctl` or not; `accept` returns
  `accepted`, and `read` the data `received`, or an error. -/
  | handle (granted : Bool) (accepted : ℕ) (received : Option String)
  /-- A worker thread runs the task with the given position. -/
  | task (i : ℕ) (granted : Bool)
  /-- The destructor of a handler. -/
  | destroy (id : ℕ)

namespace State

def setHandler (s : State) (id : ℕ) (h : Handler) : State :=
  { s with handlers := Function.update s.handlers id h }

/-- The descriptor is open. -/
def isOpen (s : State) (fd : ℕ) : Bool := s.table fd ≠ .free

/-- `close`: the descriptor becomes free, and `epoll` stops watching it. -/
def close (s : State) (fd : ℕ) : State :=
  { s with
    table := Function.update s.table fd .free
    closes := Function.update s.closes fd (s.closes fd + 1)
    demultiplex := { s.demultiplex with interest := s.demultiplex.interest.erase fd } }

/-- `RegisterEventHandler`. -/
def registerEventHandler (s : State) (granted : Bool) (id : ℕ) : Option State := do
  let h := s.handlers id
  let (d, h) ← s.demultiplex.registerEventHandler (granted && s.isOpen h.fd) id h
  some { s.setHandler id h with demultiplex := d }

/-- `ClearEventHandler`. -/
def clearEventHandler (s : State) (granted : Bool) (id : ℕ) : Option State := do
  let h := s.handlers id
  let d ← s.demultiplex.clearEventHandler (granted && s.isOpen h.fd) h
  some (State.close { s with demultiplex := d } h.fd)

/-- `accept` returns `fd`: the lowest free descriptor. -/
def Accepts (s : State) (fd : ℕ) : Prop := s.table fd = .free ∧ ∀ k < fd, s.table k ≠ .free

instance (s : State) (fd : ℕ) : Decidable (s.Accepts fd) := inferInstanceAs (Decidable (_ ∧ _))

/-- A new handler for the connection with descriptor `fd`. -/
def connect (s : State) (fd : ℕ) : State :=
  { s.setHandler s.created (.create fd .kRead) with
    created := s.created + 1
    table := Function.update s.table fd (.socket s.created)
    closes := Function.update s.closes fd 0 }

/-- `Dispatch`. -/
def dispatch (s : State) (granted : Bool) (accepted : ℕ) (received : Option String) (id : ℕ) :
    Option State :=
  let h := s.handlers id
  match h.eventType with
  | .kAccept =>
    -- without a connection the descriptor is -1, and a CHECK in `SetNonblock` fails
    if s.isOpen h.fd ∧ s.Accepts accepted then
      (s.connect accepted).registerEventHandler granted s.created
    else none
  | .kRead =>
    match received with
    | none => some (s.setHandler id { h with eventType := .kError })
    | some data =>
      -- there is a request now, so a task is started
      some { s.setHandler id { h with requestQ := h.requestQ ++ [data] } with
        tasks := s.tasks ++ [id] }
  | .kWrite =>
    match h.responseQ with
    -- `front` of an empty queue
    | [] => none
    | _ :: responseQ =>
      (s.setHandler id { h with responseQ := responseQ, eventType := .kRead }).registerEventHandler
        granted id
  | .kError => s.clearEventHandler granted id

/-- The body of the loop over the ready events. -/
def handle (s : State) (granted : Bool) (accepted : ℕ) (received : Option String) :
    Option State :=
  match s.events with
  | [] => none
  | ready :: events => do
    let s := { s with events := events }
    -- CHECK(fd_to_handler_.find(ready_fd) != fd_to_handler_.end())
    let id ← s.demultiplex.fdToHandler.lookup ready.fd
    let s := if ready.err then s.setHandler id { s.handlers id with eventType := .kError } else s
    if ready.rdhup then s.clearEventHandler granted id
    else s.dispatch granted accepted received id

/-- A worker task: all requests are answered, and the call-back asks for a write event. The result
of `RegisterEventHandler` is not looked at. -/
def task (s : State) (i : ℕ) (granted : Bool) : Option State := do
  let id ← s.tasks[i]?
  let h := s.handlers id
  let s := { s.setHandler id { h with
    requestQ := []
    responseQ := h.responseQ ++ h.requestQ.map fun _ => processor
    eventType := .kWrite } with tasks := s.tasks.eraseIdx i }
  some ((s.registerEventHandler granted id).getD s)

/-- No `shared_ptr` to the handler is left. `main` keeps one to the handler with the number 0. -/
def Unreferenced (s : State) (id : ℕ) : Prop :=
  id ≠ 0 ∧ id < s.created ∧ id ∉ s.destroyed ∧ id ∉ s.tasks ∧
    ∀ e ∈ s.demultiplex.fdToHandler.entries, e.2 ≠ id

instance (s : State) (id : ℕ) : Decidable (s.Unreferenced id) :=
  inferInstanceAs (Decidable (_ ∧ _))

/-- `epoll_wait` returns at most as many events as asked for, of watched descriptors; it fails when
it is asked for none. -/
def Waits (s : State) (ready : List Ready) : Prop :=
  s.events = [] ∧ 0 < s.demultiplex.epollEventCount ∧
    ready.length ≤ s.demultiplex.epollEventCount ∧ ∀ r ∈ ready, r.fd ∈ s.demultiplex.interest

instance (s : State) (ready : List Ready) : Decidable (s.Waits ready) :=
  inferInstanceAs (Decidable (_ ∧ _))

/-- What an event does in a state, if it can happen. -/
def next (s : State) : Event → Option State
  | .epollWait ready => if s.Waits ready then some { s with events := ready } else none
  | .handle granted accepted received => s.handle granted accepted received
  | .task i granted => s.task i granted
  | .destroy id =>
    if s.Unreferenced id then
      some (State.close { s with destroyed := insert id s.destroyed } (s.handlers id).fd)
    else none

/-- The state in which `main` enters `WaitForEvents`: the handler of the listening socket is
registered. -/
def init (listenFd : ℕ) (others : Finset ℕ) : State where
  demultiplex := ⟨{listenFd}, 1, AList.singleton listenFd 0⟩
  handlers := fun _ => { Handler.create listenFd .kAccept with registered := true }
  created := 1
  destroyed := ∅
  table := fun fd => if fd = listenFd then .socket 0 else if fd ∈ others then .other else .free
  closes := fun _ => 0
  tasks := []
  events := []
  eventsSize := 1

end State

end CppLearn.Reactor

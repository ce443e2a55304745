import CppLearn.ShmMsgQueue.Operations

/-!
# Who has which node

The clients of a message queue run the bodies of its operations in any order. A client may enqueue
a chunk that it has allocated, once, and may release a chunk that it has dequeued or allocated and
not enqueued, once. Under these rules every node of the array is at any time on the free list, on
the message list or in the hands of one client.

The allocator plays no role here: an attempt to allocate fails or succeeds as it will.

The queue with its clients is a `State`, and `Step` is what they can do. The invariant is `Custody`,
which holds in all states that are `Reachable` (`reachable_custody`). In terms of nodes, pointers
and clients it is `reachable_partition`.
-/

namespace CppLearn.ShmMsgQueue

open BoundedLoop LinkedList
open scoped List

/-- How a client came by a chunk. -/
inductive Origin where
  | allocated
  | dequeued
  deriving DecidableEq

/-- A chunk in the hands of a client. -/
structure Holding where
  client : ℕ
  chunk : ℕ
  origin : Origin
  deriving DecidableEq

/-- The queue, the chunks in the hands of clients, and the chunk ids in the order in which they
were enqueued and dequeued. -/
structure State where
  queue : Queue
  held : List Holding
  enqueued : List ℕ
  dequeued : List ℕ

/-- The bodies that clients run under the mutex. -/
inductive Action where
  | allocate (client size : ℕ)
  | enqueue (client chunk : ℕ)
  | dequeue (client : ℕ)
  | release (client chunk : ℕ)
  | setPreducerCount (count : ℤ)
  | signalPreducingComplete (client : ℕ)

/-- One body. A client enqueues what it has allocated, and releases what it has in hand. -/
inductive Step : State → Action → State → Prop
  | allocate {s : State} {q : Queue} {client size chunk addr : ℕ} :
      s.queue.allocate size = .ok (some (chunk, addr), q) →
      Step s (.allocate client size)
        { s with queue := q, held := ⟨client, chunk, .allocated⟩ :: s.held }
  | allocateFails {s : State} {q : Queue} {client size : ℕ} :
      s.queue.allocate size = .ok (none, q) → Step s (.allocate client size) { s with queue := q }
  | enqueue {s : State} {q : Queue} {client chunk : ℕ} :
      ⟨client, chunk, .allocated⟩ ∈ s.held → s.queue.enqueue chunk = .ok q →
      Step s (.enqueue client chunk) { s with
        queue := q
        held := s.held.erase ⟨client, chunk, .allocated⟩
        enqueued := s.enqueued ++ [chunk] }
  | dequeue {s : State} {q : Queue} {client chunk addr size : ℕ} :
      s.queue.dequeue = .ok (.ok chunk addr size, q) →
      Step s (.dequeue client) { s with
        queue := q
        held := ⟨client, chunk, .dequeued⟩ :: s.held
        dequeued := s.dequeued ++ [chunk] }
  | dequeueEmpty {s : State} {q : Queue} {client : ℕ} {o : Outcome} :
      s.queue.dequeue = .ok (o, q) → o = .closed ∨ o = .wait →
      Step s (.dequeue client) { s with queue := q }
  | release {s : State} {q : Queue} {client chunk : ℕ} {origin : Origin} :
      ⟨client, chunk, origin⟩ ∈ s.held → s.queue.releaseChunk chunk = .ok q →
      Step s (.release client chunk)
        { s with queue := q, held := s.held.erase ⟨client, chunk, origin⟩ }
  | setPreducerCount {s : State} {count : ℤ} :
      Step s (.setPreducerCount count) { s with queue := s.queue.setPreducerCount count }
  | signalPreducingComplete {s : State} {client : ℕ} :
      Step s (.signalPreducingComplete client)
        { s with queue := s.queue.signalPreducingComplete }

/-- The states that the clients of a new queue can bring about. -/
inductive Reachable (options : Options) (bufferAddr : ℕ) : State → Prop
  | init {q : Queue} : Queue.init options bufferAddr = .ok q →
      Reachable options bufferAddr ⟨q, [], [], []⟩
  | step {s s' : State} {action : Action} : Reachable options bufferAddr s → Step s action s' →
      Reachable options bufferAddr s'

/-- The chunks in a list of holdings. -/
def chunks (held : List Holding) : List ℕ := held.map Holding.chunk

/-- Each of the `n` nodes is on one of the lists or in the hands of a client, and messages are
dequeued in the order in which they were enqueued. -/
structure Custody (n : ℕ) (s : State) (free msgs : List ℕ) : Prop where
  lists : Lists s.queue.chunkList free msgs
  capacity : s.queue.chunkList.capacity = n
  bound : n < 2 ^ 31
  partition : (free ++ msgs ++ chunks s.held).Perm (List.range n)
  order : s.enqueued = s.dequeued ++ msgs

variable {options : Options} {bufferAddr n : ℕ} {s s' : State} {q q' : Queue} {free msgs : List ℕ}

theorem init_custody (h : Queue.init options bufferAddr = .ok q) :
    Custody (options.capacity % 2 ^ 32) ⟨q, [], [], []⟩
      (List.range (options.capacity % 2 ^ 32)) [] := by
  have hinit := (init_cases h).1
  have hcap : q.chunkList.capacity = options.capacity % 2 ^ 32 := init_capacity hinit
  obtain ⟨hl, hbound⟩ := init_spec hinit
  rw [hcap] at hl hbound
  exact ⟨hl, hcap, hbound, by simp [chunks], rfl⟩

/-! ## Steps -/

/-- Handing a chunk over takes it from the holder. -/
theorem chunks_erase {x : Holding} {held : List Holding} (hx : x ∈ held) :
    (chunks held).Perm (x.chunk :: chunks (held.erase x)) :=
  (List.perm_cons_erase hx).map Holding.chunk

/-- A chunk in the hands of a client is a node that is on neither list. -/
theorem Custody.holding (h : Custody n s free msgs) {x : Holding} (hx : x ∈ s.held) :
    x.chunk < s.queue.chunkList.capacity ∧ x.chunk ∉ free ++ msgs := by
  have hmem : x.chunk ∈ chunks s.held := List.mem_map_of_mem hx
  constructor
  · have hrange := h.partition.mem_iff.1 (List.mem_append_right (free ++ msgs) hmem)
    rw [h.capacity]
    exact List.mem_range.1 hrange
  · -- no node is listed twice
    have hnodup := h.partition.nodup_iff.2 List.nodup_range
    intro hlist
    exact (List.nodup_append.1 hnodup).2.2 _ hlist _ hmem rfl

theorem Custody.capacity_lt (h : Custody n s free msgs) :
    s.queue.chunkList.capacity < 2 ^ 31 := by
  rw [h.capacity]
  exact h.bound

/-- An attempt to allocate takes a node off the free list, or changes nothing. -/
theorem Custody.allocate (h : Custody n s free msgs) {size : ℕ} {r : Option (ℕ × ℕ)}
    (hrun : s.queue.allocate size = .ok (r, q)) :
    SameControl s.queue q ∧
      ((r = none ∧ Custody n { s with queue := q } free msgs) ∨
      ∃ chunk addr rest, r = some (chunk, addr) ∧ ∀ client,
        Custody n { s with queue := q, held := ⟨client, chunk, .allocated⟩ :: s.held }
          rest msgs) := by
  obtain ⟨-, hcontrol, hcase⟩ := allocate_cases h.lists h.capacity_lt hrun
  have hn : q.chunkList.capacity = n := hcontrol.capacity.trans h.capacity
  refine ⟨hcontrol, ?_⟩
  -- nothing was free, or the first free node goes to the client
  rcases hcase with ⟨rfl, hl, -⟩ | ⟨i, rest, addr, rfl, rfl, -, hl, -⟩
  · exact .inl ⟨rfl, hl, hn, h.bound, h.partition, h.order⟩
  · refine .inr ⟨i, addr, rest, rfl, fun client => ⟨hl, hn, h.bound, ?_, h.order⟩⟩
    calc rest ++ msgs ++ i :: chunks s.held
        _ ~ i :: (rest ++ msgs ++ chunks s.held) := List.perm_middle
        _ ~ List.range n := h.partition

/-- Enqueuing a chunk in hand moves its node to the end of the message list. -/
theorem Custody.enqueue (h : Custody n s free msgs) {x : Holding} (hx : x ∈ s.held) :
    ∃ q, s.queue.enqueue x.chunk = .ok q ∧ SameControl s.queue q ∧
      Custody n { s with
        queue := q
        held := s.held.erase x
        enqueued := s.enqueued ++ [x.chunk] } free (msgs ++ [x.chunk]) := by
  obtain ⟨hi, hout⟩ := h.holding hx
  obtain ⟨q, hrun, hl, hcontrol, -⟩ := enqueue_spec h.lists hi hout
  refine ⟨q, hrun, hcontrol, hl, hcontrol.capacity.trans h.capacity, h.bound, ?_, ?_⟩
  · calc free ++ (msgs ++ [x.chunk]) ++ chunks (s.held.erase x)
        _ = free ++ msgs ++ (x.chunk :: chunks (s.held.erase x)) := by simp
        _ ~ free ++ msgs ++ chunks s.held := (chunks_erase hx).symm.append_left _
        _ ~ List.range n := h.partition
  · show s.enqueued ++ [x.chunk] = s.dequeued ++ (msgs ++ [x.chunk])
    rw [h.order, List.append_assoc]

/-- Dequeuing hands the first message over, or finds no message. -/
theorem Custody.dequeue (h : Custody n s free msgs) :
    (msgs = [] ∧
      s.queue.dequeue = .ok (if s.queue.activePreducerCount = 0 then .closed else .wait, s.queue)) ∨
    ∃ chunk addr size rest q, s.queue.dequeue = .ok (.ok chunk addr size, q) ∧
      SameControl s.queue q ∧ ∀ client,
        Custody n { s with
          queue := q
          held := ⟨client, chunk, .dequeued⟩ :: s.held
          dequeued := s.dequeued ++ [chunk] } free rest := by
  rcases dequeue_spec h.lists h.capacity_lt with
    ⟨hnil, hrun⟩ | ⟨i, rest, q, rfl, hrun, hl, hcontrol, -⟩
  · exact .inl ⟨hnil, hrun⟩
  · refine .inr ⟨i, _, _, rest, q, hrun, hcontrol, fun client =>
      ⟨hl, hcontrol.capacity.trans h.capacity, h.bound, ?_, ?_⟩⟩
    · calc free ++ rest ++ i :: chunks s.held
          _ ~ i :: (free ++ rest ++ chunks s.held) := List.perm_middle
          _ ~ free ++ i :: rest ++ chunks s.held := by
            rw [List.append_assoc, List.append_assoc, List.cons_append]
            exact List.perm_middle.symm
          _ ~ List.range n := h.partition
    · show s.enqueued = s.dequeued ++ [i] ++ rest
      rw [h.order, List.append_assoc, List.singleton_append]

/-- Whether it finds a message or not, `dequeue` leaves the counter and the sizes alone. -/
theorem Custody.dequeue_sameControl (h : Custody n s free msgs) {o : Outcome}
    (hrun : s.queue.dequeue = .ok (o, q)) : SameControl s.queue q := by
  rcases h.dequeue with ⟨-, hq⟩ | ⟨_, _, _, _, q, hq, hcontrol, -⟩
  · obtain ⟨-, rfl⟩ := Prod.mk.inj (Except.ok.inj (hq.symm.trans hrun))
    exact ⟨rfl, rfl, rfl⟩
  · obtain ⟨-, rfl⟩ := Prod.mk.inj (Except.ok.inj (hq.symm.trans hrun))
    exact hcontrol

/-- Releasing a chunk in hand puts its node back on the free list. -/
theorem Custody.release (h : Custody n s free msgs) {x : Holding} (hx : x ∈ s.held)
    (hrun : s.queue.releaseChunk x.chunk = .ok q) :
    SameControl s.queue q ∧
      Custody n { s with queue := q, held := s.held.erase x } (x.chunk :: free) msgs := by
  obtain ⟨hi, hout⟩ := h.holding hx
  obtain ⟨-, hl, hcontrol, -⟩ := releaseChunk_cases h.lists hi hout hrun
  refine ⟨hcontrol, hl, hcontrol.capacity.trans h.capacity, h.bound, ?_, h.order⟩
  calc x.chunk :: free ++ msgs ++ chunks (s.held.erase x)
      _ ~ free ++ msgs ++ (x.chunk :: chunks (s.held.erase x)) := List.perm_middle.symm
      _ ~ free ++ msgs ++ chunks s.held := (chunks_erase hx).symm.append_left _
      _ ~ List.range n := h.partition

/-- Every step keeps every node in custody. -/
theorem Step.custody {action : Action} (hstep : Step s action s') (h : Custody n s free msgs) :
    ∃ free' msgs', Custody n s' free' msgs' := by
  cases hstep with
  | allocate hrun =>
    rcases (h.allocate hrun).2 with ⟨hr, -⟩ | ⟨chunk, addr, rest, hr, hnew⟩
    · simp at hr
    · obtain ⟨rfl, -⟩ := Prod.mk.inj (Option.some.inj hr)
      exact ⟨rest, msgs, hnew _⟩
  | allocateFails hrun =>
    rcases (h.allocate hrun).2 with ⟨-, hnew⟩ | ⟨chunk, addr, rest, hr, -⟩
    · exact ⟨free, msgs, hnew⟩
    · simp at hr
  | enqueue hx hrun =>
    obtain ⟨q, hq, -, hnew⟩ := h.enqueue hx
    obtain rfl := Except.ok.inj (hq.symm.trans hrun)
    exact ⟨free, _, hnew⟩
  | dequeue hrun =>
    rcases h.dequeue with ⟨-, hq⟩ | ⟨chunk, addr, size, rest, q, hq, -, hnew⟩
    · -- an empty list does not give a message
      have heq := (Prod.mk.inj (Except.ok.inj (hq.symm.trans hrun))).1
      split_ifs at heq
    · obtain ⟨heq, rfl⟩ := Prod.mk.inj (Except.ok.inj (hq.symm.trans hrun))
      obtain ⟨rfl, -, -⟩ := Outcome.ok.inj heq
      exact ⟨free, rest, hnew _⟩
  | dequeueEmpty hrun hempty =>
    rcases h.dequeue with ⟨-, hq⟩ | ⟨chunk, addr, size, rest, q, hq, -, -⟩
    · obtain ⟨-, rfl⟩ := Prod.mk.inj (Except.ok.inj (hq.symm.trans hrun))
      exact ⟨free, msgs, h⟩
    · -- the outcome of a message is neither `closed` nor `wait`
      obtain ⟨rfl, -⟩ := Prod.mk.inj (Except.ok.inj (hq.symm.trans hrun))
      simp at hempty
  | release hx hrun => exact ⟨_, msgs, (h.release hx hrun).2⟩
  -- the counter is no part of the custody
  | setPreducerCount => exact ⟨free, msgs, h.lists, h.capacity, h.bound, h.partition, h.order⟩
  | signalPreducingComplete =>
    exact ⟨free, msgs, h.lists, h.capacity, h.bound, h.partition, h.order⟩

theorem reachable_custody (h : Reachable options bufferAddr s) :
    ∃ free msgs, Custody (options.capacity % 2 ^ 32) s free msgs := by
  induction h with
  | init hinit => exact ⟨_, _, init_custody hinit⟩
  | step _ hstep ih =>
    obtain ⟨free, msgs, hs⟩ := ih
    exact hstep.custody hs

/-- In every interleaving, each node is on exactly one of the free list, the message list and the
list of chunks in the hands of clients; the lists end, and `tail` is the last message. No chunk is
held twice. Dequeuing, and enqueuing a chunk in hand, always go through; allocating and releasing
fail only with the allocator. -/
theorem reachable_partition (options : Options) (bufferAddr : ℕ) (s : State)
    (h : Reachable options bufferAddr s) :
    (∃ free msgs,
      Chain (fun i => (s.queue.chunkList.nodes i).next) s.queue.chunkList.freeListHead free ∧
      Chain (fun i => (s.queue.chunkList.nodes i).next) s.queue.chunkList.head msgs ∧
      (free ++ msgs ++ chunks s.held).Perm (List.range (options.capacity % 2 ^ 32)) ∧
      (free ++ msgs ++ chunks s.held).Nodup ∧
      s.queue.chunkList.tail = msgs.getLast?) ∧
    (s.queue.chunkList.tail = none ↔ s.queue.chunkList.head = none) ∧
    (∃ o q, s.queue.dequeue = .ok (o, q)) ∧
    (∀ x ∈ s.held, ∃ q, s.queue.enqueue x.chunk = .ok q) ∧
    (∀ size r, size ≤ s.queue.bufferMmapSize → s.queue.memoryAllocator.allocate size = .ok r →
      ∃ r' q, s.queue.allocate size = .ok (r', q)) ∧
    ∀ x ∈ s.held, ∀ a,
      s.queue.memoryAllocator.deallocate (s.queue.chunkList.nodes x.chunk).data
        (s.queue.chunkList.nodes x.chunk).size = .ok a →
      ∃ q, s.queue.releaseChunk x.chunk = .ok q := by
  obtain ⟨free, msgs, hc⟩ := reachable_custody h
  refine ⟨⟨free, msgs, hc.lists.freeChain, hc.lists.msgChain, hc.partition,
    hc.partition.nodup_iff.2 List.nodup_range, hc.lists.tail⟩, ?_, ?_, fun x hx => ?_,
    fun size r hsize ha => allocate_ok hc.lists hc.capacity_lt hsize ha, fun x hx a ha => ?_⟩
  · -- both pointers are null for the empty list only
    rw [hc.lists.tail, hc.lists.msgChain.head, List.getLast?_eq_none_iff, List.head?_eq_none_iff]
  · rcases hc.dequeue with ⟨-, hq⟩ | ⟨chunk, addr, size, rest, q, hq, -⟩
    · exact ⟨_, _, hq⟩
    · exact ⟨_, _, hq⟩
  · obtain ⟨q, hq, -⟩ := hc.enqueue hx
    exact ⟨q, hq⟩
  · obtain ⟨hi, hout⟩ := hc.holding hx
    obtain ⟨q, hq, -⟩ := releaseChunk_ok hc.lists hi hout ha
    exact ⟨q, hq⟩

/-- A client has allocated a chunk of one byte from a queue with two nodes. -/
theorem reachable_partition_allocated :
    ∃ s, Reachable ⟨2, 1⟩ 4096 s ∧ s.held = [⟨7, 0, .allocated⟩] ∧
      ∃ free msgs, (free ++ msgs ++ [0]).Perm [0, 1] := by
  have heval : (do
      let q ← Queue.init ⟨2, 1⟩ 4096
      let (r, _) ← q.allocate 1
      pure r).toOption = some (some (0, 4096)) := by decide +kernel
  simp only [bind, toOption_bind_eq_some, Prod.exists] at heval
  obtain ⟨q₀, hinit, r, q, hrun, heq⟩ := heval
  obtain rfl := Option.some.inj heq
  have hreach : Reachable ⟨2, 1⟩ 4096 ⟨q, [⟨7, 0, .allocated⟩], [], []⟩ :=
    .step (.init hinit) (.allocate hrun)
  obtain ⟨⟨free, msgs, -, -, hperm, -⟩, -⟩ := reachable_partition ⟨2, 1⟩ 4096 _ hreach
  exact ⟨_, hreach, rfl, free, msgs, hperm⟩

end CppLearn.ShmMsgQueue

import CppLearn.Lib.ByteMemory
import CppLearn.ShmMsgQueue.Stock
import Mathlib.Data.List.Pairwise

/-!
# Delivery of messages

Producers run `enqueue(msg, msg_size)`: they allocate a chunk, copy their message into it without
the lock, and put it on the message list. Consumers dequeue a chunk, read it without the lock, and
release it. The chunks that are on the message list or in use by a client have disjoint blocks, so
that the copies do not interfere.

`Exchange` is the queue with its buffer and its clients, and `Exchange.Step` is what they do. The
invariant is `Exchange.Sound`. By `Exchange.delivery` messages arrive in order, once and intact.
-/

namespace CppLearn.ShmMsgQueue

open BoundedLoop BuddyTree Buddy
open scoped List

/-- What a client does with a chunk: a producer copies its message, some positions of which have
been copied; a consumer reads the message that it received as number `index`. -/
inductive Activity where
  | copying (client chunk addr : ℕ) (msg : List UInt8) (copied : List ℕ)
  | reading (client chunk addr size index : ℕ)
  deriving DecidableEq

/-- The chunk of a client. -/
def Activity.chunk : Activity → ℕ
  | .copying _ chunk _ _ _ => chunk
  | .reading _ chunk _ _ _ => chunk

/-- The queue, the bytes of the buffer, the clients, and the messages in the order in which `put`
took effect and in which they were received. -/
structure Exchange where
  queue : Queue
  memory : Memory
  active : List Activity
  put : List (List UInt8)
  got : List (List UInt8)

namespace Exchange

/-- What the clients do: the bodies under the mutex, and the copying of single bytes, in any
order. -/
inductive Step : Exchange → Exchange → Prop
  | allocate {d : Exchange} {q : Queue} {client chunk addr : ℕ} {msg : List UInt8} :
      d.queue.allocate msg.length = .ok (some (chunk, addr), q) →
      Step d { d with queue := q, active := .copying client chunk addr msg [] :: d.active }
  | allocateFails {d : Exchange} {q : Queue} {msg : List UInt8} :
      d.queue.allocate msg.length = .ok (none, q) → Step d { d with queue := q }
  | copy {d : Exchange} {client chunk addr : ℕ} {msg : List UInt8} {copied : List ℕ}
      (k : Fin msg.length) : .copying client chunk addr msg copied ∈ d.active →
      Step d { d with
        memory := Function.update d.memory (addr + k) msg[k]
        active := .copying client chunk addr msg (k :: copied) ::
          d.active.erase (.copying client chunk addr msg copied) }
  | put {d : Exchange} {q : Queue} {client chunk addr : ℕ} {msg : List UInt8} {copied : List ℕ} :
      .copying client chunk addr msg copied ∈ d.active → (∀ k < msg.length, k ∈ copied) →
      d.queue.enqueue chunk = .ok q →
      Step d { d with
        queue := q
        active := d.active.erase (.copying client chunk addr msg copied)
        put := d.put ++ [msg] }
  | dequeue {d : Exchange} {q : Queue} {client chunk addr size : ℕ} :
      d.queue.dequeue = .ok (.ok chunk addr size, q) →
      Step d { d with
        queue := q
        active := .reading client chunk addr size d.got.length :: d.active
        got := d.got ++ [d.memory.bytes addr size] }
  | dequeueEmpty {d : Exchange} {q : Queue} {o : Outcome} :
      d.queue.dequeue = .ok (o, q) → o = .closed ∨ o = .wait → Step d { d with queue := q }
  | release {d : Exchange} {q : Queue} {client chunk addr size index : ℕ} :
      .reading client chunk addr size index ∈ d.active → d.queue.releaseChunk chunk = .ok q →
      Step d { d with
        queue := q
        active := d.active.erase (.reading client chunk addr size index) }
  | setPreducerCount {d : Exchange} (count : ℤ) :
      Step d { d with queue := d.queue.setPreducerCount count }
  | signalPreducingComplete {d : Exchange} :
      Step d { d with queue := d.queue.signalPreducingComplete }

/-- The exchanges over a new queue, whatever is in its buffer. -/
inductive Reachable (options : Options) (bufferAddr : ℕ) : Exchange → Prop
  | init {q : Queue} {memory : Memory} : Queue.init options bufferAddr = .ok q →
      Reachable options bufferAddr ⟨q, memory, [], [], []⟩
  | step {d d' : Exchange} : Reachable options bufferAddr d → Step d d' →
      Reachable options bufferAddr d'

end Exchange

/-- The bytes of the block of a node. -/
def payload (list : ChunkList) (memory : Memory) (i : ℕ) : List UInt8 :=
  memory.bytes (block list i).1 (block list i).2

/-- The blocks of two nodes have no byte in common. -/
def Apart (list : ChunkList) (i j : ℕ) : Prop :=
  ∀ k < (block list i).2, ∀ l < (block list j).2, (block list i).1 + k ≠ (block list j).1 + l

instance (list : ChunkList) : Std.Symm (Apart list) :=
  ⟨fun _ _ h k hk l hl heq => h l hl k hk heq.symm⟩

/-- What holds of a client at any time: its chunk has the block that it works on; the bytes that
it has copied are in place, and the message that it reads is what was put. -/
def Activity.Sound (d : Exchange) : Activity → Prop
  | .copying _ chunk addr msg copied =>
    block d.queue.chunkList chunk = (addr, msg.length) ∧
      ∀ k (hk : k < msg.length), k ∈ copied → d.memory (addr + k) = msg[k]
  | .reading _ chunk addr size index =>
    block d.queue.chunkList chunk = (addr, size) ∧
      d.put[index]? = some (d.memory.bytes addr size)

/-- A client is not affected by changes outside its block, nor by further messages. -/
theorem Activity.Sound.congr {d d' : Exchange} {x : Activity} (hx : x.Sound d)
    (hblock : block d'.queue.chunkList x.chunk = block d.queue.chunkList x.chunk)
    (hmem : ∀ k < (block d.queue.chunkList x.chunk).2,
      d'.memory ((block d.queue.chunkList x.chunk).1 + k) =
        d.memory ((block d.queue.chunkList x.chunk).1 + k))
    (hput : d.put <+: d'.put) : x.Sound d' := by
  cases x with
  -- the bytes copied so far are in the block of the client
  | copying client chunk addr msg copied =>
    obtain ⟨hb, hcopied⟩ := hx
    rw [Activity.chunk, hb] at hmem hblock
    refine ⟨hblock, fun k hk hmemk => ?_⟩
    rw [hmem k hk]
    exact hcopied k hk hmemk
  | reading client chunk addr size index =>
    obtain ⟨hb, hmsg⟩ := hx
    rw [Activity.chunk, hb] at hmem hblock
    refine ⟨hblock, ?_⟩
    rw [Memory.bytes_congr hmem]
    -- the message has the same place in a longer history
    obtain ⟨rest, hrest⟩ := hput
    rw [← hrest, List.getElem?_append_left (List.getElem?_eq_some_iff.1 hmsg).1]
    exact hmsg

namespace Exchange

/-- The chunks that are not free. -/
def inUse (d : Exchange) (msgs : List ℕ) : List ℕ := msgs ++ d.active.map Activity.chunk

/-- The nodes are where the lists say, the blocks of the chunks in use are those that the allocator
has handed out, and the messages on the list are those put and not yet received. -/
structure Sound (n unit H : ℕ) (d : Exchange) (free msgs : List ℕ) (t : SplitTree) : Prop where
  lists : Lists d.queue.chunkList free msgs
  capacity : d.queue.chunkList.capacity = n
  bound : n < 2 ^ 31
  size : d.queue.bufferMmapSize ≤ 2 ^ 63
  partition : (free ++ d.inUse msgs).Perm (List.range n)
  tracks : Tracks d.queue.memoryAllocator unit H t ((d.inUse msgs).map (block d.queue.chunkList))
  order : d.put = d.got ++ msgs.map (payload d.queue.chunkList d.memory)
  active : ∀ x ∈ d.active, x.Sound d

variable {n unit H i j : ℕ} {d d' : Exchange} {free msgs : List ℕ} {t : SplitTree} {q : Queue}

/-! ## What the invariant says -/

/-- The nodes and blocks of an exchange. -/
theorem Sound.stock (h : Sound n unit H d free msgs t) :
    Stock n unit H d.queue free msgs (d.active.map Activity.chunk) t :=
  ⟨h.lists, h.capacity, h.bound, h.size, h.partition, h.tracks⟩

theorem Sound.of_stock (h : Stock n unit H d.queue free msgs (d.active.map Activity.chunk) t)
    (horder : d.put = d.got ++ msgs.map (payload d.queue.chunkList d.memory))
    (hactive : ∀ x ∈ d.active, x.Sound d) : Sound n unit H d free msgs t :=
  ⟨h.lists, h.capacity, h.bound, h.size, h.partition, h.tracks, horder, hactive⟩

theorem mem_inUse (msgs : List ℕ) {x : Activity} (hx : x ∈ d.active) : x.chunk ∈ d.inUse msgs :=
  List.mem_append_right _ (List.mem_map_of_mem hx)

/-- The blocks of different chunks in use do not overlap. -/
theorem Sound.apart (h : Sound n unit H d free msgs t) (hi : i ∈ d.inUse msgs)
    (hj : j ∈ d.inUse msgs) (hne : i ≠ j) : Apart d.queue.chunkList i j := by
  have hpair : (d.inUse msgs).Pairwise (Apart d.queue.chunkList) := by
    refine (List.pairwise_map.1 h.tracks.disjoint).imp_of_mem fun {x y} hx hy hxy k hk l hl => ?_
    obtain ⟨lx, hlx, hlex, -⟩ := h.tracks.block (List.mem_map_of_mem hx)
    obtain ⟨ly, hly, hley, -⟩ := h.tracks.block (List.mem_map_of_mem hy)
    have := hxy lx ly hlx hly
    omega
  exact hpair.forall hi hj hne

/-- The order in which the clients are listed does not matter. -/
theorem Sound.perm {l : List Activity} (h : Sound n unit H d free msgs t) (hl : l.Perm d.active) :
    Sound n unit H { d with active := l } free msgs t :=
  .of_stock (h.stock.perm (hl.map Activity.chunk)) h.order fun x hx => h.active x (hl.mem_iff.1 hx)

/-- The nodes and blocks, with one client listed first. -/
theorem Sound.stock_erase (h : Sound n unit H d free msgs t) {x : Activity} (hx : x ∈ d.active) :
    Stock n unit H d.queue free msgs (x.chunk :: (d.active.erase x).map Activity.chunk) t :=
  h.stock.perm ((List.perm_cons_erase hx).symm.map Activity.chunk)

/-- Different clients have different chunks. -/
theorem Sound.chunk_ne (h : Sound n unit H d free msgs t) {x y : Activity} (hx : x ∈ d.active)
    (hy : y ∈ d.active.erase x) : y.chunk ≠ x.chunk := by
  have hnodup := ((h.stock_erase hx).nodup.sublist
    (List.sublist_append_right free _)).sublist (List.sublist_append_right msgs _)
  rw [List.nodup_cons] at hnodup
  exact ne_of_mem_of_not_mem (List.mem_map_of_mem hy) hnodup.1

/-! ## Steps -/

theorem payload_of_samePayload {list list' : ChunkList} (h : SamePayload list list') :
    payload list' = payload list := by
  unfold payload
  rw [block_of_samePayload h]

/-- A client does not notice a change of the queue that keeps the blocks, nor further messages. -/
theorem Sound.active_of_samePayload (h : Sound n unit H d free msgs t) {active : List Activity}
    {put got : List (List UInt8)} (hsame : SamePayload d.queue.chunkList q.chunkList)
    (hput : d.put <+: put) {x : Activity} (hx : x ∈ d.active) :
    x.Sound ⟨q, d.memory, active, put, got⟩ :=
  (h.active x hx).congr (congrFun (block_of_samePayload hsame) _) (fun _ _ => rfl) hput

/-- `allocate` takes a node off the free list and a block from the pool, or changes nothing. -/
theorem Sound.allocate (h : Sound n unit H d free msgs t) {msg : List UInt8}
    {r : Option (ℕ × ℕ)} (hrun : d.queue.allocate msg.length = .ok (r, q)) :
    (r = none ∧ Sound n unit H { d with queue := q } free msgs t) ∨
      ∃ chunk addr rest t', r = some (chunk, addr) ∧ ∀ client, Sound n unit H
        { d with queue := q, active := .copying client chunk addr msg [] :: d.active }
        rest msgs t' := by
  obtain ⟨-, -, ⟨rfl, hsame, hstock⟩ | ⟨chunk, addr, rest, t', rfl, hblock, hold, hstock⟩⟩ :=
    h.stock.allocate hrun
  · refine .inl ⟨rfl, .of_stock hstock ?_ fun x hx => ?_⟩
    · show d.put = d.got ++ msgs.map (payload q.chunkList d.memory)
      rw [h.order, payload_of_samePayload hsame]
    · exact h.active_of_samePayload hsame (List.prefix_refl _) hx
  · refine .inr ⟨chunk, addr, rest, t', rfl, fun client => .of_stock hstock ?_ fun x hx => ?_⟩
    · show d.put = d.got ++ msgs.map (payload q.chunkList d.memory)
      rw [h.order]
      -- the messages have their blocks still
      refine congrArg (d.got ++ ·) (List.map_congr_left fun j hj => ?_)
      rw [payload, payload, hold j (List.mem_append_left _ hj)]
    · rcases List.mem_cons.1 hx with rfl | hx
      · -- the new client has not copied anything
        exact ⟨hblock, fun k _ hk => absurd hk List.not_mem_nil⟩
      · exact (h.active x hx).congr (hold _ (mem_inUse msgs hx)) (fun _ _ => rfl)
          (List.prefix_refl _)

/-- Copying a byte changes the block of the client only. -/
theorem Sound.copy (h : Sound n unit H d free msgs t) {client chunk addr : ℕ} {msg : List UInt8}
    {copied : List ℕ} (hx : .copying client chunk addr msg copied ∈ d.active) (k : Fin msg.length) :
    Sound n unit H { d with
      memory := Function.update d.memory (addr + k) msg[k]
      active := .copying client chunk addr msg (k :: copied) ::
        d.active.erase (.copying client chunk addr msg copied) } free msgs t := by
  obtain ⟨hb, hcopied⟩ := h.active _ hx
  have hchunk : chunk ∈ d.inUse msgs := mem_inUse msgs hx
  -- the other chunks in use have disjoint blocks, so their bytes stay
  have hother : ∀ j ∈ d.inUse msgs, j ≠ chunk → ∀ l < (block d.queue.chunkList j).2,
      Function.update d.memory (addr + k) msg[k] ((block d.queue.chunkList j).1 + l) =
        d.memory ((block d.queue.chunkList j).1 + l) := by
    intro j hj hne l hl
    have hapart := h.apart hj hchunk hne l hl k (by rw [hb]; exact k.2)
    rw [hb] at hapart
    exact Function.update_of_ne hapart ..
  have h' := h.perm (List.perm_cons_erase hx).symm
  refine ⟨h.lists, h.capacity, h.bound, h.size, h'.partition, h'.tracks, ?_, fun y hy => ?_⟩
  · show d.put = d.got ++
      msgs.map (payload d.queue.chunkList (Function.update d.memory (addr + k) msg[k]))
    rw [h.order]
    refine congrArg (d.got ++ ·) (List.map_congr_left fun j hj => ?_)
    -- the chunk is with a client, hence not among the messages
    have hne : j ≠ chunk :=
      ne_of_mem_of_not_mem (List.mem_append_right free hj)
        (h.stock.not_mem (List.mem_map_of_mem hx)).2
    exact (Memory.bytes_congr (hother j (List.mem_append_left _ hj) hne)).symm
  · rcases List.mem_cons.1 hy with rfl | hy
    · refine ⟨hb, fun l hl hmem => ?_⟩
      show Function.update d.memory (addr + k) msg[k] (addr + l) = msg[l]
      -- either the byte is the one just copied, or it was copied before
      by_cases hlk : l = k
      · subst hlk
        rw [Function.update_self]
        rfl
      · rw [Function.update_of_ne (by omega)]
        exact hcopied l hl ((List.mem_cons.1 hmem).resolve_left hlk)
    · have hmem := List.mem_of_mem_erase hy
      exact (h.active y hmem).congr rfl (hother _ (mem_inUse msgs hmem) (h.chunk_ne hx hy))
        (List.prefix_refl _)

/-- `enqueue` of a copied message. -/
theorem Sound.put (h : Sound n unit H d free msgs t) {client chunk addr : ℕ} {msg : List UInt8}
    {copied : List ℕ} (hx : .copying client chunk addr msg copied ∈ d.active)
    (hcopied : ∀ k < msg.length, k ∈ copied) :
    ∃ q, d.queue.enqueue chunk = .ok q ∧ Sound n unit H { d with
      queue := q
      active := d.active.erase (.copying client chunk addr msg copied)
      put := d.put ++ [msg] } free (msgs ++ [chunk]) t := by
  obtain ⟨hb, hbytes⟩ := h.active _ hx
  -- the chunk moves from the clients to the messages
  obtain ⟨q, hrun, -, hsame, -, hstock⟩ := (h.stock_erase hx).enqueue
  have hmsg : payload d.queue.chunkList d.memory chunk = msg := by
    rw [payload, hb]
    exact Memory.bytes_eq fun k hk => hbytes k hk (hcopied k hk)
  refine ⟨q, hrun, .of_stock hstock ?_ fun y hy => ?_⟩
  · show d.put ++ [msg] = d.got ++ (msgs ++ [chunk]).map (payload q.chunkList d.memory)
    rw [h.order, payload_of_samePayload hsame, List.map_append, List.map_singleton, hmsg,
      List.append_assoc]
  · exact h.active_of_samePayload hsame (List.prefix_append ..) (List.mem_of_mem_erase hy)

/-- `dequeue` hands the first message over, or finds none. -/
theorem Sound.dequeue (h : Sound n unit H d free msgs t) :
    (msgs = [] ∧ d.queue.dequeue =
      .ok (if d.queue.activePreducerCount = 0 then .closed else .wait, d.queue)) ∨
    ∃ chunk addr size rest q, d.queue.dequeue = .ok (.ok chunk addr size, q) ∧
      ∀ client, Sound n unit H { d with
        queue := q
        active := .reading client chunk addr size d.got.length :: d.active
        got := d.got ++ [d.memory.bytes addr size] } free rest t := by
  rcases h.stock.dequeue with hempty | ⟨i, rest, q, rfl, hrun, -, hsame, -, hstock⟩
  · exact .inl hempty
  have hput : d.put = d.got ++ [payload d.queue.chunkList d.memory i] ++
      rest.map (payload d.queue.chunkList d.memory) := by
    rw [h.order, List.map_cons, List.append_assoc, List.singleton_append]
  -- the first of the messages put and not received goes to the consumer
  refine .inr ⟨i, _, _, rest, q, hrun, fun client => .of_stock hstock ?_ fun y hy => ?_⟩
  · show d.put = d.got ++ [payload d.queue.chunkList d.memory i] ++
      rest.map (payload q.chunkList d.memory)
    rw [payload_of_samePayload hsame, hput]
  · rcases List.mem_cons.1 hy with rfl | hy
    · refine ⟨congrFun (block_of_samePayload hsame) i, ?_⟩
      -- it is the next one after those that were received before
      show d.put[d.got.length]? = some (payload d.queue.chunkList d.memory i)
      rw [hput, List.append_assoc, List.getElem?_append_right (Nat.le_refl _), Nat.sub_self]
      rfl
    · exact h.active_of_samePayload hsame (List.prefix_refl _) hy

/-- `releaseChunk` of a message that has been received. -/
theorem Sound.release (h : Sound n unit H d free msgs t) {x : Activity} (hx : x ∈ d.active) :
    ∃ q t', d.queue.releaseChunk x.chunk = .ok q ∧
      Sound n unit H { d with queue := q, active := d.active.erase x }
        (x.chunk :: free) msgs t' := by
  obtain ⟨q, t', hrun, -, hsame, -, hstock⟩ := (h.stock_erase hx).release
  refine ⟨q, t', hrun, .of_stock hstock ?_ fun y hy => ?_⟩
  · show d.put = d.got ++ msgs.map (payload q.chunkList d.memory)
    rw [h.order, payload_of_samePayload hsame]
  · exact h.active_of_samePayload hsame (List.prefix_refl _) (List.mem_of_mem_erase hy)

/-- Every step keeps the invariant. -/
theorem Step.sound (hstep : Step d d') (h : Sound n unit H d free msgs t) :
    ∃ free' msgs' t', Sound n unit H d' free' msgs' t' := by
  cases hstep with
  | allocate hrun =>
    rcases h.allocate hrun with ⟨hr, -⟩ | ⟨chunk, addr, rest, t', hr, hnew⟩
    · simp at hr
    · obtain ⟨rfl, rfl⟩ := Prod.mk.inj (Option.some.inj hr)
      exact ⟨rest, msgs, t', hnew _⟩
  | allocateFails hrun =>
    rcases h.allocate hrun with ⟨-, hnew⟩ | ⟨chunk, addr, rest, t', hr, -⟩
    · exact ⟨free, msgs, t, hnew⟩
    · simp at hr
  | copy k hx => exact ⟨free, msgs, t, h.copy hx k⟩
  | put hx hcopied hrun =>
    obtain ⟨q, hq, hnew⟩ := h.put hx hcopied
    obtain rfl := Except.ok.inj (hq.symm.trans hrun)
    exact ⟨free, _, t, hnew⟩
  | dequeue hrun =>
    rcases h.dequeue with ⟨-, hq⟩ | ⟨chunk, addr, size, rest, q, hq, hnew⟩
    · -- an empty list does not give a message
      have heq := (Prod.mk.inj (Except.ok.inj (hq.symm.trans hrun))).1
      split_ifs at heq
    · obtain ⟨heq, rfl⟩ := Prod.mk.inj (Except.ok.inj (hq.symm.trans hrun))
      obtain ⟨rfl, rfl, rfl⟩ := Outcome.ok.inj heq
      exact ⟨free, rest, t, hnew _⟩
  | dequeueEmpty hrun hempty =>
    rcases h.dequeue with ⟨-, hq⟩ | ⟨chunk, addr, size, rest, q, hq, -⟩
    · obtain ⟨-, rfl⟩ := Prod.mk.inj (Except.ok.inj (hq.symm.trans hrun))
      exact ⟨free, msgs, t, h⟩
    · obtain ⟨rfl, -⟩ := Prod.mk.inj (Except.ok.inj (hq.symm.trans hrun))
      simp at hempty
  | release hx hrun =>
    obtain ⟨q, t', hq, hnew⟩ := h.release hx
    obtain rfl := Except.ok.inj (hq.symm.trans hrun)
    exact ⟨_, msgs, t', hnew⟩
  | setPreducerCount count => exact ⟨free, msgs, t, { h with }⟩
  | signalPreducingComplete => exact ⟨free, msgs, t, { h with }⟩

end Exchange

namespace Exchange

variable {options : Options} {bufferAddr : ℕ} {q : Queue} {memory : Memory}

/-- A new queue, with any content of its buffer. -/
theorem init_sound (hfits : PoolFits options) (hmapped : Mapped bufferAddr options.poolSize)
    (h : Queue.init options bufferAddr = .ok q) :
    ∃ n unit H free t, Sound n unit H ⟨q, memory, [], [], []⟩ free [] t := by
  obtain ⟨unit, H, hstock⟩ := init_stock hfits hmapped h
  exact ⟨_, unit, H, _, _, .of_stock hstock rfl (by simp)⟩

theorem reachable_sound {d : Exchange} (hfits : PoolFits options)
    (hmapped : Mapped bufferAddr options.poolSize) (h : Reachable options bufferAddr d) :
    ∃ n unit H free msgs t, Sound n unit H d free msgs t := by
  induction h with
  | init hinit =>
    obtain ⟨n, unit, H, free, t, hs⟩ := init_sound hfits hmapped hinit
    exact ⟨n, unit, H, free, [], t, hs⟩
  | step _ hstep ih =>
    obtain ⟨n, unit, H, free, msgs, t, hs⟩ := ih
    obtain ⟨free', msgs', t', hs'⟩ := hstep.sound hs
    exact ⟨n, unit, H, free', msgs', t', hs'⟩

/-- Messages are delivered in order, once and intact, if the pool fits, which it does below
1024 MiB. In every interleaving the messages received are the first ones put, and a message that a
consumer reads has the bytes that were put. None of the bodies runs into a fault. -/
theorem delivery (options : Options) (bufferAddr : ℕ) :
    (options.bufferSize < 1024 → PoolFits options) ∧
    (PoolFits options → Mapped bufferAddr options.poolSize →
      ∀ d, Reachable options bufferAddr d →
        d.got <+: d.put ∧
        (∀ client chunk addr size index, .reading client chunk addr size index ∈ d.active →
          d.put[index]? = some (d.memory.bytes addr size)) ∧
        (∀ msg : List UInt8, msg.length ≤ d.queue.bufferMmapSize →
          ∃ r q, d.queue.allocate msg.length = .ok (r, q)) ∧
        (∃ o q, d.queue.dequeue = .ok (o, q)) ∧
        (∀ client chunk addr msg copied, .copying client chunk addr msg copied ∈ d.active →
          (∀ k < msg.length, k ∈ copied) → ∃ q, d.queue.enqueue chunk = .ok q) ∧
        ∀ client chunk addr size index, .reading client chunk addr size index ∈ d.active →
          ∃ q, d.queue.releaseChunk chunk = .ok q) := by
  refine ⟨poolFits_of_lt, fun hfits hmapped d hreach => ?_⟩
  obtain ⟨n, unit, H, free, msgs, t, h⟩ := reachable_sound hfits hmapped hreach
  -- the messages put are those received and those on the list
  refine ⟨⟨_, h.order.symm⟩, fun client chunk addr size index hx => (h.active _ hx).2,
    fun msg hmsg => ?_, ?_, fun client chunk addr msg copied hx hcopied => ?_,
    fun client chunk addr size index hx => ?_⟩
  · rcases h.tracks.allocate (hmsg.trans h.size) with ha | ⟨addr, a', t', ha, -⟩
    · exact allocate_ok h.lists h.stock.capacity_lt hmsg ha
    · exact allocate_ok h.lists h.stock.capacity_lt hmsg ha
  · rcases h.dequeue with ⟨-, hq⟩ | ⟨chunk, addr, size, rest, q, hq, -⟩
    · exact ⟨_, _, hq⟩
    · exact ⟨_, _, hq⟩
  · obtain ⟨q, hq, -⟩ := h.put hx hcopied
    exact ⟨q, hq⟩
  · obtain ⟨q, t', hq, -⟩ := h.release hx
    exact ⟨q, hq⟩

/-- A message of one byte on its way from a producer to a consumer. -/
theorem delivery_one_byte :
    ∃ d, Reachable ⟨2, 1⟩ 4096 d ∧ d.active = [.reading 1 0 4096 1 0] ∧ d.put = [[65]] ∧
      d.put[0]? = some (d.memory.bytes 4096 1) := by
  have heval : (do
      let q ← Queue.init ⟨2, 1⟩ 4096
      let (r, q) ← q.allocate 1
      let q ← q.enqueue 0
      let (o, _) ← q.dequeue
      pure (r, o)).toOption = some (some (0, 4096), .ok 0 4096 1) := by decide +kernel
  simp only [bind, toOption_bind_eq_some, Prod.exists] at heval
  obtain ⟨q₀, h₀, r, q₁, h₁, q₂, h₂, o, q₃, h₃, heq⟩ := heval
  obtain ⟨rfl, rfl⟩ := Prod.mk.inj (Option.some.inj heq)
  have r₀ : Reachable ⟨2, 1⟩ 4096 ⟨q₀, fun _ => 0, [], [], []⟩ := .init h₀
  have r₁ : Reachable ⟨2, 1⟩ 4096 ⟨q₁, fun _ => 0, [.copying 0 0 4096 [65] []], [], []⟩ :=
    .step r₀ (.allocate h₁)
  have r₂ := Reachable.step r₁ (.copy ⟨0, by decide⟩ (List.mem_cons_self ..))
  have r₃ := Reachable.step r₂ (.put (List.mem_cons_self ..) (by simp) h₂)
  have r₄ := Reachable.step r₃ (@Step.dequeue _ _ 1 _ _ _ h₃)
  refine ⟨_, r₄, by simp, rfl, ?_⟩
  obtain ⟨hsmall, hdelivery⟩ := delivery ⟨2, 1⟩ 4096
  have hmapped : Mapped 4096 (Options.poolSize ⟨2, 1⟩) := ⟨by decide, by decide, by decide⟩
  exact (hdelivery (hsmall (by decide)) hmapped _ r₄).2.1 1 0 4096 1 0 (List.mem_cons_self ..)

end Exchange

end CppLearn.ShmMsgQueue

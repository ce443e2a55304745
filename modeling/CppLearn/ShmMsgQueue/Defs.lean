import CppLearn.Buddy.Defs
import Mathlib.Algebra.Order.Ring.Int

/-!
# The shared-memory message queue of `shm_msg_queue.cc`

`SharedMemoryMessageQueue` keeps a fixed array of nodes in shared memory. A node that is not in
the hands of a client is on one of two lists, which are linked through the same field: the free
list and the list of messages. The payload of a message lies in a block of a buddy allocator.

The definitions are the bodies of the operations that run under the mutex, which are the steps of
the processes that share the queue. Waiting is left out: `allocate` and `dequeue` repeat their
bodies until they succeed, give up or time out. Nodes are array indices, and the null pointer is
`none`, or address zero for payloads. An access outside the node array is a fault.

## Main definitions

* `ChunkList` with `init`, `allocateNode`, `deallocateNode`, `put` and `pop`;
* `Queue` with `init`, `tryAllocate`, `enqueue`, `dequeue` and `releaseChunk`.
-/

namespace CppLearn.ShmMsgQueue

open BoundedLoop

/-- `ShmMsgChunkList::Node`. -/
structure Node where
  size : ℕ
  data : ℕ
  next : Option ℕ

/-- `ChunkRegionList`, with the length of the array `nodes`. -/
structure ChunkList where
  capacity : ℕ
  head : Option ℕ
  tail : Option ℕ
  freeListHead : Option ℕ
  nodes : ℕ → Node

namespace ChunkList

/-- `init`. The capacity is converted to `int32_t`; the array must have a last node. -/
def init (capacity : ℕ) : Except Fault ChunkList :=
  let capacity := capacity % 2 ^ 32
  if 0 < capacity ∧ capacity < 2 ^ 31 then
    .ok {
      capacity
      head := none
      tail := none
      freeListHead := some 0
      nodes := fun i => ⟨0, 0, if i + 1 < capacity then some (i + 1) else none⟩ }
  else .error .invalidAccess

/-- `nodes[i]`. -/
def read (list : ChunkList) (i : ℕ) : Except Fault Node :=
  if i < list.capacity then .ok (list.nodes i) else .error .invalidAccess

/-- Assign fields of `nodes[i]`. -/
def modify (list : ChunkList) (i : ℕ) (f : Node → Node) : Except Fault ChunkList :=
  if i < list.capacity then
    .ok { list with nodes := Function.update list.nodes i (f (list.nodes i)) }
  else .error .invalidAccess

/-- `allocate_node`. -/
def allocateNode (list : ChunkList) : Except Fault (Option ℕ × ChunkList) := do
  match list.freeListHead with
  | none => .ok (none, list)
  | some node =>
    let n ← list.read node
    .ok (some node, { list with freeListHead := n.next })

/-- `deallocate_node`. -/
def deallocateNode (list : ChunkList) (node : ℕ) : Except Fault ChunkList := do
  let list ← list.modify node ({ · with next := list.freeListHead })
  .ok { list with freeListHead := some node }

/-- `put`. -/
def put (list : ChunkList) (node : ℕ) : Except Fault ChunkList := do
  let list ← list.modify node ({ · with next := none })
  -- `tail->next = node`, unless the list is empty
  let list ← (
    match list.tail with
    | some tail => list.modify tail ({ · with next := some node })
    | none => .ok list)
  let list := { list with tail := some node }
  if list.head = none then .ok { list with head := some node } else .ok list

/-- `pop`. -/
def pop (list : ChunkList) : Except Fault (Option ℕ × ChunkList) := do
  match list.head with
  | none => .ok (none, list)
  | some node =>
    let n ← list.read node
    let list := { list with head := n.next }
    -- the last message is taken
    if n.next = none then .ok (some node, { list with tail := none }) else .ok (some node, list)

end ChunkList

/-- `kMinBlockSize`. -/
def minBlockSize : ℕ := 512

/-- `compute_num_order`, on the pair of `num_order` and `pool_size`. -/
def computeNumOrder (poolSize minBlockSize : ℕ) : Except Fault ℕ := do
  let (numOrder, _) ← whileLoop (fun _ => .diverged) (fun s : ℕ × ℕ => .ok (s.2 ≥ minBlockSize))
    (fun s => .ok (s.1 + 1, s.2 / 2)) Buddy.bitFuel (0, poolSize)
  .ok numOrder

/-- `SharedMemoryMessageQueue::Options`. -/
structure Options where
  capacity : ℕ := 128
  bufferSize : ℕ := 64

/-- The shared state: the chunk list, the fields of the control block and the size of the
buffer. -/
structure Queue where
  chunkList : ChunkList
  memoryAllocator : Buddy.Allocator
  activePreducerCount : ℤ
  bufferMmapSize : ℕ

/-- What an iteration of `dequeue` comes to: a message with its chunk id, address and size; the
queue is closed; or another iteration, unless the time is over. -/
inductive Outcome where
  | ok (chunkId addr size : ℕ)
  | closed
  | wait
  deriving DecidableEq

namespace Queue

/-- `init`, with the address at which `mmap` puts the buffer. -/
def init (options : Options) (bufferAddr : ℕ) : Except Fault Queue := do
  let chunkList ← ChunkList.init options.capacity
  let bufferMmapSize := options.bufferSize * 1024 * 1024 % 2 ^ 64
  let numOrder ← computeNumOrder bufferMmapSize minBlockSize
  let memoryAllocator ← Buddy.Allocator.create bufferAddr bufferMmapSize numOrder
  .ok { chunkList, memoryAllocator, activePreducerCount := -1, bufferMmapSize }

/-- `try_allocate` of `allocate`, after the check of the size: chunk id and address. -/
def tryAllocate (q : Queue) (size : ℕ) : Except Fault (Option (ℕ × ℕ) × Queue) := do
  let (node, chunkList) ← q.chunkList.allocateNode
  match node with
  | none => .ok (none, { q with chunkList })
  | some node =>
    let (addr, memoryAllocator) ← q.memoryAllocator.allocate size
    match addr with
    | some addr =>
      let chunkList ← chunkList.modify node ({ · with data := addr, size := size })
      .ok (some (node % 2 ^ 32, addr), { q with chunkList, memoryAllocator })
    | none =>
      -- no block is large enough, so the node goes back
      let chunkList ← chunkList.deallocateNode node
      .ok (none, { q with chunkList, memoryAllocator })

/-- One attempt of `allocate`. -/
def allocate (q : Queue) (size : ℕ) : Except Fault (Option (ℕ × ℕ) × Queue) :=
  -- CHECK_LE(size, buffer_mmap_size_)
  if size ≤ q.bufferMmapSize then q.tryAllocate size else .error .checkFailed

/-- `enqueue(chunk_id)`. -/
def enqueue (q : Queue) (chunkId : ℕ) : Except Fault Queue := do
  let chunkList ← q.chunkList.put chunkId
  .ok { q with chunkList }

/-- One iteration of `dequeue`. -/
def dequeue (q : Queue) : Except Fault (Outcome × Queue) := do
  let (node, chunkList) ← q.chunkList.pop
  match node with
  | some node =>
    let n ← chunkList.read node
    .ok (.ok (node % 2 ^ 32) n.data n.size, { q with chunkList })
  | none =>
    -- no message: the counter decides
    if q.activePreducerCount = 0 then .ok (.closed, { q with chunkList })
    else .ok (.wait, { q with chunkList })

/-- `release_chunk`. -/
def releaseChunk (q : Queue) (chunkId : ℕ) : Except Fault Queue := do
  let n ← q.chunkList.read chunkId
  let memoryAllocator ← q.memoryAllocator.deallocate n.data n.size
  let chunkList ← q.chunkList.deallocateNode chunkId
  .ok { q with chunkList, memoryAllocator }

/-- `set_preducer_count`. -/
def setPreducerCount (q : Queue) (count : ℤ) : Queue := { q with activePreducerCount := count }

/-- `signal_preducing_complete`. -/
def signalPreducingComplete (q : Queue) : Queue :=
  { q with activePreducerCount := q.activePreducerCount - 1 }

/-- `close`. -/
def close (q : Queue) : Queue := q.signalPreducingComplete

end Queue

end CppLearn.ShmMsgQueue

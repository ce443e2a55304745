import CppLearn.Lib.BoundedLoop
import CppLearn.Lib.ByteMemory
import CppLearn.Lib.Unsigned

/-!
# The ring buffer of `ringbuffer.cc`

`RingBuffer` keeps records of arbitrary length in one circular byte array. A record is an 8-byte
size header followed by its data, padded to a multiple of eight. `read_` and `write_` are offsets
into the array here, and `none` stands for `nullptr`. A read or a write that leaves the array is a
fault, and so is `LOG(FATAL)`, which ends the process.

`push` copies whole multiples of eight bytes out of `node.data`, which may be shorter: the bytes
behind the end of the vector are those of the argument `pad`, of which nothing is known.

## Main definitions

* `init`, `Buffer.push`, `Buffer.pop`: the public operations;
* `Buffer.evictBody`: the loop of `push` that drops the oldest records;
* `Buffer.run`: sequences of calls.
-/

namespace CppLearn.RingBuffer

open BoundedLoop Unsigned

/-- `RingBuffer::Node`: what is pushed and popped. -/
structure Node where
  size : ℕ
  data : List UInt8
  deriving DecidableEq

/-- The byte at `node.data.data() + i`, also behind the end of the vector. -/
def Node.byteAt (pad : ℕ → UInt8) (node : Node) (i : ℕ) : UInt8 := node.data.getD i (pad i)

/-- The fields of a `RingBuffer`. -/
structure Buffer where
  capacity : ℕ
  buffer : Memory
  write : Option ℕ
  read : Option ℕ

/-- `evaluate_aligned_size`. -/
def evaluateAlignedSize (size : ℕ) : ℕ := alignUp8 64 size

/-- `init`, with the memory that `mmap` returns, `none` for `MAP_FAILED`. -/
def init (mmap : ℕ → Option Memory) (size : ℕ) : Option Buffer :=
  let capacity := evaluateAlignedSize size
  (mmap capacity).map fun m => ⟨capacity, m, none, none⟩

/-- `empty`. -/
def Buffer.empty (rb : Buffer) : Bool := rb.read.isNone

/-- `*reinterpret_cast<size_t*>(buffer_ + a)`. -/
def Buffer.loadSize (rb : Buffer) (a : ℕ) : Except Fault ℕ :=
  if a + 8 ≤ rb.capacity then .ok (rb.buffer.loadLE 8 a) else .error .invalidAccess

/-- `*reinterpret_cast<size_t*>(buffer_ + a) = v`. -/
def Buffer.storeSize (rb : Buffer) (a v : ℕ) : Except Fault Buffer :=
  if a + 8 ≤ rb.capacity then .ok { rb with buffer := rb.buffer.storeLE 8 a v }
  else .error .invalidAccess

/-- `memcpy(buffer_ + a, src, len)`. -/
def Buffer.copyIn (rb : Buffer) (a : ℕ) (src : ℕ → UInt8) (len : ℕ) : Except Fault Buffer :=
  if a + len ≤ rb.capacity then .ok { rb with buffer := rb.buffer.write a src len }
  else .error .invalidAccess

/-- `memcpy(dst, buffer_ + a, len)`: the bytes that are copied. -/
def Buffer.copyOut (rb : Buffer) (a len : ℕ) : Except Fault (List UInt8) :=
  if a + len ≤ rb.capacity then .ok ((List.range len).map fun i => rb.buffer (a + i))
  else .error .invalidAccess

/-! ## Push -/

/-- The condition of the loop of `push` at the pointers `(read_, write_)`:
`capacity_ - (((write_ - read_) + capacity_) % capacity_) < size`. -/
def Buffer.evictCond (rb : Buffer) (size : ℕ) (s : ℕ × ℕ) : Except Fault Bool :=
  .ok (decide (sub 64 rb.capacity (add 64 (sub 64 s.2 s.1) rb.capacity % rb.capacity) < size))

/-- The body of the loop of `push`: `read_` moves behind the oldest record. -/
def Buffer.evictBody (rb : Buffer) (s : ℕ × ℕ) : Except Fault (ℕ × ℕ) := do
  let (read, write) := s
  let nodeDataSize ← rb.loadSize read
  let offset := add 64 8 (evaluateAlignedSize nodeDataSize)
  let leftSize := sub 64 rb.capacity read
  let read := if leftSize < offset then offset - leftSize else read + offset
  let read := if read = rb.capacity then 0 else read
  if read = write then .ok (0, 0) else .ok (read, write)

/-- The copies of `push`: write the data at `write`, around the end of the array if need be, and
return where it ends. -/
def Buffer.writeData (rb : Buffer) (write : ℕ) (src : ℕ → UInt8) (dataSize : ℕ) :
    Except Fault (Buffer × ℕ) := do
  -- what is left up to the end of the buffer
  let freeSize := sub 64 rb.capacity write
  if freeSize < dataSize then
    let rb ← rb.copyIn write src freeSize
    let rb ← rb.copyIn 0 (fun i => src (freeSize + i)) (sub 64 dataSize freeSize)
    .ok (rb, dataSize - freeSize)
  else
    let rb ← rb.copyIn write src dataSize
    .ok (rb, write + dataSize)

/-- The part of `push` after the loop: write the record at `write` and return the new `write_`. -/
def Buffer.writeRecord (rb : Buffer) (pad : ℕ → UInt8) (write : ℕ) (node : Node) (dataSize : ℕ) :
    Except Fault (Buffer × ℕ) := do
  let rb ← rb.storeSize write node.size
  let write := write + 8
  let (rb, write) ← rb.writeData write (node.byteAt pad) dataSize
  .ok (rb, if write = rb.capacity then 0 else write)

/-- The pointers with which `push` starts: those of an empty buffer are reset. -/
def Buffer.pushStart (rb : Buffer) : Except Fault (ℕ × ℕ) :=
  if rb.empty then .ok (0, 0)
  else
    match rb.read, rb.write with
    | some read, some write => .ok (read, write)
    | _, _ => .error .invalidAccess

/-- `push`. Every iteration of the loop drops a record of at least eight bytes. -/
def Buffer.push (rb : Buffer) (pad : ℕ → UInt8) (node : Node) : Except Fault Buffer := do
  let s ← rb.pushStart
  let dataSize := evaluateAlignedSize node.size
  let size := add 64 8 dataSize
  if size > rb.capacity then .error .checkFailed
  else
    let (read, write) ←
      whileLoop (fun _ => .diverged) (rb.evictCond size) rb.evictBody (rb.capacity + 1) s
    let (rb, write) ← rb.writeRecord pad write node dataSize
    .ok { rb with read := some read, write := some write }

/-! ## Pop -/

/-- `std::vector::resize`. -/
def resize (data : List UInt8) (size : ℕ) : List UInt8 :=
  data.take size ++ List.replicate (size - data.length) 0

/-- The copies of `pop`: the data of a record and the new `read_`. -/
def Buffer.readData (rb : Buffer) (read dataSize : ℕ) : Except Fault (List UInt8 × ℕ) := do
  -- what is left up to the end of the buffer
  let tailOffset := sub 64 rb.capacity read
  if tailOffset < dataSize then
    let front ← rb.copyOut read tailOffset
    let back ← rb.copyOut 0 (sub 64 dataSize tailOffset)
    .ok (front ++ back, dataSize - tailOffset)
  else
    let data ← rb.copyOut read dataSize
    .ok (data, read + dataSize)

/-- `pop`. -/
def Buffer.pop (rb : Buffer) : Except Fault (Node × Buffer) := do
  match rb.read with
  | none => .ok (⟨0, []⟩, rb)
  | some read =>
    let size ← rb.loadSize read
    let dataSize := evaluateAlignedSize size
    let read := read + 8
    let (data, read) ← rb.readData read dataSize
    let node : Node := ⟨size, resize data size⟩
    let read := if read = rb.capacity then 0 else read
    if some read = rb.write then .ok (node, { rb with read := none, write := none })
    else .ok (node, { rb with read := some read })

/-! ## Sequences of calls -/

/-- A call. A `push` comes with the bytes that happen to lie behind the end of its vector. -/
inductive Op where
  | push (pad : ℕ → UInt8) (node : Node)
  | pop

/-- One call, with the node that it returns, if any. -/
def Buffer.apply (rb : Buffer) : Op → Except Fault (Option Node × Buffer)
  | .push pad node => do
    let rb ← rb.push pad node
    .ok (none, rb)
  | .pop => do
    let (node, rb) ← rb.pop
    .ok (some node, rb)

/-- A sequence of calls, with the nodes that they return. -/
def Buffer.run : Buffer → List Op → Except Fault (List Node × Buffer)
  | rb, [] => .ok ([], rb)
  | rb, op :: ops => do
    let (out, rb) ← rb.apply op
    let (outs, rb) ← run rb ops
    .ok (out.toList ++ outs, rb)

end CppLearn.RingBuffer

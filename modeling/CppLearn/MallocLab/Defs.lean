import CppLearn.Lib.BoundedLoop
import CppLearn.Lib.ByteMemory
import CppLearn.Lib.Unsigned

/-!
# The allocator of `mm.c`

An allocator over a heap that only grows, on a machine with 32-bit words. A block has a header and
a footer, in slots of eight bytes each, with its size and its status. The heap is a sequence of
blocks and ends with a marker. Free blocks are found by a walk over the headers. They are merged
only when a request finds no block, in a pass that reads the footers too.

Pointers are numbers, and zero is the null pointer. Reads and writes outside the storage behind the
heap are faults, and so is a walk that does not end. `mem_sbrk` is the one of `memlib.c`; when it
fails it returns the pointer `-1`, which the allocator does not recognise.

A `Heap` is the memory with the variables of `memlib.c` and `mm.c`. The internal functions are
`coalesce`, `coalesces`, `findFitBlock` and `place`, the public ones `mmInit`, `mmMalloc`, `mmFree`
and `mmRealloc`.
-/

namespace CppLearn.MallocLab

open BoundedLoop Unsigned

/-- The bytes of the heap, the variables of `memlib.c` and `total_free_size`. -/
structure Heap where
  memory : Memory
  startBrk : ℕ
  brk : ℕ
  maxAddr : ℕ
  totalFreeSize : ℕ

/-- `MAX_HEAP`. -/
def maxHeap : ℕ := 20 * 2 ^ 20

/-- `mem_init`, with the address and the content of the storage from `malloc`. -/
def memInit (startBrk : ℕ) (memory : Memory) : Heap :=
  ⟨memory, startBrk, startBrk, startBrk + maxHeap, 0⟩

/-- `mem_sbrk`. The argument is converted to `int`. -/
def Heap.memSbrk (s : Heap) (incr : ℕ) : ℕ × Heap :=
  if incr < 2 ^ 31 ∧ s.brk + incr ≤ s.maxAddr then (s.brk, { s with brk := s.brk + incr })
  else (2 ^ 32 - 1, s)

/-! ## Tags -/

/-- `SIZE_T_SIZE`. -/
def sizeTSize : ℕ := 8

/-- `PACK`. -/
def pack (size val : ℕ) : ℕ := size ||| val

/-- `HDRP`. -/
def hdrp (p : ℕ) : ℕ := sub 32 p sizeTSize

namespace Heap

/-- `GET`. -/
def get (s : Heap) (p : ℕ) : Except Fault ℕ :=
  if s.startBrk ≤ p ∧ p + 4 ≤ s.maxAddr then .ok (s.memory.loadLE 4 p) else .error .invalidAccess

/-- `PUT`. -/
def put (s : Heap) (p val : ℕ) : Except Fault Heap :=
  if s.startBrk ≤ p ∧ p + 4 ≤ s.maxAddr then .ok { s with memory := s.memory.storeLE 4 p val }
  else .error .invalidAccess

/-- `GET_SIZE`. -/
def getSize (s : Heap) (p : ℕ) : Except Fault ℕ := do
  let val ← s.get p
  .ok (val / 8 * 8)

/-- `GET_ALLOC`. -/
def getAlloc (s : Heap) (p : ℕ) : Except Fault ℕ := do
  let val ← s.get p
  .ok (val &&& 1)

/-- `DATA_SIZE`. -/
def dataSize (s : Heap) (p : ℕ) : Except Fault ℕ := do
  let size ← s.getSize p
  .ok (sub 32 size (2 * sizeTSize))

/-- `IS_END`. -/
def isEnd (s : Heap) (p : ℕ) : Except Fault Bool := do
  let val ← s.get p
  .ok (val &&& 7 == 7)

/-- `STEP(mem_heap_lo())`, the first block. -/
def begin (s : Heap) : ℕ := add 32 s.startBrk sizeTSize

/-- `FTRP`. -/
def ftrp (s : Heap) (p : ℕ) : Except Fault ℕ := do
  let size ← s.getSize (hdrp p)
  .ok (sub 32 (add 32 p size) (2 * sizeTSize))

/-- `NEXT_BLK`. -/
def nextBlk (s : Heap) (p : ℕ) : Except Fault ℕ := do
  let size ← s.getSize (hdrp p)
  .ok (add 32 p size)

/-- `PREV_BLK`. -/
def prevBlk (s : Heap) (p : ℕ) : Except Fault ℕ := do
  let size ← s.getSize (hdrp (hdrp p))
  .ok (sub 32 p size)

/-- Write header and footer of the block at `p`. The position of the footer follows from the new
header. -/
def putTags (s : Heap) (p val : ℕ) : Except Fault Heap := do
  let s ← s.put (hdrp p) val
  s.put (← s.ftrp p) val

/-! ## Internal functions -/

/-- `final_free_size`. -/
def finalFreeSize (s : Heap) : Except Fault ℕ := do
  if s.brk - s.startBrk = sizeTSize then .ok 0
  else
    let ht := sub 32 s.brk (2 * sizeTSize)
    if (← s.getAlloc ht) ≠ 0 then .ok 0 else s.getSize ht

/-- `prev_alloc` in `coalesce`: the first block counts as having a predecessor in use. -/
def prevAlloc (s : Heap) (p : ℕ) : Except Fault ℕ := do
  if p = s.begin then .ok 1 else s.getAlloc (hdrp (← s.prevBlk p))

/-- `coalesce`: merge the free block at `p` with its free neighbours. -/
def coalesce (s : Heap) (p : ℕ) : Except Fault Heap := do
  let prevAlloc ← s.prevAlloc p
  let nextAlloc ← s.getAlloc (hdrp (← s.nextBlk p))
  let freeSize ← s.getSize (hdrp p)
  -- neither neighbour is free
  if prevAlloc ≠ 0 ∧ nextAlloc ≠ 0 then s.putTags p (pack freeSize 0)
  else if prevAlloc ≠ 0 ∧ nextAlloc = 0 then
    let freeSize := add 32 freeSize (← s.getSize (hdrp (← s.nextBlk p)))
    s.putTags p (pack freeSize 0)
  else if prevAlloc = 0 ∧ nextAlloc ≠ 0 then
    let freeSize := add 32 freeSize (← s.getSize (hdrp (← s.prevBlk p)))
    -- the footer first, then the header of the previous block
    let s ← s.put (← s.ftrp p) (pack freeSize 0)
    s.put (hdrp (← s.prevBlk p)) (pack freeSize 0)
  else
    let prevSize ← s.getSize (hdrp (← s.prevBlk p))
    let nextSize ← s.getSize (hdrp (← s.nextBlk p))
    let freeSize := add 32 freeSize (add 32 prevSize nextSize)
    -- the header first; the footer of the next block is found by the old sizes
    let s ← s.put (hdrp (← s.prevBlk p)) (pack freeSize 0)
    s.put (← s.ftrp (← s.nextBlk p)) (pack freeSize 0)

/-- The body of the loop of `coalesces`, on the heap and `p`. -/
def coalescesBody (x : Heap × ℕ) : Except Fault (Heap × ℕ) := do
  let (s, p) := x
  let s ← (if (← s.getAlloc (hdrp p)) = 0 then s.coalesce p else .ok s)
  .ok (s, ← s.nextBlk p)

/-- The number of iterations granted to a walk over the heap. -/
def walkFuel : ℕ := maxHeap

/-- `coalesces`: one pass over the heap. -/
def coalesces (s : Heap) : Except Fault Heap := do
  let (s, _) ← whileLoop (fun _ => .diverged)
    (fun x : Heap × ℕ => do .ok !(← x.1.isEnd (hdrp x.2))) coalescesBody walkFuel (s, s.begin)
  .ok s

/-- One iteration of the loop of `find_fit_block`. -/
def findFitStep (s : Heap) (newSize p : ℕ) : Except Fault (ℕ ⊕ Option ℕ) := do
  if ← s.isEnd (hdrp p) then .ok (.inr none)
  else if (← s.getAlloc (hdrp p)) = 0 ∧ (← s.getSize (hdrp p)) ≥ newSize then .ok (.inr (some p))
  else .ok (.inl (← s.nextBlk p))

/-- `find_fit_block`: the first free block of sufficient size. -/
def findFitBlock (s : Heap) (newSize : ℕ) : Except Fault (Option ℕ) :=
  iterate (fun _ => .diverged) (s.findFitStep newSize) walkFuel s.begin

/-- `place`: take `newSize` bytes of the block at `p`, and make a free block of the rest if it is
large enough. -/
def place (s : Heap) (p newSize : ℕ) : Except Fault Heap := do
  let freeSize ← s.getSize (hdrp p)
  -- the rest must have room for more than two tags
  if sub 32 freeSize newSize > 2 * sizeTSize then
    let s ← s.putTags p (pack newSize 1)
    let p ← s.nextBlk p
    s.putTags p (pack (sub 32 freeSize newSize) 0)
  else s.putTags p (pack freeSize 1)

/-- The common end of `mm_malloc` and `mm_realloc`: make a block of the `newSize` bytes at `p` that
`mem_sbrk` has returned, and write a new end marker. -/
def extend (s : Heap) (p newSize : ℕ) : Except Fault Heap := do
  let s ← s.putTags p (pack newSize 1)
  let finish ← s.nextBlk p
  s.put (hdrp finish) (pack 0 7)

/-- `memcpy`. -/
def memcpy (s : Heap) (dest src n : ℕ) : Except Fault Heap :=
  if n = 0 ∨ s.startBrk ≤ dest ∧ dest + n ≤ s.maxAddr ∧ s.startBrk ≤ src ∧ src + n ≤ s.maxAddr then
    .ok { s with memory := s.memory.write dest (fun i => s.memory (src + i)) n }
  else .error .invalidAccess

/-- The size of a block for a request of `size` bytes: `ALIGN(size) + 2 * SIZE_T_SIZE`. -/
def blockSize (size : ℕ) : ℕ := add 32 (alignUp8 32 size) (2 * sizeTSize)

/-! ## Public functions -/

/-- `mm_init`. -/
def mmInit (s : Heap) : Except Fault Heap :=
  let (finish, s) := s.memSbrk sizeTSize
  s.put finish (pack 0 7)

/-- `mm_malloc`: the new block, `none` for `NULL`. -/
def mmMalloc (s : Heap) (size : ℕ) : Except Fault (Option ℕ × Heap) := do
  if size = 0 then .ok (none, s)
  else
    let newSize := blockSize size
    match ← s.findFitBlock newSize with
    | some p => .ok (some p, ← s.place p newSize)
    | none =>
      -- merging is tried only if the freed bytes could suffice
      let s ← (if s.totalFreeSize ≥ newSize then s.coalesces else .ok s)
      match ← s.findFitBlock newSize with
      | some p => .ok (some p, ← s.place p newSize)
      | none =>
        -- the result is not used: `free_size` stays zero
        let _ ← s.finalFreeSize
        let (p, s) := s.memSbrk newSize
        if p = 0 then .ok (none, s) else .ok (some p, ← s.extend p newSize)

/-- `mm_free`. -/
def mmFree (s : Heap) (ptr : ℕ) : Except Fault Heap := do
  if ptr = 0 then .ok s
  else
    let freeSize ← s.getSize (hdrp ptr)
    let s := { s with totalFreeSize := add 32 s.totalFreeSize freeSize }
    s.putTags ptr (pack freeSize 0)

/-- The common end of the paths of `mm_realloc` that move the block: copy it and free it. -/
def move (s : Heap) (newP p dataSize : ℕ) : Except Fault (Option ℕ × Heap) := do
  let s ← s.memcpy newP p dataSize
  .ok (some newP, ← s.mmFree p)

/-- `mm_realloc`. -/
def mmRealloc (s : Heap) (p size : ℕ) : Except Fault (Option ℕ × Heap) := do
  -- there is no return after the block was freed
  let s ← (if size = 0 then s.mmFree p else .ok s)
  if p = 0 then s.mmMalloc size
  else
    let newSize := blockSize size
    let oldSize ← s.getSize (hdrp p)
    let dataSize ← s.dataSize (hdrp p)
    if oldSize = newSize then .ok (some p, s)
    else if oldSize > newSize then .ok (some p, ← s.place p newSize)
    else
      match ← s.findFitBlock newSize with
      | some newP => (← s.place newP newSize).move newP p dataSize
      | none =>
        let s ← (if s.totalFreeSize > newSize then s.coalesces else .ok s)
        match ← s.findFitBlock newSize with
        | some newP => (← s.place newP newSize).move newP p dataSize
        | none =>
          let (newP, s) := s.memSbrk newSize
          if newP = 0 then .ok (none, s) else (← s.extend newP newSize).move newP p dataSize

end Heap

end CppLearn.MallocLab

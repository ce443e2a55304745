import CppLearn.Lib.CheckedVector
import CppLearn.Lib.Signed
import CppLearn.MallocLab.Defs

/-!
# The driver of `mdriver.c`

The driver makes the requests of a trace, and checks what the allocator returns: it keeps a list of
the payloads, and it fills each payload with a byte that it expects again when the block is
reallocated. The allocator is a parameter, as it is for the driver.

The arrays of a trace are lists, and the number of the requests is the length of their list. Where
the driver ends the program with an error, the check is a fault. The quotient that `eval_mm_util`
returns is given by its two parts.

The list of payloads is changed by `Driver.addRange` and `removeRange`. `Driver.evalMmValid` makes
the requests of a trace with the checks, one by one (`Driver.evalOp`), and `evalMmUtil` with the
statistics. The allocator of `mm.c` is `mm`.
-/

namespace CppLearn.MallocLab

open BoundedLoop CheckedVector Unsigned

/-- The functions of an allocator; zero is the null pointer for `free` and `realloc`. -/
structure Package where
  init : Heap → Except Fault (ℤ × Heap)
  malloc : Heap → ℕ → Except Fault (Option ℕ × Heap)
  free : Heap → ℕ → Except Fault Heap
  realloc : Heap → ℕ → ℕ → Except Fault (Option ℕ × Heap)

/-- The allocator of `mm.c`. -/
def mm : Package where
  init s := do .ok (0, ← s.mmInit)
  malloc := Heap.mmMalloc
  free := Heap.mmFree
  realloc := Heap.mmRealloc

/-! ## Traces and errors -/

/-- The types of a request. -/
inductive OpType where
  | alloc
  | free
  | realloc
  deriving DecidableEq

/-- `traceop_t`. -/
structure TraceOp where
  type : OpType
  index : ℤ
  size : ℤ
  deriving DecidableEq

/-- The messages of `malloc_error`. -/
inductive Message where
  /-- `mm_init failed.` -/
  | initFailed
  /-- `mm_malloc failed.` -/
  | mallocFailed
  /-- `mm_realloc failed.` -/
  | reallocFailed
  /-- `Payload address (%p) not aligned to %d bytes` -/
  | notAligned (lo alignment : ℕ)
  /-- `Payload (%p:%p) lies outside heap (%p:%p)` -/
  | outsideHeap (lo hi heapLo heapHi : ℕ)
  /-- `Payload (%p:%p) overlaps another payload (%p:%p)` -/
  | overlaps (lo hi lo' hi' : ℕ)
  /-- `mm_realloc did not preserve the data from old block` -/
  | notPreserved
  deriving DecidableEq

/-- A line that `malloc_error` prints. -/
structure MallocError where
  tracenum : ℕ
  line : ℕ
  message : Message
  deriving DecidableEq

/-- `range_t`. -/
structure Range where
  lo : ℕ
  hi : ℕ
  deriving DecidableEq

/-- The heap and the list of payloads, the arrays `blocks` and `block_sizes` of the trace, and the
errors so far. -/
structure Driver where
  heap : Heap
  ranges : List Range
  blocks : List ℕ
  blockSizes : List ℕ
  errors : List MallocError

/-- `malloc_error`. -/
def Driver.mallocError (d : Driver) (tracenum opnum : ℕ) (message : Message) : Driver :=
  { d with errors := d.errors ++ [⟨tracenum, opnum + 5, message⟩] }

/-- An `int` as a `size_t`. -/
def toSize (x : ℤ) : ℕ := (x % 2 ^ 32).toNat

/-- `ALIGNMENT`. -/
def alignment : ℕ := 8

/-! ## The list of payloads -/

/-- `mem_heap_hi`. -/
def Heap.heapHi (s : Heap) : ℕ := sub 32 s.brk 1

/-- `mem_heapsize`. -/
def Heap.heapsize (s : Heap) : ℕ := s.brk - s.startBrk

/-- The test in the loop of `add_range`: one of the ends is in the other payload. -/
def Range.meets (r p : Range) : Bool := r.lo ≥ p.lo ∧ r.lo ≤ p.hi ∨ r.hi ≥ p.lo ∧ r.hi ≤ p.hi

/-- `add_range`. -/
def Driver.addRange (d : Driver) (lo : ℕ) (size : ℤ) (tracenum opnum : ℕ) :
    Except Fault (Bool × Driver) :=
  let hi := sub 32 (add 32 lo (toSize size)) 1
  let heapLo := d.heap.startBrk
  let heapHi := d.heap.heapHi
  if ¬size > 0 then .error .checkFailed
  else if lo % alignment ≠ 0 then
    .ok (false, d.mallocError tracenum opnum (.notAligned lo alignment))
  else if lo < heapLo ∨ lo > heapHi ∨ hi < heapLo ∨ hi > heapHi then
    .ok (false, d.mallocError tracenum opnum (.outsideHeap lo hi heapLo heapHi))
  else
    match d.ranges.find? (Range.meets ⟨lo, hi⟩) with
    | some p => .ok (false, d.mallocError tracenum opnum (.overlaps lo hi p.lo p.hi))
    | none => .ok (true, { d with ranges := ⟨lo, hi⟩ :: d.ranges })

/-- `remove_range`: the first payload at `lo`. -/
def removeRange (lo : ℕ) : List Range → List Range
  | [] => []
  | p :: ranges => if p.lo = lo then ranges else p :: removeRange lo ranges

/-! ## The content of the payloads -/

/-- `memset`. -/
def Heap.memset (s : Heap) (p : ℕ) (byte : UInt8) (n : ℕ) : Except Fault Heap :=
  if n = 0 ∨ s.startBrk ≤ p ∧ p + n ≤ s.maxAddr then
    .ok { s with memory := s.memory.write p (fun _ => byte) n }
  else .error .invalidAccess

/-- A `char`, which is signed. -/
def Heap.getChar (s : Heap) (p : ℕ) : Except Fault ℤ :=
  if s.startBrk ≤ p ∧ p < s.maxAddr then .ok (Signed.narrow 8 (s.memory p).toNat)
  else .error .invalidAccess

/-- The loop over the first `oldsize` bytes at `newp`, which ends at a byte that is not expected. -/
def Heap.preserved (s : Heap) (newp : ℕ) (expected oldsize : ℤ) : Except Fault Bool :=
  (List.range oldsize.toNat).allM fun j => do .ok (decide ((← s.getChar (newp + j)) = expected))

/-! ## `eval_mm_valid` -/

/-- The low byte of an index, as an `int` and as the byte of `memset`. -/
def lowByte (index : ℤ) : ℤ := index % 256

variable (pkg : Package) (tracenum : ℕ)

/-- The end of the cases `ALLOC` and `REALLOC`: the payload is filled, and the region is
remembered. -/
def Driver.remember (d : Driver) (op : TraceOp) (p : ℕ) : Except Fault (Bool × Driver) := do
  let heap ← d.heap.memset p (UInt8.ofNat (lowByte op.index).toNat) (toSize op.size)
  let blocks ← write d.blocks op.index p
  let blockSizes ← write d.blockSizes op.index (toSize op.size)
  .ok (true, { d with heap, blocks, blockSizes })

/-- One request in `eval_mm_valid`, and whether the loop goes on. -/
def Driver.evalOp (d : Driver) (opnum : ℕ) (op : TraceOp) : Except Fault (Bool × Driver) := do
  match op.type with
  | .alloc =>
    let (r, heap) ← pkg.malloc d.heap (toSize op.size)
    let d := { d with heap }
    match r with
    | none => .ok (false, d.mallocError tracenum opnum .mallocFailed)
    | some p =>
      let (valid, d) ← d.addRange p op.size tracenum opnum
      if valid then d.remember op p else .ok (false, d)
  | .realloc =>
    let oldp ← read d.blocks op.index
    let (r, heap) ← pkg.realloc d.heap oldp (toSize op.size)
    let d := { d with heap }
    match r with
    | none => .ok (false, d.mallocError tracenum opnum .reallocFailed)
    | some newp =>
      let d := { d with ranges := removeRange oldp d.ranges }
      let (valid, d) ← d.addRange newp op.size tracenum opnum
      if valid then
        let blockSize ← read d.blockSizes op.index
        let oldsize := Signed.narrow 32 blockSize
        let oldsize := if op.size < oldsize then op.size else oldsize
        if ← d.heap.preserved newp (lowByte op.index) oldsize then d.remember op newp
        else .ok (false, d.mallocError tracenum opnum .notPreserved)
      else .ok (false, d)
  | .free =>
    let p ← read d.blocks op.index
    let d := { d with ranges := removeRange p d.ranges }
    let heap ← pkg.free d.heap p
    .ok (true, { d with heap })

/-- The loop over the requests. -/
def Driver.evalOps (d : Driver) (opnum : ℕ) : List TraceOp → Except Fault (Bool × Driver)
  | [] => .ok (true, d)
  | op :: ops => do
    let (valid, d) ← d.evalOp pkg tracenum opnum op
    if valid then d.evalOps (opnum + 1) ops else .ok (false, d)

/-- `mem_reset_brk`. -/
def Heap.resetBrk (s : Heap) : Heap := { s with brk := s.startBrk }

/-- `eval_mm_valid`. -/
def Driver.evalMmValid (d : Driver) (ops : List TraceOp) : Except Fault (Bool × Driver) := do
  let (r, heap) ← pkg.init d.heap.resetBrk
  let d := { d with heap, ranges := [] }
  if r < 0 then .ok (false, d.mallocError tracenum 0 .initFailed)
  else d.evalOps pkg tracenum 0 ops

/-! ## `eval_mm_util` -/

/-- The variables of `eval_mm_util`, with the heap and the arrays of the trace. -/
structure Usage where
  heap : Heap
  blocks : List ℕ
  blockSizes : List ℕ
  totalSize : ℤ
  maxTotalSize : ℤ

/-- The end of the cases `ALLOC` and `REALLOC`, where `change` is added to the total size. -/
def Usage.remember (u : Usage) (op : TraceOp) (p : ℕ) (change : ℤ) : Except Fault Usage := do
  let blocks ← write u.blocks op.index p
  let blockSizes ← write u.blockSizes op.index (toSize op.size)
  let totalSize := u.totalSize + change
  let maxTotalSize := if totalSize > u.maxTotalSize then totalSize else u.maxTotalSize
  .ok { u with blocks, blockSizes, totalSize, maxTotalSize }

/-- One request in `eval_mm_util`. -/
def Usage.evalOp (u : Usage) (op : TraceOp) : Except Fault Usage := do
  match op.type with
  | .alloc =>
    let (r, heap) ← pkg.malloc u.heap (toSize op.size)
    match r with
    | none => .error .checkFailed
    | some p => ({ u with heap } : Usage).remember op p op.size
  | .realloc =>
    let oldsize ← read u.blockSizes op.index
    let oldp ← read u.blocks op.index
    let (r, heap) ← pkg.realloc u.heap oldp (toSize op.size)
    match r with
    | none => .error .checkFailed
    | some newp => ({ u with heap } : Usage).remember op newp (op.size - Signed.narrow 32 oldsize)
  | .free =>
    let size ← read u.blockSizes op.index
    let p ← read u.blocks op.index
    let heap ← pkg.free u.heap p
    .ok { u with heap, totalSize := u.totalSize - Signed.narrow 32 size }

/-- The loop over the requests. -/
def Usage.evalOps (u : Usage) : List TraceOp → Except Fault Usage
  | [] => .ok u
  | op :: ops => do (← u.evalOp pkg op).evalOps ops

/-- `eval_mm_util`: `max_total_size` and the size of the heap. -/
def evalMmUtil (heap : Heap) (blocks blockSizes : List ℕ) (ops : List TraceOp) :
    Except Fault (ℤ × ℕ) := do
  let (r, heap) ← pkg.init heap.resetBrk
  if r < 0 then .error .checkFailed
  else
    let u ← Usage.evalOps pkg ⟨heap, blocks, blockSizes, 0, 0⟩ ops
    .ok (u.maxTotalSize, u.heap.heapsize)

end CppLearn.MallocLab

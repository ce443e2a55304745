import CppLearn.Lib.BoundedLoop
import CppLearn.Lib.Unsigned
import Mathlib.Logic.Function.Basic

/-!
# The buddy allocator of `buddy_memory_allocator.cc`

`BuddyMemoryAllocator` hands out blocks of a pool. Its table `pool_` has one entry for each node
of a complete binary tree in heap order. The class `BuddyMemoryAllocatorBaseObjectBuilder` of
`buddy_memory_allocator_base_object_builder.cc` has the same functions, statement by statement,
and differs only in where the table is stored.

Sizes and table entries are 64-bit numbers. An access outside the table, a failing `CHECK` and a
loop that does not end are faults.

## Main definitions

* `Allocator.create`: the constructor with `init_pool`;
* `Allocator.allocate`, `Allocator.deallocate`: the public operations;
* `Allocator.updatePool`, `roundedUp`, `computeLevel`, `computeBlockSize`: the private ones.
-/

namespace CppLearn.Buddy

open BoundedLoop Unsigned

/-- The fields of a `BuddyMemoryAllocator`. -/
structure Allocator where
  poolAddr : ℕ
  poolSize : ℕ
  numOrder : ℕ
  minBlockSize : ℕ
  pool : ℕ → ℕ

/-! ## Sizes and levels -/

/-- The number of iterations granted to a loop that halves or doubles a 64-bit number. -/
def bitFuel : ℕ := 66

/-- One iteration of the loop of `compute_block_size`, on `tmp`, `order_block_count` and
`block_size`. -/
def computeBlockSizeStep (blockIdx : ℕ) (s : ℕ × ℕ × ℕ) : Except Fault (ℕ × ℕ × ℕ ⊕ ℕ) :=
  let (tmp, orderBlockCount, blockSize) := s
  let tmp := add 64 tmp orderBlockCount
  -- `tmp` is the number of blocks on the levels so far
  if tmp ≤ blockIdx then .ok (.inl (tmp, orderBlockCount * 2 % 2 ^ 64, blockSize / 2))
  else .ok (.inr blockSize)

/-- `compute_block_size`: the size of the block with index `blockIdx`. -/
def computeBlockSize (poolSize blockIdx : ℕ) : Except Fault ℕ :=
  iterate (fun _ => .diverged) (computeBlockSizeStep blockIdx) bitFuel (0, 1, poolSize)

/-- `rounded_up`: the next power of two. The value wraps to zero behind `2 ^ 63`. -/
def roundedUp (size : ℕ) : Except Fault ℕ :=
  whileLoop (fun _ => .diverged) (fun value => .ok (value < size))
    (fun value => .ok (value * 2 % 2 ^ 64)) bitFuel 1

/-- `rounded_up_to_min_block_size`. -/
def roundedUpToMinBlockSize (size minBlockSize : ℕ) : Except Fault ℕ := do
  let value ← roundedUp size
  .ok (max value minBlockSize)

/-- `compute_level`, on the pair of `level` and `pool_size`. -/
def computeLevel (poolSize blockSize : ℕ) : Except Fault ℕ := do
  let (level, _) ← whileLoop (fun _ => .diverged) (fun s : ℕ × ℕ => .ok (s.2 / 2 ≥ blockSize))
    (fun s => .ok (s.1 + 1, s.2 / 2)) bitFuel (0, poolSize)
  .ok level

/-! ## The table -/

/-- Fill `count` entries from `pos` on with `size`. -/
def fillOrder (pool : ℕ → ℕ) (pos count size : ℕ) : ℕ → ℕ :=
  fun i => if pos ≤ i ∧ i < pos + count then size else pool i

/-- The outer loop of `init_pool`, for the remaining `n` orders: the table, and
`order_block_size` at the end. -/
def initOrders : ℕ → ℕ → ℕ → ℕ → (ℕ → ℕ) → (ℕ → ℕ) × ℕ
  | 0, _, _, orderBlockSize, pool => (pool, orderBlockSize)
  | n + 1, order, pos, orderBlockSize, pool =>
    let orderBlockCount := 2 ^ order
    initOrders n (order + 1) (pos + orderBlockCount) (orderBlockSize / 2)
      (fillOrder pool pos orderBlockCount orderBlockSize)

/-- The constructor. The table has `1 << num_order_` entries; the shift of an `int` has no usable
value from 31 on. -/
def Allocator.create (poolAddr poolSize numOrder : ℕ) : Except Fault Allocator :=
  if numOrder ≤ 30 then
    let (pool, orderBlockSize) := initOrders numOrder 0 0 poolSize fun _ => 0
    .ok ⟨poolAddr, poolSize, numOrder, orderBlockSize * 2 % 2 ^ 64, pool⟩
  else .error .invalidAccess

/-- `pool_[i]`. -/
def Allocator.read (a : Allocator) (i : ℕ) : Except Fault ℕ :=
  if i < 2 ^ a.numOrder then .ok (a.pool i) else .error .invalidAccess

/-- `pool_[i] = v`. -/
def Allocator.write (a : Allocator) (i v : ℕ) : Except Fault Allocator :=
  if i < 2 ^ a.numOrder then .ok { a with pool := Function.update a.pool i v }
  else .error .invalidAccess

/-- The body of the loop of `update_pool`, on the table, `block_idx` and `block_size`. -/
def updatePoolBody (s : Allocator × ℕ × ℕ) : Except Fault (Allocator × ℕ × ℕ) := do
  let (a, blockIdx, blockSize) := s
  let parentIdx := (blockIdx - 1) / 2
  let parentBlockSize := blockSize * 2 % 2 ^ 64
  let leftBlockSize ← a.read (parentIdx * 2 + 1)
  let rightBlockSize ← a.read (parentIdx * 2 + 2)
  -- two free halves are one free block
  let a ← (
    if add 64 leftBlockSize rightBlockSize = parentBlockSize then a.write parentIdx parentBlockSize
    else a.write parentIdx (max leftBlockSize rightBlockSize))
  .ok (a, parentIdx, parentBlockSize)

/-- The loop of `update_pool`. -/
def updatePoolLoop (fuel : ℕ) (s : Allocator × ℕ × ℕ) : Except Fault (Allocator × ℕ × ℕ) :=
  whileLoop (fun _ => .diverged) (fun s => .ok (s.2.1 != 0)) updatePoolBody fuel s

/-- `update_pool`: recompute the entries on the way from `blockIdx` to the root. -/
def Allocator.updatePool (a : Allocator) (blockIdx : ℕ) : Except Fault Allocator := do
  let blockSize ← computeBlockSize a.poolSize blockIdx
  let (a, _) ← updatePoolLoop bitFuel (a, blockIdx, blockSize)
  .ok a

/-! ## Operations -/

/-- The loop of `search_suitable_block`, for the remaining `n` levels: index and address of the
block. -/
def Allocator.searchSuitableBlock (a : Allocator) (size : ℕ) :
    ℕ → ℕ → ℕ → ℕ → Except Fault (ℕ × ℕ)
  | 0, blockIdx, addr, _ => .ok (blockIdx, addr)
  | n + 1, blockIdx, addr, blockSize => do
    let childBlockSize := blockSize / 2
    let leftChildBlockIdx := blockIdx * 2 + 1
    if (← a.read leftChildBlockIdx) ≥ size then
      a.searchSuitableBlock size n leftChildBlockIdx addr childBlockSize
    else
      let rightChildBlockIdx := leftChildBlockIdx + 1
      -- CHECK_GE(pool[right_child_block_idx], size)
      if (← a.read rightChildBlockIdx) ≥ size then
        a.searchSuitableBlock size n rightChildBlockIdx (addr + childBlockSize) childBlockSize
      else .error .checkFailed

/-- `allocate`: the address of a block, `none` for `nullptr`. -/
def Allocator.allocate (a : Allocator) (size : ℕ) : Except Fault (Option ℕ × Allocator) := do
  let allocateBlockSize ← roundedUpToMinBlockSize size a.minBlockSize
  let level ← computeLevel a.poolSize allocateBlockSize
  -- the entry of the root is the largest block that is free
  if (← a.read 0) < allocateBlockSize then .ok (none, a)
  else
    let (blockIdx, addr) ← a.searchSuitableBlock allocateBlockSize level 0 a.poolAddr a.poolSize
    -- the pair that the result is assigned to has a 32-bit index
    let blockIdx := blockIdx % 2 ^ 32
    -- CHECK(block_addr_pair.second != nullptr)
    if addr = 0 then .error .checkFailed
    else
      let a ← a.write blockIdx 0
      let a ← a.updatePool blockIdx
      .ok (some addr, a)

/-- The loop of `deallocate`, for the remaining `n` levels: index and size of the block that
starts at `offset`. -/
def descend (offset : ℕ) : ℕ → ℕ → ℕ → ℕ → ℕ × ℕ
  | 0, blockIdx, blockSize, _ => (blockIdx, blockSize)
  | n + 1, blockIdx, blockSize, curOffset =>
    let childBlockSize := blockSize / 2
    if offset < add 64 curOffset childBlockSize then
      descend offset n (blockIdx * 2 + 1) childBlockSize curOffset
    else descend offset n (blockIdx * 2 + 2) childBlockSize (add 64 curOffset childBlockSize)

/-- `deallocate`. -/
def Allocator.deallocate (a : Allocator) (addr size : ℕ) : Except Fault Allocator := do
  let allocateBlockSize ← roundedUpToMinBlockSize size a.minBlockSize
  let level ← computeLevel a.poolSize allocateBlockSize
  let offset := sub 64 addr a.poolAddr
  let (blockIdx, blockSize) := descend offset level 0 a.poolSize 0
  -- the entry gets its full size back, whatever it was
  let a ← a.write blockIdx blockSize
  a.updatePool blockIdx

end CppLearn.Buddy

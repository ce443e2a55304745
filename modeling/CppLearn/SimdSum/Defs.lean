import CppLearn.Lib.CheckedVector
import CppLearn.Lib.CountedLoop

/-!
# `simd_sum.h`

`Sum` adds a vector to another one. The general `SumImpl` adds one element in each iteration, and
`SumImpl<float>` hands blocks of 16 elements to kernels that add eight, four or one of them with one
instruction. Elements are of an arbitrary type, with an arbitrary operation for `+=`; the lanes of
an instruction are added by the same operation. A pointer is a position, and a load or a store
beyond the end of a vector is a fault.

The kernels are `sumAddKernel` and `sumKernelN`, the two implementations `sumImpl` and
`sumImplFloat`. `sum` is `Sum`, which chooses one of them by the type.
-/

namespace CppLearn.SimdSum

open BoundedLoop CheckedVector Signed

variable {T : Type} (op : T → T → T)

/-! ## Kernels -/

/-- `_mm_loadu_ps` and `_mm256_loadu_ps`: load as many elements as the register has lanes. -/
def loadu (lanes : ℕ) (v : List T) (p : ℕ) : Except Fault (List T) :=
  if p + lanes ≤ v.length then .ok ((v.drop p).take lanes) else .error .invalidAccess

/-- `_mm_storeu_ps` and `_mm256_storeu_ps`. -/
def storeu (v : List T) (p : ℕ) (a : List T) : Except Fault (List T) :=
  if p + a.length ≤ v.length then .ok (v.take p ++ a ++ v.drop (p + a.length))
  else .error .invalidAccess

/-- `sum_add_kernel<4>` and `sum_add_kernel<8>`, with `_mm_add_ps` and `_mm256_add_ps`. -/
def addLanes (lanes : ℕ) (dst src : List T) (p : ℕ) : Except Fault (List T) := do
  let a ← loadu lanes dst p
  let b ← loadu lanes src p
  storeu dst p (List.zipWith op a b)

/-- `dst[i] += src[i]`, which is also `sum_add_kernel<1>`. -/
def addOne (dst src : List T) (p : ℕ) : Except Fault (List T) := do
  let x ← read dst p
  let y ← read src p
  write dst p (op x y)

/-- `sum_add_kernel<N>`. The first four cases are specialisations. -/
def sumAddKernel (N : ℕ) (dst src : List T) (p : ℕ) : Except Fault (List T) :=
  if N = 0 then .ok dst
  else if N = 1 then addOne op dst src p
  else if N = 4 then addLanes op 4 dst src p
  else if N = 8 then addLanes op 8 dst src p
  else if 8 ≤ N then do
    let dst ← addLanes op 8 dst src p
    sumAddKernel (N - 8) dst src (p + 8)
  else if 4 ≤ N then do
    let dst ← addLanes op 4 dst src p
    sumAddKernel (N - 4) dst src (p + 4)
  else do
    let dst ← addOne op dst src p
    sumAddKernel (N - 1) dst src (p + 1)
termination_by N

/-- `sum_kernel_n`: the `switch` has the cases from 1 to 16. -/
def sumKernelN (blockSize : ℤ) (dst src : List T) : Except Fault (List T) :=
  if 1 ≤ blockSize ∧ blockSize ≤ 16 then sumAddKernel op blockSize.toNat dst src 0 else .ok dst

/-! ## Vectors -/

/-- The general `SumImpl`. The comparison converts `size` to `size_t`. -/
def sumImpl (dst src : List T) (size : ℤ) : Except Fault (List T) :=
  forLoop 0 (size % 2 ^ 64).toNat (fun i dst => addOne op dst src i) dst

/-- The condition of the loop in `SumImpl<float>`, on `dst` and `i`. -/
def floatCond (size : ℤ) (s : List T × ℤ) : Except Fault Bool := .ok (decide (s.2 < size))

/-- The body of the loop in `SumImpl<float>`: neither `dst` nor `src` moves on. -/
def floatBody (src : List T) (s : List T × ℤ) : Except Fault (List T × ℤ) := do
  let dst ← sumKernelN op 16 s.1 src
  .ok (dst, narrow 32 (s.2 + 16))

/-- `SumImpl<float>`. -/
def sumImplFloat (dst src : List T) (size : ℤ) : Except Fault (List T) := do
  let (dst, _) ← whileLoop (fun _ => .diverged) (floatCond size) (floatBody op src)
    (dst.length + 1) (dst, 0)
  .ok dst

/-- `Sum`, with the implementation of `SumImpl` for the type of the elements. The size is converted
to `int32_t`. -/
def sum (impl : List T → List T → ℤ → Except Fault (List T)) (dst src : List T) :
    Except Fault (List T) :=
  if dst.length = src.length then impl dst src (narrow 32 src.length) else .error .checkFailed

end CppLearn.SimdSum

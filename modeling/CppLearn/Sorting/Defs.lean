import CppLearn.Lib.CheckedVector
import CppLearn.Lib.CountedLoop
import CppLearn.Lib.Signed
import Mathlib.Order.Defs.LinearOrder

/-!
# The sorting procedures of `sort.h`

Indices are `int32_t` and are converted to this type where a computation can leave it. An access
outside the vector is a fault. Loops and recursions that the source does not bound have an iteration
bound here, and exceeding it counts as divergence.

## Main definitions

* `bubbleSort`, `insertSort`, `selectSort`;
* `shellSort`, `mergeSort`, `heapSort`, `quickSort`;
* `PivotConversion`: how `quick_sort` saves a pivot;
* `bucketSort`, `radixSort`, `countingSort`.
-/

namespace CppLearn.Sorting

open BoundedLoop CheckedVector Signed

section Comparisons

variable {T : Type} [LT T] [DecidableLT T]

/-! ## `bubble_sort` -/

/-- The body of the inner loop. -/
def bubbleStep (j : ℕ) (v : List T) : Except Fault (List T) := do
  let x ← read v (j - 1)
  let y ← read v j
  if x > y then swap v (j - 1) j else .ok v

/-- `bubble_sort`. -/
def bubbleSort (v : List T) : Except Fault (List T) :=
  let n := narrow 32 v.length
  forLoop 0 n.toNat (fun i => forLoop 1 (n - i).toNat bubbleStep) v

/-! ## `insert_sort` -/

/-- An iteration of the `while` loop, at position `j`. -/
def insertStep (s : List T × ℤ) : Except Fault ((List T × ℤ) ⊕ List T) := do
  let (v, j) := s
  if j > 0 then
    let x ← read v (j - 1)
    let y ← read v j
    if x > y then
      let v ← swap v (j - 1) j
      .ok (.inl (v, j - 1))
    else .ok (.inr v)
  else .ok (.inr v)

/-- The `while` loop for the element at position `i`. -/
def insertElement (i : ℕ) (v : List T) : Except Fault (List T) :=
  iterate (fun _ => .diverged) insertStep (i + 1) (v, i)

/-- `insert_sort`. -/
def insertSort (v : List T) : Except Fault (List T) :=
  forLoop 1 (narrow 32 v.length).toNat insertElement v

/-! ## `select_sort` -/

/-- The body of the inner loop; the state is `value` with `index`. -/
def selectStep (v : List T) (j : ℕ) (s : T × ℤ) : Except Fault (T × ℤ) := do
  let x ← read v j
  .ok (if x < s.1 then (x, (j : ℤ)) else s)

/-- The body of the outer loop. -/
def selectElement (n : ℤ) (i : ℕ) (v : List T) : Except Fault (List T) := do
  let value ← read v i
  let (_, index) ← forLoop (i + 1) n.toNat (selectStep v) (value, (i : ℤ))
  swap v i index

/-- `select_sort`. -/
def selectSort (v : List T) : Except Fault (List T) :=
  let n := narrow 32 v.length
  forLoop 0 n.toNat (selectElement n) v

end Comparisons

variable {T : Type} [LinearOrder T]

/-! ## `shell_sort` -/

/-- An iteration of the `while` loop, at position `j`. -/
def shellInsertStep (d : ℤ) (s : List T × ℤ) : Except Fault ((List T × ℤ) ⊕ List T) := do
  let (v, j) := s
  if j > 0 then
    let x ← read v (j - d)
    let y ← read v j
    if x > y then
      let v ← swap v (j - 1) j
      .ok (.inl (v, j - d))
    else .ok (.inr v)
  else .ok (.inr v)

/-- The `while` loop for the element at position `i`. -/
def shellInsert (d : ℤ) (i : ℕ) (v : List T) : Except Fault (List T) :=
  iterate (fun _ => .diverged) (shellInsertStep d) (i + 1) (v, i)

/-- The body of the loop over the gaps. -/
def shellPass (n : ℤ) (s : List T × ℤ) : Except Fault (List T × ℤ) := do
  let (v, d) := s
  let v ← forLoop d.toNat n.toNat (shellInsert d) v
  .ok (v, d / 2)

/-- `shell_sort`. -/
def shellSort (v : List T) : Except Fault (List T) := do
  let n := narrow 32 v.length
  let (v, _) ← whileLoop (fun _ => .diverged) (fun s => .ok (decide (s.2 ≥ 1))) (shellPass n)
    (n.toNat + 1) (v, n / 2)
  .ok v

/-! ## `merge_sort` -/

/-- The copy of the `len` elements from position `start` on. -/
def copy (v : List T) (start len : ℤ) : Except Fault (List T) :=
  (List.range len.toNat).mapM fun i : ℕ => read v (start + (i : ℤ))

/-- The state of the loop in `_merge`. -/
structure MergeState (T : Type) where
  v : List T
  index : ℤ
  i : ℤ
  j : ℤ

/-- `v[index] = a[i]; ++i; ++index`. -/
def MergeState.takeLeft (s : MergeState T) (a : List T) : Except Fault (MergeState T) := do
  let x ← read a s.i
  let v ← write s.v s.index x
  .ok ⟨v, s.index + 1, s.i + 1, s.j⟩

/-- `v[index] = b[j]; ++j; ++index`. -/
def MergeState.takeRight (s : MergeState T) (b : List T) : Except Fault (MergeState T) := do
  let y ← read b s.j
  let v ← write s.v s.index y
  .ok ⟨v, s.index + 1, s.i, s.j + 1⟩

/-- The body of the loop in `_merge`. -/
def mergeStep (a b : List T) (len1 len2 : ℤ) (s : MergeState T) :
    Except Fault (MergeState T) := do
  if s.i < len1 ∧ s.j < len2 then
    let x ← read a s.i
    let y ← read b s.j
    if x < y then s.takeLeft a else s.takeRight b
  else if s.i < len1 then s.takeLeft a
  else s.takeRight b

/-- `_merge`. -/
def merge (v : List T) (left mid right : ℤ) : Except Fault (List T) := do
  let len1 := mid - left
  let len2 := right - mid
  let a ← copy v left len1
  let b ← copy v mid len2
  let s ← whileLoop (fun _ => .diverged) (fun s => .ok (decide (s.index < right)))
    (mergeStep a b len1 len2) ((right - left).toNat + 1) ⟨v, left, 0, 0⟩
  .ok s.v

/-- `merge_sort`, down to depth `fuel`. All numbers are between `start` and `stop`, or less than
`stop - start`. -/
def mergeSort : ℕ → List T → ℤ → ℤ → Except Fault (List T)
  | 0, _, _, _ => .error .diverged
  | fuel + 1, v, start, stop =>
    if start < stop - 1 then do
      let mid := start + (stop - start) / 2
      let v ← mergeSort fuel v start mid
      let v ← mergeSort fuel v mid stop
      merge v start mid stop
    else .ok v

/-! ## `heap_sort` -/

/-- The first test in the loop of `_heapify`: the larger child. -/
def largerChild (arr : List T) (child stop : ℤ) : Except Fault ℤ := do
  if child + 1 < stop then
    let x ← read arr child
    let y ← read arr (child + 1)
    .ok (if x < y then child + 1 else child)
  else .ok child

/-- The second test in the loop of `_heapify`. -/
def swapLarger (arr : List T) (parent child : ℤ) : Except Fault (List T) := do
  let x ← read arr parent
  let y ← read arr child
  if x < y then swap arr parent child else .ok arr

/-- The body of the loop of `_heapify`; the state is the vector with `parent` and `child`. -/
def heapifyStep (stop : ℤ) (s : List T × ℤ × ℤ) : Except Fault (List T × ℤ × ℤ) := do
  let (arr, parent, child) := s
  let child ← largerChild arr child stop
  let arr ← swapLarger arr parent child
  .ok (arr, child, narrow 32 (2 * child + 1))

/-- `_heapify`. -/
def heapify (arr : List T) (parent stop : ℤ) : Except Fault (List T) := do
  let (arr, _) ← whileLoop (fun _ => .diverged) (fun s => .ok (decide (s.2.2 < stop)))
    (heapifyStep stop) (stop.toNat + 1) (arr, parent, narrow 32 (2 * parent + 1))
  .ok arr

/-- The body of the first loop of `heap_sort`. -/
def buildStep (n : ℤ) (s : List T × ℤ) : Except Fault (List T × ℤ) := do
  let (arr, i) := s
  let arr ← heapify arr i n
  .ok (arr, i - 1)

/-- The body of the second loop of `heap_sort`. -/
def extractStep (s : List T × ℤ) : Except Fault (List T × ℤ) := do
  let (arr, i) := s
  let arr ← swap arr 0 i
  let arr ← heapify arr 0 i
  .ok (arr, i - 1)

/-- `heap_sort`. -/
def heapSort (arr : List T) : Except Fault (List T) := do
  let n := narrow 32 arr.length
  let (arr, _) ← whileLoop (fun _ => .diverged) (fun s => .ok (decide (s.2 ≥ 0))) (buildStep n)
    (n.toNat + 1) (arr, n.tdiv 2 - 1)
  let (arr, _) ← whileLoop (fun _ => .diverged) (fun s => .ok (decide (s.2 > 0))) extractStep
    (n.toNat + 1) (arr, narrow 32 (n - 1))
  .ok arr

/-! ## `quick_sort` -/

/-- The conversions of elements to `int32_t`, the type of `val`, and back. A value that comes from
an element is kept by a conversion to the type of the elements and back. -/
structure PivotConversion (T : Type) where
  toInt : T → ℤ
  ofInt : ℤ → T
  toInt_ofInt : ∀ x, toInt (ofInt (toInt x)) = toInt x

/-- An element after it was saved in `val`. -/
def PivotConversion.saved (c : PivotConversion T) (x : T) : T := c.ofInt (c.toInt x)

/-- The conversions of a signed integer type with at least 32 bits. -/
def PivotConversion.signed : PivotConversion ℤ :=
  ⟨narrow 32, id, fun x => narrow_eq (narrow_fits 32 x)⟩

/-- The first inner loop of `_partition`. -/
def scanRight (arr : List T) (val : T) (left right : ℤ) : Except Fault ℤ :=
  whileLoop (fun _ => .diverged)
    (fun right => if left < right then do
      let x ← read arr right
      .ok (decide (val ≤ x)) else .ok false)
    (fun right => .ok (right - 1)) ((right - left).toNat + 1) right

/-- The second inner loop of `_partition`. -/
def scanLeft (arr : List T) (val : T) (left right : ℤ) : Except Fault ℤ :=
  whileLoop (fun _ => .diverged)
    (fun left => if left < right then do
      let x ← read arr left
      .ok (decide (x ≤ val)) else .ok false)
    (fun left => .ok (left + 1)) ((right - left).toNat + 1) left

/-- The body of the outer loop of `_partition`; the state is the vector with `left` and `right`. -/
def partitionStep (val : T) (s : List T × ℤ × ℤ) : Except Fault (List T × ℤ × ℤ) := do
  let (arr, left, right) := s
  let right ← scanRight arr val left right
  let arr ← swap arr left right
  let left ← scanLeft arr val left right
  let arr ← swap arr left right
  .ok (arr, left, right)

/-- `_partition`, where `rand()` returns `draw`. -/
def partition (c : PivotConversion T) (draw : ℕ) (arr : List T) (left right : ℤ) :
    Except Fault (List T × ℤ) := do
  let index := narrow 32 (left + (draw : ℤ).tmod (narrow 32 (right - left + 1)))
  let arr ← swap arr left index
  let x ← read arr left
  let val := c.saved x
  let (arr, left, _) ← whileLoop (fun _ => .diverged) (fun s => .ok (decide (s.2.1 < s.2.2)))
    (partitionStep val) ((right - left).toNat + 1) (arr, left, right)
  let arr ← write arr left val
  .ok (arr, left)

/-- `quick_sort`, down to depth `fuel`. The calls of `rand` return the values of the sequence `rand`
from number `used` on. -/
def quickSort (c : PivotConversion T) (rand : ℕ → ℕ) :
    ℕ → ℕ × List T → ℤ → ℤ → Except Fault (ℕ × List T)
  | 0, _, _, _ => .error .diverged
  | fuel + 1, (used, arr), start, stop =>
    if start < stop then do
      let (arr, mid) ← partition c (rand used) arr start stop
      let s ← quickSort c rand fuel (used + 1, arr) start (narrow 32 (mid - 1))
      quickSort c rand fuel s (narrow 32 (mid + 1)) stop
    else .ok (used, arr)

/-! ## `bucket_sort` -/

/-- `bucket[x % bucket_size].push_back(x)`. -/
def pushBucket (bucketSize : ℤ) (bucket : List (List ℤ)) (x : ℤ) :
    Except Fault (List (List ℤ)) := do
  if bucketSize = 0 then .error .checkFailed
  else
    let values ← read bucket (x.tmod bucketSize)
    write bucket (x.tmod bucketSize) (values ++ [x])

/-- `v[idx++] = value`; the state is `v` with `idx`. -/
def putNext (s : List ℤ × ℤ) (value : ℤ) : Except Fault (List ℤ × ℤ) := do
  let v ← write s.1 s.2 value
  .ok (v, narrow 32 (s.2 + 1))

/-- The body of the second loop. A bucket is sorted in its own iteration, and not read later. -/
def emptyBucket (bucket : List (List ℤ)) (i : ℤ) (s : List ℤ × ℤ) :
    Except Fault (List ℤ × ℤ) := do
  let values ← read bucket i
  let values ← insertSort values
  values.foldlM putNext s

/-- `bucket_sort`. The constructor of the vector of buckets throws if the size is negative. -/
def bucketSort (v : List ℤ) (bucketSize : ℤ) : Except Fault (List ℤ) := do
  if bucketSize < 0 then .error .checkFailed
  else
    let bucket ← v.foldlM (pushBucket bucketSize) (List.replicate bucketSize.toNat [])
    let (v, _) ← signedLoop 32 .diverged 0 bucket.length (emptyBucket bucket) (v, 0)
    .ok v

/-! ## Counting elements, for `radix_sort` and `counting_sort` -/

/-- `count[key(v[i])]++`. -/
def countKey (key : ℤ → Except Fault ℤ) (v : List ℤ) (i : ℤ) (count : List ℤ) :
    Except Fault (List ℤ) := do
  let x ← read v i
  let k ← key x
  let c ← read count k
  write count k (narrow 32 (c + 1))

/-- `count[i] += count[i - 1]`. -/
def addPrevious (i : ℤ) (count : List ℤ) : Except Fault (List ℤ) := do
  let x ← read count i
  let y ← read count (i - 1)
  write count i (narrow 32 (x + y))

/-- The state of the last loop. The source has no list of the positions of `v` that were written;
the last one is its first element. -/
structure PlaceState where
  v : List ℤ
  count : List ℤ
  written : List ℤ

/-- `v[count[key(tmp[i])] - 1] = tmp[i]; --count[key(tmp[i])]`. -/
def placeStep (key : ℤ → Except Fault ℤ) (tmp : List ℤ) (i : ℕ) (s : PlaceState) :
    Except Fault PlaceState := do
  let x ← read tmp i
  let k ← key x
  let c ← read s.count k
  let v ← write s.v (narrow 32 (c - 1)) x
  let count ← write s.count k (narrow 32 (c - 1))
  .ok ⟨v, count, narrow 32 (c - 1) :: s.written⟩

/-! ## `radix_sort` -/

/-- `_quick_pow`; the state of the loop is `result` with `v` and `p`. -/
def quickPow (v p : ℤ) : Except Fault ℤ := do
  let (result, _) ← whileLoop (fun _ => .diverged) (fun (s : ℤ × ℤ × ℤ) => .ok (decide (s.2.2 > 0)))
    (fun (result, v, p) => do
      let result ← if p % 2 = 1 then product 64 result v else .ok result
      .ok (result, ← product 64 v v, p / 2)) (p.toNat + 1) (1, v, p)
  .ok result

/-- `_fn`. -/
def digitAt (i value : ℤ) : Except Fault ℤ := do
  let power ← if i = 0 then .ok 1 else quickPow 10 i
  let val := narrow 32 power
  if val = 0 then .error .checkFailed else .ok ((value.tdiv val).tmod 10)

/-- `_stable_sort`. -/
def digitSort (idx : ℤ) (v : List ℤ) : Except Fault (List ℤ) := do
  let tmp := v
  let count ← signedLoop 32 .diverged 0 v.length (countKey (digitAt idx) v) (List.replicate 11 0)
  let count ← forLoop 1 11 (fun i => addPrevious i) count
  let s ← forDown (narrow 32 ((v.length : ℤ) - 1)) (placeStep (digitAt idx) tmp) ⟨v, count, []⟩
  .ok s.v

/-- The number of digits of the largest value. -/
def digitCount (v : List ℤ) : Except Fault ℤ := do
  let m := v.foldl max 0
  let (_, d) ← whileLoop (fun _ => .diverged) (fun (s : ℤ × ℤ) => .ok (decide (s.1 ≠ 0)))
    (fun (m, d) => .ok (m.tdiv 10, narrow 32 (d + 1))) (m.toNat + 1) (m, 0)
  .ok d

/-- `radix_sort`. -/
def radixSort (v : List ℤ) (d : ℤ) : Except Fault (List ℤ) := do
  let d ← if d = 0 then digitCount v else .ok d
  forLoop 0 d.toNat (fun i => digitSort i) v

/-! ## `counting_sort` -/

/-- `max_size()` of a vector of 32-bit integers. -/
def maxSize : ℤ := 2 ^ 61 - 1

/-- `counting_sort`. The size of the vector of counts is converted to an unsigned number, and the
constructor throws if that number is above `max_size()`, as each negative size is. -/
def countingSort (v : List ℤ) (maxValue : ℤ) : Except Fault PlaceState := do
  let tmp := v
  let size := narrow 64 (maxValue + 1)
  if size < 0 ∨ maxSize < size then .error .checkFailed
  else
    let count ← signedLoop 64 .diverged 0 v.length (countKey .ok v) (List.replicate size.toNat 0)
    let count ← signedLoop 32 .diverged 1 count.length addPrevious count
    forDown (narrow 32 ((v.length : ℤ) - 1)) (placeStep .ok tmp) ⟨v, count, []⟩

end CppLearn.Sorting

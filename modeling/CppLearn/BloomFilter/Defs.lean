import CppLearn.Lib.CheckedVector

/-!
# The filters of `bloom_filter.h` and `bloom_filter.cc`

Both filters hash a key with each function of a list, take the second word of the result modulo the
number of buckets, and visit the bucket of that index. `BloomFilter` has one bit for each bucket,
and `CountingBloomFilter<T>` a counter of type `T` that stays at its largest value once it is there.

The constructors compute the number of buckets from a floating point formula and draw the seeds of
the hash functions at random. Here the number of buckets and the functions are parameters.

## Main definitions

* `Hasher`, `bucketIndex`: hash functions, and the bucket a function assigns to a key;
* `insertLoop`, `existsLoop`: the loops that the two filters share;
* `CountingBloomFilter.insert`, `exists`, `insertedLookup`, and the same for `BloomFilter`.
-/

namespace CppLearn

open BoundedLoop CheckedVector

/-- A hash function: from the bytes at `key` and from `len` it fills `murmurhash_res`. -/
def Hasher := List UInt8 → ℤ → UInt64 × UInt64

/-- `murmurhash_res[1] % bucket_size_`. -/
def bucketIndex (bucketSize : UInt64) (fn : Hasher) (key : List UInt8) (len : ℤ) : ℕ :=
  ((fn key len).2 % bucketSize).toNat

section Loops

variable {α : Type}

/-- The loop of `Insert`: each hash function selects an entry of `buf_`, which `next` changes. -/
def insertLoop (bucketSize : UInt64) (next : α → α) (key : List UInt8) (len : ℤ)
    (hashFunctions : List Hasher) (buf : List α) : Except Fault (List α) :=
  hashFunctions.foldlM (fun buf fn => do
    let index := bucketIndex bucketSize fn key len
    let x ← read buf index
    write buf index (next x)) buf

/-- The loop of `Exists`: it is left at the first entry that `missing` holds of. -/
def existsLoop (bucketSize : UInt64) (missing : α → Bool) (key : List UInt8) (len : ℤ)
    (buf : List α) : List Hasher → Except Fault Bool
  | [] => .ok true
  | fn :: hashFunctions => do
    let x ← read buf (bucketIndex bucketSize fn key len)
    if missing x then .ok false
    else existsLoop bucketSize missing key len buf hashFunctions

end Loops

/-! ## Counters -/

/-- The fields of a `CountingBloomFilter<T>` that its operations use. `T` is an unsigned type of `w`
bits. -/
structure CountingBloomFilter (w : ℕ) where
  bucketSize : UInt64
  hashFunctions : List Hasher
  buf : List (BitVec w)

namespace CountingBloomFilter

variable {w : ℕ}

/-- The constructor, for a given number of buckets and given functions. -/
def create (w : ℕ) (bucketSize : UInt64) (hashFunctions : List Hasher) : CountingBloomFilter w :=
  ⟨bucketSize, hashFunctions, resize [] bucketSize.toNat 0⟩

/-- One more, unless the counter has the value `std::numeric_limits<T>::max()`. -/
def increment (x : BitVec w) : BitVec w := if x ≠ BitVec.allOnes w then x + 1 else x

/-- `Insert`. The null pointer is `none`. -/
def insert (f : CountingBloomFilter w) (key : Option (List UInt8)) (len : ℤ) :
    Except Fault (CountingBloomFilter w) :=
  match key with
  | none => .ok f
  | some key => do
    let buf ← insertLoop f.bucketSize increment key len f.hashFunctions f.buf
    .ok { f with buf }

/-- `Exists`. The counters are compared with `max_count` after a promotion to `uint32_t`. -/
def «exists» (f : CountingBloomFilter w) (key : Option (List UInt8)) (len : ℤ) (maxCount : UInt32) :
    Except Fault Bool :=
  if maxCount = 0 then .ok true
  else
    match key with
    | none => .ok false
    | some key =>
      existsLoop f.bucketSize (fun x => decide (x.toNat < maxCount.toNat)) key len f.buf
        f.hashFunctions

/-- `InsertedLookup`. -/
def insertedLookup (f : CountingBloomFilter w) (key : Option (List UInt8)) (len : ℤ)
    (maxCount : UInt32) : Except Fault (Bool × CountingBloomFilter w) := do
  let f ← f.insert key len
  let found ← f.exists key len maxCount
  .ok (found, f)

/-- A sequence of calls of `Insert` with keys that are not null. -/
def insertAll (f : CountingBloomFilter w) (calls : List (List UInt8 × ℤ)) :
    Except Fault (CountingBloomFilter w) :=
  calls.foldlM (fun f call => f.insert (some call.1) call.2) f

end CountingBloomFilter

/-! ## Bits -/

/-- The fields of a `BloomFilter` that its operations use. -/
structure BloomFilter where
  bucketSize : UInt64
  hashFunctions : List Hasher
  buf : List Bool

namespace BloomFilter

/-- The constructor, for a given number of buckets and given functions. -/
def create (bucketSize : UInt64) (hashFunctions : List Hasher) : BloomFilter :=
  ⟨bucketSize, hashFunctions, resize [] bucketSize.toNat false⟩

/-- `Insert`. -/
def insert (f : BloomFilter) (key : Option (List UInt8)) (len : ℤ) : Except Fault BloomFilter :=
  match key with
  | none => .ok f
  | some key => do
    let buf ← insertLoop f.bucketSize (fun _ => true) key len f.hashFunctions f.buf
    .ok { f with buf }

/-- `Exists`. -/
def «exists» (f : BloomFilter) (key : Option (List UInt8)) (len : ℤ) : Except Fault Bool :=
  match key with
  | none => .ok false
  | some key => existsLoop f.bucketSize (fun x => x == false) key len f.buf f.hashFunctions

/-- `InsertedLookup`. -/
def insertedLookup (f : BloomFilter) (key : Option (List UInt8)) (len : ℤ) :
    Except Fault (Bool × BloomFilter) := do
  let f ← f.insert key len
  let found ← f.exists key len
  .ok (found, f)

/-- A sequence of calls of `Insert` with keys that are not null. -/
def insertAll (f : BloomFilter) (calls : List (List UInt8 × ℤ)) : Except Fault BloomFilter :=
  calls.foldlM (fun f call => f.insert (some call.1) call.2) f

end BloomFilter

end CppLearn

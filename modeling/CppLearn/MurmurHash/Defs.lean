import CppLearn.Lib.CheckedVector
import CppLearn.Lib.Signed
import CppLearn.Lib.Words

/-!
# `murmurhash.cc`

The bytes at `key` are a list, and `len` is an `int`. The machine is little-endian, and a word may
be read at any position. The tail of the key is read by the cases of a `switch` that fall through,
so the statements of a case run if the number of bytes is not below it.

The function `murmurHash` is translated part by part (`mixBlock` for a block, `addTail` for the
`switch`, `finalize` for the rest), and `murmurHashOf` says what it computes: the hash of a string,
block by block.
-/

namespace CppLearn.MurmurHash

open BoundedLoop CheckedVector

abbrev Word := BitVec 64

abbrev Byte := BitVec 8

/-- `rotl64`, for a number of bits from 1 to 63. -/
def rotl64 (x : Word) (r : ℕ) : Word := x <<< r ||| x >>> (64 - r)

/-- `fmix64`. -/
def fmix64 (k : Word) : Word :=
  let k := k ^^^ k >>> 33
  let k := k * 0xff51afd7ed558ccd
  let k := k ^^^ k >>> 33
  let k := k * 0xc4ceb9fe1a85ec53
  k ^^^ k >>> 33

/-- `c1`. -/
def c1 : Word := 0x87c37b91114253d5

/-- `c2`. -/
def c2 : Word := 0x4cf5ad432745937f

/-- `h1` and `h2`. -/
structure Hash where
  h1 : Word
  h2 : Word
  deriving DecidableEq

/-- What `k1` is before it is added to `h1`. -/
def mixK1 (k1 : Word) : Word :=
  let k1 := k1 * c1
  let k1 := rotl64 k1 31
  k1 * c2

/-- What `k2` is before it is added to `h2`. -/
def mixK2 (k2 : Word) : Word :=
  let k2 := k2 * c2
  let k2 := rotl64 k2 33
  k2 * c1

/-- The body of the loop over the blocks, after `k1` and `k2` are read. -/
def mixBlock (h : Hash) (k1 k2 : Word) : Hash :=
  let h1 := h.h1 ^^^ mixK1 k1
  let h1 := rotl64 h1 27
  let h1 := h1 + h.h2
  let h1 := h1 * 5 + 0x52dce729
  let h2 := h.h2 ^^^ mixK2 k2
  let h2 := rotl64 h2 31
  let h2 := h2 + h1
  let h2 := h2 * 5 + 0x38495ab5
  ⟨h1, h2⟩

/-- `blocks[i]`: eight bytes. -/
def readBlock (data : List Byte) (i : ℤ) : Except Fault Word := do
  let bytes ← (List.range 8).mapM fun j : ℕ => read data (8 * i + j)
  .ok (Words.fromBytes 64 bytes)

/-- An iteration of the loop over the blocks. -/
def block (data : List Byte) (st : ℤ × Hash) : Except Fault (ℤ × Hash) := do
  let k1 ← readBlock data (st.1 * 2)
  let k2 ← readBlock data (st.1 * 2 + 1)
  .ok (st.1 + 1, mixBlock st.2 k1 k2)

/-! ## The tail -/

/-- `case i + 1` of the `switch` on `n`, where `tail[i]` is added to `k`. -/
def addByte (data : List Byte) (tail n : ℤ) (i shift : ℕ) (k : Word) : Except Fault Word :=
  if (i : ℤ) < n then do
    let byte ← read data (tail + i)
    .ok (k ^^^ byte.setWidth 64 <<< shift)
  else .ok k

/-- The `switch`, where `n` is `len & 15`. -/
def addTail (data : List Byte) (tail n : ℤ) (h : Hash) : Except Fault Hash := do
  let k2 ← addByte data tail n 14 48 0
  let k2 ← addByte data tail n 13 40 k2
  let k2 ← addByte data tail n 12 32 k2
  let k2 ← addByte data tail n 11 24 k2
  let k2 ← addByte data tail n 10 16 k2
  let k2 ← addByte data tail n 9 8 k2
  let k2 ← addByte data tail n 8 0 k2
  let h := if 9 ≤ n then { h with h2 := h.h2 ^^^ mixK2 k2 } else h
  let k1 ← addByte data tail n 7 56 0
  let k1 ← addByte data tail n 6 48 k1
  let k1 ← addByte data tail n 5 40 k1
  let k1 ← addByte data tail n 4 32 k1
  let k1 ← addByte data tail n 3 24 k1
  let k1 ← addByte data tail n 2 16 k1
  let k1 ← addByte data tail n 1 8 k1
  let k1 ← addByte data tail n 0 0 k1
  .ok (if 1 ≤ n then { h with h1 := h.h1 ^^^ mixK1 k1 } else h)

/-- The finalization. -/
def finalize (len : ℤ) (h : Hash) : Hash :=
  let h1 := h.h1 ^^^ BitVec.ofInt 64 len
  let h2 := h.h2 ^^^ BitVec.ofInt 64 len
  let h1 := h1 + h2
  let h2 := h2 + h1
  let h1 := fmix64 h1
  let h2 := fmix64 h2
  let h1 := h1 + h2
  let h2 := h2 + h1
  ⟨h1, h2⟩

/-- `MurmurHash::operator()`: the words that are written to `out`. The length that a caller passes
is converted to the `const int len`. -/
def murmurHash (seed : BitVec 32) (key : List Byte) (len : ℤ) : Except Fault Hash := do
  let len := Signed.narrow 32 len
  let nblocks := len.tdiv 16
  let st ← whileLoop (fun _ => .diverged) (fun st => .ok (decide (st.1 < nblocks))) (block key)
    (key.length + 1) (0, ⟨seed.setWidth 64, seed.setWidth 64⟩)
  let h ← addTail key (nblocks * 16) (len % 16) st.2
  .ok (finalize len h)

/-! ## Block by block -/

/-- The bytes of a block, as two words. -/
def mixBytes (h : Hash) (bs : List Byte) : Hash :=
  mixBlock h (Words.fromBytes 64 (bs.take 8)) (Words.fromBytes 64 (bs.drop 8))

/-- The first `n` blocks of a string. -/
def mixBlocks : ℕ → Hash → List Byte → Hash
  | 0, h, _ => h
  | n + 1, h, data => mixBlocks n (mixBytes h (data.take 16)) (data.drop 16)

/-- The bytes of the tail, as two words. -/
def mixTail (h : Hash) (bs : List Byte) : Hash :=
  ⟨h.h1 ^^^ mixK1 (Words.fromBytes 64 (bs.take 8)), h.h2 ^^^ mixK2 (Words.fromBytes 64 (bs.drop 8))⟩

/-- The hash of a string. -/
def murmurHashOf (seed : BitVec 32) (data : List Byte) : Hash :=
  let nblocks := data.length / 16
  let h := mixBlocks nblocks ⟨seed.setWidth 64, seed.setWidth 64⟩ data
  finalize data.length (mixTail h (data.drop (16 * nblocks)))

end CppLearn.MurmurHash

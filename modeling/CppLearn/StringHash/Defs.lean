import CppLearn.Lib.CheckedVector
import CppLearn.Lib.CountedLoop

/-!
# `string_roll_hash.h`

Characters are signed and converted to `uint64_t` with their sign. The positions are `int32_t`, and
compared with the length of the string, which is unsigned. The set of hashes is a list.

`hashStep` is an iteration of the second loop, and `stringHash` is `StringHash::operator()`.
-/

namespace CppLearn.StringHash

open BoundedLoop CheckedVector Signed

/-- A character in a product or a sum with a `uint64_t`. -/
def charWord (c : BitVec 8) : BitVec 64 := c.signExtend 64

/-- The base. -/
def base : BitVec 64 := 97755331

/-- The body of the first loop; the state is `h` with `p`. -/
def absorb (s : List (BitVec 8)) (i : ℤ) (st : BitVec 64 × BitVec 64) :
    Except Fault (BitVec 64 × BitVec 64) := do
  let c ← read s i
  .ok (st.1 * base + charWord c, st.2 * base)

/-- The state of the second loop. -/
structure HashState where
  h : BitVec 64
  hs : List (BitVec 64)
  idx : ℤ

/-- `h * b - p * s[idx - size] + s[idx]`. -/
def roll (s : List (BitVec 8)) (size : ℤ) (p : BitVec 64) (st : HashState) :
    Except Fault (BitVec 64) := do
  let old ← read s (st.idx - size)
  let new ← read s st.idx
  .ok (st.h * base - p * charWord old + charWord new)

/-- An iteration of the second loop: the next state, or what is returned. -/
def hashStep (s : List (BitVec 8)) (size : ℤ) (p : BitVec 64) (st : HashState) :
    Except Fault (HashState ⊕ ℤ) := do
  if st.idx % 2 ^ 64 < s.length then
    let h ← roll s size p st
    if h ∈ st.hs then .ok (.inr st.idx)
    else .ok (.inl ⟨h, h :: st.hs, narrow 32 (st.idx + 1)⟩)
  else .ok (.inr 0)

/-- `h` and `p` after the first loop. -/
def firstHash (s : List (BitVec 8)) (size start : ℤ) : Except Fault (BitVec 64 × BitVec 64) :=
  forLoop 0 (size - start).toNat (fun k => absorb s (start + k)) (0, 1)

/-- `StringHash::operator()`. -/
def stringHash (s : List (BitVec 8)) (size start : ℤ) : Except Fault ℤ := do
  let (h, p) ← firstHash s size start
  iterate (fun _ => .diverged) (hashStep s size p) (s.length + 1)
    ⟨h, [h], narrow 32 (start + size)⟩

end CppLearn.StringHash

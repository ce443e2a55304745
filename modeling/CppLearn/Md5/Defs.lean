import CppLearn.Lib.BoundedLoop
import CppLearn.Md5.Standard

/-!
# `md5.cc`

The words are of type `unsigned long`, with 64 bits, and nothing is done about the upper 32 bits
until the digest is written. Bytes that do not fill a block are kept in `buffer`. A `memcpy` beyond
the end of `buffer` is a fault. The buffers for HMAC, which no function uses, are left out.

`md5Process` takes a block, `md5Starts`, `md5Update` and `md5Finish` a message in pieces, and `md5`
is `Md5::operator()`.
-/

namespace CppLearn.Md5

open BoundedLoop

abbrev Ulong := BitVec 64

/-- `md5_context`. -/
structure Context where
  total0 : Ulong
  total1 : Ulong
  state : Words 64
  buffer : List Byte

/-- `GET_ULONG_LE`. -/
def getUlongLE (b : List Byte) (i : ℕ) : Ulong :=
  (b.getD i 0).setWidth 64 ||| (b.getD (i + 1) 0).setWidth 64 <<< 8 |||
    (b.getD (i + 2) 0).setWidth 64 <<< 16 ||| (b.getD (i + 3) 0).setWidth 64 <<< 24

/-- `PUT_ULONG_LE`: the bytes that are written. -/
def putUlongLE (n : Ulong) : List Byte :=
  [n.setWidth 8, (n >>> 8).setWidth 8, (n >>> 16).setWidth 8, (n >>> 24).setWidth 8]

/-- `md5_starts`, on a context that may hold anything. -/
def md5Starts (ctx : Context) : Context :=
  { ctx with
    total0 := 0
    total1 := 0
    state := ⟨0x67452301, 0xEFCDAB89, 0x98BADCFE, 0x10325476⟩ }

/-! ## Blocks -/

/-- The macro `S`. -/
def S (x : Ulong) (n : ℕ) : Ulong := x <<< n ||| (x &&& 0xFFFFFFFF) >>> (32 - n)

/-- The numbers in a use of the macro `P`. -/
structure Row where
  k : ℕ
  s : ℕ
  t : Ulong
  deriving DecidableEq

/-- The macro `P`: the new value of `a`. -/
def P (F : Ulong → Ulong → Ulong → Ulong) (X : ℕ → Ulong) (a b c d : Ulong) (r : Row) : Ulong :=
  let a := a + (F b c d + X r.k + r.t)
  S a r.s + b

/-- Four uses of `P`, for `A`, `D`, `C` and `B`. -/
def fourSteps (F : Ulong → Ulong → Ulong → Ulong) (X : ℕ → Ulong) (w : Words 64)
    (r : Row × Row × Row × Row) : Words 64 :=
  let A := P F X w.a w.b w.c w.d r.1
  let D := P F X w.d A w.b w.c r.2.1
  let C := P F X w.c D A w.b r.2.2.1
  let B := P F X w.b C D A r.2.2.2
  ⟨A, B, C, D⟩

/-! The four definitions of the macro `F`, and the uses of `P` that follow them. -/

def F₁ (x y z : Ulong) : Ulong := z ^^^ (x &&& (y ^^^ z))

def rows₁ : List (Row × Row × Row × Row) :=
  [(⟨0, 7, 0xD76AA478⟩, ⟨1, 12, 0xE8C7B756⟩, ⟨2, 17, 0x242070DB⟩, ⟨3, 22, 0xC1BDCEEE⟩),
   (⟨4, 7, 0xF57C0FAF⟩, ⟨5, 12, 0x4787C62A⟩, ⟨6, 17, 0xA8304613⟩, ⟨7, 22, 0xFD469501⟩),
   (⟨8, 7, 0x698098D8⟩, ⟨9, 12, 0x8B44F7AF⟩, ⟨10, 17, 0xFFFF5BB1⟩, ⟨11, 22, 0x895CD7BE⟩),
   (⟨12, 7, 0x6B901122⟩, ⟨13, 12, 0xFD987193⟩, ⟨14, 17, 0xA679438E⟩, ⟨15, 22, 0x49B40821⟩)]

def F₂ (x y z : Ulong) : Ulong := y ^^^ (z &&& (x ^^^ y))

def rows₂ : List (Row × Row × Row × Row) :=
  [(⟨1, 5, 0xF61E2562⟩, ⟨6, 9, 0xC040B340⟩, ⟨11, 14, 0x265E5A51⟩, ⟨0, 20, 0xE9B6C7AA⟩),
   (⟨5, 5, 0xD62F105D⟩, ⟨10, 9, 0x02441453⟩, ⟨15, 14, 0xD8A1E681⟩, ⟨4, 20, 0xE7D3FBC8⟩),
   (⟨9, 5, 0x21E1CDE6⟩, ⟨14, 9, 0xC33707D6⟩, ⟨3, 14, 0xF4D50D87⟩, ⟨8, 20, 0x455A14ED⟩),
   (⟨13, 5, 0xA9E3E905⟩, ⟨2, 9, 0xFCEFA3F8⟩, ⟨7, 14, 0x676F02D9⟩, ⟨12, 20, 0x8D2A4C8A⟩)]

def F₃ (x y z : Ulong) : Ulong := x ^^^ y ^^^ z

def rows₃ : List (Row × Row × Row × Row) :=
  [(⟨5, 4, 0xFFFA3942⟩, ⟨8, 11, 0x8771F681⟩, ⟨11, 16, 0x6D9D6122⟩, ⟨14, 23, 0xFDE5380C⟩),
   (⟨1, 4, 0xA4BEEA44⟩, ⟨4, 11, 0x4BDECFA9⟩, ⟨7, 16, 0xF6BB4B60⟩, ⟨10, 23, 0xBEBFBC70⟩),
   (⟨13, 4, 0x289B7EC6⟩, ⟨0, 11, 0xEAA127FA⟩, ⟨3, 16, 0xD4EF3085⟩, ⟨6, 23, 0x04881D05⟩),
   (⟨9, 4, 0xD9D4D039⟩, ⟨12, 11, 0xE6DB99E5⟩, ⟨15, 16, 0x1FA27CF8⟩, ⟨2, 23, 0xC4AC5665⟩)]

def F₄ (x y z : Ulong) : Ulong := y ^^^ (x ||| ~~~z)

def rows₄ : List (Row × Row × Row × Row) :=
  [(⟨0, 6, 0xF4292244⟩, ⟨7, 10, 0x432AFF97⟩, ⟨14, 15, 0xAB9423A7⟩, ⟨5, 21, 0xFC93A039⟩),
   (⟨12, 6, 0x655B59C3⟩, ⟨3, 10, 0x8F0CCC92⟩, ⟨10, 15, 0xFFEFF47D⟩, ⟨1, 21, 0x85845DD1⟩),
   (⟨8, 6, 0x6FA87E4F⟩, ⟨15, 10, 0xFE2CE6E0⟩, ⟨6, 15, 0xA3014314⟩, ⟨13, 21, 0x4E0811A1⟩),
   (⟨4, 6, 0xF7537E82⟩, ⟨11, 10, 0xBD3AF235⟩, ⟨2, 15, 0x2AD7D2BB⟩, ⟨9, 21, 0xEB86D391⟩)]

/-- `md5_process`, on `ctx->state`. -/
def md5Process (state : Words 64) (data : List Byte) : Words 64 :=
  let X := fun k => getUlongLE data (4 * k)
  let w := rows₁.foldl (fourSteps F₁ X) state
  let w := rows₂.foldl (fourSteps F₂ X) w
  let w := rows₃.foldl (fourSteps F₃ X) w
  let w := rows₄.foldl (fourSteps F₄ X) w
  ⟨state.a + w.a, state.b + w.b, state.c + w.c, state.d + w.d⟩

/-! ## Messages -/

/-- `memcpy` into `buffer`, from the position `left` on. -/
def copy (buffer : List Byte) (left : ℕ) (input : List Byte) : Except Fault (List Byte) :=
  if left + input.length ≤ buffer.length then
    .ok (buffer.take left ++ input ++ buffer.drop (left + input.length))
  else .error .invalidAccess

/-- The loop over the blocks of the input. -/
def processBlocks (state : Words 64) (input : List Byte) : Except Fault (Words 64 × List Byte) :=
  whileLoop (fun _ => .diverged) (fun s => .ok (decide (64 ≤ s.2.length)))
    (fun s => .ok (md5Process s.1 (s.2.take 64), s.2.drop 64)) (input.length + 1) (state, input)

/-- The part of `md5_update` that fills up `buffer`: the state, the buffer, what is left of the
input, and the number of bytes in the buffer. -/
def fillBuffer (state : Words 64) (buffer input : List Byte) (left : ℕ) :
    Except Fault (Words 64 × List Byte × List Byte × ℕ) :=
  let fill := 64 - left
  if left ≠ 0 ∧ fill ≤ input.length then do
    let buffer ← copy buffer left (input.take fill)
    .ok (md5Process state buffer, buffer, input.drop fill, 0)
  else .ok (state, buffer, input, left)

/-- `md5_update`. -/
def md5Update (ctx : Context) (input : List Byte) : Except Fault Context :=
  if input.length = 0 then .ok ctx
  else do
    let ilen := BitVec.ofNat 64 input.length
    let left := (ctx.total0 &&& 0x3F).toNat
    let total0 := (ctx.total0 + ilen) &&& 0xFFFFFFFF
    let total1 := if total0 < ilen then ctx.total1 + 1 else ctx.total1
    let (state, buffer, input, left) ← fillBuffer ctx.state ctx.buffer input left
    let (state, input) ← processBlocks state input
    let buffer ← copy buffer left input
    .ok ⟨total0, total1, state, buffer⟩

/-- `md5_padding`. -/
def md5Padding : List Byte := 0x80 :: List.replicate 63 0

/-- `md5_finish`. -/
def md5Finish (ctx : Context) : Except Fault (List Byte) := do
  let high := ctx.total0 >>> 29 ||| ctx.total1 <<< 3
  let low := ctx.total0 <<< 3
  let msglen := putUlongLE low ++ putUlongLE high
  let last := (ctx.total0 &&& 0x3F).toNat
  let padn := if last < 56 then 56 - last else 120 - last
  let ctx ← md5Update ctx (md5Padding.take padn)
  let ctx ← md5Update ctx msglen
  .ok (putUlongLE ctx.state.a ++ putUlongLE ctx.state.b ++ putUlongLE ctx.state.c ++
    putUlongLE ctx.state.d)

/-- `Md5::Type`. -/
inductive DigestType where
  | md5_32
  | md5_128

/-- `Md5::operator()`: the bytes that are written to `out`. The context is a local variable that is
not initialised. -/
def md5 (ctx : Context) (input : List Byte) (type : DigestType) : Except Fault (List Byte) := do
  let ctx ← md5Update (md5Starts ctx) input
  let output ← md5Finish ctx
  match type with
  | .md5_32 => .ok (output.take 4)
  | .md5_128 => .ok (output.take 16)

end CppLearn.Md5

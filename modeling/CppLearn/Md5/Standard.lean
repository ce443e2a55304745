import CppLearn.Lib.BlockFold

/-!
# The MD5 message digest

MD5 as it is standardised, on words of 32 bits: the message is padded to a whole number of
blocks of 64 bytes, the last eight of which hold its length in bits, and each block is mixed into
four words in 64 steps.

`Standard.step` is one of the steps and `Standard.compress` a block. `Standard.pad` is the padding,
and `Standard.md5` the digest.
-/

namespace CppLearn.Md5

abbrev Byte := BitVec 8

/-- The four words that are worked on. -/
@[ext]
structure Words (w : ℕ) where
  a : BitVec w
  b : BitVec w
  c : BitVec w
  d : BitVec w
  deriving DecidableEq

namespace Standard

abbrev Word := BitVec 32

def F (x y z : Word) : Word := (x &&& y) ||| (~~~x &&& z)

def G (x y z : Word) : Word := (x &&& z) ||| (y &&& ~~~z)

def H (x y z : Word) : Word := x ^^^ y ^^^ z

def I (x y z : Word) : Word := y ^^^ (x ||| ~~~z)

/-- The function of the step `i`: one for each round. -/
def aux (i : ℕ) : Word → Word → Word → Word :=
  if i < 16 then F else if i < 32 then G else if i < 48 then H else I

/-- The number of the word of the block that is used in the step `i`. -/
def wordIndex (i : ℕ) : ℕ :=
  if i < 16 then i else if i < 32 then (5 * i + 1) % 16 else if i < 48 then (3 * i + 5) % 16
  else 7 * i % 16

/-- By how many bits the step `i` rotates. -/
def shift (i : ℕ) : ℕ :=
  if i < 16 then [7, 12, 17, 22].getD (i % 4) 0 else if i < 32 then [5, 9, 14, 20].getD (i % 4) 0
  else if i < 48 then [4, 11, 16, 23].getD (i % 4) 0 else [6, 10, 15, 21].getD (i % 4) 0

/-- The integer parts of `2 ^ 32 * |sin (i + 1)|`. -/
def sines : List Word :=
  [0xd76aa478, 0xe8c7b756, 0x242070db, 0xc1bdceee, 0xf57c0faf, 0x4787c62a, 0xa8304613, 0xfd469501,
    0x698098d8, 0x8b44f7af, 0xffff5bb1, 0x895cd7be, 0x6b901122, 0xfd987193, 0xa679438e, 0x49b40821,
    0xf61e2562, 0xc040b340, 0x265e5a51, 0xe9b6c7aa, 0xd62f105d, 0x02441453, 0xd8a1e681, 0xe7d3fbc8,
    0x21e1cde6, 0xc33707d6, 0xf4d50d87, 0x455a14ed, 0xa9e3e905, 0xfcefa3f8, 0x676f02d9, 0x8d2a4c8a,
    0xfffa3942, 0x8771f681, 0x6d9d6122, 0xfde5380c, 0xa4beea44, 0x4bdecfa9, 0xf6bb4b60, 0xbebfbc70,
    0x289b7ec6, 0xeaa127fa, 0xd4ef3085, 0x04881d05, 0xd9d4d039, 0xe6db99e5, 0x1fa27cf8, 0xc4ac5665,
    0xf4292244, 0x432aff97, 0xab9423a7, 0xfc93a039, 0x655b59c3, 0x8f0ccc92, 0xffeff47d, 0x85845dd1,
    0x6fa87e4f, 0xfe2ce6e0, 0xa3014314, 0x4e0811a1, 0xf7537e82, 0xbd3af235, 0x2ad7d2bb, 0xeb86d391]

/-- The step `i`, with the words `X` of the block. The words change their places, so that the first
one is always the one to be changed. -/
def step (X : ℕ → Word) (s : Words 32) (i : ℕ) : Words 32 :=
  let sum := s.a + aux i s.b s.c s.d + X (wordIndex i) + sines.getD i 0
  ⟨s.d, s.b + sum.rotateLeft (shift i), s.b, s.c⟩

/-- The word number `k` of a block, low-order byte first. -/
def word (block : List Byte) (k : ℕ) : Word :=
  let byte := fun j => (block.getD (4 * k + j) 0).setWidth 32
  byte 0 ||| byte 1 <<< 8 ||| byte 2 <<< 16 ||| byte 3 <<< 24

/-- A block is mixed into the words. -/
def compress (s : Words 32) (block : List Byte) : Words 32 :=
  let t := (List.range 64).foldl (step (word block)) s
  ⟨s.a + t.a, s.b + t.b, s.c + t.c, s.d + t.d⟩

def init : Words 32 := ⟨0x67452301, 0xefcdab89, 0x98badcfe, 0x10325476⟩

/-- The length of the message in bits, modulo `2 ^ 64`, low-order byte first. -/
def lengthBytes (n : ℕ) : List Byte :=
  (List.range 8).map fun j => (BitVec.ofNat 64 (8 * n) >>> (8 * j)).setWidth 8

/-- The padding: a one bit, and as many zero bits as it takes to make room for the length. -/
def padding (n : ℕ) : List Byte := 0x80 :: List.replicate ((119 - n % 64) % 64) 0

def pad (message : List Byte) : List Byte :=
  message ++ padding message.length ++ lengthBytes message.length

/-- The bytes of a word, low-order byte first. -/
def bytes (x : Word) : List Byte := (List.range 4).map fun j => (x >>> (8 * j)).setWidth 8

/-- The digest. -/
def md5 (message : List Byte) : List Byte :=
  let s := BlockFold.foldBlocks 64 compress init (pad message)
  bytes s.a ++ bytes s.b ++ bytes s.c ++ bytes s.d

end Standard

end CppLearn.Md5

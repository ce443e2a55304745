import CppLearn.Lib.Windows
import CppLearn.MurmurHash.Correctness
import Mathlib.Data.FinEnum
import Mathlib.Data.Fintype.EquivFin
import Mathlib.Data.Fintype.Prod

/-!
# What the hash keeps apart

Each operation can be undone, so a block leads from different hashes to different ones, and
different blocks lead from one hash to different ones. Hence two strings have different hashes if
they differ in one block only. For the same reason, the hash is no protection against changes that
are made on purpose: each block of a string can be chosen so that the string has a given hash.

The block that leads to a given hash is `existsUnique_murmurHash_block`. Strings that differ in a
block have different hashes (`murmurHash_ne_of_block`), and so have different seeds
(`murmurHash_seed_injective`). All of them ask for a length that an `int` can hold.
-/

namespace CppLearn.MurmurHash

open BoundedLoop

variable {h g : Hash} {m n : ℕ} {bs : List Byte}

/-! ## The parts of the hash -/

/-- Rotations can be undone, -/
theorem rotl64_inj {r : ℕ} (hr : r < 64) {x y : Word} : rotl64 x r = rotl64 y r ↔ x = y :=
  (Words.rotate_injective hr).eq_iff

/-- and so can multiplications by odd numbers. -/
theorem mul_inj {c x y : Word} (hc : Odd c.toNat) : x * c = y * c ↔ x = y :=
  (Words.mul_injective hc).eq_iff

/-- Both constants are odd. -/
theorem odd_c1 : Odd c1.toNat := by decide

/-- The second one. -/
theorem odd_c2 : Odd c2.toNat := by decide

/-- The first half of a block can be recovered from its mixed form. -/
theorem mixK1_inj {x y : Word} : mixK1 x = mixK1 y ↔ x = y := by
  simp only [mixK1, mul_inj odd_c1, mul_inj odd_c2, rotl64_inj (show 31 < 64 by decide)]

/-- So can the second half. -/
theorem mixK2_inj {x y : Word} : mixK2 x = mixK2 y ↔ x = y := by
  simp only [mixK2, mul_inj odd_c1, mul_inj odd_c2, rotl64_inj (show 33 < 64 by decide)]

/-- The final mixing can be undone. -/
theorem fmix64_inj {x y : Word} : fmix64 x = fmix64 y ↔ x = y := by
  have hshift {x y : Word} : x ^^^ x >>> 33 = y ^^^ y >>> 33 ↔ x = y :=
    (Words.xorShift_injective (show 0 < 33 by decide)).eq_iff
  simp only [fmix64, hshift, mul_inj (c := 0xff51afd7ed558ccd) (by decide),
    mul_inj (c := 0xc4ceb9fe1a85ec53) (by decide)]

/-- When two blocks lead from two states to the same one. -/
theorem mixBlock_eq_iff {k1 k2 l1 l2 : Word} :
    mixBlock h k1 k2 = mixBlock g l1 l2 ↔
      rotl64 (h.h1 ^^^ mixK1 k1) 27 + h.h2 = rotl64 (g.h1 ^^^ mixK1 l1) 27 + g.h2 ∧
        h.h2 ^^^ mixK2 k2 = g.h2 ^^^ mixK2 l2 := by
  have h5 {x y : Word} : x * 5 = y * 5 ↔ x = y := mul_inj (by decide)
  simp only [mixBlock, Hash.mk.injEq, BitVec.add_left_inj, h5]
  -- `h1` is added to `h2`
  refine and_congr_right fun h1 => ?_
  rw [h1, BitVec.add_left_inj, rotl64_inj (by decide)]

/-- The state after a block determines the state before it. -/
theorem mixBlock_injective (k1 k2 : Word) : Function.Injective fun h => mixBlock h k1 k2 := by
  intro h g heq
  obtain ⟨h1, h2⟩ := mixBlock_eq_iff.1 heq
  have hh2 := (BitVec.xor_left_inj _).1 h2
  rw [hh2, BitVec.add_left_inj, rotl64_inj (by decide), BitVec.xor_left_inj] at h1
  cases h
  cases g
  exact congrArg₂ Hash.mk h1 hh2

/-- The state after a block determines the block, too. -/
theorem mixBlock_inj {k1 k2 l1 l2 : Word} :
    mixBlock h k1 k2 = mixBlock h l1 l2 ↔ k1 = l1 ∧ k2 = l2 := by
  rw [mixBlock_eq_iff, BitVec.add_left_inj, rotl64_inj (by decide), BitVec.xor_right_inj,
    BitVec.xor_right_inj, mixK1_inj, mixK2_inj]

/-- The blocks lead different states to different ones. -/
theorem mixBlocks_injective (n : ℕ) (data : List Byte) :
    Function.Injective fun h => mixBlocks n h data := by
  induction n generalizing data with
  | zero => exact fun _ _ heq => heq
  | succ n ih => exact fun _ _ heq => mixBlock_injective _ _ (ih _ heq)

/-- So does the rest. -/
theorem mixTail_injective (bs : List Byte) : Function.Injective fun h => mixTail h bs := by
  rintro ⟨h1, h2⟩ ⟨g1, g2⟩ heq
  simpa only [mixTail, Hash.mk.injEq, BitVec.xor_left_inj] using heq

/-- So does the end. -/
theorem finalize_injective (len : ℤ) : Function.Injective (finalize len) := by
  rintro ⟨h1, h2⟩ ⟨g1, g2⟩ heq
  simp only [finalize, Hash.mk.injEq] at heq
  obtain ⟨heq1, heq2⟩ := heq
  -- the sums are taken back one by one, the last one first
  rw [heq1, BitVec.add_left_inj, fmix64_inj] at heq2
  rw [heq2, BitVec.add_left_inj, fmix64_inj] at heq1
  rw [heq1, BitVec.add_left_inj, BitVec.xor_left_inj] at heq2
  rw [heq2, BitVec.add_left_inj, BitVec.xor_left_inj] at heq1
  rw [heq1, heq2]

/-! ## Parts of a string -/

/-- The hash of a string from the state after its first `m` blocks. -/
def hashFrom (m : ℕ) (len : ℤ) (h : Hash) (data : List Byte) : Hash :=
  finalize len (mixTail (mixBlocks m h data) (data.drop (16 * m)))

/-- And so does the whole hash, from any state. -/
theorem hashFrom_injective (m : ℕ) (len : ℤ) (data : List Byte) :
    Function.Injective fun h => hashFrom m len h data :=
  (finalize_injective len).comp ((mixTail_injective _).comp (mixBlocks_injective m data))

/-- The blocks are mixed in one after the other. -/
theorem mixBlocks_add (m n : ℕ) (h : Hash) (data : List Byte) :
    mixBlocks (m + n) h data = mixBlocks n (mixBlocks m h data) (data.drop (16 * m)) := by
  induction m generalizing h data with
  | zero => rw [Nat.zero_add, Nat.mul_zero, List.drop_zero, mixBlocks]
  | succ m ih =>
    rw [Nat.succ_add, mixBlocks, ih, mixBlocks, List.drop_drop, Nat.mul_succ, Nat.add_comm]

/-- The blocks before a part of the string. -/
theorem hashFrom_append {pre : List Byte} (hpre : pre.length = 16 * m) (n : ℕ) (len : ℤ) (h : Hash)
    (post : List Byte) :
    hashFrom (m + n) len h (pre ++ post) = hashFrom n len (mixBlocks m h pre) post := by
  have hblocks : mixBlocks m h ((pre ++ post).take pre.length) = mixBlocks m h (pre ++ post) :=
    mixBlocks_take h hpre.ge
  rw [List.take_left] at hblocks
  rw [hashFrom, mixBlocks_add, ← hblocks, Nat.mul_add, ← List.drop_drop, ← hpre, List.drop_left,
    hashFrom]

/-- The hash of a whole string, whose length is a value of an `int`. -/
theorem murmurHash_length (seed : BitVec 32) {key : List Byte} (hint : key.length < 2 ^ 31) :
    murmurHash seed key key.length =
      .ok (hashFrom (key.length / 16) key.length ⟨seed.setWidth 64, seed.setWidth 64⟩ key) := by
  rw [murmurHash_eq seed le_rfl hint, List.take_length]
  rfl

/-- A block in the middle of a string. -/
theorem hashFrom_block {pre mid : List Byte} (hpre : pre.length = 16 * m) (hmid : mid.length = 16)
    (n : ℕ) (len : ℤ) (h : Hash) (post : List Byte) :
    hashFrom (m + (n + 1)) len h (pre ++ (mid ++ post)) =
      hashFrom n len (mixBytes (mixBlocks m h pre) mid) post := by
  rw [hashFrom_append hpre, hashFrom, mixBlocks, hashFrom, ← hmid, List.take_left, List.drop_left,
    Nat.mul_succ, Nat.add_comm, ← List.drop_drop, List.drop_left]

/-! ## Blocks and words -/

/-- The two numbers of a block determine its bytes. -/
theorem fromBytes_inj {bs bs' : List Byte} (hlen : bs'.length = bs.length) (hle : bs.length ≤ 16) :
    Words.fromBytes 64 (bs.take 8) = Words.fromBytes 64 (bs'.take 8) ∧
      Words.fromBytes 64 (bs.drop 8) = Words.fromBytes 64 (bs'.drop 8) ↔ bs = bs' := by
  constructor
  · rintro ⟨hlow, hhigh⟩
    have htake := Words.fromBytes_inj (by rw [List.length_take, List.length_take, hlen])
      (by rw [List.length_take]; omega) hlow
    have hdrop := Words.fromBytes_inj (by rw [List.length_drop, List.length_drop, hlen])
      (by rw [List.length_drop]; omega) hhigh
    rw [← List.take_append_drop 8 bs, htake, hdrop, List.take_append_drop]
  · rintro rfl
    exact ⟨rfl, rfl⟩

/-- Up to sixteen bytes are determined by the state that they lead to. -/
theorem mixBytes_inj {bs bs' : List Byte} (hlen : bs'.length = bs.length) (hle : bs.length ≤ 16) :
    mixBytes h bs = mixBytes h bs' ↔ bs = bs' := by
  rw [mixBytes, mixBytes, mixBlock_inj, fromBytes_inj hlen hle]

/-- This is so for the rest as well. -/
theorem mixTail_inj {bs bs' : List Byte} (hlen : bs'.length = bs.length) (hle : bs.length ≤ 16) :
    mixTail h bs = mixTail h bs' ↔ bs = bs' := by
  rw [mixTail, mixTail, Hash.mk.injEq, BitVec.xor_right_inj, BitVec.xor_right_inj, mixK1_inj,
    mixK2_inj, fromBytes_inj hlen hle]

/-- The bytes of two words are a block. -/
theorem exists_block (k1 k2 : Word) : ∃ bs : List Byte, bs.length = 16 ∧
    Words.fromBytes 64 (bs.take 8) = k1 ∧ Words.fromBytes 64 (bs.drop 8) = k2 := by
  have hword (k : Word) : Words.fromBytes 64 (Words.toBytes 8 k) = k :=
    Words.fromBytes_toBytes fun i hi => BitVec.getLsbD_of_ge k i hi
  have hlen := Words.length_toBytes 8 k1
  refine ⟨Words.toBytes 8 k1 ++ Words.toBytes 8 k2, by simp, ?_, ?_⟩
  · rw [List.take_left' hlen, hword]
  · rw [List.drop_left' hlen, hword]

/-! ## Results -/

/-- At the position of a block, there are exactly 16 bytes with which the string has a given
hash. -/
theorem existsUnique_murmurHash_block (seed : BitVec 32) (target : Hash) (pre post : List Byte)
    (hpre : pre.length % 16 = 0) (hint : pre.length + 16 + post.length < 2 ^ 31) :
    ∃! bs : List Byte, bs.length = 16 ∧
      murmurHash seed (pre ++ (bs ++ post)) (pre ++ (bs ++ post)).length = .ok target := by
  let len := pre.length + 16 + post.length
  let h : Hash := mixBlocks (pre.length / 16) ⟨seed.setWidth 64, seed.setWidth 64⟩ pre
  let f (k : Word × Word) : Hash := hashFrom (post.length / 16) len (mixBlock h k.1 k.2) post
  have hf : Function.Bijective f := by
    have hinj : Function.Injective f := fun k l hkl => by
      obtain ⟨h1, h2⟩ := mixBlock_inj.1 (hashFrom_injective _ _ _ hkl)
      exact Prod.ext h1 h2
    -- there are as many hashes as there are blocks
    let e : Hash ≃ Word × Word :=
      ⟨fun h => (h.h1, h.h2), fun k => ⟨k.1, k.2⟩, fun _ => rfl, fun _ => rfl⟩
    have hbij := Finite.injective_iff_bijective.1 (e.injective.comp hinj)
    exact (e.bijective.of_comp_iff' f).1 hbij
  have hhash {bs : List Byte} (hlen : bs.length = 16) :
      murmurHash seed (pre ++ (bs ++ post)) (pre ++ (bs ++ post)).length =
        .ok (f (Words.fromBytes 64 (bs.take 8), Words.fromBytes 64 (bs.drop 8))) := by
    have hlength : (pre ++ (bs ++ post)).length = len := by
      rw [List.length_append, List.length_append, hlen]
      exact (Nat.add_assoc _ _ _).symm
    rw [murmurHash_length seed (hlength.trans_lt hint), hlength,
      show len / 16 = pre.length / 16 + (post.length / 16 + 1) by simp only [len]; omega,
      hashFrom_block (by omega) hlen]
    rfl
  obtain ⟨⟨k1, k2⟩, hk, hunique⟩ := hf.existsUnique target
  obtain ⟨bs, hlen, rfl, rfl⟩ := exists_block k1 k2
  refine ⟨bs, ⟨hlen, by rw [hhash hlen, ← hk]⟩, ?_⟩
  rintro bs' ⟨hlen', htarget⟩
  rw [hhash hlen'] at htarget
  have hwords := hunique _ (Except.ok.inj htarget)
  exact ((fromBytes_inj (hlen.trans hlen'.symm) hlen'.le).1 (Prod.ext_iff.1 hwords))

/-- The first block of a string of 20 bytes. -/
theorem existsUnique_murmurHash_block_first :
    ∃! bs : List Byte, bs.length = 16 ∧
      murmurHash 0 ([] ++ (bs ++ [1, 2, 3, 4])) ([] ++ (bs ++ [1, 2, 3, 4])).length = .ok ⟨0, 0⟩ :=
  existsUnique_murmurHash_block 0 ⟨0, 0⟩ [] [1, 2, 3, 4] rfl (by decide)

/-- Strings of one length that differ, but only in one of the blocks, or in the tail, have different
hashes. -/
theorem murmurHash_ne_of_block (seed : BitVec 32) {key key' : List Byte} {j : ℕ}
    (hlen : key'.length = key.length) (hint : key.length < 2 ^ 31) (hne : key ≠ key')
    (hblock : Windows.DiffersIn (16 * j) 16 key key') :
    ∃ h h', murmurHash seed key key.length = .ok h ∧ murmurHash seed key' key'.length = .ok h' ∧
      h ≠ h' := by
  refine ⟨_, _, murmurHash_length seed hint, murmurHash_length seed (hlen.trans_lt hint),
    fun heq => hne ?_⟩
  obtain ⟨pre, mid, mid', post, rfl, rfl, hmid, hle, hpre, hpost⟩ := hblock.exists_cut hlen
  rcases eq_or_ne mid [] with rfl | hmid0
  · rw [List.eq_nil_of_length_eq_zero hmid]
  replace hpre := hpre hmid0
  rw [hlen] at heq
  simp only [List.length_append, hpre] at heq
  rcases hle.lt_or_eq with hlt | hfull
  · -- the tail
    obtain rfl : post = [] := by
      by_contra h
      exact hlt.ne (hpost h)
    rw [List.length_nil, show (16 * j + (mid.length + 0)) / 16 = j + 0 by omega,
      hashFrom_append hpre, hashFrom_append hpre, List.append_nil, List.append_nil] at heq
    rw [(mixTail_inj hmid hle).1 (finalize_injective _ heq)]
  · rw [show (16 * j + (mid.length + post.length)) / 16 = j + (post.length / 16 + 1) by omega,
      hashFrom_block hpre hfull, hashFrom_block hpre (hmid.trans hfull)] at heq
    rw [(mixBytes_inj hmid hle).1 (hashFrom_injective _ _ _ heq)]

/-- Two strings of 17 bytes that differ in the last one. -/
theorem murmurHash_ne_of_block_tail :
    ∃ h h', murmurHash 0 (List.replicate 16 0 ++ [1]) (17 : ℕ) = .ok h ∧
      murmurHash 0 (List.replicate 16 0 ++ [2]) (17 : ℕ) = .ok h' ∧ h ≠ h' :=
  have hdiffers : Windows.DiffersIn (16 * 1) 16 (List.replicate 16 (0 : Byte) ++ [1])
      (List.replicate 16 0 ++ [2]) := fun i hi => by
    by_contra hout
    rcases Nat.lt_or_ge i 16 with hlt | hge
    · rw [List.getElem?_append_left (by simpa using hlt),
        List.getElem?_append_left (by simpa using hlt)] at hi
      exact hi rfl
    · rw [List.getElem?_eq_none (by simp; omega), List.getElem?_eq_none (by simp; omega)] at hi
      exact hi rfl
  murmurHash_ne_of_block 0 rfl (by decide) (by decide) hdiffers

/-- One string has different hashes with different seeds. -/
theorem murmurHash_seed_injective (key : List Byte) (hint : key.length < 2 ^ 31) :
    Function.Injective fun seed => (murmurHash seed key key.length).toOption := by
  intro seed seed' heq
  simp only [murmurHash_length _ hint] at heq
  have hstate := hashFrom_injective _ _ _ (Option.some.inj heq)
  have hwide := congrArg (BitVec.setWidth 32) (Hash.mk.inj hstate).1
  simpa using hwide

/-- A string of one block and a tail. -/
theorem murmurHash_seed_injective_tail :
    Function.Injective fun seed =>
      (murmurHash seed (List.replicate 16 7 ++ [1, 2]) (18 : ℕ)).toOption :=
  murmurHash_seed_injective (List.replicate 16 7 ++ [1, 2]) (by decide)

end CppLearn.MurmurHash

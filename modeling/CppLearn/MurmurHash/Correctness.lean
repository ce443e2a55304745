import CppLearn.MurmurHash.Defs
import Mathlib.Tactic.SplitIfs

/-!
# The loop and the tail of `murmurhash.cc`

The loop takes the blocks of the string one after another, and the cases of the `switch` put the
bytes that are left into two words. Nothing behind the string is read.

One block is `block_eq`, the `switch` is `addTail_eq`, and the function is `murmurHash_eq`.
-/

namespace CppLearn.MurmurHash

open BoundedLoop CheckedVector

variable {key bs : List Byte} {h : Hash} {i j k n : ℕ}

/-! ## Blocks -/

/-- A list of reads that all succeed. -/
theorem mapM_ok {α β : Type} {f : α → Except Fault β} {g : α → β} {l : List α}
    (h : ∀ x ∈ l, f x = .ok (g x)) : l.mapM f = .ok (l.map g) := by
  induction l with
  | nil => rfl
  | cons x l ih =>
    rw [List.mapM_cons, h x List.mem_cons_self, ok_bind,
      ih fun y hy => h y (List.mem_cons_of_mem x hy), ok_bind]
    rfl

/-- A part of a list, element by element. -/
theorem getD_part (hj : j < n) (d : Byte) :
    ((key.drop i).take n).getD j d = key.getD (i + j) d := by
  rw [List.getD_eq_getElem?_getD, List.getElem?_take_of_lt hj, List.getElem?_drop,
    ← List.getD_eq_getElem?_getD]

/-- Eight bytes are read as one number. -/
theorem readBlock_eq (hi : 8 * i + 8 ≤ key.length) :
    readBlock key i = .ok (Words.fromBytes 64 ((key.drop (8 * i)).take 8)) := by
  have hbytes : (List.range 8).mapM (fun j : ℕ => read key (8 * i + j)) =
      .ok ((List.range 8).map fun j => key.getD (8 * i + j) 0) := by
    refine mapM_ok fun j hj => ?_
    have hlt := List.mem_range.1 hj
    rw [show (8 * i + j : ℤ) = (8 * i + j : ℕ) by push_cast; rfl]
    exact read_ok (by omega) 0
  rw [readBlock, hbytes, ok_bind]
  refine congrArg _ (Words.fromBytes_congr fun j hj => ?_)
  have hlt : j < 8 := by omega
  rw [getD_part hlt, List.getD_eq_getElem?_getD, List.getElem?_map, List.getElem?_range hlt]
  rfl

/-- A block is 16 bytes, and so two words. -/
theorem block_eq (h : Hash) (hi : 16 * i + 16 ≤ key.length) :
    block key (i, h) = .ok ((i + 1 : ℕ), mixBytes h ((key.drop (16 * i)).take 16)) := by
  have hfirst : 8 * (i * 2) + 8 ≤ key.length := by omega
  have hsecond : 8 * (i * 2 + 1) + 8 ≤ key.length := by omega
  have h1 := readBlock_eq hfirst
  have h2 := readBlock_eq hsecond
  push_cast at h1 h2
  rw [block, h1, ok_bind, h2, ok_bind, mixBytes, List.take_take, List.drop_take, List.drop_drop,
    show 8 * (i * 2) = 16 * i by omega, show 8 * (i * 2 + 1) = 16 * i + 8 by omega]
  rfl

/-! ## The loop -/

/-- The blocks are at the beginning of the string. -/
theorem mixBlocks_take (h : Hash) (hk : 16 * k ≤ n) :
    mixBlocks k h (key.take n) = mixBlocks k h key := by
  induction k generalizing h key n with
  | zero => rfl
  | succ k ih =>
    rw [mixBlocks, mixBlocks, List.take_take, Nat.min_eq_left (by omega), List.drop_take,
      ih _ (by omega)]

/-- The loop over the blocks of sixteen bytes. -/
theorem block_loop (h : Hash) (hn : 16 * n ≤ key.length) :
    whileLoop (fun _ => .diverged) (fun st => .ok (decide (st.1 < (n : ℤ)))) (block key)
      (key.length + 1) (0, h) = .ok ((n : ℤ), mixBlocks n h key) := by
  obtain ⟨st, hrun, rfl⟩ : ∃ st, whileLoop (fun _ => .diverged)
      (fun st => .ok (decide (st.1 < (n : ℤ)))) (block key) (key.length + 1) (0, h) = .ok st ∧
        st = ((n : ℤ), mixBlocks n h key) := by
    -- `m` blocks are left, and they lead to the result
    refine whileLoop_spec (I := fun m (st : ℤ × Hash) => ∃ i : ℕ, i + m = n ∧ st.1 = (i : ℤ) ∧
      mixBlocks m st.2 (key.drop (16 * i)) = mixBlocks n h key) ?_ (fun _ _ _ => ⟨_, rfl⟩) ?_
      ⟨0, Nat.zero_add n, rfl, rfl⟩ (by omega)
    · rintro m ⟨_, g⟩ ⟨i, hi, rfl, hg⟩ hexit
      have hlast : ¬(i : ℤ) < n := of_decide_eq_false (Except.ok.inj hexit)
      obtain rfl : m = 0 := by omega
      obtain rfl : i = n := by omega
      exact Prod.ext rfl hg
    · rintro m ⟨_, g⟩ ⟨i, hi, rfl, hg⟩ hon
      have hlt : (i : ℤ) < n := of_decide_eq_true (Except.ok.inj hon)
      obtain ⟨m, rfl⟩ : ∃ m', m = m' + 1 := ⟨m - 1, by omega⟩
      refine ⟨_, m, block_eq g (by omega), Nat.lt_succ_self m, i + 1, by omega, rfl, ?_⟩
      rw [mixBlocks, List.drop_drop] at hg
      exact hg
  exact hrun

/-! ## The tail -/

/-- A byte that is missing is zero, and would not change the word. -/
theorem addByte_eq (hlen : i + n ≤ key.length) (shift : ℕ) (w : Word) :
    addByte key i n j shift w =
      .ok (w ^^^ (((key.drop i).take n).getD j 0).setWidth 64 <<< shift) := by
  rw [addByte]
  split_ifs with hj
  · have hlt : j < n := by omega
    rw [← Nat.cast_add, read_ok (by omega) 0, ok_bind, getD_part hlt]
  · rw [List.getD_eq_getElem?_getD, List.getElem?_eq_none (by rw [List.length_take]; omega)]
    simp

/-- The order in which the cases of the `switch` fall through. -/
theorem xor_reverse (x0 x1 x2 x3 x4 x5 x6 x7 : Word) :
    x0 ^^^ (x1 ^^^ (x2 ^^^ (x3 ^^^ (x4 ^^^ (x5 ^^^ (x6 ^^^ x7)))))) =
      x7 ^^^ x6 ^^^ x5 ^^^ x4 ^^^ x3 ^^^ x2 ^^^ x1 ^^^ x0 := by
  ac_rfl

/-- The bytes of a word, in the order of the cases. -/
theorem fromBytes_eight (b : ℕ → Byte) :
    Words.fromBytes 64 [b 0, b 1, b 2, b 3, b 4, b 5, b 6, b 7] =
      (0 : Word) ^^^ (b 7).setWidth 64 <<< 56 ^^^ (b 6).setWidth 64 <<< 48 ^^^
        (b 5).setWidth 64 <<< 40 ^^^ (b 4).setWidth 64 <<< 32 ^^^ (b 3).setWidth 64 <<< 24 ^^^
          (b 2).setWidth 64 <<< 16 ^^^ (b 1).setWidth 64 <<< 8 ^^^ (b 0).setWidth 64 <<< 0 := by
  simp only [Words.fromBytes_cons_eq_xor, Words.fromBytes_nil, BitVec.shiftLeft_xor_distrib,
    ← BitVec.shiftLeft_add, BitVec.ofNat_eq_ofNat, BitVec.zero_shiftLeft, BitVec.xor_zero,
    BitVec.zero_xor, BitVec.shiftLeft_zero, Nat.reduceAdd]
  exact xor_reverse _ _ _ _ _ _ _ _

/-- A part of the rest that is not there is zero, which changes nothing, -/
theorem mixK1_zero : mixK1 0 = 0 := by decide

/-- for either half. -/
theorem mixK2_zero : mixK2 0 = 0 := by decide

/-- The words of the bytes that are left, where the cases of the `switch` end. -/
theorem fromBytes_low (bs : List Byte) :
    Words.fromBytes 64 (bs.take 8) =
      (0 : Word) ^^^ (bs.getD 7 0).setWidth 64 <<< 56 ^^^ (bs.getD 6 0).setWidth 64 <<< 48 ^^^
        (bs.getD 5 0).setWidth 64 <<< 40 ^^^ (bs.getD 4 0).setWidth 64 <<< 32 ^^^
          (bs.getD 3 0).setWidth 64 <<< 24 ^^^ (bs.getD 2 0).setWidth 64 <<< 16 ^^^
            (bs.getD 1 0).setWidth 64 <<< 8 ^^^ (bs.getD 0 0).setWidth 64 <<< 0 := by
  rw [← fromBytes_eight fun i => bs.getD i 0]
  refine Words.fromBytes_congr fun j hj => ?_
  rw [List.getD_eq_getElem?_getD, List.getElem?_take_of_lt (by omega),
    ← List.getD_eq_getElem?_getD]
  match j, hj with
  | 0, _ | 1, _ | 2, _ | 3, _ | 4, _ | 5, _ | 6, _ | 7, _ => rfl
  | j + 8, hj => omega

/-- The second half of the rest, byte by byte. -/
theorem fromBytes_high (hlen : bs.length < 16) :
    Words.fromBytes 64 (bs.drop 8) =
      (0 : Word) ^^^ (bs.getD 14 0).setWidth 64 <<< 48 ^^^ (bs.getD 13 0).setWidth 64 <<< 40 ^^^
        (bs.getD 12 0).setWidth 64 <<< 32 ^^^ (bs.getD 11 0).setWidth 64 <<< 24 ^^^
          (bs.getD 10 0).setWidth 64 <<< 16 ^^^ (bs.getD 9 0).setWidth 64 <<< 8 ^^^
            (bs.getD 8 0).setWidth 64 <<< 0 := by
  have hlast : ((bs.drop 8).getD 7 0).setWidth 64 <<< 56 = (0 : Word) := by
    rw [List.getD_eq_getElem?_getD, List.getElem?_eq_none (by rw [List.length_drop]; omega)]
    rfl
  have hbyte (j : ℕ) : (bs.drop 8).getD j 0 = bs.getD (8 + j) 0 := by
    rw [List.getD_eq_getElem?_getD, List.getElem?_drop, ← List.getD_eq_getElem?_getD]
  have hlow := fromBytes_low (bs.drop 8)
  rw [List.take_of_length_le (by rw [List.length_drop]; omega), hlast, BitVec.ofNat_eq_ofNat,
    BitVec.xor_zero] at hlow
  rw [hbyte, hbyte, hbyte, hbyte, hbyte, hbyte, hbyte] at hlow
  exact hlow

/-- The `switch` on the number of bytes that are left. -/
theorem addTail_eq (h : Hash) (hn : n < 16) (hlen : i + n ≤ key.length) :
    addTail key i n h = .ok (mixTail h ((key.drop i).take n)) := by
  have hlength : ((key.drop i).take n).length = n := by
    rw [List.length_take, List.length_drop]
    omega
  rw [addTail]
  simp only [addByte_eq hlen, ok_bind]
  rw [← fromBytes_low, ← fromBytes_high (by omega), mixTail]
  -- a word without bytes does not change the hash
  have hhigh : (if (9 : ℤ) ≤ n then
      { h with h2 := h.h2 ^^^ mixK2 (Words.fromBytes 64 (((key.drop i).take n).drop 8)) } else h) =
        { h with h2 := h.h2 ^^^ mixK2 (Words.fromBytes 64 (((key.drop i).take n).drop 8)) } := by
    split_ifs with h9
    · rfl
    · rw [List.drop_of_length_le (by omega), Words.fromBytes_nil, mixK2_zero]
      exact congrArg (Hash.mk h.h1) BitVec.xor_zero.symm
  rw [hhigh]
  split_ifs with h1
  · rfl
  · rw [List.eq_nil_of_length_eq_zero (l := (key.drop i).take n) (by omega), List.take_nil,
      List.drop_nil, Words.fromBytes_nil, mixK1_zero, mixK2_zero]
    exact congrArg (fun x => Except.ok (Hash.mk x _)) BitVec.xor_zero.symm

/-! ## The function -/

/-- The first `n` bytes at `key` are hashed, if `n` is a value of an `int`. -/
theorem murmurHash_eq (seed : BitVec 32) (hn : n ≤ key.length) (hint : n < 2 ^ 31) :
    murmurHash seed key n = .ok (murmurHashOf seed (key.take n)) := by
  have hblocks : (n : ℤ).tdiv 16 = (n / 16 : ℕ) := by
    rw [Int.tdiv_eq_ediv_of_nonneg (Int.natCast_nonneg n)]
    rfl
  have htail : (n : ℤ) % 16 = (n % 16 : ℕ) := rfl
  have hstart : ((n / 16 : ℕ) : ℤ) * 16 = (16 * (n / 16) : ℕ) := by
    push_cast
    exact mul_comm _ _
  unfold murmurHash
  dsimp only
  rw [Signed.narrow_natCast (by omega), hblocks, block_loop _ (by omega), ok_bind, hstart, htail,
    addTail_eq _ (Nat.mod_lt n (by decide)) (by omega), ok_bind, murmurHashOf,
    List.length_take_of_le hn, mixBlocks_take _ (by omega), List.drop_take,
    show n - 16 * (n / 16) = n % 16 by omega]

/-- The bytes of `this is a test line`. -/
example : murmurHashOf 0 [116, 104, 105, 115, 32, 105, 115, 32, 97, 32, 116, 101, 115, 116, 32, 108,
    105, 110, 101] = ⟨0x097eec3aaefa7332, 0xe0d14cf2d59d26c3⟩ := by
  decide +kernel

end CppLearn.MurmurHash

import CppLearn.Crc32.Defs
import Mathlib.Tactic.SplitIfs

/-!
# The table and the loops of `crc32.cc`

The entries of the table are the shifts of the bytes, so `DO1` adds the bits of a byte to the check.
The two loops take each byte of the string once.

`stateAt` is the register after some bytes of the string. The table is `crcTable_eq`, and
`do1_stateAt` and `do8_stateAt` are one byte and eight bytes of the loops, so that the function
computes the check that is defined bit by bit (`crc32_eq_crc32Bits`). The check of a part can be
given as the seed for the next one (`crc32_append`).
-/

namespace CppLearn.Crc32

open BoundedLoop CheckedVector Signed

variable {seed : BitVec 32} {key : List (BitVec 8)} {len : ℤ} {i n : ℕ}

/-! ## The table -/

/-- The entries are the shifts of the bytes. -/
theorem crcTable_eq : crcTable =
    (List.range (2 ^ 8)).map fun i => (ReflectedCrc.shift poly)^[8] (BitVec.ofNat 32 i) := by
  decide +kernel

/-- An entry of the table is eight steps of the register. -/
theorem crcTable_getD (hi : i < 2 ^ 8) :
    crcTable.getD i 0 = (ReflectedCrc.shift poly)^[8] (BitVec.ofNat 32 i) := by
  rw [crcTable_eq, List.getD_eq_getElem?_getD, List.getElem?_map, List.getElem?_range hi]
  rfl

/-- It has one entry for each byte. -/
theorem length_crcTable : crcTable.length = 2 ^ 8 := by
  rw [crcTable_eq, List.length_map, List.length_range]

/-- The register after a byte. -/
theorem register_byte (crc : BitVec 32) (byte : BitVec 8) :
    ReflectedCrc.register poly crc (ReflectedCrc.lowBits 8 byte) =
      crcTable.getD ((crc ^^^ byte.setWidth 32) &&& 0xff).toNat 0 ^^^ crc >>> 8 := by
  have hhigh : ∀ i, 8 ≤ i → (byte.setWidth 32).getLsbD i = false := fun i hi => by
    rw [BitVec.getLsbD_setWidth, BitVec.getLsbD_of_ge byte i hi, Bool.and_false]
  rw [← ReflectedCrc.lowBits_setWidth (w := 32) (by decide) byte,
    ReflectedCrc.register_lowBits_table poly crc (fun _ => crcTable_getD) hhigh]
  rfl

/-- One more byte. -/
theorem registerOf_concat (seed : BitVec 32) (data : List (BitVec 8)) (byte : BitVec 8) :
    registerOf seed (data ++ [byte]) =
      ReflectedCrc.register poly (registerOf seed data) (ReflectedCrc.lowBits 8 byte) := by
  rw [registerOf, bits, List.flatMap_append, ReflectedCrc.register_append, List.flatMap_singleton]
  rfl

/-! ## Bytes -/

/-- The state after the first `i` bytes. -/
def stateAt (seed : BitVec 32) (key : List (BitVec 8)) (i : ℕ) (len : ℤ) : State :=
  ⟨i, len, registerOf seed (key.take i)⟩

/-- One byte. -/
theorem do1_stateAt (seed : BitVec 32) (len : ℤ) (hi : i < key.length) :
    do1 key (stateAt seed key i len) = .ok (stateAt seed key (i + 1) len) := by
  have hindex : ((registerOf seed (key.take i) ^^^ key[i].setWidth 32) &&& 0xff).toNat <
      crcTable.length := by
    rw [length_crcTable]
    exact ReflectedCrc.and_lowMask_lt 8 _
  rw [do1, stateAt]
  dsimp only
  rw [read_eq hi, ok_bind, read_ok hindex 0, ok_bind, ← register_byte, ← registerOf_concat,
    ← List.take_succ_eq_append_getElem hi]
  rfl

/-- The macros take two bytes, -/
theorem do2_stateAt (hi : i + 1 < key.length) :
    do2 key (stateAt seed key i len) = .ok (stateAt seed key (i + 2) len) := by
  rw [do2, do1_stateAt _ _ (by omega), ok_bind, do1_stateAt _ _ hi]

/-- four, -/
theorem do4_stateAt (hi : i + 3 < key.length) :
    do4 key (stateAt seed key i len) = .ok (stateAt seed key (i + 4) len) := by
  rw [do4, do2_stateAt (by omega), ok_bind, do2_stateAt (by omega)]

/-- and eight. -/
theorem do8_stateAt (hi : i + 7 < key.length) :
    do8 key (stateAt seed key i len) = .ok (stateAt seed key (i + 8) len) := by
  rw [do8, do4_stateAt (by omega), ok_bind, do4_stateAt (by omega)]

/-! ## The loops -/

/-- The first loop takes the bytes eight by eight. -/
theorem eightBytes_loop (seed : BitVec 32) (hn : n ≤ key.length) :
    ∃ st, whileLoop (fun _ => .diverged) (fun st => .ok (decide (8 ≤ st.len))) (eightBytes key)
        (key.length + 1) (stateAt seed key 0 n) = .ok st ∧
      ∃ i ≤ n, st = stateAt seed key i (n - i : ℕ) := by
  -- `m` bytes are left
  refine whileLoop_spec (I := fun m st => ∃ i, i + m = n ∧ st = stateAt seed key i (m : ℕ))
    ?_ (fun _ _ _ => ⟨_, rfl⟩) ?_ ⟨0, Nat.zero_add n, rfl⟩ (by omega)
  · rintro m _ ⟨i, hi, rfl⟩ -
    exact ⟨i, by omega, by rw [show n - i = m by omega]⟩
  · rintro m _ ⟨i, hi, rfl⟩ hcond
    have hm : (8 : ℤ) ≤ m := of_decide_eq_true (Except.ok.inj hcond)
    refine ⟨stateAt seed key (i + 8) (m - 8 : ℕ), m - 8, ?_, by omega, i + 8, by omega, rfl⟩
    rw [eightBytes, do8_stateAt (by omega), ok_bind, stateAt, stateAt,
      Nat.cast_sub (show 8 ≤ m by omega)]
    rfl

/-- The second loop takes the bytes that are left. -/
theorem oneByte_loop (seed : BitVec 32) (hi : i + n ≤ key.length) (hn : n < 2 ^ 31) :
    iterate (fun _ => .diverged) (oneByte key) (key.length + 1) (stateAt seed key i (n : ℕ)) =
      .ok (registerOf seed (key.take (i + n))) := by
  obtain ⟨crc, hrun, rfl⟩ : ∃ crc, iterate (fun _ => .diverged) (oneByte key) (key.length + 1)
      (stateAt seed key i (n : ℕ)) = .ok crc ∧ crc = registerOf seed (key.take (i + n)) := by
    -- `m` bytes are left, so `len` is a number that fits
    refine iterate_spec (I := fun m st => ∃ j, j + m = i + n ∧ m ≤ n ∧
      st = stateAt seed key j (m : ℕ)) ?_ ⟨i, rfl, le_rfl, rfl⟩ (by omega)
    rintro m _ ⟨j, hj, hm, rfl⟩
    cases m with
    | zero =>
      refine .inl ⟨_, if_pos rfl, ?_⟩
      rw [← hj]
      rfl
    | succ m =>
      refine .inr ⟨stateAt seed key (j + 1) (m : ℕ), m, ?_, Nat.lt_succ_self m, j + 1, by omega,
        by omega, rfl⟩
      have hlen : narrow 32 (((m + 1 : ℕ) : ℤ) - 1) = (m : ℕ) := by
        rw [Nat.cast_succ, add_sub_cancel_right, narrow_natCast (by omega)]
      have hbyte := do1_stateAt seed m (show j < key.length by omega)
      rw [oneByte, if_neg (by rw [stateAt]; dsimp only; omega)]
      simp only [stateAt] at hbyte ⊢
      rw [hlen, hbyte, ok_bind]
  exact hrun

/-- The first `n` bytes at `key`. -/
theorem crc32_eq (hn : n ≤ key.length) (hmax : n < 2 ^ 31) :
    crc32 seed key n = .ok (crc32Bits seed (key.take n)) := by
  obtain ⟨_, hfirst, i, hi, rfl⟩ := eightBytes_loop seed hn
  have hsecond : iterate (fun _ => .diverged) (oneByte key) (key.length + 1)
      (stateAt seed key i (n - i : ℕ)) = .ok (registerOf seed (key.take (i + (n - i)))) :=
    oneByte_loop seed (by omega) (by omega)
  rw [Nat.add_sub_of_le hi] at hsecond
  exact bind_eq_ok.2 ⟨_, hfirst, bind_eq_ok.2 ⟨_, hsecond, rfl⟩⟩

/-- All bytes at `key`. -/
theorem crc32_length (seed : BitVec 32) (key : List (BitVec 8)) (hlen : key.length < 2 ^ 31) :
    crc32 seed key key.length = .ok (crc32Bits seed key) := by
  rw [crc32_eq le_rfl hlen, List.take_length]

/-- The check of a string, whatever the bytes behind it, is the reflected check, bit by bit. -/
theorem crc32_eq_crc32Bits (seed : BitVec 32) (data rest : List (BitVec 8))
    (hlen : data.length < 2 ^ 31) :
    crc32 seed (data ++ rest) data.length = .ok (crc32Bits seed data) := by
  have hle : data.length ≤ (data ++ rest).length := by
    rw [List.length_append]
    exact Nat.le_add_right _ _
  rw [crc32_eq hle hlen, List.take_left]

/-- A line of fourteen characters, with any seed. -/
theorem crc32_eq_crc32Bits_line :
    crc32 7621 [116, 104, 105, 115, 32, 105, 115, 32, 97, 32, 116, 101, 115, 116, 0] (14 : ℕ) =
      .ok (crc32Bits 7621 [116, 104, 105, 115, 32, 105, 115, 32, 97, 32, 116, 101, 115, 116]) :=
  crc32_eq_crc32Bits 7621 [116, 104, 105, 115, 32, 105, 115, 32, 97, 32, 116, 101, 115, 116] [0]
    (by decide)

/-! ## Parts of a string -/

/-- The check of a part as the seed of the next one. -/
theorem crc32Bits_append (seed : BitVec 32) (data data' : List (BitVec 8)) :
    crc32Bits seed (data ++ data') = crc32Bits (crc32Bits seed data) data' := by
  -- the two inversions in between cancel out
  have hseed : crc32Bits seed data ^^^ 0xffffffff = registerOf seed data := by
    rw [crc32Bits, BitVec.xor_assoc, BitVec.xor_self, BitVec.xor_zero]
  rw [crc32Bits, crc32Bits, registerOf, bits, List.flatMap_append, ReflectedCrc.register_append,
    registerOf, hseed]
  rfl

/-- The check of a string is the check of its second part, with the check of the first part as the
seed, wherever the string is cut. -/
theorem crc32_append (seed : BitVec 32) (data data' : List (BitVec 8))
    (hlen : (data ++ data').length < 2 ^ 31) :
    ∃ crc crc', crc32 seed data data.length = .ok crc ∧ crc32 crc data' data'.length = .ok crc' ∧
      crc32 seed (data ++ data') (data ++ data').length = .ok crc' := by
  have hsum : data.length + data'.length < 2 ^ 31 := by rwa [List.length_append] at hlen
  have hfirst := crc32_length seed data (by omega)
  have hsecond := crc32_length (crc32Bits seed data) data' (by omega)
  have hboth := crc32_length seed (data ++ data') hlen
  rw [crc32Bits_append] at hboth
  exact ⟨_, _, hfirst, hsecond, hboth⟩

/-- The first loop takes eight of the nine bytes, but none of the parts of five and four bytes. -/
theorem crc32_append_digits :
    ∃ crc crc', crc32 7621 [49, 50, 51, 52, 53] (5 : ℕ) = .ok crc ∧
      crc32 crc [54, 55, 56, 57] (4 : ℕ) = .ok crc' ∧
      crc32 7621 [49, 50, 51, 52, 53, 54, 55, 56, 57] (9 : ℕ) = .ok crc' :=
  crc32_append 7621 [49, 50, 51, 52, 53] [54, 55, 56, 57] (by decide)

end CppLearn.Crc32

import CppLearn.Crc32.Correctness
import CppLearn.Lib.Windows
import CppLearn.Lib.Words

/-!
# What the check detects

The check is meant to find errors in data that is stored or sent. An error that affects at most 32
consecutive bits always changes it. On the other hand, it is no protection against changes that are
made on purpose: four bytes are enough to bring any data to any check.

`DiffersWithin` says that the bits in which two strings differ are close together.
`crc32_ne_of_burst` is about such errors, and `existsUnique_crc32_suffix` about the four bytes.
-/

namespace CppLearn.Crc32

variable {seed : BitVec 32} {data data' : List (BitVec 8)}

/-- The bits in which the strings differ are among `n` consecutive ones. -/
def DiffersWithin (n : ℕ) (data data' : List (BitVec 8)) : Prop :=
  ∃ k, Windows.DiffersIn k n (bits data) (bits data')

/-- The polynomial has a constant term, which is the highest bit of the reflected word. -/
theorem poly_high : poly.getLsbD (32 - 1) = true := by decide

/-! ## Bits of strings -/

/-- The bits of a message, byte by byte, -/
theorem bits_cons (byte : BitVec 8) (data : List (BitVec 8)) :
    bits (byte :: data) = ReflectedCrc.lowBits 8 byte ++ bits data := List.flatMap_cons

/-- eight of each, -/
theorem length_lowBits (byte : BitVec 8) : (ReflectedCrc.lowBits 8 byte).length = 8 := by
  rw [ReflectedCrc.lowBits, List.length_map, List.length_range]

/-- and all together. -/
theorem length_bits (data : List (BitVec 8)) : (bits data).length = 8 * data.length := by
  induction data with
  | nil => rfl
  | cons byte data ih =>
    rw [bits_cons, List.length_append, length_lowBits, ih, List.length_cons]
    omega

/-- Bits determine their byte, -/
theorem lowBits_injective : Function.Injective (ReflectedCrc.lowBits 8 (v := 8)) := by
  intro x y h
  refine BitVec.eq_of_getLsbD_eq fun i hi => ?_
  have hbit := List.map_inj_left.1 h i (List.mem_range.2 hi)
  exact hbit

/-- and their message. -/
theorem bits_injective : Function.Injective bits := by
  intro data data' h
  induction data generalizing data' with
  | nil =>
    have hlen := congrArg List.length h
    rw [length_bits, length_bits, List.length_nil] at hlen
    exact (List.eq_nil_of_length_eq_zero (by omega)).symm
  | cons byte data ih =>
    cases data' with
    | nil =>
      have hlen := congrArg List.length h
      rw [length_bits, length_bits, List.length_nil, List.length_cons] at hlen
      omega
    | cons byte' data' =>
      rw [bits_cons, bits_cons] at h
      have hlen : (ReflectedCrc.lowBits 8 byte).length = (ReflectedCrc.lowBits 8 byte').length := by
        rw [length_lowBits, length_lowBits]
      obtain ⟨hbyte, hdata⟩ := List.append_inj h hlen
      rw [lowBits_injective hbyte, ih hdata]

/-! ## Bursts -/

/-- For strings of one length that an `int` can hold: if they differ, but only among 32 consecutive
bits, their checks are different, with any seed. -/
theorem crc32_ne_of_burst (seed : BitVec 32) (data data' : List (BitVec 8))
    (hlen : data'.length = data.length) (hmax : data.length < 2 ^ 31) (hne : data ≠ data')
    (hburst : DiffersWithin 32 data data') :
    ∃ crc crc', crc32 seed data data.length = .ok crc ∧
      crc32 seed data' data'.length = .ok crc' ∧ crc ≠ crc' := by
  refine ⟨_, _, crc32_length seed data hmax, crc32_length seed data' (by omega), fun h => ?_⟩
  obtain ⟨k, hk⟩ := hburst
  have hbits : (bits data').length = (bits data).length := by rw [length_bits, length_bits, hlen]
  obtain ⟨pre, mid, mid', post, hdata, hdata', hmid, hle, -, -⟩ := hk.exists_cut hbits
  have hdiff : mid ≠ mid' := by
    rintro rfl
    exact hne (bits_injective (hdata.trans hdata'.symm))
  have hregister := (BitVec.xor_left_inj _).1 h
  rw [registerOf, registerOf, hdata, hdata'] at hregister
  exact ReflectedCrc.register_ne_of_burst poly_high _ hmid hle hdiff pre post hregister

/-- The bytes `0x31` and `0x32` at the end of a string. -/
theorem crc32_ne_of_burst_digits :
    ∃ crc crc', crc32 0 [97, 49] (2 : ℕ) = .ok crc ∧ crc32 0 [97, 50] (2 : ℕ) = .ok crc' ∧
      crc ≠ crc' :=
  crc32_ne_of_burst 0 [97, 49] [97, 50] rfl (by decide) (by decide)
    ⟨0, fun i hi => ⟨Nat.zero_le i, by
      by_contra hge
      rw [List.getElem?_eq_none (by rw [length_bits, List.length_cons]; simp; omega),
        List.getElem?_eq_none (by rw [length_bits, List.length_cons]; simp; omega)] at hi
      exact hi rfl⟩⟩

/-! ## Four bytes -/

/-- The bits of a number. -/
theorem bits_toBytes (n : ℕ) (x : BitVec 32) :
    bits (Words.toBytes n x) = ReflectedCrc.lowBits (8 * n) x := by
  induction n generalizing x with
  | zero => rfl
  | succ n ih =>
    rw [Words.toBytes, bits_cons, ih, ReflectedCrc.lowBits_setWidth le_rfl, Nat.mul_succ,
      Nat.add_comm, ReflectedCrc.lowBits_add]

/-- A message with a suffix. -/
theorem registerOf_append (seed : BitVec 32) (data suffix : List (BitVec 8)) :
    registerOf seed (data ++ suffix) =
      ReflectedCrc.register poly (registerOf seed data) (bits suffix) := by
  rw [registerOf, bits, List.flatMap_append, ReflectedCrc.register_append]
  rfl

/-- For every string, seed and check, there are exactly four bytes that lead to the check if they
are appended to the string. -/
theorem existsUnique_crc32_suffix (seed crc : BitVec 32) (data : List (BitVec 8))
    (hmax : data.length + 4 < 2 ^ 31) :
    ∃! suffix : List (BitVec 8),
      suffix.length = 4 ∧ crc32 seed (data ++ suffix) (data ++ suffix).length = .ok crc := by
  have hcrc {suffix : List (BitVec 8)} (hlen : suffix.length = 4) :
      crc32 seed (data ++ suffix) (data ++ suffix).length = .ok crc ↔
        ReflectedCrc.register poly (registerOf seed data) (bits suffix) = crc ^^^ 0xffffffff := by
    rw [crc32_length seed _ (by rw [List.length_append]; omega), Except.ok.injEq, crc32Bits,
      registerOf_append]
    constructor
    · rintro rfl
      rw [BitVec.xor_assoc, BitVec.xor_self, BitVec.xor_zero]
    · intro h
      rw [h, BitVec.xor_assoc, BitVec.xor_self, BitVec.xor_zero]
  obtain ⟨x, hx, hunique⟩ := ReflectedCrc.existsUnique_register poly_high (registerOf seed data)
    (crc ^^^ 0xffffffff)
  have hlength := Words.length_toBytes 4 x
  refine ⟨Words.toBytes 4 x, ⟨hlength, (hcrc hlength).2 (by rw [bits_toBytes, hx])⟩, ?_⟩
  rintro suffix ⟨hlen, hok⟩
  -- the bits of four bytes are those of a word
  have hbits : (bits suffix).length = 32 := by rw [length_bits, hlen]
  obtain ⟨y, hy, -⟩ := ReflectedCrc.exists_word hbits.le
  rw [hbits] at hy
  have hreg := (hcrc hlen).1 hok
  rw [hy] at hreg
  refine bits_injective ?_
  rw [hy, bits_toBytes, hunique y hreg]

/-- The four bytes behind the nine digits of `123456789` for the check `0xdeadbeef`. -/
theorem existsUnique_crc32_suffix_nine :
    ∃! suffix : List (BitVec 8), suffix.length = 4 ∧
      crc32 0x2a ([49, 50, 51, 52, 53, 54, 55, 56, 57] ++ suffix)
        ([49, 50, 51, 52, 53, 54, 55, 56, 57] ++ suffix).length = .ok 0xdeadbeef :=
  existsUnique_crc32_suffix 0x2a 0xdeadbeef [49, 50, 51, 52, 53, 54, 55, 56, 57] (by decide)

end CppLearn.Crc32

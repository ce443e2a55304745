import Mathlib.Data.Bool.Basic
import Mathlib.Tactic.Common

/-!
# The puzzles of `bits.c`

The puzzles that are solved, with the functions of `tests.c` that say what they should return. The
machine is the one of the instructions: integers have 32 bits and wrap around, and a shift to the
right is arithmetic. The puzzles that are not solved, which return `2`, are left out.

There is one definition for each function of `bits.c` and of `tests.c`, one inductive type for the
puzzles, and one theorem, `puzzles_agree`, for all arguments of all of them.
-/

namespace CppLearn.DataLab

/-- `int`. -/
abbrev Word := BitVec 32

/-- `!x`. -/
def lnot (x : Word) : Word := if x = 0 then 1 else 0

/-- `x >> n`. -/
def sar (x : Word) (n : ℕ) : Word := x.sshiftRight n

/-- A comparison, as an `int`. -/
def ofBool (b : Bool) : Word := if b then 1 else 0

/-! ## `bits.c` -/

namespace Puzzle

def bitXor (x y : Word) : Word := ~~~(~~~(x &&& ~~~y) &&& ~~~(~~~x &&& y))

def tmin : Word := (0x80 : Word) <<< 24

def isTmax (x : Word) : Word := lnot (lnot ((x + 1) ^^^ 0)) &&& lnot ((x + 1) ^^^ ~~~x)

def allOddBits (x : Word) : Word :=
  let val := (0xaa : Word) <<< 24 ||| (0xaa : Word) <<< 16 ||| (0xaa : Word) <<< 8 ||| 0xaa
  lnot ((x &&& val) ^^^ val)

def negate (x : Word) : Word := ~~~x + 1

def isAsciiDigit (x : Word) : Word :=
  lnot (sar x 31 &&& 1) &&& (sar ((0x2f : Word) + (~~~x + 1)) 31 &&& 1) &&&
    (sar (x + (~~~(0x3a : Word) + 1)) 31 &&& 1)

def conditional (x y z : Word) : Word :=
  let v := ~~~lnot (lnot x) + 1
  (v &&& y) ||| (~~~v &&& z)

def isLessOrEqual (x y : Word) : Word :=
  let a := lnot ((sar (~~~x) 31 &&& 1) &&& (sar y 31 &&& 1))
  let b := (sar x 31 &&& 1) &&& (sar (~~~y) 31 &&& 1)
  let val := x + ~~~y + 1
  let c := (sar val 31 &&& 1) ||| lnot val
  a &&& (b ||| c)

/-- The variable `t` is unsigned. -/
def logicalNeg (x : Word) : Word :=
  let t := sar (~~~(sar (~~~x + 1) 31 <<< 31 ||| x)) 31 <<< 31
  t >>> 31

end Puzzle

/-! ## `tests.c` -/

namespace Test

def bitXor (x y : Word) : Word := x ^^^ y

def tmin : Word := 0x80000000

def isTmax (x : Word) : Word := ofBool (x = 0x7FFFFFFF)

def allOddBits (x : Word) : Word :=
  if (List.range 16).any fun k => x &&& (1 : Word) <<< (2 * k + 1) = 0 then 0 else 1

def negate (x : Word) : Word := -x

def isAsciiDigit (x : Word) : Word := ofBool ((0x30 : Word).sle x && x.sle 0x39)

def conditional (x y z : Word) : Word := if x ≠ 0 then y else z

def isLessOrEqual (x y : Word) : Word := ofBool (x.sle y)

def logicalNeg (x : Word) : Word := lnot x

end Test

/-! ## Truth values -/

variable {x y : Word} {b c : Bool}

/-- `!` on truth values, and below `&` and `|`. -/
@[simp] theorem lnot_ofBool (b : Bool) : lnot (ofBool b) = ofBool (!b) := by
  cases b <;> rfl

/-- `&` on truth values. -/
@[simp] theorem ofBool_and (b c : Bool) : ofBool b &&& ofBool c = ofBool (b && c) := by
  cases b <;> cases c <;> rfl

/-- `|` on truth values. -/
@[simp] theorem ofBool_or (b c : Bool) : ofBool b ||| ofBool c = ofBool (b || c) := by
  cases b <;> cases c <;> rfl

/-- `!` compares with zero. -/
theorem lnot_eq (x : Word) : lnot x = ofBool (x = 0) := by
  simp [lnot, ofBool]

/-- `!(x ^ y)` compares two numbers. -/
theorem lnot_xor (x y : Word) : lnot (x ^^^ y) = ofBool (x = y) := by
  rw [lnot_eq, ofBool, ofBool]
  simp only [decide_eq_true_eq]
  exact if_congr BitVec.xor_eq_zero_iff rfl rfl

/-- Subtraction by two's complement. -/
theorem sub_eq (x y : Word) : x + ~~~y + 1 = x - y := by
  rw [BitVec.sub_eq_add_neg, BitVec.neg_eq_not_add, BitVec.add_assoc]
  rfl

/-! ## Signs -/

/-- The sign is copied into all bits. -/
theorem sar_31 (x : Word) : sar x 31 = if x.msb then BitVec.allOnes 32 else 0 := by
  refine BitVec.eq_of_getLsbD_eq fun i hi => ?_
  have hsign : (if 31 + i < 32 then x.getLsbD (31 + i) else x.msb) = x.msb := by
    split_ifs with h
    · obtain rfl : i = 0 := by omega
      rw [BitVec.msb_eq_getLsbD_last]
    · rfl
  rw [sar, BitVec.getLsbD_sshiftRight, hsign, decide_eq_false (Nat.not_le_of_lt hi)]
  cases x.msb with
  | false => simp
  | true => rw [if_pos rfl, BitVec.getLsbD_allOnes, decide_eq_true hi]; rfl

/-- The sign as a truth value, with the operators that the puzzles allow. -/
@[simp] theorem sar_31_and_one (x : Word) : sar x 31 &&& 1 = ofBool x.msb := by
  rw [sar_31]
  cases x.msb <;> rfl

/-- The same by shifting the sign to the left and back. -/
theorem sar_31_shiftLeft_ushiftRight (x : Word) : sar x 31 <<< 31 >>> 31 = ofBool x.msb := by
  rw [sar_31]
  cases x.msb <;> rfl

/-- Shifting to the left alone leaves the sign where it is. -/
theorem msb_sar_31_shiftLeft (x : Word) : (sar x 31 <<< 31).msb = x.msb := by
  rw [sar_31]
  cases x.msb <;> rfl

/-- The complement has the other sign. -/
theorem msb_not (x : Word) : (~~~x).msb = !x.msb := by
  simp

/-- A number is zero if neither it nor its negation is negative. -/
theorem eq_zero_iff_msb (x : Word) : (!((-x).msb || x.msb)) = decide (x = 0) := by
  rw [BitVec.msb_eq_decide, BitVec.msb_eq_decide]
  simp only [BitVec.toNat_eq, BitVec.toNat_neg]
  have hx := x.isLt
  grind

/-- Numbers that are not negative are compared by a difference. -/
theorem msb_between (x : Word) : (!x.msb && (0x2f - x : Word).msb && (x - 0x3a : Word).msb) =
    ((0x30 : Word).sle x && x.sle 0x39) := by
  rw [BitVec.sle_eq_ule, BitVec.sle_eq_ule, BitVec.msb_eq_decide, BitVec.msb_eq_decide,
    BitVec.msb_eq_decide, BitVec.ule, BitVec.ule]
  simp only [BitVec.toNat_sub]
  have hx := x.isLt
  grind

/-- If the signs are different, the difference can be too large, so they decide. -/
theorem msb_sle (x y : Word) : (!(!x.msb && y.msb) &&
    (x.msb && !y.msb || ((x - y).msb || decide (x - y = 0)))) = x.sle y := by
  rw [BitVec.sle_eq_ule, BitVec.msb_eq_decide, BitVec.msb_eq_decide, BitVec.msb_eq_decide,
    BitVec.ule]
  simp only [BitVec.toNat_sub, BitVec.toNat_eq]
  have hx := x.isLt
  have hy := y.isLt
  grind

/-! ## The puzzles -/

/-- Bit by bit, `^` is made of `~` and `&`. -/
theorem bitXor_agrees (x y : Word) : Puzzle.bitXor x y = Test.bitXor x y := by
  refine BitVec.eq_of_getLsbD_eq fun i hi => ?_
  simp only [Puzzle.bitXor, Test.bitXor, BitVec.getLsbD_not, BitVec.getLsbD_and,
    BitVec.getLsbD_xor, hi]
  cases x.getLsbD i <;> cases y.getLsbD i <;> rfl

/-- The successor is the complement for two numbers. -/
theorem isTmax_agrees (x : Word) : Puzzle.isTmax x = Test.isTmax x := by
  have hcases : (!decide (x + 1 = 0) && decide (x + 1 = ~~~x)) = decide (x = 0x7FFFFFFF) := by
    simp only [BitVec.toNat_eq, BitVec.toNat_add, BitVec.toNat_not]
    have hx := x.isLt
    grind
  rw [Puzzle.isTmax, Test.isTmax, ← hcases, lnot_xor (x + 1) 0, lnot_xor (x + 1) (~~~x)]
  simp only [lnot_ofBool, ofBool_and]

/-- The test of one bit, as the loop of `test_allOddBits` makes it. -/
theorem and_shiftLeft_eq_zero {i : ℕ} (hi : i < 32) :
    x &&& (1 : Word) <<< i = 0 ↔ x.getLsbD i = false := by
  have hne : BitVec.twoPow 32 i ≠ 0 := fun h => by
    have hbit := congrArg (BitVec.getLsbD · i) h
    simp [hi] at hbit
  have hpow : (1 : Word) <<< i = BitVec.twoPow 32 i := (BitVec.twoPow_eq ..).symm
  rw [hpow, BitVec.and_twoPow]
  cases x.getLsbD i with
  | false => exact iff_of_true rfl rfl
  | true => exact iff_of_false hne (Ne.symm Bool.false_ne_true)

/-- The mask is put together from one byte, and compared as a whole. -/
theorem allOddBits_agrees (x : Word) : Puzzle.allOddBits x = Test.allOddBits x := by
  have hval : (0xaa : Word) <<< 24 ||| (0xaa : Word) <<< 16 ||| (0xaa : Word) <<< 8 ||| 0xaa =
      0xaaaaaaaa := by decide
  have hbits : ∀ i < 32, (0xaaaaaaaa : Word).getLsbD i = decide (i % 2 = 1) := by decide
  -- the bits of the constant are the odd ones
  have hall : x &&& 0xaaaaaaaa = 0xaaaaaaaa ↔ ∀ k < 16, x.getLsbD (2 * k + 1) = true := by
    constructor
    · intro h k hk
      have hbit := congrArg (BitVec.getLsbD · (2 * k + 1)) h
      simp only [BitVec.getLsbD_and, hbits _ (show 2 * k + 1 < 32 by omega)] at hbit
      rw [decide_eq_true (show (2 * k + 1) % 2 = 1 by omega), Bool.and_true] at hbit
      exact hbit
    · intro h
      refine BitVec.eq_of_getLsbD_eq fun i hi => ?_
      rw [BitVec.getLsbD_and, hbits i hi]
      by_cases hodd : i % 2 = 1
      · rw [show i = 2 * (i / 2) + 1 by omega, h (i / 2) (by omega), Bool.true_and]
      · rw [decide_eq_false hodd, Bool.and_false]
  have hany : ((List.range 16).any fun k => x &&& (1 : Word) <<< (2 * k + 1) = 0) = true ↔
      ¬∀ k < 16, x.getLsbD (2 * k + 1) = true := by
    rw [List.any_eq_true]
    constructor
    · rintro ⟨k, hk, hzero⟩ h
      have hlt := List.mem_range.1 hk
      have hbit := (and_shiftLeft_eq_zero (by omega)).1 (of_decide_eq_true hzero)
      exact Bool.false_ne_true (hbit.symm.trans (h k hlt))
    · intro h
      obtain ⟨k, hk⟩ := not_forall.1 h
      obtain ⟨hlt, hbit⟩ := Classical.not_imp.1 hk
      have hbound : 2 * k + 1 < 32 := by omega
      have hzero := (and_shiftLeft_eq_zero hbound).2 (Bool.eq_false_iff.2 hbit)
      exact ⟨k, List.mem_range.2 hlt, decide_eq_true hzero⟩
  rw [Puzzle.allOddBits, Test.allOddBits]
  simp only [hval]
  by_cases h : ∀ k < 16, x.getLsbD (2 * k + 1) = true
  · rw [if_neg (fun hzero => hany.1 hzero h), lnot_xor, decide_eq_true (hall.2 h)]
    rfl
  · rw [if_pos (hany.2 h), lnot_xor, decide_eq_false (mt hall.1 h)]
    rfl

/-- The negative number is the complement plus one. -/
theorem negate_agrees (x : Word) : Puzzle.negate x = Test.negate x :=
  (BitVec.neg_eq_not_add x).symm

/-- The digits are the range from `0x30` to `0x39`, by the signs of two differences. -/
theorem isAsciiDigit_agrees (x : Word) : Puzzle.isAsciiDigit x = Test.isAsciiDigit x := by
  have hneg : ∀ x : Word, ~~~x + 1 = -x := negate_agrees
  have hsub : ∀ x y : Word, x + -y = x - y := fun x y => (BitVec.sub_eq_add_neg x y).symm
  rw [Puzzle.isAsciiDigit, Test.isAsciiDigit, ← msb_between, hneg, hneg, hsub, hsub]
  simp only [sar_31_and_one, lnot_ofBool, ofBool_and]

/-- A mask of equal bits chooses between the two numbers. -/
theorem conditional_agrees (x y z : Word) : Puzzle.conditional x y z = Test.conditional x y z := by
  have hmask : ~~~lnot (lnot x) + 1 = if x = 0 then 0 else BitVec.allOnes 32 := by
    rw [lnot_eq x, lnot_ofBool]
    by_cases hx : x = 0
    · rw [decide_eq_true hx, if_pos hx]
      rfl
    · rw [decide_eq_false hx, if_neg hx]
      rfl
  rw [Puzzle.conditional, Test.conditional]
  simp only [hmask]
  by_cases hx : x = 0
  · rw [if_pos hx, if_neg (not_not.2 hx)]
    show (0#32 &&& y) ||| (~~~0#32 &&& z) = z
    rw [BitVec.zero_and, BitVec.not_zero, BitVec.allOnes_and, BitVec.zero_or]
  · rw [if_neg hx, if_pos hx, BitVec.allOnes_and, BitVec.not_allOnes, BitVec.zero_and,
      BitVec.or_zero]

/-- The sign of the difference decides, unless the signs of the numbers differ. -/
theorem isLessOrEqual_agrees (x y : Word) : Puzzle.isLessOrEqual x y = Test.isLessOrEqual x y := by
  rw [Puzzle.isLessOrEqual, Test.isLessOrEqual, ← msb_sle]
  simp only [sar_31_and_one, sub_eq, msb_not, lnot_eq (x - y), lnot_ofBool, ofBool_and, ofBool_or]

/-- Zero is the only number without the sign in `x` and in `-x`. -/
theorem logicalNeg_agrees (x : Word) : Puzzle.logicalNeg x = Test.logicalNeg x := by
  have hneg : ~~~x + 1 = -x := negate_agrees x
  rw [Puzzle.logicalNeg, Test.logicalNeg, lnot_eq, ← eq_zero_iff_msb, sar_31_shiftLeft_ushiftRight,
    msb_not, BitVec.msb_or, msb_sar_31_shiftLeft, hneg]

/-- Every puzzle that is solved returns what its test returns, for all arguments. -/
theorem puzzles_agree (x y z : Word) :
    Puzzle.bitXor x y = Test.bitXor x y ∧ Puzzle.tmin = Test.tmin ∧
      Puzzle.isTmax x = Test.isTmax x ∧ Puzzle.allOddBits x = Test.allOddBits x ∧
      Puzzle.negate x = Test.negate x ∧ Puzzle.isAsciiDigit x = Test.isAsciiDigit x ∧
      Puzzle.conditional x y z = Test.conditional x y z ∧
      Puzzle.isLessOrEqual x y = Test.isLessOrEqual x y ∧
      Puzzle.logicalNeg x = Test.logicalNeg x :=
  ⟨bitXor_agrees x y, rfl, isTmax_agrees x, allOddBits_agrees x, negate_agrees x,
    isAsciiDigit_agrees x, conditional_agrees x y z, isLessOrEqual_agrees x y, logicalNeg_agrees x⟩

end CppLearn.DataLab

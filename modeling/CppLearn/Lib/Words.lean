import Mathlib.Algebra.Ring.Parity
import Mathlib.Data.Nat.ModEq
import Mathlib.Data.Nat.Prime.Basic
import Mathlib.Tactic.Common

/-!
# Words and their bytes

A word as the list of its bytes, the least significant one first, and the operations from which
hash functions are built. Each of them can be undone, so that nothing is lost on the way.

`Words.fromBytes` and `Words.toBytes` are inverse to each other. The operations are
`Words.xorShift_injective`, `Words.mul_injective` and `Words.rotate_injective`.
-/

namespace Words

variable {w n : ℕ} {x : BitVec w} {bs : List (BitVec 8)}

/-- The word with the bytes of a list. -/
def fromBytes (w : ℕ) : List (BitVec 8) → BitVec w
  | [] => 0
  | b :: bs => b.setWidth w ||| fromBytes w bs <<< 8

@[simp] theorem fromBytes_nil : fromBytes w [] = 0 := rfl

/-- The low `n` bytes of a word. -/
def toBytes : ℕ → BitVec w → List (BitVec 8)
  | 0, _ => []
  | n + 1, x => x.setWidth 8 :: toBytes n (x >>> 8)

/-- The number of bytes. -/
@[simp] theorem length_toBytes (n : ℕ) (x : BitVec w) : (toBytes n x).length = n := by
  induction n generalizing x with
  | zero => rfl
  | succ n ih => rw [toBytes, List.length_cons, ih]

/-! ## Round trips -/

/-- The first byte has the lowest bits. -/
theorem getLsbD_fromBytes_cons {i : ℕ} (hi : i < w) (b : BitVec 8) (bs : List (BitVec 8)) :
    (fromBytes w (b :: bs)).getLsbD i =
      if i < 8 then b.getLsbD i else (fromBytes w bs).getLsbD (i - 8) := by
  rw [fromBytes, BitVec.getLsbD_or, BitVec.getLsbD_setWidth, BitVec.getLsbD_shiftLeft,
    decide_eq_true hi, Bool.true_and, Bool.true_and]
  split_ifs with h8
  · simp [h8]
  · rw [BitVec.getLsbD_of_ge b i (Nat.le_of_not_lt h8), decide_eq_false h8]
    simp

/-- Above its bytes, a word is zero. -/
theorem getLsbD_fromBytes_of_ge {i : ℕ} (hi : 8 * bs.length ≤ i) :
    (fromBytes w bs).getLsbD i = false := by
  induction bs generalizing i with
  | nil => simp [fromBytes]
  | cons b bs ih =>
    rw [List.length_cons] at hi
    rcases Nat.lt_or_ge i w with hlt | hge
    · rw [getLsbD_fromBytes_cons hlt, if_neg (by omega), ih (by omega)]
    · exact BitVec.getLsbD_of_ge _ _ hge

/-- The bytes are disjoint, so it does not matter how they are put together. -/
theorem fromBytes_cons_eq_xor (b : BitVec 8) (bs : List (BitVec 8)) :
    fromBytes w (b :: bs) = b.setWidth w ^^^ fromBytes w bs <<< 8 := by
  refine BitVec.eq_of_getLsbD_eq fun i hi => ?_
  rw [getLsbD_fromBytes_cons hi, BitVec.getLsbD_xor, BitVec.getLsbD_setWidth,
    BitVec.getLsbD_shiftLeft, decide_eq_true hi, Bool.true_and, Bool.true_and]
  split_ifs with h8
  · simp [h8]
  · rw [BitVec.getLsbD_of_ge b i (Nat.le_of_not_lt h8), decide_eq_false h8]
    simp

/-- Which byte a bit comes from. -/
theorem getLsbD_fromBytes {i : ℕ} (hi : i < w) :
    (fromBytes w bs).getLsbD i = (bs.getD (i / 8) 0).getLsbD (i % 8) := by
  induction bs generalizing i with
  | nil => simp [fromBytes]
  | cons b bs ih =>
    rw [getLsbD_fromBytes_cons hi]
    split_ifs with h8
    · rw [Nat.div_eq_of_lt h8, Nat.mod_eq_of_lt h8, List.getD_cons_zero]
    · rw [ih (by omega), show i / 8 = (i - 8) / 8 + 1 by omega, List.getD_cons_succ,
        show i % 8 = (i - 8) % 8 by omega]

/-- Bytes that are missing are zero, and bytes that have no place are dropped. -/
theorem fromBytes_congr {bs' : List (BitVec 8)}
    (h : ∀ i, 8 * i < w → bs.getD i 0 = bs'.getD i 0) : fromBytes w bs = fromBytes w bs' := by
  refine BitVec.eq_of_getLsbD_eq fun i hi => ?_
  rw [getLsbD_fromBytes hi, getLsbD_fromBytes hi, h (i / 8) (by omega)]

/-- A number is put together again from its bytes, if it has no more of them, -/
theorem fromBytes_toBytes (hx : ∀ i, 8 * n ≤ i → x.getLsbD i = false) :
    fromBytes w (toBytes n x) = x := by
  induction n generalizing x with
  | zero =>
    refine BitVec.eq_of_getLsbD_eq fun i _ => ?_
    rw [hx i (by omega)]
    exact BitVec.getLsbD_zero
  | succ n ih =>
    refine BitVec.eq_of_getLsbD_eq fun i hi => ?_
    rw [toBytes, getLsbD_fromBytes_cons hi, ih fun i hi => ?_]
    · split_ifs with h8
      · rw [BitVec.getLsbD_setWidth, decide_eq_true h8, Bool.true_and]
      · rw [BitVec.getLsbD_ushiftRight, Nat.add_sub_of_le (Nat.le_of_not_lt h8)]
    · rw [BitVec.getLsbD_ushiftRight]
      exact hx _ (by omega)

/-- and bytes are taken from the number that was made of them. -/
theorem toBytes_fromBytes (hlen : 8 * bs.length ≤ w) : toBytes bs.length (fromBytes w bs) = bs := by
  induction bs with
  | nil => rfl
  | cons b bs ih =>
    rw [List.length_cons] at hlen
    have hhead : (fromBytes w (b :: bs)).setWidth 8 = b := by
      refine BitVec.eq_of_getLsbD_eq fun i hi => ?_
      rw [BitVec.getLsbD_setWidth, decide_eq_true hi, Bool.true_and,
        getLsbD_fromBytes_cons (by omega), if_pos hi]
    have htail : fromBytes w (b :: bs) >>> 8 = fromBytes w bs := by
      refine BitVec.eq_of_getLsbD_eq fun i _ => ?_
      rw [BitVec.getLsbD_ushiftRight]
      rcases Nat.lt_or_ge (8 + i) w with hlt | hge
      · rw [getLsbD_fromBytes_cons hlt, if_neg (by omega), Nat.add_sub_cancel_left]
      · rw [BitVec.getLsbD_of_ge _ _ hge, getLsbD_fromBytes_of_ge (by omega)]
    rw [List.length_cons, toBytes, hhead, htail, ih (by omega)]

/-- So bytes are determined by their number. -/
theorem fromBytes_inj {bs' : List (BitVec 8)} (hlen : bs'.length = bs.length)
    (hle : 8 * bs.length ≤ w) (h : fromBytes w bs = fromBytes w bs') : bs = bs' := by
  rw [← toBytes_fromBytes hle, h, ← hlen, toBytes_fromBytes (hlen ▸ hle)]

/-! ## Operations -/

/-- From the top, each bit is the bit of the result and a bit that is known. -/
theorem xorShift_injective {k : ℕ} (hk : 0 < k) :
    Function.Injective fun x : BitVec w => x ^^^ x >>> k := by
  intro x y hxy
  have hbit (i : ℕ) : (x.getLsbD i ^^ x.getLsbD (k + i)) = (y.getLsbD i ^^ y.getLsbD (k + i)) := by
    have h := congrArg (·.getLsbD i) hxy
    simpa only [BitVec.getLsbD_xor, BitVec.getLsbD_ushiftRight] using h
  have hall (m i : ℕ) (hm : w ≤ i + m) : x.getLsbD i = y.getLsbD i := by
    induction m generalizing i with
    | zero => rw [BitVec.getLsbD_of_ge x i hm, BitVec.getLsbD_of_ge y i hm]
    | succ m ih =>
      have h := hbit i
      rw [ih (k + i) (by omega)] at h
      exact Bool.xor_left_inj.1 h
  exact BitVec.eq_of_getLsbD_eq fun i _ => hall w i (Nat.le_add_left w i)

/-- An odd factor can be cancelled. -/
theorem mul_injective {c : BitVec w} (hc : Odd c.toNat) :
    Function.Injective fun x : BitVec w => x * c := by
  intro x y hxy
  have hmod : x.toNat * c.toNat ≡ y.toNat * c.toNat [MOD 2 ^ w] := by
    have h := congrArg BitVec.toNat hxy
    simpa only [Nat.ModEq, BitVec.toNat_mul] using h
  have hcoprime : Nat.gcd (2 ^ w) c.toNat = 1 := (Nat.coprime_two_left.2 hc).pow_left w
  refine BitVec.eq_of_toNat_eq ?_
  rw [← Nat.mod_eq_of_lt x.isLt, ← Nat.mod_eq_of_lt y.isLt]
  exact hmod.cancel_right_of_coprime hcoprime

/-- A rotation can be undone. -/
theorem rotate_injective {r : ℕ} (hr : r < w) :
    Function.Injective fun x : BitVec w => x <<< r ||| x >>> (w - r) := by
  have hrotate (x : BitVec w) : x <<< r ||| x >>> (w - r) = x.rotateLeft r := by
    rw [BitVec.rotateLeft_def, Nat.mod_eq_of_lt hr]
  have hbit (x : BitVec w) {i : ℕ} (hi : i < w) :
      (x <<< r ||| x >>> (w - r)).getLsbD ((i + r) % w) = x.getLsbD i := by
    rw [hrotate, BitVec.getLsbD_rotateLeft_of_le hr]
    rcases Nat.lt_or_ge (i + r) w with hlt | hge
    · rw [Nat.mod_eq_of_lt hlt, decide_eq_false (by omega), cond_false, decide_eq_true hlt,
        Bool.true_and, Nat.add_sub_cancel]
    · rw [Nat.mod_eq_sub_mod hge, Nat.mod_eq_of_lt (by omega), decide_eq_true (by omega), cond_true]
      congr 1
      omega
  intro x y hxy
  refine BitVec.eq_of_getLsbD_eq fun i hi => ?_
  rw [← hbit x hi, ← hbit y hi]
  exact congrArg (·.getLsbD ((i + r) % w)) hxy

end Words

import Mathlib.Algebra.Order.Ring.Nat
import Mathlib.Data.FinEnum
import Mathlib.Data.Fintype.EquivFin
import Mathlib.Data.List.GetD
import Mathlib.Logic.Function.Iterate

/-!
# Reflected cyclic redundancy checks

The register of a reflected check is shifted to the right, once for each bit of the message, and the
polynomial is added to it if the bit that comes out is not the bit of the message. A shift is linear
in exclusive or. So the bits of a word can be added to the register at once, before the shifts, and
the shifts of its low bits can be read from a table.

The register takes one bit by `ReflectedCrc.feed` and a list of bits by `ReflectedCrc.register`;
`ReflectedCrc.shift` is the case of a bit that is zero. The bits of a word can be taken by shifts,
or with a table (`ReflectedCrc.register_lowBits`, `ReflectedCrc.register_lowBits_table`). Messages
that differ within the length of the register have different checks
(`ReflectedCrc.register_ne_of_burst`), and one word leads to a given register
(`ReflectedCrc.existsUnique_register`).
-/

namespace ReflectedCrc

variable {v w i n : ℕ} {x : BitVec w}

/-- The register after a bit of the message. -/
def feed (poly crc : BitVec w) (m : Bool) : BitVec w :=
  if crc.getLsbD 0 ^^ m then crc >>> 1 ^^^ poly else crc >>> 1

/-- The register after the bits of a message. -/
def register (poly init : BitVec w) (msg : List Bool) : BitVec w := msg.foldl (feed poly) init

/-- The register after a bit that is zero. -/
def shift (poly crc : BitVec w) : BitVec w :=
  if crc.getLsbD 0 then crc >>> 1 ^^^ poly else crc >>> 1

/-- The low `n` bits of a word, the least significant one first. -/
def lowBits (n : ℕ) (x : BitVec v) : List Bool := (List.range n).map x.getLsbD

/-- The word of which the low `n` bits are set. -/
def lowMask (w n : ℕ) : BitVec w := BitVec.ofNat w (2 ^ n - 1)

/-- The register after two messages. -/
theorem register_append (poly init : BitVec w) (msg msg' : List Bool) :
    register poly init (msg ++ msg') = register poly (register poly init msg) msg' :=
  List.foldl_append

/-! ## Bits of words -/

/-- The lowest bit comes first, -/
theorem lowBits_succ (n : ℕ) (x : BitVec v) :
    lowBits (n + 1) x = x.getLsbD 0 :: lowBits n (x >>> 1) := by
  rw [lowBits, List.range_succ_eq_map, List.map_cons, List.map_map, lowBits]
  congr 1
  refine List.map_congr_left fun i _ => ?_
  rw [BitVec.getLsbD_ushiftRight, Function.comp_apply, Nat.add_comm]

/-- and bits that are shifted out come before the others. -/
theorem lowBits_add (m n : ℕ) (x : BitVec v) :
    lowBits (m + n) x = lowBits m x ++ lowBits n (x >>> m) := by
  rw [lowBits, List.range_add, List.map_append, List.map_map, lowBits, lowBits]
  congr 1
  refine List.map_congr_left fun i _ => ?_
  rw [BitVec.getLsbD_ushiftRight, Function.comp_apply]

/-- Truncation keeps the lowest bits. -/
theorem lowBits_setWidth (hn : n ≤ w) (x : BitVec v) : lowBits n (x.setWidth w) = lowBits n x := by
  refine List.map_congr_left fun i hi => ?_
  have hlt := List.mem_range.1 hi
  simp [show i < w by omega]

/-- The mask of the lowest `n` bits. -/
theorem getLsbD_lowMask (hi : i < w) : (lowMask w n).getLsbD i = decide (i < n) := by
  rw [lowMask, BitVec.getLsbD_ofNat, Nat.testBit_two_pow_sub_one, decide_eq_true hi, Bool.true_and]

/-- What the mask leaves is an index of a table. -/
theorem and_lowMask_lt (n : ℕ) (x : BitVec w) : (x &&& lowMask w n).toNat < 2 ^ n := by
  rw [BitVec.toNat_and]
  refine Nat.and_lt_two_pow _ ?_
  rw [lowMask, BitVec.toNat_ofNat]
  exact Nat.lt_of_le_of_lt (Nat.mod_le _ _) (Nat.sub_lt (Nat.two_pow_pos n) Nat.one_pos)

/-- The low bits of a word and the others. -/
theorem xor_split (n : ℕ) (x : BitVec w) : (x &&& lowMask w n) ^^^ (x &&& ~~~lowMask w n) = x := by
  refine BitVec.eq_of_getLsbD_eq fun i hi => ?_
  simp only [BitVec.getLsbD_xor, BitVec.getLsbD_and, BitVec.getLsbD_not, hi, decide_true,
    Bool.true_and]
  cases (lowMask w n).getLsbD i <;> simp

/-- The other part has no bits there, -/
theorem getLsbD_high (hi : i < n) : (x &&& ~~~lowMask w n).getLsbD i = false := by
  rcases Nat.lt_or_ge i w with hlt | hge
  · rw [BitVec.getLsbD_and, BitVec.getLsbD_not, getLsbD_lowMask hlt, decide_eq_true hi,
      Bool.not_true, Bool.and_false, Bool.and_false]
  · exact BitVec.getLsbD_of_ge _ _ hge

/-- so that only this part is left by a shift. -/
theorem ushiftRight_high (n : ℕ) (x : BitVec w) : (x &&& ~~~lowMask w n) >>> n = x >>> n := by
  refine BitVec.eq_of_getLsbD_eq fun i _ => ?_
  rw [BitVec.getLsbD_ushiftRight, BitVec.getLsbD_ushiftRight, BitVec.getLsbD_and]
  rcases Nat.lt_or_ge (n + i) w with hlt | hge
  · rw [BitVec.getLsbD_not, getLsbD_lowMask hlt, decide_eq_true hlt,
      decide_eq_false (Nat.not_lt.2 (Nat.le_add_right n i)), Bool.not_false, Bool.and_true,
      Bool.and_true]
  · rw [BitVec.getLsbD_of_ge _ _ hge, Bool.false_and]

/-- A number without high bits is shifted out. -/
theorem ushiftRight_eq_zero (hx : ∀ i, n ≤ i → x.getLsbD i = false) : x >>> n = 0 := by
  refine BitVec.eq_of_getLsbD_eq fun i _ => ?_
  rw [BitVec.getLsbD_ushiftRight, hx _ (Nat.le_add_right n i), BitVec.ofNat_eq_ofNat,
    BitVec.getLsbD_zero]

/-! ## Shifts -/

variable (poly : BitVec w)

/-- A step of the register is linear, -/
theorem shift_xor (x y : BitVec w) : shift poly (x ^^^ y) = shift poly x ^^^ shift poly y := by
  unfold shift
  rw [BitVec.getLsbD_xor, BitVec.ushiftRight_xor_distrib]
  cases x.getLsbD 0 <;> cases y.getLsbD 0
  · rfl
  · exact BitVec.xor_assoc _ _ _
  · simp only [Bool.true_bne, Bool.not_false, if_true, Bool.false_eq_true, if_false]
    ac_rfl
  -- the polynomial is added to both, and cancels out
  · calc x >>> 1 ^^^ y >>> 1 = x >>> 1 ^^^ (poly ^^^ poly) ^^^ y >>> 1 := by
          rw [BitVec.xor_self, BitVec.xor_zero]
      _ = (x >>> 1 ^^^ poly) ^^^ (y >>> 1 ^^^ poly) := by ac_rfl

/-- and so are several steps. -/
theorem iterate_shift_xor (n : ℕ) (x y : BitVec w) :
    (shift poly)^[n] (x ^^^ y) = (shift poly)^[n] x ^^^ (shift poly)^[n] y := by
  induction n generalizing x y with
  | zero => rfl
  | succ n ih =>
    rw [Function.iterate_succ_apply, Function.iterate_succ_apply, Function.iterate_succ_apply,
      shift_xor, ih]

/-- While zeros come out, the register is shifted only. -/
theorem iterate_shift_of_low (hx : ∀ i < n, x.getLsbD i = false) :
    (shift poly)^[n] x = x >>> n := by
  induction n with
  | zero => rw [BitVec.ushiftRight_zero]; rfl
  | succ n ih =>
    have hbit : (x >>> n).getLsbD 0 = false := by
      rw [BitVec.getLsbD_ushiftRight]
      exact hx n (Nat.lt_succ_self n)
    rw [Function.iterate_succ_apply', ih fun i hi => hx i (Nat.lt_succ_of_lt hi), shift, hbit,
      BitVec.shiftRight_add]
    rfl

/-- The shifts of the low bits, and the others, shifted. -/
theorem iterate_shift_split (n : ℕ) (x : BitVec w) :
    (shift poly)^[n] x = (shift poly)^[n] (x &&& lowMask w n) ^^^ x >>> n := by
  calc (shift poly)^[n] x
      = (shift poly)^[n] ((x &&& lowMask w n) ^^^ (x &&& ~~~lowMask w n)) := by rw [xor_split]
    _ = (shift poly)^[n] (x &&& lowMask w n) ^^^ (x &&& ~~~lowMask w n) >>> n := by
        rw [iterate_shift_xor, iterate_shift_of_low poly fun i hi => getLsbD_high hi]
    _ = (shift poly)^[n] (x &&& lowMask w n) ^^^ x >>> n := by rw [ushiftRight_high]

/-! ## Words -/

/-- A bit of the message can be added to the register before the step. -/
theorem feed_xor (crc x : BitVec w) :
    feed poly crc (x.getLsbD 0) ^^^ x >>> 1 = shift poly (crc ^^^ x) := by
  unfold feed shift
  rw [BitVec.getLsbD_xor, BitVec.ushiftRight_xor_distrib]
  split
  · ac_rfl
  · rfl

/-- The bits of a word are added to the register, and then the register is shifted. -/
theorem register_lowBits (crc : BitVec w) (hx : ∀ i, n ≤ i → x.getLsbD i = false) :
    register poly crc (lowBits n x) = (shift poly)^[n] (crc ^^^ x) := by
  induction n generalizing crc x with
  | zero =>
    have hzero : x = 0 := by rw [← BitVec.ushiftRight_zero x, ushiftRight_eq_zero hx]
    rw [hzero]
    exact BitVec.xor_zero.symm
  | succ n ih =>
    -- the rest of the word is shifted with the register, so it is still to be added
    have hhigh : ∀ i, n ≤ i → (x >>> 1).getLsbD i = false := fun i hi => by
      rw [BitVec.getLsbD_ushiftRight]
      exact hx _ (by omega)
    rw [lowBits_succ, Function.iterate_succ_apply, ← feed_xor, ← ih _ hhigh]
    rfl

/-- The shifts of the low bits are read from a table. -/
theorem register_lowBits_table {table : ℕ → BitVec w} (crc : BitVec w)
    (htable : ∀ i < 2 ^ n, table i = (shift poly)^[n] (BitVec.ofNat w i))
    (hx : ∀ i, n ≤ i → x.getLsbD i = false) :
    register poly crc (lowBits n x) =
      table ((crc ^^^ x) &&& lowMask w n).toNat ^^^ crc >>> n := by
  rw [register_lowBits poly crc hx, iterate_shift_split, htable _ (and_lowMask_lt n _),
    BitVec.ofNat_toNat, BitVec.setWidth_eq, BitVec.ushiftRight_xor_distrib, ushiftRight_eq_zero hx]
  exact congrArg _ BitVec.xor_zero

/-! ## Errors -/

/-- It can be added after the step as well. -/
theorem feed_eq_shift (crc : BitVec w) (m : Bool) :
    feed poly crc m = shift poly crc ^^^ if m then poly else 0 := by
  unfold feed shift
  cases m <;> cases crc.getLsbD 0
  · exact BitVec.xor_zero.symm
  · exact BitVec.xor_zero.symm
  · rfl
  · simp only [Bool.bne_true, Bool.not_true, if_true, Bool.false_eq_true, if_false]
    rw [BitVec.xor_assoc, BitVec.xor_self, BitVec.xor_zero]

variable {poly}

/-- With the highest bit of the polynomial set, only zero is shifted to zero: the polynomial would
not cancel against a word that was shifted. -/
theorem eq_zero_of_shift (hpoly : poly.getLsbD (w - 1) = true) (hx : shift poly x = 0) : x = 0 := by
  unfold shift at hx
  cases hbit : x.getLsbD 0 with
  | true =>
    -- a bit that is shifted out brings in the highest bit of the polynomial
    rw [hbit, if_pos rfl] at hx
    have hw : 0 < w := BitVec.lt_of_getLsbD hbit
    have hhigh := congrArg (·.getLsbD (w - 1)) hx
    simp only [BitVec.getLsbD_xor, BitVec.getLsbD_ushiftRight, hpoly, BitVec.ofNat_eq_ofNat,
      BitVec.getLsbD_zero] at hhigh
    rw [BitVec.getLsbD_of_ge x _ (by omega)] at hhigh
    cases hhigh
  | false =>
    rw [hbit] at hx
    -- otherwise the bits are those of `x`, one position lower
    refine BitVec.eq_of_getLsbD_eq fun i _ => ?_
    cases i with
    | zero => rw [hbit, BitVec.ofNat_eq_ofNat, BitVec.getLsbD_zero]
    | succ i =>
      have hi := congrArg (·.getLsbD i) hx
      simp only [Bool.false_eq_true, if_false, BitVec.getLsbD_ushiftRight] at hi
      rw [Nat.add_comm, hi, BitVec.ofNat_eq_ofNat, BitVec.getLsbD_zero, BitVec.getLsbD_zero]

/-- If the polynomial has its highest coefficient, a step can be undone. -/
theorem shift_injective (hpoly : poly.getLsbD (w - 1) = true) :
    Function.Injective (shift poly) := by
  intro x y hxy
  have hdiff : shift poly (x ^^^ y) = 0 := by rw [shift_xor, hxy, BitVec.xor_self]; rfl
  exact BitVec.xor_eq_zero_iff.1 (eq_zero_of_shift hpoly hdiff)

/-- Different registers stay different, whatever the message is. -/
theorem register_injective (hpoly : poly.getLsbD (w - 1) = true) (msg : List Bool) :
    Function.Injective fun init => register poly init msg := by
  induction msg with
  | nil => exact fun _ _ h => h
  | cons m msg ih =>
    intro init init' h
    have hfeed := ih h
    rw [feed_eq_shift, feed_eq_shift] at hfeed
    exact shift_injective hpoly ((BitVec.xor_left_inj _).1 hfeed)

/-- A list of bits as a word. -/
theorem exists_word {msg : List Bool} (hlen : msg.length ≤ w) :
    ∃ x : BitVec w, msg = lowBits msg.length x ∧ ∀ i, msg.length ≤ i → x.getLsbD i = false := by
  refine ⟨(BitVec.ofBoolListLE msg).setWidth w, ?_, fun i hi => ?_⟩
  · rw [lowBits_setWidth hlen]
    refine List.ext_getElem (by simp [lowBits]) fun i hi _ => ?_
    simp only [lowBits, List.getElem_map, List.getElem_range, BitVec.getLsbD_ofBoolListLE,
      List.getD_eq_getElem _ _ hi]
  · rw [BitVec.getLsbD_setWidth, BitVec.getLsbD_of_ge _ i hi, Bool.and_false]

/-- Different messages that are not longer than the register lead to different registers. -/
theorem register_inj (hpoly : poly.getLsbD (w - 1) = true) {crc : BitVec w} {msg msg' : List Bool}
    (hlen : msg'.length = msg.length) (hle : msg.length ≤ w)
    (h : register poly crc msg = register poly crc msg') : msg = msg' := by
  obtain ⟨x, hmsg, hx⟩ := exists_word hle
  obtain ⟨y, hmsg', hy⟩ := exists_word (hlen.trans_le hle)
  rw [hlen] at hmsg' hy
  -- the bits are added to the register before the shifts
  rw [hmsg, hmsg', register_lowBits poly crc hx, register_lowBits poly crc hy] at h
  have hxy := (shift_injective hpoly).iterate _ h
  rw [hmsg, hmsg', (BitVec.xor_right_inj _).1 hxy]

/-- Messages that differ within the length of the register lead to different registers, whatever
comes before and after the difference. -/
theorem register_ne_of_burst (hpoly : poly.getLsbD (w - 1) = true) (init : BitVec w)
    {mid mid' : List Bool} (hlen : mid'.length = mid.length) (hle : mid.length ≤ w)
    (hne : mid ≠ mid') (pre post : List Bool) :
    register poly init (pre ++ (mid ++ post)) ≠ register poly init (pre ++ (mid' ++ post)) := by
  intro h
  rw [register_append, register_append, register_append, register_append] at h
  exact hne (register_inj hpoly hlen hle (register_injective hpoly post h))

/-- Exactly one word leads from one register to another. -/
theorem existsUnique_register (hpoly : poly.getLsbD (w - 1) = true) (crc target : BitVec w) :
    ∃! x : BitVec w, register poly crc (lowBits w x) = target := by
  have hword (x : BitVec w) : register poly crc (lowBits w x) = (shift poly)^[w] (crc ^^^ x) :=
    register_lowBits poly crc fun i hi => BitVec.getLsbD_of_ge x i hi
  have hinj : Function.Injective fun x : BitVec w => register poly crc (lowBits w x) := by
    intro x y hxy
    simp only [hword] at hxy
    exact (BitVec.xor_right_inj _).1 ((shift_injective hpoly).iterate _ hxy)
  exact (Finite.injective_iff_bijective.1 hinj).existsUnique target

end ReflectedCrc

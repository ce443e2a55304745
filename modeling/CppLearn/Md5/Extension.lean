import CppLearn.Lib.Words
import CppLearn.Md5.Correctness

/-!
# Digests of longer strings

The digest is the state in which the last block of a padded string leaves the context. Whoever knows
the digest and the length can therefore go on: `md5_update` and `md5_finish` then compute the digest
of the padded string with anything behind it, although the string is not known.

`resume` is the context that goes on from a digest, and `md5_extends` is the digest of the longer
string.
-/

namespace CppLearn.Md5

open BlockFold BoundedLoop Standard

variable {ctx : Context} {input pre post : List Byte}

/-! ## Words and bytes -/

theorem word_eq_fromBytes (block : List Byte) (k : ℕ) :
    word block k = Words.fromBytes 32 ((List.range 4).map fun j => block.getD (4 * k + j) 0) := by
  have hrange : List.range 4 = [0, 1, 2, 3] := rfl
  simp only [word, hrange, List.map_cons, List.map_nil, Words.fromBytes,
    BitVec.shiftLeft_or_distrib, ← BitVec.shiftLeft_add]
  simp [BitVec.or_assoc]

theorem bytes_eq_toBytes (x : Word) : bytes x = Words.toBytes 4 x := by
  have hrange : List.range 4 = [0, 1, 2, 3] := rfl
  simp only [bytes, hrange, List.map_cons, List.map_nil, Words.toBytes, ← BitVec.shiftRight_add]
  simp

/-- A word that is written between other bytes is read again. -/
theorem word_bytes {k : ℕ} (x : Word) (hpre : pre.length = 4 * k) :
    word (pre ++ (bytes x ++ post)) k = x := by
  have hread : (List.range 4).map (fun j => (pre ++ (bytes x ++ post)).getD (4 * k + j) 0) =
      Words.toBytes 4 x := by
    rw [← bytes_eq_toBytes]
    refine List.map_congr_left fun j hj => ?_
    have hlt : j < 4 := List.mem_range.1 hj
    rw [← hpre, List.getD_eq_getElem?_getD, List.getElem?_append_right (Nat.le_add_right ..),
      Nat.add_sub_cancel_left, List.getElem?_append_left hlt, bytes, List.getElem?_map,
      List.getElem?_range hlt]
    rfl
  rw [word_eq_fromBytes, hread]
  exact Words.fromBytes_toBytes fun i hi => BitVec.getLsbD_of_ge x i hi

/-! ## Contexts -/

/-- The length of a string after padding. -/
def paddedLength (n : ℕ) : ℕ := 64 * ((n + 8) / 64 + 1)

theorem length_pad (input : List Byte) : (pad input).length = paddedLength input.length := by
  rw [pad, List.length_append, List.length_append, length_lengthBytes, padding, List.length_cons,
    List.length_replicate, paddedLength]
  omega

/-- The context that a padded string of `n` bytes with the digest has left behind. -/
def resume (digest : List Byte) (n : ℕ) : Context where
  total0 := BitVec.ofNat 64 (n % 2 ^ 32)
  total1 := BitVec.ofNat 64 (n / 2 ^ 32)
  state := ⟨getUlongLE digest 0, getUlongLE digest 4, getUlongLE digest 8, getUlongLE digest 12⟩
  buffer := List.replicate 64 0

/-- The words of the state are read from the digest. -/
theorem low_state_resume (input : List Byte) (n : ℕ) :
    (resume (Standard.md5 input) n).state.low = foldBlocks 64 compress init (pad input) := by
  let s := foldBlocks 64 compress init (pad input)
  -- the digest has the four words one after the other
  have hdigest : Standard.md5 input = bytes s.a ++ (bytes s.b ++ (bytes s.c ++ bytes s.d)) := by
    rw [← List.append_assoc, ← List.append_assoc]
    rfl
  have ha : word (Standard.md5 input) 0 = s.a := by
    rw [hdigest, ← List.nil_append (bytes s.a ++ _)]
    exact word_bytes s.a rfl
  have hb : word (Standard.md5 input) 1 = s.b := by
    rw [hdigest]
    exact word_bytes s.b rfl
  have hc : word (Standard.md5 input) 2 = s.c := by
    rw [hdigest, ← List.append_assoc]
    exact word_bytes s.c rfl
  have hd : word (Standard.md5 input) 3 = s.d := by
    rw [hdigest, ← List.append_assoc, ← List.append_assoc, ← List.append_nil (bytes s.d)]
    exact word_bytes s.d rfl
  show Words.mk (getUlongLE (Standard.md5 input) (4 * 0) |>.setWidth 32)
    (getUlongLE (Standard.md5 input) (4 * 1) |>.setWidth 32)
    (getUlongLE (Standard.md5 input) (4 * 2) |>.setWidth 32)
    (getUlongLE (Standard.md5 input) (4 * 3) |>.setWidth 32) = s
  rw [setWidth_getUlongLE, setWidth_getUlongLE, setWidth_getUlongLE, setWidth_getUlongLE, ha, hb,
    hc, hd]

/-- The context is as good as one that has seen the padded string. -/
theorem holds_resume (input : List Byte) :
    Holds (resume (Standard.md5 input) (pad input).length) (pad input) := by
  have hmod : (pad input).length % 64 = 0 := by
    rw [length_pad, paddedLength, Nat.mul_mod_right]
  refine ⟨?_, ?_, low_state_resume input _, List.length_replicate, ?_⟩
  · rw [resume, BitVec.toNat_ofNat]
    omega
  · rw [resume, BitVec.toNat_ofNat]
  · rw [hmod, List.take_zero]
    refine (List.eq_nil_of_length_eq_zero ?_).symm
    rw [length_rest, hmod]

theorem md5_128_ok (hctx : ctx.buffer.length = 64) (hinput : input.length < 2 ^ 31) :
    md5 ctx input .md5_128 = .ok (Standard.md5 input) := by
  obtain ⟨ctx', hupdate, h⟩ := (holds_md5Starts hctx).md5Update hinput
  rw [List.nil_append] at h
  simp only [md5, hupdate, h.md5Finish, bind, Except.bind]
  rfl

/-- From the digest of a string, its length, and any bytes, `md5_update` and `md5_finish` compute
the digest of the padded string with the bytes behind it. -/
theorem md5_extends (ctx : Context) (hctx : ctx.buffer.length = 64) (input suffix : List Byte)
    (hmax : (pad input ++ suffix).length < 2 ^ 31) :
    ∃ digest ctx', md5 ctx input .md5_128 = .ok digest ∧
      md5Update (resume digest (paddedLength input.length)) suffix = .ok ctx' ∧
      md5Finish ctx' = md5 ctx (pad input ++ suffix) .md5_128 := by
  have hlen := hmax
  rw [List.length_append, length_pad, paddedLength] at hlen
  obtain ⟨ctx', hupdate, h⟩ :=
    (holds_resume input).md5Update (show suffix.length < 2 ^ 31 by omega)
  refine ⟨Standard.md5 input, ctx', md5_128_ok hctx (by omega), ?_, ?_⟩
  · rw [← length_pad]
    exact hupdate
  · rw [h.md5Finish, md5_128_ok hctx hmax]

/-- Three bytes, and three more behind the padded string. -/
theorem md5_extends_abc :
    ∃ digest ctx',
      md5 ⟨0, 0, ⟨0, 0, 0, 0⟩, List.replicate 64 0⟩ [97, 98, 99] .md5_128 = .ok digest ∧
      md5Update (resume digest (paddedLength 3)) [100, 101, 102] = .ok ctx' ∧
      md5Finish ctx' = md5 ⟨0, 0, ⟨0, 0, 0, 0⟩, List.replicate 64 0⟩
        (pad [97, 98, 99] ++ [100, 101, 102]) .md5_128 :=
  md5_extends ⟨0, 0, ⟨0, 0, 0, 0⟩, List.replicate 64 0⟩ rfl [97, 98, 99] [100, 101, 102] (by decide)

end CppLearn.Md5

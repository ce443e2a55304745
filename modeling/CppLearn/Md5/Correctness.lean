import CppLearn.Md5.Process

/-!
# Messages in pieces

`md5_update` keeps the bytes that do not fill a block, and goes on with them when more bytes come;
so its result depends on the whole message only. `md5_finish` passes the padding and the length
through `md5_update` too, and writes the lower halves of the words.

`Holds` is a context that has seen a message. The parts of `md5_update` are `processBlocks_spec` and
`fillBuffer_spec`, and as a whole it makes the message longer (`Holds.md5Update`). What `md5_finish`
writes is the digest of the message (`Holds.md5Finish`), so that `Md5::operator()` computes the
digest (`md5_eq`).
-/

namespace CppLearn.Md5

open BlockFold BoundedLoop Standard

/-- The context has seen the message `m`. -/
structure Holds (ctx : Context) (m : List Byte) : Prop where
  total0 : ctx.total0.toNat = m.length % 2 ^ 32
  total1 : ctx.total1.toNat = m.length / 2 ^ 32 % 2 ^ 64
  state : ctx.state.low = foldBlocks 64 compress init m
  length_buffer : ctx.buffer.length = 64
  buffer : ctx.buffer.take (m.length % 64) = rest 64 m

/-- At the beginning, no byte has been taken in. -/
theorem holds_md5Starts {ctx : Context} (h : ctx.buffer.length = 64) : Holds (md5Starts ctx) [] :=
  ⟨rfl, rfl, rfl, h, rfl⟩

variable {ctx : Context} {m input buffer : List Byte} {state : Words 64} {left : ℕ}

/-! ## The parts of `md5_update` -/

/-- A fold over blocks of the message has the effect that it should have on the lower halves. -/
theorem low_foldBlocks (state : Words 64) (m : List Byte) :
    (foldBlocks 64 md5Process state m).low = foldBlocks 64 compress state.low m :=
  foldBlocks_hom Words.low low_md5Process

/-- The loop takes all whole blocks. -/
theorem processBlocks_spec (state : Words 64) (input : List Byte) :
    processBlocks state input = .ok (foldBlocks 64 md5Process state input, rest 64 input) := by
  suffices hloop : ∃ r, processBlocks state input = .ok r ∧
      r = (foldBlocks 64 md5Process state input, rest 64 input) by
    obtain ⟨_, hloop, rfl⟩ := hloop
    exact hloop
  unfold processBlocks
  -- a block that has been taken off the front is folded first
  refine whileLoop_spec (I := fun n s => s.2.length = n ∧
      foldBlocks 64 md5Process s.1 s.2 = foldBlocks 64 md5Process state input ∧
      rest 64 s.2 = rest 64 input) ?_ (fun n s hs => ⟨_, rfl⟩) ?_ (n := input.length) ?_
    (Nat.lt_succ_self input.length)
  · rintro n ⟨st, l⟩ ⟨-, hfold, hrest⟩ hexit
    have hlt : l.length < 64 := by simpa using hexit
    rw [foldBlocks_of_lt hlt] at hfold
    exact Prod.ext hfold (hrest ▸ (rest_of_lt hlt).symm)
  · rintro n ⟨st, l⟩ ⟨rfl, hfold, hrest⟩ hcond
    have hle : 64 ≤ l.length := by simpa using hcond
    have hlen : (l.take 64).length = 64 := by simpa using hle
    have hblock : 64 ∣ (l.take 64).length := by rw [hlen]
    refine ⟨_, _, rfl, ?_, rfl, ?_, ?_⟩
    · simp only [List.length_drop]
      omega
    · rw [← hfold]
      conv_rhs => rw [← List.take_append_drop 64 l]
      rw [foldBlocks_append (by decide) hblock, foldBlocks_block (by decide) hlen]
    · rw [← hrest]
      conv_rhs => rw [← List.take_append_drop 64 l]
      rw [rest_append (by decide) hblock]
  · exact ⟨rfl, rfl, rfl⟩

/-- `memcpy` into the buffer. -/
theorem copy_eq (h : left + input.length ≤ buffer.length) :
    copy buffer left input =
      .ok (buffer.take left ++ input ++ buffer.drop (left + input.length)) := if_pos h

/-- The first bytes of a buffer that was written to. -/
theorem take_copy (h : left + input.length ≤ buffer.length) :
    (buffer.take left ++ input ++ buffer.drop (left + input.length)).take (left + input.length) =
      buffer.take left ++ input := by
  have hlen : (buffer.take left ++ input).length = left + input.length := by
    simp only [List.length_append, List.length_take]
    omega
  rw [← hlen, List.take_left']
  rfl

/-- If the buffer can be filled up, its bytes are taken as a block. In the end it is empty, or the
input is not long enough to fill it. -/
theorem fillBuffer_spec (hlen : buffer.length = 64) (hleft : left < 64) (state : Words 64)
    (input : List Byte) :
    ∃ state' buffer' input' left', fillBuffer state buffer input left =
        .ok (state', buffer', input', left') ∧ buffer'.length = 64 ∧
      (left' = 0 ∨ left' + input'.length < 64) ∧
      foldBlocks 64 md5Process state' (buffer'.take left' ++ input') =
        foldBlocks 64 md5Process state (buffer.take left ++ input) ∧
      rest 64 (buffer'.take left' ++ input') = rest 64 (buffer.take left ++ input) := by
  by_cases hfill : left ≠ 0 ∧ 64 - left ≤ input.length
  · have htake : (input.take (64 - left)).length = 64 - left := by
      rw [List.length_take, Nat.min_eq_left hfill.2]
    -- the buffer afterwards
    have hbuffer : copy buffer left (input.take (64 - left)) =
        .ok (buffer.take left ++ input.take (64 - left)) := by
      rw [copy_eq (by omega), htake, List.drop_eq_nil_of_le (by omega), List.append_nil]
    have hblock : (buffer.take left ++ input.take (64 - left)).length = 64 := by
      rw [List.length_append, htake, List.length_take]
      omega
    have hsplit : buffer.take left ++ input =
        (buffer.take left ++ input.take (64 - left)) ++ input.drop (64 - left) := by
      rw [List.append_assoc, List.take_append_drop]
    refine ⟨md5Process state (buffer.take left ++ input.take (64 - left)), _,
      input.drop (64 - left), 0, ?_, hblock, .inl rfl, ?_, ?_⟩
    · simp only [fillBuffer, if_pos hfill, hbuffer, bind, Except.bind]
    · rw [List.take_zero, List.nil_append, hsplit, foldBlocks_append (by decide) (by rw [hblock]),
        foldBlocks_block (by decide) hblock]
    · rw [List.take_zero, List.nil_append, hsplit, rest_append (by decide) (by rw [hblock])]
  · refine ⟨state, buffer, input, left, if_neg hfill, hlen, ?_, rfl, rfl⟩
    omega

/-! ## Updates -/

/-- The offset in the buffer is the length modulo `64`, -/
theorem toNat_and_63 (x : Ulong) : (x &&& 0x3F).toNat = x.toNat % 64 :=
  Nat.and_two_pow_sub_one_eq_mod x.toNat 6

/-- and the counters are numbers of 32 bits. -/
theorem toNat_and_mask (x : Ulong) : (x &&& 0xFFFFFFFF).toNat = x.toNat % 2 ^ 32 :=
  Nat.and_two_pow_sub_one_eq_mod x.toNat 32

/-- The number of bytes is counted, with a carry if the sum of the lower words is too small. -/
theorem totals_update {total0 total1 : Ulong} {n k : ℕ} (htotal0 : total0.toNat = n % 2 ^ 32)
    (htotal1 : total1.toNat = n / 2 ^ 32 % 2 ^ 64) (hk : k < 2 ^ 31) :
    (total0 + BitVec.ofNat 64 k &&& 0xFFFFFFFF).toNat = (n + k) % 2 ^ 32 ∧
      (if total0 + BitVec.ofNat 64 k &&& 0xFFFFFFFF < BitVec.ofNat 64 k then total1 + 1
        else total1).toNat = (n + k) / 2 ^ 32 % 2 ^ 64 := by
  have hk' : (BitVec.ofNat 64 k).toNat = k := by
    rw [BitVec.toNat_ofNat, Nat.mod_eq_of_lt (by omega)]
  have hsum : (total0 + BitVec.ofNat 64 k &&& 0xFFFFFFFF).toNat = (n + k) % 2 ^ 32 := by
    rw [toNat_and_mask, BitVec.toNat_add, hk', htotal0]
    omega
  refine ⟨hsum, ?_⟩
  have hone : (1 : Ulong).toNat = 1 := rfl
  simp only [BitVec.lt_def, hsum, hk']
  split_ifs with hcarry
  · rw [BitVec.toNat_add, htotal1, hone]
    omega
  · rw [htotal1]
    omega

/-- If the context has counted the bytes of `m`, and the rest of `m` is in the buffer, the bytes of
the input are counted, the blocks that they complete are processed, and the new rest is kept. -/
theorem md5Update_ok (htotal0 : ctx.total0.toNat = m.length % 2 ^ 32)
    (htotal1 : ctx.total1.toNat = m.length / 2 ^ 32 % 2 ^ 64) (hlen : ctx.buffer.length = 64)
    (hbuffer : ctx.buffer.take (m.length % 64) = rest 64 m) (hinput : input.length < 2 ^ 31) :
    ∃ ctx', md5Update ctx input = .ok ctx' ∧
      ctx'.total0.toNat = (m ++ input).length % 2 ^ 32 ∧
      ctx'.total1.toNat = (m ++ input).length / 2 ^ 32 % 2 ^ 64 ∧
      ctx'.state = foldBlocks 64 md5Process ctx.state (rest 64 m ++ input) ∧
      ctx'.buffer.length = 64 ∧
      ctx'.buffer.take ((m ++ input).length % 64) = rest 64 (m ++ input) := by
  by_cases hempty : input.length = 0
  · have hrest : (rest 64 m).length < 64 := by
      rw [length_rest]
      exact Nat.mod_lt _ (by decide)
    rw [List.eq_nil_of_length_eq_zero hempty, List.append_nil, List.append_nil,
      foldBlocks_of_lt hrest]
    exact ⟨ctx, rfl, htotal0, htotal1, rfl, hlen, hbuffer⟩
  have hleft : (ctx.total0 &&& 0x3F).toNat = m.length % 64 := by
    rw [toNat_and_63, htotal0]
    omega
  obtain ⟨state₁, buffer₁, input₁, left₁, hfill, hlen₁, hleft₁, hfold₁, hrest₁⟩ :=
    fillBuffer_spec hlen (Nat.mod_lt m.length (by decide)) ctx.state input
  have hblocks := processBlocks_spec state₁ input₁
  -- what is still in the buffer fills no block with the input that is left
  have hkept : buffer₁.take left₁ = [] ∨ (buffer₁.take left₁ ++ input₁).length < 64 := by
    rcases hleft₁ with rfl | hshort
    · exact .inl List.take_zero
    · refine .inr ?_
      rw [List.length_append, List.length_take]
      omega
  rw [hbuffer, foldBlocks_kept hkept] at hfold₁
  rw [hbuffer, ← rest_append_rest (by decide), rest_kept hkept] at hrest₁
  have hlength : (m ++ input).length % 64 = left₁ + (rest 64 input₁).length := by
    have hle : left₁ ≤ buffer₁.length := by omega
    rw [← length_rest, ← hrest₁, List.length_append, List.length_take, Nat.min_eq_left hle]
  have hcopy : left₁ + (rest 64 input₁).length ≤ buffer₁.length := by
    rw [← hlength, hlen₁]
    exact (Nat.mod_lt _ (by decide)).le
  obtain ⟨htotal0', htotal1'⟩ := totals_update htotal0 htotal1 hinput
  rw [← List.length_append] at htotal0' htotal1'
  refine ⟨⟨ctx.total0 + BitVec.ofNat 64 input.length &&& 0xFFFFFFFF,
    if ctx.total0 + BitVec.ofNat 64 input.length &&& 0xFFFFFFFF < BitVec.ofNat 64 input.length then
      ctx.total1 + 1 else ctx.total1, foldBlocks 64 md5Process state₁ input₁,
    buffer₁.take left₁ ++ rest 64 input₁ ++ buffer₁.drop (left₁ + (rest 64 input₁).length)⟩,
    ?_, htotal0', htotal1', hfold₁, ?_, ?_⟩
  · unfold Md5.md5Update
    rw [if_neg hempty]
    simp only [hleft, hfill, hblocks, copy_eq hcopy, bind, Except.bind]
  · simp only [List.length_append, List.length_take, List.length_drop]
    omega
  · rw [hlength, take_copy hcopy, hrest₁]

/-- The message gets longer. -/
theorem Holds.md5Update (h : Holds ctx m) (hinput : input.length < 2 ^ 31) :
    ∃ ctx', md5Update ctx input = .ok ctx' ∧ Holds ctx' (m ++ input) := by
  obtain ⟨ctx', hupdate, htotal0, htotal1, hstate, hlen, hbuffer⟩ :=
    md5Update_ok h.total0 h.total1 h.length_buffer h.buffer hinput
  refine ⟨ctx', hupdate, htotal0, htotal1, ?_, hlen, hbuffer⟩
  rw [hstate, low_foldBlocks, h.state, ← foldBlocks_append_rest (by decide)]

/-! ## The digest -/

/-- The lower half of a word is written. -/
theorem putUlongLE_eq (n : Ulong) : putUlongLE n = bytes (n.setWidth 32) := by
  have hbyte : ∀ k, k + 8 ≤ 32 → ((n.setWidth 32) >>> k).setWidth 8 = (n >>> k).setWidth 8 := by
    intro k hk
    apply BitVec.eq_of_getLsbD_eq
    intro i hi
    simp [show k + i < 32 by omega]
  have hbytes : bytes (n.setWidth 32) = [((n.setWidth 32) >>> 0).setWidth 8,
      ((n.setWidth 32) >>> 8).setWidth 8, ((n.setWidth 32) >>> 16).setWidth 8,
      ((n.setWidth 32) >>> 24).setWidth 8] := rfl
  rw [hbytes, hbyte 0 (by decide), hbyte 8 (by decide), hbyte 16 (by decide), hbyte 24 (by decide)]
  rfl

/-- `md5_finish` takes as much of `md5_padding` as the standard says. -/
theorem take_md5Padding (n : ℕ) :
    md5Padding.take (if n % 64 < 56 then 56 - n % 64 else 120 - n % 64) = padding n := by
  have hlen : (if n % 64 < 56 then 56 - n % 64 else 120 - n % 64) =
      (119 - n % 64) % 64 + 1 := by
    split_ifs <;> omega
  rw [hlen, md5Padding, padding, List.take_succ_cons, List.take_replicate,
    Nat.min_eq_left (Nat.lt_succ_iff.1 (Nat.mod_lt _ (by decide)))]

/-- The two words with the number of bits. -/
theorem msglen_eq {total0 total1 : Ulong} {n : ℕ} (htotal0 : total0.toNat = n % 2 ^ 32)
    (htotal1 : total1.toNat = n / 2 ^ 32 % 2 ^ 64) :
    putUlongLE (total0 <<< 3) ++ putUlongLE (total0 >>> 29 ||| total1 <<< 3) = lengthBytes n := by
  have hlow : (total0 <<< 3).toNat = 8 * (n % 2 ^ 32) := by
    rw [BitVec.toNat_shiftLeft, Nat.shiftLeft_eq, htotal0]
    omega
  -- the lowest three bits of the upper word come from the lower one
  have hhigh : (total0 >>> 29 ||| total1 <<< 3).toNat =
      8 * (n / 2 ^ 32 % 2 ^ 61) + n % 2 ^ 32 / 2 ^ 29 := by
    have hshift : (total1 <<< 3).toNat = 2 ^ 3 * (n / 2 ^ 32 % 2 ^ 61) := by
      rw [BitVec.toNat_shiftLeft, Nat.shiftLeft_eq, htotal1]
      omega
    rw [BitVec.toNat_or, hshift, BitVec.toNat_ushiftRight, Nat.shiftRight_eq_div_pow, htotal0,
      Nat.or_comm, ← Nat.two_pow_add_eq_or_of_lt (by omega)]
  have hword : ∀ (x : Ulong) k, ((x >>> k).setWidth 8).toNat = x.toNat / 2 ^ k % 2 ^ 8 := by
    intro x k
    rw [BitVec.toNat_setWidth, BitVec.toNat_ushiftRight, Nat.shiftRight_eq_div_pow]
  have hbits : (BitVec.ofNat 64 (8 * n)).toNat = 8 * n % 2 ^ 64 := BitVec.toNat_ofNat ..
  have hlists : ∀ x y : Ulong, putUlongLE x ++ putUlongLE y =
      [0, 8, 16, 24].map (fun k => (x >>> k).setWidth 8) ++
        [0, 8, 16, 24].map fun k => (y >>> k).setWidth 8 := fun _ _ => rfl
  have hsplit : lengthBytes n =
      [0, 8, 16, 24].map (fun k => (BitVec.ofNat 64 (8 * n) >>> k).setWidth 8) ++
        [0, 8, 16, 24].map fun k => (BitVec.ofNat 64 (8 * n) >>> (32 + k)).setWidth 8 := rfl
  rw [hlists, hsplit]
  congr 1
  · refine List.map_congr_left fun k hk => BitVec.eq_of_toNat_eq ?_
    rw [hword, hword, hlow, hbits]
    simp only [List.mem_cons, List.not_mem_nil, or_false] at hk
    rcases hk with rfl | rfl | rfl | rfl <;> omega
  · refine List.map_congr_left fun k hk => BitVec.eq_of_toNat_eq ?_
    rw [hword, hword, hhigh, hbits]
    simp only [List.mem_cons, List.not_mem_nil, or_false] at hk
    rcases hk with rfl | rfl | rfl | rfl <;> omega

/-- The padding is short, -/
theorem length_padding (n : ℕ) : (padding n).length < 2 ^ 31 := by
  rw [padding, List.length_cons, List.length_replicate]
  omega

/-- and so is the length behind it. -/
theorem length_lengthBytes (n : ℕ) : (lengthBytes n).length = 8 := by
  simp [lengthBytes]

/-- The digest of the message that the context has seen. -/
theorem Holds.md5Finish (h : Holds ctx m) : md5Finish ctx = .ok (Standard.md5 m) := by
  have hlast : (ctx.total0 &&& 0x3F).toNat = m.length % 64 := by
    rw [toNat_and_63, h.total0]
    omega
  obtain ⟨ctx₁, hpad, h₁⟩ := h.md5Update (length_padding m.length)
  obtain ⟨ctx₂, hlen, h₂⟩ := h₁.md5Update (show (lengthBytes m.length).length < 2 ^ 31 by
    rw [length_lengthBytes]
    decide)
  have hstate := h₂.state
  simp only [Md5.md5Finish, hlast, take_md5Padding, msglen_eq h.total0 h.total1, hpad, hlen, bind,
    Except.bind]
  simp only [putUlongLE_eq, Standard.md5, pad, ← hstate]
  rfl

/-- `Md5::operator()` computes the digest of every string whose length is an `int`, or its first
four bytes. -/
theorem md5_eq (ctx : Context) (hctx : ctx.buffer.length = 64) (input : List Byte)
    (hinput : input.length < 2 ^ 31) :
    md5 ctx input .md5_128 = .ok (Standard.md5 input) ∧
      md5 ctx input .md5_32 = .ok ((Standard.md5 input).take 4) := by
  obtain ⟨ctx', hupdate, h⟩ := (holds_md5Starts hctx).md5Update hinput
  rw [List.nil_append] at h
  constructor
  · simp only [md5, hupdate, h.md5Finish, bind, Except.bind]
    rfl
  · simp only [md5, hupdate, h.md5Finish, bind, Except.bind]

/-- The digest of 70 letters, which fill one block and begin a second one. -/
theorem md5_eq_seventy :
    md5 ⟨0, 0, ⟨0, 0, 0, 0⟩, List.replicate 64 0⟩ (List.replicate 70 97) .md5_128 =
        .ok [0x0f, 0x5c, 0x6c, 0x4e, 0x74, 0x0b, 0xfc, 0xc0, 0x8c, 0x3c, 0x26, 0xcc, 0xb2, 0x67,
          0x3d, 0x46] ∧
      md5 ⟨0, 0, ⟨0, 0, 0, 0⟩, List.replicate 64 0⟩ (List.replicate 70 97) .md5_32 =
        .ok [0x0f, 0x5c, 0x6c, 0x4e] := by
  have hdigest : Standard.md5 (List.replicate 70 97) =
      [0x0f, 0x5c, 0x6c, 0x4e, 0x74, 0x0b, 0xfc, 0xc0, 0x8c, 0x3c, 0x26, 0xcc, 0xb2, 0x67, 0x3d,
        0x46] := by
    decide +kernel
  obtain ⟨hlong, hshort⟩ :=
    md5_eq ⟨0, 0, ⟨0, 0, 0, 0⟩, List.replicate 64 0⟩ rfl (List.replicate 70 97) (by decide)
  rw [hlong, hshort, hdigest]
  exact ⟨rfl, rfl⟩

end CppLearn.Md5

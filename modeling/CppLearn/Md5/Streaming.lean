import CppLearn.Md5.Correctness

/-!
# Chunks of a message

However a message is cut into chunks, `md5_update` leaves what one pass over the whole message
leaves: the number of bytes, the words after its blocks with all their 64 bits, and the bytes of
`buffer` that belong to no block. Bytes of `buffer` behind these are left over from earlier chunks.

`Streamed` is the context after one pass over a message. It is kept by one more chunk
(`Streamed.md5Update`), and hence by any number of them (`Streamed.updates`). The chunks of a
message and its digest are `md5Update_streams`.
-/

namespace CppLearn.Md5

open BlockFold BoundedLoop

/-- What one pass over the blocks of the message `m` leaves in a context. -/
structure Streamed (ctx : Context) (m : List Byte) : Prop where
  total0 : ctx.total0.toNat = m.length % 2 ^ 32
  total1 : ctx.total1.toNat = m.length / 2 ^ 32 % 2 ^ 64
  state : ctx.state =
    foldBlocks 64 md5Process ⟨0x67452301, 0xEFCDAB89, 0x98BADCFE, 0x10325476⟩ m
  length_buffer : ctx.buffer.length = 64
  buffer : ctx.buffer.take (m.length % 64) = rest 64 m

theorem streamed_md5Starts {ctx : Context} (h : ctx.buffer.length = 64) :
    Streamed (md5Starts ctx) [] := ⟨rfl, rfl, rfl, h, rfl⟩

variable {ctx : Context} {m : List Byte}

/-- The lower halves of the words are those of the standard. -/
theorem Streamed.holds (h : Streamed ctx m) : Holds ctx m := by
  refine ⟨h.total0, h.total1, ?_, h.length_buffer, h.buffer⟩
  rw [h.state, low_foldBlocks]
  rfl

/-- One more chunk. -/
theorem Streamed.md5Update (h : Streamed ctx m) {input : List Byte}
    (hinput : input.length < 2 ^ 31) :
    ∃ ctx', md5Update ctx input = .ok ctx' ∧ Streamed ctx' (m ++ input) := by
  obtain ⟨ctx', hupdate, htotal0, htotal1, hstate, hlen, hbuffer⟩ :=
    md5Update_ok h.total0 h.total1 h.length_buffer h.buffer hinput
  refine ⟨ctx', hupdate, htotal0, htotal1, ?_, hlen, hbuffer⟩
  -- the fold goes on with the rest of the message so far
  rw [hstate, h.state, ← foldBlocks_append_rest (by decide)]

/-- Any number of chunks. -/
theorem Streamed.updates (h : Streamed ctx m) (chunks : List (List Byte))
    (hchunks : ∀ chunk ∈ chunks, chunk.length < 2 ^ 31) :
    ∃ ctx', chunks.foldlM Md5.md5Update ctx = .ok ctx' ∧ Streamed ctx' (m ++ chunks.flatten) := by
  induction chunks generalizing ctx m with
  | nil => exact ⟨ctx, rfl, by rwa [List.flatten_nil, List.append_nil]⟩
  | cons chunk chunks ih =>
    obtain ⟨ctx₁, hupdate, h₁⟩ := h.md5Update (hchunks chunk List.mem_cons_self)
    obtain ⟨ctx', hrun, h'⟩ := ih h₁ fun c hc => hchunks c (List.mem_cons_of_mem _ hc)
    refine ⟨ctx', ?_, ?_⟩
    · rw [List.foldlM_cons, hupdate]
      exact hrun
    · rwa [List.flatten_cons, ← List.append_assoc]

/-- After `md5_starts` and `md5_update` on each chunk, the context is the one after one pass over
the whole message, and `md5_finish` writes the digest of the whole message, wherever it was cut. -/
theorem md5Update_streams (ctx : Context) (hctx : ctx.buffer.length = 64)
    (chunks : List (List Byte)) (hchunks : ∀ chunk ∈ chunks, chunk.length < 2 ^ 31) :
    ∃ ctx', chunks.foldlM md5Update (md5Starts ctx) = .ok ctx' ∧
      Streamed ctx' chunks.flatten ∧ md5Finish ctx' = .ok (Standard.md5 chunks.flatten) := by
  obtain ⟨ctx', hrun, h⟩ := (streamed_md5Starts hctx).updates chunks hchunks
  rw [List.nil_append] at h
  exact ⟨ctx', hrun, h, h.holds.md5Finish⟩

/-- A chunk, an empty chunk, one that fills up the buffer, and one with a whole block. -/
theorem md5Update_streams_chunks :
    ∃ ctx', [List.replicate 60 1, [], List.replicate 4 2, List.replicate 65 3].foldlM md5Update
        (md5Starts ⟨0, 0, ⟨0, 0, 0, 0⟩, List.replicate 64 0⟩) = .ok ctx' ∧
      Streamed ctx' (List.replicate 60 1 ++ List.replicate 4 2 ++ List.replicate 65 3) ∧
      md5Finish ctx' = .ok (Standard.md5
        (List.replicate 60 1 ++ List.replicate 4 2 ++ List.replicate 65 3)) :=
  md5Update_streams ⟨0, 0, ⟨0, 0, 0, 0⟩, List.replicate 64 0⟩ rfl
    [List.replicate 60 1, [], List.replicate 4 2, List.replicate 65 3] (by decide)

end CppLearn.Md5

import CppLearn.Lib.BoundedLoop
import Mathlib.Data.List.Basic

/-!
# Bytes that are read from a stream

The results of the calls of `read` on a descriptor that does not block, and the strings that end
with a zero byte in a buffer that was filled by such a call.

`received` are the bytes of a sequence of `ReadResult`s, `cString` is the string in a buffer. How a
string goes on in the next chunk, and what becomes of it if there is something behind it in the
buffer, is in `cString_append` and `cString_of_mem`.
-/

namespace ByteStreams

open BoundedLoop

/-- Bytes, or the end of the stream, or an error with its number. -/
inductive ReadResult (Errno : Type) where
  | data (chunk : List UInt8)
  | closed
  | failed (errno : Errno)

variable {Errno : Type} {chunk rest : List UInt8} {reads reads' : List (ReadResult Errno)}

/-- The bytes of a result. -/
def ReadResult.bytes : ReadResult Errno → List UInt8
  | .data chunk => chunk
  | .closed => []
  | .failed _ => []

/-- The bytes of all results. -/
def received (reads : List (ReadResult Errno)) : List UInt8 := reads.flatMap ReadResult.bytes

/-- The value of `errno` after the calls: a call without an error does not change it. -/
def errnoAfter (errno : Errno) (reads : List (ReadResult Errno)) : Errno :=
  reads.foldl (fun errno r => match r with
    | .failed errno => errno
    | _ => errno) errno

@[simp] theorem received_nil : received ([] : List (ReadResult Errno)) = [] := rfl

@[simp] theorem received_cons (r : ReadResult Errno) (reads : List (ReadResult Errno)) :
    received (r :: reads) = r.bytes ++ received reads := rfl

/-- The string that begins in the first byte of a buffer. Without a zero byte, it would not end in
the buffer. -/
def cString (buffer : List UInt8) : Except Fault (List UInt8) :=
  if 0 ∈ buffer then .ok (buffer.takeWhile (· ≠ 0)) else .error .invalidAccess

/-- A chunk without zero bytes is the string, if there is a zero byte behind it. -/
theorem cString_append (hchunk : 0 ∉ chunk) (hrest : rest.head? = some 0) :
    cString (chunk ++ rest) = .ok chunk := by
  obtain ⟨tail, rfl⟩ : ∃ tail, rest = 0 :: tail := by
    cases rest with
    | nil => cases hrest
    | cons b tail => exact ⟨tail, by rw [Option.some.inj hrest]⟩
  have hne : ∀ b ∈ chunk, decide (b ≠ 0) = true := fun b hb =>
    decide_eq_true (ne_of_mem_of_not_mem hb hchunk)
  rw [cString, if_pos (by simp), List.takeWhile_append_of_pos hne]
  simp

/-- A zero byte in the chunk ends the string early. -/
theorem cString_of_mem (hchunk : 0 ∈ chunk) (rest : List UInt8) :
    ∃ s, cString (chunk ++ rest) = .ok s ∧ s.length < chunk.length := by
  obtain ⟨pre, post, rfl, hpre⟩ := List.eq_append_cons_of_mem hchunk
  refine ⟨pre, ?_, by simp⟩
  rw [List.append_assoc]
  exact cString_append hpre rfl

end ByteStreams

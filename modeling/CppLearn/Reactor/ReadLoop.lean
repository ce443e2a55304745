import CppLearn.Lib.ByteStreams

/-!
# The loop of `Handler::Read`

`Read` empties the buffer of the kernel: it reads again and again, until there is nothing left, and
appends what it reads as strings that end with a zero byte. The last byte of its array is never
written, so its value is a parameter: for a chunk that fills the array, the string ends there only
if this byte is zero by chance. Hence the data is all that was received only under a condition on
the chunks (`readLoop_complete_iff`).

When the peer has closed the connection, `read` returns 0 and leaves `errno` as it was, but the loop
looks at `errno` first (`readLoop_closed`).
-/

namespace CppLearn.Reactor

open BoundedLoop ByteStreams

/-- The values of `errno` that `Read` tells apart. -/
inductive Errno where
  | eintr
  | eagain
  | other
  deriving DecidableEq

/-- The array after a chunk was read into it, where `last` is its last byte. -/
def readBuffer (last : UInt8) (chunk : List UInt8) : List UInt8 :=
  chunk ++ (List.replicate (1024 - chunk.length) 0 ++ [last])

/-- The loop, with the results of its calls of `read`: the data, or nothing when the type of the
handler becomes `kError`. -/
def readLoop (last : UInt8) (errno : Errno) (data : List UInt8) :
    List (ReadResult Errno) → Except Fault (Option (List UInt8))
  | [] => .error .diverged
  | .data chunk :: reads => do
    readLoop last errno (data ++ (← cString (readBuffer last chunk))) reads
  | .closed :: reads =>
    if errno = .eintr then readLoop last errno data reads else .ok (some data)
  | .failed errno :: reads =>
    if errno = .eintr then readLoop last errno data reads
    else if errno = .eagain then .ok (some data)
    else .ok none

/-- The calls of `read` return bytes, or are interrupted. -/
def Busy (reads : List (ReadResult Errno)) : Prop :=
  ∀ r ∈ reads, (∃ chunk, r = .data chunk ∧ chunk.length ≤ 1024) ∨ r = .failed .eintr

/-- All chunks end inside the array, where a zero byte is behind them. -/
def Terminated (last : UInt8) (reads : List (ReadResult Errno)) : Prop :=
  ∀ r ∈ reads, ∀ chunk, r = .data chunk → 0 ∉ chunk ∧ (chunk.length < 1024 ∨ last = 0)

variable {last : UInt8} {errno : Errno} {chunk data : List UInt8} {reads : List (ReadResult Errno)}

theorem cString_readBuffer (hzero : 0 ∉ chunk) (hend : chunk.length < 1024 ∨ last = 0) :
    cString (readBuffer last chunk) = .ok chunk := by
  refine cString_append hzero ?_
  rcases hend with hlt | rfl
  · rw [show 1024 - chunk.length = 1023 - chunk.length + 1 by omega]
    rfl
  · cases 1024 - chunk.length <;> rfl

/-- Otherwise the string is shorter, or does not end in the array. -/
theorem cString_readBuffer_lt {text : List UInt8} (hmax : chunk.length ≤ 1024)
    (hnot : ¬(0 ∉ chunk ∧ (chunk.length < 1024 ∨ last = 0)))
    (hrun : cString (readBuffer last chunk) = .ok text) : text.length < chunk.length := by
  by_cases hzero : 0 ∈ chunk
  · obtain ⟨text', htext, hlt⟩ :=
      cString_of_mem hzero (List.replicate (1024 - chunk.length) 0 ++ [last])
    obtain rfl := Except.ok.inj (htext.symm.trans hrun)
    exact hlt
  · obtain ⟨hge, hlast⟩ := not_or.1 fun h => hnot ⟨hzero, h⟩
    have hfull : 1024 - chunk.length = 0 := by omega
    have hnone : 0 ∉ readBuffer last chunk := by
      rw [readBuffer, hfull]
      simpa [hzero] using Ne.symm hlast
    rw [cString, if_neg hnone] at hrun
    cases hrun

theorem Busy.of_cons {r : ReadResult Errno} (h : Busy (r :: reads)) : Busy reads :=
  fun r' hr' => h r' (List.mem_cons_of_mem r hr')

theorem terminated_data :
    Terminated last (.data chunk :: reads) ↔
      (0 ∉ chunk ∧ (chunk.length < 1024 ∨ last = 0)) ∧ Terminated last reads := by
  rw [Terminated, List.forall_mem_cons]
  refine and_congr_left fun _ => ⟨fun h => h chunk rfl, ?_⟩
  rintro h _ heq
  obtain rfl := ReadResult.data.inj heq
  exact h

theorem terminated_failed :
    Terminated last (.failed errno :: reads) ↔ Terminated last reads := by
  rw [Terminated, List.forall_mem_cons]
  exact and_iff_right nofun

/-- The loop after some calls. -/
theorem readLoop_append (hbusy : Busy reads) (hend : Terminated last reads)
    (rest : List (ReadResult Errno)) :
    readLoop last errno data (reads ++ rest) =
      readLoop last (errnoAfter errno reads) (data ++ received reads) rest := by
  induction reads generalizing errno data with
  | nil =>
    rw [received_nil, List.append_nil]
    rfl
  | cons r reads ih =>
    rw [received_cons, ← List.append_assoc]
    rcases hbusy r List.mem_cons_self with ⟨chunk, rfl, -⟩ | rfl
    · obtain ⟨⟨hzero, hlast⟩, hend⟩ := terminated_data.1 hend
      rw [List.cons_append, readLoop, cString_readBuffer hzero hlast, ok_bind,
        ih hbusy.of_cons hend]
      rfl
    · rw [List.cons_append, readLoop, if_pos rfl, ih hbusy.of_cons (terminated_failed.1 hend),
        ReadResult.bytes, List.append_nil]
      rfl

/-- If a string ends early, bytes are missing in the end. -/
theorem readLoop_lt {result : List UInt8} (hbusy : Busy reads) (hnot : ¬Terminated last reads)
    (hrun : readLoop last errno data (reads ++ [.failed .eagain]) = .ok (some result)) :
    result.length < data.length + (received reads).length := by
  induction reads generalizing errno data with
  | nil => exact absurd (fun r hr => absurd hr List.not_mem_nil) hnot
  | cons r reads ih =>
    rw [received_cons, List.length_append]
    rcases hbusy r List.mem_cons_self with ⟨chunk, rfl, hmax⟩ | rfl
    · rw [List.cons_append, readLoop] at hrun
      obtain ⟨text, htext, hrun⟩ := bind_eq_ok.1 hrun
      rw [ReadResult.bytes]
      rw [terminated_data] at hnot
      by_cases hend : Terminated last reads
      · -- this string is the one that ends early
        have hlt := cString_readBuffer_lt hmax (fun h => hnot ⟨h, hend⟩) htext
        rw [readLoop_append hbusy.of_cons hend, readLoop, if_neg nofun, if_pos rfl] at hrun
        rw [← Option.some.inj (Except.ok.inj hrun), List.length_append, List.length_append]
        omega
      · have hlt := ih hbusy.of_cons hend hrun
        have hle : text.length ≤ chunk.length := by
          by_cases hgood : 0 ∉ chunk ∧ (chunk.length < 1024 ∨ last = 0)
          · rw [Except.ok.inj (htext.symm.trans (cString_readBuffer hgood.1 hgood.2))]
          · exact (cString_readBuffer_lt hmax hgood htext).le
        rw [List.length_append] at hlt
        omega
    · rw [terminated_failed] at hnot
      rw [List.cons_append, readLoop, if_pos rfl] at hrun
      have hlt := ih hbusy.of_cons hnot hrun
      rwa [ReadResult.bytes, List.length_nil, Nat.zero_add]

/-- When the buffer of the kernel is empty, the data is all that was received, wherever the stream
was cut and however often the calls were interrupted, if and only if no byte is zero, and no chunk
fills the array, or its last byte is zero. -/
theorem readLoop_complete_iff (last : UInt8) (errno : Errno) (data : List UInt8)
    (reads : List (ReadResult Errno)) (hbusy : Busy reads) :
    readLoop last errno data (reads ++ [.failed .eagain]) = .ok (some (data ++ received reads)) ↔
      Terminated last reads := by
  constructor
  · intro hrun
    by_contra hnot
    have hlt := readLoop_lt hbusy hnot hrun
    rw [List.length_append] at hlt
    exact Nat.lt_irrefl _ hlt
  · intro hend
    rw [readLoop_append hbusy hend, readLoop, if_neg nofun, if_pos rfl]

/-- Two chunks and an interrupted call. -/
theorem readLoop_complete_iff_two :
    readLoop 7 .other [] ([.data [104, 105], .failed .eintr, .data [33]] ++ [.failed .eagain]) =
        .ok (some ([] ++ [104, 105, 33])) ↔
      Terminated 7 [.data [104, 105], .failed .eintr, .data [33]] :=
  readLoop_complete_iff 7 .other [] [.data [104, 105], .failed .eintr, .data [33]]
    (by simp [Busy])

/-! ## The end of the stream -/

/-- If all chunks end inside the array, and the peer has closed the connection behind them, the data
is what was received, unless a call was interrupted before, so that `errno` is still `EINTR`. Then
the loop goes on for ever. -/
theorem readLoop_closed (last : UInt8) (errno : Errno) (data : List UInt8)
    (reads : List (ReadResult Errno)) (hbusy : Busy reads) (hend : Terminated last reads) (n : ℕ) :
    readLoop last errno data (reads ++ List.replicate (n + 1) .closed) =
      if errnoAfter errno reads = .eintr then .error .diverged
      else .ok (some (data ++ received reads)) := by
  rw [readLoop_append hbusy hend]
  generalize errnoAfter errno reads = e
  rw [List.replicate_succ, readLoop]
  by_cases he : e = .eintr
  · rw [if_pos he, if_pos he]
    induction n with
    | zero => rfl
    | succ n ih => rw [List.replicate_succ, readLoop, if_pos he, ih]
  · rw [if_neg he, if_neg he]

/-- A call is interrupted, and then the peer closes the connection. -/
theorem readLoop_closed_interrupted :
    readLoop 7 .other [] ([.failed .eintr, .data [104, 105]] ++ List.replicate 4 .closed) =
      .error .diverged :=
  readLoop_closed 7 .other [] [.failed .eintr, .data [104, 105]] (by simp [Busy])
    (by simp [Terminated]) 3

end CppLearn.Reactor

import CppLearn.Lib.ByteStreams
import Mathlib.Algebra.Order.Ring.Int

/-!
# The messages of the client in `client.h`

The client sends its identifier, which must have ten characters, and then waits for a topic of 16
bytes. It reads the topic from a descriptor that does not block, until there are enough bytes, and
appends what it reads as strings that end with a zero byte.

The function that is meant to fill up the identifier is the constructor of `std::string` with the
number of characters first, so it puts `'0'`, which is 48, characters in front. The identifier is
sent only if it has ten characters without them.

`stop_` is a local variable of the loop here, as nothing else sets it. The threads, the connection
and the game itself, of which little exists, are left out.

`sendId` are the bytes that `send_id` sends, and `sendId_ok_iff` are the identifiers that can be
sent. `waitForOthers` takes the results of its calls of `read`. The topic does not depend on how the
stream is cut (`waitForOthers_topic`), and `waitForOthers_closed` is what happens when the server
closes the connection early.
-/

namespace CppLearn.SpadesThree

open BoundedLoop ByteStreams

/-! ## `send_id` -/

/-- `std::to_string`. -/
def toStdString (id : ℤ) : List UInt8 := (toString id).toList.map fun c => UInt8.ofNat c.toNat

/-- `send_id`: what is sent. -/
def sendId (id : ℤ) : Except Fault (List UInt8) :=
  let text := toStdString id
  -- `std::string('0', 10 - id.size())`
  let text :=
    if text.length ≠ 10 then
      List.replicate '0'.toNat (UInt8.ofNat ((10 - text.length : ℤ) % 256).toNat) ++ text
    else text
  if text.length = 10 then .ok text else .error .checkFailed

/-- How many digits a number has. -/
theorem length_repr_eq_iff (n : ℕ) {k : ℕ} (hk : 1 ≤ k) :
    n.repr.length = k + 1 ↔ 10 ^ k ≤ n ∧ n < 10 ^ (k + 1) := by
  have hle := Nat.length_repr_le_iff (n := n) (k := k + 1) (Nat.succ_pos k)
  have hlt := Nat.length_repr_le_iff (n := n) (k := k) hk
  omega

/-- A negative number has one more character. -/
theorem length_toStdString (id : ℤ) :
    (toStdString id).length =
      if 0 ≤ id then id.toNat.repr.length else (-id).toNat.repr.length + 1 := by
  rw [toStdString, List.length_map, String.length_toList, Int.toString_eq_repr, Int.repr_eq_if]
  split_ifs
  · rfl
  · rw [String.length_append]
    exact Nat.add_comm 1 _

/-- The identifiers with ten characters. -/
theorem length_toStdString_eq_iff (id : ℤ) :
    (toStdString id).length = 10 ↔
      10 ^ 9 ≤ id ∧ id < 10 ^ 10 ∨ -10 ^ 9 < id ∧ id ≤ -10 ^ 8 := by
  rw [length_toStdString]
  split_ifs with hid
  · have hrepr := length_repr_eq_iff id.toNat (show 1 ≤ 9 by decide)
    omega
  · have hrepr := length_repr_eq_iff (-id).toNat (show 1 ≤ 8 by decide)
    omega

/-- Exactly the identifiers with ten characters can be sent. Those that are shorter, as the
identifier 0 of the program, are not filled up to ten characters, but to more. -/
theorem sendId_ok_iff (id : ℤ) (text : List UInt8) :
    sendId id = .ok text ↔
      text = toStdString id ∧ (10 ^ 9 ≤ id ∧ id < 10 ^ 10 ∨ -10 ^ 9 < id ∧ id ≤ -10 ^ 8) := by
  rw [← length_toStdString_eq_iff, sendId]
  by_cases hlen : (toStdString id).length = 10
  · rw [if_neg (not_not.2 hlen), if_pos hlen, Except.ok.injEq, and_iff_left hlen]
    exact eq_comm
  · have hlong : (List.replicate '0'.toNat (UInt8.ofNat
        ((10 - (toStdString id).length : ℤ) % 256).toNat) ++ toStdString id).length ≠ 10 := by
      rw [List.length_append, List.length_replicate]
      show 48 + (toStdString id).length ≠ 10
      omega
    rw [if_pos hlen, if_neg hlong]
    exact iff_of_false nofun fun h => hlen h.2

/-! ## `wait_for_others` -/

/-- The values of `errno` that the client tells apart. -/
inductive Errno where
  | eagain
  | other
  deriving DecidableEq

/-- The variables of the loop, with `errno`. -/
structure Waiting where
  bytes : ℤ
  topic : List UInt8
  stop : Bool
  errno : Errno

/-- What is in `buf` after a chunk was read. -/
def buffer (chunk : List UInt8) : List UInt8 := chunk ++ List.replicate (17 - chunk.length) 0

/-- An iteration of the loop. -/
def Waiting.next (s : Waiting) : ReadResult Errno → Except Fault Waiting
  | .data chunk => do
    .ok { s with
      topic := s.topic ++ (← cString (buffer chunk))
      bytes := s.bytes + chunk.length }
  | .closed =>
    if s.errno = .eagain then .ok s
    else do .ok { s with stop := true, topic := s.topic ++ (← cString (buffer [])) }
  | .failed errno =>
    if errno = .eagain then .ok { s with errno }
    else do
      .ok ⟨s.bytes - 1, s.topic ++ (← cString (buffer [])), true, errno⟩

/-- The loop, and what comes after it: the topic, or nothing when the client stops. -/
def Waiting.run (s : Waiting) (reads : List (ReadResult Errno)) :
    Except Fault (Option (List UInt8)) :=
  if s.bytes < 16 ∧ ¬s.stop then
    match reads with
    | [] => .error .diverged
    | r :: reads => do (← s.next r).run reads
  else if s.stop then .ok none
  else if s.topic.length = 16 then .ok (some s.topic)
  else .error .checkFailed
  termination_by structural reads

/-- `wait_for_others`, where `errno` is what earlier calls have left. -/
def waitForOthers (errno : Errno) (reads : List (ReadResult Errno)) :
    Except Fault (Option (List UInt8)) :=
  (⟨0, [], false, errno⟩ : Waiting).run reads

/-- The calls of `read` return bytes, or there are none yet. -/
def Open (reads : List (ReadResult Errno)) : Prop :=
  ∀ r ∈ reads, r ≠ .closed ∧ r ≠ .failed .other

variable {s : Waiting} {reads : List (ReadResult Errno)} {chunk : List UInt8}

/-- The string is shorter than the chunk if there is a zero byte in it. -/
theorem cString_buffer (hlen : chunk.length < 17) :
    ∃ text, cString (buffer chunk) = .ok text ∧ (0 ∉ chunk → text = chunk) ∧
      (0 ∈ chunk → text.length < chunk.length) := by
  have hrest : (List.replicate (17 - chunk.length) (0 : UInt8)).head? = some 0 := by
    rw [show 17 - chunk.length = 16 - chunk.length + 1 by omega]
    rfl
  by_cases hzero : 0 ∈ chunk
  · obtain ⟨text, htext, hlt⟩ := cString_of_mem hzero (List.replicate (17 - chunk.length) 0)
    exact ⟨text, htext, fun hnot => absurd hzero hnot, fun _ => hlt⟩
  · exact ⟨chunk, cString_append hzero hrest, fun _ => rfl, fun hmem => absurd hmem hzero⟩

/-- A chunk that leaves room for a zero byte behind it. -/
theorem Waiting.next_data (s : Waiting) (hlen : chunk.length < 17) :
    ∃ text, s.next (.data chunk) =
        .ok { s with topic := s.topic ++ text, bytes := s.bytes + chunk.length } ∧
      (0 ∉ chunk → text = chunk) ∧ (0 ∈ chunk → text.length < chunk.length) := by
  obtain ⟨text, htext, hclean, hzero⟩ := cString_buffer hlen
  refine ⟨text, ?_, hclean, hzero⟩
  rw [Waiting.next, htext, ok_bind]

/-- As long as bytes are missing, the next `read` counts, -/
theorem Waiting.run_of_lt (hlt : s.bytes < 16) (hstop : s.stop = false) (r : ReadResult Errno)
    (reads : List (ReadResult Errno)) :
    s.run (r :: reads) = (s.next r).bind fun s => s.run reads := by
  rw [Waiting.run, if_pos ⟨hlt, by simp [hstop]⟩]
  rfl

/-- then the loop ends. -/
theorem Waiting.run_of_ge (hge : 16 ≤ s.bytes) (hstop : s.stop = false)
    (reads : List (ReadResult Errno)) :
    s.run reads = if s.topic.length = 16 then .ok (some s.topic) else .error .checkFailed := by
  have hexit : ¬(s.bytes < 16 ∧ ¬s.stop) := fun h => hge.not_gt h.1
  cases reads <;> rw [Waiting.run, if_neg hexit, if_neg (by simp [hstop])]

/-- The connection is open for the reads that are left. -/
theorem Open.of_cons {r : ReadResult Errno} (h : Open (r :: reads)) : Open reads :=
  fun r' hr' => h r' (List.mem_cons_of_mem r hr')

/-- The loop from any state in which 16 bytes will have been read in the end. -/
theorem Waiting.run_eq (hopen : Open reads) (hstop : s.stop = false)
    (hle : s.topic.length ≤ s.bytes) (htotal : s.bytes + (received reads).length = 16) :
    s.run reads =
      if s.topic.length = s.bytes ∧ 0 ∉ received reads then .ok (some (s.topic ++ received reads))
      else .error .checkFailed := by
  induction reads generalizing s with
  -- sixteen bytes have been read, so that the loop is not entered
  | nil =>
    have hbytes : s.bytes = 16 := by simpa using htotal
    rw [run_of_ge hbytes.ge hstop, received_nil, List.append_nil]
    exact if_congr ⟨fun h => ⟨by omega, List.not_mem_nil⟩, fun h => by omega⟩ rfl rfl
  | cons r reads ih =>
    -- all sixteen bytes may be there already
    rcases le_or_gt 16 s.bytes with hge | hlt
    · have hnil : received (r :: reads) = [] := List.eq_nil_of_length_eq_zero (by omega)
      rw [hnil, List.length_nil] at htotal
      rw [run_of_ge hge hstop, hnil, List.append_nil]
      exact if_congr ⟨fun h => ⟨by omega, List.not_mem_nil⟩, fun h => by omega⟩ rfl rfl
    · rw [run_of_lt hlt hstop]
      cases r with
      | closed => exact absurd rfl (hopen _ List.mem_cons_self).1
      -- a read that fails with `EAGAIN` changes nothing
      | failed errno =>
        cases errno with
        | other => exact absurd rfl (hopen _ List.mem_cons_self).2
        | eagain => exact ih hopen.of_cons hstop hle htotal
      -- a chunk is cut at its first zero byte, and counted in full
      | data chunk =>
        rw [received_cons, ReadResult.bytes, List.length_append] at htotal
        obtain ⟨text, hnext, hclean, hzero⟩ :=
          s.next_data (show chunk.length < 17 by omega)
        rw [hnext]
        have hlen : text.length ≤ chunk.length := by
          by_cases hmem : 0 ∈ chunk
          · exact (hzero hmem).le
          · rw [hclean hmem]
        have hrun := ih (s := { s with topic := s.topic ++ text, bytes := s.bytes + chunk.length })
          hopen.of_cons hstop (by rw [List.length_append]; push_cast; omega)
          (by dsimp only; push_cast at htotal; omega)
        refine hrun.trans ?_
        have hlength : ((s.topic ++ text).length : ℤ) = s.topic.length + text.length := by
          rw [List.length_append]
          exact Nat.cast_add _ _
        dsimp only
        rw [received_cons, ReadResult.bytes]
        -- with a zero byte in the chunk the topic stays shorter than the bytes read
        by_cases hmem : 0 ∈ chunk
        · have hlt := hzero hmem
          rw [if_neg fun h => by omega, if_neg fun h => h.2 (List.mem_append_left _ hmem)]
        · rw [hclean hmem] at hlength ⊢
          rw [List.append_assoc]
          refine if_congr ⟨fun h => ⟨by omega, fun hr => ?_⟩, fun h => ⟨by omega, fun hr =>
            h.2 (List.mem_append_right _ hr)⟩⟩ rfl rfl
          exact (List.mem_append.1 hr).elim hmem h.2

/-- If the server sends 16 bytes, the topic is what it sends, wherever the bytes are cut and however
often the client has to wait. But if one of the bytes is zero, the client is aborted. -/
theorem waitForOthers_topic (errno : Errno) (reads : List (ReadResult Errno)) (hopen : Open reads)
    (htotal : (received reads).length = 16) :
    waitForOthers errno reads =
      if 0 ∈ received reads then .error .checkFailed else .ok (some (received reads)) := by
  rw [waitForOthers, Waiting.run_eq hopen rfl le_rfl (by dsimp only; omega)]
  by_cases hzero : 0 ∈ received reads
  · rw [if_neg fun h => h.2 hzero, if_pos hzero]
  · rw [if_pos ⟨rfl, hzero⟩, if_neg hzero]
    rfl

/-- Two pieces, and the client has to wait before each of them. -/
theorem waitForOthers_topic_pieces :
    waitForOthers .other [.failed .eagain, .data (List.replicate 10 65), .failed .eagain,
        .data (List.replicate 6 66)] = .ok (some (List.replicate 10 65 ++ List.replicate 6 66)) :=
  waitForOthers_topic .other [.failed .eagain, .data (List.replicate 10 65), .failed .eagain,
    .data (List.replicate 6 66)] (by simp [Open]) rfl

/-- The loop ends when it is told to. -/
theorem Waiting.run_stop (hstop : s.stop = true) (reads : List (ReadResult Errno)) :
    s.run reads = .ok none := by
  have hexit : ¬(s.bytes < 16 ∧ ¬s.stop) := fun h => h.2 hstop
  cases reads <;> rw [Waiting.run, if_neg hexit, if_pos hstop]

/-- The server has closed the connection, and `errno` still has the value of the last error. -/
theorem Waiting.run_closed (hstop : s.stop = false) (hlt : s.bytes < 16) (n : ℕ) :
    s.run (List.replicate (n + 1) .closed) =
      if s.errno = .eagain then .error .diverged else .ok none := by
  rw [List.replicate_succ, run_of_lt hlt hstop, Waiting.next]
  by_cases herrno : s.errno = .eagain
  · rw [if_pos herrno, if_pos herrno]
    show s.run (List.replicate n .closed) = _
    induction n with
    | zero => rw [List.replicate_zero, Waiting.run, if_pos ⟨hlt, by simp [hstop]⟩]
    | succ n ih =>
      rw [List.replicate_succ, run_of_lt hlt hstop, Waiting.next, if_pos herrno]
      exact ih
  · obtain ⟨text, htext, -⟩ := cString_buffer (show ([] : List UInt8).length < 17 by decide)
    rw [if_neg herrno, if_neg herrno, htext, ok_bind]
    exact run_stop rfl _

/-- The peer closes before all bytes have come: the loop asks for the `errno` of an earlier call. -/
theorem Waiting.run_append_closed (hopen : Open reads) (hstop : s.stop = false)
    (hpos : 0 ≤ s.bytes) (hlt : s.bytes + (received reads).length < 16) (n : ℕ) :
    s.run (reads ++ List.replicate (n + 1) .closed) =
      if errnoAfter s.errno reads = .eagain then .error .diverged else .ok none := by
  induction reads generalizing s with
  | nil => exact run_closed hstop (by simpa using hlt) n
  | cons r reads ih =>
    rw [List.cons_append, run_of_lt (by omega) hstop]
    cases r with
    | closed => exact absurd rfl (hopen _ List.mem_cons_self).1
    | failed errno =>
      cases errno with
      | other => exact absurd rfl (hopen _ List.mem_cons_self).2
      | eagain => exact ih (s := { s with errno := .eagain }) hopen.of_cons hstop hpos hlt
    | data chunk =>
      rw [received_cons, ReadResult.bytes, List.length_append] at hlt
      obtain ⟨text, hnext, -⟩ := s.next_data (show chunk.length < 17 by omega)
      rw [hnext]
      exact ih (s := { s with topic := s.topic ++ text, bytes := s.bytes + chunk.length })
        hopen.of_cons hstop (by dsimp only; omega) (by dsimp only; push_cast at hlt; omega)

/-- If the server closes the connection before it has sent 16 bytes, the client stops, unless it has
had to wait before, and no other error has come since. Then `errno` is still `EAGAIN`, and the
client reads for ever. -/
theorem waitForOthers_closed (errno : Errno) (reads : List (ReadResult Errno)) (hopen : Open reads)
    (htotal : (received reads).length < 16) (n : ℕ) :
    waitForOthers errno (reads ++ List.replicate (n + 1) .closed) =
      if errnoAfter errno reads = .eagain then .error .diverged else .ok none :=
  Waiting.run_append_closed hopen rfl le_rfl (by simpa using htotal) n

/-- The client has to wait, and then the server closes the connection. -/
theorem waitForOthers_closed_waiting :
    waitForOthers .other ([.failed .eagain, .data [65]] ++ List.replicate 3 .closed) =
      .error .diverged :=
  waitForOthers_closed .other [.failed .eagain, .data [65]] (by simp [Open]) (by decide) 2

end CppLearn.SpadesThree

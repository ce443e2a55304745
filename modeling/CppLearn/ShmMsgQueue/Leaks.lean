import CppLearn.ShmMsgQueue.Custody
import CppLearn.ShmMsgQueue.Stock

/-!
# The message queue leaks nothing

A failed attempt to allocate puts its node back, and `release_chunk` gives back the very block that
`allocate` took. So in every interleaving the blocks in use are those of the chunks that are queued
or held. When there are none, all nodes are free and the allocator is as it was at the start.

The invariant is `Settled`; it holds in every reachable state (`reachable_settled`). So a queue at
rest is as good as new (`reachable_no_leak`).
-/

namespace CppLearn.ShmMsgQueue

open BoundedLoop LinkedList BuddyTree Buddy

variable {options : Options} {bufferAddr n unit H : ℕ} {q q₀ : Queue}
  {s s' : State} {action : Action}

/-- Nodes and blocks are accounted for by the messages and the chunks in the hands of clients, and
the allocator and the buffer come from `q₀`. -/
structure Settled (n unit H : ℕ) (q₀ : Queue) (s : State) : Prop where
  stock : ∃ free msgs t, Stock n unit H s.queue free msgs (chunks s.held) t
  evolves : Evolves q₀.memoryAllocator s.queue.memoryAllocator
  buffer : s.queue.bufferMmapSize = q₀.bufferMmapSize

/-- Every step keeps account of nodes and blocks. -/
theorem Step.settled (hstep : Step s action s') (h : Settled n unit H q₀ s) :
    Settled n unit H q₀ s' := by
  obtain ⟨⟨free, msgs, t, hstock⟩, hevolves, hbuffer⟩ := h
  -- a chunk in the hands of a client is listed first
  have herase : ∀ {x : Holding}, x ∈ s.held →
      Stock n unit H s.queue free msgs (x.chunk :: chunks (s.held.erase x)) t :=
    fun hx => hstock.perm (chunks_erase hx).symm
  cases hstep with
  | allocate hrun =>
    obtain ⟨hcontrol, hnew, ⟨hr, -⟩ | ⟨chunk, addr, rest, t', hr, -, -, hstock'⟩⟩ :=
      hstock.allocate hrun
    · cases hr
    · cases hr
      exact ⟨⟨rest, msgs, t', hstock'⟩, hevolves.trans hnew, hcontrol.bufferMmapSize.trans hbuffer⟩
  | allocateFails hrun =>
    obtain ⟨hcontrol, hnew, ⟨-, -, hstock'⟩ | ⟨chunk, addr, rest, t', hr, -⟩⟩ :=
      hstock.allocate hrun
    · exact ⟨⟨free, msgs, t, hstock'⟩, hevolves.trans hnew, hcontrol.bufferMmapSize.trans hbuffer⟩
    · cases hr
  | enqueue hx hrun =>
    obtain ⟨q', hq, hcontrol, -, halloc, hstock'⟩ := (herase hx).enqueue
    obtain rfl := Except.ok.inj (hq.symm.trans hrun)
    exact ⟨⟨free, _, t, hstock'⟩, halloc ▸ hevolves, hcontrol.bufferMmapSize.trans hbuffer⟩
  | dequeue hrun =>
    rcases hstock.dequeue with ⟨-, hq⟩ | ⟨i, rest, q', rfl, hq, hcontrol, -, halloc, hstock'⟩
    · have heq := (Prod.mk.inj (Except.ok.inj (hq.symm.trans hrun))).1
      split_ifs at heq
    · obtain ⟨heq, rfl⟩ := Prod.mk.inj (Except.ok.inj (hq.symm.trans hrun))
      obtain ⟨rfl, -, -⟩ := Outcome.ok.inj heq
      exact ⟨⟨free, rest, t, hstock'⟩, halloc ▸ hevolves, hcontrol.bufferMmapSize.trans hbuffer⟩
  | dequeueEmpty hrun hempty =>
    rcases hstock.dequeue with ⟨-, hq⟩ | ⟨i, rest, q', rfl, hq, -⟩
    · obtain ⟨-, rfl⟩ := Prod.mk.inj (Except.ok.inj (hq.symm.trans hrun))
      exact ⟨⟨free, msgs, t, hstock⟩, hevolves, hbuffer⟩
    · obtain ⟨rfl, -⟩ := Prod.mk.inj (Except.ok.inj (hq.symm.trans hrun))
      simp at hempty
  | release hx hrun =>
    obtain ⟨q', t', hq, hcontrol, -, hnew, hstock'⟩ := (herase hx).release
    obtain rfl := Except.ok.inj (hq.symm.trans hrun)
    exact ⟨⟨_, msgs, t', hstock'⟩, hevolves.trans hnew, hcontrol.bufferMmapSize.trans hbuffer⟩
  | setPreducerCount => exact ⟨⟨free, msgs, t, { hstock with }⟩, hevolves, hbuffer⟩
  | signalPreducingComplete => exact ⟨⟨free, msgs, t, { hstock with }⟩, hevolves, hbuffer⟩

theorem reachable_settled (hinit : Queue.init options bufferAddr = .ok q₀)
    (h₀ : Settled n unit H q₀ ⟨q₀, [], [], []⟩)
    (hreach : Reachable options bufferAddr s) : Settled n unit H q₀ s := by
  induction hreach with
  | init hq =>
    obtain rfl := Except.ok.inj (hq.symm.trans hinit)
    exact h₀
  | step _ hstep ih => exact hstep.settled ih

/-- When no chunk is queued or held, all nodes are free. -/
theorem Settled.at_rest (h : Settled n unit H q₀ s) (hqueued : s.queue.chunkList.head = none)
    (hheld : s.held = []) :
    ∃ free t, Stock n unit H s.queue free [] [] t ∧ free.Perm (List.range n) := by
  obtain ⟨free, msgs, t, hstock⟩ := h.stock
  obtain rfl : msgs = [] := by
    have hhead := hstock.lists.msgChain.head
    rw [hqueued] at hhead
    exact List.head?_eq_none_iff.1 hhead.symm
  rw [hheld] at hstock
  exact ⟨free, t, hstock, by simpa [chunks] using hstock.partition⟩

/-- An attempt to allocate in a queue with a free node succeeds with the allocator. -/
theorem Stock.allocate_some_iff {free msgs used : List ℕ} {t : SplitTree} {size addr i : ℕ}
    (h : Stock n unit H q (i :: free) msgs used t) :
    (∃ chunk q', q.allocate size = .ok (some (chunk, addr), q')) ↔
      size ≤ q.bufferMmapSize ∧ ∃ a, q.memoryAllocator.allocate size = .ok (some addr, a) := by
  constructor
  · rintro ⟨chunk, q', hrun⟩
    obtain ⟨hsize, -, hcase⟩ := allocate_cases h.lists h.capacity_lt hrun
    refine ⟨hsize, ?_⟩
    rcases hcase with ⟨hr, -⟩ | ⟨_, _, _, -, hr, halloc, -⟩
    · cases hr
    · cases hr
      exact ⟨_, halloc⟩
  · -- there is a free node, so the attempt gets as far as the allocator
    rintro ⟨hsize, a, halloc⟩
    obtain ⟨q', hrun, -⟩ := tryAllocate_some h.lists h.capacity_lt halloc
    exact ⟨i, q', by rw [Queue.allocate, if_pos hsize, hrun]⟩

/-- In every state in which no chunk is queued or held, with a pool size that is a multiple of
`2 ^ (numOrder - 1)`: all nodes are on the free list, the allocator is that of the new queue, its
table included, and attempts to allocate succeed as they do with the new queue. -/
theorem reachable_no_leak (options : Options) (bufferAddr : ℕ) (hfits : PoolFits options)
    (hmapped : Mapped bufferAddr options.poolSize) (q₀ : Queue)
    (hinit : Queue.init options bufferAddr = .ok q₀) (s : State)
    (hreach : Reachable options bufferAddr s) (hqueued : s.queue.chunkList.head = none)
    (hheld : s.held = []) :
    (∃ free,
      Chain (fun i => (s.queue.chunkList.nodes i).next) s.queue.chunkList.freeListHead free ∧
      free.Perm (List.range (options.capacity % 2 ^ 32))) ∧
    s.queue.memoryAllocator = q₀.memoryAllocator ∧
    ∀ size addr, (∃ chunk q, s.queue.allocate size = .ok (some (chunk, addr), q)) ↔
      ∃ chunk q, q₀.allocate size = .ok (some (chunk, addr), q) := by
  obtain ⟨unit, H, hstock₀⟩ := init_stock hfits hmapped hinit
  have hsettled := reachable_settled hinit ⟨⟨_, _, _, hstock₀⟩, .refl _, rfl⟩ hreach
  have hbuffer := hsettled.buffer
  obtain ⟨free, t, hstock, hperm⟩ := hsettled.at_rest hqueued hheld
  have halloc : s.queue.memoryAllocator = q₀.memoryAllocator :=
    hstock.tracks.eq_of_nil hstock₀.tracks hsettled.evolves
  refine ⟨⟨free, hstock.lists.freeChain, hperm⟩, halloc, fun size addr => ?_⟩
  -- both queues have a free node
  have hpos : 0 < (List.range (options.capacity % 2 ^ 32)).length := by
    rw [List.length_range]
    exact init_capacity_pos (init_cases hinit).1
  obtain ⟨i, rest, hrange⟩ := List.exists_cons_of_length_pos hpos
  obtain ⟨j, free, rfl⟩ := List.exists_cons_of_length_pos (hperm.length_eq ▸ hpos)
  rw [hrange] at hstock₀
  rw [hstock.allocate_some_iff, hstock₀.allocate_some_iff, halloc, hbuffer]

/-- A client has allocated a chunk of one byte and released it. -/
theorem reachable_no_leak_released :
    ∃ q₀ s, Queue.init ⟨2, 1⟩ 4096 = .ok q₀ ∧ Reachable ⟨2, 1⟩ 4096 s ∧ s.held = [] ∧
      s.queue.memoryAllocator = q₀.memoryAllocator := by
  have heval : (do
      let q ← Queue.init ⟨2, 1⟩ 4096
      let (r, q) ← q.allocate 1
      let q ← q.releaseChunk 0
      pure (r, q.chunkList.head)).toOption = some (some (0, 4096), none) := by decide +kernel
  simp only [bind, toOption_bind_eq_some, Prod.exists] at heval
  obtain ⟨q₀, h₀, r, q₁, h₁, q₂, h₂, heq⟩ := heval
  obtain ⟨rfl, hhead⟩ := Prod.mk.inj (Option.some.inj heq)
  have hheld : Reachable ⟨2, 1⟩ 4096 ⟨q₁, [⟨7, 0, .allocated⟩], [], []⟩ :=
    .step (.init h₀) (.allocate h₁)
  have hreach : Reachable ⟨2, 1⟩ 4096 ⟨q₂, [⟨7, 0, .allocated⟩].erase ⟨7, 0, .allocated⟩, [], []⟩ :=
    .step hheld (.release (List.mem_singleton_self _) h₂)
  exact ⟨q₀, _, h₀, hreach, rfl, (reachable_no_leak ⟨2, 1⟩ 4096 (poolFits_of_lt (by decide))
    ⟨by decide, by decide, by decide⟩ q₀ h₀ _ hreach hhead rfl).2.1⟩

end CppLearn.ShmMsgQueue

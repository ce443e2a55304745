import CppLearn.Buddy.Refusals
import CppLearn.ShmMsgQueue.Leaks

/-!
# Allocations from an idle queue

`allocate` admits every size up to the size of the buffer, and rounds it up to a power of two. The
rounded size exceeds the buffer where no power of two lies between the two, and then no attempt
succeeds, not even while the whole buffer is free: a blocking `allocate` repeats its attempts
forever. With a buffer whose size is a power of two this does not happen.

With a buffer whose size is a power of two attempts succeed (`idle_allocate_of_pow`), and with other
buffers the attempt for the whole buffer fails (`new_allocate_none`). Both together are
`idle_allocate_iff`.
-/

namespace CppLearn.ShmMsgQueue

open BoundedLoop Buddy

variable {options : Options} {bufferAddr k m : ℕ} {q₀ : Queue} {s : State}

/-- A power of two can be halved down to the minimal block size. -/
theorem poolFits_of_pow (hpow : options.poolSize = 2 ^ m) : PoolFits options := by
  intro k hk
  obtain ⟨k', hk', -, hle⟩ :=
    computeNumOrder_spec options.poolSize (Nat.mod_lt _ (by decide))
  obtain rfl := Except.ok.inj (hk'.symm.trans hk)
  rcases Nat.eq_zero_or_pos k' with rfl | hpos
  · simp
  rw [hpow] at hle ⊢
  have hexp : 2 ^ (k' - 1) ≤ 2 ^ m :=
    (Nat.le_mul_of_pos_left _ (by decide)).trans (hle hpos)
  exact Nat.pow_dvd_pow 2 ((Nat.pow_le_pow_iff_right (by decide)).1 hexp)

/-- With a power of two as the size of the buffer, a queue at rest has a block for every size that
`allocate` admits. -/
theorem idle_allocate_of_pow (hmapped : Mapped bufferAddr options.poolSize)
    (hinit : Queue.init options bufferAddr = .ok q₀) (hpow : options.poolSize = 2 ^ m)
    (hreach : Reachable options bufferAddr s) (hqueued : s.queue.chunkList.head = none)
    (hheld : s.held = []) {size : ℕ} (hsize : size ≤ s.queue.bufferMmapSize) :
    ∃ chunk addr q, s.queue.allocate size = .ok (some (chunk, addr), q) := by
  obtain ⟨unit, H, hstock₀⟩ := init_stock (poolFits_of_pow hpow) hmapped hinit
  have hsettled := reachable_settled hinit ⟨⟨_, _, _, hstock₀⟩, .refl _, rfl⟩ hreach
  obtain ⟨free, t, hstock, hperm⟩ := hsettled.at_rest hqueued hheld
  -- there is a free node
  have hpos : 0 < free.length := by
    rw [hperm.length_eq, List.length_range]
    exact init_capacity_pos (init_cases hinit).1
  obtain ⟨i, free, rfl⟩ := List.exists_cons_of_length_pos hpos
  -- the rounded size is at most the pool, which is a power of two itself
  have hbuffer : s.queue.bufferMmapSize = 2 ^ m := by
    rw [hsettled.buffer, (init_cases hinit).2.2.2, hpow]
  have hbound := hsize.trans hstock.size
  have hpool : s.queue.memoryAllocator.poolSize = 2 ^ m := by
    obtain ⟨k, -, hcreate, -, -⟩ := init_orders hmapped.pos hinit
    rw [hsettled.evolves.fields, ← hpow]
    exact (create_fields hcreate).2.2.1
  obtain ⟨j, hround, -, hleast⟩ := roundedUp_spec hbound
  have hmin : s.queue.memoryAllocator.minBlockSize ≤ 2 ^ m := by
    rw [← hpool, hstock.tracks.geometry.min, hstock.tracks.geometry.size]
    exact (Nat.div_mul_le_self unit 2).trans (Nat.le_mul_of_pos_right unit (Nat.two_pow_pos H))
  have hj : 2 ^ j ≤ 2 ^ m := Nat.pow_le_pow_right (by decide) (hleast m (hbuffer ▸ hsize))
  obtain ⟨addr, a, halloc⟩ := hstock.tracks.allocate_of_nil hbound
    (roundedUpToMinBlockSize_eq hround _) (hpool ▸ max_le hj hmin)
  obtain ⟨chunk, q, hrun⟩ := hstock.allocate_some_iff.2 ⟨hsize, a, halloc⟩
  exact ⟨chunk, addr, q, hrun⟩

/-- With any other buffer, the attempt to allocate the whole of it from a new queue fails. -/
theorem new_allocate_none (hmapped : Mapped bufferAddr options.poolSize)
    (hinit : Queue.init options bufferAddr = .ok q₀) (hpow : ∀ m, options.poolSize ≠ 2 ^ m)
    (chunk addr : ℕ) (q : Queue) :
    q₀.allocate options.poolSize ≠ .ok (some (chunk, addr), q) := by
  intro hrun
  obtain ⟨hlist, -, -, -⟩ := init_cases hinit
  obtain ⟨hl, hbound⟩ := init_spec hlist
  obtain ⟨k, -, hcreate, horder, hle⟩ := init_orders hmapped.pos hinit
  -- the next power of two is larger than the pool
  obtain ⟨j, hround, hsize, -⟩ := roundedUp_spec hle
  have hlt : options.poolSize < max (2 ^ j) q₀.memoryAllocator.minBlockSize :=
    lt_max_of_lt_left (lt_of_le_of_ne hsize (hpow j))
  have hnull := allocate_new_null horder hcreate (roundedUpToMinBlockSize_eq hround _) hlt
  obtain ⟨-, -, ⟨hr, -⟩ | ⟨_, _, _, -, -, halloc, -⟩⟩ := allocate_cases hl hbound hrun
  · cases hr
  · rw [hnull] at halloc
    cases halloc

/-- In every state in which no chunk is queued or held, attempts to allocate succeed for all sizes
up to that of the buffer, if and only if the size of the buffer is a power of two. -/
theorem idle_allocate_iff (options : Options) (bufferAddr : ℕ)
    (hmapped : Mapped bufferAddr options.poolSize) (q₀ : Queue)
    (hinit : Queue.init options bufferAddr = .ok q₀) :
    (∀ s, Reachable options bufferAddr s → s.queue.chunkList.head = none → s.held = [] →
      ∀ size, 1 ≤ size → size ≤ s.queue.bufferMmapSize →
        ∃ chunk addr q, s.queue.allocate size = .ok (some (chunk, addr), q)) ↔
      ∃ m, options.poolSize = 2 ^ m := by
  constructor
  · intro hall
    by_contra hpow
    obtain ⟨hlist, -, -, hbuffer⟩ := init_cases hinit
    have hhead : q₀.chunkList.head = none := (init_spec hlist).1.msgChain.head
    obtain ⟨chunk, addr, q, hrun⟩ := hall ⟨q₀, [], [], []⟩ (.init hinit) hhead rfl
      options.poolSize hmapped.pos hbuffer.ge
    exact new_allocate_none hmapped hinit (not_exists.1 hpow) chunk addr q hrun
  · rintro ⟨m, hpow⟩ s hreach hqueued hheld size - hsize
    exact idle_allocate_of_pow hmapped hinit hpow hreach hqueued hheld hsize

/-- One mebibyte: the whole buffer of a new queue can be allocated. -/
theorem idle_allocate_mebibyte :
    ∃ q₀, Queue.init ⟨1, 1⟩ 4096 = .ok q₀ ∧
      ∃ chunk addr q, q₀.allocate (2 ^ 20) = .ok (some (chunk, addr), q) := by
  have heval : (do
      let q ← Queue.init ⟨1, 1⟩ 4096
      pure (q.chunkList.head, q.bufferMmapSize)).toOption = some (none, 2 ^ 20) := by
    decide +kernel
  simp only [bind, toOption_bind_eq_some] at heval
  obtain ⟨q₀, hinit, heq⟩ := heval
  obtain ⟨hhead, hbuffer⟩ := Prod.mk.inj (Option.some.inj heq)
  refine ⟨q₀, hinit, ?_⟩
  exact (idle_allocate_iff ⟨1, 1⟩ 4096 ⟨by decide, by decide, by decide⟩ q₀ hinit).2 ⟨20, rfl⟩
    ⟨q₀, [], [], []⟩ (.init hinit) hhead rfl (2 ^ 20) (by decide) hbuffer.ge

/-- Three mebibytes: the attempt to allocate the whole buffer of a new queue fails. -/
theorem idle_allocate_three_mebibytes :
    ∃ q₀, Queue.init ⟨1, 3⟩ 4096 = .ok q₀ ∧ Reachable ⟨1, 3⟩ 4096 ⟨q₀, [], [], []⟩ ∧
      q₀.chunkList.head = none ∧ 3 * 2 ^ 20 ≤ q₀.bufferMmapSize ∧
      ∃ q, q₀.allocate (3 * 2 ^ 20) = .ok (none, q) := by
  have heval : (do
      let q ← Queue.init ⟨1, 3⟩ 4096
      let (r, _) ← q.allocate (3 * 2 ^ 20)
      pure (q.chunkList.head, q.bufferMmapSize, r)).toOption = some (none, 3 * 2 ^ 20, none) := by
    decide +kernel
  simp only [bind, toOption_bind_eq_some, Prod.exists] at heval
  obtain ⟨q₀, hinit, r, q, hrun, heq⟩ := heval
  obtain ⟨hhead, hrest⟩ := Prod.mk.inj (Option.some.inj heq)
  obtain ⟨hbuffer, rfl⟩ := Prod.mk.inj hrest
  exact ⟨q₀, hinit, .init hinit, hhead, hbuffer.ge, q, hrun⟩

end CppLearn.ShmMsgQueue

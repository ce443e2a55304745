import CppLearn.Buddy.Correctness
import CppLearn.ShmMsgQueue.Operations

/-!
# Nodes and blocks

A message queue hands out nodes together with blocks of its buffer. The nodes that are not free are
on the message list or in use by clients, and their blocks are those that the allocator has handed
out.

`block` is the block that a node records, and `Stock` says where the nodes are and which blocks
belong to them. A new queue has a stock (`init_stock`), and each operation keeps it
(`Stock.allocate`, `Stock.enqueue`, `Stock.dequeue`, `Stock.release`). What is assumed about the
size and the address of the buffer is `PoolFits` and `Mapped`.
-/

namespace CppLearn.ShmMsgQueue

open BoundedLoop BuddyTree Buddy
open scoped List

/-- The address and size that a node records. -/
def block (list : ChunkList) (i : ℕ) : ℕ × ℕ := ((list.nodes i).data, (list.nodes i).size)

theorem block_of_samePayload {list list' : ChunkList} (h : SamePayload list list') :
    block list' = block list := by
  funext i
  rw [block, h.data, h.size, block]

/-- Each of the `n` nodes is on the free list, on the message list or in use, and the blocks of the
nodes that are not free are the blocks in use of the tree `t`. -/
structure Stock (n unit H : ℕ) (q : Queue) (free msgs used : List ℕ) (t : SplitTree) : Prop where
  lists : Lists q.chunkList free msgs
  capacity : q.chunkList.capacity = n
  bound : n < 2 ^ 31
  size : q.bufferMmapSize ≤ 2 ^ 63
  partition : (free ++ (msgs ++ used)).Perm (List.range n)
  tracks : Tracks q.memoryAllocator unit H t ((msgs ++ used).map (block q.chunkList))

variable {n unit H size chunk : ℕ} {q q' : Queue} {free msgs used : List ℕ} {t : SplitTree}

namespace Stock

theorem capacity_lt (h : Stock n unit H q free msgs used t) : q.chunkList.capacity < 2 ^ 31 := by
  rw [h.capacity]
  exact h.bound

theorem nodup (h : Stock n unit H q free msgs used t) : (free ++ (msgs ++ used)).Nodup :=
  h.partition.nodup_iff.2 List.nodup_range

/-- The order in which the nodes in use are listed does not matter. -/
theorem perm {used' : List ℕ} (h : Stock n unit H q free msgs used t) (hperm : used'.Perm used) :
    Stock n unit H q free msgs used' t :=
  ⟨h.lists, h.capacity, h.bound, h.size,
    ((hperm.append_left msgs).append_left free).trans h.partition,
    h.tracks.perm ((hperm.append_left msgs).map _)⟩

/-- A node in use is on neither list. -/
theorem not_mem (h : Stock n unit H q free msgs used t) (hchunk : chunk ∈ used) :
    chunk < q.chunkList.capacity ∧ chunk ∉ free ++ msgs := by
  constructor
  · rw [h.capacity]
    have hmem : chunk ∈ free ++ (msgs ++ used) := by simp [hchunk]
    exact List.mem_range.1 (h.partition.mem_iff.1 hmem)
  · have hnodup := h.nodup
    rw [← List.append_assoc] at hnodup
    intro hlist
    exact (List.nodup_append.1 hnodup).2.2 _ hlist _ hchunk rfl

/-- A change of the queue that keeps lists and blocks. -/
theorem of_samePayload (h : Stock n unit H q free msgs used t) (hl : Lists q'.chunkList free msgs)
    (hcontrol : SameControl q q') (hsame : SamePayload q.chunkList q'.chunkList)
    (halloc : q'.memoryAllocator = q.memoryAllocator) :
    Stock n unit H q' free msgs used t := by
  refine ⟨hl, hcontrol.capacity.trans h.capacity, h.bound, ?_, h.partition, ?_⟩
  · rw [hcontrol.bufferMmapSize]
    exact h.size
  · rw [halloc, block_of_samePayload hsame]
    exact h.tracks

/-- An attempt of `allocate` takes a node off the free list and a block from the pool, or changes
nothing. -/
theorem allocate (h : Stock n unit H q free msgs used t) {r : Option (ℕ × ℕ)}
    (hrun : q.allocate size = .ok (r, q')) :
    SameControl q q' ∧ Evolves q.memoryAllocator q'.memoryAllocator ∧
      ((r = none ∧ SamePayload q.chunkList q'.chunkList ∧ Stock n unit H q' free msgs used t) ∨
      ∃ chunk addr rest t', r = some (chunk, addr) ∧ block q'.chunkList chunk = (addr, size) ∧
        (∀ j ∈ msgs ++ used, block q'.chunkList j = block q.chunkList j) ∧
        Stock n unit H q' rest msgs (chunk :: used) t') := by
  obtain ⟨hsize, hcontrol, hcase⟩ := allocate_cases h.lists h.capacity_lt hrun
  have hblocks := h.tracks.allocate (hsize.trans h.size)
  rcases hcase with
    ⟨rfl, hl, hsame, halloc⟩ | ⟨i, rest, addr, rfl, rfl, halloc, hl, hdata, hsz, hother⟩
  · have heq : q'.memoryAllocator = q.memoryAllocator := by
      rcases halloc with halloc | halloc
      · exact halloc
      · rcases hblocks with hnone | ⟨_, _, _, hsome, -⟩
        · exact (Prod.mk.inj (Except.ok.inj (halloc.symm.trans hnone))).2
        · simp [halloc] at hsome
    refine ⟨hcontrol, by rw [heq]; exact .refl _, .inl ⟨rfl, hsame, ?_⟩⟩
    exact h.of_samePayload hl hcontrol hsame heq
  · rcases hblocks with hnone | ⟨_, a', t', hsome, hevolves, htracks⟩
    · simp [halloc] at hnone
    obtain ⟨heq, rfl⟩ := Prod.mk.inj (Except.ok.inj (halloc.symm.trans hsome))
    obtain rfl := Option.some.inj heq
    -- the new chunk is not in use, so the blocks in use are as before
    have hnew : i ∉ msgs ++ used := by
      intro hmem
      exact (List.nodup_cons.1 h.nodup).1 (List.mem_append_right rest hmem)
    have hblock : block q'.chunkList i = (addr, size) := by rw [block, hdata, hsz]
    have hold : ∀ j ∈ msgs ++ used, block q'.chunkList j = block q.chunkList j := by
      intro j hj
      rw [block, hother j (ne_of_mem_of_not_mem hj hnew), block]
    refine ⟨hcontrol, hevolves, .inr ⟨i, addr, rest, t', rfl, hblock, hold, ?_⟩⟩
    have hperm : (msgs ++ i :: used).Perm (i :: (msgs ++ used)) := List.perm_middle
    refine ⟨hl, hcontrol.capacity.trans h.capacity, h.bound, ?_, ?_, ?_⟩
    · rw [hcontrol.bufferMmapSize]
      exact h.size
    · exact ((hperm.append_left rest).trans List.perm_middle).trans h.partition
    · refine Tracks.perm ?_ (hperm.map (block q'.chunkList))
      rw [List.map_cons, hblock, List.map_congr_left hold]
      exact htracks

/-- `enqueue` moves a node in use to the end of the messages. -/
theorem enqueue (h : Stock n unit H q free msgs (chunk :: used) t) :
    ∃ q', q.enqueue chunk = .ok q' ∧ SameControl q q' ∧ SamePayload q.chunkList q'.chunkList ∧
      q'.memoryAllocator = q.memoryAllocator ∧ Stock n unit H q' free (msgs ++ [chunk]) used t := by
  obtain ⟨hi, hout⟩ := h.not_mem List.mem_cons_self
  obtain ⟨q', hrun, hl, hcontrol, halloc, hsame⟩ := enqueue_spec h.lists hi hout
  refine ⟨q', hrun, hcontrol, hsame, halloc, hl, hcontrol.capacity.trans h.capacity, h.bound,
    ?_, ?_, ?_⟩
  · rw [hcontrol.bufferMmapSize]
    exact h.size
  · -- the messages and the nodes in use are the same nodes as before
    rw [List.append_assoc msgs]
    exact h.partition
  · rw [halloc, block_of_samePayload hsame, List.append_assoc msgs]
    exact h.tracks

/-- `dequeue` puts the first message into use, or finds none. -/
theorem dequeue (h : Stock n unit H q free msgs used t) :
    (msgs = [] ∧ q.dequeue =
      .ok (if q.activePreducerCount = 0 then .closed else .wait, q)) ∨
    ∃ i rest q', msgs = i :: rest ∧
      q.dequeue = .ok (.ok i (block q.chunkList i).1 (block q.chunkList i).2, q') ∧
      SameControl q q' ∧ SamePayload q.chunkList q'.chunkList ∧
      q'.memoryAllocator = q.memoryAllocator ∧ Stock n unit H q' free rest (i :: used) t := by
  rcases dequeue_spec h.lists h.capacity_lt with
    hempty | ⟨i, rest, q', rfl, hrun, hl, hcontrol, halloc, hsame⟩
  · exact .inl hempty
  · have huse : (rest ++ i :: used).Perm (i :: rest ++ used) := List.perm_middle
    refine .inr ⟨i, rest, q', rfl, hrun, hcontrol, hsame, halloc, hl,
      hcontrol.capacity.trans h.capacity, h.bound, ?_,
      (huse.append_left free).trans h.partition, ?_⟩
    · rw [hcontrol.bufferMmapSize]
      exact h.size
    · rw [halloc, block_of_samePayload hsame]
      exact h.tracks.perm (huse.map _)

/-- `releaseChunk` frees a node in use with its block. -/
theorem release (h : Stock n unit H q free msgs (chunk :: used) t) :
    ∃ q' t', q.releaseChunk chunk = .ok q' ∧ SameControl q q' ∧
      SamePayload q.chunkList q'.chunkList ∧
      Evolves q.memoryAllocator q'.memoryAllocator ∧
      Stock n unit H q' (chunk :: free) msgs used t' := by
  obtain ⟨hi, hout⟩ := h.not_mem List.mem_cons_self
  have huse : (msgs ++ chunk :: used).Perm (chunk :: (msgs ++ used)) := List.perm_middle
  -- the allocator knows the block of the chunk as one of its live blocks
  have hlive := h.tracks.perm (huse.map (block q.chunkList)).symm
  obtain ⟨a, t', hdealloc, hevolves, htracks⟩ := hlive.deallocate List.mem_cons_self
  rw [List.map_cons, List.erase_cons_head] at htracks
  -- the deallocation goes through, so the chunk is released
  obtain ⟨q', hrun, hl, hcontrol, rfl, hsame⟩ := releaseChunk_ok h.lists hi hout hdealloc
  refine ⟨q', t', hrun, hcontrol, hsame, hevolves, hl, hcontrol.capacity.trans h.capacity, h.bound,
    ?_, ?_, ?_⟩
  · rw [hcontrol.bufferMmapSize]
    exact h.size
  · exact (List.perm_middle.symm.trans (huse.symm.append_left free)).trans h.partition
  · rw [block_of_samePayload hsame]
    exact htracks

end Stock

/-! ## The buffer -/

/-- The pool can be halved as often as the allocator has orders. -/
def PoolFits (options : Options) : Prop :=
  ∀ numOrder, computeNumOrder options.poolSize minBlockSize = .ok numOrder →
    2 ^ (numOrder - 1) ∣ options.poolSize

/-- What `mmap` guarantees when it succeeds: the region is not empty, does not contain the null
pointer and does not wrap. -/
structure Mapped (bufferAddr size : ℕ) : Prop where
  pos : 0 < size
  region : PoolRegion bufferAddr size

/-- `compute_num_order` counts the halvings down to the minimal block size. -/
theorem computeNumOrder_spec (poolSize : ℕ) (hsize : poolSize < 2 ^ 64) :
    ∃ k, computeNumOrder poolSize minBlockSize = .ok k ∧ poolSize < minBlockSize * 2 ^ k ∧
      (0 < k → minBlockSize * 2 ^ (k - 1) ≤ poolSize) := by
  obtain ⟨s, hrun, hlt, hle⟩ : ∃ s : ℕ × ℕ,
      whileLoop (fun _ => Fault.diverged) (fun s : ℕ × ℕ => .ok (decide (s.2 ≥ minBlockSize)))
        (fun s => .ok (s.1 + 1, s.2 / 2)) bitFuel (0, poolSize) = .ok s ∧
      poolSize < minBlockSize * 2 ^ s.1 ∧ (0 < s.1 → minBlockSize * 2 ^ (s.1 - 1) ≤ poolSize) := by
    -- after `s.1` halvings `s.2` is left, and the value before the last one was large enough
    refine whileLoop_spec
      (I := fun n s => n + s.1 = 64 ∧ s.2 = poolSize / 2 ^ s.1 ∧
        (0 < s.1 → minBlockSize * 2 ^ (s.1 - 1) ≤ poolSize)) (n := 64) ?_ ?_ ?_
      ⟨rfl, by simp, by simp⟩ (by decide)
    · rintro n s ⟨-, hs, hle⟩ hexit
      simp only [Except.ok.injEq, decide_eq_false_iff_not, Nat.not_le, hs] at hexit
      exact ⟨(Nat.div_lt_iff_lt_mul (Nat.two_pow_pos _)).1 hexit, hle⟩
    · exact fun n s _ => ⟨_, rfl⟩
    · rintro n s ⟨hn, hs, -⟩ hcond
      simp only [Except.ok.injEq, decide_eq_true_eq, hs] at hcond
      have hle : minBlockSize * 2 ^ s.1 ≤ poolSize :=
        (Nat.le_div_iff_mul_le (Nat.two_pow_pos _)).1 hcond
      -- a 64-bit number can be halved 64 times only
      have hlt : s.1 < 64 := by
        have hpow : 2 ^ s.1 < 2 ^ 64 := by
          calc 2 ^ s.1
              _ ≤ minBlockSize * 2 ^ s.1 := Nat.le_mul_of_pos_left _ (by decide)
              _ ≤ poolSize := hle
              _ < 2 ^ 64 := hsize
        exact (Nat.pow_lt_pow_iff_right (by decide)).1 hpow
      refine ⟨_, n - 1, rfl, by omega, by omega, ?_, fun _ => hle⟩
      rw [hs, Nat.div_div_eq_div_mul, ← Nat.pow_succ]
  exact ⟨s.1, by simp only [computeNumOrder, hrun, bind, Except.bind], hlt, hle⟩

/-- Buffers below 1024 MiB can be halved down to the minimal block size. -/
theorem poolFits_of_lt {options : Options} (h : options.bufferSize < 1024) : PoolFits options := by
  intro k hk
  have hsize : options.poolSize = options.bufferSize * 2 ^ 20 := by
    unfold Options.poolSize
    omega
  obtain ⟨k', hk', -, hle⟩ := computeNumOrder_spec options.poolSize (by omega)
  obtain rfl := Except.ok.inj (hk'.symm.trans hk)
  rcases Nat.eq_zero_or_pos k' with rfl | hpos
  · simp
  -- `1024 * 2 ^ 20` is `2 ^ 30`, and the minimal block size is `2 ^ 9`
  have hpow : 2 ^ (k' - 1) < 2 ^ 21 := by
    have := hle hpos
    unfold minBlockSize at this
    omega
  have hexp : k' - 1 ≤ 20 := Nat.lt_succ_iff.1 ((Nat.pow_lt_pow_iff_right (by decide)).1 hpow)
  rw [hsize]
  exact (Nat.pow_dvd_pow 2 hexp).mul_left _

/-- The orders of the allocator of a new queue, and what they say about the buffer. -/
theorem init_orders {options : Options} {bufferAddr : ℕ} (hpos : 0 < options.poolSize)
    (h : Queue.init options bufferAddr = .ok q) :
    ∃ k, computeNumOrder options.poolSize minBlockSize = .ok k ∧
      Allocator.create bufferAddr options.poolSize k = .ok q.memoryAllocator ∧
      1 ≤ k ∧ options.poolSize ≤ 2 ^ 63 := by
  obtain ⟨-, ⟨k, hk, hcreate⟩, -, -⟩ := init_cases h
  obtain ⟨k', hk', hlt, -⟩ := computeNumOrder_spec options.poolSize (Nat.mod_lt _ (by decide))
  obtain rfl := Except.ok.inj (hk'.symm.trans hk)
  unfold minBlockSize at hlt
  refine ⟨k', hk, hcreate, ?_, ?_⟩
  · -- a buffer that is not empty has at least one mebibyte
    have hdvd : 2 ^ 20 ∣ options.poolSize := by
      unfold Options.poolSize
      omega
    have hle := Nat.le_of_dvd hpos hdvd
    by_contra hzero
    obtain rfl : k' = 0 := by omega
    omega
  · have hpow : 2 ^ k' ≤ 2 ^ 30 :=
      Nat.pow_le_pow_right (by decide) (create_fields hcreate).1
    omega

/-- A new queue: all nodes are free, and no block is in use. -/
theorem init_stock {options : Options} {bufferAddr : ℕ} (hfits : PoolFits options)
    (hmapped : Mapped bufferAddr options.poolSize) (h : Queue.init options bufferAddr = .ok q) :
    ∃ unit H, Stock (options.capacity % 2 ^ 32) unit H q (List.range (options.capacity % 2 ^ 32))
      [] [] .free := by
  obtain ⟨hlist, -, -, hsize⟩ := init_cases h
  have hcap : q.chunkList.capacity = options.capacity % 2 ^ 32 := init_capacity hlist
  obtain ⟨hl, hbound⟩ := init_spec hlist
  rw [hcap] at hl hbound
  obtain ⟨k, hk, hcreate, horder, hle⟩ := init_orders hmapped.pos h
  obtain ⟨htracks, -, -⟩ := tracks_create horder hmapped.pos (hfits k hk) hmapped.region hcreate
  exact ⟨_, _, hl, hcap, hbound, hsize ▸ hle, by simp, htracks⟩

end CppLearn.ShmMsgQueue

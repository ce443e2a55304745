import CppLearn.ShmMsgQueue.ChunkList

/-!
# The operations of the message queue

What the body of each operation does to the two lists and to the payload fields of the nodes,
relative to what the allocator does.

There is one lemma for each operation: `init_cases`, `allocate_cases`, `enqueue_spec`,
`dequeue_spec` and `releaseChunk_cases`. What most of them leave alone, the counter of producers and
the size of the buffer, is `SameControl`.
-/

namespace CppLearn.ShmMsgQueue

open BoundedLoop

variable {q q' : Queue} {free msgs : List ℕ} {i size : ℕ}

/-- The fields of the queue that its data operations do not change. -/
structure SameControl (q q' : Queue) : Prop where
  capacity : q'.chunkList.capacity = q.chunkList.capacity
  activePreducerCount : q'.activePreducerCount = q.activePreducerCount
  bufferMmapSize : q'.bufferMmapSize = q.bufferMmapSize

/-- The node array of a small queue is indexed by 32-bit numbers. -/
theorem chunkId_eq (hcap : q.chunkList.capacity < 2 ^ 31) (hi : i < q.chunkList.capacity) :
    i % 2 ^ 32 = i :=
  Nat.mod_eq_of_lt (by omega)

/-! ## `init` -/

/-- The number of bytes of the buffer. -/
def Options.poolSize (options : Options) : ℕ := options.bufferSize * 1024 * 1024 % 2 ^ 64

/-- The parts of a new queue. -/
theorem init_cases {options : Options} {bufferAddr : ℕ}
    (h : Queue.init options bufferAddr = .ok q) :
    ChunkList.init options.capacity = .ok q.chunkList ∧
      (∃ numOrder, computeNumOrder options.poolSize minBlockSize = .ok numOrder ∧
        Buddy.Allocator.create bufferAddr options.poolSize numOrder = .ok q.memoryAllocator) ∧
      q.activePreducerCount = -1 ∧ q.bufferMmapSize = options.poolSize := by
  simp only [Queue.init, bind, bind_eq_ok] at h
  obtain ⟨list, hl, numOrder, hn, a, ha, hq⟩ := h
  obtain rfl := Except.ok.inj hq
  exact ⟨hl, ⟨numOrder, hn, ha⟩, rfl, rfl⟩

/-! ## `allocate` -/

/-- A node is free, and the allocator has a block. -/
theorem tryAllocate_some {rest : List ℕ} {addr : ℕ} {a : Buddy.Allocator}
    (h : Lists q.chunkList (i :: rest) msgs) (hcap : q.chunkList.capacity < 2 ^ 31)
    (ha : q.memoryAllocator.allocate size = .ok (some addr, a)) :
    ∃ q', q.tryAllocate size = .ok (some (i, addr), q') ∧ Lists q'.chunkList rest msgs ∧
      SameControl q q' ∧ q'.memoryAllocator = a ∧
      (q'.chunkList.nodes i).data = addr ∧ (q'.chunkList.nodes i).size = size ∧
      ∀ j, j ≠ i → q'.chunkList.nodes j = q.chunkList.nodes j := by
  have hi : i < q.chunkList.capacity := h.lt i (by simp)
  rcases allocateNode_spec h with ⟨hnil, -⟩ | ⟨_, _, l₁, heq, hrun, hl₁, hsame, hnodes⟩
  · simp at hnil
  obtain ⟨rfl, rfl⟩ := List.cons.inj heq
  have hi₁ : i < l₁.capacity := by rwa [hsame.capacity]
  -- address and size are written into the node
  obtain ⟨l₂, hmod, hl₂, hcap₂, hnodes₂⟩ :=
    modify_spec (fun n => { n with data := addr, size := size }) hl₁ hi₁ fun _ => rfl
  refine ⟨{ q with chunkList := l₂, memoryAllocator := a }, ?_, hl₂,
    ⟨hcap₂.trans hsame.capacity, rfl, rfl⟩, rfl, ?_, ?_, fun j hj => ?_⟩
  · simp only [Queue.tryAllocate, hrun, ha, hmod, bind, Except.bind, chunkId_eq hcap hi]
  · simp [hnodes₂]
  · simp [hnodes₂]
  · show l₂.nodes j = q.chunkList.nodes j
    rw [hnodes₂, Function.update_of_ne hj, hnodes]

/-- A node is free, but the allocator has no block: the node goes back. -/
theorem tryAllocate_none {rest : List ℕ} {a : Buddy.Allocator}
    (h : Lists q.chunkList (i :: rest) msgs)
    (ha : q.memoryAllocator.allocate size = .ok (none, a)) :
    ∃ q', q.tryAllocate size = .ok (none, q') ∧ Lists q'.chunkList (i :: rest) msgs ∧
      SameControl q q' ∧ q'.memoryAllocator = a ∧ SamePayload q.chunkList q'.chunkList := by
  have hi : i < q.chunkList.capacity := h.lt i (by simp)
  have hout : i ∉ rest ++ msgs := (List.nodup_cons.1 h.nodup).1
  rcases allocateNode_spec h with ⟨hnil, -⟩ | ⟨_, _, l₁, heq, hrun, hl₁, hsame, hnodes⟩
  · simp at hnil
  obtain ⟨rfl, rfl⟩ := List.cons.inj heq
  have hi₁ : i < l₁.capacity := by rwa [hsame.capacity]
  -- the node goes back to where it was taken from
  obtain ⟨l₂, hdealloc, hl₂, hsame₂⟩ := deallocateNode_spec hl₁ hi₁ hout
  refine ⟨{ q with chunkList := l₂, memoryAllocator := a }, ?_, hl₂,
    ⟨hsame₂.capacity.trans hsame.capacity, rfl, rfl⟩, rfl, hsame.trans hsame₂⟩
  simp only [Queue.tryAllocate, hrun, ha, hdealloc, bind, Except.bind]

/-- No node is free. -/
theorem tryAllocate_nil (h : Lists q.chunkList [] msgs) : q.tryAllocate size = .ok (none, q) := by
  rcases allocateNode_spec h with ⟨-, hrun⟩ | ⟨_, _, _, heq, -⟩
  · simp only [Queue.tryAllocate, hrun, bind, Except.bind]
  · simp at heq

/-- What an attempt of `allocate` can do, the failure of the allocator included. -/
theorem allocate_cases {r : Option (ℕ × ℕ)} (h : Lists q.chunkList free msgs)
    (hcap : q.chunkList.capacity < 2 ^ 31) (hrun : q.allocate size = .ok (r, q')) :
    size ≤ q.bufferMmapSize ∧ SameControl q q' ∧
      ((r = none ∧ Lists q'.chunkList free msgs ∧ SamePayload q.chunkList q'.chunkList ∧
          (q'.memoryAllocator = q.memoryAllocator ∨
            q.memoryAllocator.allocate size = .ok (none, q'.memoryAllocator))) ∨
        ∃ i rest addr, free = i :: rest ∧ r = some (i, addr) ∧
          q.memoryAllocator.allocate size = .ok (some addr, q'.memoryAllocator) ∧
          Lists q'.chunkList rest msgs ∧
          (q'.chunkList.nodes i).data = addr ∧ (q'.chunkList.nodes i).size = size ∧
          ∀ j, j ≠ i → q'.chunkList.nodes j = q.chunkList.nodes j) := by
  unfold Queue.allocate at hrun
  split_ifs at hrun with hsize
  refine ⟨hsize, ?_⟩
  cases free with
  | nil =>
    rw [tryAllocate_nil h] at hrun
    obtain ⟨rfl, rfl⟩ := Prod.mk.inj (Except.ok.inj hrun)
    exact ⟨⟨rfl, rfl, rfl⟩, .inl ⟨rfl, h, .refl _, .inl rfl⟩⟩
  | cons i rest =>
    cases ha : q.memoryAllocator.allocate size with
    | error e =>
      -- the fault of the allocator is the fault of the attempt
      rcases allocateNode_spec h with ⟨hnil, -⟩ | ⟨_, _, l₁, heq, hnode, -⟩
      · simp at hnil
      · simp [Queue.tryAllocate, hnode, ha, bind, Except.bind] at hrun
    | ok res =>
      obtain ⟨_ | addr, a⟩ := res
      · obtain ⟨q₁, hq, hl, hcontrol, halloc, hsame⟩ := tryAllocate_none h ha
        obtain ⟨rfl, rfl⟩ := Prod.mk.inj (Except.ok.inj (hq.symm.trans hrun))
        exact ⟨hcontrol, .inl ⟨rfl, hl, hsame, .inr (by rw [halloc])⟩⟩
      · obtain ⟨q₁, hq, hl, hcontrol, halloc, hdata⟩ := tryAllocate_some h hcap ha
        obtain ⟨rfl, rfl⟩ := Prod.mk.inj (Except.ok.inj (hq.symm.trans hrun))
        exact ⟨hcontrol, .inr ⟨i, rest, addr, rfl, rfl, by rw [halloc], hl, hdata⟩⟩

/-- An attempt of `allocate` within the size of the buffer fails only with the allocator. -/
theorem allocate_ok {r : Option ℕ × Buddy.Allocator} (h : Lists q.chunkList free msgs)
    (hcap : q.chunkList.capacity < 2 ^ 31) (hsize : size ≤ q.bufferMmapSize)
    (ha : q.memoryAllocator.allocate size = .ok r) : ∃ r q', q.allocate size = .ok (r, q') := by
  unfold Queue.allocate
  rw [if_pos hsize]
  cases free with
  | nil => exact ⟨_, _, tryAllocate_nil h⟩
  | cons i rest =>
    obtain ⟨_ | addr, a⟩ := r
    · obtain ⟨q', hq, -⟩ := tryAllocate_none h ha
      exact ⟨_, _, hq⟩
    · obtain ⟨q', hq, -⟩ := tryAllocate_some h hcap ha
      exact ⟨_, _, hq⟩

/-! ## `enqueue`, `dequeue` and `releaseChunk` -/

/-- `enqueue` appends the node to the messages. -/
theorem enqueue_spec (h : Lists q.chunkList free msgs) (hi : i < q.chunkList.capacity)
    (hout : i ∉ free ++ msgs) :
    ∃ q', q.enqueue i = .ok q' ∧ Lists q'.chunkList free (msgs ++ [i]) ∧ SameControl q q' ∧
      q'.memoryAllocator = q.memoryAllocator ∧ SamePayload q.chunkList q'.chunkList := by
  obtain ⟨l, hrun, hl, hsame⟩ := put_spec h hi hout
  refine ⟨{ q with chunkList := l }, ?_, hl, ⟨hsame.capacity, rfl, rfl⟩, rfl, hsame⟩
  simp only [Queue.enqueue, hrun, bind, Except.bind]

/-- `dequeue` takes the first message, or looks at the counter if there is none. -/
theorem dequeue_spec (h : Lists q.chunkList free msgs) (hcap : q.chunkList.capacity < 2 ^ 31) :
    (msgs = [] ∧
      q.dequeue = .ok (if q.activePreducerCount = 0 then .closed else .wait, q)) ∨
    ∃ i rest q', msgs = i :: rest ∧
      q.dequeue = .ok (.ok i (q.chunkList.nodes i).data (q.chunkList.nodes i).size, q') ∧
      Lists q'.chunkList free rest ∧ SameControl q q' ∧
      q'.memoryAllocator = q.memoryAllocator ∧ SamePayload q.chunkList q'.chunkList := by
  rcases pop_spec h with ⟨rfl, hrun⟩ | ⟨i, rest, l, rfl, hrun, hl, hsame, hnodes⟩
  · refine .inl ⟨rfl, ?_⟩
    simp only [Queue.dequeue, hrun, bind, Except.bind]
    split_ifs <;> rfl
  · have hi : i < q.chunkList.capacity := h.lt i (by simp)
    -- the node is read after it was taken off the list
    have hread : l.read i = .ok (q.chunkList.nodes i) := by
      rw [← hnodes]
      exact if_pos (by rwa [hsame.capacity])
    refine .inr ⟨i, rest, { q with chunkList := l }, rfl, ?_, hl, ⟨hsame.capacity, rfl, rfl⟩, rfl,
      hsame⟩
    simp only [Queue.dequeue, hrun, hread, bind, Except.bind, chunkId_eq hcap hi]

/-- `releaseChunk` gives the block back and puts the node on the free list. -/
theorem releaseChunk_ok {a : Buddy.Allocator} (h : Lists q.chunkList free msgs)
    (hi : i < q.chunkList.capacity) (hout : i ∉ free ++ msgs)
    (ha : q.memoryAllocator.deallocate (q.chunkList.nodes i).data (q.chunkList.nodes i).size =
      .ok a) :
    ∃ q', q.releaseChunk i = .ok q' ∧ Lists q'.chunkList (i :: free) msgs ∧ SameControl q q' ∧
      q'.memoryAllocator = a ∧ SamePayload q.chunkList q'.chunkList := by
  have hread : q.chunkList.read i = .ok (q.chunkList.nodes i) := if_pos hi
  obtain ⟨l, hrun, hl, hsame⟩ := deallocateNode_spec h hi hout
  refine ⟨{ q with chunkList := l, memoryAllocator := a }, ?_, hl, ⟨hsame.capacity, rfl, rfl⟩, rfl,
    hsame⟩
  simp only [Queue.releaseChunk, hread, ha, hrun, bind, Except.bind]

/-- What `releaseChunk` can do. -/
theorem releaseChunk_cases (h : Lists q.chunkList free msgs) (hi : i < q.chunkList.capacity)
    (hout : i ∉ free ++ msgs) (hrun : q.releaseChunk i = .ok q') :
    q.memoryAllocator.deallocate (q.chunkList.nodes i).data (q.chunkList.nodes i).size =
        .ok q'.memoryAllocator ∧
      Lists q'.chunkList (i :: free) msgs ∧ SameControl q q' ∧
      SamePayload q.chunkList q'.chunkList := by
  have hread : q.chunkList.read i = .ok (q.chunkList.nodes i) := if_pos hi
  obtain ⟨a, ha⟩ : ∃ a, q.memoryAllocator.deallocate (q.chunkList.nodes i).data
      (q.chunkList.nodes i).size = .ok a := by
    simp only [Queue.releaseChunk, hread, bind, bind_eq_ok, Except.ok.injEq] at hrun
    obtain ⟨_, rfl, a, ha, -⟩ := hrun
    exact ⟨a, ha⟩
  obtain ⟨q₁, hq, hl, hcontrol, rfl, hsame⟩ := releaseChunk_ok h hi hout ha
  obtain rfl := Except.ok.inj (hq.symm.trans hrun)
  exact ⟨ha, hl, hcontrol, hsame⟩

end CppLearn.ShmMsgQueue

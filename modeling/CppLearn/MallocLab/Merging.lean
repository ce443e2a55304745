import CppLearn.MallocLab.Calls

/-!
# Merging of free blocks

The effect of `coalesces` as the walk over the headers sees it: every maximal run of free blocks has
become one block, and the blocks in use are where they were. This holds as long as no request
overflows. Otherwise there are blocks of eight bytes, which have both tags in the same place: when
the pass writes such a footer, it loses the size of the block.

What the pass is for is `MergesRuns`, and `coalesces_mergesRuns` proves it in every state of a run
without overflow.
-/

namespace CppLearn.MallocLab

open BoundedLoop BoundaryTags

/-- The blocks `vs'` are those in `vs` with the runs of free blocks merged. -/
structure Merged (vs vs' : List Visited) : Prop where
  used : vs'.filter Visited.alloc = vs.filter Visited.alloc
  run : ∀ us v fs ws, vs = us ++ (v :: fs ++ ws) → (∀ b ∈ v :: fs, b.alloc = false) →
    (∀ b ∈ us.getLast?, b.alloc = true) → (∀ b ∈ ws.head?, b.alloc = true) →
    ⟨v.ptr, ((v :: fs).map Visited.size).sum, false⟩ ∈ vs'
  chain : vs'.IsChain fun b c => b.alloc = true ∨ c.alloc = true

/-- A pass over the heap terminates and merges the runs of free blocks. -/
def MergesRuns (s : Heap) : Prop :=
  ∃ vs s' vs', Walk s s.begin vs ∧ s.coalesces = .ok s' ∧ SameVars s s' ∧
    Walk s' s'.begin vs' ∧ Merged vs vs'

variable {s s' : Heap} {bs xs ys : List Block} {us vs : List Visited} {h : ℕ}

/-! ## Visited blocks -/

/-- A visited block without its address. -/
def Visited.block (b : Visited) : Block := ⟨b.size, b.alloc⟩

@[simp]
theorem Visited.block_alloc (b : Visited) : b.block.alloc = b.alloc := rfl

@[simp]
theorem visits_map_block (h : ℕ) (bs : List Block) : (visits h bs).map Visited.block = bs := by
  induction bs generalizing h with
  | nil => rfl
  | cons b bs ih => exact congrArg (b :: ·) (ih (h + b.size))

theorem visits_append (h : ℕ) (xs ys : List Block) :
    visits h (xs ++ ys) = visits h xs ++ visits (h + totalSize xs) ys := by
  induction xs generalizing h with
  | nil => rfl
  | cons b xs ih =>
    rw [List.cons_append, visits, ih, totalSize_cons, Nat.add_assoc]
    rfl

theorem visits_length (h : ℕ) (bs : List Block) : (visits h bs).length = bs.length := by
  rw [← List.length_map Visited.block, visits_map_block]

/-- The parts of a walk are walks. -/
theorem visits_eq_append (heq : visits h bs = us ++ vs) :
    ∃ xs ys, bs = xs ++ ys ∧ us = visits h xs ∧ vs = visits (h + totalSize xs) ys := by
  have hbs : bs = us.map Visited.block ++ vs.map Visited.block := by
    rw [← List.map_append, ← heq, visits_map_block]
  refine ⟨_, _, hbs, ?_⟩
  rw [hbs, visits_append] at heq
  have hlen : (visits h (us.map Visited.block)).length = us.length := by
    rw [visits_length, List.length_map]
  obtain ⟨hus, hvs⟩ := List.append_inj heq hlen
  exact ⟨hus.symm, hvs.symm⟩

/-- Merging leaves the blocks in use where they are. -/
theorem visits_filter_mergeFree (h : ℕ) (bs : List Block) :
    (visits h (mergeFree bs)).filter Visited.alloc = (visits h bs).filter Visited.alloc := by
  refine eq_mergeFree (fun h bs => (visits h bs).filter Visited.alloc)
    (fun h b bs bs' heq => ?_) (fun h size n bs => ?_) h bs
  · simp only [visits, List.filter_cons, heq]
  · simp [visits, Nat.add_assoc]

/-- A maximal run of free blocks is visited as one block. -/
theorem visits_run {v : Visited} {fs ws : List Visited}
    (heq : visits h bs = us ++ (v :: fs ++ ws)) (hfree : ∀ b ∈ v :: fs, b.alloc = false)
    (hus : ∀ b ∈ us.getLast?, b.alloc = true) (hws : ∀ b ∈ ws.head?, b.alloc = true) :
    ⟨v.ptr, ((v :: fs).map Visited.size).sum, false⟩ ∈ visits h (mergeFree bs) := by
  obtain ⟨xs, zs, rfl, rfl, hzs⟩ := visits_eq_append heq
  obtain ⟨gs, ys, rfl, hgs, rfl⟩ := visits_eq_append hzs.symm
  -- the run, and what is before and behind it, as blocks
  have hblocks : gs = (v :: fs).map Visited.block := by rw [hgs, visits_map_block]
  have hxs : ∀ b ∈ xs.getLast?, b.alloc = true := by
    rw [← visits_map_block h xs, List.getLast?_map]
    simpa using hus
  have hys : NotFree ys := by
    rw [notFree_iff, ← visits_map_block (h + totalSize xs + totalSize gs) ys, List.head?_map]
    simpa using hws
  have hmerge : mergeFree (xs ++ (gs ++ ys)) =
      mergeFree xs ++ ⟨totalSize gs, false⟩ :: mergeFree ys := by
    have hfree' : ∀ b ∈ gs, b.alloc = false := by
      rw [hblocks]
      simpa using hfree
    unfold mergeFree
    rw [runs_run hxs (by simp [hblocks]) hfree' hys, List.map_append, List.map_cons]
  have hptr : v.ptr = h + totalSize xs + 8 := by
    rw [hblocks] at hgs
    exact congrArg Visited.ptr (List.cons.inj hgs).1
  have hsize : ((v :: fs).map Visited.size).sum = totalSize gs := by
    rw [hblocks, totalSize, List.map_map]
    rfl
  rw [hmerge, visits_append, totalSize_mergeFree, hptr, hsize]
  exact List.mem_append_right _ (List.mem_cons_self ..)

/-- The walks before and after merging. -/
theorem merged_visits (h : ℕ) (bs : List Block) :
    Merged (visits h bs) (visits h (mergeFree bs)) := by
  refine ⟨visits_filter_mergeFree h bs, fun us v fs ws heq hfree hus hws => ?_, ?_⟩
  · exact visits_run heq hfree hus hws
  · have hchain := mergeFree_isChain bs
    rw [← visits_map_block h (mergeFree bs)] at hchain
    exact (List.isChain_map Visited.block).1 hchain

/-! ## Results -/

/-- The walk over the headers can be checked. -/
instance (s : Heap) : (p : ℕ) → (vs : List Visited) → Decidable (Walk s p vs)
  | _, [] => inferInstanceAs (Decidable (_ ∧ _))
  | p, b :: bs =>
    have : Decidable (Walk s (p + b.size) bs) := instDecidableWalk s (p + b.size) bs
    inferInstanceAs (Decidable (_ ∧ _ ∧ _ ∧ _ ∧ _ ∧ _))

/-- In every state of a run without overflow a pass over the heap merges the runs of free
blocks. -/
theorem coalesces_mergesRuns (startBrk : ℕ) (hbase : HeapBase startBrk) (s : Heap)
    (live : List (ℕ × ℕ)) (h : Reachable (2 ^ 32 - 24) startBrk s live) : MergesRuns s := by
  obtain ⟨-, l, ⟨e, bs, he, ht, -⟩, -⟩ := h.tracks hbase (Nat.le_refl _)
  obtain ⟨s', hrun, he', hvars, ht'⟩ := coalesces_spec he ht
  have hwalk := walk_visits he ht (Nat.le_refl _)
  have hwalk' := walk_visits he' ht'.tiles (Nat.le_refl _)
  rw [← begin_eq he.region] at hwalk
  rw [← begin_eq he'.region, hvars.startBrk] at hwalk'
  exact ⟨_, s', _, hwalk, hrun, hvars, hwalk', merged_visits s.startBrk bs⟩

/-- Two blocks that are freed become one. -/
theorem coalesces_mergesRuns_pair :
    ∃ s, HeapBase 4096 ∧ Reachable (2 ^ 32 - 24) 4096 s [] ∧
      Walk s s.begin [⟨4104, 24, false⟩, ⟨4128, 32, false⟩] ∧
      ∃ s' vs', s.coalesces = .ok s' ∧ Walk s' s'.begin vs' ∧ ⟨4104, 56, false⟩ ∈ vs' := by
  have heval : ((replay (2 ^ 32 - 24) 4096 [.malloc 8, .malloc 16, .free (4104, 8),
      .free (4128, 16)]).bind fun x => .ok (x.2,
        decide (Walk x.1 x.1.begin [⟨4104, 24, false⟩, ⟨4128, 32, false⟩]))).toOption =
      some ([], true) := by decide +kernel
  rw [toOption_bind_eq_some] at heval
  obtain ⟨⟨s, live⟩, hrun, hwalk⟩ := heval
  obtain ⟨rfl, hwalk⟩ := Prod.mk.inj (Option.some.inj hwalk)
  have hreach := replay_reachable hrun
  have hwalk := of_decide_eq_true hwalk
  obtain ⟨vs, s', vs', hvs, hpass, -, hwalk', hmerged⟩ :=
    coalesces_mergesRuns 4096 heapBase_4096 s [] hreach
  obtain rfl := hwalk.unique hvs
  refine ⟨s, heapBase_4096, hreach, hwalk, s', vs', hpass, hwalk', ?_⟩
  exact hmerged.run [] _ [⟨4128, 32, false⟩] [] rfl (by simp) (by simp) (by simp)

/-- A request of `2 ^ 32 - 8` bytes gets a block of eight bytes. When it is freed behind two other
free blocks, the pass takes the size of all three for its own and goes on too far behind it. Two
free blocks there are not merged. -/
theorem coalesces_skips_blocks :
    ∃ s live, HeapBase 4096 ∧ Reachable (2 ^ 32 - 1) 4096 s live ∧ ¬ MergesRuns s := by
  have heval : ((replay (2 ^ 32 - 1) 4096 [.malloc 8, .malloc 32, .malloc (2 ^ 32 - 8), .malloc 8,
      .malloc 8, .malloc 8, .malloc 8, .free (4104, 8), .free (4128, 32),
      .free (4176, 2 ^ 32 - 8), .free (4208, 8), .free (4232, 8)]).bind fun x =>
        x.1.coalesces.bind fun s' => .ok (decide (Walk s' s'.begin [⟨4104, 80, false⟩,
          ⟨4184, 24, true⟩, ⟨4208, 24, false⟩, ⟨4232, 24, false⟩, ⟨4256, 24, true⟩]))).toOption =
      some true := by decide +kernel
  simp only [toOption_bind_eq_some] at heval
  obtain ⟨⟨s, live⟩, hrun, s₁, hpass, hwalk⟩ := heval
  have hwalk := of_decide_eq_true (Option.some.inj hwalk)
  refine ⟨s, live, heapBase_4096, replay_reachable hrun, ?_⟩
  rintro ⟨vs, s', vs', -, hpass', -, hwalk', hmerged⟩
  obtain rfl := Except.ok.inj (hpass.symm.trans hpass')
  obtain rfl := hwalk.unique hwalk'
  have hchain := hmerged.chain
  simp at hchain

end CppLearn.MallocLab

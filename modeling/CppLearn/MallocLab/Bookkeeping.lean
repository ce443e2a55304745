import CppLearn.MallocLab.Merging
import CppLearn.MallocLab.Unchecked

/-!
# The bookkeeping of the allocator

The allocator keeps two records beside the headers: the footers, and `total_free_size`, which is
meant to say how much is free. Both can go wrong in runs without overflow.

* A pass that merges an even number of blocks, more than two, leaves the footer of a smaller block.
  It is repaired only if the call that made the pass takes the merged block.
* What `mm_realloc` splits off when it shrinks a block is free, but not counted. A pass that would
  make room is then skipped.

`FootersAgree` says that every footer is equal to the header of its block, and `NoRoom` that no run
of free blocks is large enough. The calls that keep the two records right are `KeepsFooters` and
`CountsFree`. What one call does to the records is `Reachable.call_keeps`; in runs of such calls the
footers agree (`footers_agree`), and `mem_sbrk` is used only if there is no room
(`sbrk_only_without_room`).
-/

namespace CppLearn.MallocLab

open BoundedLoop Unsigned BoundaryTags

/-- If a pass is made for a block of `newSize` bytes, under the condition `c`, then it meets no run
of an even number of free blocks, more than two, apart from the one whose merged block is taken. -/
def PassKeepsFooters (s : Heap) (c : Prop) (newSize : ℕ) : Prop :=
  s.findFitBlock newSize = .ok none → c →
    ∀ vs, Walk s s.begin vs → StaleFirst newSize (runs (vs.map Visited.block))

/-- The call makes no pass, or one that leaves no wrong footers behind. -/
def KeepsFooters (s : Heap) : Call → Prop
  | .malloc size =>
    PassKeepsFooters s (s.totalFreeSize ≥ Heap.blockSize size) (Heap.blockSize size)
  | .realloc x size =>
    ∀ n, s.getSize (hdrp x.1) = .ok n → n < Heap.blockSize size →
      PassKeepsFooters s (s.totalFreeSize > Heap.blockSize size) (Heap.blockSize size)
  | .free _ => True
  | .write _ _ _ => True

/-- The call does not split a block in place, and `total_free_size` does not overflow. -/
def CountsFree (s : Heap) : Call → Prop
  | .malloc _ => True
  | .free x => ∀ n, s.getSize (hdrp x.1) = .ok n → s.totalFreeSize + n < 2 ^ 32
  | .realloc x size =>
    ∀ n, s.getSize (hdrp x.1) = .ok n → n ≤ Heap.blockSize size + 16 ∧
      (n < Heap.blockSize size → s.totalFreeSize + n < 2 ^ 32)
  | .write _ _ _ => True

/-- Every block that the walk over the headers visits has a footer equal to its header. -/
def FootersAgree (s : Heap) : Prop :=
  ∃ vs, Walk s s.begin vs ∧ ∀ v ∈ vs, ∃ f val, s.ftrp v.ptr = .ok f ∧
    s.get (hdrp v.ptr) = .ok val ∧ s.get f = .ok val

/-- Every maximal run of free blocks has less than `newSize` bytes. -/
def NoRoom (s : Heap) (newSize : ℕ) : Prop :=
  ∃ vs, Walk s s.begin vs ∧ ∀ us v fs ws, vs = us ++ (v :: fs ++ ws) →
    (∀ b ∈ v :: fs, b.alloc = false) → (∀ b ∈ us.getLast?, b.alloc = true) →
    (∀ b ∈ ws.head?, b.alloc = true) → ((v :: fs).map Visited.size).sum < newSize

variable {s s' s₁ : Heap} {bs bs' : List Block} {startBrk newSize : ℕ} {live live' : List (ℕ × ℕ)}
  {c : Call}

/-! ## Blocks -/

theorem Blocks.unique (h : Blocks s bs) (h' : Blocks s bs') : bs = bs' := by
  obtain ⟨e, he, ht⟩ := h
  obtain ⟨e', he', ht'⟩ := h'
  obtain rfl : e = e' := by
    have hbrk := he.brk
    have hbrk' := he'.brk
    omega
  exact ht.unique ht'

theorem Blocks.walk (h : Blocks s bs) : Walk s s.begin (visits s.startBrk bs) := by
  obtain ⟨e, he, ht⟩ := h
  rw [begin_eq he.region]
  exact walk_visits he ht (Nat.le_refl _)

/-- The runs that a pass would meet are those of the blocks. -/
theorem PassKeepsFooters.staleFirst {p : Prop} (h : PassKeepsFooters s p newSize)
    (hbs : Blocks s bs) (hnone : s.findFitBlock newSize = .ok none) (hp : p) :
    StaleFirst newSize (runs bs) := by
  have hfirst := h hnone hp _ hbs.walk
  rwa [visits_map_block] at hfirst

/-- The payload of a live block is one of those of the blocks in use. -/
theorem Tracks.mem_allocated {x : ℕ × ℕ} (h : Tracks startBrk s live) (hbs : Blocks s bs)
    (hx : x ∈ live) : ∃ p ∈ allocated s.startBrk bs, x.1 = p.1 ∧ x.2 ≤ p.2 := by
  obtain ⟨l, p, hs, hp, hfits, -⟩ := h.payload hx
  obtain ⟨bs', hbs', hperm⟩ := hs.blocks
  obtain rfl := hbs'.unique hbs
  exact ⟨p, hperm.mem_iff.2 hp, hfits⟩

theorem memcpy_memory {dest src n x : ℕ} (hrun : s.memcpy dest src n = .ok s')
    (hx : x < dest ∨ dest + n ≤ x) : s'.memory x = s.memory x := by
  unfold Heap.memcpy at hrun
  split_ifs at hrun
  rw [← Except.ok.inj hrun]
  show s.memory.write dest (fun i => s.memory (src + i)) n x = s.memory x
  exact Memory.write_of_not_mem hx

/-! ## One call -/

/-- The records after a call: the footers are right if they were and `c` holds, and what is free is
counted if it was and `d` holds. -/
def Records (c d : Prop) (s : Heap) (bs : List Block) (s' : Heap) : Prop :=
  ∃ bs', Blocks s' bs' ∧
    (c → Tight s.memory s.startBrk bs → Tight s'.memory s'.startBrk bs') ∧
    (d → freeSize bs ≤ s.totalFreeSize → freeSize bs' ≤ s'.totalFreeSize)

theorem Blocks.records_free {p : ℕ × ℕ} (hbs : Blocks s bs) (hp : p ∈ allocated s.startBrk bs)
    (hrun : s.mmFree p.1 = .ok s') :
    Records True (s.totalFreeSize + (p.2 + 16) < 2 ^ 32) s bs s' := by
  obtain ⟨s'', bs', hrun', -, hbs', -, -, htotal, hfree, htight⟩ := hbs.free hp
  obtain rfl := Except.ok.inj (hrun'.symm.trans hrun)
  refine ⟨bs', hbs', fun _ => htight, fun hlt hle => ?_⟩
  rw [htotal, hfree, add_eq hlt]
  omega

/-- A block is moved: it is copied to the block that was obtained, and freed. -/
theorem Blocks.records_move {p : ℕ × ℕ} {q : ℕ} {d : Prop} {s₂ : Heap} (hbs : Blocks s bs)
    (hp : p ∈ allocated s.startBrk bs) (hdvd : 8 ∣ newSize) (hlarge : 24 ≤ newSize)
    (hlt : p.2 + 16 < newSize) (hobtains : Obtains s d newSize q s₁)
    (hcopy : s₁.memcpy q p.1 p.2 = .ok s₂) (hfree : s₂.mmFree p.1 = .ok s') :
    Records (PassKeepsFooters s d newSize) (s.totalFreeSize + (p.2 + 16) < 2 ^ 32) s bs s' := by
  obtain ⟨e, he, ht⟩ := id hbs
  obtain ⟨⟨hbase, ⟨n, hn, hs₁⟩, -⟩, htotal, bs₁, hbs₁, hle, htight⟩ :=
    hobtains.spec he ht hdvd hlarge
  -- the payloads of the new blocks
  obtain ⟨bs₁', hbs₁', hperm⟩ := hs₁.blocks
  obtain rfl := hbs₁'.unique hbs₁
  obtain ⟨hbs₂, -, htight₂⟩ := hbs₁.write (hperm.mem_iff.2 (List.mem_cons_self ..))
    (memcpy_sameVars hcopy) fun x hx => memcpy_memory hcopy (by simp only at hx; omega)
  have hvars := memcpy_sameVars hcopy
  have hp₂ : p ∈ allocated s₂.startBrk bs₁' := by
    rw [hvars.startBrk]
    exact hperm.mem_iff.2 (List.mem_cons_of_mem _ hp)
  obtain ⟨bs', hbs', htight', hcount⟩ := hbs₂.records_free hp₂ hfree
  have htotal₂ : s₂.totalFreeSize = s.totalFreeSize := by rw [hvars, htotal]
  rw [htotal₂] at hcount
  refine ⟨bs', hbs', fun hkeeps hall => ?_, fun hno hcounted => hcount hno (by omega)⟩
  exact htight' trivial (htight₂ (htight ⟨hall, hkeeps.staleFirst hbs⟩))

/-- The paths through `mm_realloc`. -/
theorem Blocks.records_reallocates {p : ℕ × ℕ} {r : Option ℕ} (hw : Within startBrk s)
    (hbs : Blocks s bs) (hp : p ∈ allocated s.startBrk bs) (hdvd : 8 ∣ newSize)
    (hlarge : 24 ≤ newSize) (h : Reallocates s p.1 newSize r s') :
    Records (p.2 + 16 < newSize → PassKeepsFooters s (s.totalFreeSize > newSize) newSize)
      (p.2 + 16 ≤ newSize + 16 ∧
        (p.2 + 16 < newSize → s.totalFreeSize + (p.2 + 16) < 2 ^ 32)) s bs s' := by
  obtain ⟨hsize, hdata, -⟩ := hbs.getSize hp
  cases h with
  | same _ _ hs' =>
    subst hs'
    exact ⟨bs, hbs, fun _ hall => hall, fun _ hcounted => hcounted⟩
  | shrunk hold hlt _ hplace =>
    obtain rfl := Except.ok.inj (hsize.symm.trans hold)
    obtain ⟨s'', bs', n, hplace', hvars, hbs', -, -, -, -, hfree, htight⟩ :=
      hbs.shrink hp hdvd hlarge (by omega)
    obtain rfl := Except.ok.inj (hplace'.symm.trans hplace)
    have htotal : s''.totalFreeSize = s.totalFreeSize := by rw [hvars]
    refine ⟨bs', hbs', fun _ => htight, fun hcounts hcounted => ?_⟩
    -- nothing is split off
    rw [hfree (by omega), htotal]
    exact hcounted
  | moved hold hlt _ hobtains hcopy hfree =>
    obtain rfl := Except.ok.inj (hsize.symm.trans hold)
    rw [hdata] at hcopy
    obtain ⟨bs', hbs', htight, hcount⟩ :=
      hbs.records_move hp hdvd hlarge hlt hobtains hcopy hfree
    exact ⟨bs', hbs', fun hkeeps => htight (hkeeps hlt), fun hcounts => hcount (hcounts.2 hlt)⟩
  | null _ _ hnone hnull => exact absurd hnull (hw.noFit_ne_null hnone)

/-- What a call does to the records. -/
theorem Reachable.call_keeps (hbase : HeapBase startBrk)
    (h : Reachable (2 ^ 32 - 24) startBrk s live) (hbs : Blocks s bs)
    (hallowed : c.Allowed (2 ^ 32 - 24) live) (hrun : c.run s live = .ok (s', live')) :
    Records (KeepsFooters s c) (CountsFree s c) s bs s' := by
  have htracks := h.tracks hbase (Nat.le_refl _)
  obtain ⟨hw, hlive⟩ := h.within hbase
  cases c with
  | malloc size =>
    obtain ⟨⟨r, s₁⟩, hmalloc, heq⟩ := bind_eq_ok.1 hrun
    obtain ⟨rfl, -⟩ := Prod.mk.inj (Except.ok.inj heq)
    obtain ⟨hdvd, hlarge, -⟩ := blockSize_spec hallowed.1 hallowed.2
    obtain ⟨p, -, hobtains⟩ := hw.mmMalloc hallowed.1 hmalloc
    -- a pass of the call merges the free blocks, and leaves a footer as it is or not
    obtain ⟨e, he, ht⟩ := id hbs
    obtain ⟨-, htotal, bs', hbs', hle, htight⟩ := hobtains.spec he ht hdvd hlarge
    refine ⟨bs', hbs', fun hkeeps hall => ?_, fun _ hcounted => by omega⟩
    exact htight ⟨hall, PassKeepsFooters.staleFirst hkeeps hbs⟩
  | free x =>
    obtain ⟨s₁, hfree, heq⟩ := bind_eq_ok.1 hrun
    obtain ⟨rfl, -⟩ := Prod.mk.inj (Except.ok.inj heq)
    obtain ⟨p, hp, haddr, -⟩ := htracks.mem_allocated hbs hallowed
    have hsize := (hbs.getSize hp).1
    rw [← haddr] at hsize
    rw [haddr] at hfree
    obtain ⟨bs', hbs', htight, hcount⟩ := hbs.records_free hp hfree
    exact ⟨bs', hbs', fun _ => htight trivial, fun hcounts => hcount (hcounts _ hsize)⟩
  | realloc x size =>
    obtain ⟨⟨r, s₁⟩, hrealloc, heq⟩ := bind_eq_ok.1 hrun
    obtain ⟨rfl, -⟩ := Prod.mk.inj (Except.ok.inj heq)
    obtain ⟨hx, hpos, hsmall⟩ := hallowed
    obtain ⟨hdvd, hlarge, -⟩ := blockSize_spec hpos hsmall
    -- the block of the argument is one of those in the heap
    obtain ⟨p, hp, haddr, -⟩ := htracks.mem_allocated hbs hx
    have hsize := (hbs.getSize hp).1
    have hcases := mmRealloc_cases ((hlive x hx).ne_zero hbase) (by omega) hrealloc
    rw [← haddr] at hsize
    rw [haddr] at hcases
    obtain ⟨bs', hbs', htight, hcount⟩ := hbs.records_reallocates hw hp hdvd hlarge hcases
    exact ⟨bs', hbs', fun hkeeps => htight (hkeeps _ hsize),
      fun hcounts => hcount (hcounts _ hsize)⟩
  | write x i byte =>
    obtain ⟨rfl, -⟩ := Prod.mk.inj (Except.ok.inj hrun)
    obtain ⟨p, hp, haddr, hle⟩ := htracks.mem_allocated hbs hallowed.1
    have hi := hallowed.2
    have hvars : SameVars s { s with memory := Function.update s.memory (x.1 + i) byte } := rfl
    -- a payload has no tags in it
    obtain ⟨hbs', -, htight⟩ := hbs.write hp hvars fun a ha =>
      Function.update_of_ne (by omega) ..
    exact ⟨bs, hbs', fun _ => htight, fun _ hcounted => hcounted⟩

/-! ## Footers -/

/-- In runs of calls that keep the footers, all of them are right. -/
theorem ReachableWhen.tight (hbase : HeapBase startBrk)
    (h : ReachableWhen KeepsFooters (2 ^ 32 - 24) startBrk s live) :
    ∃ bs, Blocks s bs ∧ Tight s.memory s.startBrk bs := by
  induction h with
  | init hrun => exact ⟨[], (blocks_init hbase hrun).2, trivial⟩
  | call hreach hallowed hkeeps hrun ih =>
    obtain ⟨bs, hbs, hall⟩ := ih
    obtain ⟨bs', hbs', htight, -⟩ := hreach.reachable.call_keeps hbase hbs hallowed hrun
    exact ⟨bs', hbs', htight hkeeps hall⟩

/-- The footers of blocks as `FTRP` finds them. -/
theorem visits_footer {ref : Memory} {h e : ℕ} (he : Ended s e)
    (ht : Tiles ref s.memory h bs e) (hall : Tight s.memory h bs) (hge : s.startBrk ≤ h) :
    ∀ v ∈ visits h bs, ∃ f val, s.ftrp v.ptr = .ok f ∧ s.get (hdrp v.ptr) = .ok val ∧
      s.get f = .ok val := by
  have hend := he.le
  induction bs generalizing h with
  | nil => simp [visits]
  | cons b bs ih =>
    obtain ⟨hb, hbs⟩ := ht
    have hle := hbs.le
    have hlarge := hb.large
    have htag := he.tagged hb.header hb.dvd hge (by omega)
    refine List.forall_mem_cons.2 ⟨?_, ih hbs hall.2 (by omega)⟩
    refine ⟨h + b.size - 8, word s.memory h, htag.ftrp he.region (by omega) (by omega), ?_, ?_⟩
    · rw [htag.hdrp he.region]
      exact get_eq hge (by omega)
    · rw [← hall.1]
      exact get_eq (by omega) (by omega)

/-- In every state of a run without overflow in which every pass leaves at most the footer of the
block that is taken wrong, the footers are equal to the headers. -/
theorem footers_agree (startBrk : ℕ) (hbase : HeapBase startBrk) (s : Heap)
    (live : List (ℕ × ℕ)) (h : ReachableWhen KeepsFooters (2 ^ 32 - 24) startBrk s live) :
    FootersAgree s := by
  obtain ⟨bs, hbs, hall⟩ := h.tight hbase
  obtain ⟨e, he, ht⟩ := id hbs
  exact ⟨_, hbs.walk, visits_footer he ht hall (Nat.le_refl _)⟩

/-- Two blocks are freed and merged for a larger request. -/
theorem footers_agree_merged :
    ∃ s, HeapBase 4096 ∧ ReachableWhen KeepsFooters (2 ^ 32 - 24) 4096 s [(4104, 24)] ∧
      Walk s s.begin [⟨4104, 48, true⟩] ∧ FootersAgree s := by
  have heval : ((memInit 4096 fun _ => 0).mmInit.bind fun s₀ =>
      ((Call.malloc 8).run s₀ []).bind fun x₁ => ((Call.malloc 8).run x₁.1 x₁.2).bind fun x₂ =>
      ((Call.free (4104, 8)).run x₂.1 x₂.2).bind fun x₃ =>
      ((Call.free (4128, 8)).run x₃.1 x₃.2).bind fun x₄ =>
      ((Call.malloc 24).run x₄.1 x₄.2).bind fun x₅ =>
        .ok (decide (s₀.totalFreeSize = 0 ∧ x₁.1.totalFreeSize = 0 ∧ (4104, 8) ∈ x₂.2 ∧
          (4128, 8) ∈ x₃.2 ∧ Walk x₄.1 x₄.1.begin [⟨4104, 24, false⟩, ⟨4128, 24, false⟩] ∧
          x₅.2 = [(4104, 24)] ∧ Walk x₅.1 x₅.1.begin [⟨4104, 48, true⟩]))).toOption =
      some true := by decide +kernel
  simp only [toOption_bind_eq_some] at heval
  obtain ⟨s₀, h₀, ⟨s₁, l₁⟩, h₁, ⟨s₂, l₂⟩, h₂, ⟨s₃, l₃⟩, h₃, ⟨s₄, l₄⟩, h₄, ⟨s₅, l₅⟩, h₅, heq⟩ :=
    heval
  obtain ⟨hfree₀, hfree₁, hmem₂, hmem₃, hwalk₄, rfl, hwalk₅⟩ :=
    of_decide_eq_true (Option.some.inj heq)
  -- nothing has been freed yet when the first two blocks are requested
  have hkeeps : ∀ {s : Heap}, s.totalFreeSize = 0 → KeepsFooters s (.malloc 8) := by
    intro s hfree _ hpass
    rw [hfree] at hpass
    exact absurd hpass (by decide)
  -- the pass meets one run, of two blocks
  have hkeeps₄ : KeepsFooters s₄ (.malloc 24) := by
    intro _ _ vs hwalk
    obtain rfl := hwalk₄.unique hwalk
    exact show StaleFirst 40 [(⟨48, false⟩, 2)] by simp [StaleFirst, Block.Fits]
  have hreach : ReachableWhen KeepsFooters (2 ^ 32 - 24) 4096 s₅ [(4104, 24)] :=
    (((((ReachableWhen.init h₀).call (c := .malloc 8) ⟨by decide, by decide⟩ (hkeeps hfree₀)
      h₁).call (c := .malloc 8) ⟨by decide, by decide⟩ (hkeeps hfree₁) h₂).call
      (c := .free (4104, 8)) hmem₂ trivial h₃).call (c := .free (4128, 8)) hmem₃
      trivial h₄).call (c := .malloc 24) ⟨by decide, by decide⟩ hkeeps₄ h₅
  exact ⟨s₅, heapBase_4096, hreach, hwalk₅, footers_agree 4096 heapBase_4096 s₅ _ hreach⟩

/-- Four blocks of 24 bytes are freed, and another one elsewhere. The pass for a request of 88 bytes
merges the four, but does not find a block. It leaves a block of 96 bytes with a footer of 48. -/
theorem footer_stale_after_pass :
    ∃ s live, HeapBase 4096 ∧ Reachable (2 ^ 32 - 24) 4096 s live ∧ ¬ FootersAgree s := by
  have heval : ((replay (2 ^ 32 - 24) 4096 [.malloc 8, .malloc 8, .malloc 8, .malloc 8, .malloc 8,
      .malloc 8, .free (4104, 8), .free (4128, 8), .free (4152, 8), .free (4176, 8),
      .free (4224, 8), .malloc 88]).bind fun x =>
        (x.1.ftrp 4104).bind fun f => (x.1.get f).bind fun foot =>
          (x.1.get (hdrp 4104)).bind fun head => .ok (f, foot, head, decide (Walk x.1 x.1.begin
            [⟨4104, 96, false⟩, ⟨4200, 24, true⟩, ⟨4224, 24, false⟩,
              ⟨4248, 104, true⟩]))).toOption = some (4184, 48, 96, true) := by decide +kernel
  simp only [toOption_bind_eq_some] at heval
  obtain ⟨⟨s, live⟩, hrun, f, hf, foot, hfoot, head, hhead, heq⟩ := heval
  obtain ⟨rfl, rfl, rfl, hwalk⟩ : f = 4184 ∧ foot = 48 ∧ head = 96 ∧ Walk s s.begin
      [⟨4104, 96, false⟩, ⟨4200, 24, true⟩, ⟨4224, 24, false⟩, ⟨4248, 104, true⟩] := by
    simpa [Except.toOption] using heq
  refine ⟨s, live, heapBase_4096, replay_reachable hrun, ?_⟩
  rintro ⟨vs, hvs, hall⟩
  obtain rfl := hwalk.unique hvs
  obtain ⟨f', val, hf', hhead', hfoot'⟩ := hall _ (List.mem_cons_self ..)
  simp only at hf' hhead'
  obtain rfl := Except.ok.inj (hf.symm.trans hf')
  obtain rfl := Except.ok.inj (hhead.symm.trans hhead')
  exact absurd (hfoot.symm.trans hfoot') (by simp)

/-! ## `total_free_size` -/

/-- In runs of calls that are counted, `total_free_size` is at least what is free. -/
theorem ReachableWhen.counted (hbase : HeapBase startBrk)
    (h : ReachableWhen CountsFree (2 ^ 32 - 24) startBrk s live) :
    ∃ bs, Blocks s bs ∧ freeSize bs ≤ s.totalFreeSize := by
  induction h with
  | init hrun => exact ⟨[], (blocks_init hbase hrun).2, Nat.zero_le _⟩
  | call hreach hallowed hcounts hrun ih =>
    obtain ⟨bs, hbs, hle⟩ := ih
    obtain ⟨bs', hbs', -, hcount⟩ := hreach.reachable.call_keeps hbase hbs hallowed hrun
    exact ⟨bs', hbs', hcount hcounts hle⟩

/-- In every state of a run without overflow in which no block is split in place, `mm_malloc` asks
`mem_sbrk` for more heap only if no run of free blocks is large enough. -/
theorem sbrk_only_without_room (startBrk : ℕ) (hbase : HeapBase startBrk) (s : Heap)
    (live : List (ℕ × ℕ)) (h : ReachableWhen CountsFree (2 ^ 32 - 24) startBrk s live) (size : ℕ)
    (s₁ : Heap)
    (hnone : NoFit s (s.totalFreeSize ≥ Heap.blockSize size) (Heap.blockSize size) s₁) :
    NoRoom s (Heap.blockSize size) := by
  obtain ⟨bs, hbs, hcounted⟩ := h.counted hbase
  obtain ⟨e, he, ht⟩ := id hbs
  refine ⟨_, hbs.walk, fun us v fs ws heq hfree hus hws => ?_⟩
  -- the run would be one block after a pass
  have hmem : ⟨((v :: fs).map Visited.size).sum, false⟩ ∈ mergeFree bs := by
    have hrun := List.mem_map_of_mem (f := Visited.block) (visits_run heq hfree hus hws)
    rwa [visits_map_block] at hrun
  by_cases hpass : s.totalFreeSize ≥ Heap.blockSize size
  · obtain ⟨bs₁, he₁, ht₁, -, -, hmerged, -⟩ := hnone.passed.spec he ht 0
    obtain rfl := hmerged hpass
    rcases findFitBlock_spec he₁ ht₁ (Heap.blockSize size) with ⟨-, hfits⟩ | ⟨_, _, _, _, hfind, -⟩
    · exact Nat.lt_of_not_le fun hle => hfits _ hmem ⟨rfl, hle⟩
    · simp [hnone.after] at hfind
  · -- there is less free than what is asked for
    have hle := size_le_freeSize hmem rfl
    rw [freeSize_mergeFree] at hle
    simp only at hle
    omega

/-- A block of eight bytes is freed. It has no room for 100 bytes. -/
theorem sbrk_only_without_room_freed :
    ∃ s, HeapBase 4096 ∧ ReachableWhen CountsFree (2 ^ 32 - 24) 4096 s [] ∧
      NoFit s (s.totalFreeSize ≥ Heap.blockSize 100) (Heap.blockSize 100) s ∧
      NoRoom s (Heap.blockSize 100) := by
  -- the run is evaluated, with the values that are needed of its states
  have heval : ((memInit 4096 fun _ => 0).mmInit.bind fun s₀ =>
      ((Call.malloc 8).run s₀ []).bind fun x₁ =>
      ((Call.free (4104, 8)).run x₁.1 x₁.2).bind fun x₂ =>
      (x₂.1.findFitBlock (Heap.blockSize 100)).bind fun fit =>
        .ok (decide ((4104, 8) ∈ x₁.2 ∧ x₁.1.totalFreeSize = 0 ∧ x₂.2 = [] ∧ fit = none ∧
          x₂.1.totalFreeSize < Heap.blockSize 100))).toOption = some true := by decide +kernel
  simp only [toOption_bind_eq_some] at heval
  obtain ⟨s₀, h₀, ⟨s₁, l₁⟩, h₁, ⟨s₂, l₂⟩, h₂, fit, hfind, heq⟩ := heval
  obtain ⟨hmem, hfree, rfl, rfl, hlt⟩ := of_decide_eq_true (Option.some.inj heq)
  have hcounts : CountsFree s₁ (.free (4104, 8)) := by
    intro n hn
    have := getSize_lt hn
    rw [hfree]
    omega
  have hreach : ReachableWhen CountsFree (2 ^ 32 - 24) 4096 s₂ [] :=
    ((ReachableWhen.init h₀).call (c := .malloc 8) ⟨by decide, by decide⟩ trivial h₁).call
      (c := .free (4104, 8)) hmem hcounts h₂
  have hnone : NoFit s₂ (s₂.totalFreeSize ≥ Heap.blockSize 100) (Heap.blockSize 100) s₂ :=
    ⟨hfind, .inr ⟨Nat.not_le.2 hlt, rfl⟩, hfind⟩
  exact ⟨s₂, heapBase_4096, hreach, hnone,
    sbrk_only_without_room 4096 heapBase_4096 s₂ [] hreach 100 s₂ hnone⟩

/-- A block for 200 bytes is shrunk twice. The two free blocks of 96 bytes behind it are not
counted, and a request of 100 bytes makes no pass. -/
theorem sbrk_despite_room :
    ∃ s live, HeapBase 4096 ∧ Reachable (2 ^ 32 - 24) 4096 s live ∧
      NoFit s (s.totalFreeSize ≥ Heap.blockSize 100) (Heap.blockSize 100) s ∧
      ¬ NoRoom s (Heap.blockSize 100) := by
  have heval : ((replay (2 ^ 32 - 24) 4096 [.malloc 200, .realloc (4104, 200) 100,
      .realloc (4104, 100) 8]).bind fun x => (x.1.findFitBlock (Heap.blockSize 100)).bind fun fit =>
        .ok (decide (fit = none ∧ x.1.totalFreeSize < Heap.blockSize 100 ∧ Walk x.1 x.1.begin
          [⟨4104, 24, true⟩, ⟨4128, 96, false⟩, ⟨4224, 96, false⟩]))).toOption = some true := by
    decide +kernel
  simp only [toOption_bind_eq_some] at heval
  obtain ⟨⟨s, live⟩, hrun, fit, hfind, heq⟩ := heval
  obtain ⟨rfl, hlt, hwalk⟩ := of_decide_eq_true (Option.some.inj heq)
  refine ⟨s, live, heapBase_4096, replay_reachable hrun,
    ⟨hfind, .inr ⟨Nat.not_le.2 hlt, rfl⟩, hfind⟩, ?_⟩
  rintro ⟨vs, hvs, hsmall⟩
  obtain rfl := hwalk.unique hvs
  have hsum := hsmall [⟨4104, 24, true⟩] ⟨4128, 96, false⟩ [⟨4224, 96, false⟩] [] rfl (by simp)
    (by simp) (by simp)
  exact absurd hsum (by decide)

end CppLearn.MallocLab

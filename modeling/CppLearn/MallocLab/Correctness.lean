import CppLearn.MallocLab.Operations
import CppLearn.Lib.Matching

/-!
# Correctness of the allocator

Over any sequence of calls with live arguments, in which `mem_sbrk` does not fail, the walk over
the headers divides the heap into blocks, the blocks in use are the live ones, and their payloads
are disjoint and left alone. The owners of the blocks may write to their payloads at any time.

The requests have to be small enough for `ALIGN(size) + 2 * SIZE_T_SIZE` not to overflow. Larger
ones get blocks that are too small.

## Main definitions

* `Reachable`: the states of all sequences of calls, with the live blocks;
* `Walk`: the blocks that `NEXT_BLK` visits;
* `Tracks`: the invariant;
* `Total`, `LeavesAlone`: what is said about the next call.

## Main results

* `reachable_walk`: the structure of the heap;
* `reachable_leavesAlone`: no call affects the payloads of other blocks, and `mm_realloc` keeps the
  content of its block.
-/

namespace CppLearn.MallocLab

open BoundedLoop BoundaryTags

/-- The address of the storage that `mem_init` gets from `malloc`. -/
structure HeapBase (startBrk : ℕ) : Prop where
  pos : 0 < startBrk
  dvd : 8 ∣ startBrk
  bound : startBrk + maxHeap < 2 ^ 32

/-- The live blocks after `mm_malloc` has returned `r`. -/
def afterMalloc (live : List (ℕ × ℕ)) (size : ℕ) : Option ℕ → List (ℕ × ℕ)
  | some p => (p, size) :: live
  | none => live

/-- The live blocks after `mm_realloc` of `x` has returned `r`. -/
def afterRealloc (live : List (ℕ × ℕ)) (x : ℕ × ℕ) (size : ℕ) : Option ℕ → List (ℕ × ℕ)
  | some q => (q, size) :: live.erase x
  | none => live

/-- The states after sequences of calls with requests of at most `bound` bytes. The live blocks are
listed with their addresses and the sizes that were requested. -/
inductive Reachable (bound startBrk : ℕ) : Heap → List (ℕ × ℕ) → Prop
  | init {memory : Memory} {s : Heap} : (memInit startBrk memory).mmInit = .ok s →
      Reachable bound startBrk s []
  | malloc {s s' : Heap} {live : List (ℕ × ℕ)} {size : ℕ} {r : Option ℕ} :
      Reachable bound startBrk s live → 1 ≤ size → size ≤ bound →
      s.mmMalloc size = .ok (r, s') → Reachable bound startBrk s' (afterMalloc live size r)
  | free {s s' : Heap} {live : List (ℕ × ℕ)} {x : ℕ × ℕ} : Reachable bound startBrk s live →
      x ∈ live → s.mmFree x.1 = .ok s' → Reachable bound startBrk s' (live.erase x)
  | realloc {s s' : Heap} {live : List (ℕ × ℕ)} {x : ℕ × ℕ} {size : ℕ} {r : Option ℕ} :
      Reachable bound startBrk s live → x ∈ live → 1 ≤ size → size ≤ bound →
      s.mmRealloc x.1 size = .ok (r, s') → Reachable bound startBrk s' (afterRealloc live x size r)
  | write {s : Heap} {live : List (ℕ × ℕ)} {x : ℕ × ℕ} {i : ℕ} {byte : UInt8} :
      Reachable bound startBrk s live → x ∈ live → i < x.2 →
      Reachable bound startBrk { s with memory := Function.update s.memory (x.1 + i) byte } live

/-! ## The walk over the headers -/

/-- A block as the walk sees it. -/
structure Visited where
  ptr : ℕ
  size : ℕ
  alloc : Bool

/-- Following `NEXT_BLK` from `p` visits the blocks in the list, and ends behind the end marker at
the end of the heap. -/
def Walk (s : Heap) : ℕ → List Visited → Prop
  | p, [] => p = s.brk ∧ s.isEnd (hdrp p) = .ok true
  | p, b :: bs => b.ptr = p ∧ s.isEnd (hdrp p) = .ok false ∧ s.getSize (hdrp p) = .ok b.size ∧
      s.getAlloc (hdrp p) = .ok b.alloc.toNat ∧ s.nextBlk p = .ok (p + b.size) ∧
      Walk s (p + b.size) bs

/-- Blocks from address `h` on, with the pointers to them. -/
def visits : ℕ → List Block → List Visited
  | _, [] => []
  | h, b :: bs => ⟨h + 8, b.size, b.alloc⟩ :: visits (h + b.size) bs

/-- The payload of a visited block. -/
def Visited.payload (b : Visited) : ℕ × ℕ := (b.ptr, b.size - 16)

variable {ref : Memory} {s s' : Heap} {bs : List Block} {h e bound startBrk size : ℕ}
  {live l : List (ℕ × ℕ)}

/-- The walk over the heap goes from block to block. -/
theorem walk_visits (he : Ended s e) (ht : Tiles ref s.memory h bs e) (hge : s.startBrk ≤ h) :
    Walk s (h + 8) (visits h bs) := by
  have hend := he.le
  have hmax := he.region.maxAddr_lt
  induction bs generalizing h with
  | nil =>
    -- the walk ends at the end marker
    obtain rfl : h = e := ht
    refine ⟨he.brk.symm, ?_⟩
    rw [hdrp_add (by omega)]
    exact he.isEnd
  | cons b bs ih =>
    obtain ⟨hb, hbs⟩ := ht
    have hle := hbs.le
    have htag := he.tagged hb.header hb.dvd hge (by omega)
    have hnext : h + 8 + b.size = h + b.size + 8 := by omega
    unfold visits Walk
    simp only [htag.hdrp he.region, hnext]
    exact ⟨trivial, htag.isEnd, htag.getSize, htag.getAlloc, htag.nextBlk he.region (by omega),
      ih hbs (by omega)⟩

/-- The walk is determined by the tags. -/
theorem Walk.unique {p : ℕ} {vs vs' : List Visited} (h : Walk s p vs) (h' : Walk s p vs') :
    vs = vs' := by
  induction vs generalizing p vs' with
  | nil =>
    cases vs' with
    | nil => rfl
    | cons b' vs' => exact absurd (h.2.symm.trans h'.2.1) (by simp)
  | cons b vs ih =>
    cases vs' with
    | nil => exact absurd (h.2.1.symm.trans h'.2) (by simp)
    | cons b' vs' =>
      obtain ⟨hptr, -, hsize, halloc, -, hrest⟩ := h
      obtain ⟨hptr', -, hsize', halloc', -, hrest'⟩ := h'
      have hsizes := Except.ok.inj (hsize.symm.trans hsize')
      have hallocs : b.alloc = b'.alloc := by
        have hbits := Except.ok.inj (halloc.symm.trans halloc')
        cases hb : b.alloc <;> cases hb' : b'.alloc <;> simp_all
      rw [← hsizes] at hrest'
      obtain ⟨ptr, size, alloc⟩ := b
      obtain ⟨ptr', size', alloc'⟩ := b'
      simp only at hptr hptr' hsizes hallocs hrest hrest'
      rw [ih hrest hrest', hptr, hptr', hsizes, hallocs]

/-- It meets sizes that are multiples of eight, and not less than `24`. -/
theorem visits_size (ht : Tiles ref s.memory h bs e) :
    ∀ b ∈ visits h bs, 24 ≤ b.size ∧ 8 ∣ b.size := by
  induction bs generalizing h with
  | nil => simp [visits]
  | cons b bs ih =>
    obtain ⟨hb, hbs⟩ := ht
    intro v hv
    rcases List.mem_cons.1 hv with rfl | hv
    · exact ⟨hb.large, hb.dvd⟩
    · exact ih hbs v hv

/-- The blocks that are marked as in use are those of the payloads. -/
theorem visits_filter (h : ℕ) (bs : List Block) :
    ((visits h bs).filter Visited.alloc).map Visited.payload = allocated h bs := by
  induction bs generalizing h with
  | nil => rfl
  | cons b bs ih =>
    obtain ⟨size, _ | _⟩ := b
    · exact ih (h + size)
    · exact congrArg ((h + 8, size - 16) :: ·) (ih (h + size))

/-! ## Runs -/

/-- A live block has a payload that is large enough. -/
def Fits (x p : ℕ × ℕ) : Prop := x.1 = p.1 ∧ x.2 ≤ p.2

/-- The heap is well formed, and its blocks in use are the live ones. -/
def Tracks (startBrk : ℕ) (s : Heap) (live : List (ℕ × ℕ)) : Prop :=
  s.startBrk = startBrk ∧ ∃ l, Holds s l ∧ Matching Fits live l

/-- What `mm_init` does if there is room for the mark at the end. -/
theorem mmInit_eq (hge : s.startBrk ≤ s.brk) (hroom : s.brk + 8 ≤ s.maxAddr) :
    s.mmInit = .ok (({ s with brk := s.brk + 8 } : Heap).store s.brk 7) := by
  have hsbrk : s.memSbrk sizeTSize = (s.brk, { s with brk := s.brk + 8 }) :=
    if_pos ⟨by decide, hroom⟩
  have hpack : pack 0 7 = 7 := rfl
  unfold Heap.mmInit
  simp only [hsbrk, hpack]
  exact put_eq hge hroom

/-- A new heap has no blocks. -/
theorem blocks_init {memory : Memory} (hbase : HeapBase startBrk)
    (hrun : (memInit startBrk memory).mmInit = .ok s) : s.startBrk = startBrk ∧ Blocks s [] := by
  have hroom : startBrk + 8 ≤ startBrk + maxHeap := by
    unfold maxHeap
    omega
  rw [mmInit_eq (Nat.le_refl _) hroom] at hrun
  obtain rfl := Except.ok.inj hrun
  exact ⟨rfl, startBrk, ⟨⟨hbase.pos, hbase.dvd, rfl, hbase.bound⟩, rfl, hroom, Nat.le_refl _,
    word_store_self (by decide)⟩, rfl⟩

/-- After it, no block is in use. -/
theorem tracks_init {memory : Memory} (hbase : HeapBase startBrk)
    (hrun : (memInit startBrk memory).mmInit = .ok s) : Tracks startBrk s [] := by
  obtain ⟨hstart, hbs⟩ := blocks_init hbase hrun
  exact ⟨hstart, [], hbs.holds (.refl _), .nil⟩

/-- The payload of a live block, and the match of the others. -/
theorem Tracks.payload {x : ℕ × ℕ} (h : Tracks startBrk s live) (hx : x ∈ live) :
    ∃ l p, Holds s l ∧ p ∈ l ∧ Fits x p ∧ Matching Fits (live.erase x) (l.erase p) := by
  obtain ⟨-, l, hs, hm⟩ := h
  obtain ⟨p, l', hfits, hperm, hrest⟩ := hm.erase hx
  have hp : p ∈ l := hperm.mem_iff.2 (List.mem_cons_self ..)
  refine ⟨l, p, hs, hp, hfits, hrest.perm_right ?_⟩
  have herase := hperm.erase p
  rw [List.erase_cons_head] at herase
  exact herase.symm

/-- Payloads that are kept are kept for the live blocks. -/
theorem Keeps.of_matching (hkeep : Keeps s s' l) (hm : Matching Fits live l) {y : ℕ × ℕ}
    (hy : y ∈ live) {i : ℕ} (hi : i < y.2) : s'.memory (y.1 + i) = s.memory (y.1 + i) := by
  obtain ⟨p, hp, haddr, hle⟩ := hm.exists_of_mem hy
  rw [haddr]
  exact hkeep p hp i (by omega)

/-- `mm_malloc` on live blocks. -/
theorem Tracks.malloc (h : Tracks startBrk s live) (hpos : 1 ≤ size) (hsize : size ≤ 2 ^ 32 - 24) :
    (∃ p s', s.mmMalloc size = .ok (some p, s') ∧ Tracks startBrk s' ((p, size) :: live) ∧
      ∀ y ∈ live, ∀ i < y.2, s'.memory (y.1 + i) = s.memory (y.1 + i)) ∨
    (s.maxAddr < s.brk + Heap.blockSize size ∧ ∃ fault, s.mmMalloc size = .error fault) := by
  obtain ⟨hbase, l, ⟨e, bs, he, ht, hperm⟩, hm⟩ := h
  rcases mmMalloc_spec he ht hpos hsize with ⟨p, s', hrun, hbase', ⟨n, hn, hs'⟩, hkeep⟩ | hfail
  · have hreq := (blockSize_spec hpos hsize).2.2
    have hm' := hm.perm_right hperm.symm
    refine .inl ⟨p, s', hrun, ⟨hbase'.trans hbase, _, hs', hm'.cons ⟨rfl, by simp only; omega⟩⟩, ?_⟩
    exact fun y hy i hi => Keeps.of_matching hkeep hm' hy hi
  · exact .inr hfail

/-- `mm_free` on live blocks. -/
theorem Tracks.free {x : ℕ × ℕ} (h : Tracks startBrk s live) (hx : x ∈ live) :
    ∃ s', s.mmFree x.1 = .ok s' ∧ Tracks startBrk s' (live.erase x) ∧
      ∀ y ∈ live.erase x, ∀ i < y.2, s'.memory (y.1 + i) = s.memory (y.1 + i) := by
  obtain ⟨l, p, hs, hp, hfits, hm⟩ := h.payload hx
  obtain ⟨s', hrun, hbase, hs', hkeep⟩ := hs.free hp
  rw [← hfits.1] at hrun
  exact ⟨s', hrun, ⟨hbase.trans h.1, _, hs', hm⟩, fun y hy i hi => Keeps.of_matching hkeep hm hy hi⟩

/-- `mm_realloc` on live blocks. -/
theorem Tracks.realloc {x : ℕ × ℕ} (h : Tracks startBrk s live) (hx : x ∈ live) (hpos : 1 ≤ size)
    (hsize : size ≤ 2 ^ 32 - 24) :
    (∃ q s', s.mmRealloc x.1 size = .ok (some q, s') ∧
      Tracks startBrk s' ((q, size) :: live.erase x) ∧
      (∀ i < min x.2 size, s'.memory (q + i) = s.memory (x.1 + i)) ∧
      ∀ y ∈ live.erase x, ∀ i < y.2, s'.memory (y.1 + i) = s.memory (y.1 + i)) ∨
    (s.maxAddr < s.brk + Heap.blockSize size ∧ ∃ fault, s.mmRealloc x.1 size = .error fault) := by
  obtain ⟨l, p, hs, hp, ⟨haddr, hle⟩, hm⟩ := h.payload hx
  rw [haddr]
  rcases mmRealloc_spec hs hp hpos hsize with
    ⟨q, s', hrun, hbase, ⟨n, hn, hs'⟩, hbytes, hkeep⟩ | hfail
  · have hreq := (blockSize_spec hpos hsize).2.2
    refine .inl ⟨q, s', hrun, ⟨hbase.trans h.1, _, hs', hm.cons ⟨rfl, by simp only; omega⟩⟩, ?_,
      fun y hy i hi => Keeps.of_matching hkeep hm hy hi⟩
    -- the payload of the old block may be larger than what was asked for
    exact fun i hi => hbytes i (by omega) (by omega)
  · exact .inr hfail

/-- The owner of a block writes to its payload. -/
theorem Tracks.write {x : ℕ × ℕ} {i : ℕ} {byte : UInt8} (h : Tracks startBrk s live) (hx : x ∈ live)
    (hi : i < x.2) :
    Tracks startBrk { s with memory := Function.update s.memory (x.1 + i) byte } live := by
  obtain ⟨l, p, hs, hp, ⟨haddr, hle⟩, hm⟩ := h.payload hx
  have hvars : SameVars s { s with memory := Function.update s.memory (x.1 + i) byte } := rfl
  have hs' := (hs.write hp hvars fun a ha => Function.update_of_ne (by omega) ..).1
  refine ⟨h.1, l, hs', ?_⟩
  have hcons : Matching Fits (x :: live.erase x) (p :: l.erase p) := hm.cons ⟨haddr, hle⟩
  exact (hcons.perm_left (List.perm_cons_erase hx)).perm_right (List.perm_cons_erase hp).symm

/-- Every run without overflow leads to a well-formed heap. -/
theorem Reachable.tracks (hbase : HeapBase startBrk) (hbound : bound ≤ 2 ^ 32 - 24)
    (h : Reachable bound startBrk s live) : Tracks startBrk s live := by
  induction h with
  | init hrun => exact tracks_init hbase hrun
  | malloc _ hpos hsize hrun ih =>
    rcases ih.malloc hpos (Nat.le_trans hsize hbound) with ⟨p, s', hrun', ht, -⟩ | ⟨-, _, hfault⟩
    · obtain ⟨rfl, rfl⟩ := Prod.mk.inj (Except.ok.inj (hrun'.symm.trans hrun))
      exact ht
    · -- the call of the run has returned
      simp [hrun] at hfault
  | free _ hx hrun ih =>
    obtain ⟨s', hrun', ht, -⟩ := ih.free hx
    obtain rfl := Except.ok.inj (hrun'.symm.trans hrun)
    exact ht
  | realloc _ hx hpos hsize hrun ih =>
    rcases ih.realloc hx hpos (Nat.le_trans hsize hbound) with
      ⟨q, s', hrun', ht, -⟩ | ⟨-, _, hfault⟩
    · obtain ⟨rfl, rfl⟩ := Prod.mk.inj (Except.ok.inj (hrun'.symm.trans hrun))
      exact ht
    · simp [hrun] at hfault
  | write _ hx hi ih => exact ih.write hx hi

/-! ## The next call -/

/-- The calls return, as long as `mem_sbrk` does not fail. -/
structure Total (bound : ℕ) (s : Heap) (live : List (ℕ × ℕ)) : Prop where
  malloc : ∀ size, 1 ≤ size → size ≤ bound → s.brk + Heap.blockSize size ≤ s.maxAddr →
    ∃ p s', s.mmMalloc size = .ok (some p, s')
  free : ∀ x ∈ live, ∃ s', s.mmFree x.1 = .ok s'
  realloc : ∀ x ∈ live, ∀ size, 1 ≤ size → size ≤ bound →
    s.brk + Heap.blockSize size ≤ s.maxAddr → ∃ q s', s.mmRealloc x.1 size = .ok (some q, s')

/-- The calls do not change the payloads of other blocks, and `mm_realloc` keeps the content of its
block as far as it fits. -/
structure LeavesAlone (bound : ℕ) (s : Heap) (live : List (ℕ × ℕ)) : Prop where
  malloc : ∀ size r s', 1 ≤ size → size ≤ bound → s.mmMalloc size = .ok (r, s') →
    ∀ y ∈ live, ∀ i < y.2, s'.memory (y.1 + i) = s.memory (y.1 + i)
  free : ∀ x ∈ live, ∀ s', s.mmFree x.1 = .ok s' →
    ∀ y ∈ live.erase x, ∀ i < y.2, s'.memory (y.1 + i) = s.memory (y.1 + i)
  realloc : ∀ x ∈ live, ∀ size r s', 1 ≤ size → size ≤ bound →
    s.mmRealloc x.1 size = .ok (r, s') →
    (∀ y ∈ live.erase x, ∀ i < y.2, s'.memory (y.1 + i) = s.memory (y.1 + i)) ∧
    ∃ q, r = some q ∧ ∀ i < min x.2 size, s'.memory (q + i) = s.memory (x.1 + i)

/-- Requests that are small enough do not let the sums overflow, -/
theorem Tracks.total (h : Tracks startBrk s live) (hbound : bound ≤ 2 ^ 32 - 24) :
    Total bound s live := by
  refine ⟨fun size hpos hsize hroom => ?_, fun x hx => ?_, fun x hx size hpos hsize hroom => ?_⟩
  · rcases h.malloc hpos (Nat.le_trans hsize hbound) with ⟨p, s', hrun, -⟩ | ⟨hfail, -⟩
    · exact ⟨p, s', hrun⟩
    · omega
  · obtain ⟨s', hrun, -⟩ := h.free hx
    exact ⟨s', hrun⟩
  · rcases h.realloc hx hpos (Nat.le_trans hsize hbound) with ⟨q, s', hrun, -⟩ | ⟨hfail, -⟩
    · exact ⟨q, s', hrun⟩
    · omega

/-- and leave the payloads of other blocks alone. -/
theorem Tracks.leavesAlone (h : Tracks startBrk s live) (hbound : bound ≤ 2 ^ 32 - 24) :
    LeavesAlone bound s live := by
  refine ⟨fun size r s' hpos hsize hrun => ?_, fun x hx s' hrun => ?_,
    fun x hx size r s' hpos hsize hrun => ?_⟩
  · rcases h.malloc hpos (Nat.le_trans hsize hbound) with ⟨p, s₁, hrun₁, -, hkeep⟩ | ⟨-, _, hfault⟩
    · obtain ⟨-, rfl⟩ := Prod.mk.inj (Except.ok.inj (hrun₁.symm.trans hrun))
      exact hkeep
    · simp [hrun] at hfault
  · obtain ⟨s₁, hrun₁, -, hkeep⟩ := h.free hx
    obtain rfl := Except.ok.inj (hrun₁.symm.trans hrun)
    exact hkeep
  · rcases h.realloc hx hpos (Nat.le_trans hsize hbound) with
      ⟨q, s₁, hrun₁, -, hbytes, hkeep⟩ | ⟨-, _, hfault⟩
    · obtain ⟨rfl, rfl⟩ := Prod.mk.inj (Except.ok.inj (hrun₁.symm.trans hrun))
      exact ⟨hkeep, q, rfl, hbytes⟩
    · simp [hrun] at hfault

/-- The storage of the driver is small enough, -/
theorem maxHeap_le : maxHeap ≤ 2 ^ 32 - 24 := by decide

/-! ## Results -/

/-- In every reachable state `NEXT_BLK` visits blocks of positive sizes divisible by eight that
fill the heap up to the end marker in its last eight bytes. The blocks marked as in use are the
live ones. Live pointers are aligned and have payloads that are large enough, inside the heap and
disjoint. The next call returns unless `mem_sbrk` fails. -/
theorem reachable_walk (startBrk : ℕ) (hbase : HeapBase startBrk) (s : Heap)
    (live : List (ℕ × ℕ)) (h : Reachable maxHeap startBrk s live) :
    (∃ bs, Walk s s.begin bs ∧ (∀ b ∈ bs, 0 < b.size ∧ 8 ∣ b.size) ∧
      ((bs.filter Visited.alloc).map Visited.ptr).Perm (live.map Prod.fst) ∧
      ∀ x ∈ live, ∃ b ∈ bs, b.alloc = true ∧ b.ptr = x.1 ∧ x.2 + 16 ≤ b.size) ∧
    (∀ x ∈ live, 8 ∣ x.1 ∧ s.startBrk ≤ x.1 ∧ x.1 + x.2 ≤ s.brk) ∧
    (live.Pairwise fun x y => x.1 + x.2 ≤ y.1 ∨ y.1 + y.2 ≤ x.1) ∧
    Total maxHeap s live := by
  have htracks := h.tracks hbase maxHeap_le
  obtain ⟨-, l, hs, hm⟩ := id htracks
  refine ⟨?_, fun x hx => ?_, ?_, htracks.total maxHeap_le⟩
  · obtain ⟨e, bs, he, ht, hperm⟩ := hs
    have hsizes := visits_size ht
    refine ⟨visits s.startBrk bs, ?_, fun b hb => ?_, ?_, fun x hx => ?_⟩
    · rw [begin_eq he.region]
      exact walk_visits he ht (Nat.le_refl _)
    · exact ⟨Nat.lt_of_lt_of_le (by decide) (hsizes b hb).1, (hsizes b hb).2⟩
    · -- the visited blocks in use are the payloads, and these match the live blocks
      have hptr := (hperm.map Prod.fst).trans (hm.map_perm fun x p hxp => hxp.1).symm
      rw [← visits_filter, List.map_map] at hptr
      exact hptr
    · obtain ⟨p, hp, haddr, hle⟩ := hm.exists_of_mem hx
      have hmem := hperm.mem_iff.2 hp
      rw [← visits_filter] at hmem
      obtain ⟨b, hb, rfl⟩ := List.mem_map.1 hmem
      obtain ⟨hb, halloc⟩ := List.mem_filter.1 hb
      refine ⟨b, hb, halloc, haddr.symm, ?_⟩
      have hlarge := (hsizes b hb).1
      unfold Visited.payload at hle
      omega
  · obtain ⟨p, hp, haddr, hle⟩ := hm.exists_of_mem hx
    have hbounds := hs.bounds hp
    rw [haddr]
    omega
  · refine hm.pairwise Or.symm hs.disjoint fun x p y p' hx hy hpp' => ?_
    obtain ⟨haddr, hle⟩ := hx
    obtain ⟨haddr', hle'⟩ := hy
    omega

/-- and may begin at `4096`. -/
theorem heapBase_4096 : HeapBase 4096 := ⟨by decide, by decide, by decide⟩

/-- A run with a first request. -/
theorem reachable_first (bound size p b : ℕ) (hpos : 1 ≤ size) (hsize : size ≤ bound)
    (heval : (do
      let s ← (memInit 4096 fun _ => 0).mmInit
      let (r, s) ← s.mmMalloc size
      pure (r, s.brk, s.maxAddr)).toOption = some (some p, b, 4096 + maxHeap)) :
    ∃ s, Reachable bound 4096 s [(p, size)] ∧ s.brk = b ∧ s.maxAddr = 4096 + maxHeap ∧
      (do let s ← (memInit 4096 fun _ => 0).mmInit; s.mmMalloc size) = .ok (some p, s) := by
  simp only [bind, toOption_bind_eq_some, Prod.exists] at heval
  obtain ⟨s₀, h₀, r, s, h₁, heq⟩ := heval
  obtain ⟨rfl, hbrk, hmax⟩ : r = some p ∧ s.brk = b ∧ s.maxAddr = 4096 + maxHeap := by
    simpa [Except.toOption, pure, Except.pure] using heq
  exact ⟨s, .malloc (.init h₀) hpos hsize h₁, hbrk, hmax,
    by simp only [bind, Except.bind, h₀, h₁]⟩

/-- Blocks for one byte and for 20 bytes. -/
theorem reachable_walk_pair :
    ∃ s, HeapBase 4096 ∧ Reachable maxHeap 4096 s [(4128, 20), (4104, 1)] ∧
      (∃ bs, Walk s s.begin bs ∧
        ((bs.filter Visited.alloc).map Visited.ptr).Perm [4128, 4104]) ∧
      (8 ∣ 4128 ∧ s.startBrk ≤ 4128 ∧ 4128 + 20 ≤ s.brk) ∧
      [((4128, 20) : ℕ × ℕ), (4104, 1)].Pairwise fun x y => x.1 + x.2 ≤ y.1 ∨ y.1 + y.2 ≤ x.1 := by
  have heval : (do
      let s ← (memInit 4096 fun _ => 0).mmInit
      let (r, s) ← s.mmMalloc 1
      let (r', _) ← s.mmMalloc 20
      pure (r, r')).toOption = some (some 4104, some 4128) := by decide +kernel
  simp only [bind, toOption_bind_eq_some, Prod.exists] at heval
  obtain ⟨s₀, h₀, r, s₁, h₁, r', s, h₂, heq⟩ := heval
  obtain ⟨rfl, rfl⟩ : r = some 4104 ∧ r' = some 4128 := by
    simpa [Except.toOption, pure, Except.pure] using heq
  have hreach : Reachable maxHeap 4096 s [(4128, 20), (4104, 1)] :=
    .malloc (.malloc (.init h₀) (by decide) (by decide) h₁) (by decide) (by decide) h₂
  obtain ⟨⟨bs, hwalk, -, hptr, -⟩, hinside, hapart, -⟩ :=
    reachable_walk 4096 heapBase_4096 s _ hreach
  exact ⟨s, heapBase_4096, hreach, ⟨bs, hwalk, hptr⟩, hinside _ (List.mem_cons_self ..), hapart⟩

/-- If no request overflows, then in every reachable state the next call leaves the payloads of the
other blocks alone, `mm_realloc` keeps the content of its block, and the calls return unless
`mem_sbrk` fails. -/
theorem reachable_leavesAlone (startBrk : ℕ) (hbase : HeapBase startBrk) (s : Heap)
    (live : List (ℕ × ℕ)) (h : Reachable (2 ^ 32 - 24) startBrk s live) :
    LeavesAlone (2 ^ 32 - 24) s live ∧ Total (2 ^ 32 - 24) s live := by
  have htracks := h.tracks hbase (Nat.le_refl _)
  exact ⟨htracks.leavesAlone (Nat.le_refl _), htracks.total (Nat.le_refl _)⟩

/-- A block of one byte is moved to a larger one. -/
theorem reachable_leavesAlone_single :
    ∃ s, HeapBase 4096 ∧ Reachable (2 ^ 32 - 24) 4096 s [(4104, 1)] ∧
      ∃ q s', s.mmRealloc 4104 9 = .ok (some q, s') ∧ s'.memory (q + 0) = s.memory (4104 + 0) := by
  obtain ⟨s, hreach, hbrk, hmax, -⟩ := reachable_first (2 ^ 32 - 24) 1 4104 4128 (by decide)
    (by decide) (by decide +kernel)
  obtain ⟨halone, htotal⟩ := reachable_leavesAlone 4096 heapBase_4096 s _ hreach
  have hroom : s.brk + Heap.blockSize 9 ≤ s.maxAddr := by
    rw [hbrk, hmax]
    decide
  obtain ⟨q, s', hrun⟩ := htotal.realloc (4104, 1) (List.mem_cons_self ..) 9 (by decide) (by decide)
    hroom
  obtain ⟨-, q', hq, hbytes⟩ := halone.realloc (4104, 1) (List.mem_cons_self ..) 9 _ s' (by decide)
    (by decide) hrun
  obtain rfl := Option.some.inj hq
  exact ⟨s, heapBase_4096, hreach, q, s', hrun, hbytes 0 (by decide)⟩

/-- A request of `2 ^ 32 - 8` bytes gets a block of eight bytes, tags included, so that its payload
begins with the end marker. The next request overwrites it. -/
theorem malloc_overwrites_payload :
    ∃ s, HeapBase 4096 ∧ Reachable (2 ^ 32 - 1) 4096 s [(4104, 2 ^ 32 - 8)] ∧
      ¬ LeavesAlone (2 ^ 32 - 1) s [(4104, 2 ^ 32 - 8)] := by
  obtain ⟨s, hreach, -, -, hs⟩ := reachable_first (2 ^ 32 - 1) (2 ^ 32 - 8) 4104 4112
    (by decide) (by decide) (by decide +kernel)
  refine ⟨s, heapBase_4096, hreach, fun halone => ?_⟩
  have heval : ((do
      let s ← (memInit 4096 fun _ => 0).mmInit
      s.mmMalloc (2 ^ 32 - 8)) >>= fun x => do
      let (_, s') ← x.2.mmMalloc 1
      pure (x.2.memory 4104, s'.memory 4104)).toOption = some (7, 25) := by decide +kernel
  rw [hs] at heval
  simp only [bind, toOption_bind_eq_some, Prod.exists] at heval
  obtain ⟨_, _, heq, r, s', hrun, hbytes⟩ := heval
  obtain ⟨-, rfl⟩ := Prod.mk.inj (Except.ok.inj heq)
  obtain ⟨hbefore, hafter⟩ := Prod.mk.inj (Option.some.inj hbytes)
  have hsame := halone.malloc 1 r s' (by decide) (by decide) hrun _ (List.mem_cons_self ..) 0
    (by decide)
  rw [Nat.add_zero, hbefore, hafter] at hsame
  exact absurd hsame (by decide)

end CppLearn.MallocLab

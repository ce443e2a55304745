import CppLearn.MallocLab.Requests
import Mathlib.Tactic.Ring

/-!
# The utilization of the heap

The first part of the quotient is the largest number of bytes that the requests of the trace have
kept live at one time, which no allocator can do without. The live blocks are disjoint and inside
the heap, and the heap does not shrink, so the quotient is at most one.

That the live blocks fit in the heap is `Owns.total_le`, and what `eval_mm_util` returns is
`evalMmUtil_eq`.
-/

namespace CppLearn.MallocLab

open BoundedLoop BoundaryTags CheckedVector Unsigned

variable {ref : Memory} {s : Heap} {startBrk h e numIds : ℕ} {bs : List Block}
  {live l m : List (ℕ × ℕ)} {blocks blockSizes : List ℕ} {u : Usage} {op : TraceOp}
  {ops : List TraceOp}

/-! ## The live blocks -/

theorem total_allocated_le (ht : Tiles ref s.memory h bs e) :
    total (allocated h bs) ≤ e - h := by
  induction bs generalizing h with
  | nil => exact Nat.zero_le _
  | cons b bs ih =>
    obtain ⟨hb, hbs⟩ := ht
    have hle := hbs.le
    have hrest := ih hbs
    rw [allocated]
    split_ifs
    · rw [total, List.map_cons, List.sum_cons]
      rw [total] at hrest
      simp only
      omega
    · omega

theorem total_le_of_matching (hm : Matching Fits l m) : total l ≤ total m := by
  obtain ⟨m', hl, hperm⟩ := hm
  have hsum : total m' = total m := (hperm.map Prod.snd).sum_eq
  rw [← hsum]
  clear hsum hperm
  induction hl with
  | nil => exact le_rfl
  | cons hfits _ ih =>
    rw [total, total, List.map_cons, List.map_cons, List.sum_cons, List.sum_cons]
    exact Nat.add_le_add hfits.2 ih

/-- The live blocks fit in the heap, beside the end marker. -/
theorem Owns.total_le (h : Owns startBrk live s blocks blockSizes) :
    startBrk + total live + 8 ≤ s.brk := by
  obtain ⟨hstart, m, ⟨e, bs, he, ht, hperm⟩, hm⟩ := h.tracks
  have hlive : total (live.map (payload blocks)) = total live := by
    rw [total, List.map_map]
    rfl
  have hmatch := total_le_of_matching hm
  have hallocated := total_allocated_le ht
  have hsum : total (allocated s.startBrk bs) = total m := (hperm.map Prod.snd).sum_eq
  have hbrk := he.brk
  have hge := he.ge
  omega

/-- The bytes of a block, and of the others. -/
theorem Listed.total_eq {x : ℕ × ℕ} (h : Listed live blocks blockSizes) (hx : x ∈ live) :
    total live = x.2 + total (live.filter (·.1 ≠ x.1)) := by
  have hperm := ((perm_filter h.keys hx).map Prod.snd).sum_eq
  rwa [List.map_cons, List.sum_cons] at hperm

/-! ## The statistics -/

/-- Between the requests, the variables are the size of the live blocks and its maximum so far. -/
structure Counted (startBrk numIds high : ℕ) (live : List (ℕ × ℕ)) (u : Usage) : Prop where
  owns : Owns startBrk live u.heap u.blocks u.blockSizes
  length : u.blocks.length = numIds
  totalSize : u.totalSize = total live
  maxTotalSize : u.maxTotalSize = high
  total_le : total live ≤ high
  high_le : high ≤ u.heap.heapsize

theorem Owns.le_heapsize (h : Owns startBrk live s blocks blockSizes) :
    total live ≤ s.heapsize := by
  have hle := h.total_le
  rw [Heap.heapsize, h.tracks.1]
  omega

/-- The end of the cases `ALLOC` and `REALLOC`. -/
theorem Counted.remember {high p : ℕ} {rest : List (ℕ × ℕ)} (change : ℤ)
    (howns : Owns startBrk ((op.id, op.bytes) :: rest) u.heap (u.blocks.set op.id p)
      (u.blockSizes.set op.id op.bytes))
    (hlength : u.blocks.length = numIds) (hlt : op.id < numIds) (hindex : 0 ≤ op.index)
    (hpos : 1 ≤ op.size) (hsize : op.size < 2 ^ 31)
    (htotal : u.totalSize + change = total ((op.id, op.bytes) :: rest))
    (hmax : u.maxTotalSize = high) (hhigh : high ≤ u.heap.heapsize) :
    ∃ u', u.remember op p change = .ok u' ∧ u'.heap = u.heap ∧
      Counted startBrk numIds (max high (total ((op.id, op.bytes) :: rest)))
        ((op.id, op.bytes) :: rest) u' := by
  have hwrite := write_ok (hlength ▸ hlt : op.id < u.blocks.length) p
  have hlt' : op.id < u.blockSizes.length := by
    have hlengths := howns.lengths
    rw [List.length_set, List.length_set] at hlengths
    omega
  have hwrite' := write_ok hlt' op.bytes
  rw [← index_eq hindex] at hwrite hwrite'
  -- the maximum is brought up to date
  have hmax' : (if u.totalSize + change > u.maxTotalSize then u.totalSize + change
      else u.maxTotalSize) = ((max high (total ((op.id, op.bytes) :: rest)) : ℕ) : ℤ) := by
    rw [htotal, hmax]
    split_ifs <;> omega
  refine ⟨{ u with
      blocks := u.blocks.set op.id p
      blockSizes := u.blockSizes.set op.id op.bytes
      totalSize := u.totalSize + change
      maxTotalSize := (max high (total ((op.id, op.bytes) :: rest)) : ℕ) }, ?_, rfl, howns,
    by rw [List.length_set, hlength], htotal, rfl, le_max_right _ _,
    max_le hhigh howns.le_heapsize⟩
  rw [Usage.remember, hwrite, ok_bind, toSize_eq hpos hsize, hwrite', ok_bind]
  dsimp only
  rw [hmax']

/-- The heap does not shrink, so that the maximum still fits. -/
theorem Counted.high_le_of_grows {high n : ℕ} (h : Counted startBrk numIds high live u)
    (hgrows : Grows n u.heap s) (hstart : s.startBrk = startBrk) : high ≤ s.heapsize := by
  have hle := hgrows.le
  have hhigh := h.high_le
  rw [Heap.heapsize, h.owns.tracks.1] at hhigh
  rw [Heap.heapsize, hstart]
  omega

/-- The arrays can be read at the identifier of a request. -/
theorem Counted.read_eq {high : ℕ} (h : Counted startBrk numIds high live u)
    (hindex : 0 ≤ op.index) (hlt : op.id < numIds) :
    read u.blocks op.index = .ok (u.blocks.getD op.id 0) ∧
      read u.blockSizes op.index = .ok (u.blockSizes.getD op.id 0) := by
  rw [index_eq hindex]
  exact ⟨read_ok (h.length ▸ hlt) 0, read_ok (h.owns.lengths.trans h.length ▸ hlt) 0⟩

/-- The request is made; `live` are the blocks afterwards, and the maximum is brought up to
date. -/
def Usage.Serves (startBrk numIds high : ℕ) (u : Usage) (op : TraceOp) (live : List (ℕ × ℕ)) :
    Prop :=
  ∃ u', u.evalOp mm op = .ok u' ∧ Counted startBrk numIds (max high (total live)) live u' ∧
    Grows op.cost u.heap u'.heap

theorem Counted.alloc {high : ℕ} (h : Counted startBrk numIds high live u)
    (htype : op.type = .alloc) (hop : op.Allowed numIds live)
    (hroom : u.heap.brk + op.cost ≤ u.heap.maxAddr) :
    u.Serves startBrk numIds high op ((op.id, op.bytes) :: live) := by
  have hcost : op.cost = Heap.blockSize op.bytes := by rw [TraceOp.cost, htype]
  rw [TraceOp.Allowed, htype] at hop
  obtain ⟨hindex, hlt, hid, hpos, hsize⟩ := hop
  obtain ⟨hbytes, hmax, hsizeEq⟩ := bytes_bounds hpos hsize
  obtain ⟨p, s', hrun, howns, hgrows, -⟩ :=
    h.owns.alloc hid (h.length ▸ hlt) hbytes hmax (hcost ▸ hroom)
  have htotal : u.totalSize + op.size = total ((op.id, op.bytes) :: live) := by
    rw [h.totalSize, hsizeEq, total, total, List.map_cons, List.sum_cons]
    push_cast
    exact add_comm _ _
  obtain ⟨u', hremember, hheap, hcounted⟩ := Counted.remember (u := { u with heap := s' }) op.size
    howns h.length hlt hindex hpos hsize htotal h.maxTotalSize
    (h.high_le_of_grows hgrows howns.tracks.1)
  have hmalloc : mm.malloc u.heap (toSize op.size) = .ok (some p, s') := by
    rw [toSize_eq hpos hsize]
    exact hrun
  refine ⟨u', ?_, hcounted, hcost ▸ hheap ▸ hgrows⟩
  unfold Usage.evalOp
  rw [htype]
  dsimp only
  rw [hmalloc, ok_bind]
  exact hremember

theorem Counted.realloc {high : ℕ} (h : Counted startBrk numIds high live u)
    (htype : op.type = .realloc) (hop : op.Allowed numIds live)
    (hroom : u.heap.brk + op.cost ≤ u.heap.maxAddr) :
    u.Serves startBrk numIds high op ((op.id, op.bytes) :: live.filter (·.1 ≠ op.id)) := by
  have hcost : op.cost = Heap.blockSize op.bytes := by rw [TraceOp.cost, htype]
  rw [TraceOp.Allowed, htype] at hop
  obtain ⟨hindex, hlt, hid, hpos, hsize⟩ := hop
  obtain ⟨hread, hread'⟩ := h.read_eq hindex hlt
  obtain ⟨hbytes, hmax, hsizeEq⟩ := bytes_bounds hpos hsize
  obtain ⟨⟨id, n⟩, hx, hxid⟩ := List.mem_map.1 hid
  obtain rfl : id = op.id := hxid
  obtain ⟨hn, hnmax⟩ := h.owns.bounds _ hx
  obtain ⟨q, s', hrun, howns, hgrows, -⟩ := h.owns.realloc hx hbytes hmax (hcost ▸ hroom)
  rw [h.owns.sizes _ hx] at hread'
  have hnarrow : Signed.narrow 32 n = n := Signed.narrow_natCast (by omega)
  -- the old size is subtracted from the total, and the new one added
  have htotal : u.totalSize + (op.size - n) =
      total ((op.id, op.bytes) :: live.filter (·.1 ≠ op.id)) := by
    have htotal := h.owns.total_eq hx
    rw [h.totalSize, htotal, hsizeEq, total, total, List.map_cons, List.sum_cons]
    push_cast
    ring
  obtain ⟨u', hremember, hheap, hcounted⟩ := Counted.remember (u := { u with heap := s' })
    (op.size - n) howns h.length hlt hindex hpos hsize htotal h.maxTotalSize
    (h.high_le_of_grows hgrows howns.tracks.1)
  have hrealloc : mm.realloc u.heap (u.blocks.getD op.id 0) (toSize op.size) =
      .ok (some q, s') := by
    rw [toSize_eq hpos hsize]
    exact hrun
  refine ⟨u', ?_, hcounted, hcost ▸ hheap ▸ hgrows⟩
  unfold Usage.evalOp
  rw [htype]
  dsimp only
  rw [hread', ok_bind, hread, ok_bind, hrealloc, ok_bind, hnarrow]
  exact hremember

theorem Counted.free {high : ℕ} (h : Counted startBrk numIds high live u)
    (htype : op.type = .free) (hop : op.Allowed numIds live) :
    u.Serves startBrk numIds high op (live.filter (·.1 ≠ op.id)) := by
  rw [TraceOp.Allowed, htype] at hop
  obtain ⟨hindex, hlt, hid⟩ := hop
  obtain ⟨hread, hread'⟩ := h.read_eq hindex hlt
  obtain ⟨⟨id, n⟩, hx, hxid⟩ := List.mem_map.1 hid
  obtain rfl : id = op.id := hxid
  obtain ⟨hn, hnmax⟩ := h.owns.bounds _ hx
  obtain ⟨s', hrun, howns, hgrows, -⟩ := h.owns.free hx
  rw [h.owns.sizes _ hx] at hread'
  have hnarrow : Signed.narrow 32 n = n := Signed.narrow_natCast (by omega)
  have htotal : total live = n + total (live.filter (·.1 ≠ op.id)) := h.owns.total_eq hx
  have hle := h.total_le
  have hfree : mm.free u.heap (u.blocks.getD op.id 0) = .ok s' := hrun
  have hcost : op.cost = 0 := by rw [TraceOp.cost, htype]
  -- the total gets smaller, so that the maximum stays
  refine ⟨{ u with heap := s', totalSize := u.totalSize - n }, ?_, ⟨howns, h.length, ?_, ?_,
    le_max_right _ _, max_le (h.high_le_of_grows hgrows howns.tracks.1) howns.le_heapsize⟩,
    hcost ▸ hgrows⟩
  · unfold Usage.evalOp
    rw [htype]
    dsimp only
    rw [hread', ok_bind, hread, ok_bind, hfree, ok_bind, hnarrow]
  · show u.totalSize - n = _
    rw [h.totalSize, htotal]
    push_cast
    exact add_sub_cancel_left _ _
  · show u.maxTotalSize = ((max high (total (live.filter (·.1 ≠ op.id))) : ℕ) : ℤ)
    rw [h.maxTotalSize, max_eq_left (by omega)]

/-- One request: the maximum is brought up to date. -/
theorem Counted.evalOp {high : ℕ} (h : Counted startBrk numIds high live u)
    (hop : op.Allowed numIds live) (hroom : u.heap.brk + op.cost ≤ u.heap.maxAddr) :
    u.Serves startBrk numIds high op (op.after live) := by
  rw [TraceOp.after]
  cases htype : op.type with
  | alloc => exact h.alloc htype hop hroom
  | realloc => exact h.realloc htype hop hroom
  | free => exact h.free htype hop

theorem total_le_highWater (live : List (ℕ × ℕ)) (ops : List TraceOp) :
    total live ≤ highWater live ops := by
  cases ops with
  | nil => exact le_rfl
  | cons op ops => exact le_max_left _ _

theorem Counted.evalOps {high : ℕ} (h : Counted startBrk numIds high live u)
    (hops : WellFormed numIds live ops) (hroom : u.heap.brk + cost ops ≤ u.heap.maxAddr) :
    ∃ u' live', u.evalOps mm ops = .ok u' ∧
      Counted startBrk numIds (max high (highWater live ops)) live' u' := by
  induction ops generalizing live u high with
  | nil => exact ⟨u, live, rfl, by rwa [highWater, max_eq_left h.total_le]⟩
  | cons op ops ih =>
    obtain ⟨hop, hops⟩ := hops
    rw [cost, List.map_cons, List.sum_cons] at hroom
    obtain ⟨u₁, hrun, h₁, hgrows⟩ := h.evalOp hop (by omega)
    have hbrk := hgrows.le_add
    obtain ⟨u', live', hrun', h'⟩ := ih h₁ hops (by
      rw [hgrows.max, cost]
      omega)
    refine ⟨u', live', by rw [Usage.evalOps, hrun, ok_bind, hrun'], ?_⟩
    -- the maximum over the states so far, and over those that follow
    have hafter := total_le_highWater (op.after live) ops
    have hle := h.total_le
    have hmax : max (max high (total (op.after live))) (highWater (op.after live) ops) =
        max high (highWater live (op :: ops)) := by
      rw [highWater]
      omega
    rwa [hmax] at h'

/-- On a trace whose requests make sense, and fit in the storage, `eval_mm_util` divides the largest
number of bytes that are live at one time by the size of the heap, which is at least as large. -/
theorem evalMmUtil_eq (startBrk : ℕ) (hbase : HeapBase startBrk) (s : Heap)
    (hstorage : InStorageOf startBrk s) (blocks blockSizes : List ℕ)
    (hlengths : blockSizes.length = blocks.length) (ops : List TraceOp)
    (hops : WellFormed blocks.length [] ops) (hroom : 8 + cost ops ≤ maxHeap) :
    ∃ n, evalMmUtil mm s blocks blockSizes ops = .ok ((highWater [] ops : ℕ), n) ∧
      highWater [] ops ≤ n := by
  obtain ⟨s', hinit, howns, hbrk, hmax⟩ := owns_reset hbase hstorage hlengths
  have hcounted : Counted startBrk blocks.length 0 [] ⟨s', blocks, blockSizes, 0, 0⟩ :=
    ⟨howns, rfl, rfl, rfl, le_rfl, Nat.zero_le _⟩
  obtain ⟨u', live', hrun, h'⟩ := hcounted.evalOps hops (by
    show s'.brk + cost ops ≤ s'.maxAddr
    omega)
  rw [Nat.zero_max] at h'
  refine ⟨u'.heap.heapsize, ?_, h'.high_le⟩
  rw [evalMmUtil, hinit, ok_bind]
  show (do
    let u ← Usage.evalOps mm ⟨s', blocks, blockSizes, 0, 0⟩ ops
    .ok (u.maxTotalSize, u.heap.heapsize) : Except Fault (ℤ × ℕ)) = _
  rw [hrun, ok_bind, h'.maxTotalSize]

/-- A block that is reallocated, and one that is freed. -/
theorem evalMmUtil_eq_pair :
    ∃ n, evalMmUtil mm (memInit 4096 fun _ => 0) [0, 0] [0, 0]
        [⟨.alloc, 0, 20⟩, ⟨.alloc, 1, 100⟩, ⟨.realloc, 0, 50⟩, ⟨.free, 1, 0⟩] = .ok (150, n) ∧
      150 ≤ n :=
  evalMmUtil_eq 4096 heapBase_4096 _ ⟨rfl, rfl⟩ [0, 0] [0, 0] rfl
    [⟨.alloc, 0, 20⟩, ⟨.alloc, 1, 100⟩, ⟨.realloc, 0, 50⟩, ⟨.free, 1, 0⟩] (by decide) (by decide)

end CppLearn.MallocLab

import CppLearn.MallocLab.Requests

/-!
# What the driver finds in the allocator

The checks of the driver succeed for every trace whose requests make sense, with one exception. The
bytes of a payload are compared as values of the type `char`, which is signed, with numbers from 0
to 255. So the content of a block whose identifier has a low byte of at least 128 never seems to be
preserved, and a trace that reallocates such a block is rejected.

`TraceOp.Rejected` is a request with which the trace is rejected, and `Checked` is what holds
between the requests. One request is `Checked.evalOp`, and the verdict on a trace `evalMmValid_eq`.
-/

namespace CppLearn.MallocLab

open BoundedLoop CheckedVector Unsigned

variable {s s' : Heap} {p q size startBrk tracenum opnum : ℕ} {live l : List (ℕ × ℕ)}
  {d : Driver} {op : TraceOp} {ops : List TraceOp} {ranges : List Range}

/-! ## Payloads -/

/-- The heap is a region of the storage. -/
theorem Tracks.region (h : Tracks startBrk s l) : Region s := by
  obtain ⟨-, m, ⟨e, bs, he, -, -⟩, -⟩ := h
  exact he.region

/-- The owner of a block fills its payload. -/
theorem Tracks.fill {x : ℕ × ℕ} (h : Tracks startBrk s l) (hx : x ∈ l) (byte : UInt8) :
    Tracks startBrk { s with memory := s.memory.write x.1 (fun _ => byte) x.2 } l := by
  obtain ⟨l', p, hs, hp, ⟨haddr, hle⟩, hm⟩ := h.payload hx
  have hvars : SameVars s { s with memory := s.memory.write x.1 (fun _ => byte) x.2 } := rfl
  have hout : ∀ a, a < p.1 ∨ p.1 + p.2 ≤ a →
      s.memory.write x.1 (fun _ => byte) x.2 a = s.memory a :=
    fun a ha => Memory.write_of_not_mem (by omega)
  have hs' := (hs.write hp hvars hout).1
  refine ⟨h.1, l', hs', ?_⟩
  have hcons : Matching Fits (x :: l.erase x) (p :: l'.erase p) := hm.cons ⟨haddr, hle⟩
  exact (hcons.perm_left (List.perm_cons_erase hx)).perm_right (List.perm_cons_erase hp).symm

/-- The driver fills a payload. -/
theorem memset_eq {x : ℕ × ℕ} (h : Tracks startBrk s l) (hx : x ∈ l) (byte : UInt8) :
    s.memset x.1 byte x.2 = .ok { s with memory := s.memory.write x.1 (fun _ => byte) x.2 } := by
  have hbounds := h.bounds hx
  exact if_pos (.inr ⟨by omega, by omega⟩)

/-! ## The list of payloads -/

/-- The range of a payload. -/
def range (x : ℕ × ℕ) : Range := ⟨x.1, x.1 + x.2 - 1⟩

/-- A new payload passes the tests. -/
theorem addRange_ok {x : ℕ × ℕ} {n : ℤ} (h : Tracks startBrk d.heap (x :: l)) (hn : n = x.2)
    (hpos : 1 ≤ x.2) (hsize : x.2 < 2 ^ 31) (hl : ∀ y ∈ l, 1 ≤ y.2)
    (hranges : d.ranges.Perm (l.map range)) :
    d.addRange x.1 n tracenum opnum = .ok (true, { d with ranges := range x :: d.ranges }) := by
  have hbounds := h.bounds (List.mem_cons_self ..)
  have hmax := h.region.maxAddr_lt
  have hbase := h.region.pos
  have hbytes : toSize n = x.2 := by
    rw [hn, toSize, Int.emod_eq_of_lt (by omega) (by omega), Int.toNat_natCast]
  have hhi : sub 32 (add 32 x.1 x.2) 1 = x.1 + x.2 - 1 := by
    rw [add_eq (by omega), sub_eq (by omega) (by omega)]
  have hheapHi : d.heap.heapHi = d.heap.brk - 1 := sub_eq (by omega) (by omega)
  -- the new payload is disjoint from the live ones
  have hmeets : d.ranges.find? (Range.meets ⟨x.1, x.1 + x.2 - 1⟩) = none := by
    refine List.find?_eq_none.2 fun r hr => ?_
    obtain ⟨y, hy, rfl⟩ := List.mem_map.1 (hranges.mem_iff.1 hr)
    have hdisjoint := (List.pairwise_cons.1 h.disjoint).1 y hy
    have hypos := hl y hy
    refine fun hmeets => ?_
    have hends := of_decide_eq_true hmeets
    simp only [range] at hends
    omega
  unfold Driver.addRange
  simp only [hbytes, hhi, hheapHi, hmeets]
  rw [if_neg (by omega), if_neg (by unfold alignment; omega), if_neg (by omega)]
  rfl

/-- The first range with this address is removed. -/
theorem removeRange_eq (lo : ℕ) (ranges : List Range) :
    removeRange lo ranges = ranges.eraseP (·.lo = lo) := by
  induction ranges with
  | nil => rfl
  | cons r ranges ih =>
    rw [removeRange, List.eraseP_cons, ih]
    by_cases hr : r.lo = lo <;> simp [hr]

/-- The range of a payload is found by its address. -/
theorem removeRange_perm {x : ℕ × ℕ} (h : Tracks startBrk s (x :: l)) (hpos : 1 ≤ x.2)
    (hl : ∀ y ∈ l, 1 ≤ y.2) (hranges : ranges.Perm ((x :: l).map range)) :
    (removeRange x.1 ranges).Perm (l.map range) := by
  have hne : ∀ r ∈ l.map range, ¬r.lo = x.1 := by
    intro r hr
    obtain ⟨y, hy, rfl⟩ := List.mem_map.1 hr
    have hdisjoint := (List.pairwise_cons.1 h.disjoint).1 y hy
    have hypos := hl y hy
    simp only [range]
    omega
  have hpairwise : ((x :: l).map range).Pairwise
      fun a b => decide (a.lo = x.1) = true → decide (b.lo = x.1) = true → False :=
    List.pairwise_cons.2 ⟨fun b hb _ hlo => hne b hb (of_decide_eq_true hlo),
      List.pairwise_iff_forall_sublist.2 fun {a b} hab hlo _ =>
        hne a (hab.subset List.mem_cons_self) (of_decide_eq_true hlo)⟩
  have hperm := List.Perm.eraseP (fun r : Range => decide (r.lo = x.1)) hpairwise hranges.symm
  rw [List.map_cons, List.eraseP_cons_of_pos (by simp [range])] at hperm
  rw [removeRange_eq]
  exact hperm.symm

/-! ## The content of the payloads -/

/-- The byte that a payload is filled with. -/
def fillByte (id : ℕ) : UInt8 := UInt8.ofNat (id % 256)

/-- A check of all bytes that has the same result for each of them. -/
theorem allM_const {f : ℕ → Except Fault Bool} {b : Bool} {n : ℕ} (hn : 1 ≤ n)
    (hf : ∀ j < n, f j = .ok b) : (List.range n).allM f = .ok b := by
  have hall : ∀ js : List ℕ, (∀ j ∈ js, f j = .ok b) → js ≠ [] → js.allM f = .ok b := by
    intro js
    induction js with
    | nil => exact fun _ hne => absurd rfl hne
    | cons j js ih =>
      intro hjs _
      rw [List.allM_cons, hjs j List.mem_cons_self, ok_bind]
      cases b with
      | false => rfl
      | true =>
        cases js with
        | nil => rfl
        | cons k js => exact ih (fun i hi => hjs i (List.mem_cons_of_mem _ hi)) nofun
  refine hall _ (fun j hj => hf j (List.mem_range.1 hj)) ?_
  rw [Ne, List.range_eq_nil]
  omega

/-- A byte is expected as a number that is not negative. -/
theorem getChar_eq {id : ℕ} (hge : s.startBrk ≤ p) (hlt : p < s.maxAddr)
    (hbyte : s.memory p = fillByte id) :
    (do .ok (decide ((← s.getChar p) = ((id % 256 : ℕ) : ℤ))) : Except Fault Bool) =
      .ok (decide (id % 256 < 128)) := by
  have hnat : (fillByte id).toNat = id % 256 := by
    rw [fillByte, UInt8.toNat_ofNat']
    exact Nat.mod_mod _ _
  have hchar : Signed.narrow 8 ((id % 256 : ℕ) : ℤ) = ((id % 256 : ℕ) : ℤ) ↔ id % 256 < 128 := by
    rw [Signed.narrow_eq_iff, Signed.Fits]
    omega
  rw [Heap.getChar, if_pos ⟨hge, hlt⟩, hbyte, hnat, ok_bind]
  exact congrArg Except.ok (decide_eq_decide.2 hchar)

/-- The check of a payload compares a byte with an `int`, so that it fails for large bytes. -/
theorem preserved_eq {id n : ℕ} (hn : 1 ≤ n) (hge : s.startBrk ≤ p) (hle : p + n ≤ s.maxAddr)
    (hbytes : ∀ i < n, s.memory (p + i) = fillByte id) :
    s.preserved p ((id % 256 : ℕ) : ℤ) n = .ok (decide (id % 256 < 128)) := by
  rw [Heap.preserved, Int.toNat_natCast]
  exact allM_const hn fun j hj => getChar_eq (by omega) (by omega) (hbytes j hj)

/-! ## One request -/

/-- The request reallocates a block whose identifier has a low byte that is not a value of
`char`. -/
def TraceOp.Rejected (op : TraceOp) : Prop := op.type = .realloc ∧ 128 ≤ op.id % 256

instance : DecidablePred TraceOp.Rejected := fun _ => inferInstanceAs (Decidable (_ ∧ _))

/-- Between the requests, the list of payloads is that of the live blocks, and the payloads are
filled. -/
structure Checked (startBrk numIds : ℕ) (live : List (ℕ × ℕ)) (d : Driver) : Prop where
  owns : Owns startBrk live d.heap d.blocks d.blockSizes
  length : d.blocks.length = numIds
  ranges : d.ranges.Perm ((live.map (payload d.blocks)).map range)
  filled : ∀ x ∈ live, ∀ i < x.2, d.heap.memory ((payload d.blocks x).1 + i) = fillByte x.1

variable {numIds : ℕ}

/-- The byte that belongs to an identifier. -/
theorem lowByte_eq (hindex : 0 ≤ op.index) : lowByte op.index = ((op.id % 256 : ℕ) : ℤ) := by
  rw [lowByte, index_eq hindex]
  rfl

/-- The end of the cases `ALLOC` and `REALLOC`: a new block is filled and remembered. -/
theorem Checked.remember {rest : List (ℕ × ℕ)}
    (howns : Owns startBrk ((op.id, op.bytes) :: rest) d.heap (d.blocks.set op.id p)
      (d.blockSizes.set op.id op.bytes))
    (hlength : d.blocks.length = numIds) (hlt : op.id < numIds) (hindex : 0 ≤ op.index)
    (hpos : 1 ≤ op.size) (hsize : op.size < 2 ^ 31)
    (hranges : d.ranges.Perm (((p, op.bytes) :: rest.map (payload d.blocks)).map range))
    (hfilled : ∀ x ∈ rest, ∀ i < x.2,
      d.heap.memory ((payload d.blocks x).1 + i) = fillByte x.1) :
    ∃ d', d.remember op p = .ok (true, d') ∧
      Checked startBrk numIds ((op.id, op.bytes) :: rest) d' ∧ d'.heap.brk = d.heap.brk ∧
      d'.heap.maxAddr = d.heap.maxAddr ∧ d'.errors = d.errors := by
  -- the other live blocks have other identifiers
  have hid : op.id ∉ rest.map Prod.fst := (List.nodup_cons.1 howns.keys).1
  have hself := payload_set_self (hlength ▸ hlt) p op.bytes
  have htracks := howns.tracks
  rw [List.map_cons, hself, map_payload_set hid] at htracks
  have hmem : (p, op.bytes) ∈ (p, op.bytes) :: rest.map (payload d.blocks) := List.mem_cons_self
  have hmemset := memset_eq htracks hmem (fillByte op.id)
  have hfill := htracks.fill hmem (fillByte op.id)
  have hwrite := write_ok (hlength ▸ hlt : op.id < d.blocks.length) p
  have hlt' : op.id < d.blockSizes.length := by
    have hlengths := howns.lengths
    rw [List.length_set, List.length_set] at hlengths
    omega
  have hwrite' := write_ok hlt' op.bytes
  rw [← index_eq hindex] at hwrite hwrite'
  refine ⟨{ d with
      heap := { d.heap with memory := d.heap.memory.write p (fun _ => fillByte op.id) op.bytes }
      blocks := d.blocks.set op.id p
      blockSizes := d.blockSizes.set op.id op.bytes }, ?_, ⟨?_, ?_, ?_, ?_⟩, rfl, rfl, rfl⟩
  · have hbyte : UInt8.ofNat (lowByte op.index).toNat = fillByte op.id := by
      rw [lowByte_eq hindex, Int.toNat_natCast]
      rfl
    rw [Driver.remember, hbyte, toSize_eq hpos hsize, hmemset, ok_bind, hwrite, ok_bind, hwrite',
      ok_bind]
  · refine ⟨howns.toListed, ?_⟩
    rw [List.map_cons, hself, map_payload_set hid]
    exact hfill
  · rw [List.length_set, hlength]
  · rw [List.map_cons (f := payload (d.blocks.set op.id p)), hself, map_payload_set hid]
    exact hranges
  · -- the new payload has been filled, and the others are as they were
    intro x hx i hi
    rcases List.mem_cons.1 hx with rfl | hx
    · show d.heap.memory.write p (fun _ => fillByte op.id) op.bytes _ = _
      rw [hself]
      exact Memory.write_of_mem hi
    · show d.heap.memory.write p (fun _ => fillByte op.id) op.bytes _ = _
      rw [payload_set_of_ne (ne_of_not_mem_keys hid hx), ← hfilled x hx i hi]
      have hdisjoint := (List.pairwise_cons.1 htracks.disjoint).1 _
        (List.mem_map_of_mem (f := payload d.blocks) hx)
      have hxbytes : (payload d.blocks x).2 = x.2 := rfl
      exact Memory.write_of_not_mem (by omega)

/-- The checks succeed, and the heap has grown by at most `n` bytes. -/
structure Continues (startBrk numIds n : ℕ) (live : List (ℕ × ℕ)) (d d' : Driver) : Prop where
  checked : Checked startBrk numIds live d'
  brk : d'.heap.brk ≤ d.heap.brk + n
  max : d'.heap.maxAddr = d.heap.maxAddr
  errors : d'.errors = d.errors

/-- Payloads are not empty. -/
theorem Owns.one_le {blocks blockSizes : List ℕ} (h : Owns startBrk live s blocks blockSizes)
    {y : ℕ × ℕ} (hy : y ∈ live.map (payload blocks)) : 1 ≤ y.2 := by
  obtain ⟨x, hx, rfl⟩ := List.mem_map.1 hy
  exact (h.bounds x hx).1

/-- The driver accepts a correct allocation, -/
theorem Checked.alloc (h : Checked startBrk numIds live d) (htype : op.type = .alloc)
    (hop : op.Allowed numIds live) (hroom : d.heap.brk + op.cost ≤ d.heap.maxAddr) :
    ∃ d', d.evalOp mm tracenum opnum op = .ok (true, d') ∧
      Continues startBrk numIds op.cost (op.after live) d d' := by
  rw [TraceOp.Allowed, htype] at hop
  obtain ⟨hindex, hlt, hid, hpos, hsize⟩ := hop
  rw [TraceOp.cost, htype] at hroom ⊢
  obtain ⟨hbytes, hmax, hsizeEq⟩ := bytes_bounds hpos hsize
  obtain ⟨p, s', hrun, howns, hgrows, hkeep⟩ :=
    h.owns.alloc hid (h.length ▸ hlt) hbytes hmax hroom
  have htracks := howns.tracks
  rw [List.map_cons, payload_set_self (h.length ▸ hlt), map_payload_set hid] at htracks
  -- the tests of `add_range` succeed
  have hadd : ({ d with heap := s' } : Driver).addRange p op.size tracenum opnum =
      .ok (true, { d with heap := s', ranges := range (p, op.bytes) :: d.ranges }) :=
    addRange_ok (d := { d with heap := s' }) (x := (p, op.bytes)) htracks hsizeEq hbytes hmax
      (fun _ => h.owns.one_le) h.ranges
  obtain ⟨d', hremember, hchecked, hbrk, hmax', herrors⟩ := Checked.remember
    (d := { d with heap := s', ranges := range (p, op.bytes) :: d.ranges }) howns h.length hlt
    hindex hpos hsize (h.ranges.cons _) fun x hx i hi =>
      (hkeep x hx i hi).trans (h.filled x hx i hi)
  have hmalloc : mm.malloc d.heap (toSize op.size) = .ok (some p, s') := by
    rw [toSize_eq hpos hsize]
    exact hrun
  refine ⟨d', ?_, ?_, ?_, hmax'.trans hgrows.max, herrors⟩
  · rw [Driver.evalOp, htype]
    simp only [hmalloc, ok_bind, hadd, if_true, hremember]
  · rwa [TraceOp.after, htype]
  · rw [hbrk]
    exact hgrows.le_add

/-- and the release of a block; -/
theorem Checked.free (h : Checked startBrk numIds live d) (htype : op.type = .free)
    (hop : op.Allowed numIds live) :
    ∃ d', d.evalOp mm tracenum opnum op = .ok (true, d') ∧
      Continues startBrk numIds op.cost (op.after live) d d' := by
  rw [TraceOp.Allowed, htype] at hop
  obtain ⟨hindex, hlt, hid⟩ := hop
  obtain ⟨⟨id, n⟩, hx, hxid⟩ := List.mem_map.1 hid
  obtain rfl : id = op.id := hxid
  obtain ⟨s', hrun, howns, hgrows, hkeep⟩ := h.owns.free hx
  have hread := read_ok (h.length ▸ hlt : op.id < d.blocks.length) 0
  rw [← index_eq hindex] at hread
  -- the block, and the others
  have hperm := (perm_filter h.owns.keys hx).map (payload d.blocks)
  have hranges := removeRange_perm (h.owns.tracks.perm hperm.symm) (h.owns.bounds _ hx).1
    (fun y hy => h.owns.one_le (hperm.mem_iff.2 (List.mem_cons_of_mem _ hy)))
    (h.ranges.trans (hperm.map range))
  refine ⟨{ d with heap := s', ranges := removeRange (d.blocks.getD op.id 0) d.ranges }, ?_, ?_⟩
  · have hfree : mm.free d.heap (d.blocks.getD op.id 0) = .ok s' := hrun
    rw [Driver.evalOp, htype]
    simp only [hread, ok_bind, hfree]
  · rw [TraceOp.after, TraceOp.cost, htype]
    refine ⟨⟨howns, h.length, hranges, fun x hx i hi => ?_⟩, hgrows.le_add, hgrows.max, rfl⟩
    exact (hkeep x hx i hi).trans (h.filled x (List.mem_of_mem_filter hx) i hi)

/-- `oldsize` in the case `REALLOC`. -/
theorem oldsize_eq {n : ℕ} (hn : n < 2 ^ 31) (hsize : op.size = op.bytes) :
    (if op.size < Signed.narrow 32 n then op.size else Signed.narrow 32 n) =
      ((min n op.bytes : ℕ) : ℤ) := by
  rw [Signed.narrow_natCast (by omega), hsize]
  split_ifs <;> omega

/-- The case `REALLOC`, up to the test of the content. -/
theorem evalOp_realloc {pkg : Package} {d₁ : Driver} {n : ℕ} (htype : op.type = .realloc)
    (hread : read d.blocks op.index = .ok p)
    (hrun : pkg.realloc d.heap p (toSize op.size) = .ok (some q, s'))
    (hadd : ({ d with heap := s', ranges := removeRange p d.ranges } : Driver).addRange q op.size
      tracenum opnum = .ok (true, d₁))
    (hread' : read d₁.blockSizes op.index = .ok n) :
    d.evalOp pkg tracenum opnum op = (do
      if ← d₁.heap.preserved q (lowByte op.index)
          (if op.size < Signed.narrow 32 n then op.size else Signed.narrow 32 n) then
        d₁.remember op q
      else .ok (false, d₁.mallocError tracenum opnum .notPreserved)) := by
  rw [Driver.evalOp, htype]
  dsimp only
  rw [hread, ok_bind, hrun, ok_bind]
  dsimp only
  rw [hadd, ok_bind]
  dsimp only
  rw [if_pos rfl, hread', ok_bind]

/-- The block is reallocated, and its content is preserved. But this is seen only if the low byte of
the identifier is a value of `char`. -/
theorem Checked.realloc (h : Checked startBrk numIds live d) (htype : op.type = .realloc)
    (hop : op.Allowed numIds live) (hroom : d.heap.brk + op.cost ≤ d.heap.maxAddr) :
    ∃ d', d.evalOp mm tracenum opnum op = .ok (decide (op.id % 256 < 128), d') ∧
      (op.id % 256 < 128 → Continues startBrk numIds op.cost (op.after live) d d') ∧
      (¬op.id % 256 < 128 →
        d'.errors = d.errors ++ [⟨tracenum, opnum + 5, .notPreserved⟩]) := by
  rw [TraceOp.Allowed, htype] at hop
  obtain ⟨hindex, hlt, hid, hpos, hsize⟩ := hop
  obtain ⟨⟨id, n⟩, hx, hxid⟩ := List.mem_map.1 hid
  obtain rfl : id = op.id := hxid
  rw [TraceOp.cost, htype] at hroom
  obtain ⟨hbytes, hmax, hsizeEq⟩ := bytes_bounds hpos hsize
  obtain ⟨hn, hnmax⟩ := h.owns.bounds _ hx
  obtain ⟨q, s', hrun, howns, hgrows, hcopy, hkeep⟩ := h.owns.realloc hx hbytes hmax hroom
  have hread := read_ok (h.length ▸ hlt : op.id < d.blocks.length) 0
  have hread' := read_ok (h.owns.lengths.trans h.length ▸ hlt : op.id < d.blockSizes.length) 0
  rw [← index_eq hindex] at hread hread'
  rw [h.owns.sizes _ hx] at hread'
  have htracks := howns.tracks
  rw [List.map_cons, payload_set_self (h.length ▸ hlt), map_payload_set (not_mem_filter _ _)]
    at htracks
  -- the list of payloads without the old block
  have hperm := (perm_filter h.owns.keys hx).map (payload d.blocks)
  have hone : ∀ y ∈ (live.filter (·.1 ≠ op.id)).map (payload d.blocks), 1 ≤ y.2 := fun y hy =>
    h.owns.one_le (hperm.mem_iff.2 (List.mem_cons_of_mem _ hy))
  have hranges := removeRange_perm (h.owns.tracks.perm hperm.symm) hn hone
    (h.ranges.trans (hperm.map range))
  let d₁ : Driver := { d with
    heap := s'
    ranges := range (q, op.bytes) :: removeRange (d.blocks.getD op.id 0) d.ranges }
  have hadd : ({ d with heap := s', ranges := removeRange (d.blocks.getD op.id 0) d.ranges } :
      Driver).addRange q op.size tracenum opnum = .ok (true, d₁) :=
    addRange_ok (d := { d with heap := s', ranges := removeRange (d.blocks.getD op.id 0) d.ranges })
      (x := (q, op.bytes)) htracks hsizeEq hbytes hmax hone hranges
  have hpreserved : s'.preserved q (lowByte op.index)
      (if op.size < Signed.narrow 32 n then op.size else Signed.narrow 32 n) =
        .ok (decide (op.id % 256 < 128)) := by
    have hbounds := htracks.bounds List.mem_cons_self
    rw [oldsize_eq hnmax hsizeEq, lowByte_eq hindex]
    refine preserved_eq (by omega) (by omega) (by omega) fun i hi => ?_
    exact (hcopy i hi).trans (h.filled _ hx i (by omega))
  obtain ⟨d', hremember, hchecked, hbrk, hmax', herrors⟩ := Checked.remember (d := d₁) howns
    h.length hlt hindex hpos hsize (hranges.cons _) fun x hx i hi =>
      (hkeep x hx i hi).trans (h.filled x (List.mem_of_mem_filter hx) i hi)
  have hrealloc : mm.realloc d.heap (d.blocks.getD op.id 0) (toSize op.size) =
      .ok (some q, s') := by
    rw [toSize_eq hpos hsize]
    exact hrun
  by_cases hlow : op.id % 256 < 128
  · refine ⟨d', ?_, fun _ => ?_, fun hnot => absurd hlow hnot⟩
    · rw [evalOp_realloc htype hread hrealloc hadd hread', hpreserved, ok_bind, decide_eq_true hlow,
        if_pos rfl, hremember]
    · rw [TraceOp.after, TraceOp.cost, htype]
      exact ⟨hchecked, hbrk.trans_le hgrows.le_add, hmax'.trans hgrows.max, herrors⟩
  · refine ⟨d₁.mallocError tracenum opnum .notPreserved, ?_, fun hlt => absurd hlt hlow,
      fun _ => rfl⟩
    rw [evalOp_realloc htype hread hrealloc hadd hread', hpreserved, ok_bind, decide_eq_false hlow]
    rfl

/-- A request of a trace that makes sense passes the checks, except for a request that is
rejected. -/
theorem Checked.evalOp (h : Checked startBrk numIds live d) (hop : op.Allowed numIds live)
    (hroom : d.heap.brk + op.cost ≤ d.heap.maxAddr) :
    ∃ d', d.evalOp mm tracenum opnum op = .ok (decide (¬op.Rejected), d') ∧
      (¬op.Rejected → Continues startBrk numIds op.cost (op.after live) d d') ∧
      (op.Rejected → d'.errors = d.errors ++ [⟨tracenum, opnum + 5, .notPreserved⟩]) := by
  cases htype : op.type with
  | alloc =>
    have hnot : ¬op.Rejected := fun hrej => absurd (htype.symm.trans hrej.1) nofun
    obtain ⟨d', hrun, hd'⟩ := h.alloc htype hop hroom
    exact ⟨d', by rw [hrun, decide_eq_true hnot], fun _ => hd', fun hrej => absurd hrej hnot⟩
  | realloc =>
    have hiff : op.id % 256 < 128 ↔ ¬op.Rejected := by
      rw [TraceOp.Rejected, and_iff_right htype]
      omega
    obtain ⟨d', hrun, haccept, hreject⟩ := h.realloc htype hop hroom
    rw [decide_eq_decide.2 hiff] at hrun
    exact ⟨d', hrun, fun hnot => haccept (hiff.2 hnot),
      fun hrej => hreject fun hlt => hiff.1 hlt hrej⟩
  | free =>
    have hnot : ¬op.Rejected := fun hrej => absurd (htype.symm.trans hrej.1) nofun
    obtain ⟨d', hrun, hd'⟩ := h.free htype hop
    exact ⟨d', by rw [hrun, decide_eq_true hnot], fun _ => hd', fun hrej => absurd hrej hnot⟩

/-! ## Traces -/

/-- The error that is reported for the first request that is rejected. -/
def rejection (tracenum opnum : ℕ) : List TraceOp → List MallocError
  | [] => []
  | op :: ops =>
    if op.Rejected then [⟨tracenum, opnum + 5, .notPreserved⟩]
    else rejection tracenum (opnum + 1) ops

/-- it rejects a trace exactly where the blind comparison of bytes does. -/
theorem Checked.evalOps (h : Checked startBrk numIds live d) (hops : WellFormed numIds live ops)
    (hroom : d.heap.brk + cost ops ≤ d.heap.maxAddr) :
    ∃ d', d.evalOps mm tracenum opnum ops = .ok (decide (∀ op ∈ ops, ¬op.Rejected), d') ∧
      d'.errors = d.errors ++ rejection tracenum opnum ops := by
  induction ops generalizing live d opnum with
  | nil => exact ⟨d, rfl, (List.append_nil _).symm⟩
  | cons op ops ih =>
    obtain ⟨hop, hops⟩ := hops
    rw [cost, List.map_cons, List.sum_cons] at hroom
    obtain ⟨d₁, hrun, haccept, hreject⟩ := h.evalOp hop
      (by omega)
    rw [Driver.evalOps, hrun, ok_bind, rejection]
    -- the first request that is rejected ends the trace
    by_cases hrej : op.Rejected
    · refine ⟨d₁, ?_, ?_⟩
      · have hnot : ¬∀ op' ∈ op :: ops, ¬op'.Rejected := fun hall => hall op List.mem_cons_self hrej
        rw [decide_eq_false (not_not.2 hrej), decide_eq_false hnot]
        rfl
      · rw [hreject hrej, if_pos hrej]
    · obtain ⟨hchecked, hbrk, hmax, herrors⟩ := haccept hrej
      obtain ⟨d', hrun', herrors'⟩ := ih hchecked hops (by
        rw [hmax, cost]
        omega)
      refine ⟨d', ?_, by rw [herrors', herrors, if_neg hrej]⟩
      have hall : (∀ op' ∈ op :: ops, ¬op'.Rejected) ↔ ∀ op' ∈ ops, ¬op'.Rejected := by
        rw [List.forall_mem_cons]
        exact and_iff_right hrej
      rw [decide_eq_true hrej, decide_eq_decide.2 hall]
      exact hrun'

/-- On a trace whose requests make sense, and fit in the storage, `eval_mm_valid` accepts the
allocator of `mm.c`, unless the trace reallocates a block whose identifier has a low byte of at
least 128. Then it stops at the first such request, and reports that the content was not preserved.
Earlier traces may have left anything in the storage. -/
theorem evalMmValid_eq (startBrk tracenum : ℕ) (hbase : HeapBase startBrk) (d : Driver)
    (hstorage : InStorageOf startBrk d.heap) (hlengths : d.blockSizes.length = d.blocks.length)
    (ops : List TraceOp) (hops : WellFormed d.blocks.length [] ops)
    (hroom : 8 + cost ops ≤ maxHeap) :
    ∃ d', d.evalMmValid mm tracenum ops = .ok (decide (∀ op ∈ ops, ¬op.Rejected), d') ∧
      d'.errors = d.errors ++ rejection tracenum 0 ops := by
  obtain ⟨s', hinit, howns, hbrk, hmax⟩ := owns_reset hbase hstorage hlengths
  have hchecked : Checked startBrk d.blocks.length [] { d with heap := s', ranges := [] } :=
    ⟨howns, rfl, .refl _, nofun⟩
  obtain ⟨d', hrun, herrors⟩ := hchecked.evalOps hops (by
    show s'.brk + cost ops ≤ s'.maxAddr
    omega)
  refine ⟨d', ?_, herrors⟩
  rw [Driver.evalMmValid, hinit, ok_bind]
  exact hrun

/-- A block with the identifier 130 is reallocated. -/
theorem evalMmValid_eq_rejected :
    ∃ d', (⟨memInit 4096 fun _ => 0, [], List.replicate 131 0, List.replicate 131 0, []⟩ :
        Driver).evalMmValid mm 2 [⟨.alloc, 130, 20⟩, ⟨.realloc, 130, 21⟩] = .ok (false, d') ∧
      d'.errors = [⟨2, 6, .notPreserved⟩] := by
  obtain ⟨d', hrun, herrors⟩ := evalMmValid_eq 4096 2 heapBase_4096
    ⟨memInit 4096 fun _ => 0, [], List.replicate 131 0, List.replicate 131 0, []⟩ ⟨rfl, rfl⟩ rfl
    [⟨.alloc, 130, 20⟩, ⟨.realloc, 130, 21⟩] (by rw [List.length_replicate]; decide) (by decide)
  exact ⟨d', hrun, herrors⟩

end CppLearn.MallocLab

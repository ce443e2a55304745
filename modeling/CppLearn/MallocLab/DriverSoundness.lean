import CppLearn.MallocLab.DriverChecks

/-!
# What the driver guarantees

An allocator that the driver accepts has returned aligned payloads inside the storage. For any two
payloads that are live at the same time, the ends of the newer one are not in the older one. This
does not exclude that the newer payload has the older one in its middle.

The allocator may be any that changes the size of the heap by `mem_sbrk` only
(`Package.KeepsStorage`). `Apart` is what the tests for a new payload establish (`addRange_true`),
and `Recorded` is what holds between the requests. The guarantee is `evalMmValid_sound`.
-/

namespace CppLearn.MallocLab

open BoundedLoop CheckedVector Unsigned

variable {s s' : Heap} {p q size startBrk tracenum opnum numIds : ℕ} {live l : List (ℕ × ℕ)}
  {d d' : Driver} {op : TraceOp} {ops : List TraceOp} {pkg : Package} {n : ℤ}

/-! ## Allocators -/

/-- The storage is the same, and the heap has not become smaller, and is still inside. -/
structure SameStorage (s s' : Heap) : Prop where
  start : s'.startBrk = s.startBrk
  max : s'.maxAddr = s.maxAddr
  le : s.brk ≤ s'.brk
  inside : s.brk ≤ s.maxAddr → s'.brk ≤ s'.maxAddr

/-- The functions of the allocator change the heap by `mem_sbrk` and by writing to it. -/
structure Package.KeepsStorage (pkg : Package) : Prop where
  init : ∀ s r s', pkg.init s = .ok (r, s') → SameStorage s s'
  malloc : ∀ s size r s', pkg.malloc s size = .ok (r, s') → SameStorage s s'
  free : ∀ s p s', pkg.free s p = .ok s' → SameStorage s s'
  realloc : ∀ s p size r s', pkg.realloc s p size = .ok (r, s') → SameStorage s s'

/-- The storage does not move: by doing nothing, -/
theorem SameStorage.refl (s : Heap) : SameStorage s s := ⟨rfl, rfl, le_rfl, id⟩

/-- or by two steps that do not move it, -/
theorem SameStorage.trans {s₁ : Heap} (h : SameStorage s s₁) (h' : SameStorage s₁ s') :
    SameStorage s s' :=
  ⟨h'.start.trans h.start, h'.max.trans h.max, h.le.trans h'.le, h'.inside ∘ h.inside⟩

/-- by a step that leaves the variables alone, -/
theorem SameVars.sameStorage (h : SameVars s s') : SameStorage s s' := by
  rw [h]
  exact ⟨rfl, rfl, le_rfl, id⟩

/-- by `mem_sbrk`, -/
theorem memSbrk_sameStorage (s : Heap) (n : ℕ) : SameStorage s (s.memSbrk n).2 := by
  unfold Heap.memSbrk
  split_ifs with h
  · exact ⟨rfl, rfl, Nat.le_add_right _ _, fun _ => h.2⟩
  · exact .refl s

/-- by obtaining a block, -/
theorem Obtains.sameStorage {c : Prop} (h : Obtains s c size p s') : SameStorage s s' := by
  cases h with
  | fit _ hplace => exact (place_sameVars hplace).sameStorage
  | merged _ hpassed _ hplace => exact (hpassed.sameVars.trans (place_sameVars hplace)).sameStorage
  | @grown s₁ s₂ hnone hsbrk hext =>
    have hstorage := memSbrk_sameStorage s₁ size
    rw [hsbrk] at hstorage
    exact hnone.passed.sameVars.sameStorage.trans
      (hstorage.trans (extend_sameVars hext).sameStorage)

/-- also where none is found, -/
theorem NoFit.sameStorage {c : Prop} {s₁ : Heap} (h : NoFit s c size s₁)
    (hsbrk : s₁.memSbrk size = (p, s')) : SameStorage s s' := by
  have hstorage := memSbrk_sameStorage s₁ size
  rw [hsbrk] at hstorage
  exact h.passed.sameVars.sameStorage.trans hstorage

/-- and so by `mm_malloc`, -/
theorem mmMalloc_sameStorage {r : Option ℕ} (hrun : s.mmMalloc size = .ok (r, s')) :
    SameStorage s s' := by
  by_cases hsize : size = 0
  · rw [Heap.mmMalloc, if_pos hsize] at hrun
    obtain ⟨rfl, rfl⟩ := Prod.mk.inj (Except.ok.inj hrun)
    exact .refl s
  · rcases mmMalloc_cases hsize hrun with ⟨p, -, hobtains⟩ | ⟨s₁, hnone, hsbrk⟩
    · exact hobtains.sameStorage
    · exact hnone.sameStorage hsbrk

/-- `mm_free`, -/
theorem mmFree_sameStorage (hrun : s.mmFree p = .ok s') : SameStorage s s' := by
  unfold Heap.mmFree at hrun
  split_ifs at hrun
  · obtain rfl := Except.ok.inj hrun
    exact .refl s
  · obtain ⟨n, -, hput⟩ := bind_eq_ok.1 hrun
    have hvars := (putTags_sameVars hput).sameStorage
    exact ⟨hvars.start, hvars.max, hvars.le, hvars.inside⟩

/-- and `mm_realloc`. -/
theorem reallocTail_sameStorage {r : Option ℕ} (hrun : s.reallocTail p size = .ok (r, s')) :
    SameStorage s s' := by
  by_cases hp : p = 0
  · rw [Heap.reallocTail, if_pos hp] at hrun
    exact mmMalloc_sameStorage hrun
  · cases reallocTail_cases hp hrun with
    | same _ _ heq =>
      rw [heq]
      exact .refl s
    | shrunk _ _ _ hplace => exact (place_sameVars hplace).sameStorage
    | moved _ _ _ hobtains hcopy hfree =>
      exact hobtains.sameStorage.trans
        ((memcpy_sameVars hcopy).sameStorage.trans (mmFree_sameStorage hfree))
    | null _ _ hnone hsbrk => exact hnone.sameStorage hsbrk

/-- The allocator of `mm.c` keeps the storage. -/
theorem mm_keepsStorage : mm.KeepsStorage where
  init s r s' hrun := by
    obtain ⟨s₁, hinit, heq⟩ := bind_eq_ok.1 hrun
    obtain ⟨rfl, rfl⟩ := Prod.mk.inj (Except.ok.inj heq)
    exact (memSbrk_sameStorage s sizeTSize).trans (put_sameVars hinit).sameStorage
  malloc s size r s' hrun := mmMalloc_sameStorage hrun
  free s p s' hrun := mmFree_sameStorage hrun
  realloc s p size r s' hrun := by
    by_cases hsize : size = 0
    · subst hsize
      have hrun' : (s.mmFree p).bind (fun s => s.reallocTail p 0) = .ok (r, s') :=
        mmRealloc_zero.symm.trans hrun
      obtain ⟨s₁, hfree, htail⟩ := bind_eq_ok.1 hrun'
      exact (mmFree_sameStorage hfree).trans (reallocTail_sameStorage htail)
    · exact reallocTail_sameStorage ((mmRealloc_eq hsize).symm.trans hrun)

/-! ## Payloads -/

/-- The payloads are disjoint, or the newer one `x` has the older one `y` in its middle. -/
def Apart (x y : ℕ × ℕ) : Prop :=
  x.1 + x.2 ≤ y.1 ∨ y.1 + y.2 ≤ x.1 ∨ x.1 < y.1 ∧ y.1 + y.2 < x.1 + x.2

/-- The payload is aligned and inside the storage. -/
def InBounds (startBrk : ℕ) (x : ℕ × ℕ) : Prop :=
  8 ∣ x.1 ∧ startBrk ≤ x.1 ∧ x.1 + x.2 ≤ startBrk + maxHeap

/-- The heap in the storage. -/
structure Stored (startBrk : ℕ) (s : Heap) : Prop where
  storage : InStorageOf startBrk s
  ge : s.startBrk ≤ s.brk
  le : s.brk ≤ s.maxAddr

/-- Payloads are then still inside it. -/
theorem Stored.sameStorage (h : Stored startBrk s) (hs : SameStorage s s') : Stored startBrk s' :=
  ⟨⟨hs.start.trans h.storage.start, hs.max.trans h.storage.max⟩,
    hs.start ▸ h.ge.trans hs.le, hs.inside h.le⟩

/-- A payload that passes the tests. -/
theorem addRange_true {x : ℕ × ℕ} (hbase : HeapBase startBrk) (hs : Stored startBrk d.heap)
    (hn : n = x.2) (hsize : x.2 < 2 ^ 31) (hl : ∀ y ∈ l, InBounds startBrk y ∧ 1 ≤ y.2)
    (hranges : d.ranges = l.map range)
    (hrun : d.addRange x.1 n tracenum opnum = .ok (true, d')) :
    1 ≤ x.2 ∧ InBounds startBrk x ∧ (∀ y ∈ l, Apart x y) ∧
      d' = { d with ranges := range x :: d.ranges } := by
  have hbytes : toSize n = x.2 := by
    rw [hn, toSize, Int.emod_eq_of_lt (by omega) (by omega), Int.toNat_natCast]
  have hpos := hbase.pos
  have hbound := hbase.bound
  have hstart := hs.storage.start
  have hmax := hs.storage.max
  have hge := hs.ge
  have hle := hs.le
  have hheapHi : d.heap.heapHi = d.heap.brk - 1 := sub_eq (by omega) (by omega)
  unfold Driver.addRange at hrun
  simp only [hbytes, hheapHi] at hrun
  split_ifs at hrun with hzero halign hheap
  · exact absurd (Prod.mk.inj (Except.ok.inj hrun)).1 Bool.false_ne_true
  · exact absurd (Prod.mk.inj (Except.ok.inj hrun)).1 Bool.false_ne_true
  have halign' : x.1 % 8 = 0 := not_not.1 halign
  -- the address of the end does not wrap around, because the storage is small
  have hhi : sub 32 (add 32 x.1 x.2) 1 = x.1 + x.2 - 1 := by
    unfold sub add at hheap ⊢
    unfold maxHeap at hbound hmax
    omega
  rw [hhi] at hrun hheap
  split at hrun
  · exact absurd (Prod.mk.inj (Except.ok.inj hrun)).1 Bool.false_ne_true
  · rename_i hfind
    obtain rfl := (Prod.mk.inj (Except.ok.inj hrun)).2
    refine ⟨by omega, ⟨by omega, by omega, by omega⟩, fun y hy => ?_, rfl⟩
    have hmeets := List.find?_eq_none.1 hfind (range y) (hranges ▸ List.mem_map_of_mem hy)
    have hends : ¬(x.1 ≥ y.1 ∧ x.1 ≤ y.1 + y.2 - 1 ∨
        x.1 + x.2 - 1 ≥ y.1 ∧ x.1 + x.2 - 1 ≤ y.1 + y.2 - 1) := fun h => hmeets (decide_eq_true h)
    obtain ⟨-, hy1⟩ := hl y hy
    unfold Apart
    omega

/-! ## One request -/

/-- Between the requests, the list of payloads is that of the live blocks, the newest one first. -/
structure Recorded (startBrk numIds : ℕ) (live : List (ℕ × ℕ)) (d : Driver) : Prop where
  listed : Listed live d.blocks d.blockSizes
  length : d.blocks.length = numIds
  ranges : d.ranges = (live.map (payload d.blocks)).map range
  inBounds : ∀ x ∈ live, InBounds startBrk (payload d.blocks x)
  apart : (live.map (payload d.blocks)).Pairwise Apart
  stored : Stored startBrk d.heap

/-- Payloads that are apart have different addresses. -/
theorem Apart.ne {x y : ℕ × ℕ} (h : Apart x y) (hx : 1 ≤ x.2) (hy : 1 ≤ y.2) : x.1 ≠ y.1 := by
  unfold Apart at h
  omega

/-- The end of the cases `ALLOC` and `REALLOC`: a new block is remembered. -/
theorem Recorded.remember {rest : List (ℕ × ℕ)} {d₁ : Driver} (hbase : HeapBase startBrk)
    (hlisted : Listed rest d.blocks d.blockSizes) (hlength : d.blocks.length = numIds)
    (hranges : d.ranges = (rest.map (payload d.blocks)).map range)
    (hinBounds : ∀ x ∈ rest, InBounds startBrk (payload d.blocks x))
    (hapart : (rest.map (payload d.blocks)).Pairwise Apart) (hstored : Stored startBrk d.heap)
    (hid : op.id ∉ rest.map Prod.fst) (hlt : op.id < numIds) (hindex : 0 ≤ op.index)
    (hpos : 1 ≤ op.size) (hsize : op.size < 2 ^ 31)
    (hadd : d.addRange p op.size tracenum opnum = .ok (true, d₁))
    (hrun : d₁.remember op p = .ok (true, d')) :
    Recorded startBrk numIds ((op.id, op.bytes) :: rest) d' := by
  obtain ⟨hbytes, hmax, hsizeEq⟩ := bytes_bounds hpos hsize
  have hrest : ∀ y ∈ rest.map (payload d.blocks), InBounds startBrk y ∧ 1 ≤ y.2 := by
    intro y hy
    obtain ⟨x, hx, rfl⟩ := List.mem_map.1 hy
    exact ⟨hinBounds x hx, (hlisted.bounds x hx).1⟩
  -- `add_range` has accepted the new payload
  obtain ⟨-, hp, hnew, rfl⟩ :=
    addRange_true (x := (p, op.bytes)) hbase hstored hsizeEq hmax hrest hranges hadd
  have hwrite := write_ok (hlength ▸ hlt : op.id < d.blocks.length) p
  have hwrite' := write_ok (hlisted.lengths.trans hlength ▸ hlt : op.id < d.blockSizes.length)
    op.bytes
  rw [← index_eq hindex] at hwrite hwrite'
  -- `memset` changes bytes of the storage only
  unfold Driver.remember at hrun
  rw [toSize_eq hpos hsize] at hrun
  obtain ⟨heap, hmemset, hrun⟩ := bind_eq_ok.1 hrun
  rw [hwrite, ok_bind, hwrite', ok_bind] at hrun
  obtain rfl := (Prod.mk.inj (Except.ok.inj hrun)).2
  have hself := payload_set_self (hlength ▸ hlt) p op.bytes
  have hmap : ((op.id, op.bytes) :: rest).map (payload (d.blocks.set op.id p)) =
      (p, op.bytes) :: rest.map (payload d.blocks) := by
    rw [List.map_cons, hself, map_payload_set hid]
  refine ⟨hlisted.cons hid (hlength ▸ hlt) hbytes hmax, ?_, ?_, fun x hx => ?_, ?_, ?_⟩
  · rw [List.length_set, hlength]
  · rw [hmap, hranges]
    rfl
  · rcases List.mem_cons.1 hx with rfl | hx
    · rw [hself]
      exact hp
    · rw [payload_set_of_ne (ne_of_not_mem_keys hid hx)]
      exact hinBounds x hx
  · rw [hmap]
    exact List.pairwise_cons.2 ⟨hnew, hapart⟩
  · unfold Heap.memset at hmemset
    split_ifs at hmemset
    obtain rfl := Except.ok.inj hmemset
    exact ⟨⟨hstored.storage.start, hstored.storage.max⟩, hstored.ge, hstored.le⟩

/-- The payload that is removed from the list is that of the block. -/
theorem removeRange_map {blocks : List ℕ} {x : ℕ × ℕ} (hx : x ∈ live)
    (hkeys : (live.map Prod.fst).Nodup) (hbounds : ∀ x ∈ live, 1 ≤ x.2)
    (hapart : (live.map (payload blocks)).Pairwise Apart) :
    removeRange (payload blocks x).1 ((live.map (payload blocks)).map range) =
      ((live.filter (·.1 ≠ x.1)).map (payload blocks)).map range := by
  induction live with
  | nil => cases hx
  | cons y live ih =>
    rw [List.map_cons, List.nodup_cons] at hkeys
    rw [List.map_cons, List.pairwise_cons] at hapart
    rw [List.map_cons, List.map_cons, removeRange]
    rcases List.mem_cons.1 hx with rfl | hx
    · have hall : live.filter (·.1 ≠ x.1) = live :=
        List.filter_eq_self.2 fun z hz => decide_eq_true (ne_of_not_mem_keys hkeys.1 hz)
      have hlo : (range (payload blocks x)).lo = (payload blocks x).1 := rfl
      rw [if_pos hlo, List.filter_cons_of_neg (by simp), hall]
    · have hne : (payload blocks y).1 ≠ (payload blocks x).1 :=
        (hapart.1 _ (List.mem_map_of_mem hx)).ne (hbounds y List.mem_cons_self)
          (hbounds x (List.mem_cons_of_mem y hx))
      have hkey : y.1 ≠ x.1 := fun heq => hkeys.1 (heq ▸ List.mem_map_of_mem hx)
      have hlo : ¬(range (payload blocks y)).lo = (payload blocks x).1 := hne
      rw [if_neg hlo, ih hx hkeys.2 (fun z hz => hbounds z (List.mem_cons_of_mem y hz)) hapart.2,
        List.filter_cons_of_pos (by simp [hkey]), List.map_cons, List.map_cons]

/-- The other blocks. -/
theorem Recorded.filter {x : ℕ × ℕ} (h : Recorded startBrk numIds live d) (hx : x ∈ live)
    (hs : SameStorage d.heap s') :
    Recorded startBrk numIds (live.filter (·.1 ≠ x.1))
      { d with heap := s', ranges := removeRange (d.blocks.getD x.1 0) d.ranges } where
  listed := h.listed.filter x.1
  length := h.length
  ranges := by
    rw [h.ranges]
    exact removeRange_map hx h.listed.keys (fun y hy => (h.listed.bounds y hy).1) h.apart
  inBounds y hy := h.inBounds y (List.mem_of_mem_filter hy)
  apart := h.apart.sublist (List.filter_sublist.map _)
  stored := h.stored.sameStorage hs

/-- A request after which the loop goes on. -/
theorem Recorded.evalOp (hbase : HeapBase startBrk) (hpkg : pkg.KeepsStorage)
    (h : Recorded startBrk numIds live d) (hop : op.Allowed numIds live)
    (hrun : d.evalOp pkg tracenum opnum op = .ok (true, d')) :
    Recorded startBrk numIds (op.after live) d' := by
  obtain ⟨hindex, hlt, hop⟩ := hop
  have hread := read_ok (h.length ▸ hlt : op.id < d.blocks.length) 0
  rw [← index_eq hindex] at hread
  unfold Driver.evalOp at hrun
  unfold TraceOp.after
  cases htype : op.type with
  | alloc =>
    rw [htype] at hop hrun
    obtain ⟨hid, hpos, hsize⟩ := hop
    -- the allocator has returned a block, or the trace is rejected
    obtain ⟨⟨r, s'⟩, hmalloc, hrun⟩ := bind_eq_ok.1 hrun
    cases r with
    | none => exact absurd (Prod.mk.inj (Except.ok.inj hrun)).1 Bool.false_ne_true
    | some p =>
      obtain ⟨⟨valid, d₁⟩, hadd, hrun⟩ := bind_eq_ok.1 hrun
      cases valid with
      | false => exact absurd (Prod.mk.inj (Except.ok.inj hrun)).1 Bool.false_ne_true
      | true =>
        exact Recorded.remember (d := { d with heap := s' }) hbase h.listed h.length h.ranges
          h.inBounds h.apart (h.stored.sameStorage (hpkg.malloc _ _ _ _ hmalloc)) hid hlt hindex
          hpos hsize hadd hrun
  | realloc =>
    rw [htype] at hop hrun
    obtain ⟨hid, hpos, hsize⟩ := hop
    obtain ⟨⟨id, n⟩, hx, hxid⟩ := List.mem_map.1 hid
    obtain rfl : id = op.id := hxid
    rw [hread, ok_bind] at hrun
    obtain ⟨⟨r, s'⟩, hrealloc, hrun⟩ := bind_eq_ok.1 hrun
    -- the old payload is taken off the list before the new one is tested
    have hrest := h.filter hx (hpkg.realloc _ _ _ _ _ hrealloc)
    cases r with
    | none => exact absurd (Prod.mk.inj (Except.ok.inj hrun)).1 Bool.false_ne_true
    | some q =>
      obtain ⟨⟨valid, d₁⟩, hadd, hrun⟩ := bind_eq_ok.1 hrun
      cases valid with
      | false => exact absurd (Prod.mk.inj (Except.ok.inj hrun)).1 Bool.false_ne_true
      | true =>
        obtain ⟨oldsize, -, hrun⟩ := bind_eq_ok.1 hrun
        -- the old content has to be there
        obtain ⟨preserved, -, hrun⟩ := bind_eq_ok.1 hrun
        cases preserved with
        | false => exact absurd (Prod.mk.inj (Except.ok.inj hrun)).1 Bool.false_ne_true
        | true =>
          exact Recorded.remember
            (d := { d with
              heap := s'
              ranges := removeRange (d.blocks.getD op.id 0) d.ranges })
            hbase hrest.listed hrest.length hrest.ranges hrest.inBounds hrest.apart hrest.stored
            (not_mem_filter _ _) hlt hindex hpos hsize hadd hrun
  | free =>
    rw [htype] at hop hrun
    obtain ⟨⟨id, n⟩, hx, hxid⟩ := List.mem_map.1 hop
    obtain rfl : id = op.id := hxid
    dsimp only at hrun
    rw [hread, ok_bind] at hrun
    obtain ⟨s', hfree, hrun⟩ := bind_eq_ok.1 hrun
    obtain rfl := (Prod.mk.inj (Except.ok.inj hrun)).2
    exact h.filter hx (hpkg.free _ _ _ hfree)

/-! ## Traces -/

/-- The live blocks after the requests of a trace. -/
def afterAll (live : List (ℕ × ℕ)) (ops : List TraceOp) : List (ℕ × ℕ) :=
  ops.foldl (fun live op => op.after live) live

/-- All requests of a trace that the driver has accepted. -/
theorem Recorded.evalOps (hbase : HeapBase startBrk) (hpkg : pkg.KeepsStorage)
    (h : Recorded startBrk numIds live d) (hops : WellFormed numIds live ops)
    (hrun : d.evalOps pkg tracenum opnum ops = .ok (true, d')) :
    Recorded startBrk numIds (afterAll live ops) d' := by
  induction ops generalizing live d opnum with
  | nil =>
    obtain rfl := (Prod.mk.inj (Except.ok.inj hrun)).2
    exact h
  | cons op ops ih =>
    obtain ⟨hop, hops⟩ := hops
    obtain ⟨⟨valid, d₁⟩, hop', hrun⟩ := bind_eq_ok.1 hrun
    cases valid with
    | false => exact absurd (Prod.mk.inj (Except.ok.inj hrun)).1 Bool.false_ne_true
    | true => exact ih (h.evalOp hbase hpkg hop hop') hops hrun

/-- The loop goes on after each beginning of a trace that is accepted. -/
theorem evalOps_of_append {ops₁ ops₂ : List TraceOp}
    (hrun : d.evalOps pkg tracenum opnum (ops₁ ++ ops₂) = .ok (true, d')) :
    ∃ d₁, d.evalOps pkg tracenum opnum ops₁ = .ok (true, d₁) := by
  induction ops₁ generalizing d opnum with
  | nil => exact ⟨d, rfl⟩
  | cons op ops₁ ih =>
    obtain ⟨⟨valid, d₁⟩, hop, hrun⟩ := bind_eq_ok.1 hrun
    cases valid with
    | false => exact absurd (Prod.mk.inj (Except.ok.inj hrun)).1 Bool.false_ne_true
    | true =>
      obtain ⟨d₂, hrun'⟩ := ih hrun
      exact ⟨d₂, by rw [Driver.evalOps, hop, ok_bind]; exact hrun'⟩

/-- The first requests of a well-formed trace are well formed. -/
theorem WellFormed.of_append {ops₁ ops₂ : List TraceOp}
    (h : WellFormed numIds live (ops₁ ++ ops₂)) : WellFormed numIds live ops₁ := by
  induction ops₁ generalizing live with
  | nil => trivial
  | cons op ops₁ ih => exact ⟨h.1, ih h.2⟩

/-- If the driver accepts an allocator on a trace whose requests make sense, then it accepts each
beginning of the trace. After it, the payloads of the live blocks are aligned and inside the
storage, and any two of them are disjoint, unless the newer one has the older one in its middle. -/
theorem evalMmValid_sound (startBrk tracenum : ℕ) (hbase : HeapBase startBrk) (pkg : Package)
    (hpkg : pkg.KeepsStorage) (d d' : Driver) (hstorage : InStorageOf startBrk d.heap)
    (hlengths : d.blockSizes.length = d.blocks.length) (ops : List TraceOp)
    (hops : WellFormed d.blocks.length [] ops)
    (hrun : d.evalMmValid pkg tracenum ops = .ok (true, d')) (ops₁ : List TraceOp)
    (hbegin : ops₁ <+: ops) :
    ∃ d₁, d.evalMmValid pkg tracenum ops₁ = .ok (true, d₁) ∧
      (∀ x ∈ afterAll [] ops₁, InBounds startBrk (payload d₁.blocks x)) ∧
      ((afterAll [] ops₁).map (payload d₁.blocks)).Pairwise Apart := by
  obtain ⟨ops₂, rfl⟩ := hbegin
  obtain ⟨⟨r, s'⟩, hinit, hrun⟩ := bind_eq_ok.1 hrun
  have hreset : Stored startBrk d.heap.resetBrk :=
    ⟨⟨hstorage.start, hstorage.max⟩, le_rfl, by
      show d.heap.startBrk ≤ d.heap.maxAddr
      rw [hstorage.start, hstorage.max]
      exact Nat.le_add_right _ _⟩
  -- there is no payload at the start
  have hempty : Recorded startBrk d.blocks.length [] { d with heap := s', ranges := [] } :=
    ⟨⟨.nil, nofun, hlengths, nofun, nofun⟩, rfl, rfl, nofun, .nil,
      hreset.sameStorage (hpkg.init _ _ _ hinit)⟩
  dsimp only at hrun
  split_ifs at hrun with hr
  · exact absurd (Prod.mk.inj (Except.ok.inj hrun)).1 Bool.false_ne_true
  · -- the requests at the beginning of an accepted trace are accepted
    obtain ⟨d₁, hrun₁⟩ := evalOps_of_append hrun
    have hrecorded := hempty.evalOps hbase hpkg hops.of_append hrun₁
    refine ⟨d₁, ?_, hrecorded.inBounds, hrecorded.apart⟩
    rw [Driver.evalMmValid, hinit, ok_bind]
    dsimp only
    rw [if_neg hr, hrun₁]

/-- Two blocks of the allocator of `mm.c` are live after the second of three requests. -/
theorem evalMmValid_sound_pair :
    ∃ d₁, (⟨memInit 4096 fun _ => 0, [], [0, 0], [0, 0], []⟩ : Driver).evalMmValid mm 2
        [⟨.alloc, 0, 20⟩, ⟨.alloc, 1, 10⟩] = .ok (true, d₁) ∧
      (∀ x ∈ [(1, 10), (0, 20)], InBounds 4096 (payload d₁.blocks x)) ∧
      ([(1, 10), (0, 20)].map (payload d₁.blocks)).Pairwise Apart := by
  have heval : (((⟨memInit 4096 fun _ => 0, [], [0, 0], [0, 0], []⟩ : Driver).evalMmValid mm 2
      [⟨.alloc, 0, 20⟩, ⟨.alloc, 1, 10⟩, ⟨.free, 0, 0⟩]).bind fun r => .ok r.1).toOption =
        some true := by
    decide +kernel
  obtain ⟨⟨valid, d'⟩, hrun, heq⟩ := toOption_bind_eq_some.1 heval
  obtain rfl := Option.some.inj heq
  exact evalMmValid_sound 4096 2 heapBase_4096 mm mm_keepsStorage _ d' ⟨rfl, rfl⟩ rfl
    [⟨.alloc, 0, 20⟩, ⟨.alloc, 1, 10⟩, ⟨.free, 0, 0⟩] (by decide) hrun
    [⟨.alloc, 0, 20⟩, ⟨.alloc, 1, 10⟩] ⟨[⟨.free, 0, 0⟩], rfl⟩

end CppLearn.MallocLab

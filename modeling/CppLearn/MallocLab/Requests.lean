import CppLearn.MallocLab.Correctness
import CppLearn.MallocLab.Driver

/-!
# The requests of a trace

What a trace asks for: which blocks are live, with the identifiers of the trace and the sizes that
were requested, and how many bytes they have together. The allocator of `mm.c` serves every trace
whose requests make sense, as long as the storage lasts, and the arrays of the trace tell where the
blocks are.

Requests that make sense are `TraceOp.Allowed`, and a trace of them is `WellFormed`. `total` is the
size of the live blocks, `highWater` its maximum. `Owns` says that the live blocks are in the heap;
one request keeps this (`Owns.alloc`, `Owns.realloc`, `Owns.free`).
-/

namespace CppLearn.MallocLab

open BoundedLoop CheckedVector Unsigned

variable {s s' s₁ : Heap} {p q size newSize startBrk numIds : ℕ} {r : Option ℕ} {c : Prop}
  {live : List (ℕ × ℕ)} {blocks blockSizes : List ℕ} {op : TraceOp}

/-! ## Traces -/

/-- The identifier of a request. -/
def TraceOp.id (op : TraceOp) : ℕ := op.index.toNat

/-- The size of a request. -/
def TraceOp.bytes (op : TraceOp) : ℕ := op.size.toNat

/-- The conversion of a positive `int` to `size_t` is exact. -/
theorem toSize_eq (hpos : 1 ≤ op.size) (hsize : op.size < 2 ^ 31) : toSize op.size = op.bytes := by
  rw [toSize, TraceOp.bytes, Int.emod_eq_of_lt (by omega) (by omega)]

/-- An index that is not negative is a natural number. -/
theorem index_eq (hindex : 0 ≤ op.index) : op.index = (op.id : ℕ) :=
  (Int.toNat_of_nonneg hindex).symm

/-- The size of a request that is a positive `int`. -/
theorem bytes_bounds (hpos : 1 ≤ op.size) (hsize : op.size < 2 ^ 31) :
    1 ≤ op.bytes ∧ op.bytes < 2 ^ 31 ∧ op.size = op.bytes := by
  rw [TraceOp.bytes]
  omega

/-- The live blocks after a request. -/
def TraceOp.after (op : TraceOp) (live : List (ℕ × ℕ)) : List (ℕ × ℕ) :=
  match op.type with
  | .alloc => (op.id, op.bytes) :: live
  | .realloc => (op.id, op.bytes) :: live.filter (·.1 ≠ op.id)
  | .free => live.filter (·.1 ≠ op.id)

/-- The request makes sense: a new block gets an identifier that is not used, and only live blocks
are reallocated or freed. -/
def TraceOp.Allowed (numIds : ℕ) (live : List (ℕ × ℕ)) (op : TraceOp) : Prop :=
  0 ≤ op.index ∧ op.id < numIds ∧
    match op.type with
    | .alloc => op.id ∉ live.map Prod.fst ∧ 1 ≤ op.size ∧ op.size < 2 ^ 31
    | .realloc => op.id ∈ live.map Prod.fst ∧ 1 ≤ op.size ∧ op.size < 2 ^ 31
    | .free => op.id ∈ live.map Prod.fst

/-- All requests of a trace make sense. -/
def WellFormed (numIds : ℕ) : List (ℕ × ℕ) → List TraceOp → Prop
  | _, [] => True
  | live, op :: ops => op.Allowed numIds live ∧ WellFormed numIds (op.after live) ops

instance (numIds : ℕ) (live : List (ℕ × ℕ)) (op : TraceOp) :
    Decidable (op.Allowed numIds live) := by
  unfold TraceOp.Allowed
  cases op.type <;> infer_instance

instance (numIds : ℕ) (live : List (ℕ × ℕ)) (ops : List TraceOp) :
    Decidable (WellFormed numIds live ops) := by
  induction ops generalizing live with
  | nil => exact isTrue trivial
  | cons op ops ih =>
    have := ih (op.after live)
    exact inferInstanceAs (Decidable (_ ∧ _))

/-- The number of bytes in the live blocks. -/
def total (live : List (ℕ × ℕ)) : ℕ := (live.map Prod.snd).sum

/-- The largest number of bytes that are live at one time. -/
def highWater : List (ℕ × ℕ) → List TraceOp → ℕ
  | live, [] => total live
  | live, op :: ops => max (total live) (highWater (op.after live) ops)

/-- How many bytes a request may need in the heap. -/
def TraceOp.cost (op : TraceOp) : ℕ :=
  match op.type with
  | .free => 0
  | _ => Heap.blockSize op.bytes

/-- How many bytes a trace may need in the heap, behind the blocks that are there. -/
def cost (ops : List TraceOp) : ℕ := (ops.map TraceOp.cost).sum

/-! ## The end of the heap -/

/-- The heap grows by at most `n` bytes. -/
structure Grows (n : ℕ) (s s' : Heap) : Prop where
  le : s.brk ≤ s'.brk
  le_add : s'.brk ≤ s.brk + n
  max : s'.maxAddr = s.maxAddr

/-- A step that leaves the variables alone may be counted as growth by any amount. -/
theorem SameVars.grows (h : SameVars s s') (n : ℕ) : Grows n s s' := by
  rw [h]
  exact ⟨le_rfl, Nat.le_add_right _ _, rfl⟩

/-- Steps that leave the variables alone can follow. -/
theorem Grows.sameVars {n : ℕ} (h : Grows n s s₁) (hvars : SameVars s₁ s') : Grows n s s' := by
  rw [hvars]
  exact ⟨h.le, h.le_add, h.max⟩

/-- They can also come before. -/
theorem SameVars.trans_grows {n : ℕ} (hvars : SameVars s s₁) (h : Grows n s₁ s') :
    Grows n s s' := by
  rw [hvars] at h
  exact ⟨h.le, h.le_add, h.max⟩

/-- `mem_sbrk` moves `mem_brk` by its argument or not at all. -/
theorem memSbrk_grows (s : Heap) (n : ℕ) : Grows n s (s.memSbrk n).2 := by
  unfold Heap.memSbrk
  split_ifs
  · exact ⟨Nat.le_add_right _ _, le_rfl, rfl⟩
  · exact ⟨le_rfl, Nat.le_add_right _ _, rfl⟩

/-- Obtaining a block costs at most its size. -/
theorem Obtains.grows (h : Obtains s c newSize p s') : Grows newSize s s' := by
  cases h with
  | fit _ hplace => exact (place_sameVars hplace).grows newSize
  | merged _ hpassed _ hplace =>
    exact (hpassed.sameVars.trans (place_sameVars hplace)).grows newSize
  | @grown s₂ s₃ hnone hsbrk hext =>
    have hgrows := memSbrk_grows s₂ newSize
    rw [hsbrk] at hgrows
    exact hnone.passed.sameVars.trans_grows (hgrows.sameVars (extend_sameVars hext))

/-- So does `mm_malloc`. -/
theorem mmMalloc_grows (hsize : size ≠ 0) (hrun : s.mmMalloc size = .ok (r, s')) :
    Grows (Heap.blockSize size) s s' := by
  rcases mmMalloc_cases hsize hrun with ⟨p, -, hobtains⟩ | ⟨s₁, hnone, hsbrk⟩
  · exact hobtains.grows
  · have hgrows := memSbrk_grows s₁ (Heap.blockSize size)
    rw [hsbrk] at hgrows
    exact hnone.passed.sameVars.trans_grows hgrows

/-- `mm_free` costs nothing. -/
theorem mmFree_grows (hrun : s.mmFree p = .ok s') : Grows 0 s s' := by
  unfold Heap.mmFree at hrun
  split_ifs at hrun
  · obtain rfl := Except.ok.inj hrun
    exact ⟨le_rfl, le_rfl, rfl⟩
  · obtain ⟨n, -, hput⟩ := bind_eq_ok.1 hrun
    rw [putTags_sameVars hput]
    exact ⟨le_rfl, le_rfl, rfl⟩

/-- `mm_realloc` costs at most the size of the new block; the old one is not given back. -/
theorem mmRealloc_grows (hp : p ≠ 0) (hsize : size ≠ 0) (hrun : s.mmRealloc p size = .ok (r, s')) :
    Grows (Heap.blockSize size) s s' := by
  cases mmRealloc_cases hp hsize hrun with
  | same _ _ heq =>
    rw [heq]
    exact (SameVars.refl s).grows _
  | shrunk _ _ _ hplace => exact (place_sameVars hplace).grows _
  | moved _ _ _ hobtains hcopy hfree =>
    have hgrows := hobtains.grows.sameVars (memcpy_sameVars hcopy)
    have hfree := mmFree_grows hfree
    exact ⟨hgrows.le.trans hfree.le, hfree.le_add.trans hgrows.le_add, hfree.max.trans hgrows.max⟩
  | @null _ s₁ _ _ hnone hsbrk =>
    have hgrows := memSbrk_grows s₁ (Heap.blockSize size)
    rw [hsbrk] at hgrows
    exact hnone.passed.sameVars.trans_grows hgrows

/-! ## Live blocks -/

/-- Where a live block is, according to the array `blocks`. -/
def payload (blocks : List ℕ) (x : ℕ × ℕ) : ℕ × ℕ := (blocks.getD x.1 0, x.2)

/-- The arrays tell the addresses and the sizes of the live blocks of a trace. -/
structure Listed (live : List (ℕ × ℕ)) (blocks blockSizes : List ℕ) : Prop where
  keys : (live.map Prod.fst).Nodup
  index : ∀ x ∈ live, x.1 < blocks.length
  lengths : blockSizes.length = blocks.length
  sizes : ∀ x ∈ live, blockSizes.getD x.1 0 = x.2
  bounds : ∀ x ∈ live, 1 ≤ x.2 ∧ x.2 < 2 ^ 31

/-- The live blocks of a trace are the live blocks of the heap. -/
structure Owns (startBrk : ℕ) (live : List (ℕ × ℕ)) (s : Heap) (blocks blockSizes : List ℕ) : Prop
    extends Listed live blocks blockSizes where
  tracks : Tracks startBrk s (live.map (payload blocks))

/-- The order of the list does not matter. -/
theorem Tracks.perm {l l' : List (ℕ × ℕ)} (h : Tracks startBrk s l) (hperm : l'.Perm l) :
    Tracks startBrk s l' := by
  obtain ⟨hbase, m, hs, hm⟩ := h
  exact ⟨hbase, m, hs, hm.perm_left hperm⟩

/-- Payloads are inside the heap and aligned. -/
theorem Tracks.bounds {l : List (ℕ × ℕ)} (h : Tracks startBrk s l) {x : ℕ × ℕ} (hx : x ∈ l) :
    s.startBrk + 8 ≤ x.1 ∧ x.1 + x.2 + 16 ≤ s.brk ∧ s.brk ≤ s.maxAddr ∧ 8 ∣ x.1 := by
  obtain ⟨-, m, hs, hm⟩ := h
  obtain ⟨p, hp, haddr, hle⟩ := hm.exists_of_mem hx
  have hbounds := hs.bounds hp
  rw [haddr]
  omega

/-- Payloads are apart, with room for two tags in between. -/
theorem Tracks.disjoint {l : List (ℕ × ℕ)} (h : Tracks startBrk s l) :
    l.Pairwise fun x y => x.1 + x.2 < y.1 ∨ y.1 + y.2 < x.1 := by
  obtain ⟨-, m, hs, hm⟩ := h
  refine hm.pairwise Or.symm hs.disjoint fun x p y p' hx hy hpp' => ?_
  obtain ⟨haddr, hle⟩ := hx
  obtain ⟨haddr', hle'⟩ := hy
  omega

/-- Assigning to an entry of `blocks` moves no other payload. -/
theorem payload_set_of_ne {x : ℕ × ℕ} {id : ℕ} (hx : x.1 ≠ id) (p : ℕ) :
    payload (blocks.set id p) x = payload blocks x := by
  rw [payload, payload, List.getD_eq_getElem?_getD, List.getElem?_set_ne (Ne.symm hx),
    ← List.getD_eq_getElem?_getD]

/-- It moves the payload of its own entry. -/
theorem payload_set_self {id : ℕ} (hid : id < blocks.length) (p n : ℕ) :
    payload (blocks.set id p) (id, n) = (p, n) := by
  rw [payload, List.getD_eq_getElem?_getD, List.getElem?_set_self hid]
  rfl

/-- An identifier that is not in use is not that of a live block. -/
theorem ne_of_not_mem_keys {id : ℕ} {x : ℕ × ℕ} (hid : id ∉ live.map Prod.fst) (hx : x ∈ live) :
    x.1 ≠ id := by
  rintro rfl
  exact hid (List.mem_map_of_mem hx)

/-- So a new entry changes none of the payloads. -/
theorem map_payload_set {id : ℕ} (hid : id ∉ live.map Prod.fst) (p : ℕ) :
    live.map (payload (blocks.set id p)) = live.map (payload blocks) :=
  List.map_congr_left fun _ hx => payload_set_of_ne (ne_of_not_mem_keys hid hx) p

/-- A live block, and the others. -/
theorem perm_filter {x : ℕ × ℕ} (hkeys : (live.map Prod.fst).Nodup) (hx : x ∈ live) :
    live.Perm (x :: live.filter (·.1 ≠ x.1)) := by
  induction live with
  | nil => cases hx
  | cons y live ih =>
    rw [List.map_cons, List.nodup_cons] at hkeys
    rcases List.mem_cons.1 hx with rfl | hx
    · have hall : live.filter (·.1 ≠ x.1) = live := by
        refine List.filter_eq_self.2 fun z hz => decide_eq_true fun heq => ?_
        exact hkeys.1 (heq ▸ List.mem_map_of_mem hz)
      rw [List.filter_cons_of_neg (by simp), hall]
    · have hne : y.1 ≠ x.1 := fun heq => hkeys.1 (heq ▸ List.mem_map_of_mem hx)
      rw [List.filter_cons_of_pos (by simpa using hne)]
      exact ((ih hkeys.2 hx).cons y).trans (.swap ..)

/-- An identifier that is dropped is not in use any more. -/
theorem not_mem_filter (id : ℕ) (live : List (ℕ × ℕ)) :
    id ∉ (live.filter (·.1 ≠ id)).map Prod.fst := by
  intro h
  obtain ⟨x, hx, rfl⟩ := List.mem_map.1 h
  simpa using (List.mem_filter.1 hx).2

/-- The other blocks, without one that is not live any more. -/
theorem Listed.filter (h : Listed live blocks blockSizes) (id : ℕ) :
    Listed (live.filter (·.1 ≠ id)) blocks blockSizes where
  keys := h.keys.sublist (List.filter_sublist.map _)
  index x hx := h.index x (List.mem_of_mem_filter hx)
  lengths := h.lengths
  sizes x hx := h.sizes x (List.mem_of_mem_filter hx)
  bounds x hx := h.bounds x (List.mem_of_mem_filter hx)

/-- A block with a new identifier. -/
theorem Listed.cons {id : ℕ} (h : Listed live blocks blockSizes) (hid : id ∉ live.map Prod.fst)
    (hlt : id < blocks.length) (hpos : 1 ≤ size) (hsize : size < 2 ^ 31) :
    Listed ((id, size) :: live) (blocks.set id p) (blockSizes.set id size) where
  keys := List.nodup_cons.2 ⟨hid, h.keys⟩
  index x hx := by
    rw [List.length_set]
    rcases List.mem_cons.1 hx with rfl | hx
    · exact hlt
    · exact h.index x hx
  lengths := by rw [List.length_set, List.length_set, h.lengths]
  sizes x hx := by
    rw [List.getD_eq_getElem?_getD]
    rcases List.mem_cons.1 hx with rfl | hx
    · rw [List.getElem?_set_self (h.lengths ▸ hlt)]
      rfl
    · rw [List.getElem?_set_ne (Ne.symm (ne_of_not_mem_keys hid hx)), ← List.getD_eq_getElem?_getD,
        h.sizes x hx]
  bounds x hx := by
    rcases List.mem_cons.1 hx with rfl | hx
    · exact ⟨hpos, hsize⟩
    · exact h.bounds x hx

/-- The arrays of the trace after a new block. -/
theorem Listed.owns_cons {id : ℕ} (h : Listed live blocks blockSizes)
    (hid : id ∉ live.map Prod.fst) (hlt : id < blocks.length) (hpos : 1 ≤ size)
    (hsize : size < 2 ^ 31)
    (htracks : Tracks startBrk s ((p, size) :: live.map (payload blocks))) :
    Owns startBrk ((id, size) :: live) s (blocks.set id p) (blockSizes.set id size) where
  toListed := h.cons hid hlt hpos hsize
  tracks := by rwa [List.map_cons, payload_set_self hlt, map_payload_set hid]

/-! ## One request -/

/-- The payloads of live blocks are the same in both heaps. -/
def KeepsPayloads (blocks : List ℕ) (live : List (ℕ × ℕ)) (s s' : Heap) : Prop :=
  ∀ x ∈ live, ∀ i < x.2,
    s'.memory ((payload blocks x).1 + i) = s.memory ((payload blocks x).1 + i)

/-- Payloads are kept if the allocator keeps them at their addresses. -/
theorem keepsPayloads_of_map
    (h : ∀ y ∈ live.map (payload blocks), ∀ i < y.2, s'.memory (y.1 + i) = s.memory (y.1 + i)) :
    KeepsPayloads blocks live s s' :=
  fun _ hx => h _ (List.mem_map_of_mem hx)

/-- A request to allocate, as long as there is room. -/
theorem Owns.alloc {id : ℕ} (h : Owns startBrk live s blocks blockSizes)
    (hid : id ∉ live.map Prod.fst) (hlt : id < blocks.length) (hpos : 1 ≤ size)
    (hsize : size < 2 ^ 31) (hroom : s.brk + Heap.blockSize size ≤ s.maxAddr) :
    ∃ p s', s.mmMalloc size = .ok (some p, s') ∧
      Owns startBrk ((id, size) :: live) s' (blocks.set id p) (blockSizes.set id size) ∧
      Grows (Heap.blockSize size) s s' ∧ KeepsPayloads blocks live s s' := by
  rcases h.tracks.malloc hpos (by omega) with ⟨p, s', hrun, htracks, hkeep⟩ | ⟨hfail, -⟩
  · exact ⟨p, s', hrun, h.owns_cons hid hlt hpos hsize htracks,
      mmMalloc_grows (Nat.ne_of_gt hpos) hrun, keepsPayloads_of_map hkeep⟩
  · omega

/-- The other payloads, in the heap without a payload. -/
theorem Owns.erase_perm {x : ℕ × ℕ} (h : Owns startBrk live s blocks blockSizes) (hx : x ∈ live) :
    ((live.filter (·.1 ≠ x.1)).map (payload blocks)).Perm
      ((live.map (payload blocks)).erase (payload blocks x)) := by
  have hperm := ((perm_filter h.keys hx).map (payload blocks)).erase (payload blocks x)
  rw [List.map_cons, List.erase_cons_head] at hperm
  exact hperm.symm

/-- A request to reallocate a live block. -/
theorem Owns.realloc {x : ℕ × ℕ} (h : Owns startBrk live s blocks blockSizes) (hx : x ∈ live)
    (hpos : 1 ≤ size) (hsize : size < 2 ^ 31)
    (hroom : s.brk + Heap.blockSize size ≤ s.maxAddr) :
    ∃ q s', s.mmRealloc (blocks.getD x.1 0) size = .ok (some q, s') ∧
      Owns startBrk ((x.1, size) :: live.filter (·.1 ≠ x.1)) s' (blocks.set x.1 q)
        (blockSizes.set x.1 size) ∧
      Grows (Heap.blockSize size) s s' ∧
      (∀ i < min x.2 size, s'.memory (q + i) = s.memory (blocks.getD x.1 0 + i)) ∧
      KeepsPayloads blocks (live.filter (·.1 ≠ x.1)) s s' := by
  have hmem := List.mem_map_of_mem (f := payload blocks) hx
  have hperm := h.erase_perm hx
  rcases h.tracks.realloc hmem hpos (by omega) with
    ⟨q, s', hrun, htracks, hbytes, hkeep⟩ | ⟨hfail, -⟩
  · have hne : (payload blocks x).1 ≠ 0 := by
      have hbounds := h.tracks.bounds hmem
      omega
    refine ⟨q, s', hrun, (h.filter x.1).owns_cons (not_mem_filter x.1 live) (h.index x hx) hpos
      hsize (htracks.perm (hperm.cons _)), mmRealloc_grows hne (Nat.ne_of_gt hpos) hrun, hbytes, ?_⟩
    exact keepsPayloads_of_map fun y hy => hkeep y (hperm.mem_iff.1 hy)
  · omega

/-- A request to free a live block. -/
theorem Owns.free {x : ℕ × ℕ} (h : Owns startBrk live s blocks blockSizes) (hx : x ∈ live) :
    ∃ s', s.mmFree (blocks.getD x.1 0) = .ok s' ∧
      Owns startBrk (live.filter (·.1 ≠ x.1)) s' blocks blockSizes ∧ Grows 0 s s' ∧
      KeepsPayloads blocks (live.filter (·.1 ≠ x.1)) s s' := by
  have hperm := h.erase_perm hx
  obtain ⟨s', hrun, htracks, hkeep⟩ := h.tracks.free (List.mem_map_of_mem (f := payload blocks) hx)
  exact ⟨s', hrun, ⟨h.filter x.1, htracks.perm hperm⟩, mmFree_grows hrun,
    keepsPayloads_of_map fun y hy => hkeep y (hperm.mem_iff.1 hy)⟩

/-! ## The beginning -/

/-- The heap is in the storage of `mem_init`, whatever was done to it. -/
structure InStorageOf (startBrk : ℕ) (s : Heap) : Prop where
  start : s.startBrk = startBrk
  max : s.maxAddr = startBrk + maxHeap

/-- `mem_reset_brk` and `mm_init` lead to a heap without blocks. -/
theorem owns_reset (hbase : HeapBase startBrk) (hs : InStorageOf startBrk s)
    (hlengths : blockSizes.length = blocks.length) :
    ∃ s', mm.init s.resetBrk = .ok (0, s') ∧ Owns startBrk [] s' blocks blockSizes ∧
      s'.brk = startBrk + 8 ∧ s'.maxAddr = startBrk + maxHeap := by
  obtain ⟨hstart, hmax⟩ := hs
  have hroom : s.startBrk + 8 ≤ s.maxAddr := by
    rw [hstart, hmax, maxHeap]
    omega
  let s' : Heap := ({ s.resetBrk with brk := s.startBrk + 8 } : Heap).store s.startBrk 7
  have hinit : s.resetBrk.mmInit = .ok s' := mmInit_eq le_rfl hroom
  have hregion : Region s' :=
    ⟨hstart ▸ hbase.pos, hstart ▸ hbase.dvd, hmax.trans (by rw [← hstart]; rfl),
      hstart ▸ hbase.bound⟩
  have hholds : Holds s' [] := ⟨s.startBrk, [],
    ⟨hregion, rfl, hroom, le_rfl, word_store_self (by decide)⟩, rfl, .refl _⟩
  refine ⟨s', ?_, ⟨⟨.nil, nofun, hlengths, nofun, nofun⟩, hstart, [], hholds, .nil⟩, ?_, hmax⟩
  · show (do .ok (0, ← s.resetBrk.mmInit) : Except Fault (ℤ × Heap)) = _
    rw [hinit, ok_bind]
  · show s.startBrk + 8 = startBrk + 8
    rw [hstart]

end CppLearn.MallocLab

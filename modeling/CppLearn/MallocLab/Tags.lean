import CppLearn.MallocLab.Defs
import CppLearn.Lib.BoundaryTags

/-!
# Reading and writing tags

The macros of `mm.c` on tags whose values are known. Blocks are given by the address `h` of their
header; the pointer to the block is `h + 8`.

## Main definitions

* `Region`: where the storage behind the heap is;
* `Heap.store`, `Heap.tag`: the effect of `PUT`, once and twice;
* `Tagged`: the tag at an address.

## Main results

* `Tagged.nextBlk`, `Tagged.ftrp`, `Tagged.prevBlk`: moving between blocks;
* `putTags_eq`: writing header and footer;
* `coalesce_alone`, `coalesce_next`, `coalesce_prev`, `coalesce_both`: the cases of `coalesce`.
-/

namespace CppLearn.MallocLab

open BoundedLoop Unsigned BoundaryTags

/-- The storage that `malloc` returned to `mem_init` is aligned, below the end of the address
space and not at the null pointer. -/
structure Region (s : Heap) : Prop where
  pos : 0 < s.startBrk
  dvd : 8 ∣ s.startBrk
  max : s.maxAddr = s.startBrk + maxHeap
  bound : s.startBrk + maxHeap < 2 ^ 32

/-- The heap with the word at `a` set to `val`. -/
def Heap.store (s : Heap) (a val : ℕ) : Heap := { s with memory := s.memory.storeLE 4 a val }

/-- The heap with the words at `a` and at `b` set to `val`. -/
def Heap.tag (s : Heap) (a b val : ℕ) : Heap := (s.store a val).store b val

/-- The tag at address `a` is that of a block of the given size and status. -/
structure Tagged (s : Heap) (a size : ℕ) (alloc : Bool) : Prop where
  ge : s.startBrk ≤ a
  le : a + 8 ≤ s.maxAddr
  word : word s.memory a = size + alloc.toNat
  dvd : 8 ∣ size

variable {s : Heap} {h a b size val f : ℕ} {alloc : Bool}

/-- The storage ends below `2 ^ 32`. -/
theorem Region.maxAddr_lt (hR : Region s) : s.maxAddr < 2 ^ 32 := by
  rw [hR.max]
  exact hR.bound

/-! ## Words -/

/-- Writes do not move the storage. -/
theorem Region.store (hR : Region s) (a val : ℕ) : Region (s.store a val) :=
  ⟨hR.pos, hR.dvd, hR.max, hR.bound⟩

/-- A word that has been written is read back. -/
theorem word_store_self (hval : val < 2 ^ 32) : word (s.store a val).memory a = val :=
  Memory.loadLE_storeLE hval

/-- Words apart from it are unchanged. -/
theorem word_store_of_disjoint (hab : b + 4 ≤ a ∨ a + 4 ≤ b) :
    word (s.store a val).memory b = word s.memory b :=
  Memory.loadLE_write_of_disjoint hab

/-- A store changes the bytes of its word only. -/
theorem store_memory_of_not_mem (hab : b < a ∨ a + 4 ≤ b) :
    (s.store a val).memory b = s.memory b :=
  Memory.storeLE_of_not_mem hab

/-- Reads inside the storage succeed. -/
theorem get_eq (hge : s.startBrk ≤ a) (hle : a + 8 ≤ s.maxAddr) :
    s.get a = .ok (word s.memory a) :=
  if_pos ⟨hge, by omega⟩

/-- So do writes. -/
theorem put_eq (hge : s.startBrk ≤ a) (hle : a + 8 ≤ s.maxAddr) :
    s.put a val = .ok (s.store a val) :=
  if_pos ⟨hge, by omega⟩

/-- A tag survives writes apart from it. -/
theorem Tagged.store_of_disjoint (ht : Tagged s b size alloc) (hab : b + 4 ≤ a ∨ a + 4 ≤ b) :
    Tagged (s.store a val) b size alloc :=
  ⟨ht.ge, ht.le, (word_store_of_disjoint hab).trans ht.word, ht.dvd⟩

/-- Writing a tag. -/
theorem tagged_store_self (hge : s.startBrk ≤ a) (hle : a + 8 ≤ s.maxAddr) (hdvd : 8 ∣ size)
    (hsize : size + alloc.toNat < 2 ^ 32) : Tagged (s.store a (size + alloc.toNat)) a size alloc :=
  ⟨hge, hle, word_store_self hsize, hdvd⟩

/-- Writing both tags of a block does not move the storage either. -/
theorem Region.tag (hR : Region s) (a b val : ℕ) : Region (s.tag a b val) :=
  (hR.store a val).store b val

/-- The header of a block that has been written. -/
theorem word_tag_left (hval : val < 2 ^ 32) (hab : a + 4 ≤ b ∨ b + 4 ≤ a) :
    word (s.tag a b val).memory a = val :=
  (word_store_of_disjoint hab).trans (word_store_self hval)

/-- The footer, which is written after the header. -/
theorem word_tag_right (hval : val < 2 ^ 32) : word (s.tag a b val).memory b = val :=
  word_store_self hval

/-- Words apart from both tags are unchanged. -/
theorem word_tag_of_disjoint {c : ℕ} (ha : c + 4 ≤ a ∨ a + 4 ≤ c) (hb : c + 4 ≤ b ∨ b + 4 ≤ c) :
    word (s.tag a b val).memory c = word s.memory c :=
  (word_store_of_disjoint hb).trans (word_store_of_disjoint ha)

/-- So are single bytes. -/
theorem tag_memory_of_not_mem {c : ℕ} (ha : c < a ∨ a + 4 ≤ c) (hb : c < b ∨ b + 4 ≤ c) :
    (s.tag a b val).memory c = s.memory c :=
  (store_memory_of_not_mem hb).trans (store_memory_of_not_mem ha)

/-! ## Macros -/

/-- The tag of a free block is its size. -/
theorem pack_zero (size : ℕ) : pack size 0 = size := Nat.or_zero size

/-- The tag of a block in use is its size, with the lowest bit set. -/
theorem pack_one (hdvd : 8 ∣ size) : pack size 1 = size + 1 := by
  obtain ⟨k, rfl⟩ := hdvd
  exact (Nat.two_pow_add_eq_or_of_lt (show 1 < 2 ^ 3 by decide) k).symm

/-- The header is eight bytes in front of the payload. -/
theorem hdrp_add (hlt : h + 8 < 2 ^ 32) : hdrp (h + 8) = h := by
  unfold hdrp sizeTSize
  rw [sub_eq (by omega) hlt, Nat.add_sub_cancel]

/-- The payload of the first block. -/
theorem begin_eq (hR : Region s) : s.begin = s.startBrk + 8 := by
  have := hR.bound
  unfold maxHeap at this
  exact add_eq (by unfold sizeTSize; omega)

/-- The macros read back what the tag says: the size, -/
theorem Tagged.getSize (ht : Tagged s a size alloc) : s.getSize a = .ok size := by
  have hdvd := ht.dvd
  have hbit := Bool.toNat_lt alloc
  have hval : (size + alloc.toNat) / 8 * 8 = size := by omega
  simp only [Heap.getSize, get_eq ht.ge ht.le, bind, Except.bind, ht.word, hval]

/-- whether the block is in use, -/
theorem Tagged.getAlloc (ht : Tagged s a size alloc) : s.getAlloc a = .ok alloc.toNat := by
  have hdvd := ht.dvd
  have hbit := Bool.toNat_lt alloc
  have hval : (size + alloc.toNat) &&& 1 = alloc.toNat := by
    rw [Nat.and_one_is_mod]
    omega
  simp only [Heap.getAlloc, get_eq ht.ge ht.le, bind, Except.bind, ht.word, hval]

/-- and that the block is not the end of the heap. -/
theorem Tagged.isEnd (ht : Tagged s a size alloc) : s.isEnd a = .ok false := by
  have hdvd := ht.dvd
  have hbit := Bool.toNat_lt alloc
  have hval : ((size + alloc.toNat) &&& 7 == 7) = false := by
    rw [beq_eq_false_iff_ne, show 7 = 2 ^ 3 - 1 from rfl, Nat.and_two_pow_sub_one_eq_mod]
    omega
  simp only [Heap.isEnd, get_eq ht.ge ht.le, bind, Except.bind, ht.word, hval]

section Move

variable (hR : Region s)
include hR

/-- The address of a tag does not wrap around. -/
theorem Tagged.hdrp (ht : Tagged s h size alloc) : hdrp (h + 8) = h :=
  hdrp_add (Nat.lt_of_le_of_lt ht.le hR.maxAddr_lt)

/-- `NEXT_BLK`. -/
theorem Tagged.nextBlk (ht : Tagged s h size alloc) (hle : h + size + 8 ≤ s.maxAddr) :
    s.nextBlk (h + 8) = .ok (h + size + 8) := by
  have hmax := hR.maxAddr_lt
  have hadd : add 32 (h + 8) size = h + size + 8 := by
    rw [add_eq (by omega)]
    omega
  simp only [Heap.nextBlk, ht.hdrp hR, ht.getSize, bind, Except.bind, hadd]

/-- `FTRP`. -/
theorem Tagged.ftrp (ht : Tagged s h size alloc) (hsize : 8 ≤ size)
    (hle : h + size + 8 ≤ s.maxAddr) : s.ftrp (h + 8) = .ok (h + size - 8) := by
  have hmax := hR.maxAddr_lt
  have hsub : sub 32 (add 32 (h + 8) size) (2 * sizeTSize) = h + size - 8 := by
    unfold sizeTSize
    rw [add_eq (by omega), sub_eq (by omega) (by omega)]
    omega
  simp only [Heap.ftrp, ht.hdrp hR, ht.getSize, bind, Except.bind, hsub]

/-- `PREV_BLK`, by the footer in front of the block. -/
theorem Tagged.prevBlk (ht : Tagged s (h - 8) f alloc) (hh : 8 ≤ h) (hf : f ≤ h)
    (hle : h + 8 ≤ s.maxAddr) : s.prevBlk (h + 8) = .ok (h - f + 8) := by
  have hmax := hR.maxAddr_lt
  have hhdr : MallocLab.hdrp (MallocLab.hdrp (h + 8)) = h - 8 := by
    rw [hdrp_add (by omega)]
    obtain ⟨k, rfl⟩ := Nat.exists_eq_add_of_le' hh
    rw [hdrp_add (by omega), Nat.add_sub_cancel]
  have hsub : sub 32 (h + 8) f = h - f + 8 := by
    rw [sub_eq (by omega) (by omega)]
    omega
  simp only [Heap.prevBlk, hhdr, ht.getSize, bind, Except.bind, hsub]

/-- Writing header and footer. -/
theorem putTags_eq (alloc : Bool) (hge : s.startBrk ≤ h) (hsize : 8 ≤ size)
    (hle : h + size + 8 ≤ s.maxAddr) (hdvd : 8 ∣ size) :
    s.putTags (h + 8) (size + alloc.toNat) =
      .ok (s.tag h (h + size - 8) (size + alloc.toNat)) := by
  have hmax := hR.maxAddr_lt
  have hbit := Bool.toNat_lt alloc
  have ht : Tagged (s.store h (size + alloc.toNat)) h size alloc :=
    tagged_store_self hge (by omega) hdvd (by omega)
  have hput : (s.store h (size + alloc.toNat)).put (h + size - 8) (size + alloc.toNat) = _ :=
    put_eq (show s.startBrk ≤ _ by omega) (show _ ≤ s.maxAddr by omega)
  simp only [Heap.putTags, hdrp_add (show h + 8 < 2 ^ 32 by omega), put_eq hge (by omega), bind,
    Except.bind, ht.ftrp (hR.store ..) hsize hle, hput, Heap.tag]

/-! ## `coalesce` -/

/-- The first block has no predecessor, which counts as one in use. -/
theorem prevAlloc_begin : s.prevAlloc (s.startBrk + 8) = .ok 1 := by
  rw [Heap.prevAlloc, begin_eq hR, if_pos rfl]

/-- The status of the previous block, by the footer in front of the block. -/
theorem prevAlloc_eq {alloc' : Bool} (hf : Tagged s (h - 8) f alloc')
    (hp : Tagged s (h - f) f alloc) (hlt : s.startBrk < h) (hfh : f ≤ h) (hh : 8 ≤ h)
    (hle : h + 8 ≤ s.maxAddr) :
    s.prevAlloc (h + 8) = .ok alloc.toNat := by
  have hne : h + 8 ≠ s.startBrk + 8 := by omega
  simp only [Heap.prevAlloc, begin_eq hR, if_neg hne, hf.prevBlk hR hh hfh hle, bind, Except.bind,
    hp.hdrp hR, hp.getAlloc]

omit hR in
/-- The tags of the free block that the footer in front of an address tells of. -/
theorem tagged_of_isTail (htail : IsTail s.memory h f) (hge : s.startBrk + f ≤ h)
    (hle : h + 8 ≤ s.maxAddr) : Tagged s (h - 8) f false ∧ Tagged s (h - f) f false := by
  have hlarge := htail.large
  exact ⟨⟨by omega, by omega, htail.footer, htail.dvd⟩,
    ⟨by omega, by omega, htail.header, htail.dvd⟩⟩

/-- Both neighbours are in use. -/
theorem coalesce_alone (ht : Tagged s h size false) (hprev : s.prevAlloc (h + 8) = .ok 1)
    (hnext : s.getAlloc (h + size) = .ok 1) (hsize : 8 ≤ size) (hle : h + size + 8 ≤ s.maxAddr) :
    s.coalesce (h + 8) = .ok (s.tag h (h + size - 8) size) := by
  have hmax := hR.maxAddr_lt
  have hput := putTags_eq hR false ht.ge hsize hle ht.dvd
  simp only [Heap.coalesce, hprev, ht.nextBlk hR hle,
    hdrp_add (show h + size + 8 < 2 ^ 32 by omega), hnext, ht.hdrp hR, ht.getSize, bind,
    Except.bind, pack_zero]
  exact hput

/-- The next block is free. -/
theorem coalesce_next {nextSize : ℕ} (ht : Tagged s h size false)
    (hprev : s.prevAlloc (h + 8) = .ok 1) (hnext : Tagged s (h + size) nextSize false)
    (hsize : 8 ≤ size) (hle : h + size + nextSize + 8 ≤ s.maxAddr) :
    s.coalesce (h + 8) = .ok (s.tag h (h + size + nextSize - 8) (size + nextSize)) := by
  have hmax := hR.maxAddr_lt
  have hput := putTags_eq hR false ht.ge (show 8 ≤ size + nextSize by omega)
    (show h + (size + nextSize) + 8 ≤ s.maxAddr by omega) ((Nat.dvd_add_right ht.dvd).2 hnext.dvd)
  rw [← Nat.add_assoc] at hput
  simp only [Heap.coalesce, hprev, ht.nextBlk hR (show h + size + 8 ≤ s.maxAddr by omega),
    hnext.hdrp hR, hnext.getAlloc, hnext.getSize, ht.hdrp hR, ht.getSize, bind, Except.bind,
    pack_zero, add_eq (show size + nextSize < 2 ^ 32 by omega)]
  exact hput

/-- The previous block is free. -/
theorem coalesce_prev (ht : Tagged s h size false) (htail : IsTail s.memory h f)
    (hge : s.startBrk + f ≤ h) (hnext : s.getAlloc (h + size) = .ok 1) (hsize : 8 ≤ size)
    (hle : h + size + 8 ≤ s.maxAddr) :
    s.coalesce (h + 8) = .ok (s.tag (h + size - 8) (h - f) (size + f)) := by
  have hmax := hR.maxAddr_lt
  have hlarge := htail.large
  have hh : h + 8 ≤ s.maxAddr := by omega
  have hfh : f ≤ h := by omega
  obtain ⟨hf, hp⟩ := tagged_of_isTail htail hge hh
  have hprev := prevAlloc_eq hR hf hp (by omega) hfh (by omega) hh
  have hput : s.put (h + size - 8) (size + f) = _ :=
    put_eq (by have := ht.ge; omega) (by omega)
  have hput' : (s.store (h + size - 8) (size + f)).put (h - f) (size + f) = _ :=
    put_eq hp.ge hp.le
  -- the first write does not affect the footer that is read again
  have hf' : Tagged (s.store (h + size - 8) (size + f)) (h - 8) f false :=
    hf.store_of_disjoint (by omega)
  have hadd : add 32 size f = size + f := add_eq (by omega)
  simp only [Heap.coalesce, hprev, ht.nextBlk hR hle,
    hdrp_add (show h + size + 8 < 2 ^ 32 by omega), hnext, ht.hdrp hR, ht.getSize, bind,
    Except.bind, hf.prevBlk hR (by omega) hfh hh, hp.hdrp hR, hp.getSize, hadd, pack_zero,
    ht.ftrp hR hsize hle, hput, hf'.prevBlk (hR.store ..) (by omega) hfh hh, hput']
  rfl

/-- Both neighbours are free. -/
theorem coalesce_both {nextSize : ℕ} (ht : Tagged s h size false)
    (htail : IsTail s.memory h f) (hge : s.startBrk + f ≤ h)
    (hnext : Tagged s (h + size) nextSize false) (hsize : 8 ≤ size) (hnsize : 8 ≤ nextSize)
    (hle : h + size + nextSize + 8 ≤ s.maxAddr) :
    s.coalesce (h + 8) =
      .ok (s.tag (h - f) (h + size + nextSize - 8) (size + (f + nextSize))) := by
  have hmax := hR.maxAddr_lt
  have hlarge := htail.large
  have hh : h + 8 ≤ s.maxAddr := by omega
  have hn : h + size + 8 ≤ s.maxAddr := by omega
  have hfh : f ≤ h := by omega
  obtain ⟨hf, hp⟩ := tagged_of_isTail htail hge hh
  have hprev := prevAlloc_eq hR hf hp (by omega) hfh (by omega) hh
  have hput : s.put (h - f) (size + (f + nextSize)) = _ := put_eq hp.ge hp.le
  have hput' : (s.store (h - f) (size + (f + nextSize))).put (h + size + nextSize - 8)
      (size + (f + nextSize)) = _ :=
    put_eq (show s.startBrk ≤ _ by have := ht.ge; omega) (show _ ≤ s.maxAddr by omega)
  -- the header of the previous block is written first, and the sizes are read again
  have ht' : Tagged (s.store (h - f) (size + (f + nextSize))) h size false :=
    ht.store_of_disjoint (by omega)
  have hnext' : Tagged (s.store (h - f) (size + (f + nextSize))) (h + size) nextSize false :=
    hnext.store_of_disjoint (by omega)
  have hadd : add 32 f nextSize = f + nextSize := add_eq (by omega)
  have hadd' : add 32 size (f + nextSize) = size + (f + nextSize) := add_eq (by omega)
  simp only [Heap.coalesce, hprev, ht.nextBlk hR hn, hnext.hdrp hR, hnext.getAlloc, hnext.getSize,
    ht.hdrp hR, ht.getSize, bind, Except.bind, hf.prevBlk hR (by omega) hfh hh, hp.hdrp hR,
    hp.getSize, hadd, hadd', pack_zero, hput, ht'.nextBlk (hR.store ..) hn,
    hnext'.ftrp (hR.store ..) hnsize hle, hput']
  rfl

end Move

end CppLearn.MallocLab

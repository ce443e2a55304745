import CppLearn.MallocLab.Tags
import CppLearn.Lib.BlockRuns

/-!
# The coalescing pass

`coalesces` walks over the heap and calls `coalesce` at every free block. When both neighbours of
a block are free, the header of the merged block is in front of the walk, which goes on to the tags
of the last of the three blocks. They are now inside the merged block, and what follows depends on
stale tags. Seen from the walk there are three situations, which lead to each other:

* the walk is at a block, and the block before is in use if this one is free;
* the block before is free, and its two tags agree;
* the walk is inside a free block, at the stale tags of a smaller free block at its end.

In the end every run of free blocks is one block. Its footer is that of the whole block unless the
run had an even number of blocks and more than two: then the walk has been inside the merged block
last.

The three situations are `AtBlock`, `AfterFree` and `Inside`, and `Pass` is the loop invariant that
joins them. `coalesces_spec` says that the pass merges every run of free blocks, and keeps the
blocks in use and their payloads.
-/

namespace CppLearn.MallocLab

open BoundedLoop Unsigned BoundaryTags

/-- The heap has its end marker at `e`, in its last eight bytes. -/
structure Ended (s : Heap) (e : ℕ) : Prop where
  region : Region s
  brk : s.brk = e + 8
  le : e + 8 ≤ s.maxAddr
  ge : s.startBrk ≤ e
  marker : word s.memory e = 7

/-- Only the memory has changed. -/
def SameVars (s s' : Heap) : Prop := s' = { s with memory := s'.memory }

variable {ref : Memory} {s s' : Heap} {ys bs : List Block} {h e a k c size val : ℕ} {b : Block}
  {us l : List (Block × ℕ)}

/-- The variables are left alone by doing nothing, -/
theorem SameVars.refl (s : Heap) : SameVars s s := rfl

/-- by two such steps, -/
theorem SameVars.trans {s₁ s₂ s₃ : Heap} (h : SameVars s₁ s₂) (h' : SameVars s₂ s₃) :
    SameVars s₁ s₃ := by
  unfold SameVars at *
  rw [h', h]

/-- and by writing tags. -/
theorem sameVars_tag (s : Heap) (a b val : ℕ) : SameVars s (s.tag a b val) := rfl

/-- The mark at the end stays, if tags are written in front of it. -/
theorem Ended.tag {b : ℕ} (he : Ended s e) (ha : a + 4 ≤ e) (hb : b + 4 ≤ e) :
    Ended (s.tag a b val) e :=
  ⟨he.region.tag a b val, he.brk, he.le, he.ge,
    (word_tag_of_disjoint (.inr ha) (.inr hb)).trans he.marker⟩

/-- Tags outside a range do not affect its blocks. -/
theorem tiles_tag {b : ℕ} (ht : Tiles ref s.memory h bs k) (ha : a + 4 ≤ h ∨ k ≤ a)
    (hb : b + 4 ≤ h ∨ k ≤ b) : Tiles ref (s.tag a b val).memory h bs k :=
  ht.congr fun _ _ _ => tag_memory_of_not_mem (by omega) (by omega)

/-- The blocks stay, if tags are written elsewhere. -/
theorem mergedTiles_tag {b : ℕ} (ht : MergedTiles ref s.memory h us k) (ha : a + 4 ≤ h ∨ k ≤ a)
    (hb : b + 4 ≤ h ∨ k ≤ b) : MergedTiles ref (s.tag a b val).memory h us k :=
  ht.congr fun _ _ _ => tag_memory_of_not_mem (by omega) (by omega)

/-- A tag inside the heap. -/
theorem Ended.tagged (he : Ended s e) {alloc : Bool} (hword : word s.memory a = size + alloc.toNat)
    (hdvd : 8 ∣ size) (hge : s.startBrk ≤ a) (hle : a ≤ e) : Tagged s a size alloc :=
  ⟨hge, by have := he.le; omega, hword, hdvd⟩

/-- The end is seen by the macro, -/
theorem Ended.isEnd (he : Ended s e) : s.isEnd e = .ok true := by
  have hval : (7 &&& 7 == 7) = true := rfl
  simp only [Heap.isEnd, get_eq he.ge he.le, bind, Except.bind, he.marker, hval]

/-- and looks like a block in use. -/
theorem Ended.getAlloc (he : Ended s e) : s.getAlloc e = .ok 1 := by
  have hval : 7 &&& 1 = 1 := rfl
  simp only [Heap.getAlloc, get_eq he.ge he.le, bind, Except.bind, he.marker, hval]

/-- The end marker counts as a block in use. -/
theorem Ended.getAlloc_of_notFree (he : Ended s e) (ht : Tiles ref s.memory k ys e)
    (hys : NotFree ys) (hge : s.startBrk ≤ k) : s.getAlloc k = .ok 1 := by
  cases ys with
  | nil =>
    obtain rfl : k = e := ht
    exact he.getAlloc
  | cons b ys =>
    have hb := ht.1
    have hle := ht.le
    have halloc : b.alloc = true := hys
    have htag := he.tagged hb.header hb.dvd hge hle
    rw [htag.getAlloc, halloc]
    rfl

/-- A free block whose footer tells of a block inside. -/
theorem isBlock_free {f : ℕ} (hword : word s.memory h = size) (hdvd : 8 ∣ size) (hlarge : 24 ≤ size)
    (hf : f ≤ size) (ht : IsTail s.memory (h + size) f) : IsBlock ref s.memory h ⟨size, false⟩ :=
  ⟨hword, hdvd, hlarge, fun h => Bool.noConfusion h, fun _ => ⟨f, hf, ht⟩,
    fun h => Bool.noConfusion h⟩

/-- Writing the two tags of a free block. -/
theorem isTail_tag {f : ℕ} (hdvd : 8 ∣ f) (hlarge : 24 ≤ f) (hlt : f < 2 ^ 32) (hfe : f ≤ e) :
    IsTail (s.tag (e - f) (e - 8) f).memory e f :=
  ⟨word_tag_right hlt, word_tag_left hlt (by omega), hdvd, hlarge⟩

/-- The same in the other order. -/
theorem isTail_tag' {f : ℕ} (hdvd : 8 ∣ f) (hlarge : 24 ≤ f) (hlt : f < 2 ^ 32) (hfe : f ≤ e) :
    IsTail (s.tag (e - 8) (e - f) f).memory e f :=
  ⟨word_tag_left hlt (by omega), word_tag_right hlt, hdvd, hlarge⟩

/-- A free block whose two tags have been written. Its footer is equal to its header. -/
theorem isBlock_free_tag (ref : Memory) (s : Heap) (h : ℕ) (hdvd : 8 ∣ size) (hlarge : 24 ≤ size)
    (hlt : size < 2 ^ 32) :
    IsBlock ref (s.tag h (h + size - 8) size).memory h ⟨size, false⟩ ∧
      word (s.tag h (h + size - 8) size).memory (h + size - 8) =
        word (s.tag h (h + size - 8) size).memory h := by
  have htail := isTail_tag (s := s) (e := h + size) hdvd hlarge hlt (by omega)
  have hword := htail.header
  rw [Nat.add_sub_cancel] at htail hword
  exact ⟨isBlock_free hword hdvd hlarge (Nat.le_refl _) htail, htail.footer.trans hword.symm⟩

/-! ## The loop -/

/-- An iteration at a free block. -/
theorem coalescesBody_free {size' : ℕ} {alloc' : Bool} (hR : Region s)
    (ht : Tagged s h size false) (hrun : s.coalesce (h + 8) = .ok s') (hR' : Region s')
    (ht' : Tagged s' h size' alloc') (hle : h + size' + 8 ≤ s'.maxAddr) :
    Heap.coalescesBody (s, h + 8) = .ok (s', h + size' + 8) := by
  simp only [Heap.coalescesBody, ht.hdrp hR, ht.getAlloc, hrun, bind, Except.bind, Bool.toNat_false,
    if_true, ht'.nextBlk hR' hle]

/-- An iteration at a block in use. -/
theorem coalescesBody_used (hR : Region s) (ht : Tagged s h size true)
    (hle : h + size + 8 ≤ s.maxAddr) :
    Heap.coalescesBody (s, h + 8) = .ok (s, h + size + 8) := by
  simp only [Heap.coalescesBody, ht.hdrp hR, ht.getAlloc, bind, Except.bind, Bool.toNat_true,
    Nat.one_ne_zero, if_false, ht.nextBlk hR hle]

/-- The walk is at a block, and the block before is in use if this one is free. -/
structure AtBlock (ref : Memory) (l : List (Block × ℕ)) (e : ℕ) (s : Heap)
    (us : List (Block × ℕ)) (ys : List Block) (h : ℕ) : Prop where
  before : MergedTiles ref s.memory s.startBrk us h
  after : Tiles ref s.memory h ys e
  prev : ¬ NotFree ys → us = [] ∨ ∃ us' size, us = us' ++ [(⟨size, true⟩, 1)]
  merged : us ++ runs ys = l

/-- The blocks behind a free block that starts at `a`. If the first one is free, the block that its
footer tells of may start in the free block before. -/
def Behind (ref : Memory) (e : ℕ) (m : Memory) (a h : ℕ) : List Block → Prop
  | [] => h = e
  | b :: ys => word m h = b.size + b.alloc.toNat ∧ 8 ∣ b.size ∧ 24 ≤ b.size ∧
      Tiles ref m (h + b.size) ys e ∧
      if b.alloc then IsBlock ref m h b else ∃ g, IsTail m (h + b.size) g ∧ a + g < h + b.size

/-- The block before the walk, at `a`, is free, and its two tags agree. It stands for `c` blocks, an
even number, and for two if it is complete. -/
structure AfterFree (ref : Memory) (l : List (Block × ℕ)) (e : ℕ) (s : Heap)
    (us : List (Block × ℕ)) (ys : List Block) (a h c : ℕ) : Prop where
  before : MergedTiles ref s.memory s.startBrk us a
  lt : a < h
  tail : IsTail s.memory h (h - a)
  behind : Behind ref e s.memory a h ys
  even : 2 ∣ c
  pos : 2 ≤ c
  complete : NotFree ys → c = 2
  merged : us ++ absorb (⟨h - a, false⟩, c) (runs ys) = l

/-- The walk is inside the free block at `a`, which ends at `k`, at the tags of a smaller free block
at its end. The footer before tells of a block that is also inside. The free block stands for `c`
blocks. -/
structure Inside (ref : Memory) (l : List (Block × ℕ)) (e : ℕ) (s : Heap)
    (us : List (Block × ℕ)) (ys : List Block) (a h k f c : ℕ) : Prop where
  before : MergedTiles ref s.memory s.startBrk us a
  lt : h + 24 ≤ k
  dvd : 8 ∣ k - h
  outer : IsTail s.memory k (k - a)
  header : word s.memory h = k - h
  tail : IsTail s.memory h f
  inside : a + f < h
  after : Tiles ref s.memory k ys e
  stale : Stale c
  merged : us ++ absorb (⟨k - a, false⟩, c) (runs ys) = l

/-- The loop invariant: the walk is at header address `h`. -/
inductive Pass (ref : Memory) (l : List (Block × ℕ)) (e : ℕ) (s : Heap) : ℕ → Prop
  | atBlock (us : List (Block × ℕ)) (ys : List Block) {h : ℕ} :
      AtBlock ref l e s us ys h → Pass ref l e s h
  | afterFree (us : List (Block × ℕ)) (ys : List Block) {a h c : ℕ} :
      AfterFree ref l e s us ys a h c → Pass ref l e s h
  | inside (us : List (Block × ℕ)) (ys : List Block) {a h k f c : ℕ} :
      Inside ref l e s us ys a h k f c → Pass ref l e s h

/-- An iteration is possible at `h` and keeps the invariant. -/
def Advances (ref : Memory) (l : List (Block × ℕ)) (e : ℕ) (s : Heap) (h : ℕ) : Prop :=
  ∃ size alloc s' h', Tagged s h size alloc ∧ Heap.coalescesBody (s, h + 8) = .ok (s', h' + 8) ∧
    h < h' ∧ h' ≤ e ∧ Ended s' e ∧ SameVars s s' ∧ Pass ref l e s' h'

/-- An iteration at a free block where `coalesce` writes two tags. The walk goes on behind the block
that the header then tells of. -/
theorem Advances.of_tag {b t : ℕ} (he : Ended s e) (ht : Tagged s h size false)
    (hrun : s.coalesce (h + 8) = .ok (s.tag a b val)) (ha : a + 4 ≤ e) (hb : b + 4 ≤ e)
    (hword : word (s.tag a b val).memory h = t) (hdvd : 8 ∣ t) (hpos : 0 < t)
    (hle : h + t ≤ e) (hpass : Pass ref l e (s.tag a b val) (h + t)) :
    Advances ref l e s h := by
  have hend := he.le
  have he' : Ended (s.tag a b val) e := he.tag ha hb
  have ht' : Tagged (s.tag a b val) h t false := he'.tagged hword hdvd ht.ge (by omega)
  have hbody := coalescesBody_free he.region ht hrun he'.region ht'
    (show h + t + 8 ≤ s.maxAddr by omega)
  exact ⟨size, false, _, h + t, ht, hbody, by omega, hle, he', sameVars_tag .., hpass⟩

/-- The status of the previous block where it is not free. -/
theorem AtBlock.prevAlloc (he : Ended s e) (hp : AtBlock ref l e s us ys h) (hys : ¬ NotFree ys) :
    s.prevAlloc (h + 8) = .ok 1 := by
  have hbefore := hp.before.tiles
  rcases hp.prev hys with rfl | ⟨us', t, rfl⟩
  · -- at the beginning of the heap the block counts as preceded by one in use
    obtain rfl : s.startBrk = h := hbefore
    exact prevAlloc_begin he.region
  · rw [List.map_append] at hbefore
    obtain ⟨k, hxs, hb, hk⟩ := tiles_append.1 hbefore
    obtain rfl : k + t = h := hk
    have hkge := hxs.le
    have hle := hp.after.le
    have hlarge : 24 ≤ t := hb.large
    have hend := he.le
    -- the footer of the block in use leads to its header
    have hfoot : Tagged s (k + t - 8) t true :=
      he.tagged (hb.footer rfl) hb.dvd (by omega) (by omega)
    have hhead : Tagged s (k + t - t) t true := by
      rw [Nat.add_sub_cancel]
      exact he.tagged hb.header hb.dvd hkge (by omega)
    exact prevAlloc_eq he.region hfoot hhead (by omega) (by omega) (by omega) (by omega)

/-- The pass goes over a block in use, -/
theorem AtBlock.advances_used {ys : List Block} (he : Ended s e)
    (hp : AtBlock ref l e s us (⟨size, true⟩ :: ys) h) : Advances ref l e s h := by
  obtain ⟨hb, hys⟩ := hp.after
  have hge := hp.before.le
  have hle : h + size ≤ e := hys.le
  have hlarge : 24 ≤ size := hb.large
  have hend := he.le
  have ht : Tagged s h size true := he.tagged hb.header hb.dvd hge (by omega)
  refine ⟨size, true, s, h + size, ht, coalescesBody_used he.region ht (by omega), by omega, hle,
    he, .refl s, .atBlock (us ++ [(⟨size, true⟩, 1)]) ys ⟨hp.before.concat hb hb.footer_used, hys,
    fun _ => .inr ⟨us, size, rfl⟩, ?_⟩⟩
  rw [List.append_assoc, List.singleton_append, ← runs_cons_used]
  exact hp.merged

/-- The previous and the next block are not free. -/
theorem AtBlock.advances_alone {ys : List Block} (he : Ended s e)
    (hp : AtBlock ref l e s us (⟨size, false⟩ :: ys) h) (hnext : NotFree ys) :
    Advances ref l e s h := by
  obtain ⟨hb, hys⟩ := hp.after
  have hge := hp.before.le
  have hle : h + size ≤ e := hys.le
  have hlarge : 24 ≤ size := hb.large
  have hdvd : 8 ∣ size := hb.dvd
  have hend := he.le
  have hmax := he.region.maxAddr_lt
  have ht : Tagged s h size false := he.tagged hb.header hdvd hge (by omega)
  have hrun := coalesce_alone he.region ht (hp.prevAlloc he Bool.false_ne_true)
    (he.getAlloc_of_notFree hys hnext (by omega)) (by omega) (by omega)
  obtain ⟨hb', hfoot⟩ := isBlock_free_tag ref s h hdvd hlarge (by omega)
  have hword : word (s.tag h (h + size - 8) size).memory h = size := hb'.header
  refine .of_tag he ht hrun (by omega) (by omega) hword hdvd (by omega) hle
    (.atBlock (us ++ [(⟨size, false⟩, 1)]) ys ⟨?_, ?_, fun hfree => absurd hnext hfree, ?_⟩)
  · -- the tags are rewritten as they were, but the footer is now that of the whole block
    exact (mergedTiles_tag hp.before (by omega) (by omega)).concat hb'
      (iff_of_true hfoot (by decide))
  · exact tiles_tag hys (by omega) (by omega)
  · rw [List.append_assoc, List.singleton_append, ← absorb_runs hnext]
    exact hp.merged

/-- What follows a block that is not merged with the one before. -/
theorem behind_of_tiles (ht : Tiles ref s.memory h ys e) (hah : a < h) :
    Behind ref e s.memory a h ys := by
  cases ys with
  | nil => exact ht
  | cons b ys =>
    obtain ⟨hb, hys⟩ := ht
    refine ⟨hb.header, hb.dvd, hb.large, hys, ?_⟩
    split_ifs with halloc
    · exact hb
    · obtain ⟨f, hf, htail⟩ := hb.tail (Bool.eq_false_iff.2 halloc)
      exact ⟨f, htail, by omega⟩

/-- The next block is free, the previous one is not. -/
theorem AtBlock.advances_next {nextSize : ℕ} {ys : List Block} (he : Ended s e)
    (hp : AtBlock ref l e s us (⟨size, false⟩ :: ⟨nextSize, false⟩ :: ys) h) :
    Advances ref l e s h := by
  obtain ⟨hb, hn, hys⟩ := hp.after
  have hge := hp.before.le
  have hle : h + size + nextSize ≤ e := hys.le
  have hlarge : 24 ≤ size := hb.large
  have hdvd : 8 ∣ size := hb.dvd
  have hnlarge : 24 ≤ nextSize := hn.large
  have hndvd : 8 ∣ nextSize := hn.dvd
  have hend := he.le
  have hmax := he.region.maxAddr_lt
  have ht : Tagged s h size false := he.tagged hb.header hdvd hge (by omega)
  have htn : Tagged s (h + size) nextSize false :=
    he.tagged hn.header hndvd (by omega) (by omega)
  have hrun := coalesce_next he.region ht (hp.prevAlloc he Bool.false_ne_true) htn (by omega)
    (by omega)
  have htail := isTail_tag (s := s) (e := h + size + nextSize) (f := size + nextSize) (by omega)
    (by omega) (by omega) (by omega)
  have hword := htail.header
  rw [show h + size + nextSize - (size + nextSize) = h by omega] at htail hword
  -- the walk is behind the merged block
  refine .of_tag he ht hrun (by omega) (by omega) hword (by omega) (by omega) (by omega) ?_
  rw [← Nat.add_assoc]
  have hsize : h + size + nextSize - h = size + nextSize := by omega
  refine .afterFree us ys (a := h) (c := 2) ⟨?_, by omega, ?_, ?_, by decide, by decide,
    fun _ => rfl, ?_⟩
  · exact mergedTiles_tag hp.before (by omega) (by omega)
  · rwa [hsize]
  · exact behind_of_tiles (tiles_tag hys (by omega) (by omega)) (by omega)
  · rw [hsize, ← absorb_absorb]
    exact hp.merged

/-- From a block whose predecessor is in use the walk goes on. -/
theorem AtBlock.advances (he : Ended s e) (hp : AtBlock ref l e s us ys h) (hne : h ≠ e) :
    Advances ref l e s h := by
  cases ys with
  | nil => exact absurd hp.after hne
  | cons b ys =>
    obtain ⟨size, _ | _⟩ := b
    · cases ys with
      | nil => exact hp.advances_alone he trivial
      | cons n ys =>
        obtain ⟨nextSize, _ | _⟩ := n
        · exact hp.advances_next he
        · exact hp.advances_alone he rfl
    · exact hp.advances_used he

/-- The free block before the walk, as a block. -/
theorem AfterFree.isBlock (hp : AfterFree ref l e s us ys a h c) :
    IsBlock ref s.memory a ⟨h - a, false⟩ := by
  have hlt := hp.lt
  have hword := hp.tail.header
  have htail := hp.tail
  rw [show h - (h - a) = a by omega] at hword
  refine isBlock_free hword htail.dvd htail.large (Nat.le_refl _) ?_
  rwa [show a + (h - a) = h by omega]

/-- The free block before the walk at the end of what has been walked over, if it is complete. -/
theorem AfterFree.complete_before (hp : AfterFree ref l e s us ys a h c) :
    MergedTiles ref s.memory s.startBrk (us ++ [(⟨h - a, false⟩, 2)]) h := by
  have hlt := hp.lt
  have hadd : a + (h - a) = h := by omega
  have hbefore := hp.before.concat hp.isBlock (c := 2) ?_
  · rwa [hadd] at hbefore
  · rw [hadd, hp.tail.footer, hp.isBlock.header]
    exact iff_of_true rfl (by decide)

/-- also behind a free one. -/
theorem AfterFree.advances_used {ys : List Block} (he : Ended s e)
    (hp : AfterFree ref l e s us (⟨size, true⟩ :: ys) a h c) : Advances ref l e s h := by
  obtain ⟨hword, hdvd, hlarge, hys, hb⟩ := hp.behind
  simp only [if_true] at hword hdvd hlarge hys hb
  have hlt := hp.lt
  have hage := hp.before.le
  have hle := hys.le
  have hend := he.le
  have ht : Tagged s h size true := he.tagged hword hdvd (by omega) (by omega)
  have hnext : NotFree (⟨size, true⟩ :: ys) := rfl
  have hmerged := hp.merged
  rw [hp.complete hnext, absorb_runs hnext, runs_cons_used] at hmerged
  -- a block in use is skipped, and the free block before it is complete
  refine ⟨size, true, s, h + size, ht, coalescesBody_used he.region ht (by omega), by omega, hle,
    he, .refl s, .atBlock (us ++ [(⟨h - a, false⟩, 2)] ++ [(⟨size, true⟩, 1)]) ys
    ⟨hp.complete_before.concat hb hb.footer_used, hys, fun _ => .inr ⟨_, size, rfl⟩, ?_⟩⟩
  rw [List.append_assoc, List.append_assoc]
  exact hmerged

/-- The free block before the walk is merged with this one, but not with the next. -/
theorem AfterFree.advances_prev {ys : List Block} (he : Ended s e)
    (hp : AfterFree ref l e s us (⟨size, false⟩ :: ys) a h c) (hnext : NotFree ys) :
    Advances ref l e s h := by
  obtain ⟨hword, hdvd, hlarge, hys, -⟩ := hp.behind
  simp only at hword hdvd hlarge hys
  have hage := hp.before.le
  have hle := hys.le
  have hend := he.le
  have hmax := he.region.maxAddr_lt
  have hfdvd := hp.tail.dvd
  have hflarge := hp.tail.large
  have ht : Tagged s h size false := he.tagged hword hdvd (by omega) (by omega)
  have hrun := coalesce_prev he.region ht hp.tail (by omega)
    (he.getAlloc_of_notFree hys hnext (by omega)) (by omega) (by omega)
  have htail := isTail_tag' (s := s) (e := h + size) (f := size + (h - a)) (by omega) (by omega)
    (by omega) (by omega)
  have hword' := htail.header
  -- the merged block starts where the free block before started
  rw [show h + size - (size + (h - a)) = a by omega] at htail hword'
  rw [show h - (h - a) = a by omega] at hrun
  refine .of_tag (t := size) he ht hrun (by omega) (by omega)
    ((word_tag_of_disjoint (by omega) (by omega)).trans hword) hdvd (by omega) hle
    (.atBlock (us ++ [(⟨size + (h - a), false⟩, c + 1)]) ys
      ⟨?_, ?_, fun hfree => absurd hnext hfree, ?_⟩)
  · have hadd : a + (size + (h - a)) = h + size := by omega
    have hblock : IsBlock ref (s.tag (h + size - 8) a (size + (h - a))).memory a
        ⟨size + (h - a), false⟩ := by
      refine isBlock_free hword' (by omega) (by omega) (Nat.le_refl _) ?_
      rwa [hadd]
    have hbefore := (mergedTiles_tag hp.before (by omega) (by omega)).concat hblock (c := c + 1) ?_
    · rwa [hadd] at hbefore
    · -- the number of blocks is odd now
      have heven := hp.even
      rw [hadd]
      exact iff_of_true (htail.footer.trans hword'.symm) fun hstale => by
        have := hstale.2
        omega
  · exact tiles_tag hys (by omega) (by omega)
  · rw [List.append_assoc, List.singleton_append, ← absorb_runs hnext, Nat.add_comm size,
      ← absorb_absorb]
    exact hp.merged

/-- Three blocks are merged. The walk goes on inside, at the tags of the last one. -/
theorem AfterFree.advances_both {nextSize : ℕ} {ys : List Block} (he : Ended s e)
    (hp : AfterFree ref l e s us (⟨size, false⟩ :: ⟨nextSize, false⟩ :: ys) a h c) :
    Advances ref l e s h := by
  obtain ⟨hword, hdvd, hlarge, ⟨hn, hys⟩, g, hg, hag⟩ := hp.behind
  simp only at hword hdvd hlarge hys hag hg
  have hage := hp.before.le
  have hle : h + size + nextSize ≤ e := hys.le
  have hend := he.le
  have hmax := he.region.maxAddr_lt
  have hfdvd := hp.tail.dvd
  have hflarge := hp.tail.large
  have hnlarge : 24 ≤ nextSize := hn.large
  have hndvd : 8 ∣ nextSize := hn.dvd
  have hgdvd := hg.dvd
  have hglarge := hg.large
  have ht : Tagged s h size false := he.tagged hword hdvd (by omega) (by omega)
  have htn : Tagged s (h + size) nextSize false :=
    he.tagged hn.header hndvd (by omega) (by omega)
  have hrun := coalesce_both he.region ht hp.tail (by omega) htn (by omega) (by omega) (by omega)
  have htail := isTail_tag (s := s) (e := h + size + nextSize) (f := size + (h - a + nextSize))
    (by omega) (by omega) (by omega) (by omega)
  rw [show h + size + nextSize - (size + (h - a + nextSize)) = a by omega] at htail
  rw [show h - (h - a) = a by omega] at hrun
  generalize hv : size + (h - a + nextSize) = v at hrun htail
  -- the tags inside the merged block are not written
  have hkeep : ∀ c, a + 4 ≤ c → c + 4 ≤ h + size + nextSize - 8 →
      word (s.tag a (h + size + nextSize - 8) v).memory c = word s.memory c :=
    fun c hc hc' => word_tag_of_disjoint (.inr hc) (.inl hc')
  -- the header of the merged block is at `a`, so the walk only gets as far as the old next block
  refine .of_tag (t := size) he ht hrun (by omega) (by omega)
    ((hkeep h (by omega) (by omega)).trans hword) hdvd (by omega) (by omega)
    (.inside us ys (a := a) (k := h + size + nextSize) (f := g) (c := c + 2)
      ⟨mergedTiles_tag hp.before (by omega) (by omega), by omega, by omega, ?_, ?_, ?_, hag,
        tiles_tag hys (by omega) (by omega), ?_, ?_⟩)
  · rwa [show h + size + nextSize - a = v by omega]
  · rw [hkeep _ (by omega) (by omega), show h + size + nextSize - (h + size) = nextSize by omega]
    exact hn.header
  · refine ⟨?_, ?_, hgdvd, hglarge⟩
    · rw [hkeep _ (by omega) (by omega)]
      exact hg.footer
    · rw [hkeep _ (by omega) (by omega)]
      exact hg.header
  · have heven := hp.even
    have hpos := hp.pos
    exact ⟨by omega, by omega⟩
  · rw [show h + size + nextSize - a = h - a + size + nextSize by omega,
      ← absorb_absorb (c := c + 1), ← absorb_absorb]
    exact hp.merged

/-- From a block behind a free one the walk goes on. -/
theorem AfterFree.advances (he : Ended s e) (hp : AfterFree ref l e s us ys a h c) (hne : h ≠ e) :
    Advances ref l e s h := by
  cases ys with
  | nil => exact absurd hp.behind hne
  | cons b ys =>
    obtain ⟨size, _ | _⟩ := b
    · cases ys with
      | nil => exact hp.advances_prev he trivial
      | cons n ys =>
        obtain ⟨nextSize, _ | _⟩ := n
        · exact hp.advances_both he
        · exact hp.advances_prev he rfl
    · exact hp.advances_used he

/-- The walk leaves the block. The footer now tells of a block that starts inside. -/
theorem Inside.advances_prev {f : ℕ} (he : Ended s e) (hp : Inside ref l e s us ys a h k f c)
    (hnext : NotFree ys) : Advances ref l e s h := by
  have hlt := hp.lt
  have hdvd := hp.dvd
  have hin := hp.inside
  have hage := hp.before.le
  have hle := hp.after.le
  have hend := he.le
  have hmax := he.region.maxAddr_lt
  have hfdvd := hp.tail.dvd
  have hflarge := hp.tail.large
  have hodvd := hp.outer.dvd
  have ht : Tagged s h (k - h) false := he.tagged hp.header hdvd (by omega) (by omega)
  have hk : h + (k - h) = k := by omega
  have hrun := coalesce_prev he.region ht hp.tail (by omega)
    (by rw [hk]; exact he.getAlloc_of_notFree hp.after hnext (by omega)) (by omega) (by omega)
  have htail := isTail_tag' (s := s) (e := k) (f := k - h + f) (by omega) (by omega) (by omega)
    (by omega)
  rw [show k - (k - h + f) = h - f by omega] at htail
  rw [hk] at hrun
  have hkeep : ∀ c, c + 4 ≤ h - f ∨ h - f + 4 ≤ c → c + 4 ≤ k - 8 →
      word (s.tag (k - 8) (h - f) (k - h + f)).memory c = word s.memory c :=
    fun c hc hc' => word_tag_of_disjoint (.inl hc') hc
  refine .of_tag he ht hrun (by omega) (by omega)
    ((hkeep h (by omega) (by omega)).trans hp.header) hdvd (by omega) (by omega) ?_
  rw [hk]
  refine .atBlock (us ++ [(⟨k - a, false⟩, c)]) ys ⟨?_, ?_, fun hfree => absurd hnext hfree, ?_⟩
  · have hadd : a + (k - a) = k := by omega
    have hword : word (s.tag (k - 8) (h - f) (k - h + f)).memory a = k - a := by
      rw [hkeep a (by omega) (by omega)]
      have := hp.outer.header
      rwa [show k - (k - a) = a by omega] at this
    -- the outer header is intact, so there is one free block from `a` to `k`
    have hblock : IsBlock ref (s.tag (k - 8) (h - f) (k - h + f)).memory a ⟨k - a, false⟩ := by
      refine isBlock_free hword hodvd hp.outer.large (show k - h + f ≤ k - a by omega) ?_
      rwa [hadd]
    have hbefore := (mergedTiles_tag hp.before (by omega) (by omega)).concat hblock (c := c) ?_
    · rwa [hadd] at hbefore
    · -- the footer is that of the smaller block
      rw [hadd, htail.footer, hword]
      exact iff_of_false (by omega) (not_not_intro hp.stale)
  · exact tiles_tag hp.after (by omega) (by omega)
  · rw [List.append_assoc, List.singleton_append, ← absorb_runs hnext]
    exact hp.merged

/-- The walk leaves the block for a free one, whose footer is made to tell of a block that starts
inside the first. -/
theorem Inside.advances_both {f nextSize : ℕ} {ys : List Block} (he : Ended s e)
    (hp : Inside ref l e s us (⟨nextSize, false⟩ :: ys) a h k f c) : Advances ref l e s h := by
  obtain ⟨hn, hys⟩ := hp.after
  simp only at hys
  have hlt := hp.lt
  have hdvd := hp.dvd
  have hin := hp.inside
  have hage := hp.before.le
  have hle : k + nextSize ≤ e := hys.le
  have hend := he.le
  have hmax := he.region.maxAddr_lt
  have hfdvd := hp.tail.dvd
  have hflarge := hp.tail.large
  have hodvd := hp.outer.dvd
  have hnlarge : 24 ≤ nextSize := hn.large
  have hndvd : 8 ∣ nextSize := hn.dvd
  have hk : h + (k - h) = k := by omega
  have ht : Tagged s h (k - h) false := he.tagged hp.header hdvd (by omega) (by omega)
  have htn : Tagged s (h + (k - h)) nextSize false := by
    rw [hk]
    exact he.tagged hn.header hndvd (by omega) (by omega)
  have hrun := coalesce_both he.region ht hp.tail (by omega) htn (by omega) (by omega) (by omega)
  have htail := isTail_tag (s := s) (e := k + nextSize) (f := k - h + (f + nextSize)) (by omega)
    (by omega) (by omega) (by omega)
  rw [show k + nextSize - (k - h + (f + nextSize)) = h - f by omega] at htail
  rw [hk] at hrun
  generalize hv : k - h + (f + nextSize) = v at hrun htail
  -- only the inner header and the last footer are written
  have hkeep : ∀ c, c + 4 ≤ h - f ∨ h - f + 4 ≤ c → c + 4 ≤ k + nextSize - 8 →
      word (s.tag (h - f) (k + nextSize - 8) v).memory c = word s.memory c :=
    fun c hc hc' => word_tag_of_disjoint hc (.inl hc')
  have hys' : Tiles ref (s.tag (h - f) (k + nextSize - 8) v).memory (k + nextSize) ys e :=
    tiles_tag hys (by omega) (by omega)
  refine .of_tag he ht hrun (by omega) (by omega)
    ((hkeep h (by omega) (by omega)).trans hp.header) hdvd (by omega) (by omega) ?_
  rw [hk]
  refine .afterFree us (⟨nextSize, false⟩ :: ys) (a := a) (c := c)
    ⟨mergedTiles_tag hp.before (by omega) (by omega), by omega, ⟨?_, ?_, hodvd, hp.outer.large⟩,
      ⟨?_, hndvd, hnlarge, hys', v, htail, ?_⟩, hp.stale.2, Nat.le_trans (by decide) hp.stale.1,
      fun hfree => absurd hfree Bool.false_ne_true, hp.merged⟩
  · rw [hkeep _ (by omega) (by omega)]
    exact hp.outer.footer
  · rw [hkeep _ (by omega) (by omega)]
    exact hp.outer.header
  · rw [hkeep _ (by omega) (by omega)]
    exact hn.header
  · show a + v < k + nextSize
    omega

/-- From inside a free block the walk goes on. -/
theorem Inside.advances {f : ℕ} (he : Ended s e) (hp : Inside ref l e s us ys a h k f c) :
    Advances ref l e s h := by
  cases ys with
  | nil => exact hp.advances_prev he trivial
  | cons n ys =>
    obtain ⟨nextSize, _ | _⟩ := n
    · exact hp.advances_both he
    · exact hp.advances_prev he rfl

/-! ## The pass -/

/-- Each step of the pass comes closer to the end. -/
theorem Pass.advances (he : Ended s e) (hp : Pass ref l e s h) (hne : h ≠ e) :
    Advances ref l e s h := by
  cases hp with
  | atBlock _ _ hp => exact hp.advances he hne
  | afterFree _ _ hp => exact hp.advances he hne
  | inside _ _ hp => exact hp.advances he

/-- At the end marker the whole heap has been walked over. -/
theorem Pass.mergedTiles (hp : Pass ref l e s e) : MergedTiles ref s.memory s.startBrk l e := by
  cases hp with
  | atBlock us ys hp =>
    cases ys with
    | nil =>
      have hmerged := hp.merged
      rw [runs, List.append_nil] at hmerged
      exact hmerged ▸ hp.before
    | cons b ys =>
      have hlarge := hp.after.1.large
      have hle := hp.after.2.le
      omega
  | afterFree us ys hp =>
    cases ys with
    | nil =>
      have hmerged := hp.merged
      rw [hp.complete trivial] at hmerged
      exact hmerged ▸ hp.complete_before
    | cons b ys =>
      obtain ⟨-, -, hlarge, hys, -⟩ := hp.behind
      have := hys.le
      omega
  -- the walk cannot end inside a block
  | inside _ _ hp =>
    have := hp.after.le
    have := hp.lt
    omega

/-- A walk over the heap does not run out of fuel. -/
theorem Ended.lt_walkFuel (he : Ended s e) : e - s.startBrk < Heap.walkFuel := by
  have hle := he.le
  have hge := he.ge
  rw [he.region.max] at hle
  unfold Heap.walkFuel
  omega

/-- `coalesces` merges every run of free blocks. The payloads of the blocks in use are kept. -/
theorem coalesces_spec (he : Ended s e) (ht : Tiles ref s.memory s.startBrk bs e) :
    ∃ s', s.coalesces = .ok s' ∧ Ended s' e ∧ SameVars s s' ∧
      MergedTiles ref s'.memory s'.startBrk (runs bs) e := by
  obtain ⟨⟨s', p⟩, hrun, he', hsame, ht'⟩ : ∃ x : Heap × ℕ,
      whileLoop (fun _ => Fault.diverged) (fun x : Heap × ℕ => do .ok !(← x.1.isEnd (hdrp x.2)))
        Heap.coalescesBody Heap.walkFuel (s, s.begin) = .ok x ∧ Ended x.1 e ∧ SameVars s x.1 ∧
      MergedTiles ref x.1.memory x.1.startBrk (runs bs) e := by
    -- the distance to the end marker decreases
    refine whileLoop_spec
      (I := fun n x => ∃ h, x.2 = h + 8 ∧ h ≤ e ∧ n = e - h ∧ Ended x.1 e ∧ SameVars s x.1 ∧
        Pass ref (runs bs) e x.1 h) (n := e - s.startBrk) ?_ ?_ ?_ ?_ he.lt_walkFuel
    · rintro n ⟨s', p⟩ ⟨h, rfl, hle, -, he', hsame, hp⟩ hexit
      by_cases hhe : h = e
      · subst hhe
        exact ⟨he', hsame, hp.mergedTiles⟩
      · obtain ⟨size, alloc, -, -, htag, -⟩ := hp.advances he' hhe
        simp [htag.hdrp he'.region, htag.isEnd, bind, Except.bind] at hexit
    · rintro n ⟨s', p⟩ ⟨h, rfl, hle, -, he', hsame, hp⟩
      by_cases hhe : h = e
      · subst hhe
        have hhdr : hdrp (h + 8) = h := hdrp_add (Nat.lt_of_le_of_lt he'.le he'.region.maxAddr_lt)
        exact ⟨false, by simp [hhdr, he'.isEnd, bind, Except.bind]⟩
      · obtain ⟨size, alloc, -, -, htag, -⟩ := hp.advances he' hhe
        exact ⟨true, by simp [htag.hdrp he'.region, htag.isEnd, bind, Except.bind]⟩
    · rintro n ⟨s', p⟩ ⟨h, rfl, hle, rfl, he', hsame, hp⟩ hcond
      by_cases hhe : h = e
      · subst hhe
        have hhdr : hdrp (h + 8) = h := hdrp_add (Nat.lt_of_le_of_lt he'.le he'.region.maxAddr_lt)
        simp [hhdr, he'.isEnd, bind, Except.bind] at hcond
      · obtain ⟨size, alloc, s'', h', -, hbody, hlt, hle', he'', hsame', hp'⟩ := hp.advances he' hhe
        exact ⟨_, e - h', hbody, by omega, h', rfl, hle', rfl, he'', hsame.trans hsame', hp'⟩
    · exact ⟨s.startBrk, begin_eq he.region, he.ge, rfl, he, .refl s,
        .atBlock [] bs ⟨⟨rfl, trivial⟩, ht, fun _ => .inl rfl, rfl⟩⟩
  refine ⟨s', ?_, he', hsame, ht'⟩
  unfold Heap.coalesces
  rw [hrun]
  rfl

end CppLearn.MallocLab

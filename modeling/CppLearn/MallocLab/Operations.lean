import CppLearn.MallocLab.Frame
import Mathlib.Data.List.Basic

/-!
# The operations of the allocator

What the functions of `mm.c` do to the blocks: which payloads of blocks in use there are afterwards,
which bytes are kept, how much is free, and whether the footers agree with the headers.

## Main definitions

* `Blocks`: the heap consists of given blocks;
* `Holds`: the heap is well formed and the blocks in use have given payloads;
* `Keeps`: the bytes of given payloads are kept;
* `Placed`: what `place` has done to a block;
* `Acquired`, `Recut`: what a new block means for the payloads and for the blocks.

## Main results

* `Obtains.spec`: the new block that `mm_malloc` and `mm_realloc` obtain;
* `mmMalloc_spec`, `mmRealloc_spec`: these functions return, unless `mem_sbrk` fails;
* `Blocks.free`, `Blocks.write`, `Blocks.shrink`: what happens to a block in use.
-/

namespace CppLearn.MallocLab

open BoundedLoop Unsigned BoundaryTags

/-- The heap is tiled by blocks, and the payloads of the blocks in use are those in `l`. -/
def Holds (s : Heap) (l : List (ℕ × ℕ)) : Prop :=
  ∃ e bs, Ended s e ∧ Tiles s.memory s.memory s.startBrk bs e ∧ (allocated s.startBrk bs).Perm l

/-- The heap consists of the blocks `bs`. -/
def Blocks (s : Heap) (bs : List Block) : Prop :=
  ∃ e, Ended s e ∧ Tiles s.memory s.memory s.startBrk bs e

/-- The bytes of the payloads in `l` are the same in both heaps. -/
def Keeps (s s' : Heap) (l : List (ℕ × ℕ)) : Prop :=
  ∀ p ∈ l, ∀ i < p.2, s'.memory (p.1 + i) = s.memory (p.1 + i)

variable {ref : Memory} {s s' : Heap} {xs ys bs mid : List Block} {h e size newSize : ℕ}
  {l : List (ℕ × ℕ)}

/-- In particular the heap begins where it did. -/
theorem SameVars.startBrk (h : SameVars s s') : s'.startBrk = s.startBrk := by rw [h]

/-- The order of the list does not matter. -/
theorem Holds.perm {l' : List (ℕ × ℕ)} (hs : Holds s l) (hl : l'.Perm l) : Holds s l' := by
  obtain ⟨e, bs, he, ht, hperm⟩ := hs
  exact ⟨e, bs, he, ht, hperm.trans hl.symm⟩

/-- The blocks in a part of the heap are replaced by others. -/
theorem replace_blocks (hxs : Tiles ref s.memory s.startBrk xs h)
    (hys : Tiles ref s.memory (h + size) ys e) (hbase : s'.startBrk = s.startBrk)
    (hout : ∀ x, x < h ∨ h + size ≤ x → s'.memory x = s.memory x)
    (hmid : Tiles s'.memory s'.memory h mid (h + size)) :
    Tiles s'.memory s'.memory s'.startBrk (xs ++ (mid ++ ys)) e ∧
      allocated s'.startBrk (xs ++ (mid ++ ys)) =
        allocated s.startBrk xs ++ (allocated h mid ++ allocated (h + size) ys) ∧
      ∀ p ∈ allocated s.startBrk xs ++ allocated (h + size) ys, ∀ i < p.2,
        s'.memory (p.1 + i) = ref (p.1 + i) := by
  have hxs' : Tiles ref s'.memory s.startBrk xs h := hxs.congr fun x _ hx => hout x (.inl hx)
  have hys' : Tiles ref s'.memory (h + size) ys e := hys.congr fun x hx _ => hout x (.inr hx)
  rw [hbase]
  -- the blocks before and behind are outside the part that changes
  refine ⟨tiles_append.2 ⟨h, hxs'.self, tiles_append.2 ⟨_, hmid, hys'.self⟩⟩, ?_, ?_⟩
  · rw [hxs.allocated_append, hmid.allocated_append]
  · intro p hp i hi
    rcases List.mem_append.1 hp with hp | hp
    · exact hxs'.eq_ref hp i hi
    · exact hys'.eq_ref hp i hi

/-- If the footers around a part of the heap agree with the headers, and those in the part do so
afterwards, then all do. -/
theorem replace_tight (hxs : Tiles ref s.memory s.startBrk xs h)
    (hys : Tiles ref s.memory (h + size) ys e) (hbase : s'.startBrk = s.startBrk)
    (hout : ∀ x, x < h ∨ h + size ≤ x → s'.memory x = s.memory x)
    (hmid : Tiles s'.memory s'.memory h mid (h + size)) (htx : Tight s.memory s.startBrk xs)
    (hty : Tight s.memory (h + size) ys) (htm : Tight s'.memory h mid) :
    Tight s'.memory s'.startBrk (xs ++ (mid ++ ys)) := by
  have hxs' : Tiles ref s'.memory s.startBrk xs h := hxs.congr fun x _ hx => hout x (.inl hx)
  rw [hbase]
  refine (tight_append hxs').2 ⟨htx.congr hxs fun x _ hx => hout x (.inl hx), ?_⟩
  exact (tight_append hmid).2 ⟨htm, hty.congr hys fun x hx _ => hout x (.inr hx)⟩

/-! ## `find_fit_block` -/

/-- `find_fit_block` finds the first free block of sufficient size, or nothing. -/
theorem findFitBlock_spec (he : Ended s e) (ht : Tiles ref s.memory s.startBrk bs e) (newSize : ℕ) :
    (s.findFitBlock newSize = .ok none ∧ ∀ b ∈ bs, ¬ b.Fits newSize) ∨
      ∃ xs ys size h, s.findFitBlock newSize = .ok (some (h + 8)) ∧ newSize ≤ size ∧
        bs = xs ++ ⟨size, false⟩ :: ys ∧ (∀ b ∈ xs, ¬ b.Fits newSize) ∧
        Tiles ref s.memory s.startBrk xs h ∧ IsBlock ref s.memory h ⟨size, false⟩ ∧
        Tiles ref s.memory (h + size) ys e := by
  obtain ⟨r, hrun, hr⟩ : ∃ r, s.findFitBlock newSize = .ok r ∧
      ((r = none ∧ ∀ b ∈ bs, ¬ b.Fits newSize) ∨
      ∃ xs ys size h, r = some (h + 8) ∧ newSize ≤ size ∧ bs = xs ++ ⟨size, false⟩ :: ys ∧
        (∀ b ∈ xs, ¬ b.Fits newSize) ∧ Tiles ref s.memory s.startBrk xs h ∧
        IsBlock ref s.memory h ⟨size, false⟩ ∧ Tiles ref s.memory (h + size) ys e) := by
    -- `xs` are the blocks that have been passed
    refine iterate_spec
      (I := fun n p => ∃ xs ys h, p = h + 8 ∧ n = e - h ∧ bs = xs ++ ys ∧
        (∀ b ∈ xs, ¬ b.Fits newSize) ∧ Tiles ref s.memory s.startBrk xs h ∧
        Tiles ref s.memory h ys e) (n := e - s.startBrk) ?_
      ⟨[], bs, s.startBrk, begin_eq he.region, rfl, rfl, by simp, rfl, ht⟩ he.lt_walkFuel
    rintro n p ⟨xs, ys, h, rfl, rfl, rfl, hpast, hxs, hys⟩
    have hge := hxs.le
    have hle := hys.le
    have hend := he.le
    have hhdr : hdrp (h + 8) = h :=
      hdrp_add (Nat.lt_of_le_of_lt (by omega : h + 8 ≤ s.maxAddr) he.region.maxAddr_lt)
    cases ys with
    -- at the end marker the search gives up
    | nil =>
      obtain rfl : h = e := hys
      rw [List.append_nil]
      refine .inl ⟨none, ?_, .inl ⟨rfl, hpast⟩⟩
      simp only [Heap.findFitStep, hhdr, he.isEnd, bind, Except.bind, if_true]
    | cons b ys =>
      obtain ⟨size, alloc⟩ := b
      obtain ⟨hb, hys⟩ := hys
      have hlarge : 24 ≤ size := hb.large
      have hle' : h + size ≤ e := hys.le
      have htag : Tagged s h size alloc := he.tagged hb.header hb.dvd hge hle
      -- the block is taken, or the walk goes on behind it
      by_cases hfit : alloc.toNat = 0 ∧ newSize ≤ size
      · obtain rfl : alloc = false := Bool.toNat_eq_zero.1 hfit.1
        refine .inl ⟨some (h + 8), ?_,
          .inr ⟨xs, ys, size, h, rfl, hfit.2, rfl, hpast, hxs, hb, hys⟩⟩
        simp [Heap.findFitStep, hhdr, htag.isEnd, htag.getAlloc, htag.getSize, bind, Except.bind,
          hfit.2]
      · have hpast' : ∀ b ∈ xs ++ [⟨size, alloc⟩], ¬ b.Fits newSize := by
          refine List.forall_mem_append.2 ⟨hpast, List.forall_mem_singleton.2 fun hfits => hfit ?_⟩
          exact ⟨Bool.toNat_eq_zero.2 hfits.1, hfits.2⟩
        refine .inr ⟨h + size + 8, e - (h + size), ?_, by omega, xs ++ [⟨size, alloc⟩], ys,
          h + size, rfl, rfl, by simp, hpast', hxs.concat hb, hys⟩
        simp only [Heap.findFitStep, hhdr, htag.isEnd, htag.getAlloc, htag.getSize, bind,
          Except.bind, Bool.false_eq_true, if_false, ge_iff_le, if_neg hfit,
          htag.nextBlk he.region (show h + size + 8 ≤ s.maxAddr by omega)]
  rcases hr with ⟨rfl, hnone⟩ | ⟨xs, ys, size, h, rfl, hr⟩
  · exact .inl ⟨hrun, hnone⟩
  · exact .inr ⟨xs, ys, size, h, hrun, hr⟩

/-! ## `place` -/

/-- A block in use with both tags written. -/
theorem isBlock_used (hhead : word s.memory h = size + 1)
    (hfoot : word s.memory (h + size - 8) = size + 1) (hdvd : 8 ∣ size) (hlarge : 24 ≤ size) :
    IsBlock s.memory s.memory h ⟨size, true⟩ :=
  ⟨hhead, hdvd, hlarge, fun _ => hfoot, fun h => Bool.noConfusion h, fun _ _ _ _ => rfl⟩

/-- Writing both tags of a block in use. -/
theorem isBlock_tag (hdvd : 8 ∣ size) (hlarge : 24 ≤ size) (hlt : size + 1 < 2 ^ 32) :
    IsBlock (s.tag h (h + size - 8) (size + 1)).memory (s.tag h (h + size - 8) (size + 1)).memory h
      ⟨size, true⟩ :=
  isBlock_used (word_tag_left hlt (by omega)) (word_tag_right hlt) hdvd hlarge

/-- `place` has made the block of `size` bytes at `h` a block in use of `size'` bytes, followed by
the blocks `rest`. It has written the tags of these blocks only, and all of them. -/
structure Placed (s : Heap) (h size newSize e : ℕ) (s' : Heap) (size' : ℕ) (rest : List Block) :
    Prop where
  ended : Ended s' e
  vars : SameVars s s'
  fits : newSize ≤ size'
  tiles : Tiles s'.memory s'.memory h (⟨size', true⟩ :: rest) (h + size)
  tight : Tight s'.memory h (⟨size', true⟩ :: rest)
  rest_eq : rest = [] ∨ 16 < size - newSize ∧ rest = [⟨size - newSize, false⟩]
  memory : ∀ x, x < h ∨ h + size ≤ x ∨ h + 8 ≤ x ∧ x + 8 < h + size' → s'.memory x = s.memory x

/-- Placing a block does not move the heap. -/
theorem Placed.startBrk {size' : ℕ} {rest : List Block}
    (hp : Placed s h size newSize e s' size' rest) : s'.startBrk = s.startBrk :=
  hp.vars.startBrk

/-- A rest that is split off is free, so there is one payload. -/
theorem Placed.allocated_eq {size' : ℕ} {rest : List Block}
    (hp : Placed s h size newSize e s' size' rest) :
    allocated h (⟨size', true⟩ :: rest) = [(h + 8, size' - 16)] := by
  rcases hp.rest_eq with rfl | ⟨-, rfl⟩
  · rfl
  · rfl

section Place

variable {alloc : Bool} (he : Ended s e) (ht : Tagged s h size alloc) (hle : h + size ≤ e)
include he ht hle

/-- A small rest is not split off. -/
theorem place_whole (hlarge : 24 ≤ newSize) (hfit : newSize ≤ size)
    (hsplit : ¬ size - newSize > 2 * sizeTSize) :
    ∃ s', s.place (h + 8) newSize = .ok s' ∧ Placed s h size newSize e s' size [] := by
  have hge := ht.ge
  have hdvd := ht.dvd
  have hend := he.le
  have hmax := he.region.maxAddr_lt
  have hsub : sub 32 size newSize = size - newSize := sub_eq hfit (by omega)
  have hput := putTags_eq he.region true hge (by omega)
    (show h + size + 8 ≤ s.maxAddr by omega) hdvd
  have hb := isBlock_tag (s := s) (h := h) hdvd (by omega) (show size + 1 < 2 ^ 32 by omega)
  refine ⟨s.tag h (h + size - 8) (size + 1), ?_, he.tag (by omega) (by omega), sameVars_tag ..,
    hfit, ⟨hb, rfl⟩, ⟨(hb.footer rfl).trans hb.header.symm, trivial⟩, .inl rfl, fun x hx => ?_⟩
  · simp only [Heap.place, ht.hdrp he.region, ht.getSize, bind, Except.bind, hsub, pack_one hdvd,
      if_neg hsplit]
    exact hput
  · exact tag_memory_of_not_mem (by omega) (by omega)

/-- Otherwise it becomes a free block. -/
theorem place_split (hdvd : 8 ∣ newSize) (hlarge : 24 ≤ newSize)
    (hsplit : size - newSize > 2 * sizeTSize) :
    ∃ s', s.place (h + 8) newSize = .ok s' ∧
      Placed s h size newSize e s' newSize [⟨size - newSize, false⟩] := by
  have hge := ht.ge
  have hsize := ht.dvd
  have hend := he.le
  have hmax := he.region.maxAddr_lt
  have hrest : 16 < size - newSize := hsplit
  have hsub : sub 32 size newSize = size - newSize := sub_eq (by omega) (by omega)
  have hend' : h + newSize + (size - newSize) = h + size := by omega
  -- the first block
  have hput := putTags_eq he.region true hge (by omega)
    (show h + newSize + 8 ≤ s.maxAddr by omega) hdvd
  have he₁ : Ended (s.tag h (h + newSize - 8) (newSize + 1)) e := he.tag (by omega) (by omega)
  have hb₁ := isBlock_tag (s := s) (h := h) hdvd hlarge (show newSize + 1 < 2 ^ 32 by omega)
  generalize hs₁ : s.tag h (h + newSize - 8) (newSize + 1) = s₁ at he₁ hb₁
  have hput' : s.putTags (h + 8) (newSize + 1) = .ok s₁ := hs₁ ▸ hput
  have hvars : SameVars s s₁ := hs₁ ▸ sameVars_tag ..
  have hbase := hvars.startBrk
  have hmax₁ : s₁.maxAddr = s.maxAddr := by rw [hvars]
  have ht₁ : Tagged s₁ h newSize true := he₁.tagged hb₁.header hdvd (by omega) (by omega)
  -- the free block behind it
  have hput₁ := putTags_eq he₁.region false (show s₁.startBrk ≤ h + newSize by omega)
    (show 8 ≤ size - newSize by omega)
    (show h + newSize + (size - newSize) + 8 ≤ s₁.maxAddr by omega) (by omega)
  obtain ⟨hfree, hfoot⟩ :=
    isBlock_free_tag (s₁.tag (h + newSize) (h + size - 8) (size - newSize)).memory s₁ (h + newSize)
      (show 8 ∣ size - newSize by omega) (by omega) (by omega)
  rw [hend'] at hput₁ hfree hfoot
  have hused : IsBlock s₁.memory (s₁.tag (h + newSize) (h + size - 8) (size - newSize)).memory h
      ⟨newSize, true⟩ :=
    hb₁.congr fun x _ hx => tag_memory_of_not_mem (.inl hx) (.inl (by simp only at hx; omega))
  refine ⟨s₁.tag (h + newSize) (h + size - 8) (size - newSize), ?_, he₁.tag (by omega) (by omega),
    hvars.trans (sameVars_tag ..), Nat.le_refl _,
    ⟨isBlock_used hused.header (hused.footer rfl) hdvd hlarge, hfree, hend'⟩,
    ⟨(hused.footer rfl).trans hused.header.symm, ?_, trivial⟩, .inr ⟨hrest, rfl⟩, ?_⟩
  · simp only [Heap.place, ht.hdrp he.region, ht.getSize, bind, Except.bind, hsub, pack_one hdvd,
      pack_zero, hput', ht₁.nextBlk he₁.region (show h + newSize + 8 ≤ s₁.maxAddr by omega)]
    rw [if_pos hsplit]
    exact hput₁
  · show word _ (h + newSize + (size - newSize) - 8) = _
    rw [hend']
    exact hfoot
  · intro x hx
    rw [tag_memory_of_not_mem (by omega) (by omega), ← hs₁,
      tag_memory_of_not_mem (by omega) (by omega)]

/-- `place` makes a block in use of sufficient size, perhaps with a free block behind it. -/
theorem place_spec (hdvd : 8 ∣ newSize) (hlarge : 24 ≤ newSize) (hfit : newSize ≤ size) :
    ∃ s' size' rest, s.place (h + 8) newSize = .ok s' ∧
      Placed s h size newSize e s' size' rest := by
  by_cases hsplit : size - newSize > 2 * sizeTSize
  · obtain ⟨s', hrun, hplaced⟩ := place_split he ht hle hdvd hlarge hsplit
    exact ⟨s', _, _, hrun, hplaced⟩
  · obtain ⟨s', hrun, hplaced⟩ := place_whole he ht hle hlarge hfit hsplit
    exact ⟨s', _, _, hrun, hplaced⟩

end Place

/-! ## New blocks -/

/-- From the heap `s`, with payloads `l` whose bytes are those of `ref`, a block for `newSize` bytes
has been obtained at `p`. -/
def Acquired (ref : Memory) (s : Heap) (l : List (ℕ × ℕ)) (newSize p : ℕ) (s' : Heap) : Prop :=
  s'.startBrk = s.startBrk ∧ (∃ n, newSize ≤ n + 16 ∧ Holds s' ((p, n) :: l)) ∧
    ∀ q ∈ l, ∀ i < q.2, s'.memory (q.1 + i) = ref (q.1 + i)

/-- Not more is free afterwards than in the blocks `bs` of the heap `s`. Under the condition `c` the
footers of all blocks are equal to the headers. -/
structure Recut (c : Prop) (s : Heap) (bs : List Block) (s' : Heap) : Prop where
  total : s'.totalFreeSize = s.totalFreeSize
  blocks : ∃ bs', Blocks s' bs' ∧ freeSize bs' ≤ freeSize bs ∧
    (c → Tight s'.memory s'.startBrk bs')

/-- First fit. -/
theorem fit_spec (he : Ended s e) (ht : Tiles ref s.memory s.startBrk bs e) (hdvd : 8 ∣ newSize)
    (hlarge : 24 ≤ newSize) :
    (s.findFitBlock newSize = .ok none ∧ ∀ b ∈ bs, ¬ b.Fits newSize) ∨
      ∃ p s', s.findFitBlock newSize = .ok (some p) ∧ s.place p newSize = .ok s' ∧
        Acquired ref s (allocated s.startBrk bs) newSize p s' ∧
        Recut (TightBut newSize s.memory s.startBrk bs) s bs s' := by
  rcases findFitBlock_spec he ht newSize with
    hnone | ⟨xs, ys, size, h, hfind, hfit, rfl, hpast, hxs, hb, hys⟩
  · exact .inl hnone
  have htag : Tagged s h size false := he.tagged hb.header hb.dvd hxs.le (by have := hys.le; omega)
  obtain ⟨s', size', rest, hrun, hplaced⟩ := place_spec he htag hys.le hdvd hlarge hfit
  have hsize' := hplaced.fits
  have hbase := hplaced.startBrk
  have hout : ∀ x, x < h ∨ h + size ≤ x → s'.memory x = s.memory x :=
    fun x hx => hplaced.memory x (by omega)
  obtain ⟨htiles, halloc, hkeep⟩ := replace_blocks hxs hys hbase hout hplaced.tiles
  have hl : allocated s.startBrk (xs ++ ⟨size, false⟩ :: ys) =
      allocated s.startBrk xs ++ allocated (h + size) ys := hxs.allocated_append
  rw [hplaced.allocated_eq] at halloc
  refine .inr ⟨h + 8, s', hfind, hrun,
    ⟨hbase, ⟨size' - 16, by omega, e, _, hplaced.ended, htiles, ?_⟩, ?_⟩, by rw [hplaced.vars],
    _, ⟨e, hplaced.ended, htiles⟩, ?_, fun hbut => ?_⟩
  · rw [halloc, hl]
    exact List.perm_middle
  · rw [hl]
    exact hkeep
  · -- what is split off was part of a free block
    rcases hplaced.rest_eq with rfl | ⟨-, rfl⟩
    · simp [freeSize_cons]
    · simp [freeSize_cons]
  · obtain ⟨htx, hty⟩ := hbut.around hpast ⟨rfl, hfit⟩ hxs
    exact replace_tight hxs hys hbase hout hplaced.tiles htx hty hplaced.tight

/-- `mem_sbrk` within the storage behind the heap. -/
theorem memSbrk_eq (he : Ended s e) (hroom : s.brk + newSize ≤ s.maxAddr) :
    s.memSbrk newSize = (s.brk, { s with brk := s.brk + newSize }) := by
  have hsmall : newSize < 2 ^ 31 := by
    have hstart := he.region.max
    have hbrk := he.brk
    have hge := he.ge
    unfold maxHeap at hstart
    omega
  exact if_pos ⟨hsmall, hroom⟩

/-- The heap with a block in use where the end marker was, and the end marker behind it. -/
def Heap.append (s : Heap) (e newSize : ℕ) : Heap :=
  (s.tag e (e + newSize - 8) (newSize + 1)).store (e + newSize) 7

/-- The writes to the new part of the heap. -/
theorem extend_eq (hR : Region s) (hge : s.startBrk ≤ e) (hle : e + newSize + 8 ≤ s.maxAddr)
    (hdvd : 8 ∣ newSize) (hlarge : 24 ≤ newSize) :
    s.extend (e + 8) newSize = .ok (s.append e newSize) := by
  have hmax := hR.maxAddr_lt
  have hput : s.putTags (e + 8) (newSize + 1) =
      .ok (s.tag e (e + newSize - 8) (newSize + 1)) :=
    putTags_eq hR true hge (by omega) hle hdvd
  have hb := isBlock_tag (s := s) (h := e) hdvd hlarge (show newSize + 1 < 2 ^ 32 by omega)
  have ht : Tagged (s.tag e (e + newSize - 8) (newSize + 1)) e newSize true :=
    ⟨hge, show e + 8 ≤ s.maxAddr by omega, hb.header, hdvd⟩
  have hhdr : hdrp (e + newSize + 8) = e + newSize := hdrp_add (by omega)
  have hpack : pack 0 7 = 7 := rfl
  have hmarker : (s.tag e (e + newSize - 8) (newSize + 1)).put (e + newSize) 7 =
      .ok (s.append e newSize) :=
    put_eq (show s.startBrk ≤ e + newSize by omega) hle
  simp only [Heap.extend, pack_one hdvd, hput, bind, Except.bind, ht.nextBlk (hR.tag ..) hle, hhdr,
    hpack, hmarker]

/-- A new block is written behind the end, and over it. -/
theorem append_memory_of_lt {x : ℕ} (hlarge : 24 ≤ newSize) (hx : x < e) :
    (s.append e newSize).memory x = s.memory x := by
  rw [Heap.append, store_memory_of_not_mem (.inl (by omega)),
    tag_memory_of_not_mem (.inl hx) (.inl (by omega))]

/-- The new block. -/
theorem tiles_appended (hdvd : 8 ∣ newSize) (hlarge : 24 ≤ newSize)
    (hlt : newSize + 1 < 2 ^ 32) :
    Tiles (s.append e newSize).memory (s.append e newSize).memory e [⟨newSize, true⟩]
      (e + newSize) := by
  have hb := isBlock_tag (s := s) (h := e) hdvd hlarge hlt
  -- the end marker is behind the block
  have htiles : Tiles (s.tag e (e + newSize - 8) (newSize + 1)).memory
      (s.append e newSize).memory e [⟨newSize, true⟩] (e + newSize) :=
    ⟨hb.congr fun x _ hx => store_memory_of_not_mem (.inl hx), rfl⟩
  exact htiles.self

/-- Growing the heap. -/
theorem extend_spec (he : Ended s e) (ht : Tiles ref s.memory s.startBrk bs e) (hdvd : 8 ∣ newSize)
    (hlarge : 24 ≤ newSize) (hroom : s.brk + newSize ≤ s.maxAddr) :
    ∃ s₁ s', s.memSbrk newSize = (s.brk, s₁) ∧ s.brk ≠ 0 ∧ s₁.extend s.brk newSize = .ok s' ∧
      Acquired ref s (allocated s.startBrk bs) newSize s.brk s' ∧
      Recut (Tight s.memory s.startBrk bs) s bs s' := by
  have hmax := he.region.maxAddr_lt
  have hbrk := he.brk
  have hge := he.ge
  have hR : Region { s with brk := s.brk + newSize } :=
    ⟨he.region.pos, he.region.dvd, he.region.max, he.region.bound⟩
  have hrun := extend_eq hR (e := e) hge (show e + newSize + 8 ≤ s.maxAddr by omega) hdvd hlarge
  rw [← hbrk] at hrun
  generalize hs' : Heap.append { s with brk := s.brk + newSize } e newSize = s' at hrun
  have htiles : Tiles ref s'.memory s.startBrk bs e :=
    ht.congr fun x _ hx => hs' ▸ append_memory_of_lt hlarge hx
  have hmid : Tiles s'.memory s'.memory e [⟨newSize, true⟩] (e + newSize) :=
    hs' ▸ tiles_appended hdvd hlarge (by omega)
  have hstart : s'.startBrk = s.startBrk := hs' ▸ rfl
  -- the old end marker is where the header of the new block is
  have he' : Ended s' (e + newSize) := by
    subst hs'
    exact ⟨(hR.tag ..).store .., show s.brk + newSize = e + newSize + 8 by omega,
      show e + newSize + 8 ≤ s.maxAddr by omega, show s.startBrk ≤ e + newSize by omega,
      word_store_self (by decide)⟩
  have hall : Tiles s'.memory s'.memory s'.startBrk (bs ++ [⟨newSize, true⟩]) (e + newSize) := by
    rw [hstart]
    exact tiles_append.2 ⟨e, htiles.self, hmid⟩
  refine ⟨_, s', memSbrk_eq he hroom, by omega, hrun, ⟨hstart,
    ⟨newSize - 16, by omega, e + newSize, bs ++ [⟨newSize, true⟩], he', hall, ?_⟩,
    fun q hq i hi => htiles.eq_ref hq i hi⟩, by rw [← hs']; rfl,
    _, ⟨_, he', hall⟩, by simp [freeSize], fun htight => ?_⟩
  · rw [hstart, ht.allocated_append, hbrk]
    exact List.perm_append_singleton _ _
  · rw [hstart]
    refine (tight_append htiles).2 ⟨htight.congr ht fun x _ hx => ?_, ?_⟩
    · exact hs' ▸ append_memory_of_lt hlarge hx
    · exact ⟨(hmid.1.footer rfl).trans hmid.1.header.symm, trivial⟩

/-- When `mem_sbrk` fails, its result is written to all the same. -/
theorem extend_outside (hR : Region s) (newSize : ℕ) :
    s.extend (2 ^ 32 - 1) newSize = .error .invalidAccess := by
  have hhdr : hdrp (2 ^ 32 - 1) = 2 ^ 32 - 9 := rfl
  have hput : s.put (2 ^ 32 - 9) (pack newSize 1) = .error .invalidAccess := by
    refine if_neg fun hin => ?_
    -- the end of the storage is aligned
    have hdvd := hR.dvd
    have hmax := hR.max
    have hbound := hR.bound
    unfold maxHeap at hmax hbound
    omega
  simp only [Heap.extend, Heap.putTags, hhdr, hput, bind, Except.bind]

/-- Without room, `mem_sbrk` returns `-1`, and the tags are then written outside the storage. -/
theorem extend_fails (hR : Region s) (hroom : s.maxAddr < s.brk + newSize) :
    s.memSbrk newSize = (2 ^ 32 - 1, s) ∧
      s.extend (2 ^ 32 - 1) newSize = .error .invalidAccess :=
  ⟨if_neg (by omega), extend_outside hR newSize⟩

/-! ## `mm_malloc` -/

/-- The size of the block for a request that does not overflow. -/
theorem blockSize_spec (hpos : 1 ≤ size) (hsize : size ≤ 2 ^ 32 - 24) :
    8 ∣ Heap.blockSize size ∧ 24 ≤ Heap.blockSize size ∧ size + 16 ≤ Heap.blockSize size := by
  have hle := le_align8 size
  have hlt := align8_lt size
  have hdvd := dvd_align8 size
  have heq : Heap.blockSize size = align8 size + 16 := by
    unfold Heap.blockSize sizeTSize
    rw [alignUp8_eq (by omega), add_eq (by omega)]
  omega

/-- The blocks after a pass over the heap, if there is one. -/
theorem Passed.spec {s₁ : Heap} {c : Prop} (h : Passed s c s₁) (he : Ended s e)
    (ht : Tiles ref s.memory s.startBrk bs e) (newSize : ℕ) :
    ∃ bs₁, Ended s₁ e ∧ Tiles ref s₁.memory s₁.startBrk bs₁ e ∧
      allocated s₁.startBrk bs₁ = allocated s.startBrk bs ∧ freeSize bs₁ = freeSize bs ∧
      (c → bs₁ = mergeFree bs) ∧
      (Tight s.memory s.startBrk bs → (c → StaleFirst newSize (runs bs)) →
        TightBut newSize s₁.memory s₁.startBrk bs₁) := by
  rcases h with ⟨hc, hrun⟩ | ⟨hc, rfl⟩
  · obtain ⟨s', hrun', he', hvars, ht'⟩ := coalesces_spec he ht
    obtain rfl := Except.ok.inj (hrun'.symm.trans hrun)
    have hl : allocated s'.startBrk (mergeFree bs) = allocated s.startBrk bs := by
      rw [hvars.startBrk, allocated_mergeFree]
    exact ⟨mergeFree bs, he', ht'.tiles, hl, freeSize_mergeFree bs, fun _ => rfl,
      fun _ hstale => ht'.footers.tightBut (hstale hc)⟩
  · exact ⟨bs, he, ht, rfl, rfl, fun hc' => absurd hc' hc, fun htight _ => htight.but⟩

/-- The pass over the heap returns. -/
theorem exists_passed (he : Ended s e) (ht : Tiles ref s.memory s.startBrk bs e) (c : Prop) :
    ∃ s₁, Passed s c s₁ := by
  by_cases hc : c
  · obtain ⟨s₁, hrun, -⟩ := coalesces_spec he ht
    exact ⟨s₁, .inl ⟨hc, hrun⟩⟩
  · exact ⟨s, .inr ⟨hc, rfl⟩⟩

/-- Where there are blocks, the footer of the last one can be read. -/
theorem finalFreeSize_ok (hR : Region s) (hge : s.startBrk + 8 ≤ s.brk) (hle : s.brk ≤ s.maxAddr)
    (hdvd : 8 ∣ s.brk) : ∃ n, s.finalFreeSize = .ok n := by
  have hmax := hR.maxAddr_lt
  have hstart := hR.dvd
  unfold Heap.finalFreeSize
  by_cases hempty : s.brk - s.startBrk = sizeTSize
  · exact ⟨0, if_pos hempty⟩
  · rw [if_neg hempty]
    unfold sizeTSize at hempty ⊢
    -- the footer of the last block is 16 bytes before the end
    have hsub : sub 32 s.brk (2 * 8) = s.brk - 16 := sub_eq (by omega) (by omega)
    have hget : s.get (s.brk - 16) = .ok (word s.memory (s.brk - 16)) :=
      get_eq (by omega) (by omega)
    simp only [hsub, Heap.getAlloc, Heap.getSize, hget, bind, Except.bind]
    split_ifs
    · exact ⟨_, rfl⟩
    · exact ⟨_, rfl⟩

/-- What has been acquired after a pass has been acquired from the heap before. -/
theorem Acquired.of_eq {s₁ : Heap} {l₁ : List (ℕ × ℕ)} {p : ℕ} (h : Acquired ref s₁ l₁ newSize p s')
    (hbase : s₁.startBrk = s.startBrk) (hl : l₁ = l) : Acquired ref s l newSize p s' := by
  subst hl
  exact ⟨h.1.trans hbase, h.2⟩

/-- The same for what the blocks are made of. -/
theorem Recut.of_eq {s₁ : Heap} {bs₁ : List Block} {c c' : Prop} (h : Recut c' s₁ bs₁ s')
    (htotal : s₁.totalFreeSize = s.totalFreeSize) (hfree : freeSize bs₁ = freeSize bs)
    (hc : c → c') : Recut c s bs s' := by
  obtain ⟨htotal', bs', hbs', hle, htight⟩ := h
  exact ⟨htotal'.trans htotal, bs', hbs', hfree ▸ hle, fun h => htight (hc h)⟩

/-- A block can be obtained unless `mem_sbrk` fails. -/
theorem exists_obtains (he : Ended s e) (ht : Tiles ref s.memory s.startBrk bs e)
    (hdvd : 8 ∣ newSize) (hlarge : 24 ≤ newSize) (c : Prop) :
    (∃ p s', Obtains s c newSize p s') ∨
    (s.maxAddr < s.brk + newSize ∧ ∃ s₁, NoFit s c newSize s₁ ∧ Region s₁) := by
  -- first among the blocks as they are
  rcases fit_spec he ht hdvd hlarge with ⟨hfind, -⟩ | ⟨p, s', hfind, hplace, -⟩
  swap
  · exact .inl ⟨p, s', .fit hfind hplace⟩
  obtain ⟨s₁, hpassed⟩ := exists_passed he ht c
  obtain ⟨bs₁, he₁, ht₁, -⟩ := hpassed.spec he ht newSize
  -- then among the merged blocks
  rcases fit_spec he₁ ht₁ hdvd hlarge with ⟨hfind₁, -⟩ | ⟨p, s', hfind₁, hplace, -⟩
  swap
  · exact .inl ⟨p, s', .merged hfind hpassed hfind₁ hplace⟩
  have hnone := NoFit.mk hfind hpassed hfind₁
  have hvars : s₁.brk = s.brk ∧ s₁.maxAddr = s.maxAddr := by
    rw [hpassed.sameVars]
    exact ⟨rfl, rfl⟩
  -- and last in a new part of the heap
  by_cases hroom : s₁.brk + newSize ≤ s₁.maxAddr
  · obtain ⟨s₂, s', hsbrk, -, hext, -⟩ := extend_spec he₁ ht₁ hdvd hlarge hroom
    exact .inl ⟨s₁.brk, s', .grown hnone hsbrk hext⟩
  · exact .inr ⟨by omega, s₁, hnone, he₁.region⟩

/-- What has been done when a block was obtained. -/
theorem Obtains.spec {c : Prop} {p : ℕ} (h : Obtains s c newSize p s') (he : Ended s e)
    (ht : Tiles ref s.memory s.startBrk bs e) (hdvd : 8 ∣ newSize) (hlarge : 24 ≤ newSize) :
    Acquired ref s (allocated s.startBrk bs) newSize p s' ∧
    Recut (Tight s.memory s.startBrk bs ∧
      (s.findFitBlock newSize = .ok none → c → StaleFirst newSize (runs bs))) s bs s' := by
  cases h with
  | fit hfind hplace =>
    rcases fit_spec he ht hdvd hlarge with ⟨hnone, -⟩ | ⟨q, s₁, hfind', hplace', hacq, hrecut⟩
    · simp [hfind] at hnone
    · obtain rfl := Option.some.inj (Except.ok.inj (hfind'.symm.trans hfind))
      obtain rfl := Except.ok.inj (hplace'.symm.trans hplace)
      exact ⟨hacq, hrecut.of_eq rfl rfl fun hc => hc.1.but⟩
  | merged hnone hpassed hfind hplace =>
    obtain ⟨bs₁, he₁, ht₁, hl, hfree, -, htight⟩ := hpassed.spec he ht newSize
    have hvars := hpassed.sameVars
    rcases fit_spec he₁ ht₁ hdvd hlarge with ⟨hnone, -⟩ | ⟨q, s₂, hfind', hplace', hacq, hrecut⟩
    · simp [hfind] at hnone
    · obtain rfl := Option.some.inj (Except.ok.inj (hfind'.symm.trans hfind))
      obtain rfl := Except.ok.inj (hplace'.symm.trans hplace)
      exact ⟨hacq.of_eq hvars.startBrk hl, hrecut.of_eq (by rw [hvars]) hfree fun hc =>
        htight hc.1 (hc.2 hnone)⟩
  | @grown s₁ s₂ hnone hsbrk hext =>
    obtain ⟨bs₁, he₁, ht₁, hl, hfree, -, htight⟩ := hnone.passed.spec he ht newSize
    have hvars := hnone.passed.sameVars
    by_cases hroom : s₁.brk + newSize ≤ s₁.maxAddr
    · obtain ⟨s₃, s₄, hsbrk', -, hext', hacq, hrecut⟩ := extend_spec he₁ ht₁ hdvd hlarge hroom
      obtain ⟨rfl, rfl⟩ := Prod.mk.inj (hsbrk'.symm.trans hsbrk)
      obtain rfl := Except.ok.inj (hext'.symm.trans hext)
      -- nothing fits after the pass, so no footer may be wrong
      have hfits : ∀ b ∈ bs₁, ¬ b.Fits newSize := by
        rcases findFitBlock_spec he₁ ht₁ newSize with ⟨-, hfits⟩ | ⟨_, _, _, _, hfind, -⟩
        · exact hfits
        · simp [hnone.after] at hfind
      exact ⟨hacq.of_eq hvars.startBrk hl, hrecut.of_eq (by rw [hvars]) hfree fun hc =>
        (htight hc.1 (hc.2 hnone.before)).tight hfits⟩
    · obtain ⟨hsbrk', hext'⟩ := extend_fails he₁.region (Nat.not_le.1 hroom)
      obtain ⟨rfl, rfl⟩ := Prod.mk.inj (hsbrk'.symm.trans hsbrk)
      exact absurd (hext'.symm.trans hext) (by simp)

/-- The pointer to a payload is not null. -/
theorem Acquired.ne_zero {p : ℕ} (h : Acquired ref s l newSize p s') : p ≠ 0 := by
  obtain ⟨-, ⟨n, -, e, bs, he, ht, hperm⟩, -⟩ := h
  have := (ht.allocated_bounds (hperm.mem_iff.2 (List.mem_cons_self ..))).1
  simp only at this
  omega

/-- `mm_malloc` returns a new block, unless `mem_sbrk` fails. -/
theorem mmMalloc_spec (he : Ended s e) (ht : Tiles ref s.memory s.startBrk bs e) (hpos : 1 ≤ size)
    (hsize : size ≤ 2 ^ 32 - 24) :
    (∃ p s', s.mmMalloc size = .ok (some p, s') ∧
      Acquired ref s (allocated s.startBrk bs) (Heap.blockSize size) p s') ∨
    (s.maxAddr < s.brk + Heap.blockSize size ∧ ∃ fault, s.mmMalloc size = .error fault) := by
  obtain ⟨hdvd, hlarge, -⟩ := blockSize_spec hpos hsize
  -- the walk that counts the free bytes ends in every state that the functions lead to
  have hfinal : ∀ s₁, SameVars s s₁ → ∃ n, s₁.finalFreeSize = .ok n := by
    intro s₁ hvars
    have hbrk := he.brk
    have hge := he.ge
    have hle := he.le
    have hmul := ht.dvd
    have hstart := he.region.dvd
    rw [hvars]
    exact finalFreeSize_ok ⟨he.region.pos, hstart, he.region.max, he.region.bound⟩
      (show s.startBrk + 8 ≤ s.brk by omega) (show s.brk ≤ s.maxAddr by omega)
      (show 8 ∣ s.brk by omega)
  -- a block is found, or `mem_sbrk` fails
  rcases exists_obtains he ht hdvd hlarge (s.totalFreeSize ≥ Heap.blockSize size) with
    ⟨p, s', hobtains⟩ | ⟨hfull, s₁, hnone, hR⟩
  · have hacq := (hobtains.spec he ht hdvd hlarge).1
    exact .inl ⟨p, s', hobtains.mmMalloc_eq (by omega) hacq.ne_zero hfinal, hacq⟩
  · have hvars := hnone.passed.sameVars
    have hfull₁ : s₁.maxAddr < s₁.brk + Heap.blockSize size := by
      rw [hvars]
      exact hfull
    obtain ⟨hsbrk, hext⟩ := extend_fails hR hfull₁
    exact .inr ⟨hfull, _, hnone.mmMalloc_eq (by omega) hfinal hsbrk (by decide) hext⟩

/-! ## `mm_free` -/

/-- The block of one of the payloads, and the other payloads. -/
theorem Blocks.split {p : ℕ × ℕ} (hs : Blocks s bs) (hp : p ∈ allocated s.startBrk bs) :
    ∃ e xs ys size k, Ended s e ∧ bs = xs ++ ⟨size, true⟩ :: ys ∧ p = (k + 8, size - 16) ∧
      Tiles s.memory s.memory s.startBrk xs k ∧ IsBlock s.memory s.memory k ⟨size, true⟩ ∧
      Tiles s.memory s.memory (k + size) ys e ∧
      (allocated s.startBrk xs ++ allocated (k + size) ys).Perm
        ((allocated s.startBrk bs).erase p) := by
  obtain ⟨e, he, ht⟩ := hs
  obtain ⟨xs, ys, size, k, rfl, rfl, hxs, hb, hys⟩ := ht.exists_of_mem hp
  refine ⟨e, xs, ys, size, k, he, rfl, rfl, hxs, hb, hys, ?_⟩
  -- without the block the payloads are those that remain
  have hcons : ((k + 8, size - 16) ::
      (allocated s.startBrk xs ++ allocated (k + size) ys)).Perm
        (allocated s.startBrk (xs ++ ⟨size, true⟩ :: ys)) := by
    rw [hxs.allocated_append]
    exact List.perm_middle.symm
  exact (hcons.trans (List.perm_cons_erase hp)).cons_inv

/-- The blocks of a heap that holds a list. -/
theorem Holds.blocks (hs : Holds s l) :
    ∃ bs, Blocks s bs ∧ (allocated s.startBrk bs).Perm l := by
  obtain ⟨e, bs, he, ht, hperm⟩ := hs
  exact ⟨bs, ⟨e, he, ht⟩, hperm⟩

/-- The list that the blocks of a heap hold. -/
theorem Blocks.holds (hs : Blocks s bs) (hperm : (allocated s.startBrk bs).Perm l) : Holds s l := by
  obtain ⟨e, he, ht⟩ := hs
  exact ⟨e, bs, he, ht, hperm⟩

/-- The order of the list does not matter here either. -/
theorem Keeps.perm {l' : List (ℕ × ℕ)} (h : Keeps s s' l) (hl : l.Perm l') : Keeps s s' l' :=
  fun p hp => h p (hl.mem_iff.2 hp)

/-- `mm_free` of a block in use. -/
theorem Blocks.free {p : ℕ × ℕ} (hs : Blocks s bs) (hp : p ∈ allocated s.startBrk bs) :
    ∃ s' bs', s.mmFree p.1 = .ok s' ∧ s'.startBrk = s.startBrk ∧ Blocks s' bs' ∧
      (allocated s'.startBrk bs').Perm ((allocated s.startBrk bs).erase p) ∧
      Keeps s s' ((allocated s.startBrk bs).erase p) ∧
      s'.totalFreeSize = add 32 s.totalFreeSize (p.2 + 16) ∧
      freeSize bs' = freeSize bs + (p.2 + 16) ∧
      (Tight s.memory s.startBrk bs → Tight s'.memory s'.startBrk bs') := by
  obtain ⟨e, xs, ys, size, k, he, rfl, rfl, hxs, hb, hys, hperm⟩ := hs.split hp
  have hge := hxs.le
  have hle : k + size ≤ e := hys.le
  have hlarge : 24 ≤ size := hb.large
  have hdvd : 8 ∣ size := hb.dvd
  have hend := he.le
  have hmax := he.region.maxAddr_lt
  have hadd : size - 16 + 16 = size := by omega
  have ht : Tagged s k size true := he.tagged hb.header hdvd hge (by omega)
  -- `total_free_size` is updated before the tags are written
  generalize hs₁ : ({ s with totalFreeSize := add 32 s.totalFreeSize size } : Heap) = s₁
  have he₁ : Ended s₁ e := by
    subst hs₁
    exact ⟨⟨he.region.pos, he.region.dvd, he.region.max, he.region.bound⟩, he.brk, he.le, he.ge,
      he.marker⟩
  have hstart₁ : s₁.startBrk = s.startBrk := by rw [← hs₁]
  have hmem₁ : s₁.memory = s.memory := by rw [← hs₁]
  have hmax₁ : s₁.maxAddr = s.maxAddr := by rw [← hs₁]
  have hput := putTags_eq he₁.region false (show s₁.startBrk ≤ k by omega) (show 8 ≤ size by omega)
    (show k + size + 8 ≤ s₁.maxAddr by omega) hdvd
  obtain ⟨hb', hfoot⟩ :=
    isBlock_free_tag (s₁.tag k (k + size - 8) size).memory s₁ k hdvd hlarge (by omega)
  have hmid : Tiles (s₁.tag k (k + size - 8) size).memory (s₁.tag k (k + size - 8) size).memory k
      [⟨size, false⟩] (k + size) :=
    ⟨hb', rfl⟩
  have hout : ∀ x, x < k ∨ k + size ≤ x →
      (s₁.tag k (k + size - 8) size).memory x = s.memory x :=
    fun x hx => (tag_memory_of_not_mem (by omega) (by omega)).trans (congrFun hmem₁ x)
  obtain ⟨htiles, halloc, hkeep⟩ := replace_blocks hxs hys
    (show (s₁.tag k (k + size - 8) size).startBrk = s.startBrk from hstart₁) hout hmid
  refine ⟨s₁.tag k (k + size - 8) size, _, ?_, hstart₁,
    ⟨e, he₁.tag (by omega) (by omega), htiles⟩, ?_, fun q hq i hi => ?_, ?_, ?_, fun htight => ?_⟩
  · have hnull : k + 8 ≠ 0 := by omega
    simp only [Heap.mmFree, if_neg hnull, ht.hdrp he.region, ht.getSize, bind, Except.bind, hs₁,
      pack_zero]
    exact hput
  · rw [halloc]
    exact hperm
  · exact hkeep q (hperm.mem_iff.2 hq) i hi
  · show s₁.totalFreeSize = _
    rw [← hs₁, hadd]
  · simp [freeSize_cons]
    omega
  · obtain ⟨htx, -, hty⟩ := (tight_append hxs).1 htight
    exact replace_tight hxs hys hstart₁ hout hmid htx hty ⟨hfoot, trivial⟩

/-- A payload of the list can be freed. -/
theorem Holds.free {p : ℕ × ℕ} (hs : Holds s l) (hp : p ∈ l) :
    ∃ s', s.mmFree p.1 = .ok s' ∧ s'.startBrk = s.startBrk ∧ Holds s' (l.erase p) ∧
      Keeps s s' (l.erase p) := by
  obtain ⟨bs, hbs, hperm⟩ := hs.blocks
  obtain ⟨s', bs', hrun, hbase, hbs', hperm', hkeep, -⟩ := hbs.free (hperm.mem_iff.2 hp)
  exact ⟨s', hrun, hbase, hbs'.holds (hperm'.trans (hperm.erase p)), hkeep.perm (hperm.erase p)⟩

/-! ## Writing to payloads -/

/-- Writing to one of the payloads keeps the blocks and the other payloads as they are. -/
theorem Blocks.write {p : ℕ × ℕ} (hs : Blocks s bs) (hp : p ∈ allocated s.startBrk bs)
    (hvars : SameVars s s') (hout : ∀ x, x < p.1 ∨ p.1 + p.2 ≤ x → s'.memory x = s.memory x) :
    Blocks s' bs ∧ Keeps s s' ((allocated s.startBrk bs).erase p) ∧
      (Tight s.memory s.startBrk bs → Tight s'.memory s'.startBrk bs) := by
  obtain ⟨e, xs, ys, size, k, he, rfl, rfl, hxs, hb, hys, hperm⟩ := hs.split hp
  have hlarge : 24 ≤ size := hb.large
  have hle : k + size ≤ e := hys.le
  -- the tags are outside the payload
  have hword : ∀ a, a + 4 ≤ k + 8 ∨ k + size - 8 ≤ a → word s'.memory a = word s.memory a :=
    fun a ha => word_congr fun i hi => hout _ (by simp only; omega)
  have hb' : IsBlock s'.memory s'.memory k ⟨size, true⟩ := by
    refine isBlock_used ?_ ?_ hb.dvd hlarge
    · rw [hword k (by omega)]
      exact hb.header
    · rw [hword _ (by omega)]
      exact hb.footer rfl
  have hmid : Tiles s'.memory s'.memory k [⟨size, true⟩] (k + size) := ⟨hb', rfl⟩
  have hout' : ∀ x, x < k ∨ k + size ≤ x → s'.memory x = s.memory x :=
    fun x hx => hout x (by simp only; omega)
  obtain ⟨htiles, -, hkeep⟩ := replace_blocks hxs hys hvars.startBrk hout' hmid
  have he' : Ended s' e := by
    have hmarker := (hword e (by omega)).trans he.marker
    rw [hvars]
    exact ⟨⟨he.region.pos, he.region.dvd, he.region.max, he.region.bound⟩, he.brk, he.le, he.ge,
      hmarker⟩
  refine ⟨⟨e, he', htiles⟩, fun q hq i hi => hkeep q (hperm.mem_iff.2 hq) i hi, fun htight => ?_⟩
  obtain ⟨htx, -, hty⟩ := (tight_append hxs).1 htight
  exact replace_tight hxs hys hvars.startBrk hout' hmid htx hty
    ⟨(hb'.footer rfl).trans hb'.header.symm, trivial⟩

/-- The owner of a payload may write to it. -/
theorem Holds.write {p : ℕ × ℕ} (hs : Holds s l) (hp : p ∈ l) (hvars : SameVars s s')
    (hout : ∀ x, x < p.1 ∨ p.1 + p.2 ≤ x → s'.memory x = s.memory x) :
    Holds s' l ∧ Keeps s s' (l.erase p) := by
  obtain ⟨bs, hbs, hperm⟩ := hs.blocks
  obtain ⟨hbs', hkeep, -⟩ := hbs.write (hperm.mem_iff.2 hp) hvars hout
  exact ⟨hbs'.holds (hvars.startBrk ▸ hperm), hkeep.perm (hperm.erase p)⟩

/-- The size in the header of a block in use. -/
theorem Blocks.getSize {p : ℕ × ℕ} (hs : Blocks s bs) (hp : p ∈ allocated s.startBrk bs) :
    s.getSize (hdrp p.1) = .ok (p.2 + 16) ∧ sub 32 (p.2 + 16) (2 * sizeTSize) = p.2 ∧
      p.1 ≠ 0 := by
  obtain ⟨e, xs, ys, size, k, he, rfl, rfl, hxs, hb, hys, -⟩ := hs.split hp
  have hlarge : 24 ≤ size := hb.large
  have hle : k + size ≤ e := hys.le
  have hend := he.le
  have hmax := he.region.maxAddr_lt
  have ht : Tagged s k size true := he.tagged hb.header hb.dvd hxs.le (by omega)
  have hadd : size - 16 + 16 = size := by omega
  refine ⟨?_, ?_, Nat.succ_ne_zero _⟩
  · rw [ht.hdrp he.region, ht.getSize]
    exact congrArg Except.ok hadd.symm
  · unfold sizeTSize
    exact sub_eq (by omega) (by omega)

/-- Payloads are aligned and inside the heap. -/
theorem Holds.bounds {p : ℕ × ℕ} (hs : Holds s l) (hp : p ∈ l) :
    s.startBrk + 8 ≤ p.1 ∧ p.1 + p.2 + 16 ≤ s.brk ∧ s.brk ≤ s.maxAddr ∧ 8 ∣ p.1 := by
  obtain ⟨e, bs, he, ht, hperm⟩ := hs
  obtain ⟨hge, hle, hdvd⟩ := ht.allocated_bounds (hperm.mem_iff.2 hp)
  have hbrk := he.brk
  have hmax := he.le
  have hstart := he.region.dvd
  omega

/-- Payloads are disjoint. -/
theorem Holds.disjoint (hs : Holds s l) :
    l.Pairwise fun p q => p.1 + p.2 < q.1 ∨ q.1 + q.2 < p.1 := by
  obtain ⟨e, bs, he, ht, hperm⟩ := hs
  refine (hperm.pairwise_iff fun {p q} hpq => hpq.symm).1 ?_
  exact ht.pairwise_allocated.imp fun hpq => .inl hpq

/-- No payload is in the list twice. -/
theorem Holds.nodup (hs : Holds s l) : l.Nodup := by
  refine hs.disjoint.imp fun {p q} hpq heq => ?_
  subst heq
  omega

/-- Moving a payload to a larger new block. -/
theorem Holds.move {p q : ℕ × ℕ} (hs : Holds s (q :: l)) (hp : p ∈ l) (hfit : p.2 ≤ q.2) :
    ∃ s', s.move q.1 p.1 p.2 = .ok (some q.1, s') ∧ s'.startBrk = s.startBrk ∧
      Holds s' (q :: l.erase p) ∧ (∀ i < p.2, s'.memory (q.1 + i) = s.memory (p.1 + i)) ∧
      Keeps s s' (l.erase p) := by
  have hqbounds := hs.bounds (List.mem_cons_self ..)
  have hpbounds := hs.bounds (List.mem_cons_of_mem q hp)
  -- the new block is none of the old ones
  have hpq : q ≠ p := by
    rintro rfl
    exact (List.nodup_cons.1 hs.nodup).1 hp
  have herase : (q :: l).erase p = q :: l.erase p :=
    List.erase_cons_tail (by simpa using hpq)
  have hcopy : s.memcpy q.1 p.1 p.2 =
      .ok { s with memory := s.memory.write q.1 (fun i => s.memory (p.1 + i)) p.2 } :=
    if_pos (.inr (by omega))
  generalize hs₁ :
    ({ s with memory := s.memory.write q.1 (fun i => s.memory (p.1 + i)) p.2 } : Heap) =
    s₁ at hcopy
  have hmem₁ : s₁.memory = s.memory.write q.1 (fun i => s.memory (p.1 + i)) p.2 := by rw [← hs₁]
  have hvars : SameVars s s₁ := by
    subst hs₁
    rfl
  -- copying writes to the new payload only
  obtain ⟨hs₁', hkeep₁⟩ := hs.write (List.mem_cons_self ..) hvars fun x hx => by
    rw [hmem₁]
    exact Memory.write_of_not_mem (by omega)
  rw [List.erase_cons_head] at hkeep₁
  obtain ⟨s₂, hfree, hbase, hs₂, hkeep₂⟩ := hs₁'.free (List.mem_cons_of_mem q hp)
  rw [herase] at hs₂ hkeep₂
  refine ⟨s₂, ?_, hbase.trans hvars.startBrk, hs₂, fun i hi => ?_, fun r hr i hi => ?_⟩
  · simp only [Heap.move, hcopy, hfree, bind, Except.bind]
  · rw [hkeep₂ q (List.mem_cons_self ..) i (by omega), hmem₁]
    exact Memory.write_of_mem hi
  · rw [hkeep₂ r (List.mem_cons_of_mem q hr) i hi]
    exact hkeep₁ r (List.mem_of_mem_erase hr) i hi

/-! ## `mm_realloc` -/

/-- The block `p` has been exchanged for one of `newSize` bytes, which starts with the same
bytes. -/
def Reallocated (s : Heap) (l : List (ℕ × ℕ)) (p : ℕ × ℕ) (newSize q : ℕ) (s' : Heap) : Prop :=
  s'.startBrk = s.startBrk ∧
    (∃ n, newSize ≤ n + 16 ∧ Holds s' ((q, n) :: l.erase p)) ∧
    (∀ i < p.2, i + 16 < newSize → s'.memory (q + i) = s.memory (p.1 + i)) ∧
    Keeps s s' (l.erase p)

/-- The common end of the paths that move the block. -/
theorem Acquired.move {s₁ : Heap} {bs : List Block} {p : ℕ × ℕ} {q : ℕ}
    (hacq : Acquired s.memory s (allocated s.startBrk bs) newSize q s₁)
    (hperm : (allocated s.startBrk bs).Perm l) (hp : p ∈ l) (hlt : p.2 + 16 < newSize) :
    ∃ s', s₁.move q p.1 p.2 = .ok (some q, s') ∧ Reallocated s l p newSize q s' := by
  obtain ⟨hbase, ⟨n, hn, hs₁⟩, hkeep⟩ := hacq
  have hp' := hperm.mem_iff.2 hp
  obtain ⟨s', hrun, hbase', ⟨e, bs', he, ht, hl⟩, hbytes, hkeep'⟩ := hs₁.move hp' (by omega)
  have herase := hperm.erase p
  refine ⟨s', hrun, hbase'.trans hbase, ⟨n, hn, e, bs', he, ht, hl.trans (herase.cons _)⟩,
    fun i hi _ => ?_, fun r hr i hi => ?_⟩
  · rw [hbytes i hi]
    exact hkeep p hp' i hi
  · have hr' := herase.mem_iff.2 hr
    rw [hkeep' r hr' i hi]
    exact hkeep r (List.mem_of_mem_erase hr') i hi

/-- Shrinking a block in place. Unless the rest is split off, the blocks remain as they are. -/
theorem Blocks.shrink {p : ℕ × ℕ} (hs : Blocks s bs) (hp : p ∈ allocated s.startBrk bs)
    (hdvd : 8 ∣ newSize) (hlarge : 24 ≤ newSize) (hfit : newSize ≤ p.2 + 16) :
    ∃ s' bs' n, s.place p.1 newSize = .ok s' ∧ SameVars s s' ∧ Blocks s' bs' ∧
      newSize ≤ n + 16 ∧
      (allocated s'.startBrk bs').Perm ((p.1, n) :: (allocated s.startBrk bs).erase p) ∧
      (∀ i < p.2, i + 16 < newSize → s'.memory (p.1 + i) = s.memory (p.1 + i)) ∧
      Keeps s s' ((allocated s.startBrk bs).erase p) ∧
      (p.2 ≤ newSize → freeSize bs' = freeSize bs) ∧
      (Tight s.memory s.startBrk bs → Tight s'.memory s'.startBrk bs') := by
  obtain ⟨e, xs, ys, size, k, he, rfl, rfl, hxs, hb, hys, hperm⟩ := hs.split hp
  have hblarge : 24 ≤ size := hb.large
  have ht : Tagged s k size true := he.tagged hb.header hb.dvd hxs.le (by have := hys.le; omega)
  obtain ⟨s', size', rest, hrun, hplaced⟩ :=
    place_spec he ht hys.le hdvd hlarge (by simp only at hfit; omega)
  have hsize' := hplaced.fits
  have hbase := hplaced.startBrk
  have hout : ∀ x, x < k ∨ k + size ≤ x → s'.memory x = s.memory x :=
    fun x hx => hplaced.memory x (by omega)
  obtain ⟨htiles, halloc, hkeep⟩ := replace_blocks hxs hys hbase hout hplaced.tiles
  rw [hplaced.allocated_eq] at halloc
  -- the bytes of the payload that remain are not touched
  refine ⟨s', _, size' - 16, hrun, hplaced.vars, ⟨e, hplaced.ended, htiles⟩, by omega, ?_,
    fun i _ hi => hplaced.memory _ (by simp only; omega),
    fun q hq i hi => hkeep q (hperm.mem_iff.2 hq) i hi, fun hle => ?_, fun hall => ?_⟩
  · rw [halloc]
    exact List.perm_middle.trans (hperm.cons _)
  · rcases hplaced.rest_eq with rfl | ⟨hsplit, -⟩
    · simp [freeSize_cons]
    · simp only at hle
      omega
  · obtain ⟨htx, -, hty⟩ := (tight_append hxs).1 hall
    exact replace_tight hxs hys hbase hout hplaced.tiles htx hty hplaced.tight

/-- `mm_realloc` of a block in use, unless `mem_sbrk` fails. -/
theorem mmRealloc_spec {p : ℕ × ℕ} (hs : Holds s l) (hp : p ∈ l) (hpos : 1 ≤ size)
    (hsize : size ≤ 2 ^ 32 - 24) :
    (∃ q s', s.mmRealloc p.1 size = .ok (some q, s') ∧
      Reallocated s l p (Heap.blockSize size) q s') ∨
    (s.maxAddr < s.brk + Heap.blockSize size ∧ ∃ fault, s.mmRealloc p.1 size = .error fault) := by
  obtain ⟨hdvd, hlarge, -⟩ := blockSize_spec hpos hsize
  obtain ⟨bs, hbs, hperm⟩ := hs.blocks
  have hp' := hperm.mem_iff.2 hp
  obtain ⟨hold, hdata, hnull⟩ := hbs.getSize hp'
  have hne : size ≠ 0 := by omega
  rcases Nat.lt_trichotomy (p.2 + 16) (Heap.blockSize size) with hlt | hsame | hshrink
  · -- the block moves, to a place found as in `mm_malloc`
    obtain ⟨e, he, ht⟩ := hbs
    rcases exists_obtains he ht hdvd hlarge (s.totalFreeSize > Heap.blockSize size) with
      ⟨q, s₁, hobtains⟩ | ⟨hfull, s₁, hnone, hR⟩
    · have hacq := (hobtains.spec he ht hdvd hlarge).1
      obtain ⟨s', hmove, hre⟩ := hacq.move hperm hp hlt
      refine .inl ⟨q, s', ?_, hre⟩
      rw [hobtains.mmRealloc_eq hnull hne hold hlt hacq.ne_zero, hdata, hmove]
    · have hvars := hnone.passed.sameVars
      have hfull₁ : s₁.maxAddr < s₁.brk + Heap.blockSize size := by
        rw [hvars]
        exact hfull
      obtain ⟨hsbrk, hext⟩ := extend_fails hR hfull₁
      exact .inr ⟨hfull, _, hnone.mmRealloc_eq hnull hne hold hlt (by decide) hsbrk hext⟩
  · -- a block of the right size is kept
    refine .inl ⟨p.1, s, ?_, rfl, ⟨p.2, by omega, hs.perm (List.perm_cons_erase hp).symm⟩,
      fun i _ _ => rfl, fun _ _ _ _ => rfl⟩
    rw [mmRealloc_eq hne]
    simp only [Heap.reallocTail, if_neg hnull, hold, dataSize_eq hold, if_pos hsame, bind,
      Except.bind]
  · -- a larger one is cut in place
    obtain ⟨s', bs', n, hrun, hvars, hbs', hn, hperm', hbytes, hkeep, -⟩ :=
      hbs.shrink hp' hdvd hlarge (by omega)
    have herase := hperm.erase p
    refine .inl ⟨p.1, s', ?_, hvars.startBrk,
      ⟨n, hn, hbs'.holds (hperm'.trans (herase.cons _))⟩, hbytes, hkeep.perm herase⟩
    have hsame : ¬ p.2 + 16 = Heap.blockSize size := by omega
    rw [mmRealloc_eq hne]
    simp only [Heap.reallocTail, if_neg hnull, hold, dataSize_eq hold, if_neg hsame,
      if_pos hshrink, hrun, bind, Except.bind]

end CppLearn.MallocLab

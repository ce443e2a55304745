import CppLearn.Buddy.Correctness

/-!
# The buddy allocator forgets its history

Two histories of calls that leave the same blocks live leave the same table: the live blocks
determine the tree of blocks, and the tree determines every number of the table, also the numbers
below blocks in use.

A `History` records the live blocks with their levels, which is enough to tell the allocator
(`History.eq_of_live`). So the answers to further calls, a block that is given back, and the order
of frees do not depend on anything else (`history_independent`).
-/

namespace CppLearn.Buddy

open BoundedLoop Unsigned HeapOrder BuddyTree

variable {a a' a₀ : Allocator} {unit H size addr level : ℕ} {t : SplitTree}
  {live live' : List (ℕ × ℕ)}

/-- The level on which `allocate` serves a request, and on which `deallocate` looks for it. -/
def Allocator.requestLevel (a : Allocator) (size : ℕ) : Except Fault ℕ := do
  let allocateBlockSize ← roundedUpToMinBlockSize size a.minBlockSize
  computeLevel a.poolSize allocateBlockSize

/-- The states after sequences of calls. The live blocks are listed with their addresses and
levels; a block may be given back with any size of its level. -/
inductive History (a₀ : Allocator) : Allocator → List (ℕ × ℕ) → Prop
  | init : History a₀ a₀ []
  | allocate_null {a a' : Allocator} {live : List (ℕ × ℕ)} {size : ℕ} : History a₀ a live →
      a.allocate size = .ok (none, a') → History a₀ a' live
  | allocate {a a' : Allocator} {live : List (ℕ × ℕ)} {size addr level : ℕ} : History a₀ a live →
      a.allocate size = .ok (some addr, a') → a.requestLevel size = .ok level →
      History a₀ a' ((addr, level) :: live)
  | deallocate {a a' : Allocator} {live : List (ℕ × ℕ)} {size addr level : ℕ} :
      History a₀ a live → a.requestLevel size = .ok level → (addr, level) ∈ live →
      a.deallocate addr size = .ok a' → History a₀ a' (live.erase (addr, level))

/-- A call of a public operation. -/
inductive Call where
  | allocate (size : ℕ)
  | deallocate (addr size : ℕ)

/-- The answer of a call: the pointer that `allocate` returns. -/
def Allocator.call (a : Allocator) : Call → Except Fault (Option ℕ × Allocator)
  | .allocate size => a.allocate size
  | .deallocate addr size => do
    let a ← a.deallocate addr size
    .ok (none, a)

/-- The answers of a sequence of calls. -/
def Allocator.run (a : Allocator) : List Call → Except Fault (List (Option ℕ) × Allocator)
  | [] => .ok ([], a)
  | c :: cs => do
    let (answer, a) ← a.call c
    let (answers, a) ← a.run cs
    .ok (answer :: answers, a)

/-! ## Levels of requests -/

/-- Sizes that `rounded_up` cannot round are not served. -/
theorem le_of_allocate {r : Option ℕ × Allocator} (h : a.allocate size = .ok r) :
    size ≤ 2 ^ 63 := by
  by_contra hlt
  have hround : roundedUp size = .error .diverged := roundedUp_diverges (Nat.lt_of_not_le hlt)
  simp [Allocator.allocate, roundedUpToMinBlockSize, hround, bind, Except.bind] at h

/-- The size of the block for a request follows from its level. -/
theorem blockLength_eq (a : Allocator) (size : ℕ) :
    a.blockLength size = (a.requestLevel size).bind fun level => .ok (a.poolSize / 2 ^ level) := by
  simp only [Allocator.blockLength, Allocator.requestLevel, bind, Except.bind]
  split <;> rfl

/-- `deallocate` depends on the level of the size only. -/
theorem deallocate_congr {size' : ℕ} (h : a.requestLevel size = .ok level)
    (h' : a.requestLevel size' = .ok level) (addr : ℕ) :
    a.deallocate addr size' = a.deallocate addr size := by
  simp only [Allocator.requestLevel, bind] at h h'
  obtain ⟨b, hb, hlevel⟩ := bind_eq_ok.1 h
  obtain ⟨b', hb', hlevel'⟩ := bind_eq_ok.1 h'
  simp only [Allocator.deallocate, hb, hb', hlevel, hlevel', bind, Except.bind]

/-- The level does not depend on the pool. -/
theorem requestLevel_of_sameFields (h : SameFields a a') (size : ℕ) :
    a'.requestLevel size = a.requestLevel size := by
  rw [h]
  rfl

/-- A live allocation by address and level. -/
def Allocator.liveEntry (a : Allocator) (x : ℕ × ℕ) : Except Fault (ℕ × ℕ) :=
  (a.requestLevel x.2).bind fun level => .ok (x.1, level)

/-- A live block, with the level of its request instead of the size. -/
theorem liveEntry_eq_ok {x y : ℕ × ℕ} :
    a.liveEntry x = .ok y ↔ x.1 = y.1 ∧ a.requestLevel x.2 = .ok y.2 := by
  unfold Allocator.liveEntry
  rw [bind_eq_ok]
  constructor
  · rintro ⟨level, hlevel, hy⟩
    obtain rfl := Except.ok.inj hy
    exact ⟨rfl, hlevel⟩
  · rintro ⟨haddr, hlevel⟩
    exact ⟨y.2, hlevel, by rw [haddr]⟩

/-- This does not depend on the pool either. -/
theorem liveEntry_of_sameFields (h : SameFields a a') : a'.liveEntry = a.liveEntry := by
  funext x
  simp only [Allocator.liveEntry, requestLevel_of_sameFields h]

/-! ## Histories and trees -/

/-- The live blocks of a history are those of some requests. -/
def Serves (a : Allocator) (live reqs : List (ℕ × ℕ)) : Prop :=
  (live.map Except.ok).Perm (reqs.map a.liveEntry)

/-- So the requests are served by any pool of the same geometry, -/
theorem Serves.of_sameFields {reqs : List (ℕ × ℕ)} (h : Serves a live reqs)
    (hs : SameFields a a') : Serves a' live reqs := by
  unfold Serves at *
  rwa [liveEntry_of_sameFields hs]

/-- and one more request can be. -/
theorem Serves.cons {reqs : List (ℕ × ℕ)} (h : Serves a live reqs)
    (hlevel : a.requestLevel size = .ok level) :
    Serves a ((addr, level) :: live) ((addr, size) :: reqs) := by
  have hentry : a.liveEntry (addr, size) = .ok (addr, level) := liveEntry_eq_ok.2 ⟨rfl, hlevel⟩
  unfold Serves at *
  rw [List.map_cons, List.map_cons, hentry]
  exact h.cons _

/-- A live block has a request, and they are removed together. -/
theorem Serves.erase {reqs : List (ℕ × ℕ)} {y : ℕ × ℕ} (h : Serves a live reqs)
    (hy : y ∈ live) :
    ∃ x ∈ reqs, a.liveEntry x = .ok y ∧ Serves a (live.erase y) (reqs.erase x) := by
  unfold Serves at *
  obtain ⟨x, hx, hxy⟩ := List.mem_map.1 (h.mem_iff.1 (List.mem_map_of_mem hy))
  refine ⟨x, hx, hxy, ?_⟩
  have hl := (List.perm_cons_erase hy).map (Except.ok (ε := Fault))
  have hr := (List.perm_cons_erase hx).map a.liveEntry
  rw [List.map_cons] at hl hr
  rw [hxy] at hr
  exact (hl.symm.trans (h.trans hr)).cons_inv

/-- Every history leads to a tracked state. -/
theorem History.tracks (h : History a₀ a live) (h₀ : Tracks a₀ unit H .free []) :
    Evolves a₀ a ∧ ∃ t reqs, Tracks a unit H t reqs ∧ Serves a live reqs := by
  induction h with
  | init => exact ⟨.refl _, .free, [], h₀, .refl _⟩
  | allocate_null _ hrun ih =>
    obtain ⟨hevolves, t, reqs, ht, hs⟩ := ih
    obtain ⟨-, rfl⟩ | ⟨_, _, hr, -⟩ := ht.allocate_inv (le_of_allocate hrun) hrun
    · exact ⟨hevolves, t, reqs, ht, hs⟩
    · cases hr
  | allocate _ hrun hlevel ih =>
    obtain ⟨hevolves, t, reqs, ht, hs⟩ := ih
    obtain ⟨hr, -⟩ | ⟨_, t', hr, hevolves', ht'⟩ := ht.allocate_inv (le_of_allocate hrun) hrun
    · cases hr
    · obtain rfl := Option.some.inj hr
      exact ⟨hevolves.trans hevolves', t', _, ht', (hs.cons hlevel).of_sameFields hevolves'.fields⟩
  | deallocate _ hlevel hmem hrun ih =>
    obtain ⟨hevolves, t, reqs, ht, hs⟩ := ih
    -- the block is given back with the size of its request
    obtain ⟨x, hx, hxy, hs'⟩ := hs.erase hmem
    obtain ⟨haddr, hxlevel⟩ := liveEntry_eq_ok.1 hxy
    obtain ⟨a', t', hrun', hevolves', ht'⟩ := ht.deallocate hx
    rw [deallocate_congr hlevel hxlevel, haddr] at hrun'
    obtain rfl := Except.ok.inj (hrun'.symm.trans hrun)
    exact ⟨hevolves.trans hevolves', t', _, ht', hs'.of_sameFields hevolves'.fields⟩

/-- The block of a request is that of its level. -/
theorem IsBlock.of_liveEntry {x y b : ℕ × ℕ} (hx : IsBlock a x b) (hxy : a.liveEntry x = .ok y) :
    y.1 = a.poolAddr + b.1 ∧ a.poolSize / 2 ^ y.2 = b.2 := by
  obtain ⟨haddr, hlevel⟩ := liveEntry_eq_ok.1 hxy
  have hlen := hx.length
  rw [blockLength_eq, hlevel] at hlen
  exact ⟨haddr.symm.trans hx.addr, Except.ok.inj hlen⟩

/-- A live block is a block in use. -/
theorem Tracks.exists_block {reqs : List (ℕ × ℕ)} {y : ℕ × ℕ} (h : Tracks a unit H t reqs)
    (hs : Serves a live reqs) (hy : y ∈ live) :
    ∃ b ∈ t.blocks unit 0 H, y.1 = a.poolAddr + b.1 ∧ a.poolSize / 2 ^ y.2 = b.2 := by
  obtain ⟨x, hx, hxy⟩ := List.mem_map.1 (hs.mem_iff.1 (List.mem_map_of_mem hy))
  obtain ⟨b, hb, hxb⟩ := h.blocks.exists_of_mem hx
  exact ⟨b, hb, hxb.of_liveEntry hxy⟩

/-- The blocks in use are given by the live addresses and levels. -/
theorem Tracks.mem_blocks_iff {reqs : List (ℕ × ℕ)} (h : Tracks a unit H t reqs)
    (hs : Serves a live reqs) (b : ℕ × ℕ) :
    b ∈ t.blocks unit 0 H ↔
      ∃ y ∈ live, y.1 = a.poolAddr + b.1 ∧ a.poolSize / 2 ^ y.2 = b.2 := by
  constructor
  · intro hb
    obtain ⟨x, hx, hxb⟩ := h.blocks.exists_of_mem_right hb
    obtain ⟨y, hy, hxy⟩ := List.mem_map.1 (hs.mem_iff.2 (List.mem_map_of_mem hx))
    exact ⟨y, hy, hxb.of_liveEntry hxy.symm⟩
  · rintro ⟨y, hy, haddr, hlen⟩
    obtain ⟨b', hb', haddr', hlen'⟩ := h.exists_block hs hy
    have hbb : b = b' := Prod.ext (by omega) (by omega)
    rwa [hbb]

/-- The live blocks determine the allocator. -/
theorem History.eq_of_live (h : History a₀ a live) (h' : History a₀ a' live')
    (h₀ : Tracks a₀ unit H .free []) (hlive : ∀ y, y ∈ live ↔ y ∈ live') : a' = a := by
  obtain ⟨hevolves, t, reqs, ht, hs⟩ := h.tracks h₀
  obtain ⟨hevolves', t', reqs', ht', hs'⟩ := h'.tracks h₀
  have haddr : a'.poolAddr = a.poolAddr := by rw [hevolves.fields, hevolves'.fields]
  have hsize : a'.poolSize = a.poolSize := by rw [hevolves.fields, hevolves'.fields]
  obtain rfl : t = t' := by
    refine SplitTree.eq_of_blocks ht.geometry.unit_pos ht.wellFormed ht'.wellFormed
      (Nat.dvd_zero _) fun b => ?_
    rw [ht.mem_blocks_iff hs, ht'.mem_blocks_iff hs', haddr, hsize]
    simp only [hlive]
  exact ht.eq_of_tree ht' hevolves hevolves'

/-! ## Giving blocks back -/

/-- A call that returns has found a level. -/
theorem exists_requestLevel {r : Option ℕ × Allocator} (h : a.allocate size = .ok r) :
    ∃ level, a.requestLevel size = .ok level := by
  simp only [Allocator.allocate, bind] at h
  obtain ⟨b, hb, h⟩ := bind_eq_ok.1 h
  obtain ⟨level, hlevel, -⟩ := bind_eq_ok.1 h
  refine ⟨level, ?_⟩
  simp only [Allocator.requestLevel, hb, bind, Except.bind]
  exact hlevel

/-- A live block can be given back. -/
theorem History.exists_deallocate (h : History a₀ a live) (h₀ : Tracks a₀ unit H .free [])
    (hlevel : a.requestLevel size = .ok level) (hmem : (addr, level) ∈ live) :
    ∃ a', a.deallocate addr size = .ok a' ∧ SameFields a a' := by
  obtain ⟨-, t, reqs, ht, hs⟩ := h.tracks h₀
  obtain ⟨x, hx, hxy, -⟩ := hs.erase hmem
  obtain ⟨haddr, hxlevel⟩ := liveEntry_eq_ok.1 hxy
  obtain ⟨a', t', hrun, hevolves, -⟩ := ht.deallocate hx
  rw [deallocate_congr hlevel hxlevel, haddr] at hrun
  exact ⟨a', hrun, hevolves.fields⟩

/-- The call that gives an allocation back. -/
def Call.free (x : ℕ × ℕ) : Call := .deallocate x.1 x.2

/-- Some of the live blocks given back one after another. -/
theorem History.free_all {xs : List (ℕ × ℕ)} (h : History a₀ a live)
    (h₀ : Tracks a₀ unit H .free [])
    (hsub : (xs.map a.liveEntry).Subperm (live.map Except.ok)) :
    ∃ a' live', a.run (xs.map Call.free) = .ok (xs.map fun _ => none, a') ∧ History a₀ a' live' ∧
      (live'.map Except.ok ++ xs.map a.liveEntry).Perm (live.map Except.ok) := by
  induction xs generalizing a live with
  | nil => exact ⟨a, live, rfl, h, by simp⟩
  | cons x xs ih =>
    obtain ⟨y, hy, hxy⟩ := List.mem_map.1 (hsub.subset (List.mem_cons_self ..))
    obtain ⟨haddr, hlevel⟩ := liveEntry_eq_ok.1 hxy.symm
    have hmem : (x.1, y.2) ∈ live := by rwa [haddr]
    obtain ⟨a₁, hrun, hsame⟩ := h.exists_deallocate h₀ hlevel hmem
    -- the other blocks are live after the first one was given back
    have hperm := (List.perm_cons_erase hmem).map (Except.ok (ε := Fault))
    have hhead : a.liveEntry x = .ok (x.1, y.2) := liveEntry_eq_ok.2 ⟨rfl, hlevel⟩
    rw [List.map_cons, hhead, hperm.subperm_left, List.map_cons, List.subperm_cons] at hsub
    obtain ⟨a', live', hruns, hhist, hlive⟩ := ih (h.deallocate hlevel hmem hrun)
      (by rwa [liveEntry_of_sameFields hsame])
    rw [liveEntry_of_sameFields hsame] at hlive
    refine ⟨a', live', ?_, hhist, ?_⟩
    · simp only [List.map_cons, Allocator.run, Call.free, Allocator.call, hrun, bind, Except.bind]
      rw [hruns]
    · rw [List.map_cons, hhead]
      exact List.perm_middle.trans ((hlive.cons _).trans hperm.symm)

/-- For a pool size that is a positive multiple of `2 ^ (numOrder - 1)`: two histories with the same
live blocks answer all further calls identically; `deallocate` of a block that was just allocated
restores the allocator; and live blocks may be given back in any order. -/
theorem history_independent (poolAddr poolSize numOrder : ℕ) (horder : 1 ≤ numOrder)
    (hpos : 0 < poolSize) (hdvd : 2 ^ (numOrder - 1) ∣ poolSize)
    (hregion : PoolRegion poolAddr poolSize) (a₀ : Allocator)
    (hcreate : Allocator.create poolAddr poolSize numOrder = .ok a₀) :
    (∀ a a' live live', History a₀ a live → History a₀ a' live' → (∀ y, y ∈ live ↔ y ∈ live') →
      ∀ calls, a.run calls = a'.run calls) ∧
    (∀ a live size addr a', History a₀ a live → a.allocate size = .ok (some addr, a') →
      a'.deallocate addr size = .ok a) ∧
    ∀ a live (xs ys : List (ℕ × ℕ)), History a₀ a live →
      (xs.map a.liveEntry).Subperm (live.map Except.ok) →
      xs.Perm ys → ∃ answers a', a.run (xs.map Call.free) = .ok (answers, a') ∧
        a.run (ys.map Call.free) = .ok (answers, a') := by
  obtain ⟨h₀, -, -⟩ := tracks_create horder hpos hdvd hregion hcreate
  refine ⟨?_, ?_, ?_⟩
  · intro a a' live live' h h' hlive calls
    rw [h.eq_of_live h' h₀ hlive]
  · intro a live size addr a' h hrun
    obtain ⟨level, hlevel⟩ := exists_requestLevel hrun
    have h₁ := h.allocate hrun hlevel
    have hfields : a'.requestLevel size = .ok level := by
      obtain ⟨hevolves, -⟩ := h.tracks h₀
      obtain ⟨hevolves', -⟩ := h₁.tracks h₀
      rw [requestLevel_of_sameFields hevolves'.fields,
        ← requestLevel_of_sameFields hevolves.fields, hlevel]
    obtain ⟨a'', hfree, -⟩ := h₁.exists_deallocate h₀ hfields (List.mem_cons_self ..)
    -- the live blocks are those from before the call
    have h₂ := h₁.deallocate hfields (List.mem_cons_self ..) hfree
    rw [List.erase_cons_head] at h₂
    rw [hfree, h.eq_of_live h₂ h₀ fun y => Iff.rfl]
  · intro a live xs ys h hsub hperm
    obtain ⟨b, live₁, hrun, hhist, hlive⟩ := h.free_all h₀ hsub
    have hentries := hperm.map a.liveEntry
    obtain ⟨c, live₂, hrun', hhist', hlive'⟩ :=
      h.free_all h₀ (hentries.subperm_right.1 hsub)
    refine ⟨_, b, hrun, ?_⟩
    have hsame : (live₁.map (Except.ok (ε := Fault))).Perm (live₂.map Except.ok) := by
      have hall := hlive.trans hlive'.symm
      refine (List.perm_append_right_iff (xs.map a.liveEntry)).1 (hall.trans ?_)
      exact hentries.symm.append_left _
    have hmem : ∀ y, y ∈ live₁ ↔ y ∈ live₂ := by
      intro y
      have := hsame.mem_iff (a := Except.ok y)
      simpa using this
    rw [hrun', hhist.eq_of_live hhist' h₀ hmem]
    -- the answers of frees are all alike
    simp [List.map_const', hperm.length_eq]

/-- In a pool of 64 bytes, blocks for one byte and for 20 bytes are allocated. A third block that is
allocated and given back makes no difference to later answers, the second block can be taken back,
and the two blocks may be given back in any order. -/
theorem history_independent_pair :
    ∃ a₀ a₁ a a₂ a', Allocator.create 4096 64 3 = .ok a₀ ∧ a₀.allocate 1 = .ok (some 4096, a₁) ∧
      a₁.allocate 20 = .ok (some 4128, a) ∧ a.allocate 7 = .ok (some 4112, a₂) ∧
      a₂.deallocate 4112 7 = .ok a' ∧ (∀ calls, a.run calls = a'.run calls) ∧
      a.deallocate 4128 20 = .ok a₁ ∧
      ∃ answers b, a.run [.deallocate 4096 1, .deallocate 4128 20] = .ok (answers, b) ∧
        a.run [.deallocate 4128 20, .deallocate 4096 1] = .ok (answers, b) := by
  -- the calls are evaluated once, and their results name the states
  have heval : (do
      let a₀ ← Allocator.create 4096 64 3
      let (r₁, a₁) ← a₀.allocate 1
      let (r, a) ← a₁.allocate 20
      let (r₂, a₂) ← a.allocate 7
      let a' ← a₂.deallocate 4112 7
      let l₁ ← a₀.requestLevel 1
      let l ← a₁.requestLevel 20
      let l₂ ← a.requestLevel 7
      let l₃ ← a₂.requestLevel 7
      let m₁ ← a.requestLevel 1
      let m ← a.requestLevel 20
      pure ([r₁, r, r₂], [l₁, l, l₂, l₃, m₁, m])).toOption =
        some ([some 4096, some 4128, some 4112], [2, 1, 2, 2, 2, 1]) := by
    decide +kernel
  simp only [bind, toOption_bind_eq_some, Prod.exists] at heval
  obtain ⟨a₀, hcreate, r₁, a₁, h₁, r, a, h₂, r₂, a₂, h₃, a', h₄, l₁, hl₁, l, hl, l₂, hl₂, l₃, hl₃,
    m₁, hm₁, m, hm, heq⟩ := heval
  obtain ⟨⟨rfl, rfl, rfl⟩, rfl, rfl, rfl, rfl, rfl, rfl⟩ :
      (r₁ = some 4096 ∧ r = some 4128 ∧ r₂ = some 4112) ∧
        l₁ = 2 ∧ l = 1 ∧ l₂ = 2 ∧ l₃ = 2 ∧ m₁ = 2 ∧ m = 1 := by
    simpa [Except.toOption, pure, Except.pure] using heq
  have hone : History a₀ a₁ [(4096, 2)] := .allocate .init h₁ hl₁
  have htwo : History a₀ a [(4128, 1), (4096, 2)] := .allocate hone h₂ hl
  have hthree : History a₀ a' [(4128, 1), (4096, 2)] :=
    .deallocate (.allocate htwo h₃ hl₂) hl₃ (List.mem_cons_self ..) h₄
  obtain ⟨hsame, hback, horder⟩ := history_independent 4096 64 3 (by decide) (by decide)
    (by decide) ⟨by decide, by decide⟩ a₀ hcreate
  -- the two blocks are released in either order
  have hentries : ([(4096, 1), (4128, 20)].map a.liveEntry).Subperm
      ([((4128, 1) : ℕ × ℕ), (4096, 2)].map Except.ok) := by
    have hfirst : a.liveEntry (4096, 1) = .ok (4096, 2) := liveEntry_eq_ok.2 ⟨rfl, hm₁⟩
    have hsecond : a.liveEntry (4128, 20) = .ok (4128, 1) := liveEntry_eq_ok.2 ⟨rfl, hm⟩
    simp only [List.map_cons, List.map_nil, hfirst, hsecond]
    exact (List.Perm.swap ..).subperm
  exact ⟨a₀, a₁, a, a₂, a', hcreate, h₁, h₂, h₃, h₄,
    hsame a a' _ _ htwo hthree (fun _ => Iff.rfl), hback a₁ _ 20 4128 a hone h₂,
    horder a _ _ [(4128, 20), (4096, 1)] htwo hentries (List.Perm.swap ..)⟩

end CppLearn.Buddy

import CppLearn.Buddy.Correctness

/-!
# When the buddy allocator refuses a request

The number at the root of the table is the size of the largest free block, whatever the history of
the allocator. So `allocate` returns `nullptr` only if the request is larger than the pool, or if
every block of its level overlaps a live block.

`LiveOverlap` is the second case. The criterion is proved for a tracked state first
(`Tracks.allocate_null_iff`), and then for all histories (`allocate_refused_iff`).
-/

namespace CppLearn.Buddy

open BoundedLoop BuddyTree

variable {a : Allocator} {unit H size b L : ℕ} {t : SplitTree} {live : List (ℕ × ℕ)}

/-- The block of size `len` at `addr` overlaps a live block. -/
def LiveOverlap (a : Allocator) (live : List (ℕ × ℕ)) (addr len : ℕ) : Prop :=
  ∃ x ∈ live, ∃ lx, a.blockLength x.2 = .ok lx ∧ SplitTree.Overlaps (addr, len) (x.1, lx)

/-- Live blocks are the blocks in use of the tree. -/
theorem Tracks.liveOverlap_iff (h : Tracks a unit H t live) (o len : ℕ) :
    LiveOverlap a live (a.poolAddr + o) len ↔
      ∃ blk ∈ t.blocks unit 0 H, SplitTree.Overlaps (o, len) blk := by
  constructor
  · -- the length of the block of a request is a function of its size
    rintro ⟨x, hx, lx, hlx, hover⟩
    obtain ⟨blk, hblk, hxb⟩ := h.blocks.exists_of_mem hx
    obtain rfl := Except.ok.inj (hlx.symm.trans hxb.length)
    refine ⟨blk, hblk, ?_⟩
    simp only [SplitTree.Overlaps, hxb.addr] at hover ⊢
    omega
  · rintro ⟨blk, hblk, hover⟩
    obtain ⟨x, hx, hxb⟩ := h.blocks.exists_of_mem_right hblk
    refine ⟨x, hx, blk.2, hxb.length, ?_⟩
    simp only [SplitTree.Overlaps, hxb.addr] at hover ⊢
    omega

/-- A request of the size `b` on level `L` is refused if and only if it is larger than the pool or
every block of its level overlaps a live block. -/
theorem Tracks.allocate_null_iff (h : Tracks a unit H t live)
    (hround : roundedUpToMinBlockSize size a.minBlockSize = .ok b)
    (hlevel : computeLevel a.poolSize b = .ok L) (hb : 0 < b) (hL : L ≤ H)
    (hfit : b ≤ unit * 2 ^ H → b ≤ unit * 2 ^ (H - L))
    (hlast : L < H → unit * 2 ^ (H - L - 1) < b) :
    (∃ a', a.allocate size = .ok (none, a')) ↔ a.poolSize < b ∨
      ∀ k < 2 ^ L, LiveOverlap a live (a.poolAddr + k * (a.poolSize / 2 ^ L))
        (a.poolSize / 2 ^ L) := by
  have hlen : a.poolSize / 2 ^ L = unit * 2 ^ (H - L) := by
    rw [h.geometry.size]
    exact div_pow_eq unit hL
  rw [hlen]
  constructor
  · rintro ⟨a', hnull⟩
    by_contra hcon
    obtain ⟨hsize, hfree⟩ := not_or.1 hcon
    push Not at hfree
    obtain ⟨k, hk, hfree⟩ := hfree
    rw [h.geometry.size, Nat.not_lt] at hsize
    -- the block that overlaps no live one is free, and large enough
    obtain ⟨p, rfl, hp⟩ := SplitTree.exists_offset unit hL hk
    rw [← hp, h.liveOverlap_iff] at hfree
    rcases SplitTree.free_or_overlaps 0 h.geometry.unit_pos h.wellFormed (Nat.dvd_zero _) hL with
      ⟨hopen, hsub⟩ | hover
    · have hv := (hfit hsize).trans (SplitTree.le_value_of_free h.wellFormed hL hopen hsub)
      obtain ⟨_, _, -, -, -, hrun, -⟩ := allocate_take h.geometry h.represents h.wellFormed hround
        hlevel hb hL hfit hlast hv
      rw [hrun] at hnull
      cases hnull
    · rw [Nat.zero_add] at hover
      exact hfree hover
  · intro hcase
    refine ⟨a, allocate_null h.geometry h.represents hround hlevel ?_⟩
    by_contra hlt
    have hv : b ≤ t.value unit H := Nat.le_of_not_lt hlt
    rcases hcase with hsize | hover
    · have hle := SplitTree.value_le unit h.wellFormed
      rw [h.geometry.size] at hsize
      omega
    · -- the search would end at a free block, which overlaps no live one
      obtain ⟨p, _, rfl, hopen, hsub, -⟩ := allocate_take h.geometry h.represents h.wellFormed
        hround hlevel hb hL hfit hlast hv
      obtain ⟨k, hk, hp⟩ := SplitTree.offset_eq_mul unit hL
      obtain ⟨blk, hblk, hoverlap⟩ := (h.liveOverlap_iff _ _).1 (hover k hk)
      rw [← hp] at hoverlap
      have hnot := SplitTree.not_overlaps_of_free h.wellFormed (Nat.dvd_zero _) hL hopen hsub hblk
      rw [Nat.zero_add] at hnot
      exact hnot hoverlap

/-! ## Pools without live blocks -/

/-- Without live blocks every request is served whose rounded size is not larger than the pool. -/
theorem Tracks.allocate_of_nil (h : Tracks a unit H t []) (hsize : size ≤ 2 ^ 63)
    (hround : roundedUpToMinBlockSize size a.minBlockSize = .ok b) (hb : b ≤ a.poolSize) :
    ∃ addr a', a.allocate size = .ok (some addr, a') := by
  obtain ⟨b', L, hround', hlevel, -, -, hpos, hL, hfit, hlast⟩ := request_spec h.geometry hsize
  obtain rfl := Except.ok.inj (hround.symm.trans hround')
  obtain rfl := h.eq_free
  rw [h.geometry.size] at hb
  obtain ⟨p, a', -, -, -, hrun, -⟩ := allocate_take h.geometry h.represents h.wellFormed hround
    hlevel hpos hL hfit hlast hb
  exact ⟨_, a', hrun⟩

/-- A new allocator refuses what is larger than the pool when it is rounded, whatever the size of
the pool is. -/
theorem allocate_new_null {poolAddr poolSize numOrder : ℕ} (horder : 1 ≤ numOrder)
    (hcreate : Allocator.create poolAddr poolSize numOrder = .ok a)
    (hround : roundedUpToMinBlockSize size a.minBlockSize = .ok b) (hb : poolSize < b) :
    a.allocate size = .ok (none, a) := by
  obtain ⟨-, -, rfl, rfl, -, hpool⟩ := create_fields hcreate
  have hhalf : a.poolSize / 2 ^ (0 + 1) < b := (Nat.div_le_self _ _).trans_lt hb
  obtain ⟨L, -, hlevel, -⟩ := computeLevel_eq (by decide) hhalf
  have hroot : a.read 0 = .ok a.poolSize := by
    have hentry := hpool [] horder
    rw [HeapOrder.nodeIndex, List.length_nil, Nat.pow_zero, Nat.div_one] at hentry
    rw [Allocator.read, if_pos (Nat.two_pow_pos _), hentry]
  simp only [Allocator.allocate, hround, hlevel, hroot, bind, Except.bind, if_pos hb]

/-! ## All reachable states -/

/-- In every state that calls on a new allocator lead to, with a pool size that is a positive
multiple of `2 ^ (numOrder - 1)`, and for every size up to `2 ^ 63`: `allocate` returns
`nullptr` if and only if the rounded size is larger than the pool, or every block of the level of
the request overlaps a live block. -/
theorem allocate_refused_iff (poolAddr poolSize numOrder : ℕ) (horder : 1 ≤ numOrder)
    (hpos : 0 < poolSize) (hdvd : 2 ^ (numOrder - 1) ∣ poolSize)
    (hregion : PoolRegion poolAddr poolSize) (a₀ : Allocator)
    (hcreate : Allocator.create poolAddr poolSize numOrder = .ok a₀) (a : Allocator)
    (live : List (ℕ × ℕ)) (hreach : Reachable a₀ a live) (size : ℕ)
    (hsize : size ≤ 2 ^ 63) :
    ∃ rounded level, roundedUpToMinBlockSize size a.minBlockSize = .ok rounded ∧
      computeLevel poolSize rounded = .ok level ∧
      ((∃ a', a.allocate size = .ok (none, a')) ↔ poolSize < rounded ∨
        ∀ k < 2 ^ level, LiveOverlap a live (poolAddr + k * (poolSize / 2 ^ level))
          (poolSize / 2 ^ level)) := by
  obtain ⟨htracks, rfl, rfl⟩ := tracks_create horder hpos hdvd hregion hcreate
  obtain ⟨hevolves, t, ht⟩ := hreach.tracks htracks
  -- the calls do not change the pool that the allocator manages
  have haddr : a.poolAddr = a₀.poolAddr := by rw [hevolves.fields]
  have hpool : a.poolSize = a₀.poolSize := by rw [hevolves.fields]
  obtain ⟨b, L, hround, hlevel, -, -, hb, hL, hfit, hlast⟩ := request_spec ht.geometry hsize
  have hiff := ht.allocate_null_iff hround hlevel hb hL hfit hlast
  rw [haddr, hpool] at hiff
  rw [hpool] at hlevel
  exact ⟨b, L, hround, hlevel, hiff⟩

/-- With one byte allocated, a request for the whole pool of 64 bytes is refused. -/
theorem allocate_refused_whole :
    ∃ a₀ a, Allocator.create 4096 64 3 = .ok a₀ ∧ Reachable a₀ a [(4096, 1)] ∧
      ∃ a', a.allocate 64 = .ok (none, a') := by
  have heval : ((Allocator.create 4096 64 3).bind fun a => (a.allocate 1).bind fun r =>
      (r.2.blockLength 1).bind fun len =>
      (roundedUpToMinBlockSize 64 r.2.minBlockSize).bind fun b => .ok (r.1, len, b)).toOption =
      some (some 4096, 16, 64) := by decide +kernel
  obtain ⟨a₀, hcreate, hrest⟩ := toOption_bind_eq_some.1 heval
  obtain ⟨⟨r, a⟩, hrun, hrest⟩ := toOption_bind_eq_some.1 hrest
  obtain ⟨len, hlen, hrest⟩ := toOption_bind_eq_some.1 hrest
  obtain ⟨b, hround, hr⟩ := toOption_bind_eq_some.1 hrest
  obtain ⟨rfl, rfl, rfl⟩ : r = some 4096 ∧ len = 16 ∧ b = 64 := by
    simpa [Except.toOption] using hr
  have hreach : Reachable a₀ a [(4096, 1)] := .allocate .init (by decide) (by decide) hrun
  obtain ⟨rounded, level, hrounded, hlevel, hiff⟩ := allocate_refused_iff 4096 64 3 (by decide)
    (by decide) (by decide) ⟨by decide, by decide⟩ a₀ hcreate a _ hreach 64 (by decide)
  -- at level 0 there is one block, and the live block of 16 bytes is inside it
  refine ⟨a₀, a, hcreate, hreach, hiff.2 (.inr fun k hk => ?_)⟩
  obtain rfl := Except.ok.inj (hrounded.symm.trans hround)
  obtain rfl := Except.ok.inj (hlevel.symm.trans (rfl : computeLevel 64 64 = .ok 0))
  obtain rfl : k = 0 := by omega
  refine ⟨(4096, 1), List.mem_singleton_self _, 16, hlen, ?_⟩
  simp only [SplitTree.Overlaps]
  omega

end CppLearn.Buddy

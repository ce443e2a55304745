import CppLearn.Buddy.Operations
import CppLearn.Lib.Matching

/-!
# Correctness of the buddy allocator

Over any sequence of `allocate` and `deallocate` calls in which only live blocks are given back,
the live blocks are the blocks in use of the tree that the table represents. They are therefore
large enough, inside the pool, aligned and disjoint, and none of the assertions fails.

`Reachable` are the states that calls on a new allocator lead to, with their live blocks. Each of
them is tracked by a tree (`Tracks`), which is the invariant behind `reachable_blocks`.
-/

namespace CppLearn.Buddy

open BoundedLoop Unsigned HeapOrder BuddyTree

/-- The pool is a memory region: it does not start at the null pointer and does not wrap. -/
structure PoolRegion (poolAddr poolSize : ℕ) : Prop where
  nonnull : 0 < poolAddr
  bound : poolAddr + poolSize ≤ 2 ^ 64

/-- The states after sequences of calls. The live blocks are listed with their addresses and the
sizes that they were allocated with. -/
inductive Reachable (a₀ : Allocator) : Allocator → List (ℕ × ℕ) → Prop
  | init : Reachable a₀ a₀ []
  | allocate_null {a a' : Allocator} {live : List (ℕ × ℕ)} {size : ℕ} : Reachable a₀ a live →
      1 ≤ size → size ≤ 2 ^ 63 → a.allocate size = .ok (none, a') → Reachable a₀ a' live
  | allocate {a a' : Allocator} {live : List (ℕ × ℕ)} {size addr : ℕ} : Reachable a₀ a live →
      1 ≤ size → size ≤ 2 ^ 63 → a.allocate size = .ok (some addr, a') →
      Reachable a₀ a' ((addr, size) :: live)
  | deallocate {a a' : Allocator} {live : List (ℕ × ℕ)} {size addr : ℕ} : Reachable a₀ a live →
      (addr, size) ∈ live → a.deallocate addr size = .ok a' →
      Reachable a₀ a' (live.erase (addr, size))

variable {a a' : Allocator} {unit H : ℕ} {t : SplitTree} {live : List (ℕ × ℕ)}

/-- The live allocation `x` has the block `b`, given by offset and size. -/
structure IsBlock (a : Allocator) (x b : ℕ × ℕ) : Prop where
  addr : x.1 = a.poolAddr + b.1
  length : a.blockLength x.2 = .ok b.2
  enough : x.2 ≤ b.2
  bound : x.2 ≤ 2 ^ 63

/-- The table represents `t`, and the blocks in use are those of the live allocations. -/
structure Tracks (a : Allocator) (unit H : ℕ) (t : SplitTree) (live : List (ℕ × ℕ)) : Prop where
  geometry : Geometry a unit H
  represents : Represents unit a.pool 0 H t
  wellFormed : t.WellFormed H
  blocks : Matching (IsBlock a) live (t.blocks unit 0 H)

theorem blockLength_of_sameFields (h : SameFields a a') (size : ℕ) :
    a'.blockLength size = a.blockLength size := by
  rw [h]
  rfl

theorem IsBlock.of_sameFields {x b : ℕ × ℕ} (hx : IsBlock a x b) (h : SameFields a a') :
    IsBlock a' x b := by
  refine ⟨?_, (blockLength_of_sameFields h _).trans hx.length, hx.enough, hx.bound⟩
  rw [h]
  exact hx.addr

/-- The order in which the live blocks are listed does not matter. -/
theorem Tracks.perm {live' : List (ℕ × ℕ)} (h : Tracks a unit H t live) (hperm : live'.Perm live) :
    Tracks a unit H t live' :=
  ⟨h.geometry, h.represents, h.wellFormed, h.blocks.perm_left hperm⟩

/-- `allocate` with the live blocks. -/
theorem Tracks.allocate {size : ℕ} (h : Tracks a unit H t live) (hsize : size ≤ 2 ^ 63) :
    a.allocate size = .ok (none, a) ∨
      ∃ addr a' t', a.allocate size = .ok (some addr, a') ∧ Evolves a a' ∧
        Tracks a' unit H t' ((addr, size) :: live) := by
  rcases allocate_spec h.geometry h.represents h.wellFormed hsize with
    hnull | ⟨p, a', hp, hopen, hfree, hrun, hr, hevolves, hlen, hle⟩
  · exact .inl hnull
  · have hsame := hevolves.fields
    have hblock : IsBlock a' (a.poolAddr + SplitTree.offset unit H p, size)
        (SplitTree.offset unit H p, unit * 2 ^ (H - p.length)) :=
      IsBlock.of_sameFields ⟨rfl, hlen, hle, hsize⟩ hsame
    refine .inr ⟨_, a', t.replace p .used, hrun, hevolves, h.geometry.of_sameFields hsame, hr,
      h.wellFormed.replace hp (SplitTree.wellFormed_used _), ?_⟩
    -- the blocks in use are the old ones and the new block
    refine ((h.blocks.imp fun x b hx => hx.of_sameFields hsame).cons hblock).perm_right ?_
    have hblocks := SplitTree.blocks_replace unit 0 H .used hopen
    rw [hfree, Nat.zero_add] at hblocks
    simp only [SplitTree.blocks, List.append_nil] at hblocks
    exact (List.perm_append_singleton _ _).symm.trans hblocks.symm

/-- `deallocate` with the live blocks. -/
theorem Tracks.deallocate {x : ℕ × ℕ} (h : Tracks a unit H t live) (hx : x ∈ live) :
    ∃ a' t', a.deallocate x.1 x.2 = .ok a' ∧ Evolves a a' ∧
      Tracks a' unit H t' (live.erase x) := by
  obtain ⟨b, bs, hxb, hperm, hrest⟩ := h.blocks.erase hx
  have hmem : b ∈ t.blocks unit 0 H := hperm.mem_iff.2 (List.mem_cons_self ..)
  obtain ⟨p, a', hp, hopen, hused, ho, hlen, hrun, hr, hevolves⟩ :=
    deallocate_spec h.geometry h.represents h.wellFormed hxb.bound hxb.length hmem
  have hsame := hevolves.fields
  rw [← hxb.addr] at hrun
  refine ⟨a', t.replace p .free, hrun, hevolves, h.geometry.of_sameFields hsame, hr,
    h.wellFormed.replace hp (SplitTree.wellFormed_free _), ?_⟩
  refine (hrest.imp fun x b hx => hx.of_sameFields hsame).perm_right ?_
  have hblocks := SplitTree.blocks_replace unit 0 H .free hopen
  rw [hused, Nat.zero_add] at hblocks
  simp only [SplitTree.blocks, List.append_nil, ← ho, ← hlen] at hblocks
  -- both sides are the blocks in use before the call
  have hall : (b :: bs).Perm (b :: (t.replace p .free).blocks unit 0 H) :=
    hperm.symm.trans (hblocks.symm.trans (List.perm_append_singleton _ _))
  exact hall.cons_inv

/-- What a call of `allocate` that returns has done. -/
theorem Tracks.allocate_inv {size : ℕ} {r : Option ℕ} (h : Tracks a unit H t live)
    (hsize : size ≤ 2 ^ 63) (hrun : a.allocate size = .ok (r, a')) :
    (r = none ∧ a' = a) ∨ ∃ addr t', r = some addr ∧ Evolves a a' ∧
      Tracks a' unit H t' ((addr, size) :: live) := by
  rcases h.allocate hsize with hnull | ⟨addr, a₁, t', hsome, hevolves, ht⟩
  · obtain ⟨rfl, rfl⟩ := Prod.mk.inj (Except.ok.inj (hnull.symm.trans hrun))
    exact .inl ⟨rfl, rfl⟩
  · obtain ⟨rfl, rfl⟩ := Prod.mk.inj (Except.ok.inj (hsome.symm.trans hrun))
    exact .inr ⟨addr, t', rfl, hevolves, ht⟩

/-- Calls lead from tracked states to tracked states. -/
theorem Reachable.tracks {a₀ : Allocator} (h : Reachable a₀ a live)
    (h₀ : Tracks a₀ unit H .free []) :
    Evolves a₀ a ∧ ∃ t, Tracks a unit H t live := by
  induction h with
  | init => exact ⟨.refl _, .free, h₀⟩
  | allocate_null _ _ hsize hrun ih =>
    obtain ⟨hevolves, t, ht⟩ := ih
    obtain ⟨-, rfl⟩ | ⟨_, _, hr, -⟩ := ht.allocate_inv hsize hrun
    · exact ⟨hevolves, t, ht⟩
    · cases hr
  | allocate _ _ hsize hrun ih =>
    obtain ⟨hevolves, t, ht⟩ := ih
    obtain ⟨hr, -⟩ | ⟨_, t', hr, hevolves', ht'⟩ := ht.allocate_inv hsize hrun
    · cases hr
    · obtain rfl := Option.some.inj hr
      exact ⟨hevolves.trans hevolves', t', ht'⟩
  | deallocate _ hx hrun ih =>
    obtain ⟨hevolves, t, ht⟩ := ih
    -- the call is a function, so the run is the one that the lemma speaks about
    obtain ⟨a', t', hrun', hevolves', ht'⟩ := ht.deallocate hx
    obtain rfl := Except.ok.inj (hrun'.symm.trans hrun)
    exact ⟨hevolves.trans hevolves', t', ht'⟩

/-- The live blocks of a tracked state are large enough, aligned and inside the pool. -/
theorem Tracks.block (h : Tracks a unit H t live) {x : ℕ × ℕ} (hx : x ∈ live) :
    ∃ len, a.blockLength x.2 = .ok len ∧ x.2 ≤ len ∧ a.poolAddr ≤ x.1 ∧
      x.1 + len ≤ a.poolAddr + a.poolSize ∧ len ∣ x.1 - a.poolAddr := by
  obtain ⟨b, hmem, hxb⟩ := h.blocks.exists_of_mem hx
  obtain ⟨-, hend, hdvd⟩ := SplitTree.blocks_bounds h.wellFormed (Nat.dvd_zero _) hmem
  have haddr := hxb.addr
  have hsize := h.geometry.size
  refine ⟨b.2, hxb.length, hxb.enough, by omega, by omega, ?_⟩
  rwa [haddr, Nat.add_sub_cancel_left]

/-- The live blocks of a tracked state are disjoint. -/
theorem Tracks.disjoint (h : Tracks a unit H t live) :
    live.Pairwise fun x y => ∀ lx ly, a.blockLength x.2 = .ok lx → a.blockLength y.2 = .ok ly →
      x.1 + lx ≤ y.1 ∨ y.1 + ly ≤ x.1 := by
  have hdisj := SplitTree.blocks_disjoint unit h.wellFormed (Nat.dvd_zero _)
  refine h.blocks.pairwise (fun hxy => hxy.symm) hdisj ?_
  intro x b y b' hx hy hb lx ly hlx hly
  obtain rfl := Except.ok.inj (hlx.symm.trans hx.length)
  obtain rfl := Except.ok.inj (hly.symm.trans hy.length)
  rw [hx.addr, hy.addr]
  omega

/-- A new allocator is tracked, with no live blocks. -/
theorem tracks_create {poolAddr poolSize numOrder : ℕ} {a₀ : Allocator} (horder : 1 ≤ numOrder)
    (hpos : 0 < poolSize) (hdvd : 2 ^ (numOrder - 1) ∣ poolSize)
    (hregion : PoolRegion poolAddr poolSize)
    (hcreate : Allocator.create poolAddr poolSize numOrder = .ok a₀) :
    Tracks a₀ (poolSize / 2 ^ (numOrder - 1)) (numOrder - 1) .free [] ∧
      a₀.poolAddr = poolAddr ∧ a₀.poolSize = poolSize := by
  -- the smallest blocks have size `poolSize / 2 ^ (numOrder - 1)`
  have hsize : poolSize = poolSize / 2 ^ (numOrder - 1) * 2 ^ (numOrder - 1) :=
    (Nat.div_mul_cancel hdvd).symm
  have hunit : 0 < poolSize / 2 ^ (numOrder - 1) :=
    Nat.div_pos (Nat.le_of_dvd hpos hdvd) (Nat.two_pow_pos _)
  obtain ⟨hg, hr, haddr, hsz⟩ :=
    create_spec hunit horder hsize hregion.nonnull hregion.bound hcreate
  exact ⟨⟨hg, hr, SplitTree.wellFormed_free _, .nil⟩, haddr, hsz⟩

/-- The tree determines the allocator, up to what is behind the nodes in the table. -/
theorem Tracks.eq_of_tree {a₀ : Allocator} {live' : List (ℕ × ℕ)} (h : Tracks a unit H t live)
    (h' : Tracks a' unit H t live') (hevolves : Evolves a₀ a) (hevolves' : Evolves a₀ a') :
    a' = a := by
  have hpool : a'.pool = a.pool := by
    funext j
    have horder : a₀.numOrder = a.numOrder := by rw [hevolves.fields]
    by_cases hj : 2 ^ a₀.numOrder ≤ j + 1
    · rw [hevolves.tail j hj, hevolves'.tail j hj]
    · -- the entry belongs to a node
      rw [horder, h.geometry.order, Nat.not_le] at hj
      obtain ⟨p, hp, rfl⟩ := exists_nodeIndex_of_lt hj
      exact h.represents.nodeIndex_eq h'.represents hp
  rw [hevolves.fields, hevolves'.fields, hpool]

/-- With no live blocks the pool is one free block. -/
theorem Tracks.eq_free (h : Tracks a unit H t []) : t = .free := by
  by_contra hne
  exact SplitTree.blocks_ne_nil unit 0 h.wellFormed hne h.blocks.eq_nil

/-- With no live blocks the table is the same as at the start. -/
theorem Tracks.eq_of_nil {a₀ : Allocator} (h : Tracks a unit H t [])
    (h₀ : Tracks a₀ unit H .free []) (hevolves : Evolves a₀ a) : a = a₀ := by
  obtain rfl := h.eq_free
  exact h₀.eq_of_tree h (.refl _) hevolves

/-- In every state that calls on a new allocator lead to, with a pool size that is a multiple of
`2 ^ (numOrder - 1)`: live blocks are at least as large as requested, inside the pool, at offsets
that are multiples of their sizes, and disjoint; and neither `allocate` nor `deallocate` of a live
block runs into a fault, `CHECK_GE` included. -/
theorem reachable_blocks (poolAddr poolSize numOrder : ℕ) (horder : 1 ≤ numOrder)
    (hpos : 0 < poolSize) (hdvd : 2 ^ (numOrder - 1) ∣ poolSize)
    (hregion : PoolRegion poolAddr poolSize) (a₀ : Allocator)
    (hcreate : Allocator.create poolAddr poolSize numOrder = .ok a₀) (a : Allocator)
    (live : List (ℕ × ℕ)) (hreach : Reachable a₀ a live) :
    (∀ x ∈ live, ∃ len, a.blockLength x.2 = .ok len ∧ x.2 ≤ len ∧ poolAddr ≤ x.1 ∧
      x.1 + len ≤ poolAddr + poolSize ∧ len ∣ x.1 - poolAddr) ∧
    (live.Pairwise fun x y => ∀ lx ly, a.blockLength x.2 = .ok lx → a.blockLength y.2 = .ok ly →
      x.1 + lx ≤ y.1 ∨ y.1 + ly ≤ x.1) ∧
    (∀ size, 1 ≤ size → size ≤ 2 ^ 63 → ∃ r a', a.allocate size = .ok (r, a')) ∧
    ∀ x ∈ live, ∃ a', a.deallocate x.1 x.2 = .ok a' := by
  obtain ⟨htracks, rfl, rfl⟩ := tracks_create horder hpos hdvd hregion hcreate
  obtain ⟨hevolves, t, ht⟩ := hreach.tracks htracks
  -- the calls do not change the pool that the allocator manages
  have haddr : a.poolAddr = a₀.poolAddr := by rw [hevolves.fields]
  have hsize : a.poolSize = a₀.poolSize := by rw [hevolves.fields]
  refine ⟨fun x hx => ?_, ht.disjoint, fun size _ hle => ?_, fun x hx => ?_⟩
  · rw [← haddr, ← hsize]
    exact ht.block hx
  · rcases ht.allocate hle with hnull | ⟨addr, a', t', hrun, -⟩
    · exact ⟨none, a, hnull⟩
    · exact ⟨some addr, a', hrun⟩
  · obtain ⟨a', t', hrun, -⟩ := ht.deallocate hx
    exact ⟨a', hrun⟩

/-- Blocks for one byte and for 20 bytes in a pool of 64 bytes with three levels. -/
theorem reachable_blocks_pair :
    ∃ a₀ a, Allocator.create 4096 64 3 = .ok a₀ ∧ Reachable a₀ a [(4128, 20), (4096, 1)] ∧
      (∃ len, a.blockLength 20 = .ok len ∧ 20 ≤ len ∧ 4096 ≤ 4128 ∧ 4128 + len ≤ 4096 + 64 ∧
        len ∣ 4128 - 4096) ∧
      [((4128, 20) : ℕ × ℕ), (4096, 1)].Pairwise fun x y => ∀ lx ly,
        a.blockLength x.2 = .ok lx → a.blockLength y.2 = .ok ly →
          x.1 + lx ≤ y.1 ∨ y.1 + ly ≤ x.1 := by
  have heval : ((Allocator.create 4096 64 3).bind fun a => (a.allocate 1).bind fun r =>
      (r.2.allocate 20).bind fun r' => .ok (r.1, r'.1)).toOption =
        some (some 4096, some 4128) := by decide +kernel
  obtain ⟨a₀, hcreate, hrest⟩ := toOption_bind_eq_some.1 heval
  obtain ⟨⟨r, a₁⟩, hrun₁, hrest⟩ := toOption_bind_eq_some.1 hrest
  obtain ⟨⟨r', a⟩, hrun, hr⟩ := toOption_bind_eq_some.1 hrest
  obtain ⟨rfl, rfl⟩ : r = some 4096 ∧ r' = some 4128 := by simpa [Except.toOption] using hr
  have hreach : Reachable a₀ a [(4128, 20), (4096, 1)] :=
    .allocate (.allocate .init (by decide) (by decide) hrun₁) (by decide) (by decide) hrun
  obtain ⟨hblock, hapart, -⟩ := reachable_blocks 4096 64 3 (by decide) (by decide) (by decide)
    ⟨by decide, by decide⟩ a₀ hcreate a _ hreach
  exact ⟨a₀, a, hcreate, hreach, hblock (4128, 20) (List.mem_cons_self ..), hapart⟩

end CppLearn.Buddy

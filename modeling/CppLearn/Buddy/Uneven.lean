import CppLearn.Buddy.Histories

/-!
# Pool sizes that do not halve exactly

`init_pool`, `compute_block_size` and the two searches halve the size of a block with truncation.
`update_pool` goes the other way and doubles the size of the block it starts from. The two agree if
and only if the pool size is a multiple of `2 ^ (numOrder - 1)`, and only then do the numbers of the
table mean what they should.

What the table should say in a state is `Sound`. For any pool size, `updatePool_root` is the number
of the root after `update_pool`. The first block that is taken and given back shows it to be wrong
for the other sizes (`allocate_first`, `deallocate_first`), so that all histories are sound if and
only if the pool size halves exactly (`sound_iff_dvd`).
-/

namespace CppLearn.Buddy

open BoundedLoop Unsigned HeapOrder BuddyTree

variable {a a' a₀ : Allocator} {unit H : ℕ} {t : SplitTree} {live : List (ℕ × ℕ)} {p : List Bool}

/-- The offset of the end of a path in a pool; half of the size is left out at each turn to the
right. -/
def nodeOffset : ℕ → List Bool → ℕ
  | _, [] => 0
  | size, d :: p => (if d then size / 2 else 0) + nodeOffset (size / 2) p

/-- Address and size of the block of a node. -/
def Allocator.nodeBlock (a : Allocator) (p : List Bool) : ℕ × ℕ :=
  (a.poolAddr + nodeOffset a.poolSize p, a.poolSize / 2 ^ p.length)

/-- Address and size of a live block, given by address and level. -/
def Allocator.liveBlock (a : Allocator) (y : ℕ × ℕ) : ℕ × ℕ := (y.1, a.poolSize / 2 ^ y.2)

/-- No part of the block of the node is live. -/
def FreeNode (a : Allocator) (live : List (ℕ × ℕ)) (p : List Bool) : Prop :=
  ∀ y ∈ live, ¬SplitTree.Overlaps (a.nodeBlock p) (a.liveBlock y)

/-- What the table should say in a state that calls on the allocator `a₀` lead to. -/
structure Sound (a₀ a : Allocator) (live : List (ℕ × ℕ)) : Prop where
  /-- The number of a node outside the live blocks is at most the size of the largest free block
  below it. -/
  largest : ∀ p : List Bool, p.length < a.numOrder →
    (∀ y ∈ live, ¬SplitTree.Within (a.nodeBlock p) (a.liveBlock y)) →
    a.pool (nodeIndex 0 p) = 0 ∨ ∃ q, (p ++ q).length < a.numOrder ∧ FreeNode a live (p ++ q) ∧
      a.pool (nodeIndex 0 p) ≤ (a.nodeBlock (p ++ q)).2
  /-- No memory is handed out twice. -/
  apart : live.Pairwise fun y y' => ¬SplitTree.Overlaps (a.liveBlock y) (a.liveBlock y')
  /-- Without live blocks the table is that of a new allocator. -/
  restored : live = [] → a.pool = a₀.pool

/-! ## Exact halving -/

theorem nodeOffset_eq (unit : ℕ) {h : ℕ} (hp : p.length ≤ h) :
    nodeOffset (unit * 2 ^ h) p = SplitTree.offset unit h p := by
  induction p generalizing h with
  | nil => rfl
  | cons d p ih =>
    cases h with
    | zero => simp at hp
    | succ h =>
      rw [nodeOffset, SplitTree.offset, SplitTree.half_eq, Nat.add_sub_cancel,
        ih (by simpa using hp)]

/-- The memory of a node is that of the end of its path in the tree. -/
theorem Geometry.nodeBlock_eq (hg : Geometry a unit H) (hp : p.length ≤ H) :
    a.nodeBlock p = (a.poolAddr + SplitTree.offset unit H p, unit * 2 ^ (H - p.length)) := by
  rw [Allocator.nodeBlock, hg.size, nodeOffset_eq unit hp, div_pow_eq unit hp]

/-- In a tracked state the table says what it should. -/
theorem Tracks.largest {reqs : List (ℕ × ℕ)} (h : Tracks a unit H t reqs)
    (hs : Serves a live reqs) (hp : p.length ≤ H)
    (hout : ∀ y ∈ live, ¬SplitTree.Within (a.nodeBlock p) (a.liveBlock y)) :
    a.pool (nodeIndex 0 p) = 0 ∨ ∃ q, (p ++ q).length ≤ H ∧ FreeNode a live (p ++ q) ∧
      a.pool (nodeIndex 0 p) ≤ (a.nodeBlock (p ++ q)).2 := by
  -- a node inside a block in use would be inside a live block
  have hopen : t.Open p := by
    by_contra hnot
    obtain ⟨b, hb, hwithin⟩ := SplitTree.exists_within_of_not_open unit 0 hp hnot
    obtain ⟨y, hy, haddr, hsize⟩ := (h.mem_blocks_iff hs b).1 hb
    refine hout y hy ?_
    rw [Allocator.liveBlock, haddr, hsize, h.geometry.nodeBlock_eq hp]
    simp only [SplitTree.Within] at hwithin ⊢
    omega
  rw [(h.represents.subtree hopen hp).value]
  rcases Nat.eq_zero_or_pos ((t.subtree p).value unit (H - p.length)) with hzero | hpos
  · exact .inl hzero
  · obtain ⟨q, hq, hopen', hfree, hval⟩ :=
      SplitTree.exists_free_of_value h.geometry.unit_pos (h.wellFormed.subtree hp) hpos
    obtain ⟨hpq, hsub⟩ := hopen.append hopen'
    have hlen : (p ++ q).length ≤ H := by
      rw [List.length_append]
      omega
    refine .inr ⟨q, hlen, fun y hy hover => ?_, ?_⟩
    · -- the free block of the tree overlaps no block in use
      obtain ⟨b, hb, haddr, hsize⟩ := h.exists_block hs hy
      have hnot := SplitTree.not_overlaps_of_free h.wellFormed (Nat.dvd_zero _) hlen hpq
        (hsub.trans hfree) hb
      rw [h.geometry.nodeBlock_eq hlen, Allocator.liveBlock, haddr, hsize] at hover
      simp only [SplitTree.Overlaps] at hover hnot
      omega
    · rwa [h.geometry.nodeBlock_eq hlen, List.length_append, ← Nat.sub_sub]

/-- Live blocks of a tracked state have no memory in common. -/
theorem Tracks.apart {reqs : List (ℕ × ℕ)} (h : Tracks a unit H t reqs)
    (hs : Serves a live reqs) :
    live.Pairwise fun y y' => ¬SplitTree.Overlaps (a.liveBlock y) (a.liveBlock y') := by
  have hreqs : (reqs.map a.liveEntry).Pairwise fun e e' => ∀ y y', e = .ok y → e' = .ok y' →
      ¬SplitTree.Overlaps (a.liveBlock y) (a.liveBlock y') := by
    refine List.pairwise_map.2 (h.disjoint.imp fun {x x'} hdisj y y' hy hy' => ?_)
    obtain ⟨haddr, hlevel⟩ := liveEntry_eq_ok.1 hy
    obtain ⟨haddr', hlevel'⟩ := liveEntry_eq_ok.1 hy'
    have := hdisj (a.poolSize / 2 ^ y.2) (a.poolSize / 2 ^ y'.2)
      (by rw [blockLength_eq, hlevel]; rfl) (by rw [blockLength_eq, hlevel']; rfl)
    simp only [SplitTree.Overlaps, Allocator.liveBlock]
    omega
  -- the order of the list does not matter
  have hlive := (hs.pairwise_iff ?_).2 hreqs
  · exact (List.pairwise_map.1 hlive).imp fun hyy => hyy _ _ rfl rfl
  · intro e e' hee y y' hy hy'
    have := hee y' y hy' hy
    simp only [SplitTree.Overlaps] at this ⊢
    omega

theorem Tracks.sound {reqs : List (ℕ × ℕ)} (h : Tracks a unit H t reqs)
    (hs : Serves a live reqs) (h₀ : Tracks a₀ unit H .free []) (hevolves : Evolves a₀ a) :
    Sound a₀ a live := by
  refine ⟨fun p hp hout => ?_, h.apart hs, ?_⟩
  · rw [h.geometry.order] at hp ⊢
    simp only [Nat.lt_succ_iff] at hp ⊢
    exact h.largest hs hp hout
  · rintro rfl
    have hnil : reqs = [] := by simpa [Serves] using hs
    subst hnil
    rw [h.eq_of_nil h₀ hevolves]

/-! ## The first block of a new pool -/

/-- The entry that one iteration of `update_pool` computes for a block of size `s` from those of its
halves. -/
def combine (s l r : ℕ) : ℕ := if add 64 l r = s then s else max l r

/-- One iteration of `update_pool`, whatever the numbers of the table are. -/
theorem updatePoolBody_combine {q : List Bool} (hq : q.length + 1 < a.numOrder) (d : Bool)
    (size : ℕ) :
    updatePoolBody (a, childIndex (nodeIndex 0 q) d, size) =
      .ok (a.setEntry (nodeIndex 0 q) (combine (size * 2 % 2 ^ 64)
        (a.pool (childIndex (nodeIndex 0 q) false)) (a.pool (childIndex (nodeIndex 0 q) true))),
        nodeIndex 0 q, size * 2 % 2 ^ 64) := by
  -- the node and its children have entries in the table
  have hlt : ∀ e, childIndex (nodeIndex 0 q) e < 2 ^ a.numOrder := by
    intro e
    rw [← nodeIndex_concat]
    exact Nat.lt_of_succ_lt (nodeIndex_lt (by simpa using hq))
  have hread : ∀ e, a.read (childIndex (nodeIndex 0 q) e) =
      .ok (a.pool (childIndex (nodeIndex 0 q) e)) := fun e => if_pos (hlt e)
  have hwrite : ∀ v, a.write (nodeIndex 0 q) v = .ok (a.setEntry (nodeIndex 0 q) v) :=
    fun v => if_pos ((lt_childIndex _ false).trans (hlt false))
  simp only [updatePoolBody, parent_childIndex, left_eq, right_eq, hread, hwrite, bind,
    Except.bind, combine]
  split_ifs <;> rfl

/-- `update_pool` returns for any pool size. It recomputes the number of the root from those of its
children, with the size that doubling leads to. -/
theorem updatePool_root (hp : p.length < a.numOrder) (hne : p ≠ []) (horder : a.numOrder ≤ 30)
    (hsize : a.poolSize < 2 ^ 64) :
    ∃ a', a.updatePool (nodeIndex 0 p) = .ok a' ∧ SameFields a a' ∧
      a'.pool 0 = combine (a.poolSize / 2 ^ p.length * 2 ^ p.length) (a'.pool 1) (a'.pool 2) := by
  have hblock := computeBlockSize_eq a.poolSize (p := p) (by omega)
  -- doubling the size of the block never exceeds the pool
  have hdouble : ∀ n, a.poolSize / 2 ^ p.length * 2 ^ (p.length - n) < 2 ^ 64 := by
    intro n
    have hpow : 2 ^ (p.length - n) ≤ 2 ^ p.length := Nat.pow_le_pow_right (by decide) (by omega)
    have hle := Nat.mul_le_mul_left (a.poolSize / 2 ^ p.length) hpow
    have := Nat.div_mul_le_self a.poolSize (2 ^ p.length)
    omega
  -- invariant: the node that was recomputed last has the combined number of its children
  obtain ⟨s, hloop, hsame, hroot⟩ : ∃ s : Allocator × ℕ × ℕ,
      updatePoolLoop bitFuel (a, nodeIndex 0 p, a.poolSize / 2 ^ p.length) = .ok s ∧
      SameFields a s.1 ∧ s.1.pool 0 =
        combine (a.poolSize / 2 ^ p.length * 2 ^ p.length) (s.1.pool 1) (s.1.pool 2) := by
    refine whileLoop_spec (I := fun n (s : Allocator × ℕ × ℕ) =>
      ∃ q : List Bool, q.length = n ∧ n ≤ p.length ∧ s.2.1 = nodeIndex 0 q ∧
      s.2.2 = a.poolSize / 2 ^ p.length * 2 ^ (p.length - n) ∧ SameFields a s.1 ∧
      (n < p.length → s.1.pool s.2.1 =
        combine s.2.2 (s.1.pool (s.2.1 * 2 + 1)) (s.1.pool (s.2.1 * 2 + 2))))
      (n := p.length) ?_ ?_ ?_
      ⟨p, rfl, Nat.le_refl _, rfl, by simp, rfl, by simp⟩
      (by unfold bitFuel; omega)
    · rintro n ⟨a₁, idx, size⟩ ⟨q, rfl, hq, hidx, hs, hsame, hentry⟩ hexit
      simp only at hidx hs hsame hentry
      obtain rfl : idx = 0 := by simpa using hexit
      -- the loop is left at the root
      obtain rfl := nodeIndex_eq_zero hidx.symm
      have hcombine := hentry (List.length_pos_iff.2 hne)
      rw [hs, List.length_nil, Nat.sub_zero] at hcombine
      exact ⟨hsame, hcombine⟩
    · exact fun n s _ => ⟨_, rfl⟩
    · rintro n ⟨a₁, idx, size⟩ ⟨q, rfl, hq, hidx, hs, hsame, -⟩ hcond
      simp only at hidx hs hsame
      have hidx0 : idx ≠ 0 := by simpa using hcond
      -- the block is the child of the node that is recomputed
      rcases List.eq_nil_or_concat q with rfl | ⟨q, d, rfl⟩
      · exact absurd hidx hidx0
      · rw [List.concat_eq_append] at hidx hs hq ⊢
        rw [nodeIndex_concat] at hidx
        subst hidx
        have hlen : (q ++ [d]).length = q.length + 1 := by simp
        rw [hlen] at hs hq ⊢
        have hnum : a₁.numOrder = a.numOrder := by rw [hsame]
        have hsize' : size * 2 % 2 ^ 64 =
            a.poolSize / 2 ^ p.length * 2 ^ (p.length - q.length) := by
          have hexp : p.length - (q.length + 1) + 1 = p.length - q.length := by omega
          have hpow : size * 2 = a.poolSize / 2 ^ p.length * 2 ^ (p.length - q.length) := by
            rw [hs, Nat.mul_assoc, ← hexp, Nat.pow_succ]
          rw [hpow, Nat.mod_eq_of_lt (hdouble _)]
        refine ⟨_, q.length, updatePoolBody_combine (by omega) d size, by omega, q, rfl, by omega,
          rfl, hsize', hsame.trans (sameFields_setEntry ..), fun _ => ?_⟩
        simp only [left_eq, right_eq, Allocator.setEntry_self]
        rw [Allocator.setEntry_of_ne _ _ (lt_childIndex _ false).ne',
          Allocator.setEntry_of_ne _ _ (lt_childIndex _ true).ne']
  refine ⟨s.1, ?_, hsame, hroot⟩
  simp only [Allocator.updatePool, hblock, bind, Except.bind, hloop]

/-- The level of a request for one byte is the last one. -/
theorem requestLevel_one (horder : 1 ≤ a.numOrder) (hle : a.numOrder ≤ 30)
    (hsize : a.poolSize < 2 ^ 64) (hpool : 2 ^ (a.numOrder - 1) ≤ a.poolSize)
    (hmin : a.minBlockSize = a.poolSize / 2 ^ a.numOrder * 2 % 2 ^ 64) :
    ∃ b, roundedUpToMinBlockSize 1 a.minBlockSize = .ok b ∧
      b ≤ a.poolSize / 2 ^ (a.numOrder - 1) ∧
      computeLevel a.poolSize b = .ok (a.numOrder - 1) := by
  obtain ⟨H, hH⟩ : ∃ H, a.numOrder = H + 1 := ⟨a.numOrder - 1, by omega⟩
  rw [hH] at hle hmin
  rw [hH, Nat.add_sub_cancel] at hpool ⊢
  have hhalf : a.poolSize / 2 ^ (H + 1) = a.poolSize / 2 ^ H / 2 := by
    rw [Nat.div_div_eq_div_mul, Nat.pow_succ]
  have hpos : 0 < a.poolSize / 2 ^ H := Nat.div_pos hpool (Nat.two_pow_pos H)
  have hdiv := Nat.div_le_self a.poolSize (2 ^ H)
  rw [Nat.mod_eq_of_lt (by omega)] at hmin
  refine ⟨max 1 a.minBlockSize, rfl, by omega, ?_⟩
  have hsmall : a.poolSize / 2 ^ (H + 1) < max 1 a.minBlockSize := by omega
  obtain ⟨L, hL, hrun, hlast, -⟩ := computeLevel_eq (by omega) hsmall
  -- the blocks of all levels are large enough
  have hLH : L = H := by
    by_contra hne
    have hlt : a.poolSize / 2 ^ H ≤ a.poolSize / 2 ^ (L + 1) :=
      Nat.div_le_div_left (Nat.pow_le_pow_right (by decide) (by omega)) (Nat.two_pow_pos _)
    omega
  rw [hrun, hLH]

/-- In a new pool the search of `allocate` always turns left. -/
theorem search_left {b : ℕ} {q : List Bool}
    (hpool : ∀ r : List Bool, r.length < a.numOrder →
      a.pool (nodeIndex 0 r) = a.poolSize / 2 ^ r.length)
    (L addr size : ℕ) (hlen : q.length + L < a.numOrder)
    (hb : b ≤ a.poolSize / 2 ^ (q.length + L)) :
    a.searchSuitableBlock b L (nodeIndex 0 q) addr size =
      .ok (nodeIndex 0 (q ++ List.replicate L false), addr) := by
  induction L generalizing q size with
  | zero => simp [Allocator.searchSuitableBlock]
  | succ L ih =>
    have hchild : (q ++ [false]).length < a.numOrder := by
      simp only [List.length_append, List.length_singleton]
      omega
    have hread : a.read (nodeIndex 0 (q ++ [false])) =
        .ok (a.poolSize / 2 ^ (q ++ [false]).length) := by
      rw [Allocator.read, if_pos (Nat.lt_of_succ_lt (nodeIndex_lt hchild)), hpool _ hchild]
    have hfit : b ≤ a.poolSize / 2 ^ (q ++ [false]).length := by
      refine hb.trans
        (Nat.div_le_div_left (Nat.pow_le_pow_right (by decide) ?_) (Nat.two_pow_pos _))
      simp only [List.length_append, List.length_singleton]
      omega
    have hlist : q ++ List.replicate (L + 1) false = q ++ [false] ++ List.replicate L false := by
      simp [List.replicate_succ]
    simp only [Allocator.searchSuitableBlock, left_eq, ← nodeIndex_concat, hread, bind, Except.bind,
      ge_iff_le, if_pos hfit]
    rw [hlist]
    refine ih _ ?_ ?_
    · simp only [List.length_append, List.length_singleton]
      omega
    · refine hb.trans_eq ?_
      simp only [List.length_append, List.length_singleton]
      rw [Nat.add_assoc, Nat.add_comm 1 L]

/-- The search of `deallocate` for offset `0` always turns left. -/
theorem descend_left {q : List Bool} {size : ℕ} (L : ℕ) (hsize : size < 2 ^ 64)
    (hpos : 0 < size / 2 ^ L) :
    descend 0 L (nodeIndex 0 q) size 0 =
      (nodeIndex 0 (q ++ List.replicate L false), size / 2 ^ L) := by
  induction L generalizing q size with
  | zero => simp [descend]
  | succ L ih =>
    have hhalf : size / 2 ^ (L + 1) = size / 2 / 2 ^ L := by
      rw [Nat.div_div_eq_div_mul, Nat.pow_succ']
    rw [hhalf] at hpos ⊢
    have hle := Nat.div_le_self (size / 2) (2 ^ L)
    have hadd : add 64 0 (size / 2) = size / 2 := by rw [add_eq (by omega), Nat.zero_add]
    have hlist : q ++ List.replicate (L + 1) false = q ++ [false] ++ List.replicate L false := by
      simp [List.replicate_succ]
    simp only [descend, hadd]
    rw [if_pos (by omega), left_eq, ← nodeIndex_concat, hlist]
    exact ih (by omega) hpos

/-- The first request for one byte takes the first block of the last level. -/
theorem allocate_first {poolAddr poolSize numOrder : ℕ} (horder : 2 ≤ numOrder)
    (hsize : 2 ^ (numOrder - 1) ≤ poolSize) (hregion : PoolRegion poolAddr poolSize)
    (hcreate : Allocator.create poolAddr poolSize numOrder = .ok a₀) :
    ∃ a, a₀.allocate 1 = .ok (some poolAddr, a) ∧ SameFields a₀ a ∧
      a₀.requestLevel 1 = .ok (numOrder - 1) := by
  obtain ⟨hle, rfl, rfl, rfl, hmin, hpool⟩ := create_fields hcreate
  have hnonnull := hregion.nonnull
  have hbound := hregion.bound
  obtain ⟨b, hround, hb, hlevel⟩ := requestLevel_one (by omega) hle (by omega) hsize hmin
  have hroot : a₀.read 0 = .ok a₀.poolSize := by
    have := hpool [] (by simp only [List.length_nil]; omega)
    rw [nodeIndex, List.length_nil, Nat.pow_zero, Nat.div_one] at this
    rw [Allocator.read, if_pos (Nat.two_pow_pos _), this]
  have hfit : ¬a₀.poolSize < b := by
    have := Nat.div_le_self a₀.poolSize (2 ^ (a₀.numOrder - 1))
    omega
  have hsearch := search_left (q := []) hpool (a₀.numOrder - 1) a₀.poolAddr a₀.poolSize
    (by simp only [List.length_nil]; omega) (by simpa using hb)
  rw [nodeIndex, List.nil_append] at hsearch
  set p := List.replicate (a₀.numOrder - 1) false with hp
  have hplen : p.length = a₀.numOrder - 1 := by simp [hp]
  have hidx : nodeIndex 0 p + 1 < 2 ^ a₀.numOrder := nodeIndex_lt (by omega)
  have hsmall : 2 ^ a₀.numOrder ≤ 2 ^ 30 := Nat.pow_le_pow_right (by decide) hle
  have hwrite : a₀.write (nodeIndex 0 p) 0 = .ok (a₀.setEntry (nodeIndex 0 p) 0) :=
    if_pos (by omega)
  obtain ⟨a, hupdate, hsame, -⟩ := updatePool_root (a := a₀.setEntry (nodeIndex 0 p) 0) (p := p)
    (by rw [hplen]; exact Nat.sub_one_lt_of_lt horder) (by simp [hp]; omega) hle
    (show a₀.poolSize < 2 ^ 64 by omega)
  refine ⟨a, ?_, (sameFields_setEntry ..).trans hsame, ?_⟩
  · simp only [Allocator.allocate, hround, hlevel, hroot, bind, Except.bind, if_neg hfit, hsearch,
      Nat.mod_eq_of_lt (show nodeIndex 0 p < 2 ^ 32 by omega),
      if_neg (Nat.pos_iff_ne_zero.1 hnonnull), hwrite, hupdate]
  · simp only [Allocator.requestLevel, hround, bind, Except.bind, hlevel]

/-- Giving that block back recomputes the number of the root with the doubled size. -/
theorem deallocate_first {poolAddr poolSize numOrder : ℕ} (horder : 2 ≤ numOrder)
    (hsize : 2 ^ (numOrder - 1) ≤ poolSize) (hregion : PoolRegion poolAddr poolSize)
    (hcreate : Allocator.create poolAddr poolSize numOrder = .ok a₀) (hsame : SameFields a₀ a) :
    ∃ a', a.deallocate poolAddr 1 = .ok a' ∧
      a'.pool 0 = combine (poolSize / 2 ^ (numOrder - 1) * 2 ^ (numOrder - 1)) (a'.pool 1)
        (a'.pool 2) := by
  obtain ⟨hle, rfl, rfl, rfl, hmin, -⟩ := create_fields hcreate
  have hbound := hregion.bound
  have hnonnull := hregion.nonnull
  obtain ⟨b, hround, -, hlevel⟩ := requestLevel_one (by omega) hle (by omega) hsize hmin
  have hdescend := descend_left (q := []) (a₀.numOrder - 1)
    (show a₀.poolSize < 2 ^ 64 by omega) (Nat.div_pos hsize (Nat.two_pow_pos _))
  rw [nodeIndex, List.nil_append] at hdescend
  set p := List.replicate (a₀.numOrder - 1) false with hp
  have hplen : p.length = a₀.numOrder - 1 := by simp [hp]
  have hidx : nodeIndex 0 p + 1 < 2 ^ a₀.numOrder := nodeIndex_lt (by omega)
  set v := a₀.poolSize / 2 ^ (a₀.numOrder - 1) with hv
  have hnum : a.numOrder = a₀.numOrder := by rw [hsame]
  have hpoolSize : a.poolSize = a₀.poolSize := by rw [hsame]
  have hpoolAddr : a.poolAddr = a₀.poolAddr := by rw [hsame]
  have hminBlock : a.minBlockSize = a₀.minBlockSize := by rw [hsame]
  have hwrite : a.write (nodeIndex 0 p) v = .ok (a.setEntry (nodeIndex 0 p) v) :=
    if_pos (by rw [hnum]; omega)
  have hoff : sub 64 a₀.poolAddr a₀.poolAddr = 0 := by
    have := Nat.two_pow_pos (a₀.numOrder - 1)
    rw [sub_eq (Nat.le_refl _) (by omega), Nat.sub_self]
  obtain ⟨a', hupdate, -, hroot⟩ := updatePool_root (a := a.setEntry (nodeIndex 0 p) v) (p := p)
    (show p.length < a.numOrder by omega) (by simp [hp]; omega) (show a.numOrder ≤ 30 by omega)
    (show a.poolSize < 2 ^ 64 by omega)
  have hset : (a.setEntry (nodeIndex 0 p) v).poolSize = a₀.poolSize := hpoolSize
  rw [hset, hplen] at hroot
  refine ⟨a', ?_, hroot⟩
  simp only [Allocator.deallocate, hminBlock, hpoolSize, hpoolAddr, hround, hlevel, bind,
    Except.bind, hoff, hdescend, hwrite, hupdate]

/-- A combined number that is larger than its halves is the size of the merged block. -/
theorem combine_eq_self {s l n : ℕ} (h : combine s l l = n) (hlt : l < n) : s = n := by
  unfold combine at h
  split_ifs at h with hsum
  · exact h
  · omega

/-- For a pool of at least one byte for each block of the last level, the table says what it should
in all histories if and only if the pool size is a multiple of `2 ^ (numOrder - 1)`. -/
theorem sound_iff_dvd (poolAddr poolSize numOrder : ℕ) (horder : 1 ≤ numOrder)
    (hsize : 2 ^ (numOrder - 1) ≤ poolSize) (hregion : PoolRegion poolAddr poolSize)
    (a₀ : Allocator) (hcreate : Allocator.create poolAddr poolSize numOrder = .ok a₀) :
    (∀ a live, History a₀ a live → Sound a₀ a live) ↔ 2 ^ (numOrder - 1) ∣ poolSize := by
  have hpos : 0 < poolSize := (Nat.two_pow_pos _).trans_le hsize
  constructor
  · intro hsound
    rcases Nat.lt_or_ge numOrder 2 with hone | htwo
    · obtain rfl : numOrder = 1 := by omega
      exact Nat.one_dvd _
    · -- one byte is taken and given back, and the number of the root is the old one
      obtain ⟨a, halloc, hsame, hlevel⟩ := allocate_first htwo hsize hregion hcreate
      obtain ⟨a', hfree, hroot⟩ := deallocate_first htwo hsize hregion hcreate hsame
      have hhist := (History.init.allocate halloc hlevel).deallocate
        ((requestLevel_of_sameFields hsame 1).trans hlevel) (List.mem_cons_self ..) hfree
      rw [List.erase_cons_head] at hhist
      have hpool := (hsound a' [] hhist).restored rfl
      obtain ⟨-, -, -, -, -, hentries⟩ := create_fields hcreate
      have h0 : a₀.pool 0 = poolSize := by
        have := hentries [] (by simp only [List.length_nil]; omega)
        rwa [nodeIndex, List.length_nil, Nat.pow_zero, Nat.div_one] at this
      have h1 : a₀.pool 1 = poolSize / 2 := hentries [false] htwo
      have h2 : a₀.pool 2 = poolSize / 2 := hentries [true] htwo
      rw [hpool, h0, h1, h2] at hroot
      have heq := combine_eq_self hroot.symm (by omega)
      exact ⟨_, (Nat.mul_comm _ _).trans heq |>.symm⟩
  · intro hdvd a live hhist
    obtain ⟨h₀, -, -⟩ := tracks_create horder hpos hdvd hregion hcreate
    obtain ⟨hevolves, t, reqs, ht, hs⟩ := hhist.tracks h₀
    exact ht.sound hs h₀ hevolves

/-- In a pool of 64 bytes with three levels the first history is sound. -/
theorem sound_iff_dvd_even :
    ∃ a₀ a, Allocator.create 4096 64 3 = .ok a₀ ∧ a₀.allocate 1 = .ok (some 4096, a) ∧
      Sound a₀ a [(4096, 2)] := by
  have heval : ((Allocator.create 4096 64 3).bind fun a => (a.requestLevel 1).bind fun level =>
      (a.allocate 1).bind fun r => .ok (level, r.1)).toOption = some (2, some 4096) := by
    decide +kernel
  obtain ⟨a₀, hcreate, hrest⟩ := toOption_bind_eq_some.1 heval
  obtain ⟨level, hlevel, hrest⟩ := toOption_bind_eq_some.1 hrest
  obtain ⟨⟨r, a⟩, hrun, hr⟩ := toOption_bind_eq_some.1 hrest
  obtain ⟨rfl, rfl⟩ : level = 2 ∧ r = some 4096 := by simpa [Except.toOption] using hr
  refine ⟨a₀, a, hcreate, hrun, ?_⟩
  exact (sound_iff_dvd 4096 64 3 (by decide) (by decide) ⟨by decide, by decide⟩ a₀ hcreate).2
    (by decide) a _ (.allocate .init hrun hlevel)

/-- In a pool of six bytes with three levels the halves of the root have the numbers 1 and 3 after
one byte was taken. Their sum is the doubled size, so the root counts as a free block of four
bytes, and a request for four bytes gets memory that is live. -/
theorem uneven_pool_unsound :
    ∃ a₀ a, Allocator.create 4096 6 3 = .ok a₀ ∧ History a₀ a [(4096, 0), (4096, 2)] ∧
      ¬Sound a₀ a [(4096, 0), (4096, 2)] := by
  have heval : ((Allocator.create 4096 6 3).bind fun a₀ => (a₀.requestLevel 1).bind fun level =>
      (a₀.allocate 1).bind fun r => (r.2.requestLevel 4).bind fun level' =>
      (r.2.allocate 4).bind fun r' => .ok (level, r.1, level', r'.1, r'.2.poolSize)).toOption =
      some (2, some 4096, 0, some 4096, 6) := by decide +kernel
  obtain ⟨a₀, hcreate, hrest⟩ := toOption_bind_eq_some.1 heval
  obtain ⟨level, hlevel, hrest⟩ := toOption_bind_eq_some.1 hrest
  obtain ⟨⟨r, a⟩, hrun, hrest⟩ := toOption_bind_eq_some.1 hrest
  obtain ⟨level', hlevel', hrest⟩ := toOption_bind_eq_some.1 hrest
  obtain ⟨⟨r', a'⟩, hrun', hr⟩ := toOption_bind_eq_some.1 hrest
  obtain ⟨rfl, rfl, rfl, rfl, hsize⟩ :
      level = 2 ∧ r = some 4096 ∧ level' = 0 ∧ r' = some 4096 ∧ a'.poolSize = 6 := by
    simpa [Except.toOption] using hr
  refine ⟨a₀, a', hcreate, (History.init.allocate hrun hlevel).allocate hrun' hlevel', ?_⟩
  intro hsound
  -- the two live blocks begin at the same address
  have hpair := (List.pairwise_cons.1 hsound.apart).1 (4096, 2) (List.mem_singleton_self _)
  simp [SplitTree.Overlaps, Allocator.liveBlock, hsize] at hpair

end CppLearn.Buddy

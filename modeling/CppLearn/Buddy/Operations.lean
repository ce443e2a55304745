import CppLearn.Buddy.Levels

/-!
# The operations of the buddy allocator on trees

`allocate` and `deallocate` change the tree that the table represents at the end of one path. Both
walk down that path, change the number of its last node and let `update_pool` restore the numbers
above.

There is one lemma for each part: the search of `allocate` ends at a free block and its `CHECK_GE`
holds (`search_spec`), the search of `deallocate` ends at the block in use with the given offset
(`descend_spec`), and `update_pool` restores the numbers on a path (`updatePool_spec`). Together
they are `allocate_spec` and `deallocate_spec`.
-/

namespace CppLearn.Buddy

open BoundedLoop Unsigned HeapOrder BuddyTree

variable {a : Allocator} {unit H h i b : ℕ} {t s : SplitTree} {p : List Bool}

/-- The allocator with one table entry changed. -/
def Allocator.setEntry (a : Allocator) (i v : ℕ) : Allocator :=
  { a with pool := Function.update a.pool i v }

/-- The entry that is assigned, -/
theorem Allocator.setEntry_self (a : Allocator) (i v : ℕ) : (a.setEntry i v).pool i = v :=
  Function.update_self ..

/-- and the other ones. -/
theorem Allocator.setEntry_of_ne (a : Allocator) {i j : ℕ} (v : ℕ) (h : j ≠ i) :
    (a.setEntry i v).pool j = a.pool j := Function.update_of_ne h ..

/-- `a` and `a'` differ in their tables only. -/
def SameFields (a a' : Allocator) : Prop := a' = { a with pool := a'.pool }

/-- The geometry does not depend on the pool. -/
theorem Geometry.of_sameFields {a' : Allocator} (hg : Geometry a unit H) (h : SameFields a a') :
    Geometry a' unit H := by
  rw [h]
  exact ⟨hg.unit_pos, hg.order, hg.order_le, hg.size, hg.min, hg.addr_pos, hg.addr_bound⟩

/-- Writes leave the other fields alone. -/
theorem SameFields.trans {a' a'' : Allocator} (h : SameFields a a') (h' : SameFields a' a'') :
    SameFields a a'' := by
  unfold SameFields at *
  rw [h', h]

/-- A single write does. -/
theorem sameFields_setEntry (a : Allocator) (i v : ℕ) : SameFields a (a.setEntry i v) := rfl

/-- What the operations leave alone: the fields other than the table, and what is in the table
behind the nodes of the tree. -/
structure Evolves (a a' : Allocator) : Prop where
  fields : SameFields a a'
  tail : ∀ j, 2 ^ a.numOrder ≤ j + 1 → a'.pool j = a.pool j

/-- Nothing has happened. -/
theorem Evolves.refl (a : Allocator) : Evolves a a := ⟨rfl, fun _ _ => rfl⟩

/-- One thing has happened after the other. -/
theorem Evolves.trans {a' a'' : Allocator} (h : Evolves a a') (h' : Evolves a' a'') :
    Evolves a a'' := by
  refine ⟨h.fields.trans h'.fields, fun j hj => ?_⟩
  have horder : a'.numOrder = a.numOrder := by rw [h.fields]
  rw [h'.tail j (by rwa [horder]), h.tail j hj]

/-- The nodes of a subtree of height `h` below node `i` have entries in the table. -/
def InTable (a : Allocator) (i h : ℕ) : Prop := (i + 2) * 2 ^ h ≤ 2 ^ a.numOrder

/-- The children of an inner node are in the table. -/
theorem InTable.child (hin : InTable a i (h + 1)) (d : Bool) : InTable a (childIndex i d) h := by
  unfold InTable at *
  refine Nat.le_trans ?_ hin
  rw [Nat.pow_succ', ← Nat.mul_assoc]
  refine Nat.mul_le_mul_right _ ?_
  unfold childIndex
  split_ifs <;> omega

/-- A node of the table is an index of the pool. -/
theorem InTable.lt (hin : InTable a i h) : i < 2 ^ a.numOrder := by
  unfold InTable at hin
  have := Nat.le_mul_of_pos_right (i + 2) (Nat.two_pow_pos h)
  omega

/-- This does not depend on the pool. -/
theorem InTable.of_sameFields {a' : Allocator} (hin : InTable a i h) (hs : SameFields a a') :
    InTable a' i h := by
  unfold InTable
  rw [hs]
  exact hin

/-- Nodes of the table can be written, -/
theorem InTable.write (hin : InTable a i h) (v : ℕ) : a.write i v = .ok (a.setEntry i v) :=
  if_pos hin.lt

/-- such as the root, -/
theorem Geometry.inTable (hg : Geometry a unit H) : InTable a 0 H := by
  unfold InTable
  rw [hg.order, Nat.pow_succ, Nat.zero_add, Nat.mul_comm]

/-- and read. -/
theorem InTable.read (hin : InTable a i h) : a.read i = .ok (a.pool i) := if_pos hin.lt

/-! ## Walking down -/

/-- The children of a node, as the code computes them. -/
theorem left_eq (i : ℕ) : i * 2 + 1 = childIndex i false := by simp [childIndex, Nat.mul_comm]

/-- The numbers of the children, as the source computes them. -/
theorem right_eq (i : ℕ) : i * 2 + 2 = childIndex i true := by simp [childIndex, Nat.mul_comm]

/-- The right child is next to the left one. -/
theorem left_add_one (i : ℕ) : childIndex i false + 1 = childIndex i true := by simp [childIndex]

/-- The search of `allocate` finds a free block of the level that it is given. -/
theorem search_spec (addr : ℕ) {L : ℕ} (hr : Represents unit a.pool i h t) (ht : t.WellFormed h)
    (hin : InTable a i h) (hb : 0 < b) (hv : b ≤ t.value unit h) (hL : L ≤ h)
    (hfit : b ≤ unit * 2 ^ (h - L)) :
    ∃ p, p.length = L ∧ t.Open p ∧ b ≤ (t.subtree p).value unit (h - L) ∧
      a.searchSuitableBlock b L i addr (unit * 2 ^ h) =
        .ok (nodeIndex i p, addr + SplitTree.offset unit h p) := by
  induction L generalizing i h t addr with
  | zero => exact ⟨[], rfl, trivial, hv, rfl⟩
  | succ L ih =>
    cases h with
    | zero => omega
    | succ h =>
      rw [Nat.add_sub_add_right] at hfit ⊢
      have hle : b ≤ unit * 2 ^ h := by
        refine Nat.le_trans hfit (Nat.mul_le_mul_left _ ?_)
        exact Nat.pow_le_pow_right (by decide) (Nat.sub_le h L)
      obtain ⟨hne, hchild⟩ := SplitTree.exists_le_value_child ht hb hv hle
      -- what the search reads are the values of the halves
      have hrl := hr.child hne false
      have hrr := hr.child hne true
      simp only [Allocator.searchSuitableBlock, left_eq, left_add_one, (hin.child false).read,
        (hin.child true).read, bind, Except.bind, SplitTree.half_eq, hrl.value, hrr.value]
      by_cases hl : b ≤ (t.child false).value unit h
      · obtain ⟨p, hp, hopen, hval, hrun⟩ :=
          ih addr hrl (ht.child false) (hin.child false) hl (by omega) hfit
        refine ⟨false :: p, by rw [List.length_cons, hp], ⟨hne, hopen⟩, hval, ?_⟩
        rw [if_pos hl, hrun]
        simp [nodeIndex, SplitTree.offset]
      · have hr' := hchild.resolve_left hl
        obtain ⟨p, hp, hopen, hval, hrun⟩ :=
          ih (addr + unit * 2 ^ h) hrr (ht.child true) (hin.child true) hr' (by omega) hfit
        refine ⟨true :: p, by rw [List.length_cons, hp], ⟨hne, hopen⟩, hval, ?_⟩
        rw [if_neg hl, if_pos hr', hrun]
        simp [nodeIndex, SplitTree.offset, Nat.add_assoc]

/-- The number at the end of the search tells that the block is free. -/
theorem subtree_eq_free {L : ℕ} (hunit : 0 < unit) (ht : t.WellFormed h) (hp : p.length = L)
    (hL : L ≤ h) (hb : 0 < b) (hv : b ≤ (t.subtree p).value unit (h - L))
    (hlast : L < h → unit * 2 ^ (h - L - 1) < b) : t.subtree p = .free := by
  subst hp
  -- a block of the smallest size is not split; a larger one is free by its number
  have hsub := ht.subtree hL
  cases hk : h - p.length with
  | zero =>
    rw [hk] at hsub hv
    cases hs : t.subtree p with
    | free => rfl
    | used =>
      rw [hs, SplitTree.value] at hv
      omega
    | split l r =>
      rw [hs] at hsub
      exact absurd hsub id
  | succ k =>
    have hlt := hlast (by omega)
    rw [hk] at hsub hv
    rw [hk, Nat.add_sub_cancel] at hlt
    exact SplitTree.eq_free_of_lt_value hunit hsub (Nat.lt_of_lt_of_le hlt hv)

/-- The search of `deallocate` finds the block in use that starts at the given offset. -/
theorem descend_spec {L base o : ℕ} (hunit : 0 < unit) (ht : t.WellFormed h)
    (hbase : unit * 2 ^ h ∣ base) (hbound : base + unit * 2 ^ h < 2 ^ 64) (hL : L ≤ h)
    (hb : (o, unit * 2 ^ (h - L)) ∈ t.blocks unit base h) :
    ∃ p, p.length = L ∧ t.Open p ∧ t.subtree p = .used ∧ o = base + SplitTree.offset unit h p ∧
      descend o L i (unit * 2 ^ h) base = (nodeIndex i p, unit * 2 ^ (h - L)) := by
  induction L generalizing i h t base with
  | zero =>
    -- a block of the size of the whole tree is the whole tree
    obtain ⟨rfl, rfl⟩ := SplitTree.eq_used_of_mem_blocks hunit ht hbase hb
    exact ⟨[], rfl, trivial, rfl, rfl, rfl⟩
  | succ L ih =>
    cases h with
    | zero => omega
    | succ h =>
      rw [Nat.add_sub_add_right] at hb ⊢
      have hdouble := SplitTree.double_eq unit h
      have hpos : 0 < unit * 2 ^ h := Nat.mul_pos hunit (Nat.two_pow_pos h)
      -- the block is smaller than the tree, so it is inside a half of it
      have hne : t ≠ .used := by
        rintro rfl
        rw [SplitTree.blocks, List.mem_singleton, Prod.mk.injEq] at hb
        have hle : unit * 2 ^ (h - L) ≤ unit * 2 ^ h :=
          Nat.mul_le_mul_left _ (Nat.pow_le_pow_right (by decide) (Nat.sub_le h L))
        omega
      have hdvd : unit * 2 ^ h ∣ base := (SplitTree.dvd_double unit h).trans hbase
      have hdvd' : unit * 2 ^ h ∣ base + unit * 2 ^ h := Nat.dvd_add hdvd (Nat.dvd_refl _)
      have hadd : add 64 base (unit * 2 ^ h) = base + unit * 2 ^ h := add_eq (by omega)
      have hsize : 0 < unit * 2 ^ (h - L) := Nat.mul_pos hunit (Nat.two_pow_pos _)
      simp only [descend, SplitTree.half_eq, hadd, left_eq, right_eq]
      rw [SplitTree.blocks_of_ne_used hne, Nat.add_sub_cancel, List.mem_append] at hb
      -- the offset tells which half: the halves do not overlap
      rcases hb with hb | hb
      · obtain ⟨-, hend, -⟩ := SplitTree.blocks_bounds (ht.child false) hdvd hb
        obtain ⟨p, hp, hopen, hused, ho, hrun⟩ :=
          ih (i := childIndex i false) (ht.child false) hdvd (by omega) (by omega) hb
        simp only at hend
        refine ⟨false :: p, by rw [List.length_cons, hp], ⟨hne, hopen⟩, hused, ?_, ?_⟩
        · simpa [SplitTree.offset] using ho
        · rw [if_pos (by omega)]
          exact hrun
      · obtain ⟨hstart, -, -⟩ := SplitTree.blocks_bounds (ht.child true) hdvd' hb
        obtain ⟨p, hp, hopen, hused, ho, hrun⟩ :=
          ih (i := childIndex i true) (ht.child true) hdvd' (by omega) (by omega) hb
        simp only at hstart
        refine ⟨true :: p, by rw [List.length_cons, hp], ⟨hne, hopen⟩, hused, ?_, ?_⟩
        · simpa [SplitTree.offset, Nat.add_assoc] using ho
        · rw [if_neg (by omega)]
          exact hrun

/-! ## Restoring the numbers -/

/-- One iteration of `update_pool` gives the parent of `childIndex i d` the merged number of its
halves. -/
theorem updatePoolBody_spec {l r : SplitTree} (d : Bool) (hin : InTable a i (h + 1))
    (hbound : unit * 2 ^ (h + 1) < 2 ^ 64) (hl : Represents unit a.pool (childIndex i false) h l)
    (hr : Represents unit a.pool (childIndex i true) h r) (hwl : l.WellFormed h)
    (hwr : r.WellFormed h) :
    updatePoolBody (a, childIndex i d, unit * 2 ^ h) =
      .ok (a.setEntry i (SplitTree.merge (unit * 2 ^ (h + 1)) (l.value unit h) (r.value unit h)), i,
        unit * 2 ^ (h + 1)) := by
  have hvl := SplitTree.value_le unit hwl
  have hvr := SplitTree.value_le unit hwr
  have hdouble := SplitTree.double_eq unit h
  -- neither the doubled size nor the sum of the numbers wraps
  have hsize : unit * 2 ^ h * 2 % 2 ^ 64 = unit * 2 ^ (h + 1) := by
    rw [Nat.mod_eq_of_lt (by omega)]
    omega
  have hadd : add 64 (l.value unit h) (r.value unit h) = l.value unit h + r.value unit h :=
    add_eq (by omega)
  simp only [updatePoolBody, parent_childIndex, left_eq, right_eq, (hin.child false).read,
    (hin.child true).read, bind, Except.bind, hsize, hl.value, hr.value, hadd, hin.write,
    SplitTree.merge]
  split_ifs <;> rfl

/-- The loop of `update_pool` turns a table with a change at the end of a path into the table of
the changed tree. It does not leave the subtree of its last node, nor reach the end of the path. -/
theorem updatePool_steps (hhole : RepresentsHole unit a.pool i h t p s) (ht : t.WellFormed h)
    (hs : s.WellFormed (h - p.length)) (hin : InTable a i h) (hp : p.length ≤ h)
    (hbound : unit * 2 ^ h < 2 ^ 64) :
    ∃ a', Steps (fun s => .ok (s.2.1 != 0)) updatePoolBody p.length
        (a, nodeIndex i p, unit * 2 ^ (h - p.length)) (a', i, unit * 2 ^ h) ∧
      Represents unit a'.pool i h (t.replace p s) ∧ SameFields a a' ∧
      ∀ j, ¬ Below i j ∨ nodeIndex i p ≤ j → a'.pool j = a.pool j := by
  induction p generalizing i h t with
  | nil => exact ⟨a, .refl _, representsHole_nil.1 hhole, rfl, fun _ _ => rfl⟩
  | cons d p ih =>
    cases h with
    | zero => simp at hp
    | succ h =>
      rw [List.length_cons, Nat.add_sub_add_right] at *
      obtain ⟨hhole, hsib⟩ := hhole
      have hdouble := SplitTree.double_eq unit h
      obtain ⟨a₁, hsteps, hr₁, hsame, hout⟩ :=
        ih hhole (ht.child d) hs (hin.child d) (by omega) (by omega)
      -- the sibling is not affected by the iterations so far
      have hsib₁ : Represents unit a₁.pool (childIndex i !d) h (t.child !d) :=
        hsib.congr fun j hj => hout j (.inl fun hj' => not_below_sibling hj' hj)
      have hw₁ := (ht.child d).replace (by omega) hs
      have hin₁ := hin.of_sameFields hsame
      have hcond : (fun s : Allocator × ℕ × ℕ => (Except.ok (s.2.1 != 0) : Except Fault Bool))
          (a₁, childIndex i d, unit * 2 ^ h) = .ok true := by
        simp [childIndex_pos]
      -- the last iteration sets the number of node `i`, which is in neither half
      have hkeep : ∀ v e {k : ℕ} {u : SplitTree}, Represents unit a₁.pool (childIndex i e) k u →
          Represents unit (a₁.setEntry i v).pool (childIndex i e) k u := by
        intro v e k u hu
        refine hu.congr fun j hj => Allocator.setEntry_of_ne a₁ v ?_
        rintro rfl
        exact not_below_child _ e hj
      have hfields : ∀ v, SameFields a (a₁.setEntry i v) :=
        fun v => hsame.trans (sameFields_setEntry a₁ i v)
      have houter : ∀ v j, ¬ Below i j ∨ nodeIndex (childIndex i d) p ≤ j →
          (a₁.setEntry i v).pool j = a.pool j := by
        rintro v j (hj | hj)
        · rw [Allocator.setEntry_of_ne a₁ v (by rintro rfl; exact hj (Below.refl _))]
          exact hout j (.inl fun hj' => hj hj'.of_child)
        · have hlt : i < j := (lt_childIndex i d).trans_le ((le_nodeIndex _ p).trans hj)
          rw [Allocator.setEntry_of_ne a₁ v (Nat.ne_of_gt hlt)]
          exact hout j (.inr hj)
      cases d with
      | false =>
        refine ⟨_, hsteps.snoc hcond
          (updatePoolBody_spec false hin₁ hbound hr₁ hsib₁ hw₁ (ht.child true)), ?_, hfields _,
          houter _⟩
        exact Represents.join (Allocator.setEntry_self ..) (hkeep _ false hr₁) (hkeep _ true hsib₁)
      | true =>
        refine ⟨_, hsteps.snoc hcond
          (updatePoolBody_spec true hin₁ hbound hsib₁ hr₁ (ht.child false) hw₁), ?_, hfields _,
          houter _⟩
        exact Represents.join (Allocator.setEntry_self ..) (hkeep _ false hsib₁) (hkeep _ true hr₁)

/-- The size of the whole pool is a number of 64 bits. -/
theorem Geometry.size_lt (hg : Geometry a unit H) : unit * 2 ^ H < 2 ^ 64 := by
  have hpos := hg.addr_pos
  have hbound := hg.addr_bound
  rw [hg.size] at hbound
  omega

/-- A node is not the last entry of the table. -/
theorem Geometry.nodeIndex_lt (hg : Geometry a unit H) (hp : p.length ≤ H) :
    nodeIndex 0 p + 1 < 2 ^ a.numOrder :=
  HeapOrder.nodeIndex_lt (by rw [hg.order]; omega)

/-- Changing the number of the node at the end of a path, with `update_pool` after it. -/
theorem updatePool_spec {v : ℕ} (hg : Geometry a unit H) (hr : Represents unit a.pool 0 H t)
    (ht : t.WellFormed H) (hopen : t.Open p) (hp : p.length ≤ H)
    (hs : Represents unit (a.setEntry (nodeIndex 0 p) v).pool (nodeIndex 0 p) (H - p.length) s)
    (hsw : s.WellFormed (H - p.length)) :
    ∃ a', (a.setEntry (nodeIndex 0 p) v).updatePool (nodeIndex 0 p) = .ok a' ∧
      Represents unit a'.pool 0 H (t.replace p s) ∧ Evolves a a' := by
  have hle := hg.order_le
  have horder := hg.order
  have hsame := sameFields_setEntry a (nodeIndex 0 p) v
  -- the new entry represents the new subtree, and nothing else has changed
  have hhole := hr.hole hopen hp (fun j hj => Allocator.setEntry_of_ne a v
    (by rintro rfl; exact hj (Below.refl _))) hs
  obtain ⟨a', hsteps, hr', hsame', hout⟩ := updatePool_steps hhole ht hsw
    (hg.inTable.of_sameFields hsame) hp hg.size_lt
  have hblock : computeBlockSize (a.setEntry (nodeIndex 0 p) v).poolSize (nodeIndex 0 p) =
      .ok (unit * 2 ^ (H - p.length)) := by
    have hsize : (a.setEntry (nodeIndex 0 p) v).poolSize = unit * 2 ^ H := hg.size
    rw [hsize, computeBlockSize_eq _ (by omega), div_pow_eq unit hp]
  -- the loop makes one step for each level
  have hloop : updatePoolLoop bitFuel (a.setEntry (nodeIndex 0 p) v, nodeIndex 0 p,
      unit * 2 ^ (H - p.length)) = .ok (a', 0, unit * 2 ^ H) :=
    hsteps.whileLoop_exit rfl (by unfold bitFuel; omega)
  refine ⟨a', ?_, hr', hsame.trans hsame', fun j hj => ?_⟩
  · simp only [Allocator.updatePool, hblock, bind, Except.bind, hloop]
  · -- the last node of the tree comes before the last entry
    have hlt : nodeIndex 0 p < j := by
      have hindex := hg.nodeIndex_lt hp
      omega
    rw [hout j (.inr hlt.le), Allocator.setEntry_of_ne a v (Nat.ne_of_gt hlt)]

/-- `allocate` returns `nullptr` if no free block is as large as the rounded size. -/
theorem allocate_null {size L : ℕ} (hg : Geometry a unit H) (hr : Represents unit a.pool 0 H t)
    (hround : roundedUpToMinBlockSize size a.minBlockSize = .ok b)
    (hlevel : computeLevel a.poolSize b = .ok L) (hlt : t.value unit H < b) :
    a.allocate size = .ok (none, a) := by
  have hroot : a.read 0 = .ok (t.value unit H) := by rw [hg.inTable.read, hr.value]
  simp only [Allocator.allocate, hround, hlevel, hroot, bind, Except.bind, if_pos hlt]

/-- `allocate` takes a free block of the level of the request, if there is one. -/
theorem allocate_take {size L : ℕ} (hg : Geometry a unit H) (hr : Represents unit a.pool 0 H t)
    (ht : t.WellFormed H) (hround : roundedUpToMinBlockSize size a.minBlockSize = .ok b)
    (hlevel : computeLevel a.poolSize b = .ok L) (hb : 0 < b) (hL : L ≤ H)
    (hfit : b ≤ unit * 2 ^ H → b ≤ unit * 2 ^ (H - L))
    (hlast : L < H → unit * 2 ^ (H - L - 1) < b) (hv : b ≤ t.value unit H) :
    ∃ p a', p.length = L ∧ t.Open p ∧ t.subtree p = .free ∧
      a.allocate size = .ok (some (a.poolAddr + SplitTree.offset unit H p), a') ∧
      Represents unit a'.pool 0 H (t.replace p .used) ∧ Evolves a a' := by
  have hroot : a.read 0 = .ok (t.value unit H) := by rw [hg.inTable.read, hr.value]
  have hlt : ¬t.value unit H < b := Nat.not_lt.2 hv
  have hbL := hfit (Nat.le_trans hv (SplitTree.value_le unit ht))
  obtain ⟨p, hp, hopen, hval, hsearch⟩ := search_spec a.poolAddr hr ht hg.inTable hb hv hL hbL
  have hfree := subtree_eq_free hg.unit_pos ht hp hL hb hval hlast
  subst hp
  -- the block is marked and the numbers above it are restored
  have hsub := hr.subtree hopen hL
  rw [hfree] at hsub
  obtain ⟨a', hupdate, hr', hsame⟩ := updatePool_spec (v := 0) (s := .used) hg hr ht hopen hL
    (hsub.take (Allocator.setEntry_self ..) fun j hj => Allocator.setEntry_of_ne a 0 hj)
    (SplitTree.wellFormed_used _)
  have hidx : nodeIndex 0 p < 2 ^ a.numOrder := Nat.lt_of_succ_lt (hg.nodeIndex_lt hL)
  have hsmall : 2 ^ a.numOrder ≤ 2 ^ 30 := Nat.pow_le_pow_right (by decide) hg.order_le
  have hmod : nodeIndex 0 p % 2 ^ 32 = nodeIndex 0 p := Nat.mod_eq_of_lt (by omega)
  have hwrite : a.write (nodeIndex 0 p) 0 = .ok (a.setEntry (nodeIndex 0 p) 0) := if_pos hidx
  have haddr : a.poolAddr + SplitTree.offset unit H p ≠ 0 := by
    have := hg.addr_pos
    omega
  refine ⟨p, a', rfl, hopen, hfree, ?_, hr', hsame⟩
  rw [← hg.size] at hsearch
  simp only [Allocator.allocate, hround, hlevel, hroot, bind, Except.bind, if_neg hlt, hsearch,
    hmod, if_neg haddr, hwrite, hupdate]

/-- `allocate` returns `nullptr`, or takes a free block that is large enough. -/
theorem allocate_spec {size : ℕ} (hg : Geometry a unit H) (hr : Represents unit a.pool 0 H t)
    (ht : t.WellFormed H) (hsize : size ≤ 2 ^ 63) :
    a.allocate size = .ok (none, a) ∨
      ∃ p a', p.length ≤ H ∧ t.Open p ∧ t.subtree p = .free ∧
        a.allocate size = .ok (some (a.poolAddr + SplitTree.offset unit H p), a') ∧
        Represents unit a'.pool 0 H (t.replace p .used) ∧ Evolves a a' ∧
        a.blockLength size = .ok (unit * 2 ^ (H - p.length)) ∧
        size ≤ unit * 2 ^ (H - p.length) := by
  obtain ⟨b, L, hround, hlevel, hlength, hsb, hb, hL, hfit, hlast⟩ := request_spec hg hsize
  by_cases hlt : t.value unit H < b
  · exact .inl (allocate_null hg hr hround hlevel hlt)
  · have hv : b ≤ t.value unit H := Nat.le_of_not_lt hlt
    obtain ⟨p, a', rfl, hopen, hfree, hrun, hr', hevolves⟩ :=
      allocate_take hg hr ht hround hlevel hb hL hfit hlast hv
    have hbL := hfit (Nat.le_trans hv (SplitTree.value_le unit ht))
    exact .inr ⟨p, a', hL, hopen, hfree, hrun, hr', hevolves, hlength, by omega⟩

/-- `deallocate` gives back the block in use at its address. -/
theorem deallocate_spec {o len size : ℕ} (hg : Geometry a unit H)
    (hr : Represents unit a.pool 0 H t) (ht : t.WellFormed H) (hsize : size ≤ 2 ^ 63)
    (hlen : a.blockLength size = .ok len) (hb : (o, len) ∈ t.blocks unit 0 H) :
    ∃ p a', p.length ≤ H ∧ t.Open p ∧ t.subtree p = .used ∧ o = SplitTree.offset unit H p ∧
      len = unit * 2 ^ (H - p.length) ∧ a.deallocate (a.poolAddr + o) size = .ok a' ∧
      Represents unit a'.pool 0 H (t.replace p .free) ∧ Evolves a a' := by
  obtain ⟨b, L, hround, hlevel, hlength, -, -, hL, -⟩ := request_spec hg hsize
  obtain rfl := Except.ok.inj (hlen.symm.trans hlength)
  have hlt := hg.size_lt
  obtain ⟨-, hend, -⟩ := SplitTree.blocks_bounds ht (Nat.dvd_zero _) hb
  -- the search ends at the node of the block
  obtain ⟨p, hp, hopen, hused, ho, hrun⟩ :=
    descend_spec (i := 0) hg.unit_pos ht (Nat.dvd_zero _) (by omega) hL hb
  subst hp
  rw [Nat.zero_add] at ho hend
  have hsub := hr.subtree hopen hL
  rw [hused] at hsub
  obtain ⟨a', hupdate, hr', hsame⟩ :=
    updatePool_spec (v := unit * 2 ^ (H - p.length)) (s := .free) hg hr ht hopen hL
      (hsub.release (Allocator.setEntry_self ..) fun j hj => Allocator.setEntry_of_ne a _ hj)
      (SplitTree.wellFormed_free _)
  have hwrite : ∀ v, a.write (nodeIndex 0 p) v = .ok (a.setEntry (nodeIndex 0 p) v) :=
    fun v => if_pos (Nat.lt_of_succ_lt (hg.nodeIndex_lt hL))
  -- the offset is computed from the address, which does not wrap
  have hoff : sub 64 (a.poolAddr + o) a.poolAddr = o := by
    have hbound := hg.addr_bound
    have hpos : 0 < unit * 2 ^ (H - p.length) := Nat.mul_pos hg.unit_pos (Nat.two_pow_pos _)
    rw [hg.size] at hbound
    simp only at hend
    rw [sub_eq (by omega) (by omega), Nat.add_sub_cancel_left]
  refine ⟨p, a', hL, hopen, hused, ho, rfl, ?_, hr', hsame⟩
  rw [← hg.size] at hrun
  simp only [Allocator.deallocate, hround, hlevel, bind, Except.bind, hoff, hrun, hwrite, hupdate]

end CppLearn.Buddy

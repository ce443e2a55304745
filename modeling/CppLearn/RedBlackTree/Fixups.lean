import CppLearn.RedBlackTree.EraseFixup
import CppLearn.RedBlackTree.Search

/-!
# The loops of the two repairs

Nothing in the code of `_erase_fixup` says that its loop ends: the case of the inner red nephew goes
round once more without moving. Nor does it say that the comparison with the left child finds the
side of the position, since all leaves are the one cell `null_node_`. Both rest on the black
heights. The subtree beside a deficient position has a black node, so that it is never empty, and
an iteration that does not move the position leaves a red outer nephew, so that the next one is
the last.

A state in which the loop of `_erase_fixup` goes on is an `ErasePosition`, and `FindsBrother` is
what an iteration reads there. `fixups_terminate` says that both repairs return on every tree with
the defect that they are meant for, and that every iteration of `_erase_fixup` finds its side and a
brother that is not `null_node_`.
-/

namespace CppLearn

open RedBlack BoundedLoop

variable {K V : Type}

/-- In the state `p` of the loop of `_erase_fixup` the position is the hole below the node of `f`,
and one black node is missing there. The parent pointer of `null_node_` says so if nothing is in
the hole. -/
structure ErasePosition (p : RBTree K V × Ptr) (f : Frame (Entry K V)) (C : Context (Entry K V))
    (s : ColorTree (Entry K V)) (E : List Ptr) (n₀ : Node K V) : Prop where
  /-- `fixup_node` points to the subtree. -/
  pointer : p.2 = ptr s
  /-- The cells are those of a tree. -/
  tree : Represents p.1 (plug (f :: C) s) E n₀
  /-- The only defect of the tree is at the position. -/
  deficient : Deficient (f :: C) s
  /-- `null_node_` hangs below the node of `f` if it is the position. -/
  hangs : s = .nil → n₀.parent = f.label.addr

/-- What an iteration of `_erase_fixup` reads at a position on side `d` of the node at `up`. -/
structure FindsBrother (p : RBTree K V × Ptr) (up : Ptr) (d : Side) : Prop where
  /-- The parent pointer of the position leads to the node, whose child on side `d` it is. The
  comparison with the left child tells the side, and the other child is not `null_node_`. -/
  side : ∃ n m, p.1.heap p.2 = some n ∧ n.parent = up ∧ p.1.heap up = some m ∧ m.child d = p.2 ∧
    (p.2 = m.left ↔ d = .left) ∧ m.child d.flip ≠ nullNode
  /-- The first half of the iteration returns a black brother that is not `null_node_`, and the
  second half returns. -/
  brother : ∃ t' q b, p.1.eraseFixupBrother d p.2 = .ok (t', q) ∧ q ≠ nullNode ∧
    t'.heap q = some b ∧ b.color = .BLACK ∧ ∃ p', t'.eraseFixupBlack d p.2 q = .ok p'

section Loops

variable {t : RBTree K V} {p : RBTree K V × Ptr} {E : List Ptr} {n₀ : Node K V}
  {C : Context (Entry K V)} {f : Frame (Entry K V)} {s : ColorTree (Entry K V)}

/-- The pointer to the sibling of a deficient position is not `null_node_`. -/
theorem Represents.ptr_sibling_ne_nullNode (h : Represents t (plug (f :: C) s) E n₀)
    (hD : Deficient (f :: C) s) : ptr f.sibling ≠ nullNode := by
  rw [plug_sibling] at h
  exact fun hnull => hD.sibling_ne_nil (h.ptr_eq_nullNode_iff.1 hnull)

/-- Every iteration finds its side and a brother. -/
theorem ErasePosition.findsBrother (h : ErasePosition p f C s E n₀)
    (hcond : RBTree.eraseFixupCond p = .ok true) : FindsBrother p f.label.addr f.side := by
  obtain ⟨t, q⟩ := p
  obtain ⟨hp, hrep, hD, hnull⟩ := h
  obtain rfl : q = ptr s := hp
  have hblack : s.color = .BLACK := by
    rw [eraseFixupCond_eq hrep] at hcond
    simpa using hcond
  constructor
  · obtain ⟨n, hn, hparent, -⟩ := hrep.heap_position hnull
    have hne : ptr f.sibling ≠ ptr s := hrep.ptr_sibling_ne (.inr hD.sibling_ne_nil)
    have hsib : ptr f.sibling ≠ nullNode := hrep.ptr_sibling_ne_nullNode hD
    exact ⟨n, _, hn, hparent, hrep.heap_parent, cell_child .., eq_cell_left_iff _ _ _ _ _ _ hne,
      by rwa [cell_child_flip]⟩
  · obtain ⟨t', f', C', hrun, hrep', hD', hb, hside, hlabel, -⟩ :=
      eraseFixupBrother_spec hrep hD hnull
    obtain ⟨b, hheap, hcolor⟩ := hrep'.heap_color_sibling
    have hnull' : s = .nil → n₀.parent = f'.label.addr := by rw [hlabel]; exact hnull
    obtain ⟨t'', q, hrun', -⟩ := eraseFixupBlack_spec hrep' hD' hnull' hblack hb
    rw [hside] at hrun'
    exact ⟨t', _, b, hrun, hrep'.ptr_sibling_ne_nullNode hD', hheap, hcolor.trans hb, _, hrun'⟩

/-- At the root there is nothing to repair. -/
theorem eraseFixup_top (h : Represents t s E n₀) :
    RBTree.eraseFixupCond (t, ptr s) = .ok false ∧ ∃ t', t.eraseFixup (ptr s) = .ok t' := by
  have hcond : RBTree.eraseFixupCond (t, ptr s) = .ok false := eraseFixupCond_eq (C := []) h
  have hloop : whileLoop (fun _ => .diverged) RBTree.eraseFixupCond RBTree.eraseFixupBody t.fuel
      (t, ptr s) = .ok (t, ptr s) :=
    (Steps.refl _).whileLoop_exit hcond (by simp [RBTree.fuel])
  obtain ⟨t', hrun, -⟩ := Represents.setColor_black (C := []) h
  exact ⟨hcond, t', by simp only [RBTree.eraseFixup, bind, Except.bind, hloop, hrun]⟩

/-- The loop of `_erase_fixup` is left, and goes on at positions only. -/
theorem eraseFixup_loop (h : Represents t (plug (f :: C) s) E n₀) (hD : Deficient (f :: C) s)
    (hnull : s = .nil → n₀.parent = f.label.addr) :
    (∃ k ≤ (f :: C).length + 1, ∃ p,
      Steps RBTree.eraseFixupCond RBTree.eraseFixupBody k (t, ptr s) p ∧
      RBTree.eraseFixupCond p = .ok false) ∧
    ∀ k p, Steps RBTree.eraseFixupCond RBTree.eraseFixupBody k (t, ptr s) p →
      RBTree.eraseFixupCond p = .ok true → ∃ f C' s', ErasePosition p f C' s' E n₀ := by
  have hI : EraseInvariant E n₀ (plug (f :: C) s).toList ((f :: C).length + 1) (t, ptr s) :=
    .inl ⟨_, s, rfl, h, hD, hnull, rfl, .inr (.inr (.inr (Nat.le_refl _)))⟩
  constructor
  · exact Steps.exists_exit (fun n p hI => hI.cond) (fun n p hI => hI.body) hI
  · intro k p hsteps hcond
    obtain ⟨m, -, hI'⟩ := hsteps.invariant (fun n p hI => hI.body) hI
    obtain ⟨f', C', s', hp, hrep, hD', hnull', -⟩ := hI'.position hcond
    exact ⟨f', C', s', hp, hrep, hD', hnull'⟩

/-- The loop of `_insert_fixup` is left. -/
theorem insertFixup_loop (h : Represents t (plug C s) E n₀) (hA : Ascending C s) :
    ∃ k ≤ 2 * C.length + 1, ∃ p,
      Steps RBTree.insertFixupCond RBTree.insertFixupBody k (t, ptr s) p ∧
      RBTree.insertFixupCond p = .ok false := by
  have hI : InsertInvariant E n₀ (plug C s).toList (insertIndex C) (t, ptr s) :=
    ⟨C, s, rfl, h, hA, rfl, rfl⟩
  obtain ⟨k, hk, hexit⟩ := Steps.exists_exit (fun n p hI => hI.cond) (fun n p hI => hI.body) hI
  exact ⟨k, hk.trans (insertIndex_le C), hexit⟩

end Loops

/-- `_erase_fixup` returns on every tree whose only defect is one black node that is missing on the
paths through `fixup_node`, after at most one iteration for each node above it and one more. Each
iteration starts at such a position, finds out on which side of its parent the position hangs, and
has a brother that is not `null_node_`. `_insert_fixup` returns on every tree whose only defect is a
red node that may have a red parent, after at most two iterations for each node above it and one
more. -/
theorem fixups_terminate :
    (∀ (t : RBTree K V) (E : List Ptr) (n₀ : Node K V) (C : Context (Entry K V))
        (s : ColorTree (Entry K V)), Represents t (plug C s) E n₀ → Deficient C s →
      (C ≠ [] → s = .nil → n₀.parent = parentPtr C) →
      (∃ t', t.eraseFixup (ptr s) = .ok t') ∧
      (∃ k ≤ C.length + 1, ∃ p, Steps RBTree.eraseFixupCond RBTree.eraseFixupBody k (t, ptr s) p ∧
        RBTree.eraseFixupCond p = .ok false) ∧
      ∀ k p, Steps RBTree.eraseFixupCond RBTree.eraseFixupBody k (t, ptr s) p →
        RBTree.eraseFixupCond p = .ok true →
        (∃ f C' s', ErasePosition p f C' s' E n₀) ∧
        ∀ f C' s', ErasePosition p f C' s' E n₀ → FindsBrother p f.label.addr f.side) ∧
    ∀ (t : RBTree K V) (E : List Ptr) (n₀ : Node K V) (C : Context (Entry K V))
        (s : ColorTree (Entry K V)), Represents t (plug C s) E n₀ → Ascending C s →
      (∃ t', t.insertFixup (ptr s) = .ok t') ∧
      ∃ k ≤ 2 * C.length + 1, ∃ p,
        Steps RBTree.insertFixupCond RBTree.insertFixupBody k (t, ptr s) p ∧
        RBTree.insertFixupCond p = .ok false := by
  constructor
  · intro t E n₀ C s h hD hnull
    cases C with
    | nil =>
      rw [plug_nil] at h
      obtain ⟨hcond, hrun⟩ := eraseFixup_top h
      refine ⟨hrun, ⟨0, Nat.zero_le _, _, .refl _, hcond⟩, fun k p hsteps => ?_⟩
      -- the condition fails in the first state already
      obtain ⟨-, -, rfl⟩ := hsteps.invariant (I := fun _ q => q = (t, ptr s)) (n := 0)
        (by rintro _ _ rfl htrue; simp [hcond] at htrue) rfl
      simp [hcond]
    | cons f C =>
      have hnull' : s = .nil → n₀.parent = f.label.addr := hnull (by simp)
      obtain ⟨t', _, hrun, -⟩ := eraseFixup_spec h hD hnull'
      obtain ⟨hexit, hpositions⟩ := eraseFixup_loop h hD hnull'
      refine ⟨⟨t', hrun⟩, hexit, fun k p hsteps hcond => ⟨hpositions k p hsteps hcond, ?_⟩⟩
      intro f' C' s' hpos
      exact hpos.findsBrother hcond
  · intro t E n₀ C s h hA
    obtain ⟨t', _, hrun, -⟩ := insertFixup_spec h hA
    exact ⟨⟨t', hrun⟩, insertFixup_loop h hA⟩

/-- Three nodes, each the right child of the one before: a black one, one of colour `c` and a red
one. The parent pointer of `null_node_` leads to the first. -/
def chain (c : Color) : RBTree ℕ ℕ where
  heap p :=
    if p = 0 then some ⟨0, 0, .BLACK, 0, 0, 1⟩
    else if p = 1 then some ⟨10, 0, .BLACK, 0, 2, 0⟩
    else if p = 2 then some ⟨20, 0, c, 0, 3, 1⟩
    else if p = 3 then some ⟨30, 0, .RED, 0, 0, 2⟩
    else none
  root := 1
  next := 4

theorem chain_represents (c : Color) :
    Represents (chain c) (.node .BLACK .nil ⟨1, 10, 0⟩ (.node c .nil ⟨2, 20, 0⟩
      (.node .RED .nil ⟨3, 30, 0⟩ .nil))) [] ⟨0, 0, .BLACK, 0, 0, 1⟩ where
  root := rfl
  stored := ⟨rfl, trivial, rfl, trivial, rfl, trivial, trivial⟩
  nodup := by cases c <;> decide
  sentinel := rfl
  black := rfl
  domain p := by
    simp only [chain, ColorTree.toList, nullNode, addrs]
    split_ifs <;> simp_all
  fresh p hp := by
    simp only [chain] at hp ⊢
    split_ifs at hp <;> simp_all

/-- A black brother with a red child beside `null_node_`, and a red node below a red one. -/
theorem fixups_terminate_chain :
    (∃ t', (chain .BLACK).eraseFixup nullNode = .ok t') ∧
      FindsBrother (chain .BLACK, nullNode) 1 .left ∧
      ∃ t', (chain .RED).insertFixup 3 = .ok t' := by
  let brother : ColorTree (Entry ℕ ℕ) :=
    .node .BLACK .nil ⟨2, 20, 0⟩ (.node .RED .nil ⟨3, 30, 0⟩ .nil)
  have hheight : brother.HasBlackHeight 1 := ⟨0, rfl, rfl, 0, rfl, rfl, rfl⟩
  let f : Frame (Entry ℕ ℕ) := ⟨.left, .BLACK, ⟨1, 10, 0⟩, brother⟩
  have hD : Deficient [f] .nil :=
    ⟨trivial, by simp [f, brother, Context.NoRedRed, ColorTree.NoRedRed], rfl, 0, 2, rfl, hheight,
      rfl⟩
  obtain ⟨hrun, -, hfind⟩ := (fixups_terminate (K := ℕ) (V := ℕ)).1 (chain .BLACK) []
    ⟨0, 0, .BLACK, 0, 0, 1⟩ [f] .nil (chain_represents .BLACK) hD fun _ _ => rfl
  have hbrother := (hfind 0 _ (.refl _) rfl).2 f [] .nil
    ⟨rfl, chain_represents .BLACK, hD, fun _ => rfl⟩
  let above : Context (Entry ℕ ℕ) :=
    [⟨.right, .RED, ⟨2, 20, 0⟩, .nil⟩, ⟨.right, .BLACK, ⟨1, 10, 0⟩, .nil⟩]
  have hA : Ascending above (.node .RED .nil ⟨3, 30, 0⟩ .nil) :=
    ⟨rfl, by simp [ColorTree.NoRedRed], by simp [above, Context.NoRedRed, Context.parentColor], rfl,
      0, 1, ⟨0, rfl, rfl, rfl⟩, rfl, rfl, rfl⟩
  obtain ⟨hrun', -⟩ := (fixups_terminate (K := ℕ) (V := ℕ)).2 (chain .RED) []
    ⟨0, 0, .BLACK, 0, 0, 1⟩ above (.node .RED .nil ⟨3, 30, 0⟩ .nil) (chain_represents .RED) hA
  exact ⟨hrun, hbrother, hrun'⟩

end CppLearn

import CppLearn.RedBlackTree.Represents

/-!
# Repair after an insertion

`_insert_fixup` starts at a red node whose parent may be red and works towards the root. On the
represented tree each iteration is one of the steps of `RedBlack.Ascending`; the loop ends because
the position moves up, apart from at most one rotation between two moves.

One iteration is `insertFixupBody_spec`, and `insertFixup_spec` says that `_insert_fixup` returns a
balanced tree with the same entries.
-/

namespace CppLearn

open RedBlack BoundedLoop

variable {K V : Type}

theorem RBTree.rotateTo_eq (d : Side) (t : RBTree K V) (p : Ptr) :
    t.rotateTo d p = t.rotate d p := by cases d <;> rfl

/-- What is left to do for a position in a context: two units for each level, and one for a
position on the inner side. -/
def insertIndex : Context (Entry K V) → ℕ
  | f :: g :: C => 2 * C.length + (if f.side = g.side then 4 else 5)
  | [_] => 2
  | [] => 0

theorem insertIndex_le (C : Context (Entry K V)) : insertIndex C ≤ 2 * C.length + 1 := by
  match C with
  | [] => simp [insertIndex]
  | [_] => simp [insertIndex]
  | f :: g :: C =>
    simp only [insertIndex, List.length_cons]
    split_ifs <;> omega

theorem le_insertIndex (f g : Frame (Entry K V)) (C : Context (Entry K V)) :
    2 * C.length + 4 ≤ insertIndex (f :: g :: C) := by
  simp only [insertIndex]
  split_ifs <;> omega

section Body

variable {t : RBTree K V} {E : List Ptr} {n₀ : Node K V} {C : Context (Entry K V)}
  {f g : Frame (Entry K V)} {s : ColorTree (Entry K V)}

/-- What an iteration makes of a position: another one, at `p`, where less is left to do. -/
def FixupMoves (C : Context (Entry K V)) (s : ColorTree (Entry K V)) (E : List Ptr)
    (n₀ : Node K V) (t' : RBTree K V) (p : Ptr) : Prop :=
  ∃ C' s', p = ptr s' ∧ Represents t' (plug C' s') E n₀ ∧ Ascending C' s' ∧
    insertIndex C' < insertIndex C ∧ (plug C' s').toList = (plug C s).toList

/-- The uncle is red. -/
theorem recolour_moves (h : Represents t (plug (f :: g :: C) s) E n₀)
    (hA : Ascending (f :: g :: C) s) (hf : f.color = .RED) (hg : g.sibling.color = .RED) :
    ∃ t₁ t₂ t₃, t.modify f.label.addr (·.setColor .BLACK) = .ok t₁ ∧
      t₁.modify (ptr g.sibling) (·.setColor .BLACK) = .ok t₂ ∧
      t₂.modify g.label.addr (·.setColor .RED) = .ok t₃ ∧
      FixupMoves (f :: g :: C) s E n₀ t₃ g.label.addr := by
  obtain ⟨t₁, hrun₁, h₁⟩ := h.setColor_parent .BLACK
  obtain ⟨t₂, hrun₂, h₂⟩ :=
    Represents.setColor_sibling (f := g) (C := C) h₁ (ColorTree.ne_nil_of_red hg) .BLACK
  obtain ⟨t₃, hrun₃, h₃⟩ := h₂.setColor_parent .RED
  refine ⟨t₁, t₂, t₃, hrun₁, hrun₂, hrun₃, C, _, ?_, h₃, hA.recolour hf hg, ?_, ?_⟩
  · rw [ptr_fill]
  · have := insertIndex_le C
    have := le_insertIndex f g C
    omega
  · refine toList_plug_congr C (toList_fill_congr rfl rfl (ColorTree.toList_paint ..) ?_)
    exact toList_fill_congr rfl rfl rfl rfl

/-- The uncle is black, and the node is on the outer side. -/
theorem rotateOuter_moves (h : Represents t (plug (f :: g :: C) s) E n₀)
    (hA : Ascending (f :: g :: C) s) (hf : f.color = .RED) (hg : g.sibling.color = .BLACK)
    (hside : f.side = g.side) :
    ∃ t₁ t₂ t₃, t.modify f.label.addr (·.setColor .BLACK) = .ok t₁ ∧
      t₁.modify g.label.addr (·.setColor .RED) = .ok t₂ ∧
      t₂.rotate g.side.flip g.label.addr = .ok t₃ ∧
      FixupMoves (f :: g :: C) s E n₀ t₃ (ptr s) := by
  obtain ⟨t₁, hrun₁, h₁⟩ := h.setColor_parent .BLACK
  obtain ⟨t₂, hrun₂, h₂⟩ := Represents.setColor_parent (f := g) (C := C) h₁ .RED
  -- the same tree, seen from the grandparent
  have hshape : plug ({ g with color := .RED } :: C) ({ f with color := .BLACK }.fill s) =
      plug C (.nodeAt g.side.flip .RED g.sibling g.label
        (.nodeAt g.side.flip .BLACK f.sibling f.label s)) := by
    simp only [plug_cons, Frame.fill, ColorTree.nodeAt_flip, hside]
  rw [hshape] at h₂
  obtain ⟨t₃, hrun₃, h₃⟩ := h₂.rotate
  refine ⟨t₁, t₂, t₃, hrun₁, hrun₂, hrun₃, _, s, rfl, ?_, hA.rotateOuter hf hg, ?_, ?_⟩
  · simpa only [plug_cons, Frame.fill, ColorTree.nodeAt_flip, hside] using h₃
  · have := insertIndex_le ({ f with
      color := .BLACK, sibling := { g with color := .RED }.fill f.sibling } :: C)
    have := le_insertIndex f g C
    simp only [List.length_cons] at *
    omega
  · refine toList_plug_congr C ?_
    simp only [Frame.fill, hside]
    exact ColorTree.toList_rotate ..

/-- The uncle is black, and the node is on the inner side. -/
theorem rotateInner_moves (h : Represents t (plug (f :: g :: C) s) E n₀)
    (hA : Ascending (f :: g :: C) s) (hf : f.color = .RED) (hside : f.side = g.side.flip) :
    ∃ t₁, t.rotate g.side f.label.addr = .ok t₁ ∧
      FixupMoves (f :: g :: C) s E n₀ t₁ f.label.addr := by
  obtain ⟨a, x, b, hs⟩ := ColorTree.exists_nodeAt g.side (ColorTree.ne_nil_of_red hA.red)
  rw [hA.red] at hs
  have hshape : plug (f :: g :: C) s =
      plug (g :: C) (.nodeAt g.side f.color f.sibling f.label (.nodeAt g.side .RED a x b)) := by
    rw [plug_cons, ← hs, Frame.fill, hside, ColorTree.nodeAt_flip]
  rw [hshape] at h
  obtain ⟨t₁, hrun₁, h₁⟩ := h.rotate
  rw [hs] at hA
  refine ⟨t₁, hrun₁, ⟨g.side, .RED, x, b⟩ :: g :: C, f.fill a, (ptr_fill _ _).symm, ?_,
    hA.rotateInner hf, ?_, ?_⟩
  · simpa only [plug_cons, Frame.fill, hside, ColorTree.nodeAt_flip] using h₁
  · simp [insertIndex, hside, Side.flip_ne]
  · rw [hshape]
    refine toList_plug_congr (g :: C) ?_
    simp only [Frame.fill, hside, ColorTree.nodeAt_flip]
    exact (ColorTree.toList_rotate ..).symm

/-- An iteration of the loop with the parent on side `g.side` of the grandparent. -/
theorem insertFixupSide_spec (h : Represents t (plug (f :: g :: C) s) E n₀)
    (hA : Ascending (f :: g :: C) s) (hf : f.color = .RED) :
    ∃ t' p, t.insertFixupSide g.side (ptr s) = .ok (t', p) ∧
      FixupMoves (f :: g :: C) s E n₀ t' p := by
  obtain ⟨a, x, b, hs⟩ := ColorTree.exists_nodeAt g.side (ColorTree.ne_nil_of_red hA.red)
  rw [hA.red] at hs
  have hiter : t.heap (ptr s) =
      some (cell g.side .RED (ptr a) x (ptr b) f.label.addr) := by
    rw [hs, ptr_nodeAt]
    exact (hs ▸ h).heap_focus
  have hparent := h.heap_parent
  have hgrand := Represents.heap_parent (T := f.fill s) (C := C) h
  obtain ⟨u, hu, huc⟩ := Represents.heap_color_sibling (T := f.fill s) (C := C) h
  rw [ptr_fill] at hgrand
  have hsib : ptr f.sibling ≠ ptr s := h.ptr_sibling_ne (.inl (ColorTree.ne_nil_of_red hA.red))
  -- the colour of the uncle and the side of the node are read off the cells
  simp only [RBTree.insertFixupSide, bind, Except.bind, RBTree.read_eq hiter, cell_parent,
    RBTree.read_eq hparent, parentPtr_cons, RBTree.read_eq hgrand, cell_child_flip,
    RBTree.read_eq hu, huc, eq_cell_child_iff _ _ _ _ _ _ _ hsib, RBTree.rotateTo_eq]
  cases hured : g.sibling.color with
  | RED =>
    obtain ⟨t₁, t₂, t₃, hrun₁, hrun₂, hrun₃, hmoves⟩ := recolour_moves h hA hf hured
    exact ⟨t₃, _, by simp only [if_true, hrun₁, hrun₂, hrun₃], hmoves⟩
  | BLACK =>
    rw [if_neg (by simp)]
    rcases Side.eq_or_eq_flip g.side f.side with hside | hside
    · obtain ⟨t₁, t₂, t₃, hrun₁, hrun₂, hrun₃, hmoves⟩ := rotateOuter_moves h hA hf hured hside
      have hne : ¬f.side = g.side.flip := by rw [hside]; exact (Side.flip_ne _).symm
      exact ⟨t₃, _, by simp only [if_neg hne, hrun₁, hrun₂, hrun₃], hmoves⟩
    · obtain ⟨t₁, hrun₁, hmoves⟩ := rotateInner_moves h hA hf hside
      exact ⟨t₁, _, by simp only [hside, if_true, hrun₁], hmoves⟩

/-- One iteration of the loop of `_insert_fixup`. -/
theorem insertFixupBody_spec (h : Represents t (plug (f :: g :: C) s) E n₀)
    (hA : Ascending (f :: g :: C) s) (hf : f.color = .RED) :
    ∃ t' p, RBTree.insertFixupBody (t, ptr s) = .ok (t', p) ∧
      FixupMoves (f :: g :: C) s E n₀ t' p := by
  obtain ⟨a, x, b, hs⟩ := ColorTree.exists_nodeAt .left (ColorTree.ne_nil_of_red hA.red)
  have hiter : t.heap (ptr s) = some (cell .left s.color (ptr a) x (ptr b) f.label.addr) := by
    rw [hs, ptr_nodeAt, ColorTree.color_nodeAt]
    exact (hs ▸ h).heap_focus
  have hgrand := Represents.heap_parent (T := f.fill s) (C := C) h
  -- the test for the left child tells the side: the uncle is another node
  have hsib : ptr g.sibling ≠ ptr (f.fill s) :=
    Represents.ptr_sibling_ne (C := C) h (.inl (f.fill_ne_nil s))
  rw [ptr_fill] at hgrand hsib
  obtain ⟨t', p, hrun, hmoves⟩ := insertFixupSide_spec h hA hf
  refine ⟨t', p, ?_, hmoves⟩
  rw [← hrun]
  simp only [RBTree.insertFixupBody, bind, Except.bind, RBTree.read_eq hiter, cell_parent,
    RBTree.read_eq h.heap_parent, parentPtr_cons, RBTree.read_eq hgrand,
    eq_cell_left_iff _ _ _ _ _ _ hsib]
  cases g.side <;> simp

/-- The loop condition of `_insert_fixup` is the colour of the node above. -/
theorem insertFixupCond_eq (h : Represents t (plug C s) E n₀) (hs : s ≠ .nil) :
    RBTree.insertFixupCond (t, ptr s) = .ok (C.parentColor == .RED) := by
  obtain ⟨a, x, b, hs⟩ := ColorTree.exists_nodeAt .left hs
  have hiter : t.heap (ptr s) = some (cell .left s.color (ptr a) x (ptr b) (parentPtr C)) := by
    rw [hs, ptr_nodeAt, ColorTree.color_nodeAt]
    exact (hs ▸ h).heap_focus
  simp only [RBTree.insertFixupCond, bind, Except.bind, RBTree.read_eq hiter, cell_parent]
  cases C with
  | nil =>
    simp only [parentPtr_nil, RBTree.read_eq h.sentinel, h.black, Context.parentColor]
  | cons f C =>
    simp only [parentPtr_cons, RBTree.read_eq h.heap_parent, cell_color, Context.parentColor]

/-- The state of the loop of `_insert_fixup`: the position is an ascending red node, with
`insertIndex` units to go. -/
def InsertInvariant (E : List Ptr) (n₀ : Node K V) (L : List (Entry K V)) (n : ℕ)
    (p : RBTree K V × Ptr) : Prop :=
  ∃ C s, p.2 = ptr s ∧ Represents p.1 (plug C s) E n₀ ∧ Ascending C s ∧ insertIndex C = n ∧
    (plug C s).toList = L

/-- The loop condition can be evaluated in every state of the loop. -/
theorem InsertInvariant.cond {L : List (Entry K V)} {n : ℕ} {p : RBTree K V × Ptr}
    (h : InsertInvariant E n₀ L n p) : ∃ b, RBTree.insertFixupCond p = .ok b := by
  obtain ⟨t, q⟩ := p
  obtain ⟨C, s, rfl, h, hA, -⟩ := h
  exact ⟨_, insertFixupCond_eq h (ColorTree.ne_nil_of_red hA.red)⟩

/-- One iteration takes a state of the loop to another one with a smaller index. -/
theorem InsertInvariant.body {L : List (Entry K V)} {n : ℕ} {p : RBTree K V × Ptr}
    (h : InsertInvariant E n₀ L n p) (hcond : RBTree.insertFixupCond p = .ok true) :
    ∃ p' m, RBTree.insertFixupBody p = .ok p' ∧ m < n ∧ InsertInvariant E n₀ L m p' := by
  obtain ⟨t, q⟩ := p
  obtain ⟨C, s, rfl, h, hA, rfl, hl⟩ := h
  rw [insertFixupCond_eq h (ColorTree.ne_nil_of_red hA.red)] at hcond
  have hred : C.parentColor = .RED := by simpa using hcond
  cases C with
  | nil => cases hred
  | cons f C =>
    obtain ⟨g, C', rfl, -⟩ := hA.exists_grandparent hred
    obtain ⟨t', p, hrun, C'', s', hp, h', hA', hlt, hl'⟩ := insertFixupBody_spec h hA hred
    exact ⟨_, _, hrun, hlt, C'', s', hp, h', hA', rfl, hl'.trans hl⟩

/-- `_insert_fixup` returns and leaves a balanced tree with the same entries. -/
theorem insertFixup_spec (h : Represents t (plug C s) E n₀) (hA : Ascending C s) :
    ∃ t' T', t.insertFixup (ptr s) = .ok t' ∧ Represents t' T' E n₀ ∧ Balanced T' ∧
      T'.toList = (plug C s).toList := by
  let Q : RBTree K V × Ptr → Prop := fun p =>
    ∃ C' s', Represents p.1 (plug C' s') E n₀ ∧ Ascending C' s' ∧ C'.parentColor = .BLACK ∧
      (plug C' s').toList = (plug C s).toList
  obtain ⟨⟨t₁, p₁⟩, hrun, C₁, s₁, h₁, hA₁, hblack, hlist⟩ :
      ∃ p, whileLoop (fun _ => .diverged) RBTree.insertFixupCond RBTree.insertFixupBody
        t.fuel (t, ptr s) = .ok p ∧ Q p := by
    refine whileLoop_spec (I := InsertInvariant E n₀ (plug C s).toList) (Q := Q) ?_
      (fun n p hI => hI.cond) (fun n p hI => hI.body) ⟨C, s, rfl, h, hA, rfl, rfl⟩ ?_
    · rintro n ⟨t₁, p₁⟩ ⟨C₁, s₁, rfl, h₁, hA₁, -, hl⟩ hcond
      refine ⟨C₁, s₁, h₁, hA₁, ?_, hl⟩
      rw [insertFixupCond_eq h₁ (ColorTree.ne_nil_of_red hA₁.red)] at hcond
      cases hc : C₁.parentColor with
      | BLACK => rfl
      | RED => simp [hc] at hcond
    · have := insertIndex_le C
      have := h.context_length_lt_next
      simp only [RBTree.fuel]
      omega
  -- the root is painted black
  have hne : plug C₁ s₁ ≠ .nil := plug_ne_nil C₁ (ColorTree.ne_nil_of_red hA₁.red)
  obtain ⟨t₂, hrun₂, h₂⟩ := Represents.setColor (C := []) h₁ hne .BLACK
  refine ⟨t₂, _, ?_, h₂, hA₁.balanced_paint hblack, ?_⟩
  · have hroot : t₁.root = ptr (plug C₁ s₁) := h₁.root
    simp only [RBTree.insertFixup, bind, Except.bind, hrun, hroot, hrun₂]
  · rw [plug_nil, ColorTree.toList_paint, hlist]

end Body

end CppLearn

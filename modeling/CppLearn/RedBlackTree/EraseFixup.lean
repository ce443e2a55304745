import CppLearn.RedBlackTree.InsertFixup

/-!
# Repair after a deletion

`_erase_fixup` starts at a position where one black node is missing and works towards the root.
The position may be `null_node_` itself: then its parent pointer, which the deletion has just
overwritten, says where it hangs. On the represented tree each iteration is one of the steps of
`RedBlack.Deficient`, possibly after the one that makes the brother black.

The two halves of an iteration are `eraseFixupBrother_spec` and `eraseFixupBlack_spec`. Together
they show that `_erase_fixup` returns a balanced tree with the same entries (`eraseFixup_spec`).
-/

namespace CppLearn

open RedBlack BoundedLoop

variable {K V : Type}

/-- The brother is black and its child on the far side is red: the next iteration is the last. -/
def FarRed : Context (Entry K V) → Prop
  | [] => False
  | f :: _ => ∃ a x b, f.sibling = .nodeAt f.side .BLACK a x b ∧ b.color = .RED

/-- `n` bounds the number of iterations that are left at position `s` of the context. -/
def EraseIndex (C : Context (Entry K V)) (s : ColorTree (Entry K V)) (n : ℕ) : Prop :=
  C = [] ∨ s.color = .RED ∨ (FarRed C ∧ 1 ≤ n) ∨ C.length + 1 ≤ n

section Body

variable {t : RBTree K V} {E : List Ptr} {n₀ : Node K V} {C : Context (Entry K V)}
  {f : Frame (Entry K V)} {s : ColorTree (Entry K V)}

/-- The cell of a position knows its parent, also when the position is `null_node_`. -/
theorem Represents.heap_position (h : Represents t (plug C s) E n₀)
    (hnull : s = .nil → n₀.parent = parentPtr C) :
    ∃ n, t.heap (ptr s) = some n ∧ n.parent = parentPtr C ∧ n.color = s.color := by
  by_cases hs : s = .nil
  · exact ⟨n₀, hs ▸ h.sentinel, hnull hs, hs ▸ h.black⟩
  · obtain ⟨a, x, b, hs⟩ := ColorTree.exists_nodeAt .left hs
    rw [hs] at h ⊢
    exact ⟨_, ptr_nodeAt (K := K) .left _ a x b ▸ h.heap_focus, by simp, by simp⟩

/-- The first half of an iteration gives the position a black brother. The context changes only
if the brother was red, and then the parent is red. -/
theorem eraseFixupBrother_spec (h : Represents t (plug (f :: C) s) E n₀)
    (hD : Deficient (f :: C) s) (hnull : s = .nil → n₀.parent = f.label.addr) :
    ∃ t' f' C', t.eraseFixupBrother f.side (ptr s) = .ok (t', ptr f'.sibling) ∧
      Represents t' (plug (f' :: C') s) E n₀ ∧ Deficient (f' :: C') s ∧
      f'.sibling.color = .BLACK ∧ f'.side = f.side ∧ f'.label = f.label ∧
      (plug (f' :: C') s).toList = (plug (f :: C) s).toList ∧
      (f' = f ∧ C' = C ∨ f'.color = .RED ∧ f.sibling.color = .RED) := by
  obtain ⟨n, hn, hnp, -⟩ := h.heap_position hnull
  obtain ⟨b, hb, hbc⟩ := h.heap_color_sibling
  simp only [RBTree.eraseFixupBrother, bind, Except.bind, RBTree.read_eq hn, hnp, parentPtr_cons,
    RBTree.read_eq h.heap_parent, cell_child_flip, RBTree.read_eq hb, hbc]
  cases hred : f.sibling.color with
  | BLACK =>
    simp only [reduceCtorEq, if_false]
    exact ⟨t, f, C, rfl, h, hD, hred, rfl, rfl, rfl, .inl ⟨rfl, rfl⟩⟩
  -- the brother and the parent change colours, and the rotation puts a black nephew beside the
  -- position
  | RED =>
    obtain ⟨a, x, b, hs⟩ := ColorTree.exists_nodeAt f.side hD.sibling_ne_nil
    rw [hred] at hs
    obtain ⟨ha, hD'⟩ := hD.rotateBrother hs
    obtain ⟨t₁, hrun₁, h₁⟩ := h.setColor_sibling hD.sibling_ne_nil .BLACK
    obtain ⟨t₂, hrun₂, h₂⟩ := h₁.setColor_parent .RED
    simp only [plug_cons, Frame.fill, hs, ColorTree.paint_nodeAt] at h₂
    obtain ⟨t₃, hrun₃, h₃⟩ := h₂.rotate
    let f' : Frame (Entry K V) := { f with color := .RED, sibling := a }
    let g' : Frame (Entry K V) := ⟨f.side, .BLACK, x, b⟩
    have h₃ : Represents t₃ (plug (f' :: g' :: C) s) E n₀ := h₃
    obtain ⟨n', hn', hnp', -⟩ := h₃.heap_position hnull
    refine ⟨t₃, f', g' :: C, ?_, h₃, hD', ha, rfl, rfl, ?_, .inr ⟨rfl, rfl⟩⟩
    · simp only [if_true, hrun₁, hrun₂, RBTree.rotateTo_eq, hrun₃, RBTree.read_eq hn', hnp',
        parentPtr_cons, RBTree.read_eq h₃.heap_parent]
      exact congrArg (fun p => Except.ok (t₃, p)) (cell_child_flip ..)
    · refine toList_plug_congr C ?_
      simp only [Frame.fill, hs]
      exact (ColorTree.toList_rotate ..).symm

/-- What the second half of an iteration leaves: the deficiency one level up, or at the same
place with the far child of the brother red, or a balanced tree. -/
inductive EraseOutcome (t' : RBTree K V) (p : Ptr) (E : List Ptr) (n₀ : Node K V)
    (f : Frame (Entry K V)) (C : Context (Entry K V)) (s : ColorTree (Entry K V)) : Prop where
  | up (s' : ColorTree (Entry K V)) (hp : p = ptr s') (h : Represents t' (plug C s') E n₀)
      (hD : Deficient C s') (hne : s' ≠ .nil) (hc : s'.color = f.color)
      (hfar : ¬FarRed (f :: C)) (hl : (plug C s').toList = (plug (f :: C) s).toList)
  | again (f' : Frame (Entry K V)) (hp : p = ptr s) (h : Represents t' (plug (f' :: C) s) E n₀)
      (hD : Deficient (f' :: C) s) (hlabel : f'.label = f.label) (hfar' : FarRed (f' :: C))
      (hfar : ¬FarRed (f :: C)) (hl : (plug (f' :: C) s).toList = (plug (f :: C) s).toList)
  | done (T : ColorTree (Entry K V)) (hp : p = ptr T) (h : Represents t' T E n₀) (hB : Balanced T)
      (hl : T.toList = (plug (f :: C) s).toList)

section Black

variable {c : Color} {a b : ColorTree (Entry K V)} {x : Entry K V}

/-- The tree as seen from the near child of the brother. -/
theorem plug_near (hsib : f.sibling = .nodeAt f.side c a x b) :
    plug (f :: C) s =
      plug (⟨f.side, c, x, b⟩ :: ⟨f.side.flip, f.color, f.label, s⟩ :: C) a := by
  rw [plug_sibling, hsib]
  rfl

theorem FarRed.color_eq (h : FarRed (f :: C)) (hsib : f.sibling = .nodeAt f.side c a x b) :
    b.color = .RED := by
  obtain ⟨a', x', b', hs', hred⟩ := h
  rw [hsib] at hs'
  have : b = b' := by
    cases hside : f.side <;> rw [hside] at hs' <;> simp_all [ColorTree.nodeAt]
  rw [this, hred]

/-- The colours of the children of a black brother decide between the three cases of the second half
of an iteration. -/
theorem eraseFixupBlack_eq (h : Represents t (plug (f :: C) s) E n₀)
    (hnull : s = .nil → n₀.parent = f.label.addr) (hsib : f.sibling = .nodeAt f.side .BLACK a x b) :
    t.eraseFixupBlack f.side (ptr s) x.addr = (
      if a.color = .BLACK ∧ b.color = .BLACK then do
        let t ← t.modify x.addr (·.setColor .RED)
        .ok (t, f.label.addr)
      else if b.color = .BLACK then do
        let t ← t.modify (ptr a) (·.setColor .BLACK)
        let t ← t.modify x.addr (·.setColor .RED)
        let t ← t.rotate f.side.flip x.addr
        .ok (t, ptr s)
      else do
        let t ← t.modify x.addr (·.setColor f.color)
        let t ← t.modify f.label.addr (·.setColor .BLACK)
        let t ← t.modify (ptr b) (·.setColor .BLACK)
        let t ← t.rotate f.side f.label.addr
        .ok (t, t.root)) := by
  obtain ⟨n, hn, hnp, -⟩ := h.heap_position hnull
  have hparent := h.heap_parent
  rw [plug_near hsib] at h
  obtain ⟨na, hna, hnac⟩ := h.heap_color
  obtain ⟨nb, hnb, hnbc⟩ := h.heap_color_sibling
  -- the code asks for the left child first, whichever the side
  have htest : t.childrenBlack (cell f.side .BLACK (ptr a) x (ptr b) f.label.addr) =
      .ok (a.color == .BLACK && b.color == .BLACK) := by
    cases f.side <;> simp [RBTree.childrenBlack, cell, bind, Except.bind, RBTree.read_eq hna,
      RBTree.read_eq hnb, hnac, hnbc, Bool.and_comm]
  have hbro : t.heap x.addr = some (cell f.side .BLACK (ptr a) x (ptr b) f.label.addr) :=
    h.heap_parent
  simp only [RBTree.eraseFixupBlack, bind, Except.bind, RBTree.read_eq hn, hnp, parentPtr_cons,
    RBTree.read_eq hbro, htest, cell_child_flip, cell_child, RBTree.read_eq hnb, hnbc,
    RBTree.read_eq hparent, cell_color, RBTree.rotateTo_eq, Bool.and_eq_true, beq_iff_eq]

/-- Both children of the brother are black: it becomes red. -/
theorem recolour_outcome (h : Represents t (plug (f :: C) s) E n₀) (hD : Deficient (f :: C) s)
    (hs : s.color = .BLACK) (hsib : f.sibling = .nodeAt f.side .BLACK a x b)
    (hac : a.color = .BLACK) (hbc : b.color = .BLACK) :
    ∃ t', t.modify x.addr (·.setColor .RED) = .ok t' ∧
      EraseOutcome t' f.label.addr E n₀ f C s := by
  obtain ⟨t', hrun, h'⟩ := h.setColor_sibling hD.sibling_ne_nil .RED
  rw [hsib, ptr_nodeAt] at hrun
  refine ⟨t', hrun, ?_⟩
  have hfar : ¬FarRed (f :: C) := fun hf => by simp [hf.color_eq hsib] at hbc
  let f' : Frame (Entry K V) := { f with sibling := f.sibling.paint .RED }
  refine .up (f'.fill s) (ptr_fill f' s).symm h' (hD.recolour hs hsib hac hbc)
    (f'.fill_ne_nil s) (ColorTree.color_nodeAt ..) hfar ?_
  exact toList_plug_congr C (toList_fill_congr rfl rfl (ColorTree.toList_paint ..) rfl)

/-- Only the near child of the brother is red: the brother is rotated. -/
theorem rotateNear_outcome (h : Represents t (plug (f :: C) s) E n₀) (hD : Deficient (f :: C) s)
    (hsib : f.sibling = .nodeAt f.side .BLACK a x b) (hac : a.color = .RED)
    (hbc : b.color = .BLACK) :
    ∃ t₁ t₂ t₃, t.modify (ptr a) (·.setColor .BLACK) = .ok t₁ ∧
      t₁.modify x.addr (·.setColor .RED) = .ok t₂ ∧ t₂.rotate f.side.flip x.addr = .ok t₃ ∧
      EraseOutcome t₃ (ptr s) E n₀ f C s := by
  let up : Frame (Entry K V) := ⟨f.side.flip, f.color, f.label, s⟩
  obtain ⟨a₁, z, a₂, ha⟩ := ColorTree.exists_nodeAt f.side (ColorTree.ne_nil_of_red hac)
  rw [hac] at ha
  obtain ⟨t₁, hrun₁, h₁⟩ := (plug_near hsib ▸ h).setColor (ColorTree.ne_nil_of_red hac) .BLACK
  obtain ⟨t₂, hrun₂, h₂⟩ := h₁.setColor_parent .RED
  -- after the two colours have changed, `x` is the parent and `a` the focus
  have hshape : plug (⟨f.side, .RED, x, b⟩ :: up :: C) (a.paint .BLACK) =
      plug (up :: C) (.nodeAt f.side.flip .RED b x (.nodeAt f.side.flip .BLACK a₂ z a₁)) := by
    simp only [plug_cons, Frame.fill, ha, ColorTree.paint_nodeAt, ColorTree.nodeAt_flip]
  rw [hshape] at h₂
  obtain ⟨t₃, hrun₃, h₃⟩ := h₂.rotate
  -- the frame above the focus, with `z` as the brother after the rotation
  let f' : Frame (Entry K V) :=
    { f with sibling := .nodeAt f.side .BLACK a₁ z (.nodeAt f.side .RED a₂ x b) }
  have hshape' : plug (f' :: C) s = plug (up :: C)
      (.nodeAt f.side.flip .BLACK (.nodeAt f.side.flip .RED b x a₂) z a₁) := by
    rw [plug_sibling]
    simp only [f', ColorTree.nodeAt_flip, up]
  rw [← hshape'] at h₃
  have hfar : ¬FarRed (f :: C) := fun hf => by simp [hf.color_eq hsib] at hbc
  refine ⟨t₁, t₂, t₃, hrun₁, hrun₂, hrun₃, .again f' rfl h₃ (hD.rotateNear (ha ▸ hsib) hbc) rfl
    ⟨a₁, z, _, rfl, ColorTree.color_nodeAt ..⟩ hfar ?_⟩
  refine toList_plug_congr C (toList_fill_congr rfl rfl ?_ rfl)
  rw [hsib, ha]
  exact ColorTree.toList_rotate ..

/-- The far child of the brother is red: the last rotation. -/
theorem rotateFar_outcome (h : Represents t (plug (f :: C) s) E n₀) (hD : Deficient (f :: C) s)
    (hs : s.color = .BLACK) (hsib : f.sibling = .nodeAt f.side .BLACK a x b)
    (hbc : b.color = .RED) :
    ∃ t₁ t₂ t₃ t₄, t.modify x.addr (·.setColor f.color) = .ok t₁ ∧
      t₁.modify f.label.addr (·.setColor .BLACK) = .ok t₂ ∧
      t₂.modify (ptr b) (·.setColor .BLACK) = .ok t₃ ∧ t₃.rotate f.side f.label.addr = .ok t₄ ∧
      EraseOutcome t₄ t₄.root E n₀ f C s := by
  -- three colours are set before the rotation, the last one in the subtree of the brother
  obtain ⟨t₁, hrun₁, h₁⟩ := h.setColor_sibling hD.sibling_ne_nil f.color
  rw [hsib, ptr_nodeAt] at hrun₁
  obtain ⟨t₂, hrun₂, h₂⟩ := h₁.setColor_parent .BLACK
  have hshape : plug ({ f with color := .BLACK, sibling := f.sibling.paint f.color } :: C) s =
      plug (⟨f.side, f.color, x, b⟩ :: ⟨f.side.flip, .BLACK, f.label, s⟩ :: C) a := by
    rw [plug_sibling, hsib, ColorTree.paint_nodeAt]
    rfl
  obtain ⟨t₃, hrun₃, h₃⟩ := (hshape ▸ h₂).setColor_sibling (ColorTree.ne_nil_of_red hbc) .BLACK
  have hshape' : plug (⟨f.side, f.color, x, b.paint .BLACK⟩ ::
        ⟨f.side.flip, .BLACK, f.label, s⟩ :: C) a =
      plug C (.nodeAt f.side .BLACK s f.label
        (.nodeAt f.side f.color a x (b.paint .BLACK))) := by
    simp only [plug_cons, Frame.fill, ColorTree.nodeAt_flip]
  rw [hshape'] at h₃
  obtain ⟨t₄, hrun₄, h₄⟩ := h₃.rotate
  refine ⟨t₁, t₂, t₃, t₄, hrun₁, hrun₂, hrun₃, hrun₄,
    .done _ h₄.root h₄ (hD.rotateFar hs hsib hbc) (toList_plug_congr C ?_)⟩
  rw [← ColorTree.toList_rotate _ .BLACK f.color]
  refine toList_fill_congr (f := ⟨f.side, .BLACK, f.label, _⟩) rfl rfl ?_ rfl
  rw [hsib]
  exact toList_fill_congr (f := ⟨f.side, f.color, x, b.paint .BLACK⟩)
    (g := ⟨f.side, .BLACK, x, b⟩) rfl rfl (ColorTree.toList_paint ..) rfl

end Black

/-- The second half of an iteration, with a black brother. -/
theorem eraseFixupBlack_spec (h : Represents t (plug (f :: C) s) E n₀)
    (hD : Deficient (f :: C) s) (hnull : s = .nil → n₀.parent = f.label.addr)
    (hs : s.color = .BLACK) (hb : f.sibling.color = .BLACK) :
    ∃ t' p, t.eraseFixupBlack f.side (ptr s) (ptr f.sibling) = .ok (t', p) ∧
      EraseOutcome t' p E n₀ f C s := by
  obtain ⟨a, x, b, hsib⟩ := ColorTree.exists_nodeAt f.side hD.sibling_ne_nil
  rw [hb] at hsib
  have hptr : ptr f.sibling = x.addr := by rw [hsib, ptr_nodeAt]
  rw [hptr, eraseFixupBlack_eq h hnull hsib]
  cases hbc : b.color with
  | BLACK =>
    cases hac : a.color with
    | BLACK =>
      obtain ⟨t₁, hrun₁, hout⟩ := recolour_outcome h hD hs hsib hac hbc
      exact ⟨t₁, _, by simp [hrun₁, bind, Except.bind], hout⟩
    | RED =>
      obtain ⟨t₁, t₂, t₃, hrun₁, hrun₂, hrun₃, hout⟩ := rotateNear_outcome h hD hsib hac hbc
      exact ⟨t₃, _, by simp [hrun₁, hrun₂, hrun₃, bind, Except.bind], hout⟩
  | RED =>
    obtain ⟨t₁, t₂, t₃, t₄, hrun₁, hrun₂, hrun₃, hrun₄, hout⟩ := rotateFar_outcome h hD hs hsib hbc
    exact ⟨t₄, _, by simp [hrun₁, hrun₂, hrun₃, hrun₄, bind, Except.bind], hout⟩

/-- The root of a context that is not just a hole is one of its nodes. -/
theorem ptr_plug_mem (f : Frame (Entry K V)) (C : Context (Entry K V)) (s : ColorTree (Entry K V)) :
    ptr (plug (f :: C) s) ∈ addrs (Context.labels (f :: C)) := by
  induction C generalizing f s with
  | nil => simp [plug, Context.labels]
  | cons g C ih =>
    have := ih g (f.fill s)
    rw [Context.labels, addrs_cons, addrs_append]
    exact List.mem_cons_of_mem _ (List.mem_append_right _ this)

/-- The loop condition of `_erase_fixup`: the position is black and not the root. -/
theorem eraseFixupCond_eq (h : Represents t (plug C s) E n₀) :
    RBTree.eraseFixupCond (t, ptr s) = .ok (!C.isEmpty && s.color == .BLACK) := by
  obtain ⟨n, hn, hnc⟩ := h.heap_color
  cases C with
  | nil =>
    have hroot : ptr s = t.root := h.root.symm
    simp [RBTree.eraseFixupCond, hroot]
  | cons f C =>
    have hmem := ptr_plug_mem f C s
    have hnd := h.nodup_plug
    simp only [List.nodup_cons, List.nodup_append, List.mem_append, not_or] at hnd
    obtain ⟨⟨-, hnull⟩, -, -, hdisj⟩ := hnd
    -- the root is in the context, the position is below it
    have hne : ptr s ≠ t.root := by
      rw [h.root]
      by_cases hs : s = .nil
      · rw [hs, ptr_nil]
        exact (ne_of_mem_of_not_mem (hs ▸ hmem) hnull).symm
      · exact hdisj _ (ptr_mem hs) _ hmem
    simp [RBTree.eraseFixupCond, hne, bind, Except.bind, RBTree.read_eq hn, hnc]

/-- The state of the loop of `_erase_fixup`: a deficient position with a bound on the iterations
that are left, or a balanced tree with the position at its root. -/
def EraseInvariant (E : List Ptr) (n₀ : Node K V) (L : List (Entry K V)) (n : ℕ)
    (p : RBTree K V × Ptr) : Prop :=
  (∃ C s, p.2 = ptr s ∧ Represents p.1 (plug C s) E n₀ ∧ Deficient C s ∧
    (s = .nil → n₀.parent = parentPtr C) ∧ (plug C s).toList = L ∧ EraseIndex C s n) ∨
  ∃ T, p.2 = ptr T ∧ Represents p.1 T E n₀ ∧ Balanced T ∧ T.toList = L

/-- One iteration of the loop of `_erase_fixup`. -/
theorem eraseFixupBody_spec {L : List (Entry K V)} {n : ℕ}
    (h : Represents t (plug (f :: C) s) E n₀) (hD : Deficient (f :: C) s)
    (hnull : s = .nil → n₀.parent = f.label.addr) (hs : s.color = .BLACK)
    (hl : (plug (f :: C) s).toList = L)
    (hn : FarRed (f :: C) ∧ 1 ≤ n ∨ (f :: C).length + 1 ≤ n) :
    ∃ p m, RBTree.eraseFixupBody (t, ptr s) = .ok p ∧ m < n ∧ EraseInvariant E n₀ L m p := by
  obtain ⟨nd, hnd, hnp, -⟩ := h.heap_position hnull
  have hsib : ptr f.sibling ≠ ptr s := h.ptr_sibling_ne (.inr hD.sibling_ne_nil)
  obtain ⟨t₁, f₁, C₁, hrun₁, h₁, hD₁, hb₁, hside, hlabel, hl₁, hctx⟩ :=
    eraseFixupBrother_spec h hD hnull
  have hnull₁ : s = .nil → n₀.parent = f₁.label.addr := by rw [hlabel]; exact hnull
  obtain ⟨t₂, p₂, hrun₂, hout⟩ := eraseFixupBlack_spec h₁ hD₁ hnull₁ hs hb₁
  rw [hside] at hrun₂
  have hrun : RBTree.eraseFixupBody (t, ptr s) = .ok (t₂, p₂) := by
    have hd : (if f.side = .left then Side.left else Side.right) = f.side := by
      cases f.side <;> rfl
    simp only [RBTree.eraseFixupBody, bind, Except.bind, RBTree.read_eq hnd, hnp, parentPtr_cons,
      RBTree.read_eq h.heap_parent, eq_cell_left_iff _ _ _ _ _ _ hsib, hd, hrun₁, hrun₂]
  -- a brother that was red rules out that the far child of the brother was red
  have hnotfar : f.sibling.color = .RED → ¬FarRed (f :: C) := by
    rintro hred ⟨a, x, b, hsib, -⟩
    rw [hsib, ColorTree.color_nodeAt] at hred
    cases hred
  have hpos : 1 ≤ n := by rcases hn with hn | hn <;> omega
  cases hout with
  | up s' hp h' hD' hne hc hfar hl' =>
    have hinv : ∀ m, EraseIndex C₁ s' m → EraseInvariant E n₀ L m (t₂, p₂) := fun m hm =>
      .inl ⟨C₁, s', hp, h', hD', fun e => absurd e hne, by rw [hl', hl₁, hl], hm⟩
    rcases hctx with ⟨rfl, rfl⟩ | ⟨hred, -⟩
    · rcases hn with hn | hn
      · exact absurd hn.1 hfar
      · simp only [List.length_cons] at hn
        exact ⟨_, C₁.length + 1, hrun, by omega, hinv _ (.inr (.inr (.inr (Nat.le_refl _))))⟩
    · exact ⟨_, 0, hrun, by omega, hinv _ (.inr (.inl (hc.trans hred)))⟩
  | again f' hp h' hD' hlabel' hfar' hfar hl' =>
    refine ⟨_, 1, hrun, ?_, .inl ⟨f' :: C₁, s, hp, h', hD', ?_, by rw [hl', hl₁, hl],
      .inr (.inr (.inl ⟨hfar', Nat.le_refl _⟩))⟩⟩
    · rcases hn with hn | hn
      · rcases hctx with ⟨rfl, rfl⟩ | ⟨-, hred⟩
        · exact absurd hn.1 hfar
        · exact absurd hn.1 (hnotfar hred)
      · simp only [List.length_cons] at hn
        omega
    · rw [parentPtr_cons, hlabel']
      exact hnull₁
  | done T hp h' hB hl' => exact ⟨_, 0, hrun, by omega, .inr ⟨T, hp, h', hB, by rw [hl', hl₁, hl]⟩⟩

/-- The loop condition can be evaluated in every state of the loop. -/
theorem EraseInvariant.cond {L : List (Entry K V)} {n : ℕ} {p : RBTree K V × Ptr}
    (h : EraseInvariant E n₀ L n p) : ∃ b, RBTree.eraseFixupCond p = .ok b := by
  obtain ⟨t, q⟩ := p
  rcases h with ⟨C, s, rfl, h, -⟩ | ⟨T, rfl, h, -⟩
  · exact ⟨_, eraseFixupCond_eq h⟩
  · exact ⟨_, eraseFixupCond_eq (C := []) h⟩

/-- Where the loop goes on, the position is black and hangs below a node. -/
theorem EraseInvariant.position {L : List (Entry K V)} {n : ℕ} {p : RBTree K V × Ptr}
    (h : EraseInvariant E n₀ L n p) (hcond : RBTree.eraseFixupCond p = .ok true) :
    ∃ f C s, p.2 = ptr s ∧ Represents p.1 (plug (f :: C) s) E n₀ ∧ Deficient (f :: C) s ∧
      (s = .nil → n₀.parent = f.label.addr) ∧ s.color = .BLACK ∧ (plug (f :: C) s).toList = L ∧
      (FarRed (f :: C) ∧ 1 ≤ n ∨ (f :: C).length + 1 ≤ n) := by
  obtain ⟨t, q⟩ := p
  rcases h with ⟨C, s, rfl, h, hD, hnull, hl, hn⟩ | ⟨T, rfl, h, -⟩
  · rw [eraseFixupCond_eq h] at hcond
    cases C with
    | nil => simp at hcond
    | cons f C =>
      have hblack : s.color = .BLACK := by simpa using hcond
      refine ⟨f, C, s, rfl, h, hD, hnull, hblack, hl, ?_⟩
      rcases hn with hn | hn | hn
      · cases hn
      · rw [hblack] at hn
        cases hn
      · exact hn
  · rw [eraseFixupCond_eq (C := []) h] at hcond
    simp at hcond

/-- One iteration takes a state of the loop to another one with a smaller bound. -/
theorem EraseInvariant.body {L : List (Entry K V)} {n : ℕ} {p : RBTree K V × Ptr}
    (h : EraseInvariant E n₀ L n p) (hcond : RBTree.eraseFixupCond p = .ok true) :
    ∃ p' m, RBTree.eraseFixupBody p = .ok p' ∧ m < n ∧ EraseInvariant E n₀ L m p' := by
  obtain ⟨f, C, s, hp, hrep, hD, hnull, hblack, hl, hn⟩ := h.position hcond
  obtain ⟨t, q⟩ := p
  obtain rfl : q = ptr s := hp
  exact eraseFixupBody_spec hrep hD hnull hblack hl hn

/-- Painting a position black. The cell of `null_node_` is black already. -/
theorem Represents.setColor_black (h : Represents t (plug C s) E n₀) :
    ∃ t', t.modify (ptr s) (·.setColor .BLACK) = .ok t' ∧
      Represents t' (plug C (s.paint .BLACK)) E n₀ := by
  by_cases hs : s = .nil
  · subst hs
    have hn₀ : n₀.setColor .BLACK = n₀ := by
      have := h.black
      cases n₀
      simp_all [Node.setColor]
    have hsame : Function.update t.heap nullNode (some n₀) = t.heap :=
      Function.update_eq_self_iff.2 h.sentinel.symm
    refine ⟨t, ?_, h⟩
    rw [ptr_nil, RBTree.modify_eq h.sentinel, hn₀, RBTree.write, hsame]
  · exact h.setColor hs .BLACK

/-- `_erase_fixup` returns and leaves a balanced tree with the same entries. -/
theorem eraseFixup_spec (h : Represents t (plug C s) E n₀) (hD : Deficient C s)
    (hnull : s = .nil → n₀.parent = parentPtr C) :
    ∃ t' T', t.eraseFixup (ptr s) = .ok t' ∧ Represents t' T' E n₀ ∧ Balanced T' ∧
      T'.toList = (plug C s).toList := by
  let L := (plug C s).toList
  let Q : RBTree K V × Ptr → Prop := fun p =>
    (∃ C s, p.2 = ptr s ∧ Represents p.1 (plug C s) E n₀ ∧ (plug C s).toList = L ∧
      Balanced (plug C (s.paint .BLACK)))
  obtain ⟨⟨t₁, p₁⟩, hrun, C₁, s₁, rfl, h₁, hl₁, hB₁⟩ :
      ∃ p, whileLoop (fun _ => .diverged) RBTree.eraseFixupCond RBTree.eraseFixupBody
        t.fuel (t, ptr s) = .ok p ∧ Q p := by
    refine whileLoop_spec (I := EraseInvariant E n₀ L) (Q := Q) ?_ (fun n p hI => hI.cond)
      (fun n p hI => hI.body) (n := C.length + 1)
      (.inl ⟨C, s, rfl, h, hD, hnull, rfl, .inr (.inr (.inr (Nat.le_refl _)))⟩) ?_
    · rintro n ⟨t₁, p₁⟩ (⟨C₁, s₁, rfl, h₁, hD₁, -, hl, -⟩ | ⟨T, rfl, h₁, hB, hl⟩) hcond
      · refine ⟨C₁, s₁, rfl, h₁, hl, ?_⟩
        rw [eraseFixupCond_eq h₁] at hcond
        cases C₁ with
        | nil => exact hD₁.balanced_of_top
        | cons f C₁ =>
          refine hD₁.balanced_of_red ?_
          cases hc : s₁.color with
          | RED => rfl
          | BLACK => simp [hc] at hcond
      · refine ⟨[], T, rfl, h₁, hl, ?_⟩
        rw [ColorTree.paint_black_of_black hB.1]
        exact hB
    · have := h.context_length_lt_next
      simp only [RBTree.fuel]
      omega
  -- the position is painted black
  obtain ⟨t₂, hrun₂, h₂⟩ := h₁.setColor_black
  refine ⟨t₂, _, ?_, h₂, hB₁, (toList_plug_congr C₁ (ColorTree.toList_paint ..)).trans hl₁⟩
  simp only [RBTree.eraseFixup, bind, Except.bind, hrun, hrun₂]

end Body

end CppLearn

import CppLearn.RedBlackTree.EraseFixup
import Mathlib.Tactic.Set

/-!
# Taking a node out of the tree

The part of `erase` before the repair. A node with at most one child is replaced by that child; a
node with two children is replaced by its successor, which is first taken out of the right
subtree. Each write of the source is followed on the pieces of the tree: the context above the
erased node, its left subtree, and the right subtree without the successor.

`_rb_transplant` assigns the parent pointer of the new subtree even when that is `null_node_`.
`Unlinked` records that the repair then finds its way up from `null_node_`.

The steps are `transplant_spec`, the effect of `_rb_transplant` on the pieces, and
`treeMinimum_spec`, by which `_tree_minimum` returns the leftmost node. After `eraseUnlink_spec` the
node is out of the tree, and what is left can be repaired.
-/

namespace CppLearn

open RedBlack BoundedLoop

variable {K V : Type} {t : RBTree K V} {E : List Ptr} {n₀ : Node K V}
  {C : Context (Entry K V)} {T : ColorTree (Entry K V)}

/-- `_rb_transplant(u, v)` when `u` hangs in the context `C`: now `v` does. -/
theorem transplant_spec {u v : Ptr} {nu nv : Node K V} (hu : t.heap u = some nu)
    (hup : nu.parent = parentPtr C) (hC : StoredContext t.heap u C)
    (hnd : (nullNode :: u :: addrs C.labels).Nodup) (hv : t.heap v = some nv)
    (hvC : v ∉ addrs C.labels) :
    ∃ t', t.rbTransplant u v = .ok t' ∧ t'.heap v = some (nv.setParent (parentPtr C)) ∧
      StoredContext t'.heap v C ∧ t'.root = (if C = [] then v else t.root) ∧
      Changes t t' (v :: addrs C.labels) := by
  obtain ⟨t₁, hrun₁, hC₁, hroot₁, hch₁⟩ := relink_spec v hC hnd
  -- `u` is read again after the link to it was changed
  have huC : u ∉ addrs C.labels := (List.nodup_cons.1 (List.nodup_cons.1 hnd).2).1
  have hu₁ : t₁.heap u = some nu := by rw [hch₁.keeps u huC, hu]
  have hv₁ : t₁.heap v = some nv := by rw [hch₁.keeps v hvC, hv]
  refine ⟨t₁.write v (nv.setParent (parentPtr C)), ?_, RBTree.write_heap_self, ?_, hroot₁, ?_⟩
  · simp only [RBTree.rbTransplant, bind, Except.bind, RBTree.read_eq hu, hup, hrun₁,
      RBTree.read_eq hu₁, RBTree.modify_eq hv₁]
  · exact hC₁.congr fun q hq => RBTree.write_heap_of_ne (ne_of_mem_of_not_mem hq hvC)
  · exact (hch₁.trans (Changes.write hv₁ _)).mono fun q hq => by
      rcases List.mem_append.1 hq with hq | hq
      · exact List.mem_cons_of_mem _ hq
      · rw [List.mem_singleton.1 hq]
        exact List.mem_cons_self ..

/-- A state that has the same cells as `t`, and stores a tree with one entry less, represents
that tree with one detached cell more. -/
theorem Represents.detach {t' : RBTree K V} {T' : ColorTree (Entry K V)} {n₁ : Node K V}
    {x : Entry K V} (h : Represents t T E n₀) (hl : T.toList.Perm (x :: T'.toList))
    (hcells : ∀ q, (t'.heap q).isSome = (t.heap q).isSome) (hnext : t'.next = t.next)
    (hroot : t'.root = ptr T') (hst : Stored t'.heap nullNode T')
    (hsent : t'.heap nullNode = some n₁) (hblack : n₁.color = .BLACK) :
    Represents t' T' (x.addr :: E) n₁ := by
  have hperm : (nullNode :: (E ++ addrs T.toList)).Perm
      (nullNode :: (x.addr :: E ++ addrs T'.toList)) :=
    ((addrs_perm hl).append_left E |>.trans List.perm_middle).cons nullNode
  exact {
    root := hroot
    stored := hst
    nodup := hperm.nodup_iff.1 h.nodup
    sentinel := hsent
    black := hblack
    domain := fun p => by rw [hcells, h.domain p]; exact hperm.mem_iff
    fresh := fun p hp => by rw [hnext]; exact h.fresh p (by rwa [hcells] at hp) }

/-- The node at `x` has been taken out of a state that represents `T`. What is left is the
subtree `s` in the context `C'`; the colour `c` of the node that is missing on the paths through
`s` says whether it has to be repaired. -/
structure Unlinked (t' : RBTree K V) (T : ColorTree (Entry K V)) (x : Entry K V) (c : Color)
    (C' : Context (Entry K V)) (s : ColorTree (Entry K V)) (n₁ : Node K V) : Prop where
  /-- The remaining tree, with the cell of `x` detached. -/
  represents : Represents t' (plug C' s) [x.addr] n₁
  /-- `null_node_` points to the parent of the position when it is there. -/
  position : s = .nil → n₁.parent = parentPtr C'
  /-- Exactly the entry `x` is gone. -/
  entries : ∃ L R, T.toList = L ++ x :: R ∧ (plug C' s).toList = L ++ R
  /-- Without a red node the tree is still balanced. -/
  balanced : Balanced T → c = .RED → Balanced (plug C' s)
  /-- Without a black node one is missing at the position. -/
  deficient : Balanced T → c = .BLACK → Deficient C' s

section OneChild

variable {d : Side} {c : Color} {x : Entry K V} {b : ColorTree (Entry K V)}

/-- Replacing a node with one empty subtree by the other subtree. -/
theorem remove_spec (h : Represents t (plug C (.nodeAt d c .nil x b)) E n₀) :
    ∃ t' n₁, t.rbTransplant x.addr (ptr b) = .ok t' ∧
      Represents t' (plug C b) (x.addr :: E) n₁ ∧ (b = .nil → n₁.parent = parentPtr C) ∧
      t'.heap x.addr = t.heap x.addr ∧ Changes t t' (ptr b :: addrs C.labels) := by
  have hst := h.stored
  rw [stored_plug, stored_nodeAt, ptr_nodeAt] at hst
  obtain ⟨⟨hx, -, hb⟩, hC⟩ := hst
  have hnd := h.nodup_node
  simp only [ColorTree.toList_nil, addrs_nil, List.nil_append, List.nodup_cons, List.nodup_append,
    List.mem_cons, List.mem_append, not_or] at hnd
  obtain ⟨⟨hnx, hnb, hnC⟩, ⟨hxb, hxC⟩, hndb, hndC, hbC⟩ := hnd
  -- the subtree may be empty, and then its root is the sentinel
  have hptrC : ptr b ∉ addrs C.labels := by
    by_cases hbn : b = .nil
    · rw [hbn]; exact hnC
    · exact fun hm => hbC _ (ptr_mem hbn) _ hm rfl
  have hxptr : x.addr ≠ ptr b := by
    by_cases hbn : b = .nil
    · rw [hbn]; exact Ne.symm hnx
    · exact (ne_of_mem_of_not_mem (ptr_mem hbn) hxb).symm
  obtain ⟨nv, hv, hvc⟩ : ∃ n, t.heap (ptr b) = some n ∧ n.color = b.color :=
    Represents.heap_color_sibling (C := C) (f := ⟨d, c, x, b⟩) (T := .nil) h
  obtain ⟨t', hrun, hv', hC', hroot', hch⟩ := transplant_spec hx (cell_parent ..) hC
    (by simp only [List.nodup_cons, List.mem_cons, not_or]; exact ⟨⟨hnx, hnC⟩, hxC, hndC⟩) hv hptrC
  have hxkeep : t'.heap x.addr = t.heap x.addr := hch.keeps _ (by simp [hxptr, hxC])
  have hperm : (plug C (.nodeAt d c .nil x b)).toList.Perm (x :: (plug C b).toList) := by
    refine (toList_plug_perm ..).trans (List.Perm.trans ?_ ((toList_plug_perm C b).symm.cons x))
    simpa using (ColorTree.toList_nodeAt_perm d c .nil x b).append_right C.labels
  have hroot : t'.root = ptr (plug C b) := by
    rw [hroot']
    cases C with
    | nil => rfl
    | cons f C => exact h.root.trans (ptr_plug_cons ..)
  have hst' : Stored t'.heap nullNode (plug C b) := by
    refine (stored_plug C b).2 ⟨hb.reparent hndb (fun _ => by rw [hv', hv]; rfl) ?_, hC'⟩
    intro p hp hpb
    refine hch.keeps p ?_
    rw [List.mem_cons, not_or]
    exact ⟨hpb, fun hm => hbC p hp p hm rfl⟩
  by_cases hbn : b = .nil
  · -- the parent of the sentinel is assigned too
    subst hbn
    have hnv : nv = n₀ := Option.some.inj (hv.symm.trans h.sentinel)
    subst hnv
    exact ⟨t', nv.setParent (parentPtr C), hrun,
      h.detach hperm hch.cells hch.next hroot hst' hv' h.black, fun _ => rfl, hxkeep, hch⟩
  · have hsent : t'.heap nullNode = some n₀ := by
      rw [hch.keeps _ _, h.sentinel]
      simp only [List.mem_cons, not_or]
      exact ⟨(ne_of_mem_of_not_mem (ptr_mem hbn) hnb).symm, hnC⟩
    exact ⟨t', n₀, hrun, h.detach hperm hch.cells hch.next hroot hst' hsent h.black,
      fun e => absurd e hbn, hxkeep, hch⟩

/-- A node with at most one child is unlinked by transplanting the other child. -/
theorem unlink_one_child (h : Represents t (plug C (.nodeAt d c .nil x b)) [] n₀) :
    ∃ t' n₁, t.rbTransplant x.addr (ptr b) = .ok t' ∧
      Unlinked t' (plug C (.nodeAt d c .nil x b)) x c C b n₁ := by
  obtain ⟨t', n₁, hrun, h', hpos, -⟩ := remove_spec h
  refine ⟨t', n₁, hrun, h', hpos, ?_, ?_, ?_⟩
  · simp only [toList_plug]
    -- the entry is before or behind the remaining subtree
    cases d
    · exact ⟨C.before, b.toList ++ C.after, by simp [ColorTree.nodeAt, ColorTree.toList], by simp⟩
    · exact ⟨C.before ++ b.toList, C.after, by simp [ColorTree.nodeAt, ColorTree.toList], by simp⟩
  · rintro hB rfl
    exact hB.remove_red
  · rintro hB rfl
    exact Deficient.of_balanced hB

end OneChild

/-! ## Two children -/

section Minimum

variable {b : ColorTree (Entry K V)}

/-- `_tree_minimum` returns the node at the end of the leftmost path. -/
theorem treeMinimum_spec (h : Represents t (plug C b) E n₀) (hb : b ≠ .nil) :
    ∃ D c y r, t.treeMinimum (ptr b) = .ok y.addr ∧ b = plug D (.nodeAt .left c .nil y r) ∧
      ∀ f ∈ D, f.side = .left := by
  let I : ℕ → Ptr → Prop := fun n p =>
    ∃ D s, p = ptr s ∧ s ≠ .nil ∧ b = plug D s ∧ (∀ f ∈ D, f.side = .left) ∧ s.toList.length = n
  let Q : Ptr → Prop := fun p =>
    ∃ D c y r, p = y.addr ∧ b = plug D (.nodeAt .left c .nil y r) ∧ ∀ f ∈ D, f.side = .left
  obtain ⟨p, hrun, D, c, y, r, rfl, hb', hD⟩ :
      ∃ p, iterate (fun _ => .diverged) t.treeMinimumStep t.fuel (ptr b) = .ok p ∧ Q p := by
    -- all nodes that were passed were left by their left child
    refine iterate_spec (I := I) ?_ ⟨[], b, rfl, hb, rfl, by simp, rfl⟩ ?_
    · rintro n p ⟨D, s, rfl, hs, hbs, hD, rfl⟩
      obtain ⟨a, x, r, hs'⟩ := ColorTree.exists_nodeAt .left hs
      have hx : t.heap (ptr s) =
          some (cell .left s.color (ptr a) x (ptr r) (parentPtr (D ++ C))) := by
        rw [hbs, ← plug_append, hs'] at h
        rw [hs', ptr_nodeAt, ColorTree.color_nodeAt]
        exact h.heap_focus
      have hleft : (cell .left s.color (ptr a) x (ptr r) (parentPtr (D ++ C))).left = ptr a := rfl
      simp only [RBTree.treeMinimumStep, bind, Except.bind, RBTree.read_eq hx, hleft]
      by_cases ha : a = .nil
      · left
        have hptr : ptr s = x.addr := by rw [hs', ptr_nodeAt]
        refine ⟨x.addr, by simp [ha, hptr], D, s.color, x, r, rfl, ?_, hD⟩
        rw [hbs, ← ha, ← hs']
      · right
        have hne : ptr a ≠ nullNode := by
          have hnd := h.nodup_plug
          rw [hbs, toList_plug, hs'] at hnd
          have hmem := ptr_mem ha
          rintro e
          refine (List.nodup_cons.1 hnd).1 ?_
          simp only [addrs_append, List.mem_append, ColorTree.nodeAt, ColorTree.toList]
          exact .inl (.inl (.inr (.inl (e ▸ hmem))))
        rw [if_pos hne]
        refine ⟨_, _, rfl, ?_, ⟨.left, s.color, x, r⟩ :: D, a, rfl, ha, ?_, ?_, rfl⟩
        · rw [hs']
          simp [ColorTree.nodeAt, ColorTree.toList]
        · rw [hbs, plug_cons]
          exact congrArg (plug D) hs'
        · simpa using hD
    · have hfuel := h.length_lt_fuel
      rw [toList_plug, List.length_append, List.length_append] at hfuel
      omega
  exact ⟨D, c, y, r, hrun, hb', hD⟩

end Minimum

/-- The situation after the successor `y` of `x` has been taken out of the right subtree of `x`,
which is now `b` and belongs to `y`. The pointers of `x` to `b` and of `y` to its old place do not
matter any more. -/
structure Detached (t : RBTree K V) (C : Context (Entry K V)) (c : Color)
    (a : ColorTree (Entry K V)) (x y : Entry K V) (b : ColorTree (Entry K V)) : Prop where
  /-- The cell of the erased node. -/
  erased : ∃ nx, t.heap x.addr = some nx ∧ nx.left = ptr a ∧ nx.color = c ∧
    nx.parent = parentPtr C
  /-- The cell of the successor. -/
  successor : ∃ ny, t.heap y.addr = some ny ∧ ny.key = y.key ∧ ny.value = y.value ∧
    ny.right = ptr b
  /-- The left subtree hangs below the erased node. -/
  left : Stored t.heap x.addr a
  /-- The right subtree hangs below the successor. -/
  right : Stored t.heap y.addr b
  /-- The erased node hangs in its context. -/
  above : StoredContext t.heap x.addr C

section TwoChildren

variable {c cy : Color} {a b r : ColorTree (Entry K V)} {x y : Entry K V}

/-- The entries of a tree around a node and the leftmost node of its right subtree. -/
theorem two_children_perm (C D : Context (Entry K V)) (c cy : Color) (a r : ColorTree (Entry K V))
    (x y : Entry K V) :
    (plug C (.nodeAt .left c a x (plug D (.nodeAt .left cy .nil y r)))).toList.Perm
      (x :: y :: (a.toList ++ ((plug D r).toList ++ C.labels))) := by
  have hy : (plug D (.nodeAt .left cy .nil y r)).toList.Perm (y :: (plug D r).toList) :=
    (toList_plug_perm ..).trans (List.Perm.cons y (toList_plug_perm ..).symm)
  refine (toList_plug_perm ..).trans ?_
  refine ((ColorTree.toList_nodeAt_perm ..).append_right _).trans (List.Perm.cons x ?_)
  refine ((hy.append_left a.toList).append_right C.labels).trans ?_
  simp [List.perm_middle]

/-- The addresses of the pieces that are moved when `x` is replaced by `y`. -/
theorem Represents.nodup_two_children {D : Context (Entry K V)}
    (h : Represents t (plug C (.nodeAt .left c a x (plug D (.nodeAt .left cy .nil y r)))) [] n₀) :
    (nullNode :: x.addr :: y.addr ::
      (addrs a.toList ++ (addrs (plug D r).toList ++ addrs C.labels))).Nodup := by
  have := ((addrs_perm (two_children_perm C D c cy a r x y)).cons nullNode).nodup_iff.1 h.nodup
  simpa using this

/-- The second step for two children: the successor takes the place, the left subtree and the
colour of the erased node. -/
theorem eraseReplace_spec (h : Detached t C c a x y b) (ha : a ≠ .nil)
    (hnd : (nullNode :: x.addr :: y.addr ::
      (addrs a.toList ++ (addrs b.toList ++ addrs C.labels))).Nodup) :
    ∃ t', t.eraseReplace x.addr y.addr = .ok t' ∧
      Stored t'.heap (parentPtr C) (.nodeAt .left c a y b) ∧ StoredContext t'.heap y.addr C ∧
      t'.root = (if C = [] then y.addr else t.root) ∧
      Changes t t' (y.addr :: (addrs a.toList ++ addrs C.labels)) := by
  obtain ⟨⟨nx, hx, hxl, hxc, hxp⟩, ⟨ny, hy, hyk, hyv, hyr⟩, hsa, hsb, hC⟩ := h
  simp only [List.nodup_cons, List.nodup_append, List.mem_cons, List.mem_append, not_or] at hnd
  obtain ⟨⟨hnx, hny, hna, hnb, hnC⟩, ⟨hxy, hxa, hxb, hxC⟩, ⟨hya, hyb, hyC⟩, hnda,
    ⟨-, hndC, hbC⟩, habC⟩ := hnd
  obtain ⟨t₁, hrun₁, hy₁, hC₁, hroot₁, hch₁⟩ := transplant_spec hx hxp hC
    (by simp only [List.nodup_cons, List.mem_cons, not_or]; exact ⟨⟨hnx, hnC⟩, hxC, hndC⟩) hy hyC
  have hx₁ : t₁.heap x.addr = some nx := by rw [hch₁.keeps _ (by simp [hxy, hxC]), hx]
  -- the left subtree
  let ny₂ := (ny.setParent (parentPtr C)).setChild .left (ptr a)
  let t₂ := t₁.write y.addr ny₂
  have hch₂ : Changes t₁ t₂ [y.addr] := Changes.write hy₁ _
  have hsa₂ : Stored t₂.heap x.addr a := hsa.congr fun q hq => by
    have hqy := ne_of_mem_of_not_mem hq hya
    rw [hch₂.keeps q (by simpa using hqy), hch₁.keeps q]
    simp only [List.mem_cons, not_or]
    exact ⟨hqy, fun hm => habC q hq q (.inr hm) rfl⟩
  obtain ⟨t₃, hrun₃, hsa₃, hroot₃, hch₃⟩ :=
    reparent_spec y.addr hsa₂ (List.nodup_cons.2 ⟨hna, hnda⟩)
  rw [if_pos (ne_of_mem_of_not_mem (ptr_mem ha) hna)] at hrun₃
  have hx₃ : t₃.heap x.addr = some nx := by
    rw [hch₃.keeps _ hxa, hch₂.keeps _ (by simpa using hxy), hx₁]
  have hy₃ : t₃.heap y.addr = some ny₂ := by
    rw [hch₃.keeps _ hya]
    exact RBTree.write_heap_self
  -- the colour
  let t₄ := t₃.write y.addr (ny₂.setColor c)
  have hch₄ : Changes t₃ t₄ [y.addr] := Changes.write hy₃ _
  have hcell : ny₂.setColor c = cell .left c (ptr a) y (ptr b) (parentPtr C) := by
    simp only [ny₂, Node.setParent, Node.setChild, Node.setColor, cell, hyk, hyv, hyr]
  refine ⟨t₄, ?_, ?_, ?_, ?_, ?_⟩
  · have hleft : ny₂.left = ptr a := rfl
    have hmod₂ : t₁.modify y.addr (·.setChild .left (ptr a)) = .ok t₂ := RBTree.modify_eq hy₁ _
    have hy₂ : t₂.heap y.addr = some ny₂ := RBTree.write_heap_self
    simp only [RBTree.eraseReplace, bind, Except.bind, hrun₁, RBTree.read_eq hx₁, hxl, hmod₂,
      RBTree.read_eq hy₂, hleft, hrun₃, RBTree.read_eq hx₃, hxc, RBTree.modify_eq hy₃]
    rfl
  · refine (stored_nodeAt ..).2 ⟨?_, ?_, ?_⟩
    · rw [← hcell]
      exact RBTree.write_heap_self
    · exact hsa₃.congr fun q hq => hch₄.keeps q (by simpa using ne_of_mem_of_not_mem hq hya)
    · refine hsb.congr fun q hq => ?_
      have hqy := ne_of_mem_of_not_mem hq hyb
      rw [hch₄.keeps q (by simpa using hqy), hch₃.keeps q fun hm => habC q hm q (.inl hq) rfl,
        hch₂.keeps q (by simpa using hqy), hch₁.keeps q]
      simp only [List.mem_cons, not_or]
      exact ⟨hqy, fun hm => hbC q hq q hm rfl⟩
  · refine hC₁.congr fun q hq => ?_
    have hqy := ne_of_mem_of_not_mem hq hyC
    rw [hch₄.keeps q (by simpa using hqy), hch₃.keeps q fun hm => habC q hm q (.inr hq) rfl,
      hch₂.keeps q (by simpa using hqy)]
  · exact hroot₃.trans hroot₁
  · refine (((hch₁.trans hch₂).trans hch₃).trans hch₄).mono fun q hq => ?_
    simp only [List.mem_append, List.mem_cons, List.not_mem_nil, or_false] at hq ⊢
    tauto

/-- What the first step for two children leaves. `D` is the path from the right child of `x` to
its leftmost descendant `y`, and `r` the right subtree of `y`. -/
structure DetachResult (t t' : RBTree K V) (n₁ : Node K V) (D C : Context (Entry K V)) (c : Color)
    (a : ColorTree (Entry K V)) (x y : Entry K V) (r : ColorTree (Entry K V)) : Prop where
  detached : Detached t' C c a x y (plug D r)
  root : t'.root = t.root
  cells : ∀ q, (t'.heap q).isSome = (t.heap q).isSome
  next : t'.next = t.next
  sentinel : t'.heap nullNode = some n₁
  black : n₁.color = .BLACK
  position : r = .nil → n₁.parent = parentPtr (D ++ ⟨.right, c, y, a⟩ :: C)

/-- The first step when the successor is the right child: only the parent pointer of its right
subtree is assigned. -/
theorem eraseDetach_child
    (h : Represents t (plug C (.nodeAt .left c a x (.nodeAt .left cy .nil y r))) [] n₀) :
    ∃ t' n₁, t.eraseDetach x.addr y.addr (cell .left cy nullNode y (ptr r) x.addr) = .ok t' ∧
      DetachResult t t' n₁ [] C c a x y r := by
  have hst := h.stored
  simp only [stored_plug, stored_nodeAt, ptr_nodeAt, ptr_nil] at hst
  obtain ⟨⟨hx, hsa, hy, -, hsr⟩, hC⟩ := hst
  have hnd := h.nodup_node
  simp only [ColorTree.nodeAt, ColorTree.toList, List.nil_append, addrs_cons, List.cons_append,
    List.nodup_cons, List.nodup_append, List.mem_cons, List.mem_append, not_or] at hnd
  obtain ⟨⟨hnx, hna, hny, hnr, hnC⟩, ⟨hxa, hxy, hxr, hxC⟩, hnda, ⟨⟨hyr, hyC⟩, hndr, hndC, hrC⟩,
    harC⟩ := hnd
  obtain ⟨nr, hr, hrc⟩ : ∃ n, t.heap (ptr r) = some n ∧ n.color = r.color :=
    Represents.heap_color_sibling (C := ⟨.right, c, x, a⟩ :: C) (f := ⟨.left, cy, y, r⟩)
      (T := .nil) h
  -- the only cell that changes is the root of `r`, or the sentinel
  have hptr : ∀ q, q ∉ addrs r.toList → q ≠ nullNode → q ≠ ptr r := by
    rintro q hq hq0 rfl
    by_cases hrn : r = .nil
    · exact hq0 (by rw [hrn, ptr_nil])
    · exact hq (ptr_mem hrn)
  let t' := t.write (ptr r) (nr.setParent y.addr)
  have hch : Changes t t' [ptr r] := Changes.write hr _
  have hkeep : ∀ q, q ∉ addrs r.toList → q ≠ nullNode → t'.heap q = t.heap q := fun q hq hq0 =>
    hch.keeps q (by simpa using hptr q hq hq0)
  have hrun : t.eraseDetach x.addr y.addr (cell .left cy nullNode y (ptr r) x.addr) = .ok t' := by
    have hright : (cell .left cy nullNode y (ptr r) x.addr).right = ptr r := rfl
    simp only [RBTree.eraseDetach, cell_parent, if_true, hright, RBTree.modify_eq hr]
    rfl
  have hdet : Detached t' C c a x y r := by
    refine ⟨⟨_, (hkeep _ hxr (Ne.symm hnx)).trans hx, rfl, rfl, rfl⟩,
      ⟨_, (hkeep _ hyr (Ne.symm hny)).trans hy, rfl, rfl, rfl⟩, ?_, ?_, ?_⟩
    · exact hsa.congr fun q hq => hkeep q (fun hm => harC q hq q (.inr (.inl hm)) rfl)
        (ne_of_mem_of_not_mem hq hna)
    · refine hsr.reparent hndr (fun _ => ?_) fun q hq hqr => hch.keeps q (by simpa using hqr)
      rw [hr]
      exact RBTree.write_heap_self
    · exact hC.congr fun q hq => hkeep q (fun hm => hrC q hm q hq rfl)
        (ne_of_mem_of_not_mem hq hnC)
  by_cases hrn : r = .nil
  · -- with an empty `r` the parent pointer of the sentinel keeps the position
    subst hrn
    have hnr : nr = n₀ := Option.some.inj (hr.symm.trans h.sentinel)
    subst hnr
    exact ⟨t', nr.setParent y.addr, hrun, hdet, rfl, hch.cells, hch.next,
      RBTree.write_heap_self, h.black, fun _ => rfl⟩
  · refine ⟨t', n₀, hrun, hdet, rfl, hch.cells, hch.next, ?_, h.black, fun e => absurd e hrn⟩
    rw [hch.keeps _ (by simpa using (ne_of_mem_of_not_mem (ptr_mem hrn) hnr).symm), h.sentinel]

/-- The first step when the successor is further down: it is removed like a node with one child,
and gets the right subtree of the erased node. -/
theorem eraseDetach_deep {g : Frame (Entry K V)} {D : Context (Entry K V)}
    (h : Represents t (plug C (.nodeAt .left c a x
      (plug (g :: D) (.nodeAt .left cy .nil y r)))) [] n₀) :
    ∃ t' n₁, t.eraseDetach x.addr y.addr
        (cell .left cy nullNode y (ptr r) g.label.addr) = .ok t' ∧
      DetachResult t t' n₁ (g :: D) C c a x y r := by
  have hshape : ∀ s, plug C (.nodeAt .left c a x (plug (g :: D) s)) =
      plug (g :: D ++ ⟨.right, c, x, a⟩ :: C) s := fun s => by rw [plug_append]; rfl
  have hnd := h.nodup_two_children
  simp only [List.nodup_cons, List.nodup_append, List.mem_cons, List.mem_append, not_or] at hnd
  obtain ⟨⟨hnx, hny, hna, hnb, hnC⟩, ⟨hxy, hxa, hxb, hxC⟩, ⟨hya, hyb, hyC⟩, hnda,
    ⟨hndb, hndC, hbC⟩, habC⟩ := hnd
  rw [hshape] at h
  -- the parent of the successor is not the erased node
  have hgx : g.label.addr ≠ x.addr := by
    have hnd' := (List.nodup_append.1 (List.nodup_cons.1 h.nodup_plug).2).2.1
    rw [List.cons_append, Context.labels, addrs_cons, List.nodup_cons] at hnd'
    intro e
    refine hnd'.1 ?_
    rw [e, addrs_append, labels_append, addrs_append, Context.labels, addrs_cons]
    simp
  -- the successor is removed
  obtain ⟨t₁, n₁, hrun₁, h₁, hpos, hy₁, hch₁⟩ := remove_spec h
  rw [h.heap_focus] at hy₁
  rw [← hshape] at h₁
  have hbne : plug (g :: D) r ≠ .nil := plug_ne_nil D (g.fill_ne_nil r)
  set b := plug (g :: D) r with hb
  have hst := h₁.stored
  simp only [stored_plug, stored_nodeAt, ptr_nodeAt] at hst
  obtain ⟨⟨hx₁, hsa₁, hsb₁⟩, hC₁⟩ := hst
  -- and gets the right subtree
  let ny := cell .left cy nullNode y (ptr b) g.label.addr
  let t₂ := t₁.write y.addr ny
  have hch₂ : Changes t₁ t₂ [y.addr] := Changes.write hy₁ _
  have hsb₂ : Stored t₂.heap x.addr b := hsb₁.congr fun q hq =>
    hch₂.keeps q (by simpa using ne_of_mem_of_not_mem hq hyb)
  obtain ⟨t₃, hrun₃, hsb₃, hroot₃, hch₃⟩ :=
    reparent_spec y.addr hsb₂ (List.nodup_cons.2 ⟨hnb, hndb⟩)
  rw [if_pos (ne_of_mem_of_not_mem (ptr_mem hbne) hnb)] at hrun₃
  have hkeep : ∀ q, q ≠ y.addr → q ∉ addrs b.toList → t₃.heap q = t₁.heap q := fun q hqy hqb => by
    rw [hch₃.keeps q hqb, hch₂.keeps q (by simpa using hqy)]
  refine ⟨t₃, n₁, ?_, ⟨⟨_, (hkeep _ hxy hxb).trans hx₁, rfl, rfl, rfl⟩, ⟨ny, ?_, rfl, rfl, rfl⟩,
    ?_, hsb₃, ?_⟩, ?_, ?_, ?_, ?_, h₁.black, hpos⟩
  · have hright : (cell .left c (ptr a) x (ptr b) (parentPtr C)).right = ptr b := rfl
    have hright' : (cell .left cy nullNode y (ptr r) g.label.addr).right = ptr r := rfl
    have hmod₂ : t₁.modify y.addr (·.setChild .right (ptr b)) = .ok t₂ := RBTree.modify_eq hy₁ _
    have hy₂ : t₂.heap y.addr = some ny := RBTree.write_heap_self
    have hright₂ : ny.right = ptr b := rfl
    simp only [RBTree.eraseDetach, bind, Except.bind, cell_parent, if_neg hgx, hright', hrun₁,
      RBTree.read_eq hx₁, hright, hmod₂, RBTree.read_eq hy₂, hright₂, hrun₃]
  · rw [hch₃.keeps _ hyb]
    exact RBTree.write_heap_self
  · exact hsa₁.congr fun q hq => hkeep q (ne_of_mem_of_not_mem hq hya)
      (fun hm => habC q hq q (.inl hm) rfl)
  · exact hC₁.congr fun q hq => hkeep q (ne_of_mem_of_not_mem hq hyC)
      (fun hm => hbC q hm q hq rfl)
  · exact (hroot₃.trans h₁.root).trans ((ptr_plug_congr C (by simp)).trans
      ((hshape _).symm ▸ h.root).symm)
  · intro q
    rw [hch₃.cells, hch₂.cells, hch₁.cells]
  · rw [hch₃.next, hch₂.next, hch₁.next]
  · rw [hkeep _ hny hnb, h₁.sentinel]

/-- The first step for two children. -/
theorem eraseDetach_spec {D : Context (Entry K V)}
    (h : Represents t (plug C (.nodeAt .left c a x (plug D (.nodeAt .left cy .nil y r)))) [] n₀) :
    ∃ t' n₁, t.eraseDetach x.addr y.addr
        (cell .left cy nullNode y (ptr r) (parentPtr (D ++ ⟨.right, c, x, a⟩ :: C))) = .ok t' ∧
      DetachResult t t' n₁ D C c a x y r := by
  cases D with
  | nil => exact eraseDetach_child h
  | cons g D => exact eraseDetach_deep h

/-- A node with two children is unlinked by its successor taking its place. -/
theorem eraseTwoChildren_spec (h : Represents t (plug C (.nodeAt .left c a x b)) [] n₀)
    (ha : a ≠ .nil) (hb : b ≠ .nil) :
    ∃ t' c' C' s n₁, t.eraseTwoChildren x.addr = .ok (t', c', ptr s) ∧
      Unlinked t' (plug C (.nodeAt .left c a x b)) x c' C' s n₁ := by
  have hx := h.heap_focus
  obtain ⟨D, cy, y, r, hmin, rfl, hD⟩ :=
    treeMinimum_spec (C := ⟨.right, c, x, a⟩ :: C) (b := b) h hb
  have hshape : ∀ (z : Entry K V) s, plug C (.nodeAt .left c a z (plug D s)) =
      plug (D ++ ⟨.right, c, z, a⟩ :: C) s := fun z s => by rw [plug_append]; rfl
  have hy := (hshape x _ ▸ h).heap_focus
  obtain ⟨t₁, n₁, hrun₁, hres⟩ := eraseDetach_spec h
  obtain ⟨t₂, hrun₂, hst₂, hC₂, hroot₂, hch₂⟩ :=
    eraseReplace_spec hres.detached ha h.nodup_two_children
  have hnd := h.nodup_two_children
  simp only [List.nodup_cons, List.nodup_append, List.mem_cons, List.mem_append, not_or] at hnd
  obtain ⟨⟨-, hny, hna, -, hnC⟩, -⟩ := hnd
  -- the successor takes over the place of the erased node, so that only a label differs
  have hss : Frame.SameShape (⟨.right, c, x, a⟩ : Frame (Entry K V)) ⟨.right, c, y, a⟩ :=
    ⟨rfl, rfl, rfl⟩
  refine ⟨t₂, cy, D ++ ⟨.right, c, y, a⟩ :: C, r, n₁, ?_, ?_, hres.position, ?_, ?_, ?_⟩
  · have hright : (cell .left c (ptr a) x (ptr (plug D (.nodeAt .left cy .nil y r)))
        (parentPtr C)).right = ptr (plug D (.nodeAt .left cy .nil y r)) := rfl
    simp only [RBTree.eraseTwoChildren, bind, Except.bind, RBTree.read_eq hx, hright, hmin,
      RBTree.read_eq hy, ptr_nil, hrun₁, hrun₂, cell_color]
    rfl
  · rw [← hshape]
    refine h.detach ?_ (fun q => by rw [hch₂.cells, hres.cells])
      (by rw [hch₂.next, hres.next]) ?_ ?_ ?_ hres.black
    · refine (two_children_perm ..).trans (List.Perm.cons x ?_)
      refine List.Perm.trans ?_ (toList_plug_perm ..).symm
      simpa using ((ColorTree.toList_nodeAt_perm .left c a y (plug D r)).symm.append_right C.labels)
    · rw [hroot₂, hres.root]
      cases C with
      | nil => simp
      | cons f C => exact h.root.trans (ptr_plug_cons ..)
    · rw [stored_plug, ptr_nodeAt]
      exact ⟨hst₂, hC₂⟩
    · rw [hch₂.keeps _ _, hres.sentinel]
      simp only [List.mem_cons, List.mem_append, not_or]
      exact ⟨hny, hna, hnC⟩
  · rw [← hshape]
    refine ⟨C.before ++ a.toList, y :: ((plug D r).toList ++ C.after), ?_, ?_⟩
    · simp [toList_plug, ColorTree.nodeAt, ColorTree.toList, before_eq_nil hD]
    · simp [toList_plug, ColorTree.nodeAt, ColorTree.toList, before_eq_nil hD]
  · rintro hB rfl
    rw [hshape] at hB
    exact hB.remove_red.relabel D C hss
  · rintro hB rfl
    rw [hshape] at hB
    exact (Deficient.of_balanced hB).relabel D C hss

/-- `erase` takes a node out of the tree, whatever children it has. -/
theorem eraseUnlink_spec (h : Represents t (plug C (.nodeAt .left c a x b)) [] n₀) :
    ∃ t' c' C' s n₁, t.eraseUnlink x.addr = .ok (t', c', ptr s) ∧
      Unlinked t' (plug C (.nodeAt .left c a x b)) x c' C' s n₁ := by
  have hx := h.heap_focus
  have hleft : (cell .left c (ptr a) x (ptr b) (parentPtr C)).left = ptr a := rfl
  have hright : (cell .left c (ptr a) x (ptr b) (parentPtr C)).right = ptr b := rfl
  have hnd := h.nodup_node
  simp only [List.nodup_cons, List.mem_cons, List.mem_append, not_or] at hnd
  obtain ⟨⟨-, hna, hnb, -⟩, -⟩ := hnd
  simp only [RBTree.eraseUnlink, bind, Except.bind, RBTree.read_eq hx, hleft, hright, cell_color]
  by_cases ha : a = .nil
  · subst ha
    obtain ⟨t', n₁, hrun, hU⟩ := unlink_one_child h
    exact ⟨t', c, C, b, n₁, by simp [hrun], hU⟩
  · have hane : ptr a ≠ nullNode := ne_of_mem_of_not_mem (ptr_mem ha) hna
    rw [if_neg hane]
    -- the mirror image of the case before
    by_cases hb : b = .nil
    · subst hb
      have hflip : ColorTree.nodeAt .left c a x .nil = .nodeAt .right c .nil x a := rfl
      rw [hflip] at h ⊢
      obtain ⟨t', n₁, hrun, hU⟩ := unlink_one_child h
      exact ⟨t', c, C, a, n₁, by simp [hrun], hU⟩
    · rw [if_neg (ne_of_mem_of_not_mem (ptr_mem hb) hnb)]
      exact eraseTwoChildren_spec h ha hb

end TwoChildren

end CppLearn

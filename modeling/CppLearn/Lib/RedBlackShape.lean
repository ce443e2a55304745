import Mathlib.Algebra.Order.Ring.Nat
import Mathlib.Data.List.Basic
import Mathlib.Data.Nat.Log
import Mathlib.Tactic.Common

/-!
# Red-black trees and their contexts

Coloured binary trees over an arbitrary label type, the two balance conditions, and contexts
(trees with a hole) for stating what holds around a position in the middle of a tree. Mirror
images are covered by one statement: `ColorTree.nodeAt d` builds a node from the subtree on side `d`
and the one on the other side.

Insertion and deletion repair a tree by moving a local defect towards the root. `Ascending` is
the defect of insertion (a red node that may hang below a red one), `Deficient` that of deletion
(a position where one black node is missing). For each repair step one lemma says which defect
it leaves, or that the tree is balanced afterwards.

## Main definitions

* `ColorTree`, `Side`, `ColorTree.nodeAt`, `Frame`, `plug`;
* `ColorTree.HasBlackHeight`, `ColorTree.NoRedRed`, `Balanced`;
* `Ascending` and `Deficient`.

## Main results

* `plug_hasBlackHeight`, `plug_noRedRed` and `toList_plug` split a condition on a whole tree into
  one on the focused subtree and one on its context;
* `Ascending.recolour`, `Ascending.rotateInner`, `Ascending.rotateOuter`;
* `Deficient.rotateBrother`, `Deficient.recolour`, `Deficient.rotateNear`,
  `Deficient.rotateFar`;
* `Balanced.height_le`: the height of a balanced tree is logarithmic.
-/

namespace RedBlack

/-- The colour of a node. -/
inductive Color where
  | RED
  | BLACK
  deriving DecidableEq, Repr

/-- The contribution of a node to the number of black nodes on a path through it. -/
def Color.weight : Color → ℕ
  | .RED => 0
  | .BLACK => 1

/-- A side of a node. -/
inductive Side where
  | left
  | right
  deriving DecidableEq, Repr

/-- The opposite side. -/
def Side.flip : Side → Side
  | .left => .right
  | .right => .left

/-- The other side of the other side. -/
@[simp]
theorem Side.flip_flip (d : Side) : d.flip.flip = d := by cases d <;> rfl

theorem Side.flip_ne (d : Side) : d.flip ≠ d := by cases d <;> decide

/-- There are two sides only. -/
theorem Side.eq_or_eq_flip (d e : Side) : e = d ∨ e = d.flip := by
  cases d <;> cases e <;> simp [Side.flip]

/-- Coloured binary trees with labels in `α`. -/
inductive ColorTree (α : Type*) where
  | nil
  | node (c : Color) (l : ColorTree α) (x : α) (r : ColorTree α)

variable {α : Type*}

namespace ColorTree

/-- The colour of the root; the empty tree counts as black. -/
def color : ColorTree α → Color
  | nil => .BLACK
  | node c _ _ _ => c

/-- Change the colour of the root. -/
def paint (c : Color) : ColorTree α → ColorTree α
  | nil => nil
  | node _ l x r => node c l x r

/-- The labels in symmetric order. -/
def toList : ColorTree α → List α
  | nil => []
  | node _ l x r => l.toList ++ x :: r.toList

/-- The node with subtree `near` on side `d` and `far` on the other side. -/
def nodeAt (d : Side) (c : Color) (near : ColorTree α) (x : α) (far : ColorTree α) : ColorTree α :=
  match d with
  | .left => node c near x far
  | .right => node c far x near

/-- Every path from the root to an empty subtree meets `n` black nodes. -/
def HasBlackHeight : ColorTree α → ℕ → Prop
  | nil, n => n = 0
  | node c l _ r, n => ∃ m, n = m + c.weight ∧ l.HasBlackHeight m ∧ r.HasBlackHeight m

/-- No red node has a red child. -/
def NoRedRed : ColorTree α → Prop
  | nil => True
  | node c l _ r => (c = .RED → l.color = .BLACK ∧ r.color = .BLACK) ∧ l.NoRedRed ∧ r.NoRedRed

@[simp]
theorem color_nil : (nil : ColorTree α).color = .BLACK := rfl

/-- Colours and labels do not depend on the side from which a node is written. -/
@[simp]
theorem color_nodeAt (d : Side) (c : Color) (a : ColorTree α) (x : α) (b : ColorTree α) :
    (nodeAt d c a x b).color = c := by cases d <;> rfl

@[simp]
theorem paint_nil (c : Color) : (nil : ColorTree α).paint c = nil := rfl

/-- Painting changes the colour of the root only. -/
@[simp]
theorem paint_nodeAt (d : Side) (c c' : Color) (a : ColorTree α) (x : α) (b : ColorTree α) :
    (nodeAt d c a x b).paint c' = nodeAt d c' a x b := by cases d <;> rfl

@[simp]
theorem toList_nil : (nil : ColorTree α).toList = [] := rfl

/-- Painting keeps the order of the labels. -/
@[simp]
theorem toList_paint (c : Color) (t : ColorTree α) : (t.paint c).toList = t.toList := by
  cases t <;> rfl

@[simp]
theorem nodeAt_ne_nil (d : Side) (c : Color) (a : ColorTree α) (x : α) (b : ColorTree α) :
    nodeAt d c a x b ≠ nil := by cases d <;> simp [nodeAt]

/-- A node written from the other side. -/
theorem nodeAt_flip (d : Side) (c : Color) (a : ColorTree α) (x : α) (b : ColorTree α) :
    nodeAt d.flip c a x b = nodeAt d c b x a := by cases d <;> rfl

/-- A nonempty tree has a root, two subtrees and a colour, seen from either side. -/
theorem exists_nodeAt (d : Side) {t : ColorTree α} (h : t ≠ nil) :
    ∃ a x b, t = nodeAt d t.color a x b := by
  cases t with
  | nil => exact absurd rfl h
  | node c l x r =>
    cases d
    · exact ⟨l, x, r, rfl⟩
    · exact ⟨r, x, l, rfl⟩

/-- Empty trees are black. -/
theorem ne_nil_of_red {t : ColorTree α} (h : t.color = .RED) : t ≠ nil := by
  rintro rfl
  cases h

@[simp]
theorem hasBlackHeight_nil (n : ℕ) : (nil : ColorTree α).HasBlackHeight n ↔ n = 0 := Iff.rfl

/-- Both subtrees have the same black height. -/
theorem hasBlackHeight_nodeAt (d : Side) (c : Color) (a : ColorTree α) (x : α) (b : ColorTree α)
    (n : ℕ) :
    (nodeAt d c a x b).HasBlackHeight n ↔
      ∃ m, n = m + c.weight ∧ a.HasBlackHeight m ∧ b.HasBlackHeight m := by
  cases d
  · exact Iff.rfl
  · simp only [nodeAt, HasBlackHeight]
    exact exists_congr fun m => and_congr_right fun _ => and_comm

@[simp]
theorem noRedRed_nil : (nil : ColorTree α).NoRedRed := trivial

/-- Below a red node, both children are black. -/
theorem noRedRed_nodeAt (d : Side) (c : Color) (a : ColorTree α) (x : α) (b : ColorTree α) :
    (nodeAt d c a x b).NoRedRed ↔
      (c = .RED → a.color = .BLACK ∧ b.color = .BLACK) ∧ a.NoRedRed ∧ b.NoRedRed := by
  cases d
  · exact Iff.rfl
  · simp only [nodeAt, NoRedRed]
    tauto

/-- Painting a tree black keeps it free of red-red edges. -/
theorem NoRedRed.paint_black {t : ColorTree α} (h : t.NoRedRed) : (t.paint .BLACK).NoRedRed := by
  cases t with
  | nil => trivial
  | node c l x r => exact ⟨nofun, h.2⟩

/-- A black root is painted black already. -/
theorem paint_black_of_black {t : ColorTree α} (h : t.color = .BLACK) : t.paint .BLACK = t := by
  cases t with
  | nil => rfl
  | node c l x r => cases h; rfl

@[simp]
theorem color_paint_black (t : ColorTree α) : (t.paint .BLACK).color = .BLACK := by
  cases t <;> rfl

/-- Painting the root of a nonempty tree red and black changes the black height by one. -/
theorem HasBlackHeight.paint_black {t : ColorTree α} {n : ℕ} (h : t.HasBlackHeight n)
    (hred : t.color = .RED) : (t.paint .BLACK).HasBlackHeight (n + 1) := by
  cases t with
  | nil => cases hred
  | node c l x r =>
    cases hred
    obtain ⟨m, hm, hl, hr⟩ := h
    exact ⟨m, by rw [hm]; rfl, hl, hr⟩

/-- A tree of positive black height is not empty. -/
theorem HasBlackHeight.ne_nil {t : ColorTree α} {n : ℕ} (h : t.HasBlackHeight (n + 1)) :
    t ≠ nil := by
  rintro rfl
  cases h

/-- A single rotation keeps the symmetric order. -/
theorem toList_rotate (d : Side) (c₁ c₂ c₃ c₄ : Color) (a b e : ColorTree α) (x y : α) :
    (nodeAt d c₁ a x (nodeAt d c₂ b y e)).toList =
      (nodeAt d c₃ (nodeAt d c₄ a x b) y e).toList := by
  cases d <;> simp [nodeAt, toList]

/-- The labels of a node, in an order that does not depend on the side. -/
theorem toList_nodeAt_perm (d : Side) (c : Color) (a : ColorTree α) (x : α) (b : ColorTree α) :
    (nodeAt d c a x b).toList.Perm (x :: (a.toList ++ b.toList)) := by
  cases d
  · exact List.perm_middle
  · exact List.perm_middle.trans (List.perm_append_comm.cons x)

end ColorTree

/-- One step of a path from a position to the root: the side on which the position hangs, and
the colour, the label and the other subtree of the node above. -/
structure Frame (α : Type*) where
  /-- The side on which the hole is. -/
  side : Side
  /-- The colour of the node. -/
  color : Color
  /-- The label of the node. -/
  label : α
  /-- The subtree on the other side. -/
  sibling : ColorTree α

/-- The tree with `t` in the hole of the frame. -/
def Frame.fill (f : Frame α) (t : ColorTree α) : ColorTree α :=
  .nodeAt f.side f.color t f.label f.sibling

/-- A frame has a node. -/
theorem Frame.fill_ne_nil (f : Frame α) (t : ColorTree α) : f.fill t ≠ .nil :=
  ColorTree.nodeAt_ne_nil _ _ _ _ _

/-- A tree with a hole, as the frames from the hole to the root. -/
abbrev Context (α : Type*) := List (Frame α)

/-- The tree with `t` in the hole of the context. -/
def plug : Context α → ColorTree α → ColorTree α
  | [], t => t
  | f :: C, t => plug C (f.fill t)

namespace Context

/-- The colour of the node above the hole; a hole at the top counts as black. -/
def parentColor : Context α → Color
  | [] => .BLACK
  | f :: _ => f.color

/-- Filled with a tree of black height `n`, the context gives a tree of black height `N`. -/
def HasBlackHeight : Context α → ℕ → ℕ → Prop
  | [], n, N => n = N
  | f :: C, n, N => f.sibling.HasBlackHeight n ∧ HasBlackHeight C (n + f.color.weight) N

/-- No red node of the context has a red child, the hole left aside. -/
def NoRedRed : Context α → Prop
  | [] => True
  | f :: C => f.sibling.NoRedRed ∧
      (f.color = .RED → f.sibling.color = .BLACK ∧ parentColor C = .BLACK) ∧ NoRedRed C

/-- The labels before the hole in symmetric order. -/
def before : Context α → List α
  | [] => []
  | f :: C =>
    match f.side with
    | .left => before C
    | .right => before C ++ f.sibling.toList ++ [f.label]

/-- The labels after the hole in symmetric order. -/
def after : Context α → List α
  | [] => []
  | f :: C =>
    match f.side with
    | .left => f.label :: f.sibling.toList ++ after C
    | .right => after C

/-- The labels of the context. -/
def labels : Context α → List α
  | [] => []
  | f :: C => f.label :: (f.sibling.toList ++ labels C)

/-- The root of the context is black; a hole at the top is left aside. -/
def RootBlack : Context α → Prop
  | [] => True
  | [f] => f.color = .BLACK
  | _ :: f :: C => RootBlack (f :: C)

end Context

open Context

@[simp]
theorem plug_nil (t : ColorTree α) : plug [] t = t := rfl

/-- The innermost frame is filled first. -/
theorem plug_cons (f : Frame α) (C : Context α) (t : ColorTree α) :
    plug (f :: C) t = plug C (f.fill t) := rfl

/-- The labels of the frame are on both sides of those of the subtree. -/
theorem toList_fill (f : Frame α) (t : ColorTree α) :
    (f.fill t).toList = before [f] ++ t.toList ++ after [f] := by
  obtain ⟨d, c, x, s⟩ := f
  cases d <;> simp [Frame.fill, ColorTree.nodeAt, ColorTree.toList, before, after]

/-- The symmetric order of a filled frame does not depend on colours. -/
theorem toList_fill_congr {f g : Frame α} {t u : ColorTree α} (hside : f.side = g.side)
    (hlabel : f.label = g.label) (hsibling : f.sibling.toList = g.sibling.toList)
    (h : t.toList = u.toList) : (f.fill t).toList = (g.fill u).toList := by
  obtain ⟨d, c, x, s⟩ := f
  obtain ⟨d', c', x', s'⟩ := g
  subst hside hlabel
  cases d <;> simp_all [Frame.fill, ColorTree.nodeAt, ColorTree.toList]

/-- The symmetric order of a plugged context. -/
theorem toList_plug (C : Context α) (t : ColorTree α) :
    (plug C t).toList = before C ++ t.toList ++ after C := by
  induction C generalizing t with
  | nil => simp [before, after]
  | cons f C ih =>
    obtain ⟨d, c, x, s⟩ := f
    rw [plug_cons, ih, toList_fill]
    cases d <;> simp [before, after]

/-- A subtree can be exchanged for one with the same labels. -/
theorem toList_plug_congr (C : Context α) {t u : ColorTree α} (h : t.toList = u.toList) :
    (plug C t).toList = (plug C u).toList := by
  rw [toList_plug, toList_plug, h]

/-- The labels of a plugged context, those of the focused subtree first. -/
theorem toList_plug_perm (C : Context α) (t : ColorTree α) :
    (plug C t).toList.Perm (t.toList ++ C.labels) := by
  induction C generalizing t with
  | nil => simp [labels]
  | cons f C ih =>
    calc (plug C (f.fill t)).toList
      _ |>.Perm ((f.fill t).toList ++ labels C) := ih _
      _ |>.Perm (f.label :: (t.toList ++ f.sibling.toList) ++ labels C) :=
        (ColorTree.toList_nodeAt_perm ..).append_right _
      _ |>.Perm (t.toList ++ labels (f :: C)) := by
        simpa [labels] using List.perm_middle.symm

/-- A tree has at least as many labels as there are frames above any of its positions. -/
theorem length_le_toList_plug (C : Context α) (t : ColorTree α) :
    C.length ≤ (plug C t).toList.length := by
  rw [(toList_plug_perm C t).length_eq, List.length_append]
  suffices C.length ≤ C.labels.length by omega
  induction C with
  | nil => simp
  | cons f C ih =>
    simp only [labels, List.length_cons, List.length_append]
    omega

/-- What surrounds a node is not empty. -/
theorem plug_ne_nil (C : Context α) {t : ColorTree α} (h : t ≠ .nil) : plug C t ≠ .nil := by
  induction C generalizing t with
  | nil => exact h
  | cons f C ih => exact ih (f.fill_ne_nil t)

/-- Focusing on the sibling instead of the filled hole. -/
theorem plug_sibling (f : Frame α) (C : Context α) (t : ColorTree α) :
    plug (f :: C) t = plug (⟨f.side.flip, f.color, f.label, t⟩ :: C) f.sibling := by
  simp only [plug_cons, Frame.fill, ColorTree.nodeAt_flip]

/-- The black height of a plugged context. -/
theorem plug_hasBlackHeight (C : Context α) (t : ColorTree α) (N : ℕ) :
    (plug C t).HasBlackHeight N ↔ ∃ n, t.HasBlackHeight n ∧ C.HasBlackHeight n N := by
  induction C generalizing t with
  | nil => simp [Context.HasBlackHeight]
  | cons f C ih =>
    rw [plug_cons, ih]
    simp only [Frame.fill, ColorTree.hasBlackHeight_nodeAt, Context.HasBlackHeight]
    constructor
    · rintro ⟨n, ⟨m, rfl, ht, hs⟩, hC⟩
      exact ⟨m, ht, hs, hC⟩
    · rintro ⟨m, ht, hs, hC⟩
      exact ⟨_, ⟨m, rfl, ht, hs⟩, hC⟩

/-- A plugged context is free of red-red edges when its parts are and the edge at the hole
is not red-red. -/
theorem plug_noRedRed (C : Context α) (t : ColorTree α) :
    (plug C t).NoRedRed ↔
      t.NoRedRed ∧ C.NoRedRed ∧ (t.color = .RED → C.parentColor = .BLACK) := by
  induction C generalizing t with
  | nil => simp [Context.NoRedRed, parentColor]
  | cons f C ih =>
    -- the edge at the hole is now one inside the filled frame
    rw [plug_cons, ih]
    simp only [Frame.fill, ColorTree.noRedRed_nodeAt, ColorTree.color_nodeAt, Context.NoRedRed,
      parentColor]
    constructor
    · rintro ⟨⟨hc, ht, hs⟩, hC, hp⟩
      refine ⟨ht, ⟨hs, fun h => ⟨(hc h).2, hp h⟩, hC⟩, fun h => ?_⟩
      cases hf : f.color with
      | BLACK => rfl
      | RED => rw [(hc hf).1] at h; cases h
    · rintro ⟨ht, ⟨hs, hc, hC⟩, hp⟩
      refine ⟨⟨fun h => ⟨?_, (hc h).1⟩, ht, hs⟩, hC, fun h => (hc h).2⟩
      cases htc : t.color with
      | BLACK => rfl
      | RED => rw [hp htc] at h; cases h

/-- The colour of the root of a plugged context that is not just a hole. -/
theorem plug_color_of_rootBlack {C : Context α} (hC : C ≠ []) (h : C.RootBlack) (t : ColorTree α) :
    (plug C t).color = .BLACK := by
  induction C generalizing t with
  | nil => exact absurd rfl hC
  | cons f C ih =>
    cases C with
    | nil => simpa [plug, Frame.fill, RootBlack] using h
    | cons g C => exact ih (by simp) h _

/-- The root of a longer context is the root of the outer one. -/
theorem Context.RootBlack.tail {f : Frame α} {C : Context α} (h : RootBlack (f :: C)) :
    C.RootBlack := by
  cases C with
  | nil => trivial
  | cons g C => exact h

/-- An inner frame does not change the root. -/
theorem Context.RootBlack.cons {C : Context α} (h : C.RootBlack) (hC : C ≠ []) (f : Frame α) :
    RootBlack (f :: C) := by
  cases C with
  | nil => exact absurd rfl hC
  | cons g C => exact h

/-- Only the colour of the innermost frame matters for `RootBlack`. -/
theorem Context.RootBlack.replace {f g : Frame α} {C : Context α} (h : RootBlack (f :: C))
    (hg : f.color = .BLACK → g.color = .BLACK) : RootBlack (g :: C) := by
  cases C with
  | nil => exact hg h
  | cons e C => exact h

/-- The balance conditions on a whole tree: a black root, no red-red edge, and the same number of
black nodes on every path. -/
def Balanced (t : ColorTree α) : Prop :=
  t.color = .BLACK ∧ t.NoRedRed ∧ ∃ N, t.HasBlackHeight N

/-- Empty trees are balanced. -/
theorem balanced_nil : Balanced (.nil : ColorTree α) := ⟨rfl, trivial, 0, rfl⟩

/-! ## Positions at the bottom of a balanced tree -/

/-- A tree with a black root has a context with a black root. -/
theorem rootBlack_of_color {C : Context α} {t : ColorTree α} (h : (plug C t).color = .BLACK) :
    C.RootBlack := by
  induction C generalizing t with
  | nil => trivial
  | cons f C ih =>
    cases C with
    | nil => simpa [plug, Frame.fill, RootBlack] using h
    | cons g C => exact ih h

/-- What the balance of a tree says about the context of one of its subtrees. -/
theorem Balanced.split {C : Context α} {t : ColorTree α} (h : Balanced (plug C t)) :
    t.NoRedRed ∧ C.NoRedRed ∧ (t.color = .RED → C.parentColor = .BLACK) ∧ C.RootBlack ∧
      ∃ n N, t.HasBlackHeight n ∧ C.HasBlackHeight n N := by
  obtain ⟨hroot, hrr, N, hN⟩ := h
  obtain ⟨ht, hC, hedge⟩ := (plug_noRedRed C t).1 hrr
  obtain ⟨n, hn, hCN⟩ := (plug_hasBlackHeight C t N).1 hN
  exact ⟨ht, hC, hedge, rootBlack_of_color hroot, n, N, hn, hCN⟩

/-- Taking a red node with an empty subtree out of a balanced tree leaves a balanced one. -/
theorem Balanced.remove_red {C : Context α} {d : Side} {x : α} {t : ColorTree α}
    (h : Balanced (plug C (.nodeAt d .RED .nil x t))) : Balanced (plug C t) := by
  obtain ⟨ht, hC, hedge, hroot, n, N, hn, hN⟩ := h.split
  obtain ⟨m, hm, -, hmt⟩ := (ColorTree.hasBlackHeight_nodeAt ..).1 hn
  obtain ⟨hred, -, ht⟩ := (ColorTree.noRedRed_nodeAt ..).1 ht
  -- below the red node there was a black one, so the edge at the hole stays fine
  have hblack : t.color = .BLACK := (hred rfl).2
  have hnm : n = m := hm
  subst hnm
  refine ⟨?_, (plug_noRedRed ..).2 ⟨ht, hC, by simp [hblack]⟩, N,
    (plug_hasBlackHeight ..).2 ⟨n, hmt, hN⟩⟩
  cases C with
  | nil => exact hblack
  | cons f C => exact plug_color_of_rootBlack (by simp) hroot _

/-! ## Insertion: a red node on its way up -/

/-- A red subtree `t` in a context `C`, both balanced, where only the edge between `t` and the
node above it may be red-red. -/
structure Ascending (C : Context α) (t : ColorTree α) : Prop where
  /-- The root of the subtree is red. -/
  red : t.color = .RED
  /-- The subtree has no red-red edge. -/
  inner : t.NoRedRed
  /-- The context has no red-red edge. -/
  outer : C.NoRedRed
  /-- The root of the whole tree is black, unless it is `t`. -/
  root : C.RootBlack
  /-- All paths meet the same number of black nodes. -/
  height : ∃ n N, t.HasBlackHeight n ∧ C.HasBlackHeight n N

namespace Ascending

variable {C : Context α} {t : ColorTree α} {f g : Frame α}

/-- A new red leaf in the place of an empty subtree. -/
theorem of_balanced (h : Balanced (plug C .nil)) (d : Side) (x : α) :
    Ascending C (.nodeAt d .RED .nil x .nil) := by
  obtain ⟨-, hC, -, hroot, n, N, hn, hN⟩ := h.split
  refine ⟨ColorTree.color_nodeAt .., ?_, hC, hroot, n, N, ?_, hN⟩
  · simp [ColorTree.noRedRed_nodeAt]
  · exact (ColorTree.hasBlackHeight_nodeAt ..).2 ⟨n, rfl, hn, hn⟩

/-- A red parent is not the root, and its own parent is black. -/
theorem exists_grandparent (h : Ascending (f :: C) t) (hf : f.color = .RED) :
    ∃ g C', C = g :: C' ∧ g.color = .BLACK := by
  cases C with
  | nil =>
    have hblack : f.color = .BLACK := h.root
    rw [hf] at hblack
    cases hblack
  | cons g C' => exact ⟨g, C', rfl, (h.outer.2.1 hf).2⟩

/-- Below a black node the only possible defect is a red root. -/
theorem balanced_paint (h : Ascending C t) (hC : C.parentColor = .BLACK) :
    Balanced ((plug C t).paint .BLACK) := by
  obtain ⟨n, N, ht, hh⟩ := h.height
  have hrr : (plug C t).NoRedRed := (plug_noRedRed C t).2 ⟨h.inner, h.outer, fun _ => hC⟩
  have hbh : (plug C t).HasBlackHeight N := (plug_hasBlackHeight C t N).2 ⟨n, ht, hh⟩
  refine ⟨ColorTree.color_paint_black _, hrr.paint_black, ?_⟩
  cases hc : (plug C t).color with
  | RED => exact ⟨N + 1, hbh.paint_black hc⟩
  | BLACK => exact ⟨N, by rwa [ColorTree.paint_black_of_black hc]⟩

/-- Red parent and red uncle: both become black, the grandparent red, and the defect moves up to
the grandparent. -/
theorem recolour (h : Ascending (f :: g :: C) t) (hf : f.color = .RED)
    (hu : g.sibling.color = .RED) :
    Ascending C ({ g with color := .RED, sibling := g.sibling.paint .BLACK }.fill
      ({ f with color := .BLACK }.fill t)) := by
  obtain ⟨hfs, hfr, hgs, hgr, hC⟩ := h.outer
  have hg : g.color = .BLACK := (hfr hf).2
  obtain ⟨n, N, ht, hs, hu', hh⟩ := h.height
  rw [hf] at hu' hh
  rw [hg] at hh
  refine ⟨ColorTree.color_nodeAt .., ?_, hC, h.root.tail.tail, n + 1, N, ?_, hh⟩
  · simp only [Frame.fill, ColorTree.noRedRed_nodeAt, ColorTree.color_nodeAt,
      ColorTree.color_paint_black]
    exact ⟨fun _ => ⟨trivial, trivial⟩, ⟨nofun, h.inner, hfs⟩, hgs.paint_black⟩
  · simp only [Frame.fill, ColorTree.hasBlackHeight_nodeAt]
    exact ⟨n + 1, rfl, ⟨n, rfl, ht, hs⟩, hu'.paint_black hu⟩

/-- Black uncle, and the red node on the inner side: rotating the parent brings the red pair to
the outer side. -/
theorem rotateInner {d : Side} {a b : ColorTree α} {x : α}
    (h : Ascending (f :: g :: C) (.nodeAt d .RED a x b)) (hf : f.color = .RED) :
    Ascending (⟨d, .RED, x, b⟩ :: g :: C) (f.fill a) := by
  obtain ⟨hfs, hfr, hgs, hgr, hC⟩ := h.outer
  obtain ⟨hx, ha, hb⟩ := (ColorTree.noRedRed_nodeAt ..).1 h.inner
  obtain ⟨n, N, ht, hs, hu, hh⟩ := h.height
  obtain ⟨m, hm, hma, hmb⟩ := (ColorTree.hasBlackHeight_nodeAt ..).1 ht
  have hnm : n = m := hm
  subst hnm
  rw [hf] at hu hh
  refine ⟨by simp [Frame.fill, hf], ?_, ⟨hb, fun _ => ⟨(hx rfl).2, (hfr hf).2⟩, hgs, hgr, hC⟩,
    h.root.tail.cons (by simp) _, n, N, ?_, hmb, hu, hh⟩
  · simp only [Frame.fill, ColorTree.noRedRed_nodeAt]
    exact ⟨fun _ => ⟨(hx rfl).1, (hfr hf).1⟩, ha, hfs⟩
  · simp only [Frame.fill, ColorTree.hasBlackHeight_nodeAt]
    exact ⟨n, by rw [hf]; rfl, hma, hs⟩

/-- Black uncle, and the red node on the outer side: after recolouring the parent and the
grandparent and rotating, the red node hangs below a black one. -/
theorem rotateOuter (h : Ascending (f :: g :: C) t) (hf : f.color = .RED)
    (hu : g.sibling.color = .BLACK) :
    Ascending ({ f with
      color := .BLACK, sibling := { g with color := .RED }.fill f.sibling } :: C) t := by
  obtain ⟨hfs, hfr, hgs, hgr, hC⟩ := h.outer
  have hg : g.color = .BLACK := (hfr hf).2
  obtain ⟨n, N, ht, hs, hu', hh⟩ := h.height
  rw [hf] at hu' hh
  rw [hg] at hh
  refine ⟨h.red, h.inner, ⟨?_, nofun, hC⟩, h.root.tail.replace fun _ => rfl, n, N, ht, ?_, hh⟩
  · simp only [Frame.fill, ColorTree.noRedRed_nodeAt]
    exact ⟨fun _ => ⟨(hfr hf).1, hu⟩, hfs, hgs⟩
  · simp only [Frame.fill, ColorTree.hasBlackHeight_nodeAt]
    exact ⟨n, rfl, hs, hu'⟩

end Ascending

/-! ## Deletion: a missing black node on its way up -/

/-- A subtree `t` whose black height is one less than its context asks for. The root of `t` may
be red and have a red child or a red parent; painting it black would repair both. -/
structure Deficient (C : Context α) (t : ColorTree α) : Prop where
  /-- The subtree has no red-red edge once its root is black. -/
  inner : (t.paint .BLACK).NoRedRed
  /-- The context has no red-red edge. -/
  outer : C.NoRedRed
  /-- The root of the whole tree is black, unless it is `t`. -/
  root : C.RootBlack
  /-- One black node is missing on the paths through `t`. -/
  height : ∃ n N, t.HasBlackHeight n ∧ C.HasBlackHeight (n + 1) N

namespace Deficient

variable {C : Context α} {t : ColorTree α} {f : Frame α}

/-- Taking a black node with an empty subtree out of a balanced tree leaves a deficient one. -/
theorem of_balanced {d : Side} {x : α} (h : Balanced (plug C (.nodeAt d .BLACK .nil x t))) :
    Deficient C t := by
  obtain ⟨ht, hC, -, hroot, n, N, hn, hN⟩ := h.split
  obtain ⟨m, rfl, -, hm⟩ := (ColorTree.hasBlackHeight_nodeAt ..).1 hn
  obtain ⟨-, -, ht⟩ := (ColorTree.noRedRed_nodeAt ..).1 ht
  exact ⟨ht.paint_black, hC, hroot, m, N, hm, hN⟩

/-- A red root of the subtree repairs the tree when it is painted black. -/
theorem balanced_of_red (h : Deficient C t) (ht : t.color = .RED) :
    Balanced (plug C (t.paint .BLACK)) := by
  obtain ⟨n, N, hn, hN⟩ := h.height
  refine ⟨?_, (plug_noRedRed ..).2 ⟨h.inner, h.outer, by simp⟩, N,
    (plug_hasBlackHeight ..).2 ⟨n + 1, hn.paint_black ht, hN⟩⟩
  cases C with
  | nil => exact ColorTree.color_paint_black t
  | cons f C => exact plug_color_of_rootBlack (by simp) h.root _

/-- At the top of the tree nothing is missing. -/
theorem balanced_of_top (h : Deficient [] t) : Balanced (t.paint .BLACK) := by
  obtain ⟨n, N, hn, -⟩ := h.height
  refine ⟨ColorTree.color_paint_black _, h.inner, ?_⟩
  cases ht : t.color with
  | RED => exact ⟨n + 1, hn.paint_black ht⟩
  | BLACK => exact ⟨n, by rwa [ColorTree.paint_black_of_black ht]⟩

/-- The brother of a deficient position is a real node. -/
theorem sibling_ne_nil (h : Deficient (f :: C) t) : f.sibling ≠ .nil := by
  obtain ⟨n, N, -, hs, -⟩ := h.height
  exact hs.ne_nil

/-- Red brother: rotating the parent gives the deficient position a red parent and a black
brother. -/
theorem rotateBrother {a b : ColorTree α} {x : α} (h : Deficient (f :: C) t)
    (hs : f.sibling = .nodeAt f.side .RED a x b) :
    a.color = .BLACK ∧
      Deficient ({ f with color := .RED, sibling := a } :: ⟨f.side, .BLACK, x, b⟩ :: C) t := by
  obtain ⟨hfs, hfr, hC⟩ := h.outer
  rw [hs, ColorTree.noRedRed_nodeAt] at hfs
  obtain ⟨hx, ha, hb⟩ := hfs
  -- the parent of a red brother is black
  have hf : f.color = .BLACK := by
    cases hf : f.color with
    | BLACK => rfl
    | RED => simpa [hs] using (hfr hf).1
  obtain ⟨n, N, hn, hsn, hN⟩ := h.height
  rw [hs, ColorTree.hasBlackHeight_nodeAt] at hsn
  obtain ⟨m, hm, hma, hmb⟩ := hsn
  have hnm : m = n + 1 := hm.symm
  subst hnm
  rw [hf] at hN
  refine ⟨(hx rfl).1, h.inner, ⟨ha, fun _ => ⟨(hx rfl).1, rfl⟩, hb, nofun, hC⟩, ?_, n, N, hn,
    hma, hmb, hN⟩
  exact Context.RootBlack.cons (h.root.replace fun _ => rfl) (by simp) _

/-- A black deficient position has no red node with a red child. -/
theorem noRedRed (h : Deficient C t) (ht : t.color = .BLACK) : t.NoRedRed := by
  have hinner := h.inner
  rwa [ColorTree.paint_black_of_black ht] at hinner

/-- The children of a black brother have the black height of the deficient position. -/
theorem black_sibling {d : Side} {a b : ColorTree α} {x : α} (h : Deficient (f :: C) t)
    (hs : f.sibling = .nodeAt d .BLACK a x b) :
    ∃ n N, t.HasBlackHeight n ∧ a.HasBlackHeight n ∧ b.HasBlackHeight n ∧
      C.HasBlackHeight (n + 1 + f.color.weight) N := by
  obtain ⟨n, N, hn, hsn, hN⟩ := h.height
  rw [hs, ColorTree.hasBlackHeight_nodeAt] at hsn
  obtain ⟨m, hm, hma, hmb⟩ := hsn
  obtain rfl : n = m := Nat.succ.inj hm
  exact ⟨n, N, hn, hma, hmb, hN⟩

/-- Black brother with black children: painting it red moves the deficiency to the parent. -/
theorem recolour {d : Side} {a b : ColorTree α} {x : α} (h : Deficient (f :: C) t)
    (ht : t.color = .BLACK) (hs : f.sibling = .nodeAt d .BLACK a x b)
    (ha : a.color = .BLACK) (hb : b.color = .BLACK) :
    Deficient C ({ f with sibling := f.sibling.paint .RED }.fill t) := by
  obtain ⟨hfs, hfr, hC⟩ := h.outer
  rw [hs, ColorTree.noRedRed_nodeAt] at hfs
  obtain ⟨n, N, hn, hna, hnb, hN⟩ := h.black_sibling hs
  refine ⟨?_, hC, h.root.tail, n + f.color.weight, N, ?_, ?_⟩
  · simp only [Frame.fill, ColorTree.paint_nodeAt, hs, ColorTree.noRedRed_nodeAt]
    exact ⟨nofun, h.noRedRed ht, fun _ => ⟨ha, hb⟩, hfs.2⟩
  · simp only [Frame.fill, hs, ColorTree.paint_nodeAt, ColorTree.hasBlackHeight_nodeAt]
    exact ⟨n, rfl, hn, n, rfl, hna, hnb⟩
  · rwa [show n + f.color.weight + 1 = n + 1 + f.color.weight by omega]

/-- Black brother with a red near child: rotating the brother makes its far child red. -/
theorem rotateNear {a b c : ColorTree α} {x y : α} (h : Deficient (f :: C) t)
    (hs : f.sibling = .nodeAt f.side .BLACK (.nodeAt f.side .RED a x b) y c)
    (hc : c.color = .BLACK) :
    Deficient ({ f with
      sibling := .nodeAt f.side .BLACK a x (.nodeAt f.side .RED b y c) } :: C) t := by
  obtain ⟨hfs, hfr, hC⟩ := h.outer
  rw [hs, ColorTree.noRedRed_nodeAt, ColorTree.noRedRed_nodeAt] at hfs
  obtain ⟨-, ⟨hx, ha, hb⟩, hcr⟩ := hfs
  obtain ⟨n, N, hn, hnx, hnc, hN⟩ := h.black_sibling hs
  obtain ⟨k, hk, hka, hkb⟩ := (ColorTree.hasBlackHeight_nodeAt ..).1 hnx
  -- the near child is red, so it does not count for the black height
  obtain rfl : n = k := hk
  refine ⟨h.inner, ⟨?_, fun hf => ⟨ColorTree.color_nodeAt .., (hfr hf).2⟩, hC⟩,
    h.root.replace id, n, N, hn, ?_, hN⟩
  · simp only [ColorTree.noRedRed_nodeAt]
    exact ⟨nofun, ha, fun _ => ⟨(hx rfl).2, hc⟩, hb, hcr⟩
  · simp only [ColorTree.hasBlackHeight_nodeAt]
    exact ⟨n, rfl, hka, n, rfl, hkb, hnc⟩

/-- Black brother with a red far child: rotating the parent, with the colours exchanged and the
far child black, repairs the tree. -/
theorem rotateFar {a b : ColorTree α} {x : α} (h : Deficient (f :: C) t) (ht : t.color = .BLACK)
    (hs : f.sibling = .nodeAt f.side .BLACK a x b) (hb : b.color = .RED) :
    Balanced (plug C (.nodeAt f.side f.color
      (.nodeAt f.side .BLACK t f.label a) x (b.paint .BLACK))) := by
  obtain ⟨hfs, hfr, hC⟩ := h.outer
  rw [hs, ColorTree.noRedRed_nodeAt] at hfs
  obtain ⟨-, ha, hbr⟩ := hfs
  obtain ⟨n, N, hn, hna, hnb, hN⟩ := h.black_sibling hs
  refine ⟨?_, (plug_noRedRed ..).2 ⟨?_, hC, fun hf => ?_⟩, N,
    (plug_hasBlackHeight ..).2 ⟨_, ?_, hN⟩⟩
  · cases C with
    | nil => simpa [RootBlack] using h.root
    | cons g C => exact plug_color_of_rootBlack (by simp) h.root.tail _
  · simp only [ColorTree.noRedRed_nodeAt, ColorTree.color_nodeAt, ColorTree.color_paint_black]
    exact ⟨fun _ => ⟨trivial, trivial⟩, ⟨nofun, h.noRedRed ht, ha⟩, hbr.paint_black⟩
  · rw [ColorTree.color_nodeAt] at hf
    exact (hfr hf).2
  · simp only [ColorTree.hasBlackHeight_nodeAt]
    exact ⟨n + 1, rfl, ⟨n, rfl, hn, hna⟩, hnb.paint_black hb⟩

end Deficient

/-! ## Contexts below a relabelled node -/

/-- Contexts are composed from the inside to the outside. -/
theorem plug_append (D C : Context α) (t : ColorTree α) : plug (D ++ C) t = plug C (plug D t) := by
  induction D generalizing t with
  | nil => rfl
  | cons f D ih => exact ih _

/-- So are their labels. -/
theorem labels_append (D C : Context α) : labels (D ++ C) = labels D ++ labels C := by
  induction D with
  | nil => rfl
  | cons f D ih => simp [labels, ih]

/-- Nothing comes before the end of a leftmost path. -/
theorem before_eq_nil {D : Context α} (h : ∀ f ∈ D, f.side = .left) : before D = [] := by
  induction D with
  | nil => rfl
  | cons f D ih =>
    rw [before, h f (List.mem_cons_self ..)]
    exact ih fun g hg => h g (List.mem_cons_of_mem _ hg)

section Relabel

variable {f g : Frame α} (D C : Context α)

/-- Two frames that differ at most in their labels. -/
def Frame.SameShape (f g : Frame α) : Prop :=
  f.side = g.side ∧ f.color = g.color ∧ f.sibling = g.sibling

/-- Frames of the same shape can be exchanged: this keeps the colour of the parent, -/
theorem parentColor_relabel (h : f.SameShape g) :
    parentColor (D ++ f :: C) = parentColor (D ++ g :: C) := by
  cases D with
  | nil => exact h.2.1
  | cons e D => rfl

/-- that no red node has a red child, -/
theorem noRedRed_relabel (h : f.SameShape g) :
    Context.NoRedRed (D ++ f :: C) ↔ Context.NoRedRed (D ++ g :: C) := by
  induction D with
  | nil => simp only [List.nil_append, Context.NoRedRed, h.2.1, h.2.2]
  | cons e D ih =>
    simp only [List.cons_append, Context.NoRedRed, parentColor_relabel D C h, ih]

/-- the black heights, -/
theorem hasBlackHeight_relabel (h : f.SameShape g) (n N : ℕ) :
    Context.HasBlackHeight (D ++ f :: C) n N ↔ Context.HasBlackHeight (D ++ g :: C) n N := by
  induction D generalizing n with
  | nil => simp only [List.nil_append, Context.HasBlackHeight, h.2.1, h.2.2]
  | cons e D ih => simp only [List.cons_append, Context.HasBlackHeight, ih]

/-- and the colour of the root. -/
theorem rootBlack_relabel (h : f.SameShape g) :
    RootBlack (D ++ f :: C) ↔ RootBlack (D ++ g :: C) := by
  induction D with
  | nil =>
    cases C with
    | nil => simp only [List.nil_append, RootBlack, h.2.1]
    | cons e C => rfl
  | cons e D ih =>
    cases D with
    | nil => exact ih
    | cons e' D => exact ih

/-- A deficient position stays deficient when a node above it gets another label. -/
theorem Deficient.relabel {t : ColorTree α} (h : f.SameShape g) (hD : Deficient (D ++ f :: C) t) :
    Deficient (D ++ g :: C) t where
  inner := hD.inner
  outer := (noRedRed_relabel D C h).1 hD.outer
  root := (rootBlack_relabel D C h).1 hD.root
  height := by
    obtain ⟨n, N, hn, hN⟩ := hD.height
    exact ⟨n, N, hn, (hasBlackHeight_relabel D C h _ _).1 hN⟩

/-- A balanced tree stays balanced when one of its nodes gets another label. -/
theorem Balanced.relabel {t : ColorTree α} (h : f.SameShape g)
    (hB : Balanced (plug (D ++ f :: C) t)) :
    Balanced (plug (D ++ g :: C) t) := by
  obtain ⟨ht, hC, hedge, hroot, n, N, hn, hN⟩ := hB.split
  refine ⟨plug_color_of_rootBlack (by simp) ((rootBlack_relabel D C h).1 hroot) _,
    (plug_noRedRed ..).2 ⟨ht, (noRedRed_relabel D C h).1 hC, fun hc => ?_⟩, N,
    (plug_hasBlackHeight ..).2 ⟨n, hn, (hasBlackHeight_relabel D C h _ _).1 hN⟩⟩
  rw [← parentColor_relabel D C h]
  exact hedge hc

end Relabel

/-! ## Height -/

namespace ColorTree

/-- The greatest number of nodes on a path from the root. -/
def height : ColorTree α → ℕ
  | nil => 0
  | node _ l _ r => max l.height r.height + 1

/-- At most every second node of a path is red. -/
theorem HasBlackHeight.height_le {t : ColorTree α} {n : ℕ} (hn : t.HasBlackHeight n)
    (hrr : t.NoRedRed) : t.height + t.color.weight ≤ 2 * n + 1 := by
  induction t generalizing n with
  | nil =>
    obtain rfl : n = 0 := hn
    exact le_rfl
  | node c l x r ihl ihr =>
    obtain ⟨m, rfl, hl, hr⟩ := hn
    obtain ⟨hcolor, hlr, hrr⟩ := hrr
    have hle := ihl hl hlr
    have hre := ihr hr hrr
    -- a red node has black children, which make up for its own height
    cases c with
    | RED =>
      obtain ⟨hlblack, hrblack⟩ := hcolor rfl
      rw [hlblack] at hle
      rw [hrblack] at hre
      simp only [height, color, Color.weight] at hle hre ⊢
      omega
    | BLACK =>
      simp only [height, color, Color.weight]
      omega

/-- A tree contains all nodes of the complete tree with its black height. -/
theorem HasBlackHeight.two_pow_le {t : ColorTree α} {n : ℕ} (hn : t.HasBlackHeight n) :
    2 ^ n ≤ t.toList.length + 1 := by
  induction t generalizing n with
  | nil =>
    obtain rfl : n = 0 := hn
    exact le_rfl
  | node c l x r ihl ihr =>
    obtain ⟨m, rfl, hl, hr⟩ := hn
    have hpow : 2 ^ (m + c.weight) ≤ 2 * 2 ^ m := by
      rw [← Nat.pow_succ']
      refine Nat.pow_le_pow_right Nat.two_pos ?_
      cases c <;> simp [Color.weight]
    have hle := ihl hl
    have hre := ihr hr
    simp only [toList, List.length_append, List.length_cons]
    omega

/-- A tree has at least as many nodes as levels. -/
theorem height_le_length (t : ColorTree α) : t.height ≤ t.toList.length := by
  induction t with
  | nil => exact le_rfl
  | node c l x r ihl ihr =>
    simp only [height, toList, List.length_append, List.length_cons]
    omega

end ColorTree

/-- The height of a balanced tree is logarithmic in the number of its labels. -/
theorem Balanced.height_le {t : ColorTree α} (h : Balanced t) :
    t.height ≤ 2 * Nat.log 2 (t.toList.length + 1) := by
  obtain ⟨hroot, hrr, n, hn⟩ := h
  have hheight := hn.height_le hrr
  rw [hroot, Color.weight] at hheight
  have hlog : n ≤ Nat.log 2 (t.toList.length + 1) :=
    Nat.le_log_of_pow_le Nat.one_lt_two hn.two_pow_le
  omega

end RedBlack

import CppLearn.RedBlackTree.Represents
import Mathlib.Order.Basic

/-!
# The searches of the red-black tree

`find` and the first loop of `insert` walk down the same path. `Descent` says what is known at a
position of that path: everything before the position has a smaller key and everything after it a
larger one.

That the keys increase strictly in symmetric order is `Ordered`. With it, `find` returns the node
with the key, if there is one (`find_spec`). The search of `insert` ends at the empty position for
the key, or finds that the key exists (`insertSearch_spec`).
-/

namespace CppLearn

open RedBlack BoundedLoop

variable {K V : Type} [LinearOrder K]

/-- In symmetric order the keys increase strictly. -/
def Ordered (T : ColorTree (Entry K V)) : Prop :=
  T.toList.Pairwise fun x y => x.key < y.key

/-- The search for `key` in `T` has come to the subtree `s` in the context `C`. -/
structure Descent (T : ColorTree (Entry K V)) (key : K) (C : Context (Entry K V))
    (s : ColorTree (Entry K V)) : Prop where
  /-- The position is one of `T`. -/
  position : T = plug C s
  /-- Entries before the position have smaller keys. -/
  lower : ∀ x ∈ C.before, x.key < key
  /-- Entries after the position have larger keys. -/
  upper : ∀ x ∈ C.after, key < x.key

variable {t : RBTree K V} {T a b s : ColorTree (Entry K V)} {E : List Ptr} {n₀ : Node K V} {key : K}
  {C : Context (Entry K V)} {c : Color} {x : Entry K V}

/-- The subtree at a position of an ordered tree, with its root compared to both sides. -/
theorem Ordered.node (ho : Ordered (plug C (.node c a x b))) :
    (∀ y ∈ a.toList, y.key < x.key) ∧ ∀ y ∈ b.toList, x.key < y.key := by
  have hsub : (ColorTree.node c a x b).toList.Sublist (plug C (.node c a x b)).toList := by
    rw [toList_plug]
    exact (List.sublist_append_right _ _).trans (List.sublist_append_left _ _)
  have hnode : (a.toList ++ x :: b.toList).Pairwise fun x y => x.key < y.key := ho.sublist hsub
  obtain ⟨-, hxb, hax⟩ := List.pairwise_append.1 hnode
  exact ⟨fun y hy => hax y hy x (List.mem_cons_self ..), (List.pairwise_cons.1 hxb).1⟩

namespace Descent

theorem start (T : ColorTree (Entry K V)) (key : K) : Descent T key [] T :=
  ⟨rfl, by simp [Context.before], by simp [Context.after]⟩

/-- Go on to the left. -/
theorem left (h : Descent T key C (.node c a x b)) (ho : Ordered T) (hlt : key < x.key) :
    Descent T key (⟨.left, c, x, b⟩ :: C) a := by
  rw [h.position] at ho
  refine ⟨h.position, h.lower, fun y hy => ?_⟩
  simp only [Context.after, List.cons_append, List.mem_cons, List.mem_append] at hy
  rcases hy with rfl | hy | hy
  · exact hlt
  · exact hlt.trans (ho.node.2 y hy)
  · exact h.upper y hy

/-- Go on to the right. -/
theorem right (h : Descent T key C (.node c a x b)) (ho : Ordered T) (hlt : x.key < key) :
    Descent T key (⟨.right, c, x, a⟩ :: C) b := by
  rw [h.position] at ho
  refine ⟨h.position, fun y hy => ?_, h.upper⟩
  simp only [Context.before, List.append_assoc, List.mem_append, List.mem_singleton] at hy
  rcases hy with hy | hy | rfl
  · exact h.lower y hy
  · exact (ho.node.1 y hy).trans hlt
  · exact hlt

/-- At an empty position the key is known to be absent. -/
theorem absent (h : Descent T key C .nil) : ∀ x ∈ T.toList, x.key ≠ key := by
  intro x hx
  rw [h.position, toList_plug, ColorTree.toList_nil, List.append_nil, List.mem_append] at hx
  rcases hx with hx | hx
  · exact (h.lower x hx).ne
  · exact (h.upper x hx).ne'

end Descent

omit [LinearOrder K] in
/-- A subtree of a represented tree is empty when its pointer is `null_node_`. -/
theorem Represents.ptr_eq_nullNode_iff (h : Represents t (plug C s) E n₀) :
    ptr s = nullNode ↔ s = .nil := by
  constructor
  · intro hp
    by_contra hne
    have hmem := ptr_mem hne
    rw [hp] at hmem
    exact (List.nodup_cons.1 h.nodup_plug).1 (List.mem_append_left _ hmem)
  · rintro rfl
    rfl

/-- What the loops read at a position that is not empty. -/
theorem Descent.read (hd : Descent T key C (.node c a x b)) (h : Represents t T E n₀) :
    x.addr ≠ nullNode ∧
      t.read x.addr = .ok (cell .left c (ptr a) x (ptr b) (parentPtr C)) := by
  have hs : Represents t (plug C (.nodeAt .left c a x b)) E n₀ := hd.position ▸ h
  have hne := mt hs.ptr_eq_nullNode_iff.1 (ColorTree.nodeAt_ne_nil _ _ _ _ _)
  rw [ptr_nodeAt] at hne
  exact ⟨hne, RBTree.read_eq hs.heap_focus⟩

/-- `find` returns the node that has the key. -/
theorem find_spec (h : Represents t T E n₀) (ho : Ordered T) (key : K) :
    ∃ r, t.find key = .ok r ∧
      ((r = none ∧ ∀ x ∈ T.toList, x.key ≠ key) ∨
        ∃ C c a x b, r = some x.addr ∧ T = plug C (.node c a x b) ∧ x.key = key) := by
  -- the position of the descent, and the number of nodes below it
  refine iterate_spec
    (I := fun n p => ∃ C s, p = ptr s ∧ n = s.toList.length ∧ Descent T key C s)
    ?_ ⟨[], T, h.root, rfl, Descent.start T key⟩ h.length_lt_fuel
  rintro n p ⟨C, s, rfl, rfl, hd⟩
  cases s with
  | nil => exact .inl ⟨none, by simp [RBTree.findStep], .inl ⟨rfl, hd.absent⟩⟩
  | node c a x b =>
    obtain ⟨hne, hx⟩ := hd.read h
    rw [ptr, RBTree.findStep, if_neg hne]
    simp only [bind, Except.bind, hx, cell_key]
    -- the three results of the comparison
    rcases lt_trichotomy x.key key with hlt | heq | hgt
    · refine .inr ⟨ptr b, b.toList.length, ?_, ?_, _, b, rfl, rfl, hd.right ho hlt⟩
      · rw [if_neg hlt.ne, if_pos hlt]
        rfl
      · simp [ColorTree.toList]; omega
    · refine .inl ⟨some x.addr, by rw [if_pos heq], .inr ⟨C, c, a, x, b, rfl, hd.position, heq⟩⟩
    · refine .inr ⟨ptr a, a.toList.length, ?_, ?_, _, a, rfl, rfl, hd.left ho hgt⟩
      · rw [if_neg hgt.ne', if_neg hgt.not_gt]
        rfl
      · simp [ColorTree.toList]

/-- The search of `insert` ends below the node that becomes the parent of the new one. -/
theorem insertSearch_spec (h : Represents t T E n₀) (ho : Ordered T) (key : K) :
    ∃ r, t.insertSearch key = .ok r ∧
      ((r = none ∧ ∃ x ∈ T.toList, x.key = key) ∨
        ∃ C, r = some (parentPtr C) ∧ Descent T key C .nil) := by
  -- as in `find`, with the node above the position
  refine iterate_spec
    (I := fun n p => ∃ C s, p = (ptr s, parentPtr C) ∧ n = s.toList.length ∧ Descent T key C s)
    ?_ ⟨[], T, by rw [h.root]; rfl, rfl, Descent.start T key⟩ h.length_lt_fuel
  rintro n p ⟨C, s, rfl, rfl, hd⟩
  cases s with
  | nil => exact .inl ⟨some (parentPtr C), by simp [RBTree.insertSearchStep], .inr ⟨C, rfl, hd⟩⟩
  | node c a x b =>
    obtain ⟨hne, hx⟩ := hd.read h
    rw [ptr, RBTree.insertSearchStep, if_neg hne]
    simp only [bind, Except.bind, hx, cell_key]
    rcases lt_trichotomy key x.key with hlt | heq | hgt
    · refine .inr ⟨(ptr a, x.addr), a.toList.length, ?_, ?_, _, a, rfl, rfl, hd.left ho hlt⟩
      · rw [if_pos hlt]
        rfl
      · simp [ColorTree.toList]
    · refine .inl ⟨none, ?_, .inl ⟨rfl, x, ?_, heq.symm⟩⟩
      · rw [if_neg heq.not_lt, if_neg heq.not_gt]
      · rw [hd.position, toList_plug]
        simp [ColorTree.toList]
    · refine .inr ⟨(ptr b, x.addr), b.toList.length, ?_, ?_, _, b, rfl, rfl, hd.right ho hgt⟩
      · rw [if_neg hgt.not_gt, if_pos hgt]
        rfl
      · simp [ColorTree.toList]; omega

end CppLearn

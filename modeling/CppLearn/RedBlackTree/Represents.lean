import CppLearn.RedBlackTree.Defs
import Mathlib.Data.List.Nodup
import Mathlib.Data.List.Perm.Subperm
import Mathlib.Tactic.SplitIfs

/-!
# Heaps that represent a tree

`Represents t T E n₀` says that the pointers of the state `t` form exactly the tree `T`, whose
labels carry the addresses of the nodes: child and parent pointers, colours, keys and values are
those of `T`, the shared leaf is the cell `n₀`, and the only other cells are those in `E`, which
hang nowhere. The pointer operations are then steps on trees: painting a node, rotating it,
replacing one subtree by another.

## Main definitions

* `Entry`, `ptr`, `Stored` and `Represents`.

## Main results

* `Represents.heap_focus`: the cell of the node in the hole of a context;
* `Represents.setColor`, `Represents.rotate`: the effect of recolouring and rotating a node in
  any context.
-/

namespace CppLearn

open RedBlack BoundedLoop

variable {K V : Type}

/-- The label of a tree node: its address, key and value. -/
structure Entry (K V : Type) where
  addr : Ptr
  key : K
  value : V

/-- The pointer to the root of a tree. -/
def ptr : ColorTree (Entry K V) → Ptr
  | .nil => nullNode
  | .node _ _ x _ => x.addr

/-- The addresses of a list of entries. -/
def addrs (l : List (Entry K V)) : List Ptr := l.map Entry.addr

@[simp]
theorem addrs_nil : addrs ([] : List (Entry K V)) = [] := rfl

@[simp]
theorem addrs_cons (x : Entry K V) (l : List (Entry K V)) :
    addrs (x :: l) = x.addr :: addrs l := rfl

@[simp]
theorem addrs_append (l l' : List (Entry K V)) : addrs (l ++ l') = addrs l ++ addrs l' :=
  List.map_append

/-- The pointer to the node above the hole of a context. -/
def parentPtr : Context (Entry K V) → Ptr
  | [] => nullNode
  | f :: _ => f.label.addr

/-- The cell of a node with child `p` on side `d`, child `q` on the other side and parent
`up`. -/
def cell (d : Side) (c : Color) (p : Ptr) (x : Entry K V) (q up : Ptr) : Node K V :=
  match d with
  | .left => ⟨x.key, x.value, c, p, q, up⟩
  | .right => ⟨x.key, x.value, c, q, p, up⟩

@[simp]
theorem ptr_nil : ptr (.nil : ColorTree (Entry K V)) = nullNode := rfl

/-- The pointer to a tree is the address of its root, whatever the colour. -/
@[simp]
theorem ptr_nodeAt (d : Side) (c : Color) (a : ColorTree (Entry K V)) (x : Entry K V)
    (b : ColorTree (Entry K V)) : ptr (.nodeAt d c a x b) = x.addr := by cases d <;> rfl

@[simp]
theorem ptr_paint (c : Color) (t : ColorTree (Entry K V)) : ptr (t.paint c) = ptr t := by
  cases t <;> rfl

@[simp]
theorem ptr_fill (f : Frame (Entry K V)) (t : ColorTree (Entry K V)) :
    ptr (f.fill t) = f.label.addr := ptr_nodeAt ..

@[simp]
theorem parentPtr_nil : parentPtr ([] : Context (Entry K V)) = nullNode := rfl

/-- The parent of a subtree is in the innermost frame. -/
@[simp]
theorem parentPtr_cons (f : Frame (Entry K V)) (C : Context (Entry K V)) :
    parentPtr (f :: C) = f.label.addr := rfl

/-- The root of a plugged context that is not just a hole does not depend on what fills the
hole. -/
theorem ptr_plug_cons (f : Frame (Entry K V)) (C : Context (Entry K V))
    (t t' : ColorTree (Entry K V)) : ptr (plug (f :: C) t) = ptr (plug (f :: C) t') := by
  induction C generalizing f t t' with
  | nil => simp [plug]
  | cons g C ih => exact ih g _ _

/-- The root of a plugged context depends on the root of what fills the hole only. -/
theorem ptr_plug_congr (C : Context (Entry K V)) {t t' : ColorTree (Entry K V)}
    (h : ptr t = ptr t') :
    ptr (plug C t) = ptr (plug C t') := by
  cases C with
  | nil => exact h
  | cons f C => exact ptr_plug_cons f C t t'

/-- The pointer to a nonempty tree is the address of one of its entries. -/
theorem ptr_mem {t : ColorTree (Entry K V)} (h : t ≠ .nil) : ptr t ∈ addrs t.toList := by
  cases t with
  | nil => exact absurd rfl h
  | node c l x r => simp [ptr, ColorTree.toList]

section Cell

variable (d : Side) (c : Color) (p : Ptr) (x : Entry K V) (q up : Ptr)

@[simp]
theorem cell_color : (cell d c p x q up).color = c := by cases d <;> rfl

@[simp]
theorem cell_parent : (cell d c p x q up).parent = up := by cases d <;> rfl

@[simp]
theorem cell_key : (cell d c p x q up).key = x.key := by cases d <;> rfl

@[simp]
theorem cell_value : (cell d c p x q up).value = x.value := by cases d <;> rfl

/-- The children of a node, seen from one side. -/
@[simp]
theorem cell_child : (cell d c p x q up).child d = p := by cases d <;> rfl

@[simp]
theorem cell_child_flip : (cell d c p x q up).child d.flip = q := by cases d <;> rfl

/-- Assignments to one field leave the others. -/
@[simp]
theorem cell_setColor (c' : Color) :
    (cell d c p x q up).setColor c' = cell d c' p x q up := by cases d <;> rfl

@[simp]
theorem cell_setParent (up' : Ptr) :
    (cell d c p x q up).setParent up' = cell d c p x q up' := by cases d <;> rfl

@[simp]
theorem cell_setChild (p' : Ptr) :
    (cell d c p x q up).setChild d p' = cell d c p' x q up := by cases d <;> rfl

@[simp]
theorem cell_setChild_flip (q' : Ptr) :
    (cell d c p x q up).setChild d.flip q' = cell d c p x q' up := by cases d <;> rfl

/-- The test `p == node->left` tells on which side of the node the child `p` is. -/
theorem eq_cell_left_iff (h : q ≠ p) : p = (cell d c p x q up).left ↔ d = .left := by
  cases d
  · simp [cell]
  · simpa [cell] using Ne.symm h

/-- The test for the child on side `e` tells on which side of the node the child `p` is. -/
theorem eq_cell_child_iff (e : Side) (h : q ≠ p) : p = (cell d c p x q up).child e ↔ d = e := by
  cases d <;> cases e <;> simp [cell, Node.child, Ne.symm h]

end Cell

/-- The cells of a tree whose root has the parent pointer `up`. -/
def Stored (h : Ptr → Option (Node K V)) : Ptr → ColorTree (Entry K V) → Prop
  | _, .nil => True
  | up, .node c l x r =>
    h x.addr = some (cell .left c (ptr l) x (ptr r) up) ∧ Stored h x.addr l ∧ Stored h x.addr r

/-- The cells of a context with the pointer `p` in its hole. -/
def StoredContext (h : Ptr → Option (Node K V)) : Ptr → Context (Entry K V) → Prop
  | _, [] => True
  | p, f :: C =>
    h f.label.addr = some (cell f.side f.color p f.label (ptr f.sibling) (parentPtr C)) ∧
      Stored h f.label.addr f.sibling ∧ StoredContext h f.label.addr C

section Stored

variable {h h' : Ptr → Option (Node K V)}

/-- A tree is stored if its root is, with the pointers to the subtrees, and if they are. -/
theorem stored_nodeAt (up : Ptr) (d : Side) (c : Color) (a : ColorTree (Entry K V)) (x : Entry K V)
    (b : ColorTree (Entry K V)) :
    Stored h up (.nodeAt d c a x b) ↔
      h x.addr = some (cell d c (ptr a) x (ptr b) up) ∧ Stored h x.addr a ∧ Stored h x.addr b := by
  cases d
  · exact Iff.rfl
  · simp only [ColorTree.nodeAt, Stored]
    exact and_congr_right fun _ => and_comm

/-- A tree is stored if a subtree and what surrounds it are. -/
theorem stored_plug (C : Context (Entry K V)) (t : ColorTree (Entry K V)) :
    Stored h nullNode (plug C t) ↔ Stored h (parentPtr C) t ∧ StoredContext h (ptr t) C := by
  induction C generalizing t with
  | nil => simp [StoredContext]
  | cons f C ih =>
    rw [plug_cons, ih, ptr_fill, Frame.fill, stored_nodeAt]
    simp only [StoredContext, parentPtr_cons]
    tauto

/-- Cells of other nodes do not matter. -/
theorem Stored.congr {up : Ptr} {t : ColorTree (Entry K V)} (hs : Stored h up t)
    (heq : ∀ p ∈ addrs t.toList, h' p = h p) : Stored h' up t := by
  induction t generalizing up with
  | nil => trivial
  | node c l x r ihl ihr =>
    obtain ⟨hx, hl, hr⟩ := hs
    simp only [ColorTree.toList, addrs_append, addrs_cons, List.mem_append, List.mem_cons] at heq
    exact ⟨(heq _ (.inr (.inl rfl))).trans hx, ihl hl fun p hp => heq p (.inl hp),
      ihr hr fun p hp => heq p (.inr (.inr hp))⟩

/-- A change of the parent pointer of the root. -/
theorem Stored.reparent {up up' : Ptr} {t : ColorTree (Entry K V)} (hs : Stored h up t)
    (hnd : (addrs t.toList).Nodup)
    (hroot : t ≠ .nil → h' (ptr t) = (h (ptr t)).map (·.setParent up'))
    (heq : ∀ p ∈ addrs t.toList, p ≠ ptr t → h' p = h p) : Stored h' up' t := by
  cases t with
  | nil => trivial
  | node c l x r =>
    obtain ⟨hx, hl, hr⟩ := hs
    simp only [ColorTree.toList, addrs_append, addrs_cons, List.mem_append, List.mem_cons,
      ptr] at heq hroot hnd
    obtain ⟨-, hxr, hdisj⟩ := List.nodup_append.1 hnd
    -- only the cell of the root changes
    refine ⟨?_, hl.congr fun p hp => heq p (.inl hp) ?_, hr.congr fun p hp =>
      heq p (.inr (.inr hp)) ?_⟩
    · rw [hroot (by simp), hx]
      simp
    · exact fun e => hdisj p hp _ (List.mem_cons_self ..) e
    · rintro rfl
      exact (List.nodup_cons.1 hxr).1 hp

/-- Only the cells of the context matter. -/
theorem StoredContext.congr {p : Ptr} {C : Context (Entry K V)} (hs : StoredContext h p C)
    (heq : ∀ q ∈ addrs C.labels, h' q = h q) : StoredContext h' p C := by
  induction C generalizing p with
  | nil => trivial
  | cons f C ih =>
    obtain ⟨hf, hsib, hC⟩ := hs
    simp only [Context.labels, addrs_cons, addrs_append, List.mem_cons, List.mem_append] at heq
    exact ⟨(heq _ (.inl rfl)).trans hf, hsib.congr fun q hq => heq q (.inr (.inl hq)),
      ih hC fun q hq => heq q (.inr (.inr hq))⟩

end Stored

/-- The pointers of `t` form the tree `T`. The cell of `null_node_` is `n₀`, and the cells in `E`
belong to no tree. -/
structure Represents (t : RBTree K V) (T : ColorTree (Entry K V)) (E : List Ptr)
    (n₀ : Node K V) : Prop where
  /-- `root_` points to the root. -/
  root : t.root = ptr T
  /-- Every node of the tree has its cell. -/
  stored : Stored t.heap nullNode T
  /-- Different nodes have different addresses. -/
  nodup : (nullNode :: (E ++ addrs T.toList)).Nodup
  /-- The cell of `null_node_`. -/
  sentinel : t.heap nullNode = some n₀
  /-- `null_node_` is black. -/
  black : n₀.color = .BLACK
  /-- There are no other cells. -/
  domain : ∀ p, (t.heap p).isSome ↔ p ∈ nullNode :: (E ++ addrs T.toList)
  /-- `new` returns an unused address. -/
  fresh : ∀ p, (t.heap p).isSome → p < t.next

/-! ## Writing to cells -/

/-- Assign the cell at `p`. -/
def RBTree.write (t : RBTree K V) (p : Ptr) (n : Node K V) : RBTree K V :=
  { t with heap := Function.update t.heap p (some n) }

section Write

variable {t t' t'' : RBTree K V} {p q : Ptr} {n : Node K V} {L L' : List Ptr}

@[simp]
theorem RBTree.write_heap_self : (t.write p n).heap p = some n := by
  simp [RBTree.write]

/-- A write changes one cell. -/
theorem RBTree.write_heap_of_ne (h : q ≠ p) : (t.write p n).heap q = t.heap q := by
  simp [RBTree.write, h]

@[simp]
theorem RBTree.write_root : (t.write p n).root = t.root := rfl

@[simp]
theorem RBTree.write_next : (t.write p n).next = t.next := rfl

/-- A pointer to a cell can be read, -/
theorem RBTree.read_eq (h : t.heap p = some n) : t.read p = .ok n := by
  simp only [RBTree.read, h]

/-- and the cell can be changed. -/
theorem RBTree.modify_eq (h : t.heap p = some n) (f : Node K V → Node K V) :
    t.modify p f = .ok (t.write p (f n)) := by
  simp only [RBTree.modify, h, RBTree.write]

/-- `t'` has the same cells as `t`, with new contents at most at the addresses in `L`. -/
structure Changes (t t' : RBTree K V) (L : List Ptr) : Prop where
  /-- Other cells are unchanged. -/
  keeps : ∀ q ∉ L, t'.heap q = t.heap q
  /-- No cell is created or deleted. -/
  cells : ∀ q, (t'.heap q).isSome = (t.heap q).isSome
  /-- Allocation is unaffected. -/
  next : t'.next = t.next

/-- Steps that change a list of cells at most: none, -/
theorem Changes.refl (t : RBTree K V) : Changes t t [] := ⟨fun _ _ => rfl, fun _ => rfl, rfl⟩

/-- one after the other, -/
theorem Changes.trans (h : Changes t t' L) (h' : Changes t' t'' L') : Changes t t'' (L ++ L') where
  keeps q hq := by
    rw [List.mem_append, not_or] at hq
    rw [h'.keeps q hq.2, h.keeps q hq.1]
  cells q := by rw [h'.cells, h.cells]
  next := by rw [h'.next, h.next]

/-- a write, -/
theorem Changes.write (h : t.heap p = some n) (n' : Node K V) : Changes t (t.write p n') [p] where
  keeps q hq := RBTree.write_heap_of_ne (by simpa using hq)
  cells q := by
    by_cases hq : q = p
    · subst hq; simp [h]
    · rw [RBTree.write_heap_of_ne hq]
  next := rfl

/-- and any more cells. -/
theorem Changes.mono (h : Changes t t' L) (hL : ∀ q ∈ L, q ∈ L') : Changes t t' L' :=
  ⟨fun q hq => h.keeps q fun hm => hq (hL q hm), h.cells, h.next⟩

/-- The step `if (p != null_node_) p->parent = up` on the root of a stored subtree. -/
theorem reparent_spec {up : Ptr} (up' : Ptr) {b : ColorTree (Entry K V)} (hb : Stored t.heap up b)
    (hnd : (nullNode :: addrs b.toList).Nodup) :
    ∃ t', (if ptr b ≠ nullNode then t.modify (ptr b) (·.setParent up') else .ok t) = .ok t' ∧
      Stored t'.heap up' b ∧ t'.root = t.root ∧ Changes t t' (addrs b.toList) := by
  obtain ⟨hnull, hnd⟩ := List.nodup_cons.1 hnd
  by_cases hnil : b = .nil
  · subst hnil
    exact ⟨t, by simp, trivial, rfl, Changes.refl t⟩
  · have hmem := ptr_mem hnil
    have hne : ptr b ≠ nullNode := fun e => hnull (e ▸ hmem)
    obtain ⟨a, x, e, hbe⟩ := ColorTree.exists_nodeAt .left hnil
    have hcell : t.heap (ptr b) = some (cell .left b.color (ptr a) x (ptr e) up) := by
      rw [hbe, stored_nodeAt] at hb
      rw [hbe, ptr_nodeAt, ColorTree.color_nodeAt]
      exact hb.1
    refine ⟨t.write (ptr b) (cell .left b.color (ptr a) x (ptr e) up'),
      by rw [if_pos hne, RBTree.modify_eq hcell, cell_setParent], ?_, rfl,
      (Changes.write hcell _).mono (by simpa using hmem)⟩
    refine hb.reparent hnd (fun _ => by simp [hcell]) fun p _ hp => ?_
    exact RBTree.write_heap_of_ne hp

/-- Hanging `new` in the place of `old` changes the pointer in the hole of the context. -/
theorem relink_spec (new : Ptr) {C : Context (Entry K V)} {old : Ptr}
    (hC : StoredContext t.heap old C) (hnd : (nullNode :: old :: addrs C.labels).Nodup) :
    ∃ t', t.relink (parentPtr C) old new = .ok t' ∧ StoredContext t'.heap new C ∧
      t'.root = (if C = [] then new else t.root) ∧ Changes t t' (addrs C.labels) := by
  cases C with
  | nil =>
    exact ⟨{ t with root := new }, by simp [RBTree.relink], trivial, rfl,
      ⟨fun _ _ => rfl, fun _ => rfl, rfl⟩⟩
  | cons f C =>
    obtain ⟨hf, hsib, hup⟩ := hC
    simp only [Context.labels, addrs_cons, addrs_append, List.nodup_cons, List.mem_cons,
      List.mem_append, not_or] at hnd
    obtain ⟨⟨hnold, hnf, hnsib, hnC⟩, ⟨hof, hosib, hoC⟩, ⟨hfsib, hfC⟩, hnd⟩ := hnd
    have hold : ptr f.sibling ≠ old := by
      by_cases hnil : f.sibling = .nil
      · rw [hnil]; exact hnold
      · exact fun e => hosib (e ▸ ptr_mem hnil)
    let n' := cell f.side f.color new f.label (ptr f.sibling) (parentPtr C)
    have hrun : t.relink (parentPtr (f :: C)) old new = .ok (t.write f.label.addr n') := by
      have hne : f.label.addr ≠ nullNode := Ne.symm hnf
      simp only [RBTree.relink, parentPtr_cons, if_neg hne, RBTree.read_eq hf, bind, Except.bind,
        RBTree.modify_eq hf]
      -- which child pointer is overwritten is read off the node itself
      cases hside : f.side with
      | left =>
        have : (cell .left f.color old f.label (ptr f.sibling) (parentPtr C)).left = old := rfl
        simp only [this, if_true, n', hside]
        rfl
      | right =>
        have : (cell .right f.color old f.label (ptr f.sibling) (parentPtr C)).left =
          ptr f.sibling := rfl
        simp only [this, if_neg (Ne.symm hold), n', hside]
        rfl
    refine ⟨_, hrun, ⟨RBTree.write_heap_self, ?_, ?_⟩, by simp, (Changes.write hf _).mono ?_⟩
    · exact hsib.congr fun q hq => RBTree.write_heap_of_ne (ne_of_mem_of_not_mem hq hfsib)
    · exact hup.congr fun q hq => RBTree.write_heap_of_ne (ne_of_mem_of_not_mem hq hfC)
    · simp [Context.labels]

end Write

/-! ## Operations on represented trees -/

/-- Rearranged entries have rearranged addresses. -/
theorem addrs_perm {l l' : List (Entry K V)} (h : l.Perm l') : (addrs l).Perm (addrs l') :=
  h.map _

namespace Represents

variable {t t' : RBTree K V} {T T' : ColorTree (Entry K V)} {E L : List Ptr} {n₀ : Node K V}
  {C : Context (Entry K V)} {d : Side} {c : Color} {a b : ColorTree (Entry K V)} {x : Entry K V}

/-- The addresses around a position: those of the focused subtree and those of its context. -/
theorem nodup_plug (h : Represents t (plug C T) E n₀) :
    (nullNode :: (addrs T.toList ++ addrs C.labels)).Nodup := by
  have hsub : (nullNode :: addrs (plug C T).toList).Nodup :=
    h.nodup.sublist ((List.sublist_append_right E _).cons_cons nullNode)
  rw [← addrs_append]
  exact ((addrs_perm (toList_plug_perm C T)).cons nullNode).nodup_iff.1 hsub

/-- The addresses around a node: its own, those of its subtrees and those of its context. -/
theorem nodup_node (h : Represents t (plug C (.nodeAt d c a x b)) E n₀) :
    (nullNode :: x.addr :: (addrs a.toList ++ (addrs b.toList ++ addrs C.labels))).Nodup := by
  refine (List.Perm.nodup_iff ?_).1 h.nodup_plug
  refine List.Perm.cons _ ?_
  have := (addrs_perm (ColorTree.toList_nodeAt_perm d c a x b)).append_right (addrs C.labels)
  simpa using this

/-- The tree has fewer nodes than addresses that have been used. -/
theorem length_lt_next (h : Represents t (plug C T) E n₀) :
    (plug C T).toList.length < t.next := by
  -- the addresses in use are different numbers below `next`
  have hsub : nullNode :: addrs (plug C T).toList ⊆ List.range t.next := by
    intro p hp
    refine List.mem_range.2 (h.fresh p ((h.domain p).2 ?_))
    rcases List.mem_cons.1 hp with rfl | hp
    · exact List.mem_cons_self ..
    · exact List.mem_cons_of_mem _ (List.mem_append_right _ hp)
  have hnd : (nullNode :: addrs (plug C T).toList).Nodup :=
    h.nodup.sublist ((List.sublist_append_right E _).cons_cons nullNode)
  have := (hnd.subperm hsub).length_le
  simp only [List.length_cons, addrs, List.length_map, List.length_range] at this
  omega

/-- There are fewer frames above a subtree than addresses that have been given out. -/
theorem context_length_lt_next (h : Represents t (plug C T) E n₀) : C.length < t.next :=
  Nat.lt_of_le_of_lt (length_le_toList_plug C T) h.length_lt_next

/-- A loop that visits each node once has enough iterations. -/
theorem length_lt_fuel (h : Represents t T E n₀) : T.toList.length < t.fuel := by
  have hlen : T.toList.length < t.next := h.length_lt_next (C := [])
  rw [RBTree.fuel]
  omega

/-- A state with the same cells represents a tree with the same entries as soon as it stores
that tree. -/
theorem change (h : Represents t T E n₀) (hch : Changes t t' L) (hnull : nullNode ∉ L)
    (hroot : t'.root = ptr T') (hst : Stored t'.heap nullNode T') (hl : T'.toList = T.toList) :
    Represents t' T' E n₀ where
  root := hroot
  stored := hst
  nodup := by rw [hl]; exact h.nodup
  sentinel := by rw [hch.keeps _ hnull, h.sentinel]
  black := h.black
  domain p := by rw [hch.cells, hl]; exact h.domain p
  fresh p hp := by
    rw [hch.cells] at hp
    rw [hch.next]
    exact h.fresh p hp

/-- The cell of a node in the middle of the tree. -/
theorem heap_focus (h : Represents t (plug C (.nodeAt d c a x b)) E n₀) :
    t.heap x.addr = some (cell d c (ptr a) x (ptr b) (parentPtr C)) := by
  have := h.stored
  rw [stored_plug, stored_nodeAt] at this
  exact this.1.1

/-- The cell of the node above a position. -/
theorem heap_parent {f : Frame (Entry K V)} (h : Represents t (plug (f :: C) T) E n₀) :
    t.heap f.label.addr =
      some (cell f.side f.color (ptr T) f.label (ptr f.sibling) (parentPtr C)) :=
  heap_focus (C := C) (a := T) h

/-- The cell that the pointer to a subtree leads to has the colour of the subtree. -/
theorem heap_color (h : Represents t (plug C T) E n₀) :
    ∃ n, t.heap (ptr T) = some n ∧ n.color = T.color := by
  by_cases hT : T = .nil
  · subst hT
    exact ⟨n₀, h.sentinel, h.black⟩
  · obtain ⟨a, x, b, hT⟩ := ColorTree.exists_nodeAt .left hT
    rw [hT] at h ⊢
    rw [ptr_nodeAt, h.heap_focus]
    exact ⟨_, rfl, by simp⟩

/-- Assigning the colour of a node paints it. -/
theorem setColor (h : Represents t (plug C T) E n₀) (hT : T ≠ .nil) (c' : Color) :
    ∃ t', t.modify (ptr T) (·.setColor c') = .ok t' ∧ Represents t' (plug C (T.paint c')) E n₀ := by
  obtain ⟨a, x, b, hT⟩ := ColorTree.exists_nodeAt .left hT
  rw [hT] at h ⊢
  have hcell := h.heap_focus
  have hnd := h.nodup_node
  simp only [List.nodup_cons, List.mem_cons, List.mem_append, not_or] at hnd
  obtain ⟨⟨hnx, -⟩, ⟨hxa, hxb, hxC⟩, -⟩ := hnd
  rw [ptr_nodeAt, ColorTree.paint_nodeAt]
  refine ⟨t.write x.addr (cell .left c' (ptr a) x (ptr b) (parentPtr C)), ?_, ?_⟩
  · rw [RBTree.modify_eq hcell, cell_setColor]
  have hst := h.stored
  rw [stored_plug, stored_nodeAt, ptr_nodeAt] at hst
  obtain ⟨⟨-, ha, hb⟩, hC⟩ := hst
  refine h.change (Changes.write hcell _) (by simpa using hnx) ?_ ?_ ?_
  · rw [RBTree.write_root, h.root]
    exact ptr_plug_congr C (by simp)
  · -- the store changes the node at the focus, so that its subtrees and the rest are as before
    rw [stored_plug, stored_nodeAt, ptr_nodeAt]
    refine ⟨⟨RBTree.write_heap_self, ha.congr fun q hq => ?_, hb.congr fun q hq => ?_⟩,
      hC.congr fun q hq => ?_⟩
    · exact RBTree.write_heap_of_ne (ne_of_mem_of_not_mem hq hxa)
    · exact RBTree.write_heap_of_ne (ne_of_mem_of_not_mem hq hxb)
    · exact RBTree.write_heap_of_ne (ne_of_mem_of_not_mem hq hxC)
  · rw [toList_plug, toList_plug]
    rfl

/-- Recolouring the node above a position. -/
theorem setColor_parent {f : Frame (Entry K V)} (h : Represents t (plug (f :: C) T) E n₀)
    (c' : Color) :
    ∃ t', t.modify f.label.addr (·.setColor c') = .ok t' ∧
      Represents t' (plug ({ f with color := c' } :: C) T) E n₀ := by
  obtain ⟨t', hrun, h'⟩ := setColor (C := C) (T := f.fill T) h (f.fill_ne_nil T) c'
  rw [ptr_fill] at hrun
  rw [Frame.fill, ColorTree.paint_nodeAt] at h'
  exact ⟨t', hrun, h'⟩

/-- Recolouring the sibling of a position. -/
theorem setColor_sibling {f : Frame (Entry K V)} (h : Represents t (plug (f :: C) T) E n₀)
    (hs : f.sibling ≠ .nil) (c' : Color) :
    ∃ t', t.modify (ptr f.sibling) (·.setColor c') = .ok t' ∧
      Represents t' (plug ({ f with sibling := f.sibling.paint c' } :: C) T) E n₀ := by
  rw [plug_sibling] at h
  obtain ⟨t', hrun, h'⟩ := h.setColor hs c'
  rw [plug_sibling, Side.flip_flip] at h'
  exact ⟨t', hrun, h'⟩

/-- The colour of the sibling of a position. -/
theorem heap_color_sibling {f : Frame (Entry K V)} (h : Represents t (plug (f :: C) T) E n₀) :
    ∃ n, t.heap (ptr f.sibling) = some n ∧ n.color = f.sibling.color := by
  rw [plug_sibling] at h
  exact h.heap_color

/-- A subtree and its sibling have different roots, unless both are empty. -/
theorem ptr_sibling_ne {f : Frame (Entry K V)} (h : Represents t (plug (f :: C) T) E n₀)
    (hne : T ≠ .nil ∨ f.sibling ≠ .nil) : ptr f.sibling ≠ ptr T := by
  have hnd := nodup_node (C := C) (a := T) h
  simp only [List.nodup_cons, List.nodup_append, List.mem_cons, List.mem_append, not_or] at hnd
  obtain ⟨⟨-, hnT, hnS, -⟩, -, -, -, hdisj⟩ := hnd
  -- the root of an empty subtree is the sentinel, which is no node of the other
  by_cases hT : T = .nil
  · subst hT
    have hS := hne.resolve_left (by simp)
    exact ne_of_mem_of_not_mem (ptr_mem hS) hnS
  · by_cases hS : f.sibling = .nil
    · rw [hS]
      exact (ne_of_mem_of_not_mem (ptr_mem hT) hnT).symm
    · exact (hdisj _ (ptr_mem hT) _ (.inl (ptr_mem hS))).symm

/-- The addresses around a node and one of its children are different. -/
theorem nodup_node_child {c₁ c₂ : Color} {e : ColorTree (Entry K V)} {y : Entry K V}
    (h : Represents t (plug C (.nodeAt d c₁ a x (.nodeAt d c₂ b y e))) E n₀) :
    (nullNode :: x.addr :: y.addr ::
      (addrs a.toList ++ (addrs b.toList ++ (addrs e.toList ++ addrs C.labels)))).Nodup := by
  refine (List.Perm.nodup_iff ?_).1 h.nodup_node
  refine List.Perm.cons _ (List.Perm.cons _ ?_)
  have hp := (addrs_perm (ColorTree.toList_nodeAt_perm d c₂ b y e)).append_right (addrs C.labels)
  refine (hp.append_left (addrs a.toList)).trans ?_
  simp [List.perm_middle]

end Represents

/-! ## Rotations -/

/-- The cells around a node `x` and its child `y` while the links between them change: the two
nodes, the subtrees `a`, `b` and `e` below them, `b` with the parent `up`, and the context, with
the pointer `hole` to one of the two. -/
structure Pieces (t : RBTree K V) (x y : Entry K V) (a b e : ColorTree (Entry K V))
    (C : Context (Entry K V)) (nx ny : Node K V) (up hole : Ptr) : Prop where
  nodup : (nullNode :: x.addr :: y.addr ::
    (addrs a.toList ++ (addrs b.toList ++ (addrs e.toList ++ addrs C.labels)))).Nodup
  lower : t.heap x.addr = some nx
  upper : t.heap y.addr = some ny
  outer : Stored t.heap x.addr a
  inner : Stored t.heap up b
  far : Stored t.heap y.addr e
  context : StoredContext t.heap hole C

namespace Pieces

variable {t : RBTree K V} {x y : Entry K V} {a b e : ColorTree (Entry K V)}
  {C : Context (Entry K V)} {nx ny : Node K V} {up hole : Ptr}

/-- The addresses that are not in a part of the pieces. -/
theorem disjoint (h : Pieces t x y a b e C nx ny up hole) :
    (x.addr ≠ y.addr ∧ x.addr ∉ addrs a.toList ∧ x.addr ∉ addrs b.toList ∧
      x.addr ∉ addrs e.toList ∧ x.addr ∉ addrs C.labels) ∧
    (y.addr ∉ addrs a.toList ∧ y.addr ∉ addrs b.toList ∧ y.addr ∉ addrs e.toList ∧
      y.addr ∉ addrs C.labels) ∧
    (∀ q ∈ addrs b.toList, q ∉ addrs a.toList ∧ q ∉ addrs e.toList ∧ q ∉ addrs C.labels) ∧
    ∀ q ∈ addrs C.labels, q ∉ addrs a.toList ∧ q ∉ addrs e.toList := by
  have hnd := h.nodup
  simp only [List.nodup_cons, List.nodup_append, List.mem_cons, List.mem_append, not_or] at hnd
  obtain ⟨-, ⟨hxy, hxa, hxb, hxe, hxC⟩, ⟨hya, hyb, hye, hyC⟩, -, ⟨-, ⟨-, -, heC⟩, hbeC⟩, habeC⟩ :=
    hnd
  refine ⟨⟨hxy, hxa, hxb, hxe, hxC⟩, ⟨hya, hyb, hye, hyC⟩, fun q hq => ⟨fun hm => ?_, fun hm => ?_,
    fun hm => ?_⟩, fun q hq => ⟨fun hm => ?_, fun hm => ?_⟩⟩
  · exact habeC q hm q (.inl hq) rfl
  · exact hbeC q hq q (.inl hm) rfl
  · exact hbeC q hq q (.inr hm) rfl
  · exact habeC q hm q (.inr (.inr hq)) rfl
  · exact heC q hm q hq rfl

/-- The cell of `x` is assigned. -/
theorem writeLower (h : Pieces t x y a b e C nx ny up hole) (n : Node K V) :
    Pieces (t.write x.addr n) x y a b e C n ny up hole := by
  obtain ⟨⟨hxy, hxa, hxb, hxe, hxC⟩, -⟩ := h.disjoint
  have hkeep {L : List Ptr} (hL : x.addr ∉ L) : ∀ q ∈ L, (t.write x.addr n).heap q = t.heap q :=
    fun q hq => RBTree.write_heap_of_ne (ne_of_mem_of_not_mem hq hL)
  exact ⟨h.nodup, RBTree.write_heap_self, (RBTree.write_heap_of_ne hxy.symm).trans h.upper,
    h.outer.congr (hkeep hxa), h.inner.congr (hkeep hxb), h.far.congr (hkeep hxe),
    h.context.congr (hkeep hxC)⟩

/-- The cell of `y` is assigned. -/
theorem writeUpper (h : Pieces t x y a b e C nx ny up hole) (n : Node K V) :
    Pieces (t.write y.addr n) x y a b e C nx n up hole := by
  obtain ⟨⟨hxy, -⟩, ⟨hya, hyb, hye, hyC⟩, -⟩ := h.disjoint
  have hkeep {L : List Ptr} (hL : y.addr ∉ L) : ∀ q ∈ L, (t.write y.addr n).heap q = t.heap q :=
    fun q hq => RBTree.write_heap_of_ne (ne_of_mem_of_not_mem hq hL)
  exact ⟨h.nodup, (RBTree.write_heap_of_ne hxy).trans h.lower, RBTree.write_heap_self,
    h.outer.congr (hkeep hya), h.inner.congr (hkeep hyb), h.far.congr (hkeep hye),
    h.context.congr (hkeep hyC)⟩

/-- The inner subtree gets another parent, unless it is empty. -/
theorem reparent (h : Pieces t x y a b e C nx ny up hole) (up' : Ptr) :
    ∃ t', (if ptr b ≠ nullNode then t.modify (ptr b) (·.setParent up') else .ok t) = .ok t' ∧
      Pieces t' x y a b e C nx ny up' hole ∧ t'.root = t.root ∧
      Changes t t' (addrs b.toList) := by
  have hnd := h.nodup
  simp only [List.nodup_cons, List.nodup_append, List.mem_cons, List.mem_append, not_or] at hnd
  obtain ⟨⟨-, -, -, hnb, -⟩, -, -, -, ⟨hndb, -⟩, -⟩ := hnd
  obtain ⟨⟨-, -, hxb, -⟩, ⟨-, hyb, -⟩, hb, -⟩ := h.disjoint
  obtain ⟨t', hrun, hinner, hroot, hch⟩ :=
    reparent_spec up' h.inner (List.nodup_cons.2 ⟨hnb, hndb⟩)
  refine ⟨t', hrun, ⟨h.nodup, (hch.keeps _ hxb).trans h.lower, (hch.keeps _ hyb).trans h.upper,
    h.outer.congr fun q hq => hch.keeps q fun hm => (hb q hm).1 hq, hinner,
    h.far.congr fun q hq => hch.keeps q fun hm => (hb q hm).2.1 hq,
    h.context.congr fun q hq => hch.keeps q fun hm => (hb q hm).2.2 hq⟩, hroot, hch⟩

/-- The upper one of the two nodes is hung in the place of the lower one. -/
theorem relink (h : Pieces t x y a b e C nx ny up x.addr) :
    ∃ t', t.relink (parentPtr C) x.addr y.addr = .ok t' ∧
      Pieces t' x y a b e C nx ny up y.addr ∧
      t'.root = (if C = [] then y.addr else t.root) ∧ Changes t t' (addrs C.labels) := by
  have hnd := h.nodup
  simp only [List.nodup_cons, List.nodup_append, List.mem_cons, List.mem_append, not_or] at hnd
  obtain ⟨⟨hnx, -, -, -, -, hnC⟩, -, -, -, ⟨-, ⟨-, hndC, -⟩, -⟩, -⟩ := hnd
  obtain ⟨⟨-, -, -, -, hxC⟩, ⟨-, -, -, hyC⟩, hb, hC⟩ := h.disjoint
  obtain ⟨t', hrun, hcontext, hroot, hch⟩ := relink_spec y.addr h.context
    (List.nodup_cons.2 ⟨by simpa using ⟨hnx, hnC⟩, List.nodup_cons.2 ⟨hxC, hndC⟩⟩)
  refine ⟨t', hrun, ⟨h.nodup, (hch.keeps _ hxC).trans h.lower, (hch.keeps _ hyC).trans h.upper,
    h.outer.congr fun q hq => hch.keeps q fun hm => (hC q hm).1 hq,
    h.inner.congr fun q hq => hch.keeps q (hb q hq).2.2,
    h.far.congr fun q hq => hch.keeps q fun hm => (hC q hm).2 hq, hcontext⟩, hroot, hch⟩

end Pieces

namespace Represents

variable {t : RBTree K V} {E : List Ptr} {n₀ : Node K V} {C : Context (Entry K V)} {d : Side}
  {c₁ c₂ : Color} {a b e : ColorTree (Entry K V)} {x y : Entry K V}

/-- The pieces of a tree that is rotated. -/
theorem pieces (h : Represents t (plug C (.nodeAt d c₁ a x (.nodeAt d c₂ b y e))) E n₀) :
    Pieces t x y a b e C (cell d c₁ (ptr a) x y.addr (parentPtr C))
      (cell d c₂ (ptr b) y (ptr e) x.addr) y.addr x.addr := by
  have hst := h.stored
  simp only [stored_plug, stored_nodeAt, ptr_nodeAt] at hst
  obtain ⟨⟨hx, ha, hy, hb, he⟩, hC⟩ := hst
  exact ⟨h.nodup_node_child, hx, hy, ha, hb, he, hC⟩

/-- Rotating a node in any context rotates the tree. -/
theorem rotate (h : Represents t (plug C (.nodeAt d c₁ a x (.nodeAt d c₂ b y e))) E n₀) :
    ∃ t', t.rotate d x.addr = .ok t' ∧
      Represents t' (plug C (.nodeAt d c₂ (.nodeAt d c₁ a x b) y e)) E n₀ := by
  have h₀ := h.pieces
  -- step 1
  have h₁ := h₀.writeLower (cell d c₁ (ptr a) x (ptr b) (parentPtr C))
  obtain ⟨t₂, hrun₂, h₂, hroot₂, hch₂⟩ := h₁.reparent x.addr
  -- step 2
  have h₃ := h₂.writeUpper (cell d c₂ (ptr b) y (ptr e) (parentPtr C))
  obtain ⟨t₄, hrun₄, h₄, hroot₄, hch₄⟩ := h₃.relink
  -- step 3
  have h₅ := h₄.writeUpper (cell d c₂ x.addr y (ptr e) (parentPtr C))
  have h₆ := h₅.writeLower (cell d c₁ (ptr a) x (ptr b) y.addr)
  have hch := ((((Changes.write h₀.lower _).trans hch₂).trans (Changes.write h₂.upper _)).trans
    hch₄).trans ((Changes.write h₄.upper _).trans
      (Changes.write h₅.lower (cell d c₁ (ptr a) x (ptr b) y.addr)))
  refine ⟨_, ?_, h.change hch ?_ ?_ ?_ ?_⟩
  · simp only [RBTree.rotate, bind, Except.bind, RBTree.read_eq h₀.lower, cell_child_flip,
      RBTree.read_eq h₀.upper, cell_child, RBTree.modify_eq h₀.lower, cell_setChild_flip,
      RBTree.read_eq h₁.upper, hrun₂, RBTree.read_eq h₂.lower, cell_parent,
      RBTree.modify_eq h₂.upper, cell_setParent, RBTree.read_eq h₃.lower, hrun₄,
      RBTree.modify_eq h₄.upper, cell_setChild, RBTree.modify_eq h₅.lower]
  · have hnd := h.nodup_node_child
    simp only [List.nodup_cons, List.mem_cons, List.mem_append, not_or] at hnd
    obtain ⟨⟨hnx, hny, -, hnb, -, hnC⟩, -⟩ := hnd
    simp [hnx, hny, hnb, hnC]
  · rw [RBTree.write_root, RBTree.write_root, hroot₄]
    cases C with
    | nil => simp
    | cons f C =>
      rw [if_neg (by simp), RBTree.write_root, hroot₂, RBTree.write_root]
      exact h.root.trans (ptr_plug_cons ..)
  · simp only [stored_plug, stored_nodeAt, ptr_nodeAt]
    exact ⟨⟨h₆.upper, ⟨h₆.lower, h₆.outer, h₆.inner⟩, h₆.far⟩, h₆.context⟩
  · rw [toList_plug, toList_plug, ColorTree.toList_rotate]

end Represents

end CppLearn

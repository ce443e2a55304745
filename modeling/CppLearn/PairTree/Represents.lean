import CppLearn.Lib.SiblingForest
import CppLearn.PairTree.Defs

/-!
# Nodes that are linked as a forest

`Links h p up f` says that the nodes from `p` on are linked as the forest `f`, and that the father
of the first one is `up`. Linking two trees and taking a subtree out of its list are then operations
on forests, which touch the nodes of these forests only.

A tree in the order of a heap is `TreeAt`. The links depend on the nodes of the forest only
(`Links.congr`). A subtree is taken out by `Links.unlink`, and two trees are merged by
`TreeAt.merge`.
-/

namespace CppLearn.PairTree

open Forest

variable {T : Type} {h h' : PairNodes T} {p up : Option ℕ} {f : Forest ℕ} {x y : ℕ}

/-- The nodes from `p` on are linked as the forest `f`, and the father of the first one is `up`. -/
def Links (h : PairNodes T) : Option ℕ → Option ℕ → Forest ℕ → Prop
  | p, _, .nil => p = none
  | p, up, .node x c s => p = some x ∧ (h x).father = up ∧ Links h (h x).child (some x) c ∧
      Links h (h x).brother (some x) s

/-- The two versions of a node have the same pointers. -/
def SameLinks (n n' : PairNode T) : Prop :=
  n'.child = n.child ∧ n'.brother = n.brother ∧ n'.father = n.father

/-- Equal nodes have the same links. -/
theorem SameLinks.of_eq {n n' : PairNode T} (heq : n' = n) : SameLinks n n' := by
  subst heq
  exact ⟨rfl, rfl, rfl⟩

/-- The links depend on the pointers of the nodes in the forest only. -/
theorem Links.congr (hl : Links h p up f) (hsame : ∀ x ∈ f.labels, SameLinks (h x) (h' x)) :
    Links h' p up f := by
  induction f generalizing p up with
  | nil => exact hl
  | node x c s ihc ihs =>
    obtain ⟨rfl, hfather, hc, hs⟩ := hl
    simp only [labels_node, List.mem_cons, List.mem_append] at hsame
    obtain ⟨hchild, hbrother, hfather'⟩ := hsame x (.inl rfl)
    refine ⟨rfl, hfather'.trans hfather, ?_, ?_⟩
    · rw [hchild]
      exact ihc hc fun y hy => hsame y (.inr (.inl hy))
    · rw [hbrother]
      exact ihs hs fun y hy => hsame y (.inr (.inr hy))

/-- The first node is a node of the forest. -/
theorem Links.mem_labels (hl : Links h p up f) (hp : p = some x) : x ∈ f.labels := by
  cases f with
  | nil =>
    rw [hp] at hl
    cases hl
  | node y c s =>
    obtain ⟨hy, -⟩ := hl
    rw [hp] at hy
    obtain rfl := Option.some.inj hy
    simp

/-- Another father for the first node. -/
theorem Links.setFatherOf (hl : Links h p up f) (hnodup : f.labels.Nodup) (up' : Option ℕ) :
    Links (h.setFatherOf p up') p up' f := by
  cases f with
  | nil => exact hl
  | node x c s =>
    obtain ⟨rfl, -, hc, hs⟩ := hl
    simp only [labels_node, List.nodup_cons, List.mem_append, not_or] at hnodup
    have hother : ∀ y, y ≠ x → SameLinks (h y) (h.setFather x up' y) := by
      intro y hy
      exact .of_eq (Function.update_of_ne hy ..)
    have hself : h.setFather x up' x = { h x with father := up' } := Function.update_self ..
    refine ⟨rfl, ?_, ?_, ?_⟩
    · simp [PairNodes.setFatherOf, hself]
    · simp only [PairNodes.setFatherOf, hself]
      exact hc.congr fun y hy => hother y fun heq => hnodup.1.1 (heq ▸ hy)
    · simp only [PairNodes.setFatherOf, hself]
      exact hs.congr fun y hy => hother y fun heq => hnodup.1.2 (heq ▸ hy)

/-- Only the node that is pointed to gets a new father. -/
theorem setFatherOf_of_ne (hne : p ≠ some y) : h.setFatherOf p up y = h y := by
  cases p with
  | none => rfl
  | some x => exact Function.update_of_ne (fun heq => hne (congrArg some heq.symm)) ..

/-- The new node depends on the old one only. -/
theorem setFatherOf_congr (hy : h' y = h y) : h'.setFatherOf p up y = h.setFatherOf p up y := by
  cases p with
  | none => exact hy
  | some x =>
    by_cases hyx : y = x
    · subst hyx
      simp [PairNodes.setFatherOf, PairNodes.setFather, hy]
    · simp [PairNodes.setFatherOf, PairNodes.setFather, hyx, hy]

/-! ## Taking out a subtree -/

section Unlink

variable {node father : ℕ}

/-- The first thing that `unlink` does: the link at `father` leads past `node`. -/
def bypass (h : PairNodes T) (node father : ℕ) : PairNodes T :=
  if (h father).child = some node then h.setChild father (h node).brother
  else h.setBrother father (h node).brother

/-- Only the father is changed where a node is bypassed. -/
theorem bypass_of_ne (hy : y ≠ father) : bypass h node father y = h y := by
  unfold bypass
  split_ifs <;> exact Function.update_of_ne hy ..

/-- The steps of `_unlink` one after the other. -/
theorem unlink_eq (hne : father ≠ node) :
    unlink h node father = (((bypass h node father).setFatherOf (h node).brother
      (h node).father).setBrother node none).setFather node none := by
  have hnode : bypass h node father node = h node := bypass_of_ne hne.symm
  rw [← hnode]
  rfl

/-- What they do to the other nodes, -/
theorem unlink_of_ne (hfather : y ≠ father) (hnode : y ≠ node) (hne : father ≠ node) :
    unlink h node father y = h.setFatherOf (h node).brother (h node).father y := by
  rw [unlink_eq hne, PairNodes.setFather, PairNodes.setBrother, Function.update_of_ne hnode,
    Function.update_of_ne hnode]
  exact setFatherOf_congr (bypass_of_ne hfather)

/-- to the node itself, which has no brother and no father any more, -/
theorem unlink_node (hne : father ≠ node) (hbrother : (h node).brother ≠ some node) :
    unlink h node father node = { h node with brother := none, father := none } := by
  have hsame : (bypass h node father).setFatherOf (h node).brother (h node).father node =
      h node := by
    rw [setFatherOf_of_ne hbrother, bypass_of_ne hne.symm]
  rw [unlink_eq hne]
  simp [PairNodes.setFather, PairNodes.setBrother, hsame]

/-- and to its father, which gets the brother in its place. -/
theorem unlink_father (hne : father ≠ node) (hbrother : (h node).brother ≠ some father) :
    unlink h node father father = if (h father).child = some node then
      { h father with child := (h node).brother } else
      { h father with brother := (h node).brother } := by
  rw [unlink_eq hne, PairNodes.setFather, PairNodes.setBrother, Function.update_of_ne hne,
    Function.update_of_ne hne, setFatherOf_of_ne hbrother, bypass]
  split_ifs <;> exact Function.update_self ..

variable {a : ℕ} {c s : Forest ℕ}

/-- What becomes of the subtree with root `x` and of its later brothers, when its father is `a`. -/
theorem unlink_subtree (hfather : (h x).father = some a) (hc : Links h (h x).child (some x) c)
    (hs : Links h (h x).brother (some x) s)
    (hnodup : (a :: (x :: (c.labels ++ s.labels))).Nodup) :
    Links (unlink h x a) (h x).brother (some a) s ∧
      Links (unlink h x a) (some x) none (.node x c .nil) ∧
      (h x).brother ≠ some a ∧
      ∀ y, y ≠ a → y ∉ (Forest.node x c s).labels → unlink h x a y = h y := by
  simp only [List.nodup_cons, List.mem_cons, List.mem_append, not_or] at hnodup
  obtain ⟨⟨hax, hac, has⟩, ⟨hxc, hxs⟩, happend⟩ := hnodup
  obtain ⟨-, hsnodup, hdisjoint⟩ := List.nodup_append'.1 happend
  -- a brother of `x` is a node of the forest behind it
  have hbrother : ∀ y, y ∉ s.labels → (h x).brother ≠ some y :=
    fun y hy heq => hy (hs.mem_labels heq)
  refine ⟨?_, ⟨rfl, ?_, ?_, ?_⟩, hbrother a has, fun y hya hy => ?_⟩
  · have hset := hs.setFatherOf hsnodup (h x).father
    rw [hfather] at hset
    refine hset.congr fun y hy => .of_eq ?_
    rw [unlink_of_ne (ne_of_mem_of_not_mem hy has) (ne_of_mem_of_not_mem hy hxs) hax, hfather]
  · rw [unlink_node hax (hbrother x hxs)]
  · rw [unlink_node hax (hbrother x hxs)]
    refine hc.congr fun y hy => .of_eq ?_
    rw [unlink_of_ne (ne_of_mem_of_not_mem hy hac) (ne_of_mem_of_not_mem hy hxc) hax,
      setFatherOf_of_ne (hbrother y (hdisjoint hy))]
  · rw [unlink_node hax (hbrother x hxs)]
    rfl
  · simp only [labels_node, List.mem_cons, List.mem_append, not_or] at hy
    rw [unlink_of_ne hya hy.1 hax, setFatherOf_of_ne (hbrother y hy.2.2)]

/-- A subtree is taken out of the forest whose first node has the father `y`. If it is the first
one, then `y` is its father; all the others are in the hypothesis `hinner`. -/
theorem Links.unlink_below (hl : Links h p (some y) f) (hnodup : (y :: f.labels).Nodup)
    (hx : x ∈ f.labels)
    (hinner : p ≠ some x → ∃ a ∈ f.labels, a ≠ x ∧ (h x).father = some a ∧
      Links (unlink h x a) p (some y) (f.detach x) ∧
      Links (unlink h x a) (some x) none (.node x (f.under x) .nil) ∧
      ∀ z ∉ f.labels, unlink h x a z = h z) :
    ∃ a ∈ y :: f.labels, a ≠ x ∧ (h x).father = some a ∧
      Links (unlink h x a) (if p = some x then (h x).brother else p) (some y) (f.detach x) ∧
      Links (unlink h x a) (some x) none (.node x (f.under x) .nil) ∧
      (if p = some x then a = y ∧ (h x).brother ≠ some y else PairTree.unlink h x a y = h y) ∧
      ∀ z, z ≠ y → z ∉ f.labels → unlink h x a z = h z := by
  -- either `x` is the first tree of the list, or it is somewhere below
  by_cases hfirst : p = some x
  · cases f with
    | nil => cases hx
    | node z c s =>
      obtain ⟨hz, hfather, hc, hs⟩ := hl
      obtain rfl : x = z := Option.some.inj (hfirst.symm.trans hz)
      obtain ⟨hrest, hsub, hne, hframe⟩ := unlink_subtree hfather hc hs hnodup
      have hyx : y ≠ x := List.ne_of_not_mem_cons (List.nodup_cons.1 hnodup).1
      simp only [if_pos hfirst, detach, under, if_true]
      exact ⟨y, List.mem_cons_self, hyx, hfather, hrest, hsub, ⟨rfl, hne⟩, hframe⟩
  · obtain ⟨a, ha, hax, hfather, hrest, hsub, hframe⟩ := hinner hfirst
    simp only [if_neg hfirst]
    exact ⟨a, List.mem_cons_of_mem y ha, hax, hfather, hrest, hsub,
      hframe y (List.nodup_cons.1 hnodup).1, fun z _ hz => hframe z hz⟩

end Unlink

/-- A subtree that is not the first one is taken out: its brothers take its place, and the nodes
outside the forest are not touched. -/
theorem Links.unlink (hl : Links h p up f) (hnodup : f.labels.Nodup) (hx : x ∈ f.labels)
    (hp : p ≠ some x) :
    ∃ a ∈ f.labels, a ≠ x ∧ (h x).father = some a ∧
      Links (unlink h x a) p up (f.detach x) ∧
      Links (unlink h x a) (some x) none (.node x (f.under x) .nil) ∧
      ∀ y ∉ f.labels, unlink h x a y = h y := by
  induction f generalizing p up with
  | nil => cases hx
  | node y c s ihc ihs =>
    obtain ⟨rfl, hup, hc, hs⟩ := hl
    have hyx : y ≠ x := fun heq => hp (congrArg some heq)
    have hparts := hnodup
    simp only [labels_node, List.nodup_cons, List.mem_append, not_or] at hparts
    obtain ⟨⟨hyc, hys⟩, happend⟩ := hparts
    obtain ⟨hcnodup, hsnodup, hdisjoint⟩ := List.nodup_append'.1 happend
    simp only [labels_node, List.mem_cons, List.mem_append, hyx.symm, false_or] at hx
    by_cases hxc : x ∈ c.labels
    · -- below `y`
      have hxs : x ∉ s.labels := hdisjoint hxc
      simp only [detach, under, if_neg hyx, if_pos hxc, detach_of_not_mem hxs]
      obtain ⟨a, ha, hax, hfather, hrest, hsub, hat, hframe⟩ :=
        hc.unlink_below (List.nodup_cons.2 ⟨hyc, hcnodup⟩) hxc (ihc hc hcnodup hxc)
      have hy : PairTree.unlink h x a y =
          { h y with child := if (h y).child = some x then (h x).brother else (h y).child } := by
        split_ifs at hat ⊢ with hfirst
        · obtain ⟨rfl, hne⟩ := hat
          rw [unlink_father hyx hne, if_pos hfirst]
        · exact hat
      refine ⟨a, List.cons_subset_cons y (List.subset_append_left ..) ha, hax, hfather,
        ⟨rfl, ?_, ?_, ?_⟩, hsub, fun z hz => ?_⟩
      · rw [hy, hup]
      · rw [hy]
        exact hrest
      · rw [hy]
        exact hs.congr fun z hz => .of_eq (hframe z (ne_of_mem_of_not_mem hz hys)
          fun hzc => hdisjoint hzc hz)
      · simp only [labels_node, List.mem_cons, List.mem_append, not_or] at hz
        exact hframe z hz.1 hz.2.1
    · -- behind `y`
      have hxs : x ∈ s.labels := hx.resolve_left hxc
      simp only [detach, under, if_neg hyx, if_neg hxc, detach_of_not_mem hxc]
      obtain ⟨a, ha, hax, hfather, hrest, hsub, hat, hframe⟩ :=
        hs.unlink_below (List.nodup_cons.2 ⟨hys, hsnodup⟩) hxs (ihs hs hsnodup hxs)
      have hy : PairTree.unlink h x a y = { h y with
          brother := if (h y).brother = some x then (h x).brother else (h y).brother } := by
        split_ifs at hat ⊢
        · obtain ⟨rfl, hne⟩ := hat
          rw [unlink_father hyx hne, if_neg fun hchild => hxc (hc.mem_labels hchild)]
        · exact hat
      refine ⟨a, List.cons_subset_cons y (List.subset_append_right ..) ha, hax, hfather,
        ⟨rfl, ?_, ?_, ?_⟩, hsub, fun z hz => ?_⟩
      · rw [hy, hup]
      · rw [hy]
        exact hc.congr fun z hz => .of_eq (hframe z (ne_of_mem_of_not_mem hz hyc)
          fun hzs => hdisjoint hz hzs)
      · rw [hy]
        exact hrest
      · simp only [labels_node, List.mem_cons, List.mem_append, not_or] at hz
        exact hframe z hz.1 hz.2.2

/-! ## Values -/

/-- No assignment to a link changes a value. -/
@[simp]
theorem value_setChild (q : Option ℕ) : (h.setChild x q y).value = (h y).value := by
  by_cases hyx : y = x <;> simp [PairNodes.setChild, hyx]

@[simp]
theorem value_setBrother (q : Option ℕ) : (h.setBrother x q y).value = (h y).value := by
  by_cases hyx : y = x <;> simp [PairNodes.setBrother, hyx]

@[simp]
theorem value_setFather (q : Option ℕ) : (h.setFather x q y).value = (h y).value := by
  by_cases hyx : y = x <;> simp [PairNodes.setFather, hyx]

@[simp]
theorem value_setFatherOf (q : Option ℕ) : (h.setFatherOf p q y).value = (h y).value := by
  cases p with
  | none => rfl
  | some x => exact value_setFather q

@[simp]
theorem value_link (a b : ℕ) : (link h a b y).value = (h y).value := by
  simp [link]

@[simp]
theorem value_unlink (a : ℕ) : (unlink h x a y).value = (h y).value := by
  simp only [unlink, value_setFather, value_setBrother, value_setFatherOf]
  split_ifs <;> simp

/-- A new value does not change the links. -/
theorem sameLinks_setValue (h : PairNodes T) (node : ℕ) (value : T) (x : ℕ) :
    SameLinks (h x) (h.setValue node value x) := by
  by_cases hx : x = node
  · subst hx
    simp [SameLinks, PairNodes.setValue]
  · exact .of_eq (Function.update_of_ne hx ..)

/-- The value that is assigned. -/
theorem value_setValue_self (h : PairNodes T) (node : ℕ) (value : T) :
    (h.setValue node value node).value = value := by
  simp [PairNodes.setValue]

/-- The other nodes keep theirs. -/
theorem value_setValue_of_ne (h : PairNodes T) (value : T) {node x : ℕ} (hx : x ≠ node) :
    (h.setValue node value x).value = (h x).value := by
  simp [PairNodes.setValue, hx]

/-! ## Trees -/

/-- Linking two trees keeps the nodes. -/
theorem perm_link (a b : ℕ) (ca cb : Forest ℕ) :
    (a :: (Forest.node b cb ca).labels).Perm ((a :: ca.labels) ++ (b :: cb.labels)) := by
  rw [labels_node, List.cons_append]
  refine List.Perm.cons a (List.Perm.trans ?_ List.perm_middle.symm)
  exact List.perm_append_comm.cons b

section Trees

variable [LinearOrder T] {a b r node : ℕ} {value : T} {c ca cb : Forest ℕ}

/-- The nodes from `r` on are linked as one tree, in the order of a heap. -/
structure TreeAt (h : PairNodes T) (r : ℕ) (c : Forest ℕ) : Prop where
  links : Links h (some r) none (.node r c .nil)
  nodup : (r :: c.labels).Nodup
  above : Above (fun x => (h x).value) (h r).value c

/-- Only the nodes of the tree matter. -/
theorem TreeAt.congr (ht : TreeAt h r c) (heq : ∀ x ∈ r :: c.labels, h' x = h x) :
    TreeAt h' r c := by
  refine ⟨ht.links.congr fun x hx => .of_eq (heq x (by simpa using hx)), ht.nodup, ?_⟩
  rw [heq r (by simp)]
  exact ht.above.congr fun x hx => congrArg PairNode.value (heq x (by simp [hx]))

/-- The root has a minimal value. -/
theorem TreeAt.le (ht : TreeAt h r c) (hx : x ∈ r :: c.labels) : (h r).value ≤ (h x).value := by
  rcases List.mem_cons.1 hx with rfl | hx
  · exact le_rfl
  · exact ht.above.le hx

/-- A tree becomes the first child of the root of another one. -/
theorem TreeAt.link (hta : TreeAt h a ca) (htb : TreeAt h b cb)
    (hdisjoint : (a :: ca.labels).Disjoint (b :: cb.labels)) (hle : (h a).value ≤ (h b).value) :
    TreeAt (link h a b) a (.node b cb ca) ∧
      ∀ y, y ∉ a :: ca.labels → y ∉ b :: cb.labels → link h a b y = h y := by
  obtain ⟨-, hfa, hca, hba⟩ := hta.links
  obtain ⟨-, hfb, hcb, hbb⟩ := htb.links
  obtain ⟨haca, hcanodup⟩ := List.nodup_cons.1 hta.nodup
  obtain ⟨hbcb, hcbnodup⟩ := List.nodup_cons.1 htb.nodup
  have hab : a ≠ b := fun heq => hdisjoint List.mem_cons_self (heq ▸ List.mem_cons_self)
  have hbca : b ∉ ca.labels := fun hb => hdisjoint (List.mem_cons_of_mem a hb) List.mem_cons_self
  have hacb : a ∉ cb.labels := fun ha => hdisjoint List.mem_cons_self (List.mem_cons_of_mem b ha)
  have hchild : ∀ y, y ∉ ca.labels → (h a).child ≠ some y :=
    fun y hy heq => hy (hca.mem_labels heq)
  -- the cells afterwards
  have hfirst : h.setFatherOf (h a).child (some b) a = h a := setFatherOf_of_ne (hchild a haca)
  have ha : PairTree.link h a b a = { h a with child := some b } := by
    simp [PairTree.link, PairNodes.setChild, PairNodes.setFather, PairNodes.setBrother, hab, hfirst]
  have hb : PairTree.link h a b b = { h b with brother := (h a).child, father := some a } := by
    have hb₁ : h.setFatherOf (h a).child (some b) b = h b := setFatherOf_of_ne (hchild b hbca)
    simp [PairTree.link, PairNodes.setChild, PairNodes.setFather, PairNodes.setBrother, hab.symm,
      hfirst, hb₁]
  have hother : ∀ y, y ≠ a → y ≠ b →
      PairTree.link h a b y = h.setFatherOf (h a).child (some b) y := by
    intro y hya hyb
    simp [PairTree.link, PairNodes.setChild, PairNodes.setFather, PairNodes.setBrother, hya, hyb]
  have hframe : ∀ y, y ∉ a :: ca.labels → y ≠ b → PairTree.link h a b y = h y := by
    intro y hy hyb
    simp only [List.mem_cons, not_or] at hy
    rw [hother y hy.1 hyb, setFatherOf_of_ne (hchild y hy.2)]
  refine ⟨⟨⟨rfl, ?_, ?_, ?_⟩, ?_, ?_⟩, fun y hya hyb => hframe y hya (List.ne_of_not_mem_cons hyb)⟩
  · rw [ha, hfa]
  · rw [ha]
    refine ⟨rfl, by rw [hb], ?_, ?_⟩
    · rw [hb]
      refine hcb.congr fun y hy => .of_eq (hframe y (fun hya => ?_) (ne_of_mem_of_not_mem hy hbcb))
      exact hdisjoint hya (List.mem_cons_of_mem b hy)
    · rw [hb]
      refine (hca.setFatherOf hcanodup (some b)).congr fun y hy => .of_eq ?_
      exact hother y (ne_of_mem_of_not_mem hy haca) (ne_of_mem_of_not_mem hy hbca)
  · rw [ha]
    exact hba
  · exact (perm_link a b ca cb).nodup_iff.2
      (List.nodup_append'.2 ⟨hta.nodup, htb.nodup, hdisjoint⟩)
  · simp only [value_link]
    exact ⟨hle, htb.above, hta.above⟩

/-- `_merge` makes one tree out of two. -/
theorem TreeAt.merge (hta : TreeAt h a ca) (htb : TreeAt h b cb)
    (hdisjoint : (a :: ca.labels).Disjoint (b :: cb.labels)) :
    ∃ r c h', merge h (some a) (some b) = (some r, h') ∧ TreeAt h' r c ∧
      (r :: c.labels).Perm ((a :: ca.labels) ++ (b :: cb.labels)) ∧
      (∀ y, (h' y).value = (h y).value) ∧
      ∀ y, y ∉ a :: ca.labels → y ∉ b :: cb.labels → h' y = h y := by
  by_cases hgt : (h a).value > (h b).value
  · obtain ⟨htree, hframe⟩ := htb.link hta hdisjoint.symm hgt.le
    refine ⟨b, _, _, ?_, htree, (perm_link b a cb ca).trans List.perm_append_comm,
      fun y => value_link b a, fun y hya hyb => hframe y hyb hya⟩
    simp only [PairTree.merge, if_pos hgt]
  · obtain ⟨htree, hframe⟩ := hta.link htb hdisjoint (not_lt.1 hgt)
    refine ⟨a, _, _, ?_, htree, perm_link a b ca cb, fun y => value_link a b, hframe⟩
    simp only [PairTree.merge, if_neg hgt]

/-- A smaller value at the root. -/
theorem TreeAt.setValue (ht : TreeAt h r c)
    (hle : value ≤ (h r).value) : TreeAt (h.setValue r value) r c := by
  refine ⟨ht.links.congr fun x _ => sameLinks_setValue h r value x, ht.nodup, ?_⟩
  rw [value_setValue_self]
  refine (ht.above.mono hle).congr fun x hx => value_setValue_of_ne h value ?_
  exact ne_of_mem_of_not_mem hx (List.nodup_cons.1 ht.nodup).1

/-- A node below the root gets a smaller value and is taken out with what is below it. -/
theorem TreeAt.unlink (ht : TreeAt h r c)
    (hnode : node ∈ c.labels) (hle : value ≤ (h node).value) :
    ∃ father, (h node).father = some father ∧
      TreeAt (PairTree.unlink (h.setValue node value) node father) r (c.detach node) ∧
      TreeAt (PairTree.unlink (h.setValue node value) node father) node (c.under node) ∧
      (r :: c.labels).Perm ((r :: (c.detach node).labels) ++
        (node :: (c.under node).labels)) := by
  obtain ⟨hrc, hcnodup⟩ := List.nodup_cons.1 ht.nodup
  have hrn : r ≠ node := (ne_of_mem_of_not_mem hnode hrc).symm
  have hlinks := ht.links.congr fun x _ => sameLinks_setValue h node value x
  obtain ⟨father, -, -, hfather, hrest, hsub, -⟩ :=
    hlinks.unlink (x := node) (by simpa using ht.nodup) (by simp [hnode]) (by simpa using hrn)
  simp only [detach, under, if_neg hrn, if_pos hnode] at hrest hsub
  -- the labels of the two parts
  have hperm := perm_detach hcnodup hnode
  have hperm' : (r :: c.labels).Perm ((r :: (c.detach node).labels) ++
      (node :: (c.under node).labels)) := by
    refine (hperm.trans ?_).cons r
    exact (List.perm_append_comm.cons node).trans List.perm_middle.symm
  have hparts := hperm.nodup_iff.1 hcnodup
  simp only [List.nodup_cons, List.mem_append, not_or] at hparts
  obtain ⟨⟨hnu, hnd⟩, happend⟩ := hparts
  obtain ⟨hunodup, hdnodup, -⟩ := List.nodup_append'.1 happend
  have hrd : r ∉ (c.detach node).labels := by
    intro hr
    exact hrc (hperm.mem_iff.2 (by simp [hr]))
  refine ⟨father, ?_, ⟨hrest, List.nodup_cons.2 ⟨hrd, hdnodup⟩, ?_⟩,
    ⟨hsub, List.nodup_cons.2 ⟨hnu, hunodup⟩, ?_⟩, hperm'⟩
  · rw [← hfather]
    exact (sameLinks_setValue h node value node).2.2.symm
  · simp only [value_unlink]
    rw [value_setValue_of_ne h value hrn]
    exact ht.above.detach.congr fun x hx =>
      value_setValue_of_ne h value (ne_of_mem_of_not_mem hx hnd)
  · simp only [value_unlink]
    rw [value_setValue_self]
    exact ((ht.above.under hnode).mono hle).congr fun x hx =>
      value_setValue_of_ne h value (ne_of_mem_of_not_mem hx hnu)

end Trees

end CppLearn.PairTree

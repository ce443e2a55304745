import Mathlib.Algebra.Order.Ring.Nat
import Mathlib.Data.List.Nodup
import Mathlib.Data.List.Perm.Basic

/-!
# Forests by first child and next sibling

A list of trees is empty, or it is the first tree, given by its root and the list of the trees below
it, followed by the other ones. In a heap no label is smaller than the label above it. A subtree can
be cut out of a forest; its siblings take its place.

`Forest` is the type, with `Forest.labels` and `Forest.roots`, and `Forest.Above` is the order of a
heap. Cutting out a subtree leaves `Forest.detach`, and `Forest.under` is what is below its root. No
label is lost or repeated (`Forest.perm_detach`), and both parts keep the order
(`Forest.Above.detach`, `Forest.Above.under`).
-/

/-- A list of trees with labels in `α`. -/
inductive Forest (α : Type*) where
  | nil
  | node (x : α) (children siblings : Forest α)

namespace Forest

variable {α T : Type*}

/-- All labels, in preorder. -/
def labels : Forest α → List α
  | nil => []
  | node x c s => x :: (c.labels ++ s.labels)

/-- The roots of the trees. -/
def roots : Forest α → List α
  | nil => []
  | node x _ s => x :: s.roots

@[simp]
theorem labels_nil : (nil : Forest α).labels = [] := rfl

@[simp]
theorem labels_node (x : α) (c s : Forest α) :
    (node x c s).labels = x :: (c.labels ++ s.labels) := rfl

/-! ## The order of a heap -/

section Order

variable [Preorder T] {v v' : α → T} {low low' : T} {f : Forest α} {x : α}

/-- The value of every label is at least that of the label above it, and at the top at least
`low`. -/
def Above (v : α → T) (low : T) : Forest α → Prop
  | nil => True
  | node x c s => low ≤ v x ∧ Above v (v x) c ∧ Above v low s

/-- The bound holds for all labels. -/
theorem Above.le (h : Above v low f) (hx : x ∈ f.labels) : low ≤ v x := by
  induction f generalizing low with
  | nil => cases hx
  | node y c s ihc ihs =>
    obtain ⟨hy, hc, hs⟩ := h
    simp only [labels_node, List.mem_cons, List.mem_append] at hx
    rcases hx with rfl | hx | hx
    · exact hy
    · exact hy.trans (ihc hc hx)
    · exact ihs hs hx

theorem Above.mono (h : Above v low f) (hle : low' ≤ low) : Above v low' f := by
  induction f generalizing low low' with
  | nil => trivial
  | node y c s ihc ihs =>
    obtain ⟨hy, hc, hs⟩ := h
    exact ⟨hle.trans hy, hc, ihs hs hle⟩

/-- The order depends on the values of the labels only. -/
theorem Above.congr (h : Above v low f) (heq : ∀ x ∈ f.labels, v' x = v x) : Above v' low f := by
  induction f generalizing low with
  | nil => trivial
  | node y c s ihc ihs =>
    obtain ⟨hy, hc, hs⟩ := h
    simp only [labels_node, List.mem_cons, List.mem_append] at heq
    have hval := heq y (.inl rfl)
    refine ⟨by rwa [hval], ?_, ihs hs fun z hz => heq z (.inr (.inr hz))⟩
    rw [hval]
    exact ihc hc fun z hz => heq z (.inr (.inl hz))

end Order

/-! ## Cutting out a subtree -/

section Detach

variable [DecidableEq α] {f : Forest α} {x : α}

/-- The forest without the subtree with root `x`. -/
def detach (x : α) : Forest α → Forest α
  | nil => nil
  | node y c s => if y = x then s else node y (c.detach x) (s.detach x)

/-- What is below `x`. -/
def under (x : α) : Forest α → Forest α
  | nil => nil
  | node y c s => if y = x then c else if x ∈ c.labels then c.under x else s.under x

theorem detach_of_not_mem (hx : x ∉ f.labels) : f.detach x = f := by
  induction f with
  | nil => rfl
  | node y c s ihc ihs =>
    simp only [labels_node, List.mem_cons, List.mem_append, not_or] at hx
    rw [detach, if_neg (Ne.symm hx.1), ihc hx.2.1, ihs hx.2.2]

/-- No label is lost, and none is repeated. -/
theorem perm_detach (hnodup : f.labels.Nodup) (hx : x ∈ f.labels) :
    f.labels.Perm (x :: ((f.under x).labels ++ (f.detach x).labels)) := by
  induction f with
  | nil => cases hx
  | node y c s ihc ihs =>
    simp only [labels_node, List.nodup_cons, List.mem_append, not_or] at hnodup
    obtain ⟨-, happend⟩ := hnodup
    obtain ⟨hc, hs, hdisjoint⟩ := List.nodup_append'.1 happend
    -- the label is at the root, below it, or in a sibling
    by_cases hy : y = x
    · subst hy
      simp [under, detach]
    simp only [labels_node, List.mem_cons, List.mem_append, Ne.symm hy, false_or] at hx
    by_cases hxc : x ∈ c.labels
    · have hxs : x ∉ s.labels := hdisjoint hxc
      rw [under, if_neg hy, if_pos hxc, detach, if_neg hy, detach_of_not_mem hxs, labels_node,
        labels_node]
      refine (((ihc hc hxc).append_right s.labels).cons y).trans ?_
      simp only [List.cons_append, List.append_assoc]
      exact (List.Perm.swap x y _).trans (List.perm_middle.symm.cons x)
    · have hxs : x ∈ s.labels := hx.resolve_left hxc
      rw [under, if_neg hy, if_neg hxc, detach, if_neg hy, detach_of_not_mem hxc, labels_node,
        labels_node]
      refine (((ihs hs hxs).append_left c.labels).cons y).trans ?_
      -- the siblings of the subtree take its place
      refine ((List.perm_middle (a := x)).cons y).trans ((List.Perm.swap x y _).trans ?_)
      refine List.Perm.cons x ?_
      refine List.Perm.trans ?_ List.perm_middle.symm
      refine List.Perm.cons y ?_
      rw [← List.append_assoc, ← List.append_assoc]
      exact List.perm_append_comm.append_right _

variable [Preorder T] {v : α → T} {low : T}

theorem Above.detach (h : Above v low f) : Above v low (f.detach x) := by
  induction f generalizing low with
  | nil => trivial
  | node y c s ihc ihs =>
    obtain ⟨hy, hc, hs⟩ := h
    unfold Forest.detach
    split_ifs with hyx
    · exact hs
    · exact ⟨hy, ihc hc, ihs hs⟩

theorem Above.under (h : Above v low f) (hx : x ∈ f.labels) : Above v (v x) (f.under x) := by
  induction f generalizing low with
  | nil => trivial
  | node y c s ihc ihs =>
    obtain ⟨hy, hc, hs⟩ := h
    unfold Forest.under
    split_ifs with hyx hxc
    · exact hyx ▸ hc
    · exact ihc hc hxc
    · simp only [labels_node, List.mem_cons, List.mem_append, Ne.symm hyx, hxc, false_or] at hx
      exact ihs hs hx

end Detach

end Forest

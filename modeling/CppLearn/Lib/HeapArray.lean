import Mathlib.Algebra.Order.Ring.Nat
import Mathlib.Logic.Equiv.Basic

/-!
# Heaps in arrays

The elements `a 0, ..., a (n - 1)` of an array as a binary tree, in which the parent of element `i`
is element `(i - 1) / 2`. In a heap no element exceeds its parent. An element in a wrong place is
exchanged with its parent or with the larger one of its children until it fits.

## Main definitions

* `HeapArray.Ordered`: no element exceeds its parent;
* `HeapArray.UpOrdered`, `HeapArray.DownOrdered`: the same, except for an element that may be too
  large for its parent, or too small for its children;
* `HeapArray.Below`, `HeapArray.OrderedAt`, `HeapArray.DownOrderedAt`: the same for a subtree.

## Main results

* `HeapArray.Ordered.le_root`: the root is a maximum;
* `HeapArray.UpOrdered.swap`, `HeapArray.DownOrdered.swap`, `HeapArray.DownOrderedAt.swap`: an
  exchange moves the exception up or down;
* `HeapArray.DownOrderedAt.pass`: it moves down when the element fits, too.
-/

namespace HeapArray

/-- The parent of a node. -/
def parent (i : ℕ) : ℕ := (i - 1) / 2

/-- Parents come first. -/
theorem parent_lt {i : ℕ} (hi : 0 < i) : parent i < i := by
  unfold parent
  omega

variable {α : Type*} [LinearOrder α] {a : ℕ → α} {n c i : ℕ}

/-- No element exceeds its parent. -/
def Ordered (a : ℕ → α) (n : ℕ) : Prop := ∀ i < n, 0 < i → a i ≤ a (parent i)

/-- Only `a c` may exceed its parent, and the children of `c` would fit there. -/
structure UpOrdered (a : ℕ → α) (n c : ℕ) : Prop where
  ordered : ∀ i < n, 0 < i → i ≠ c → a i ≤ a (parent i)
  grandparent : ∀ i < n, 0 < i → parent i = c → 0 < c → a i ≤ a (parent c)

/-- Only the children of `c` may exceed their parent, and they would fit in its place. -/
structure DownOrdered (a : ℕ → α) (n c : ℕ) : Prop where
  ordered : ∀ i < n, 0 < i → parent i ≠ c → a i ≤ a (parent i)
  grandparent : ∀ i < n, 0 < i → parent i = c → 0 < c → a i ≤ a (parent c)

/-- The root of a heap is a maximum. -/
theorem Ordered.le_root (h : Ordered a n) (hi : i < n) : a i ≤ a 0 := by
  induction i using Nat.strongRecOn with
  | ind i ih =>
    rcases Nat.eq_zero_or_pos i with rfl | hpos
    · exact le_rfl
    · have hlt := parent_lt hpos
      exact (h i hi hpos).trans (ih (parent i) hlt (hlt.trans hi))

/-! ## Moving up -/

/-- When the element fits, the array is a heap. -/
theorem UpOrdered.ordered_of_le (h : UpOrdered a n c) (hc : 0 < c → a c ≤ a (parent c)) :
    Ordered a n := by
  intro i hi hpos
  by_cases hic : i = c
  · subst hic
    exact hc hpos
  · exact h.ordered i hi hpos hic

/-- A heap with one more element. -/
theorem Ordered.upOrdered (h : Ordered a n) : UpOrdered a (n + 1) n := by
  refine ⟨fun i hi hpos hne => h i (by omega) hpos, fun i hi hpos hparent _ => ?_⟩
  have := parent_lt hpos
  omega

/-- The element is exchanged with its smaller parent. -/
theorem UpOrdered.swap (h : UpOrdered a n c) (hpos : 0 < c) (hc : c < n)
    (hlt : a (parent c) < a c) : UpOrdered (a ∘ Equiv.swap (parent c) c) n (parent c) := by
  have hne : parent c ≠ c := (parent_lt hpos).ne
  -- all that is left at the parent of `c` was below the old parent
  have hbelow : ∀ i < n, 0 < i → parent i = parent c → (a ∘ Equiv.swap (parent c) c) i ≤
      a (parent c) := by
    intro i hi hipos hpar
    have hip : i ≠ parent c := by
      have := parent_lt hipos
      omega
    by_cases hic : i = c
    · simp [hic]
    · simp only [Function.comp, Equiv.swap_apply_of_ne_of_ne hip hic]
      rw [← hpar]
      exact h.ordered i hi hipos hic
  refine ⟨fun i hi hipos hip => ?_, fun i hi hipos hpar hppos => ?_⟩
  · by_cases hpar : parent i = parent c
    · have hle := hbelow i hi hipos hpar
      simp only [hpar, Function.comp, Equiv.swap_apply_left] at hle ⊢
      exact hle.trans hlt.le
    · have hic : i ≠ c := by
        rintro rfl
        exact hpar rfl
      simp only [Function.comp, Equiv.swap_apply_of_ne_of_ne hip hic]
      by_cases hparc : parent i = c
      · rw [hparc, Equiv.swap_apply_right]
        exact h.grandparent i hi hipos hparc hpos
      · rw [Equiv.swap_apply_of_ne_of_ne hpar hparc]
        exact h.ordered i hi hipos hic
  · have hlt' := parent_lt hppos
    have hup := h.ordered (parent c) ((parent_lt hpos).trans hc) hppos hne
    have hfix : Equiv.swap (parent c) c (parent (parent c)) = parent (parent c) :=
      Equiv.swap_apply_of_ne_of_ne hlt'.ne (hlt'.trans (parent_lt hpos)).ne
    have hle := (hbelow i hi hipos hpar).trans hup
    simpa only [Function.comp, hfix] using hle

/-! ## Moving down -/

/-- When the element fits, the array is a heap. -/
theorem DownOrdered.ordered_of_le (h : DownOrdered a n c)
    (hc : ∀ i < n, 0 < i → parent i = c → a i ≤ a c) : Ordered a n := by
  intro i hi hpos
  by_cases hic : parent i = c
  · rw [hic]
    exact hc i hi hpos hic
  · exact h.ordered i hi hpos hic

/-- A heap with another root. -/
theorem Ordered.downOrdered {a' : ℕ → α} (h : Ordered a n) (heq : ∀ i < n, 0 < i → a' i = a i) :
    DownOrdered a' n 0 := by
  refine ⟨fun i hi hpos hpar => ?_, fun i hi hpos hpar hzero => absurd hzero (Nat.lt_irrefl 0)⟩
  have hlt := (parent_lt hpos).trans hi
  rw [heq i hi hpos, heq (parent i) hlt (Nat.pos_of_ne_zero hpar)]
  exact h i hi hpos

/-! ## Subtrees -/

/-- The node `r`, and the nodes below it. -/
inductive Below (r : ℕ) : ℕ → Prop
  | root : Below r r
  | child {i : ℕ} : 0 < i → Below r (parent i) → Below r i

/-- What is below an index comes behind it. -/
theorem Below.le {r : ℕ} (h : Below r i) : r ≤ i := by
  induction h with
  | root => exact le_rfl
  | child hpos _ ih => exact ih.trans (parent_lt hpos).le

/-- A node other than `r` is below `r` if its parent is. -/
theorem Below.parent_of_ne {r : ℕ} (h : Below r i) (hne : i ≠ r) : Below r (parent i) := by
  cases h with
  | root => exact absurd rfl hne
  | child _ h => exact h

/-- Everything is below the root. -/
theorem below_zero (i : ℕ) : Below 0 i := by
  induction i using Nat.strongRecOn with
  | ind i ih =>
    rcases Nat.eq_zero_or_pos i with rfl | hpos
    · exact .root
    · exact .child hpos (ih (parent i) (parent_lt hpos))

/-- The subtree with root `r` is a heap. -/
def OrderedAt (a : ℕ → α) (n r : ℕ) : Prop :=
  ∀ i < n, 0 < i → Below r (parent i) → a i ≤ a (parent i)

/-- In the subtree with root `r`, only the children of `c` may exceed their parent, and they would
fit in its place. -/
structure DownOrderedAt (a : ℕ → α) (n r c : ℕ) : Prop where
  ordered : ∀ i < n, 0 < i → Below r (parent i) → parent i ≠ c → a i ≤ a (parent i)
  grandparent : ∀ i < n, 0 < i → parent i = c → c ≠ r → a i ≤ a (parent c)

/-- The order below the root is that of the heap, -/
theorem orderedAt_zero_iff : OrderedAt a n 0 ↔ Ordered a n :=
  ⟨fun h i hi hpos => h i hi hpos (below_zero _), fun h i hi hpos _ => h i hi hpos⟩

/-- also with one exception, -/
theorem downOrderedAt_zero_iff : DownOrderedAt a n 0 c ↔ DownOrdered a n c := by
  constructor
  · intro h
    exact ⟨fun i hi hpos hpar => h.ordered i hi hpos (below_zero _) hpar,
      fun i hi hpos hpar hc => h.grandparent i hi hpos hpar hc.ne'⟩
  · intro h
    exact ⟨fun i hi hpos _ hpar => h.ordered i hi hpos hpar,
      fun i hi hpos hpar hc => h.grandparent i hi hpos hpar (Nat.pos_of_ne_zero hc)⟩

section Subtree

variable {r p k : ℕ}

/-- When the subtrees below the root are heaps, only the root may be in a wrong place. -/
theorem downOrderedAt_of_children
    (h : ∀ c, 0 < c → parent c = r → OrderedAt a n c) : DownOrderedAt a n r r := by
  refine ⟨fun i hi hpos hbelow hpar => ?_, fun i hi hpos hpar hne => absurd rfl hne⟩
  -- the child of the root that the parent is, or is below
  have hchild : ∀ j, Below r j → j ≠ r → ∃ c, 0 < c ∧ parent c = r ∧ Below c j := by
    intro j hj
    induction hj with
    | root => exact fun hne => absurd rfl hne
    | @child j hpos hj ih =>
      intro _
      by_cases hjr : parent j = r
      · exact ⟨j, hpos, hjr, .root⟩
      · obtain ⟨c, hcpos, hc, hcj⟩ := ih hjr
        exact ⟨c, hcpos, hc, .child hpos hcj⟩
  obtain ⟨c, hcpos, hc, hcj⟩ := hchild (parent i) hbelow hpar
  exact h c hcpos hc i hi hpos hcj

/-- When the element has no children left, the subtree is a heap. -/
theorem DownOrderedAt.orderedAt_of_leaf (h : DownOrderedAt a n r c)
    (hc : ∀ i < n, 0 < i → parent i ≠ c) : OrderedAt a n r :=
  fun i hi hpos hbelow => h.ordered i hi hpos hbelow (hc i hi hpos)

/-- The element fits above the larger one of its children; whether this child fits is looked at
next. -/
theorem DownOrderedAt.pass (h : DownOrderedAt a n r p) (hc : 0 < c) (hbelow : Below r p)
    (hp : parent c = p) (hmax : ∀ i < n, 0 < i → parent i = p → a i ≤ a c)
    (hle : a c ≤ a p) : DownOrderedAt a n r c := by
  have hpc : p < c := hp ▸ parent_lt hc
  refine ⟨fun i hi hpos hbelowi hpar => ?_, fun i hi hpos hpar _ => ?_⟩
  · by_cases hparp : parent i = p
    · rw [hparp]
      exact (hmax i hi hpos hparp).trans hle
    · exact h.ordered i hi hpos hbelowi hparp
  · have hord := h.ordered i hi hpos (hpar ▸ .child hc (hp ▸ hbelow)) (by omega)
    rw [hpar] at hord
    rw [hp]
    exact hord.trans hle

/-- The element is exchanged with the larger one of its children. -/
theorem DownOrderedAt.swap (h : DownOrderedAt a n r p) (hpos : 0 < c) (hc : c < n)
    (hbelow : Below r p) (hp : parent c = p) (hmax : ∀ i < n, 0 < i → parent i = p → a i ≤ a c)
    (hlt : a p < a c) : DownOrderedAt (a ∘ Equiv.swap p c) n r c := by
  have hpc : p < c := hp ▸ parent_lt hpos
  refine ⟨fun i hi hipos hbelowi hpar => ?_, fun i hi hipos hpar _ => ?_⟩
  · by_cases hic : i = c
    · subst hic
      simpa only [Function.comp, Equiv.swap_apply_right, hp, Equiv.swap_apply_left] using hlt.le
    by_cases hip : i = p
    · -- the new value of the old place fits below the grandparent
      subst hip
      have hne : parent i ≠ i := (parent_lt hipos).ne
      have hlow := hbelowi.le
      have hup := parent_lt hipos
      simp only [Function.comp, Equiv.swap_apply_left, Equiv.swap_apply_of_ne_of_ne hne hpar]
      exact h.grandparent c hc hpos hp (by omega)
    simp only [Function.comp, Equiv.swap_apply_of_ne_of_ne hip hic]
    by_cases hparp : parent i = p
    · rw [hparp, Equiv.swap_apply_left]
      exact hmax i hi hipos hparp
    · rw [Equiv.swap_apply_of_ne_of_ne hparp hpar]
      exact h.ordered i hi hipos hbelowi hparp
  · have hci : c < i := hpar ▸ parent_lt hipos
    have hle := h.ordered i hi hipos (hpar ▸ .child hpos (hp ▸ hbelow)) (by omega)
    rw [hpar] at hle
    simpa only [Function.comp, hp, Equiv.swap_apply_left,
      Equiv.swap_apply_of_ne_of_ne (hpc.trans hci).ne' hci.ne'] using hle

/-- Only at nodes before `k`, an element may be smaller than its children. -/
def OrderedFrom (a : ℕ → α) (n k : ℕ) : Prop :=
  ∀ i < n, 0 < i → k ≤ parent i → a i ≤ a (parent i)

/-- In the second half there are no parents. -/
theorem orderedFrom_of_leaves (h : n / 2 ≤ k) : OrderedFrom a n k := by
  intro i hi hpos hpar
  unfold parent at hpar
  omega

/-- and also from the index `0`. -/
theorem orderedFrom_zero_iff : OrderedFrom a n 0 ↔ Ordered a n :=
  ⟨fun h i hi hpos => h i hi hpos (Nat.zero_le _), fun h i hi hpos _ => h i hi hpos⟩

/-- A part that begins later is ordered too. -/
theorem OrderedFrom.orderedAt (h : OrderedFrom a n k) (hkr : k ≤ r) : OrderedAt a n r :=
  fun i hi hpos hbelow => h i hi hpos (hkr.trans hbelow.le)

/-- One more subtree became a heap. -/
theorem OrderedFrom.extend {a' : ℕ → α} (h : OrderedFrom a n (r + 1)) (h' : OrderedAt a' n r)
    (heq : ∀ i < n, ¬Below r i → a' i = a i) : OrderedFrom a' n r := by
  intro i hi hpos hpar
  by_cases hbelow : Below r (parent i)
  · exact h' i hi hpos hbelow
  · -- the node is not below `r`, either
    have hne : parent i ≠ r := fun heq => hbelow (heq ▸ .root)
    have hlt := parent_lt hpos
    have hi' : ¬Below r i := fun hir => hbelow (hir.parent_of_ne (by omega))
    rw [heq i hi hi', heq (parent i) (hlt.trans hi) hbelow]
    exact h i hi hpos (by omega)

end Subtree

/-- The element is exchanged with the larger one of its children. -/
theorem DownOrdered.swap {p : ℕ} (h : DownOrdered a n p) (hpos : 0 < c) (hc : c < n)
    (hp : parent c = p) (hmax : ∀ i < n, 0 < i → parent i = p → a i ≤ a c) (hlt : a p < a c) :
    DownOrdered (a ∘ Equiv.swap p c) n c :=
  downOrderedAt_zero_iff.1
    ((downOrderedAt_zero_iff.2 h).swap hpos hc (below_zero p) hp hmax hlt)

end HeapArray

import Mathlib.Algebra.Order.Ring.Nat
import Mathlib.Data.Fintype.Card
import Mathlib.Logic.Function.Basic
import Mathlib.Logic.Relation
import Mathlib.Data.Setoid.Basic

/-!
# Disjoint sets as forests

A partition of a finite type in which each class is a tree: `father` is the parent function, whose
fixed points are the roots, and `root` maps an element to the root of its tree. Trees are joined by
size, which bounds their height: `rank` increases along `father`, and the class of a root `r` has at
least `2 ^ rank r` elements.

`Forest` says that `father` describes the trees whose roots are given by `root`, and `Sized` that
the sizes of the classes are recorded there. An element can be moved right below its root
(`Forest.compress`), and a tree can be hung below the root of a tree that is not smaller
(`Forest.link`, `Sized.link`). After that there is one class less (`card_roots_link`); the partition
is `link_eq_iff`.
-/

namespace UnionFind

variable {α : Type*}

/-- The trees of `father`, with their roots, and ranks that increase towards the roots. -/
structure Forest (father root : α → α) (rank : α → ℕ) : Prop where
  root_father : ∀ x, root (father x) = root x
  root_of_fixed : ∀ x, father x = x → root x = x
  father_root : ∀ x, father (root x) = root x
  rank_lt : ∀ x, father x ≠ x → rank x < rank (father x)
  rank_le : ∀ x, rank x ≤ rank (root x)

/-- Every element is the root of its own tree. -/
theorem forest_id (rank : α → ℕ) : Forest (fun x : α => x) (fun x => x) rank :=
  ⟨fun _ => rfl, fun _ h => h, fun _ => rfl, fun _ h => absurd rfl h, fun _ => le_rfl⟩

variable {father root : α → α} {rank : α → ℕ} {x y : α}

theorem Forest.root_root (h : Forest father root rank) (x : α) : root (root x) = root x :=
  h.root_of_fixed _ (h.father_root x)

variable [DecidableEq α]

/-- Moving an element right below its root keeps the forest. -/
theorem Forest.compress (h : Forest father root rank) (x : α) :
    Forest (Function.update father x (root x)) root rank := by
  refine ⟨fun z => ?_, fun z hz => ?_, fun z => ?_, fun z hz => ?_, h.rank_le⟩
  · by_cases hzx : z = x
    · rw [hzx, Function.update_self, h.root_root]
    · rw [Function.update_of_ne hzx, h.root_father]
  · by_cases hzx : z = x
    · rw [hzx, Function.update_self] at hz
      rw [hzx, hz]
    · rw [Function.update_of_ne hzx] at hz
      exact h.root_of_fixed z hz
  · by_cases hzx : root z = x
    · rw [hzx, Function.update_self, ← hzx, h.root_root]
    · rw [Function.update_of_ne hzx, h.father_root]
  · by_cases hzx : z = x
    · subst hzx
      rw [Function.update_self] at hz ⊢
      -- an element that is not a root is below its father, which is not above the root
      have hne : father z ≠ z := fun hfix => hz (h.root_of_fixed z hfix)
      have hle := h.rank_le (father z)
      rw [h.root_father] at hle
      exact (h.rank_lt z hne).trans_le hle
    · rw [Function.update_of_ne hzx] at hz ⊢
      exact h.rank_lt z hz

/-- The roots after the tree of the root `y` has been hung below `x`. -/
def link (root : α → α) (x y : α) : α → α := fun z => if root z = y then x else root z

/-- The ranks after the tree of the root `y` has been hung below `x`. -/
def linkRank (rank : α → ℕ) (x y : α) : α → ℕ :=
  Function.update rank x (max (rank x) (rank y + 1))

theorem le_linkRank (rank : α → ℕ) (x y z : α) : rank z ≤ linkRank rank x y z := by
  unfold linkRank
  by_cases hz : z = x
  · rw [hz, Function.update_self]
    exact le_max_left _ _
  · rw [Function.update_of_ne hz]

theorem lt_linkRank (rank : α → ℕ) (x y : α) : rank y < linkRank rank x y x := by
  unfold linkRank
  rw [Function.update_self]
  exact Nat.lt_of_lt_of_le (Nat.lt_succ_self _) (le_max_right _ _)

/-- Hanging the tree of a root below another root keeps the forest. -/
theorem Forest.link (h : Forest father root rank) (hx : father x = x) (hy : father y = y)
    (hxy : x ≠ y) :
    Forest (Function.update father y x) (link root x y) (linkRank rank x y) := by
  have hrx : root x = x := h.root_of_fixed x hx
  have hry : root y = y := h.root_of_fixed y hy
  unfold UnionFind.link
  -- `y` gets the father `x`, and the rank of `x` grows if necessary
  refine ⟨fun z => ?_, fun z hz => ?_, fun z => ?_, fun z hz => ?_, fun z => ?_⟩
  · by_cases hzy : z = y
    · rw [hzy, Function.update_self, hrx, hry, if_neg hxy, if_pos rfl]
    · rw [Function.update_of_ne hzy, h.root_father]
  · have hzy : z ≠ y := by
      rintro rfl
      rw [Function.update_self] at hz
      exact hxy hz
    rw [Function.update_of_ne hzy] at hz
    rw [h.root_of_fixed z hz, if_neg hzy]
  · split_ifs with hz
    · rw [Function.update_of_ne hxy, hx]
    · rw [Function.update_of_ne hz, h.father_root]
  · by_cases hzy : z = y
    · subst hzy
      have hrank : linkRank rank x z z = rank z := Function.update_of_ne hxy.symm ..
      rw [Function.update_self, hrank]
      exact lt_linkRank rank x z
    · rw [Function.update_of_ne hzy] at hz ⊢
      -- `x` is a root, so the rank of `z` is the old one
      have hzx : z ≠ x := by
        rintro rfl
        exact hz hx
      have hrank : linkRank rank x y z = rank z := Function.update_of_ne hzx ..
      rw [hrank]
      exact (h.rank_lt z hz).trans_le (le_linkRank rank x y _)
  · by_cases hzx : z = x
    · rw [hzx, hrx, if_neg hxy]
    · have hrank : linkRank rank x y z = rank z := Function.update_of_ne hzx ..
      rw [hrank]
      split_ifs with hz
      · have hle := h.rank_le z
        rw [hz] at hle
        exact hle.trans (lt_linkRank rank x y).le
      · exact (h.rank_le z).trans (le_linkRank rank x y _)

/-- Two elements are together after a join if they were together before, or if they are in the two
joined classes. -/
theorem link_eq_iff {u v : α} :
    link root x y u = link root x y v ↔
      root u = root v ∨ (root u = x ∧ root v = y) ∨ (root u = y ∧ root v = x) := by
  unfold link
  -- which of the two elements are in the class of `y`
  split_ifs with hu hv hv
  · simp [hu, hv]
  · rw [hu]
    constructor
    · exact fun h => .inr (.inr ⟨rfl, h.symm⟩)
    · rintro (h | ⟨-, h⟩ | ⟨-, h⟩)
      · exact absurd h.symm hv
      · exact absurd h hv
      · exact h.symm
  · rw [hv]
    constructor
    · exact fun h => .inr (.inl ⟨h, rfl⟩)
    · rintro (h | ⟨h, -⟩ | ⟨h, -⟩)
      · exact absurd h hu
      · exact h
      · exact absurd h hu
  · constructor
    · exact .inl
    · rintro (h | ⟨-, h⟩ | ⟨h, -⟩)
      · exact h
      · exact absurd h hv
      · exact absurd h hu

/-! ## Sizes -/

variable [Fintype α]

/-- The elements with root `r`. -/
def fiber (root : α → α) (r : α) : Finset α := Finset.univ.filter fun z => root z = r

theorem mem_fiber {r z : α} : z ∈ fiber root r ↔ root z = r := by
  simp [fiber]

/-- Each root knows the number of elements of its class, which is large enough for its rank. -/
structure Sized (root : α → α) (rank size : α → ℕ) : Prop where
  size_eq : ∀ r, root r = r → size r = (fiber root r).card
  pow_le : ∀ r, root r = r → 2 ^ rank r ≤ size r

theorem sized_id : Sized (fun x : α => x) (fun _ => 0) fun _ => 1 := by
  refine ⟨fun r _ => ?_, fun _ _ => le_rfl⟩
  rw [eq_comm, Finset.card_eq_one]
  exact ⟨r, by ext z; simp [mem_fiber]⟩

/-- The class of `x` after the join. -/
theorem fiber_link_self (root : α → α) (x y : α) :
    fiber (link root x y) x = fiber root x ∪ fiber root y := by
  ext z
  rw [mem_fiber, Finset.mem_union, mem_fiber, mem_fiber, link]
  split_ifs with hz
  · simp [hz]
  · simp [hz]

/-- The other classes are not affected. -/
theorem fiber_link_of_ne {r : α} (hrx : r ≠ x) (hry : r ≠ y) :
    fiber (link root x y) r = fiber root r := by
  ext z
  rw [mem_fiber, mem_fiber, link]
  split_ifs with hz
  · rw [hz]
    exact ⟨fun h => absurd h.symm hrx, fun h => absurd h.symm hry⟩
  · exact Iff.rfl

/-- Joining by size: the tree of `y` is hung below the root `x` of a tree that is not smaller. -/
theorem Sized.link {size : α → ℕ} (h : Sized root rank size) (hx : root x = x) (hy : root y = y)
    (hxy : x ≠ y) (hsize : size y ≤ size x) :
    Sized (link root x y) (linkRank rank x y) (Function.update size x (size x + size y)) := by
  have hroot {r : α} (hr : UnionFind.link root x y r = r) (hrx : r ≠ x) : root r = r ∧ r ≠ y := by
    unfold UnionFind.link at hr
    split_ifs at hr with hry
    · exact absurd hr.symm hrx
    · exact ⟨hr, fun heq => hry (by rw [hr, heq])⟩
  refine ⟨fun r hr => ?_, fun r hr => ?_⟩
  · by_cases hrx : r = x
    · subst hrx
      have hdisj : Disjoint (fiber root r) (fiber root y) := by
        refine Finset.disjoint_left.2 fun z hz hz' => hxy ?_
        rw [← mem_fiber.1 hz, ← mem_fiber.1 hz']
      rw [Function.update_self, fiber_link_self, Finset.card_union_of_disjoint hdisj,
        h.size_eq r hx, h.size_eq y hy]
    · obtain ⟨hroot, hry⟩ := hroot hr hrx
      rw [Function.update_of_ne hrx, fiber_link_of_ne hrx hry, h.size_eq r hroot]
  · by_cases hrx : r = x
    · subst hrx
      have hpx := h.pow_le r hx
      have hpy := h.pow_le y hy
      rw [Function.update_self, linkRank, Function.update_self]
      -- the rank grows only if both trees have the rank of `y`, and then the size doubles
      rcases max_cases (rank r) (rank y + 1) with ⟨hmax, -⟩ | ⟨hmax, -⟩ <;> rw [hmax]
      · omega
      · rw [pow_succ]
        omega
    · obtain ⟨hroot, hry⟩ := hroot hr hrx
      have hrank : linkRank rank x y r = rank r := Function.update_of_ne hrx ..
      rw [Function.update_of_ne hrx, hrank]
      exact h.pow_le r hroot

/-- A class is not larger than the type. -/
theorem Sized.size_le {size : α → ℕ} (h : Sized root rank size) {r : α} (hr : root r = r) :
    size r ≤ Fintype.card α := by
  rw [h.size_eq r hr]
  exact Finset.card_le_univ _

/-- A join removes one root. -/
theorem card_roots_link (hx : root x = x) (hy : root y = y) (hxy : x ≠ y) :
    (Finset.univ.image (link root x y)).card + 1 = (Finset.univ.image root).card := by
  -- the roots are the remaining ones and `y`
  have himage : Finset.univ.image root = insert y (Finset.univ.image (link root x y)) := by
    ext r
    simp only [Finset.mem_image, Finset.mem_univ, true_and, Finset.mem_insert]
    constructor
    · rintro ⟨z, rfl⟩
      by_cases hz : root z = y
      · exact .inl hz
      · exact .inr ⟨z, if_neg hz⟩
    · rintro (rfl | ⟨z, rfl⟩)
      · exact ⟨r, hy⟩
      · unfold link
        split_ifs
        · exact ⟨x, hx⟩
        · exact ⟨z, rfl⟩
  have hnotMem : y ∉ Finset.univ.image (link root x y) := by
    simp only [Finset.mem_image, Finset.mem_univ, true_and, not_exists]
    intro z hz
    unfold link at hz
    split_ifs at hz with hzy
    · exact hxy hz
    · exact hzy hz
  rw [himage, Finset.card_insert_of_notMem hnotMem]

end UnionFind

import Mathlib.Algebra.Order.Ring.Nat
import Mathlib.Data.List.Forall2
import Mathlib.Data.List.Perm.Basic
import Mathlib.Tactic.Common

/-!
# Matchings between lists

Two lists whose elements are related one to one, in some order. An allocator, for instance, matches
the requests that are alive with the blocks that are in use.

The relation is `Matching`. Related pairs can be added and removed (`Matching.cons`,
`Matching.erase`), and the order of either list does not matter (`Matching.perm_left`,
`Matching.perm_right`). What is known of one list carries over to the other (`Matching.pairwise`,
`Matching.map_perm`).
-/

variable {α β : Type*} {R R' : α → β → Prop} {l l' : List α} {m m' : List β} {x : α} {y : β}

/-- The elements of `l` and `m` are related by `R` one to one. -/
def Matching (R : α → β → Prop) (l : List α) (m : List β) : Prop :=
  ∃ m', List.Forall₂ R l m' ∧ m'.Perm m

namespace Matching

theorem nil : Matching R [] [] := ⟨[], .nil, .refl _⟩

theorem eq_nil (h : Matching R [] m) : m = [] := by
  obtain ⟨m', hm, hperm⟩ := h
  cases hm
  exact hperm.symm.eq_nil

theorem cons (hxy : R x y) (h : Matching R l m) : Matching R (x :: l) (y :: m) := by
  obtain ⟨m', hm, hperm⟩ := h
  exact ⟨y :: m', .cons hxy hm, hperm.cons y⟩

theorem imp (h : Matching R l m) (himp : ∀ x y, R x y → R' x y) : Matching R' l m := by
  obtain ⟨m', hm, hperm⟩ := h
  exact ⟨m', hm.imp himp, hperm⟩

theorem perm_right (h : Matching R l m) (hperm : m.Perm m') : Matching R l m' := by
  obtain ⟨m₁, hm, hperm₁⟩ := h
  exact ⟨m₁, hm, hperm₁.trans hperm⟩

theorem perm_left (h : Matching R l m) (hperm : l'.Perm l) : Matching R l' m := by
  obtain ⟨m₁, hm, hperm₁⟩ := h
  obtain ⟨m₂, hm₂, hperm₂⟩ := List.perm_comp_forall₂ hperm hm
  exact ⟨m₂, hm₂, hperm₂.trans hperm₁⟩

/-- The lists can be exchanged. -/
theorem flip (h : Matching R l m) : Matching (flip R) m l := by
  obtain ⟨m', hm, hperm⟩ := h
  obtain ⟨l', hl, hperm'⟩ := List.perm_comp_forall₂ hperm.symm hm.flip
  exact ⟨l', hl, hperm'⟩

/-- Every element has a partner. -/
theorem exists_of_mem (h : Matching R l m) (hx : x ∈ l) : ∃ y ∈ m, R x y := by
  -- with the element in front, its partner is the first one
  obtain ⟨l₁, l₂, rfl⟩ := List.append_of_mem hx
  obtain ⟨m', hm, hperm⟩ := h.perm_left List.perm_middle.symm
  cases hm with
  | cons hxy _ => exact ⟨_, hperm.mem_iff.1 (List.mem_cons_self ..), hxy⟩

/-- Every element on the right has a partner on the left. -/
theorem exists_of_mem_right (h : Matching R l m) (hy : y ∈ m) : ∃ x ∈ l, R x y :=
  h.flip.exists_of_mem hy

/-- Removing an element and a partner of it. -/
theorem erase [BEq α] [LawfulBEq α] (h : Matching R l m) (hx : x ∈ l) :
    ∃ y m', R x y ∧ m.Perm (y :: m') ∧ Matching R (l.erase x) m' := by
  obtain ⟨m₁, hm, hperm⟩ := h.perm_left (List.perm_cons_erase hx).symm
  cases hm with
  | cons hxy hm => exact ⟨_, _, hxy, hperm.symm, _, hm, .refl _⟩

/-- A relation between any two elements on the right carries over to the left. -/
theorem pairwise {S : β → β → Prop} {T : α → α → Prop} (h : Matching R l m)
    (hsymm : ∀ {y y'}, S y y' → S y' y) (hm : m.Pairwise S)
    (himp : ∀ x y x' y', R x y → R x' y' → S y y' → T x x') : l.Pairwise T := by
  obtain ⟨m', hl, hperm⟩ := h
  -- matched in order, the elements on the right are still related pairwise
  have hm' := (hperm.pairwise_iff hsymm).2 hm
  clear hperm hm
  induction hl with
  | nil => exact .nil
  | @cons x y l m' hxy hl ih =>
    obtain ⟨hhead, htail⟩ := List.pairwise_cons.1 hm'
    refine List.pairwise_cons.2 ⟨fun x' hx' => ?_, ih htail⟩
    obtain ⟨y', hy', hxy'⟩ := exists_of_mem ⟨m', hl, .refl _⟩ hx'
    exact himp x y x' y' hxy hxy' (hhead y' hy')

/-- Values that agree on related elements are the same on both sides. -/
theorem map_perm {γ : Type*} {f : α → γ} {g : β → γ} (h : Matching R l m)
    (himp : ∀ x y, R x y → f x = g y) : (l.map f).Perm (m.map g) := by
  obtain ⟨m', hl, hperm⟩ := h
  have heq : l.map f = m'.map g := by
    clear hperm
    induction hl with
    | nil => rfl
    | cons hxy _ ih => rw [List.map_cons, List.map_cons, himp _ _ hxy, ih]
  rw [heq]
  exact hperm.map g

end Matching

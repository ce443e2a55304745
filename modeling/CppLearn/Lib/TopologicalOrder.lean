import Mathlib.Data.List.Nodup
import Mathlib.Data.Fintype.EquivFin
import Mathlib.Logic.Relation
import Mathlib.Order.WellFounded

/-!
# Orders in which every vertex comes after its predecessors

Lists that are built from the vertices of a directed graph by appending, again and again, a vertex
all of whose predecessors are there. When no more vertex can be appended, the list contains exactly
the vertices that cannot be reached from a cycle.

`Ordered` says that every vertex of the list comes after all its predecessors. `Ordered.mem_iff` are
the vertices of an order that cannot be extended, and `Ordered.idxOf_lt` is the order of the ends of
an edge.
-/

namespace TopologicalOrder

open Relation

variable {V : Type*} {E : V → V → Prop} {l : List V} {u v : V}

/-- A list without repetitions in which every vertex comes after all its predecessors. -/
structure Ordered (E : V → V → Prop) (l : List V) : Prop where
  nodup : l.Nodup
  earlier : ∀ l₁ v l₂, l = l₁ ++ v :: l₂ → ∀ u, E u v → u ∈ l₁

theorem Ordered.nil : Ordered E [] where
  nodup := List.nodup_nil
  earlier l₁ v l₂ h := by simp at h

/-- A vertex whose predecessors are in the list can be appended. -/
theorem Ordered.append (h : Ordered E l) (hv : v ∉ l) (hpred : ∀ u, E u v → u ∈ l) :
    Ordered E (l ++ [v]) := by
  refine ⟨List.nodup_append.2 ⟨h.nodup, List.nodup_singleton v, ?_⟩, fun l₁ x l₂ hl u hu => ?_⟩
  · rintro a ha b hb rfl
    exact hv (List.mem_singleton.1 hb ▸ ha)
  · -- the vertex is the last one, or one of the old ones
    rcases List.eq_nil_or_concat l₂ with rfl | ⟨l₂, y, rfl⟩
    · obtain ⟨rfl, hx⟩ := List.append_inj' hl rfl
      obtain rfl := List.singleton_inj.1 hx
      exact hpred u hu
    · rw [List.concat_eq_append, ← List.cons_append, ← List.append_assoc] at hl
      exact h.earlier l₁ x l₂ (List.append_inj' hl rfl).1 u hu

/-- Everything from which a vertex of the list can be reached comes before it. -/
theorem Ordered.transGen_mem (h : Ordered E l) {l₁ l₂ : List V} (hl : l = l₁ ++ v :: l₂)
    (hu : TransGen E u v) : u ∈ l₁ := by
  induction hu using TransGen.head_induction_on with
  | single hedge => exact h.earlier l₁ v l₂ hl _ hedge
  | head hedge _ ih =>
    obtain ⟨l₃, l₄, rfl⟩ := List.append_of_mem ih
    have hmem := h.earlier l₃ _ (l₄ ++ v :: l₂) (by simpa using hl) _ hedge
    exact List.mem_append_left _ hmem

/-- A vertex of the list is not on a cycle. -/
theorem Ordered.not_transGen (h : Ordered E l) (hv : v ∈ l) : ¬ TransGen E v v := by
  intro hcycle
  obtain ⟨l₁, l₂, rfl⟩ := List.append_of_mem hv
  have hbefore := h.transGen_mem rfl hcycle
  exact (List.nodup_append.1 h.nodup).2.2 v hbefore v List.mem_cons_self rfl

/-- An order that cannot be extended contains the vertices that cannot be reached from a cycle. -/
theorem Ordered.mem_iff [Finite V] (h : Ordered E l)
    (hfull : ∀ v, (∀ u, E u v → u ∈ l) → v ∈ l) :
    v ∈ l ↔ ¬ ∃ c, TransGen E c c ∧ ReflTransGen E c v := by
  constructor
  · rintro hv ⟨c, hcycle, hreach⟩
    refine h.not_transGen (v := c) ?_ hcycle
    rcases reflTransGen_iff_eq_or_transGen.1 hreach with rfl | htrans
    · exact hv
    · obtain ⟨l₁, l₂, hl⟩ := List.append_of_mem hv
      rw [hl]
      exact List.mem_append_left _ (h.transGen_mem hl htrans)
  · intro hno
    -- without cycles, the vertices from which `v` can be reached are well-founded
    let R (x y : {x // ReflTransGen E x v}) : Prop := TransGen E x.1 y.1
    have : IsTrans _ R := ⟨fun _ _ _ => TransGen.trans⟩
    have : Std.Irrefl R := ⟨fun x hx => hno ⟨x.1, hx, x.2⟩⟩
    have hwf : WellFounded R := Finite.wellFounded_of_trans_of_irrefl R
    have hall (x : {x // ReflTransGen E x v}) : x.1 ∈ l := by
      induction x using hwf.induction with
      | h x ih =>
        exact hfull x.1 fun u hu => ih ⟨u, .head hu x.2⟩ (.single hu)
    exact hall ⟨v, .refl⟩

/-- The source of an edge comes before its target. -/
theorem Ordered.idxOf_lt [DecidableEq V] (h : Ordered E l) (hedge : E u v) (hv : v ∈ l) :
    l.idxOf u < l.idxOf v := by
  obtain ⟨l₁, l₂, rfl⟩ := List.append_of_mem hv
  have hu := h.earlier l₁ v l₂ rfl u hedge
  have hv₁ : v ∉ l₁ := fun hmem =>
    (List.nodup_append.1 h.nodup).2.2 v hmem v List.mem_cons_self rfl
  rw [List.idxOf_append_of_mem hu, List.idxOf_append_of_notMem hv₁]
  have := List.idxOf_lt_length_of_mem hu
  omega

end TopologicalOrder

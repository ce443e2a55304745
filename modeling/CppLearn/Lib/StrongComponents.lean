import Mathlib.Data.Set.Card
import Mathlib.Logic.Function.Basic
import Mathlib.Logic.Relation

/-!
# Numbering the strong components of a graph

The strong components of a directed graph are split off one after the other, each one when all
edges that leave it lead to components that were split off before. Their numbers are then a reverse
topological order.

`Strong` are the vertices that reach each other, and a `Numbering` has the numbers and the sizes of
the components of a part of the graph. One more component is `Numbering.add`. It rests on what can
be reached from a closed set (`Closed.reaches`).
-/

namespace StrongComponents

open Relation

variable {V : Type*} {r : V → V → Prop} {S T : Set V} {number : V → ℕ} {count : ℕ} {size : ℕ → ℕ}
  {a b : V}

/-- The vertices reach each other. -/
def Strong (r : V → V → Prop) (a b : V) : Prop := ReflTransGen r a b ∧ ReflTransGen r b a

theorem Strong.refl (a : V) : Strong r a a := ⟨.refl, .refl⟩

theorem Strong.symm (h : Strong r a b) : Strong r b a := ⟨h.2, h.1⟩

theorem Strong.trans {c : V} (h : Strong r a b) (h' : Strong r b c) : Strong r a c :=
  ⟨h.1.trans h'.1, h'.2.trans h.2⟩

/-- No edge leaves the set. -/
def Closed (r : V → V → Prop) (S : Set V) : Prop := ∀ a ∈ S, ∀ b, r a b → b ∈ S

theorem Closed.reaches (h : Closed r S) (ha : a ∈ S) (hab : ReflTransGen r a b) : b ∈ S := by
  induction hab with
  | refl => exact ha
  | tail _ hedge ih => exact h _ ih _ hedge

/-- If the edges that leave `T` lead to the closed set `S`, then `S ∪ T` is closed. -/
theorem Closed.union (h : Closed r S) (hT : ∀ a ∈ T, ∀ b, r a b → b ∈ S ∨ b ∈ T) :
    Closed r (S ∪ T) := by
  rintro a (ha | ha) b hedge
  · exact .inl (h a ha b hedge)
  · exact hT a ha b hedge

/-- The vertices of `S` have the numbers of their components, which are at most `count`, and the
components have the sizes. Along an edge, the number does not become larger. -/
structure Numbering (r : V → V → Prop) (S : Set V) (number : V → ℕ) (count : ℕ) (size : ℕ → ℕ) :
    Prop where
  closed : Closed r S
  pos : ∀ a ∈ S, 1 ≤ number a
  le : ∀ a ∈ S, number a ≤ count
  same : ∀ a ∈ S, ∀ b ∈ S, number a = number b ↔ Strong r a b
  order : ∀ a ∈ S, ∀ b, r a b → number b ≤ number a
  used : ∀ c, 1 ≤ c → c ≤ count → ∃ a ∈ S, number a = c
  size_eq : ∀ c, size c = {a | a ∈ S ∧ number a = c}.ncard

/-- No component. -/
theorem Numbering.empty (number : V → ℕ) : Numbering r ∅ number 0 fun _ => 0 where
  closed := nofun
  pos := nofun
  le := nofun
  same := nofun
  order := nofun
  used c hpos hle := absurd (hpos.trans hle) (Nat.not_succ_le_zero 0)
  size_eq c := by simp

theorem Numbering.size_succ (h : Numbering r S number count size) : size (count + 1) = 0 := by
  have hempty : {a | a ∈ S ∧ number a = count + 1} = ∅ :=
    Set.eq_empty_of_forall_notMem fun a ⟨ha, heq⟩ => by
      have hle := h.le a ha
      omega
  rw [h.size_eq, hempty, Set.ncard_empty]

/-- A set of vertices that reach each other, and whose other edges lead to `S`, is the next
component. -/
theorem Numbering.add {number' : V → ℕ} {size' : ℕ → ℕ} (h : Numbering r S number count size)
    (hdisjoint : ∀ a ∈ T, a ∉ S) (hne : T.Nonempty)
    (hedges : ∀ a ∈ T, ∀ b, r a b → b ∈ S ∨ b ∈ T) (hstrong : ∀ a ∈ T, ∀ b ∈ T, Strong r a b)
    (hold : ∀ a ∈ S, number' a = number a) (hnew : ∀ a ∈ T, number' a = count + 1)
    (hsize : size' = Function.update size (count + 1) (size (count + 1) + T.ncard)) :
    Numbering r (S ∪ T) number' (count + 1) size' := by
  -- the numbers tell the vertices of the two sets apart
  have hlt : ∀ a ∈ S, number' a < count + 1 := fun a ha =>
    (hold a ha).trans_lt (Nat.lt_succ_of_le (h.le a ha))
  refine ⟨h.closed.union hedges, ?_, ?_, ?_, ?_, fun c hpos hle => ?_, fun c => ?_⟩
  · rintro a (ha | ha)
    · exact (h.pos a ha).trans_eq (hold a ha).symm
    · exact (Nat.le_add_left 1 count).trans_eq (hnew a ha).symm
  · rintro a (ha | ha)
    · exact (hlt a ha).le
    · exact (hnew a ha).le
  · rintro a (ha | ha) b (hb | hb)
    · rw [hold a ha, hold b hb]
      exact h.same a ha b hb
    · have hnot : ¬Strong r a b := fun hs => hdisjoint b hb (h.closed.reaches ha hs.1)
      exact iff_of_false (((hlt a ha).trans_eq (hnew b hb).symm).ne) hnot
    · have hnot : ¬Strong r a b := fun hs => hdisjoint a ha (h.closed.reaches hb hs.2)
      exact iff_of_false (((hlt b hb).trans_eq (hnew a ha).symm).ne') hnot
    · exact iff_of_true ((hnew a ha).trans (hnew b hb).symm) (hstrong a ha b hb)
  · rintro a (ha | ha) b hedge
    · rw [hold a ha, hold b (h.closed a ha b hedge)]
      exact h.order a ha b hedge
    · rw [hnew a ha]
      rcases hedges a ha b hedge with hb | hb
      · exact (hlt b hb).le
      · exact (hnew b hb).le
  · rcases hle.lt_or_eq with hlt | rfl
    · obtain ⟨a, ha, hc⟩ := h.used c hpos (Nat.le_of_lt_succ hlt)
      exact ⟨a, .inl ha, (hold a ha).trans hc⟩
    · obtain ⟨a, ha⟩ := hne
      exact ⟨a, .inr ha, hnew a ha⟩
  · rw [hsize]
    rcases eq_or_ne c (count + 1) with rfl | hc
    · rw [Function.update_self, h.size_succ, Nat.zero_add]
      congr 1
      ext a
      refine ⟨fun ha => ⟨.inr ha, hnew a ha⟩, ?_⟩
      rintro ⟨ha | ha, heq⟩
      · exact absurd heq (hlt a ha).ne
      · exact ha
    · rw [Function.update_of_ne hc, h.size_eq]
      congr 1
      ext a
      constructor
      · rintro ⟨ha, heq⟩
        exact ⟨.inl ha, (hold a ha).trans heq⟩
      · rintro ⟨ha | ha, heq⟩
        · exact ⟨ha, (hold a ha).symm.trans heq⟩
        · exact absurd (heq.symm.trans (hnew a ha)) hc

/-- What can be reached from a vertex does not have a larger number. -/
theorem Numbering.number_le (h : Numbering r S number count size) (ha : a ∈ S)
    (hab : ReflTransGen r a b) : number b ≤ number a := by
  induction hab with
  | refl => exact le_rfl
  | tail hab hedge ih => exact (h.order _ (h.closed.reaches ha hab) _ hedge).trans ih

/-- The size of the component of a vertex. -/
theorem Numbering.size_number (h : Numbering r S number count size) (ha : a ∈ S) :
    size (number a) = {b | Strong r a b}.ncard := by
  rw [h.size_eq]
  congr 1
  ext b
  constructor
  · rintro ⟨hb, heq⟩
    exact (h.same a ha b hb).1 heq.symm
  · intro hs
    have hb := h.closed.reaches ha hs.1
    exact ⟨hb, ((h.same a ha b hb).2 hs).symm⟩

end StrongComponents

import Mathlib.Data.Nat.Notation
import Mathlib.Tactic.Common

/-!
# Combining lists by position

Two lists are combined element by element, with a function that also gets the position. Updates of a
list from another one, each of them at some of the positions, can be described in this way.

The combination is `zipIndexed`, and its elements are `getElem_zipIndexed`. When two combinations of
the same lists are equal is `zipIndexed_eq_iff`, and one combination after another one is
`zipIndexed_zipIndexed`.
-/

namespace IndexedZip

variable {α β : Type*} {f g : ℕ → α → β → α} {xs : List α} {ys : List β} {i : ℕ}

/-- Combine the elements at each position `i` by `f i`. -/
def zipIndexed (f : ℕ → α → β → α) (xs : List α) (ys : List β) : List α :=
  List.zipWith (fun x (y : β × ℕ) => f y.2 x y.1) xs ys.zipIdx

theorem length_zipIndexed (f : ℕ → α → β → α) (hlen : xs.length = ys.length) :
    (zipIndexed f xs ys).length = xs.length := by
  simp [zipIndexed, hlen]

@[simp]
theorem getElem_zipIndexed (h : i < (zipIndexed f xs ys).length) (hx : i < xs.length)
    (hy : i < ys.length) : (zipIndexed f xs ys)[i] = f i xs[i] ys[i] := by
  simp [zipIndexed]

/-- Two combinations of the same lists agree if they agree at all positions. -/
theorem zipIndexed_eq_iff (hlen : xs.length = ys.length) :
    zipIndexed f xs ys = zipIndexed g xs ys ↔
      ∀ i (hx : i < xs.length) (hy : i < ys.length), f i xs[i] ys[i] = g i xs[i] ys[i] := by
  have hf := length_zipIndexed f hlen
  have hg := length_zipIndexed g hlen
  constructor
  · intro h i hx hy
    have hi := List.getElem_of_eq h (hf.symm ▸ hx)
    rwa [getElem_zipIndexed _ hx hy, getElem_zipIndexed _ hx hy] at hi
  · intro h
    refine List.ext_getElem (hf.trans hg.symm) fun i hi _ => ?_
    have hx : i < xs.length := hf ▸ hi
    have hy : i < ys.length := hlen ▸ hx
    rw [getElem_zipIndexed _ hx hy, getElem_zipIndexed _ hx hy]
    exact h i hx hy

/-- One combination after another one, with the same second list. -/
theorem zipIndexed_zipIndexed (f g : ℕ → α → β → α) (hlen : xs.length = ys.length) :
    zipIndexed f (zipIndexed g xs ys) ys = zipIndexed (fun i x y => f i (g i x y) y) xs ys := by
  have hg := length_zipIndexed g hlen
  refine List.ext_getElem ?_ fun i hi _ => ?_
  · rw [length_zipIndexed _ (hg.trans hlen), hg, length_zipIndexed _ hlen]
  · have hx : i < xs.length := by rwa [length_zipIndexed _ (hg.trans hlen), hg] at hi
    have hy : i < ys.length := hlen ▸ hx
    rw [getElem_zipIndexed _ (hg.symm ▸ hx) hy, getElem_zipIndexed _ hx hy,
      getElem_zipIndexed _ hx hy]

/-- Nothing is changed. -/
theorem zipIndexed_fst (hlen : xs.length = ys.length) : zipIndexed (fun _ x _ => x) xs ys = xs :=
  List.ext_getElem (length_zipIndexed _ hlen) fun _ _ hx =>
    getElem_zipIndexed _ hx (hlen ▸ hx)

/-- The same function at all positions. -/
theorem zipIndexed_const (op : α → β → α) (hlen : xs.length = ys.length) :
    zipIndexed (fun _ => op) xs ys = List.zipWith op xs ys := by
  refine List.ext_getElem ?_ fun i hi hi' => ?_
  · rw [length_zipIndexed _ hlen, List.length_zipWith, hlen, Nat.min_self]
  · have hx : i < xs.length := by rwa [length_zipIndexed _ hlen] at hi
    rw [getElem_zipIndexed _ hx (hlen ▸ hx), List.getElem_zipWith]

end IndexedZip

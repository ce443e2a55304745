import CppLearn.Lib.BoundedLoop
import Mathlib.Data.List.Basic
import Mathlib.Algebra.Order.Ring.Int
import Mathlib.Logic.Equiv.Basic
import Mathlib.Logic.Function.Basic

/-!
# Vectors with checked accesses

A `std::vector` as the list of its elements. The index of an access (`CheckedVector.read`,
`CheckedVector.write`) is a machine integer, and an access outside the vector is a fault; accesses
below the length return. `CheckedVector.swap` and `CheckedVector.resize` are `std::swap` and the
member function.

Where a vector stands for a function of its indices, `CheckedVector.HasValues` says so: a read then
returns a value of the function, and a write changes one.
-/

namespace CheckedVector

open BoundedLoop

variable {α : Type*}

/-- `v[i]`. -/
def read (v : List α) (i : ℤ) : Except Fault α :=
  if 0 ≤ i then
    match v[i.toNat]? with
    | some x => .ok x
    | none => .error .invalidAccess
  else .error .invalidAccess

/-- `v[i] = x`. -/
def write (v : List α) (i : ℤ) (x : α) : Except Fault (List α) :=
  if 0 ≤ i ∧ i < v.length then .ok (v.set i.toNat x) else .error .invalidAccess

/-- `std::swap(v[i], v[j])`. -/
def swap (v : List α) (i j : ℤ) : Except Fault (List α) := do
  let x ← read v i
  let y ← read v j
  let v ← write v i y
  write v j x

/-- `v.resize(n, x)`: elements are dropped at the end, or copies of `x` are appended. -/
def resize (v : List α) (n : ℕ) (x : α) : List α := v.take n ++ List.replicate (n - v.length) x

variable {v : List α} {i : ℕ} {x d : α}

/-- Below the length, reads return the element, -/
theorem read_ok (h : i < v.length) (d : α) : read v (i : ℤ) = .ok (v.getD i d) := by
  unfold read
  rw [if_pos (Int.natCast_nonneg i), Int.toNat_natCast, List.getD_eq_getElem?_getD,
    List.getElem?_eq_getElem h]
  rfl

/-- which can be written without a default value, -/
theorem read_eq (h : i < v.length) : read v (i : ℤ) = .ok v[i] := by
  rw [read_ok h v[i]]
  simp [h]

/-- and nowhere else. -/
theorem lt_of_read (h : read v (i : ℤ) = .ok x) : i < v.length := by
  by_contra hlen
  unfold read at h
  rw [if_pos (Int.natCast_nonneg i), Int.toNat_natCast,
    List.getElem?_eq_none (Nat.le_of_not_lt hlen)] at h
  exact nomatch h

/-- Below the length, writes return. -/
theorem write_ok (h : i < v.length) (x : α) : write v (i : ℤ) x = .ok (v.set i x) := by
  unfold write
  rw [if_pos ⟨Int.natCast_nonneg i, by omega⟩, Int.toNat_natCast]

/-- They keep the length. -/
theorem write_length {j : ℤ} {w : List α} (h : write v j x = .ok w) : w.length = v.length := by
  unfold write at h
  split_ifs at h
  rw [← Except.ok.inj h, List.length_set]

/-- A write that returns leaves the other elements. -/
theorem write_getD {j : ℤ} {w : List α} (h : write v j x = .ok w) (hij : (i : ℤ) ≠ j) (d : α) :
    w.getD i d = v.getD i d := by
  unfold write at h
  split_ifs at h with hj
  have hne : j.toNat ≠ i := by omega
  rw [← Except.ok.inj h, List.getD_eq_getElem?_getD, List.getD_eq_getElem?_getD,
    List.getElem?_set_ne hne]

/-- The elements after a write. -/
theorem getD_set (h : i < v.length) (x d : α) :
    (fun j => (v.set i x).getD j d) = Function.update (fun j => v.getD j d) i x := by
  funext j
  by_cases hj : j = i
  · subst hj
    simp [List.getD_eq_getElem?_getD, h]
  · rw [Function.update_of_ne hj, List.getD_eq_getElem?_getD, List.getD_eq_getElem?_getD,
      List.getElem?_set_ne (Ne.symm hj)]

/-- An exchange inside the vector returns, and permutes every beginning of it that contains both
places. -/
theorem swap_spec {j : ℕ} (hi : i < v.length) (hj : j < v.length) :
    ∃ w, swap v (i : ℤ) (j : ℤ) = .ok w ∧ w.length = v.length ∧
      (∀ d, (fun k => w.getD k d) = (fun k => v.getD k d) ∘ Equiv.swap i j) ∧
      ∀ n, i < n → j < n → (w.take n).Perm (v.take n) := by
  refine ⟨(v.set i v[j]).set j v[i], ?_, by simp, fun d => ?_, fun n hin hjn => ?_⟩
  · unfold swap
    simp only [read_eq hi, read_eq hj, write_ok hi, bind, Except.bind]
    exact write_ok (by simpa using hj) _
  · rw [getD_set (by simpa using hj), getD_set hi]
    -- the two cells are exchanged, and the others are as before
    funext k
    by_cases hkj : k = j
    · subst hkj
      simp [hi]
    · by_cases hki : k = i
      · subst hki
        simp [hkj, hj]
      · simp [hkj, hki, Equiv.swap_apply_of_ne_of_ne]
  · rw [List.take_set, List.take_set]
    have hi' : i < (v.take n).length := by simp [hi, hin]
    have hj' : j < (v.take n).length := by simp [hj, hjn]
    simpa using List.set_set_perm hi' hj'

/-- An exchange of neighbours. -/
theorem swap_append_cons (a b : List α) (x y : α) :
    swap (a ++ x :: y :: b) (a.length : ℤ) ((a.length + 1 : ℕ) : ℤ) = .ok (a ++ y :: x :: b) := by
  have hi : a.length < (a ++ x :: y :: b).length := by simp
  have hj : a.length + 1 < (a ++ x :: y :: b).length := by simp
  unfold swap
  simp only [read_eq hi, read_eq hj, write_ok hi, bind, Except.bind]
  rw [write_ok (by simp)]
  simp

/-- Adding to one element. -/
theorem getD_set_add [AddMonoid α] (h : i < v.length) (x : α) (j : ℕ) :
    (v.set i (v.getD i 0 + x)).getD j 0 = v.getD j 0 + if j = i then x else 0 := by
  refine (congrFun (getD_set h _ 0) j).trans ?_
  by_cases hj : j = i
  · rw [hj, Function.update_self, if_pos rfl]
  · rw [Function.update_of_ne hj, if_neg hj, add_zero]

/-- The new length. -/
theorem length_resize (v : List α) (n : ℕ) (x : α) : (resize v n x).length = n := by
  unfold resize
  rw [List.length_append, List.length_take, List.length_replicate]
  omega

/-- Nothing happens to a vector of the right length. -/
theorem resize_length (v : List α) (x : α) : resize v v.length x = v := by
  simp [resize]

/-- An empty vector is filled with the value, -/
@[simp]
theorem resize_nil (n : ℕ) (x : α) : resize [] n x = List.replicate n x := by
  simp [resize]

/-- and so is a vector that has no other elements. -/
@[simp]
theorem resize_replicate (m n : ℕ) (x : α) :
    resize (List.replicate m x) n x = List.replicate n x := by
  rw [resize, List.take_replicate, List.length_replicate, List.replicate_append_replicate]
  congr 1
  omega

/-- The elements of such a vector. -/
theorem getD_replicate (n : ℕ) (x : α) (j : ℕ) : (List.replicate n x).getD j x = x := by
  simp only [List.getD_eq_getElem?_getD, List.getElem?_replicate]
  split_ifs <;> rfl

/-! ## Vectors as functions -/

section HasValues

variable {n : ℕ} {f g : ℤ → α} {k : ℤ}

/-- The vector has `n` elements, which are the values of `f`. -/
structure HasValues (v : List α) (n : ℕ) (f : ℤ → α) : Prop where
  length : v.length = n
  getElem : ∀ i < n, v[i]? = some (f i)

/-- Only the values at indices matter. -/
theorem HasValues.congr (h : HasValues v n f) (hfg : ∀ k : ℤ, 0 ≤ k → k < n → f k = g k) :
    HasValues v n g where
  length := h.length
  getElem i hi := by rw [h.getElem i hi, hfg i (Int.natCast_nonneg i) (by omega)]

/-- A vector of equal elements stands for a constant function. -/
theorem hasValues_replicate (n : ℕ) (x : α) : HasValues (List.replicate n x) n fun _ => x where
  length := List.length_replicate
  getElem _ hi := List.getElem?_replicate_of_lt hi

/-- A read returns the value of the function. -/
theorem HasValues.read (h : HasValues v n f) (hk : 0 ≤ k) (hn : k < n) : read v k = .ok (f k) := by
  obtain ⟨i, rfl⟩ := Int.eq_ofNat_of_zero_le hk
  unfold CheckedVector.read
  rw [if_pos hk, Int.toNat_natCast, h.getElem i (by omega)]

/-- A write changes one value. -/
theorem HasValues.write (h : HasValues v n f) (hk : 0 ≤ k) (hn : k < n) (x : α) :
    ∃ w, write v k x = .ok w ∧ HasValues w n (Function.update f k x) := by
  obtain ⟨i, rfl⟩ := Int.eq_ofNat_of_zero_le hk
  have hi : i < v.length := by rw [h.length]; omega
  refine ⟨v.set i x, write_ok hi x, (List.length_set ..).trans h.length, fun j hj => ?_⟩
  rcases eq_or_ne j i with rfl | hne
  · rw [List.getElem?_set_self hi, Function.update_self]
  · rw [List.getElem?_set_ne hne.symm, h.getElem j hj, Function.update_of_ne (by omega)]

/-- A write to a vector whose elements encode the values of `f`. -/
theorem HasValues.write_comp {β : Type*} (e : β → α) {f : ℤ → β}
    (h : HasValues v n fun j => e (f j)) (hk : 0 ≤ k) (hn : k < n) (y : β) :
    ∃ w, CheckedVector.write v k (e y) = .ok w ∧
      HasValues w n fun j => e (Function.update f k y j) := by
  obtain ⟨w, hw, hvalues⟩ := h.write hk hn (e y)
  exact ⟨w, hw, hvalues.congr fun j _ _ =>
    (congrFun (Function.comp_update e f k y) j).symm⟩

end HasValues

end CheckedVector

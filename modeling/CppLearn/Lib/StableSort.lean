import Mathlib.Data.List.Nodup
import Mathlib.Data.List.Perm.Basic
import Mathlib.Data.Nat.Basic
import Mathlib.Order.Lattice
import Mathlib.Order.RelClasses

/-!
# Stable sorting by a key

A stable sort by a key puts the elements in ascending order of their keys, and keeps the order of
those that are alike: none of their keys is smaller than the other one. There is only one such
rearrangement. A stable sort by one key after a stable sort by another one is a stable sort by the
pair of the keys, the last one first.

## Main definitions

* `Alike`: keys that the order does not tell apart;
* `KeepsOrder`: elements whose keys are alike stay in their order;
* `StablySorted`;
* `distribute`: the elements of each key, from the smallest key to the largest one;
* `place`: where an element goes then.

## Main results

* `StablySorted.unique`: what a stable sort returns;
* `StablySorted.andThen`: two stable sorts, one after the other;
* `stablySorted_distribute`: this is how a stable sort by a bounded key looks;
* `eq_distribute`: it is the list that has each element in its place;
* `perm_map_place`: each place is that of one element.
-/

section Definitions

variable {α κ : Type*} [LT κ]

/-- Neither key is smaller than the other one. -/
def Alike (a b : κ) : Prop := ¬a < b ∧ ¬b < a

instance [DecidableLT κ] (a b : κ) : Decidable (Alike a b) :=
  inferInstanceAs (Decidable (_ ∧ _))

/-- The elements whose keys are alike occur in the same order in `v` and `w`. -/
def KeepsOrder [DecidableLT κ] (key : α → κ) (v w : List α) : Prop :=
  ∀ a, w.filter (fun x => Alike (key x) (key a)) = v.filter fun x => Alike (key x) (key a)

/-- The elements of `w` are those of `v`, in ascending order of their keys, and those with keys that
are alike are in the same order. -/
structure StablySorted [LE κ] [DecidableLT κ] (key : α → κ) (v w : List α) : Prop where
  perm : w.Perm v
  sorted : w.Pairwise fun x y => key x ≤ key y
  keeps : KeepsOrder key v w

end Definitions

section Alike

variable {κ : Type*} [Preorder κ] {a b c : κ}

namespace Alike

/-- A key is like itself. -/
theorem refl (a : κ) : Alike a a := ⟨lt_irrefl a, lt_irrefl a⟩

/-- Being alike is symmetric. -/
theorem symm (h : Alike a b) : Alike b a := ⟨h.2, h.1⟩

end Alike

variable [@Std.Total κ (· ≤ ·)]

/-- In a total preorder one of two keys is not less. -/
theorem le_of_not_lt (h : ¬b < a) : a ≤ b := by
  rcases Std.Total.total (r := fun x y : κ => x ≤ y) a b with hab | hba
  · exact hab
  · exact not_not.1 fun hab => h (lt_of_le_not_ge hba hab)

/-- Keys are alike if each is at most the other. -/
theorem alike_iff : Alike a b ↔ a ≤ b ∧ b ≤ a :=
  ⟨fun h => ⟨le_of_not_lt h.2, le_of_not_lt h.1⟩, fun h => ⟨h.2.not_gt, h.1.not_gt⟩⟩

end Alike

/-- An element before others that it is not related to. -/
theorem not_pairwise_cons_replicate {α : Type*} {R : α → α → Prop} {a b : α} {n : ℕ} (h : ¬R a b)
    (hn : n ≠ 0) : ¬(a :: List.replicate n b).Pairwise R := fun hsorted =>
  h ((List.pairwise_cons.1 hsorted).1 b (List.mem_replicate.2 ⟨hn, rfl⟩))

/-- In a linear order, alike keys are equal. -/
theorem alike_iff_eq {κ : Type*} [LinearOrder κ] {a b : κ} : Alike a b ↔ a = b := by
  rw [alike_iff, le_antisymm_iff]

variable {α κ κ₁ κ₂ : Type*} [Preorder κ] [DecidableLT κ] [Preorder κ₁] [DecidableLT κ₁]
  [Preorder κ₂] [DecidableLT κ₂] {key : α → κ} {u v w : List α}

namespace KeepsOrder

theorem refl (key : α → κ) (v : List α) : KeepsOrder key v v := fun _ => rfl

/-- Two steps that keep the order of alike elements. -/
theorem trans (h : KeepsOrder key v w) (h' : KeepsOrder key w u) : KeepsOrder key v u :=
  fun a => (h' a).trans (h a)

/-- An exchange of neighbours that are in the wrong order. -/
theorem of_lt [@Std.Total κ (· ≤ ·)] {x y : α} (h : key y < key x) (a b : List α) :
    KeepsOrder key (a ++ x :: y :: b) (a ++ y :: x :: b) := by
  intro c
  simp only [List.filter_append, List.filter_cons, decide_eq_true_eq]
  by_cases hx : Alike (key x) (key c)
  · have hy : ¬Alike (key y) (key c) := fun hy =>
      h.not_ge ((alike_iff.1 hx).1.trans (alike_iff.1 hy).2)
    rw [if_neg hy, if_neg hy]
  · rw [if_neg hx, if_neg hx]

end KeepsOrder

namespace StablySorted

variable [@Std.Total κ (· ≤ ·)]

/-- A list in ascending order is determined by the elements of each key. -/
theorem eq_of_filter_eq (hv : v.Pairwise fun x y => key x ≤ key y)
    (hw : w.Pairwise fun x y => key x ≤ key y)
    (h : ∀ a, w.filter (fun x => Alike (key x) (key a)) =
      v.filter fun x => Alike (key x) (key a)) : w = v := by
  induction w generalizing v with
  | nil =>
    cases v with
    | nil => rfl
    | cons y v => simpa [Alike.refl] using h y
  | cons x w ih =>
    cases v with
    | nil => simpa [Alike.refl] using h x
    | cons y v =>
      rw [List.pairwise_cons] at hv hw
      -- each of the first elements occurs in the other list, so their keys are alike
      have hx : x ∈ y :: v := by
        have hmem : x ∈ (x :: w).filter fun z => Alike (key z) (key x) := by
          simp [Alike.refl]
        rw [h x] at hmem
        exact (List.mem_filter.1 hmem).1
      have hy : y ∈ x :: w := by
        have hmem : y ∈ (y :: v).filter fun z => Alike (key z) (key y) := by
          simp [Alike.refl]
        rw [← h y] at hmem
        exact (List.mem_filter.1 hmem).1
      have hyx : key y ≤ key x := by
        rcases List.mem_cons.1 hx with rfl | hx
        · exact le_rfl
        · exact hv.1 x hx
      have hxy : key x ≤ key y := by
        rcases List.mem_cons.1 hy with rfl | hy
        · exact le_rfl
        · exact hw.1 y hy
      have hyx' : Alike (key y) (key x) := alike_iff.2 ⟨hyx, hxy⟩
      obtain rfl : x = y := by
        have hfirst := h x
        simp only [List.filter_cons, Alike.refl, hyx', decide_true, if_true] at hfirst
        exact (List.cons.inj hfirst).1
      rw [ih hv.2 hw.2 fun a => ?_]
      have htail := h a
      by_cases ha : Alike (key x) (key a)
      · simpa [ha] using htail
      · simpa [ha] using htail

/-- There is only one stable sort. -/
theorem unique (h : StablySorted key v w) (h' : StablySorted key v u) : w = u :=
  eq_of_filter_eq h'.sorted h.sorted fun a => (h.keeps a).trans (h'.keeps a).symm

/-- A stable sort by `key₁`, and then by `key₂`. -/
theorem andThen [@Std.Total κ₁ (· ≤ ·)] [@Std.Total κ₂ (· ≤ ·)] {key₁ : α → κ₁} {key₂ : α → κ₂}
    (h₁ : StablySorted key₁ v w) (h₂ : StablySorted key₂ w u)
    (hle : ∀ x y, key x ≤ key y ↔
      key₂ x < key₂ y ∨ Alike (key₂ x) (key₂ y) ∧ key₁ x ≤ key₁ y) : StablySorted key v u := by
  -- keys are alike if both of their components are
  have halike : ∀ x a, Alike (key x) (key a) ↔
      Alike (key₁ x) (key₁ a) ∧ Alike (key₂ x) (key₂ a) := by
    intro x a
    rw [alike_iff, hle, hle, alike_iff (a := key₁ x)]
    constructor
    · rintro ⟨hxa | ⟨hxa, hle₁⟩, hax | ⟨hax, hge₁⟩⟩
      · exact absurd hax hxa.not_gt
      · exact absurd hxa hax.2
      · exact absurd hax hxa.2
      · exact ⟨⟨hle₁, hge₁⟩, hxa⟩
    · rintro ⟨⟨hle₁, hge₁⟩, hxa⟩
      exact ⟨.inr ⟨hxa, hle₁⟩, .inr ⟨hxa.symm, hge₁⟩⟩
  refine ⟨h₂.perm.trans h₁.perm, ?_, fun a => ?_⟩
  · rw [List.pairwise_iff_forall_sublist]
    intro x y hxy
    rw [hle]
    have hle₂ := List.pairwise_iff_forall_sublist.1 h₂.sorted hxy
    by_cases hlt : key₂ x < key₂ y
    · exact .inl hlt
    · -- the first sort has put them in this order
      have hyx : Alike (key₂ x) (key₂ y) := ⟨hlt, hle₂.not_gt⟩
      have hsub := hxy.filter fun z => decide (Alike (key₂ z) (key₂ y))
      rw [h₂.keeps y] at hsub
      simp only [List.filter_cons, hyx, Alike.refl, decide_true, if_true, List.filter_nil] at hsub
      exact .inr ⟨hyx, List.pairwise_iff_forall_sublist.1 h₁.sorted
        (hsub.trans List.filter_sublist)⟩
  · simp only [halike, Bool.decide_and]
    rw [← List.filter_filter, h₂.keeps a, List.filter_comm, h₁.keeps a, List.filter_comm,
      List.filter_filter]

end StablySorted

/-! ## Bounded keys -/

section Distribute

variable {key : α → ℕ} {K c i j k n : ℕ}

/-- The elements with keys below `K`, those of each key in their order. -/
def distribute (key : α → ℕ) (v : List α) : ℕ → List α
  | 0 => []
  | k + 1 => distribute key v k ++ v.filter fun x => key x = k

/-- The number of the elements with keys below `k`. -/
def offset (key : α → ℕ) (v : List α) (k : ℕ) : ℕ := v.countP fun x => key x < k

/-- The elements with the key `k` come next. -/
theorem offset_succ (key : α → ℕ) (v : List α) (k : ℕ) :
    offset key v (k + 1) = offset key v k + v.countP fun x => key x = k := by
  induction v with
  | nil => rfl
  | cons x v ih =>
    unfold offset at ih ⊢
    simp only [List.countP_cons, ih, decide_eq_true_eq]
    split_ifs <;> omega

/-- Larger keys have larger offsets. -/
theorem offset_mono (key : α → ℕ) (v : List α) (h : j ≤ k) : offset key v j ≤ offset key v k := by
  refine List.countP_mono_left fun x _ hx => ?_
  rw [decide_eq_true_eq] at hx ⊢
  exact hx.trans_le h

/-- The offset behind all keys is the length. -/
theorem offset_of_forall (h : ∀ x ∈ v, key x < K) : offset key v K = v.length := by
  rw [offset, List.countP_eq_length]
  exact fun x hx => by simpa using h x hx

/-- The offset of a key is the length of what is in front of it. -/
theorem length_distribute (key : α → ℕ) (v : List α) (k : ℕ) :
    (distribute key v k).length = offset key v k := by
  induction k with
  | zero => simp [distribute, offset]
  | succ k ih =>
    rw [distribute, List.length_append, ih, ← List.countP_eq_length_filter, offset_succ]

/-- The result as the concatenation of the buckets. -/
theorem distribute_eq_flatMap (key : α → ℕ) (v : List α) (K : ℕ) :
    distribute key v K = (List.range K).flatMap fun k => v.filter fun x => key x = k := by
  induction K with
  | zero => rfl
  | succ K ih => rw [distribute, ih, List.range_succ, List.flatMap_append, List.flatMap_singleton]

/-- Elements with small keys have been distributed. -/
theorem mem_distribute {x : α} : x ∈ distribute key v k ↔ x ∈ v ∧ key x < k := by
  induction k with
  | zero => simp [distribute]
  | succ k ih =>
    rw [distribute, List.mem_append, ih, List.mem_filter, decide_eq_true_eq,
      Nat.lt_succ_iff_lt_or_eq, and_or_left]

/-- Each further key adds elements at the end. -/
theorem distribute_mono (key : α → ℕ) (v : List α) (h : j ≤ k) :
    distribute key v j <+: distribute key v k := by
  induction h with
  | refl => exact List.prefix_refl _
  | step _ ih => exact ih.trans (List.prefix_append _ _)

/-- The elements of the key `k` begin at the offset of the key. -/
theorem getElem?_distribute (hk : k < K) (hc : c < v.countP fun x => key x = k) :
    (distribute key v K)[offset key v k + c]? = (v.filter fun x => key x = k)[c]? := by
  obtain ⟨rest, hrest⟩ := distribute_mono key v (Nat.succ_le_of_lt hk)
  rw [← hrest, distribute, List.append_assoc,
    List.getElem?_append_right (by rw [length_distribute]; omega), length_distribute,
    Nat.add_sub_cancel_left, List.getElem?_append_left (by rwa [← List.countP_eq_length_filter])]

/-- The elements with one key are in their old order. -/
theorem filter_distribute (key : α → ℕ) (v : List α) (k a : ℕ) :
    (distribute key v k).filter (fun x => key x = a) =
      if a < k then v.filter fun x => key x = a else [] := by
  induction k with
  | zero => simp [distribute]
  | succ k ih =>
    rw [distribute, List.filter_append, ih, List.filter_filter]
    rcases eq_or_ne a k with rfl | hne
    · simp
    · have hnone : v.filter (fun x => decide (key x = a) && decide (key x = k)) = [] := by
        rw [List.filter_eq_nil_iff]
        intro x _ hx
        simp only [Bool.and_eq_true, decide_eq_true_eq] at hx
        exact hne (hx.1.symm.trans hx.2)
      rw [hnone, List.append_nil]
      exact if_congr (by omega) rfl rfl

/-- No element is lost. -/
theorem distribute_perm (key : α → ℕ) (v : List α) (k : ℕ) :
    (distribute key v k).Perm (v.filter fun x => key x < k) := by
  induction k with
  | zero => simp [distribute]
  | succ k ih =>
    refine (ih.append_right _).trans ?_
    have hsplit := List.filter_append_perm (fun x => decide (key x < k))
      (v.filter fun x => key x < k + 1)
    rw [List.filter_filter, List.filter_filter] at hsplit
    refine .trans (.of_eq ?_) hsplit
    congr 1 <;> refine List.filter_congr fun x _ => ?_
    · rw [Bool.eq_iff_iff, Bool.and_eq_true, decide_eq_true_eq, decide_eq_true_eq]
      omega
    · rw [Bool.eq_iff_iff, Bool.and_eq_true, Bool.not_eq_true', decide_eq_false_iff_not,
        decide_eq_true_eq, decide_eq_true_eq]
      omega

/-- The result is sorted, -/
theorem pairwise_distribute (key : α → ℕ) (v : List α) (k : ℕ) :
    (distribute key v k).Pairwise fun x y => key x ≤ key y := by
  induction k with
  | zero => exact .nil
  | succ k ih =>
    rw [distribute, List.pairwise_append]
    refine ⟨ih, ?_, fun x hx y hy => ?_⟩
    · refine List.pairwise_of_forall_mem_list fun x hx y hy => ?_
      rw [List.mem_filter, decide_eq_true_eq] at hx hy
      exact (hx.2.trans hy.2.symm).le
    · rw [List.mem_filter, decide_eq_true_eq] at hy
      exact ((mem_distribute.1 hx).2.trans_eq hy.2.symm).le

/-- and alike elements keep their order. -/
theorem stablySorted_distribute (h : ∀ x ∈ v, key x < K) :
    StablySorted key v (distribute key v K) := by
  refine ⟨?_, pairwise_distribute key v K, fun a => ?_⟩
  · refine (distribute_perm key v K).trans (.of_eq ?_)
    rw [List.filter_eq_self]
    exact fun x hx => by simpa using h x hx
  · simp only [alike_iff_eq]
    rw [filter_distribute]
    split_ifs with ha
    · rfl
    · rw [eq_comm, List.filter_eq_nil_iff]
      intro x hx hxa
      rw [decide_eq_true_eq] at hxa
      exact ha (hxa ▸ h x hx)

/-- The place of the element at position `i`, which has the key `k`: the elements with smaller keys
are before it, and those with the same key that were before it. -/
def place (key : α → ℕ) (v : List α) (k i : ℕ) : ℕ :=
  offset key v k + (v.take i).countP fun x => key x = k

/-- After the last element of its bucket, the next bucket begins. -/
theorem place_length (key : α → ℕ) (v : List α) (k : ℕ) :
    place key v k v.length = offset key v (k + 1) := by
  rw [place, List.take_length, offset_succ]

/-- An element moves the place of its own key by one. -/
theorem place_succ (key : α → ℕ) {x : α} (hx : v[i]? = some x) (k : ℕ) :
    place key v k (i + 1) = place key v k i + if key x = k then 1 else 0 := by
  rw [place, place, List.take_add_one, hx, List.countP_append, Nat.add_assoc]
  simp [List.countP_cons]

/-- Places only move to the right. -/
theorem place_mono (key : α → ℕ) (v : List α) (k : ℕ) (h : i ≤ j) :
    place key v k i ≤ place key v k j :=
  Nat.add_le_add_left ((List.take_prefix_take_left h).sublist.countP_le) _

/-- An element is put inside its bucket. -/
theorem place_lt (key : α → ℕ) {x : α} (hx : v[i]? = some x) :
    place key v (key x) i < offset key v (key x + 1) := by
  have hlen : i + 1 ≤ v.length := (List.getElem?_eq_some_iff.1 hx).1
  have hsucc := place_succ key hx (key x)
  have hmono := place_mono key v (key x) hlen
  rw [place_length] at hmono
  rw [if_pos rfl] at hsucc
  omega

/-- Two elements are put at different places. -/
theorem place_inj {x y : α} (hx : v[i]? = some x) (hy : v[j]? = some y)
    (h : place key v (key x) i = place key v (key y) j) : i = j := by
  -- elements with a smaller key are before the offset of the larger key
  have hkey : ∀ {i j x y}, v[i]? = some x → place key v (key x) i = place key v (key y) j →
      ¬key x < key y := by
    intro i j x y hx h hlt
    have hmono := offset_mono key v (show key x + 1 ≤ key y from hlt)
    have hplace := place_lt key hx
    have hge : offset key v (key y) ≤ place key v (key y) j := Nat.le_add_right _ _
    omega
  -- elements of one key are in their order
  have hindex : ∀ {i j x y}, v[i]? = some x → key x = key y →
      place key v (key x) i = place key v (key y) j → ¬i < j := by
    intro i j x y hx hxy h hlt
    have hmono := place_mono key v (key x) (show i + 1 ≤ j from hlt)
    have hsucc := place_succ key hx (key x)
    rw [if_pos rfl] at hsucc
    rw [← hxy] at h
    omega
  have heq : key x = key y :=
    Nat.le_antisymm (Nat.not_lt.1 (hkey hy h.symm)) (Nat.not_lt.1 (hkey hx h))
  exact Nat.le_antisymm (Nat.not_lt.1 (hindex hy heq.symm h.symm)) (Nat.not_lt.1 (hindex hx heq h))

/-- The element at position `i` is number `(v.take i).countP p` of those with the property. -/
theorem getElem?_filter_countP {p : α → Bool} {x : α} (hx : v[i]? = some x) (hp : p x = true) :
    (v.filter p)[(v.take i).countP p]? = some x := by
  induction v generalizing i with
  | nil => simp at hx
  | cons y v ih =>
    cases i with
    | zero =>
      obtain rfl : y = x := by simpa using hx
      simp [hp]
    | succ i =>
      rw [List.getElem?_cons_succ] at hx
      rw [List.take_succ_cons, List.countP_cons, List.filter_cons]
      split_ifs with hy
      · exact ih hx
      · exact ih hx

/-- The element is found at its place. -/
theorem getElem?_distribute_place {x : α} (hx : v[i]? = some x) (hK : key x < K) :
    (distribute key v K)[place key v (key x) i]? = some x := by
  have hlt := place_lt key hx
  rw [offset_succ] at hlt
  rw [place, getElem?_distribute hK (by unfold place at hlt; omega)]
  exact getElem?_filter_countP hx (by simp)

/-- Each place is that of one element. -/
theorem perm_map_place (hK : ∀ x ∈ v, key x < K) (d : α) :
    ((List.range v.length).map fun i => place key v (key (v.getD i d)) i).Perm
      (List.range v.length) := by
  have hget : ∀ i < v.length, v[i]? = some (v.getD i d) := by
    intro i hi
    simp [hi]
  have hlt : ∀ i < v.length, place key v (key (v.getD i d)) i < v.length := by
    intro i hi
    refine (place_lt key (hget i hi)).trans_le ?_
    rw [← offset_of_forall hK]
    exact offset_mono key v (hK _ (List.mem_of_getElem? (hget i hi)))
  refine (List.subperm_of_subset ?_ fun p hp => ?_).perm_of_length_le (by simp)
  · refine List.Nodup.map_on (fun i hi j hj hij => ?_) List.nodup_range
    rw [List.mem_range] at hi hj
    exact place_inj (hget i hi) (hget j hj) hij
  · obtain ⟨i, hi, rfl⟩ := List.mem_map.1 hp
    rw [List.mem_range] at hi ⊢
    exact hlt i hi

/-- Each element in its place. -/
theorem eq_distribute (hK : ∀ x ∈ v, key x < K) (hlen : w.length = v.length)
    (h : ∀ i x, v[i]? = some x → w[place key v (key x) i]? = some x) :
    w = distribute key v K := by
  refine List.ext_getElem? fun p => ?_
  by_cases hp : p < v.length
  · obtain ⟨d, -⟩ : ∃ d, v[0]? = some d := ⟨v[0], List.getElem?_eq_getElem (by omega)⟩
    obtain ⟨i, hi, rfl⟩ := List.mem_map.1 ((perm_map_place hK d).mem_iff.2 (List.mem_range.2 hp))
    have hx : v[i]? = some (v.getD i d) := by
      simp [List.mem_range.1 hi]
    rw [h i _ hx, getElem?_distribute_place hx (hK _ (List.mem_of_getElem? hx))]
  · have hlen' : (distribute key v K).length = v.length := by
      rw [length_distribute, offset_of_forall hK]
    rw [List.getElem?_eq_none (by omega), List.getElem?_eq_none (by omega)]

end Distribute

import CppLearn.Lib.StableSort
import CppLearn.Sorting.Defs

/-!
# Counting elements

`radix_sort` and `counting_sort` count the elements of each key, add up the counts, and go back
through the elements, each of which takes the last free place of its key. Each position is written
once, and the elements of a key stay in their order.

There is one lemma for each of the three loops: `countKeys_spec`, `addPreviouses_spec`, and
`placeElements_spec` with the invariant `Placed`. The procedure is `countingSort_sorts`.
-/

namespace CppLearn.Sorting

open BoundedLoop CheckedVector Signed

variable {key : ℤ → Except Fault ℤ} {κ : ℤ → ℕ} {v w : List ℤ} {x : ℤ} {i k m K : ℕ}

/-! ## The loops -/

theorem offset_le_length (v : List ℤ) (k : ℕ) : offset κ v k ≤ v.length := List.countP_le_length

/-- The number of elements of each key. -/
theorem countKeys_spec (hkey : ∀ x ∈ v, key x = .ok (κ x)) (hK : ∀ x ∈ v, κ x < K)
    (hlen : v.length < 2 ^ 31) :
    ∃ count, forLoop 0 v.length (fun i => countKey key v i) (List.replicate K 0) = .ok count ∧
      (count.length = K ∧ ∀ k, count.getD k 0 = (v.countP fun x => κ x = k : ℕ)) := by
  suffices h : ∃ count, forLoop 0 v.length (fun i => countKey key v i) (List.replicate K 0) =
      .ok count ∧ (count.length = K ∧
        ∀ k, count.getD k 0 = ((v.take v.length).countP fun x => κ x = k : ℕ)) by
    rwa [List.take_length] at h
  -- the counts of the keys of the first `i` elements
  refine forLoop_spec (I := fun i (count : List ℤ) => count.length = K ∧
    ∀ k, count.getD k 0 = ((v.take i).countP fun x => κ x = k : ℕ)) ?_ (Nat.zero_le _)
    ⟨List.length_replicate .., fun k => by rw [getD_replicate]; rfl⟩
  rintro i count - hi ⟨hcount, hget⟩
  have hx : v[i] ∈ v := List.getElem_mem hi
  have hread : read v (i : ℤ) = .ok v[i] := read_eq hi
  have hread' : read count (κ v[i] : ℤ) = .ok (count.getD (κ v[i]) 0) :=
    read_ok (by rw [hcount]; exact hK _ hx) 0
  have hle : ((v.take i).countP fun x => κ x = κ v[i]) ≤ i :=
    List.countP_le_length.trans (List.length_take_le ..)
  have hnarrow : narrow 32 (count.getD (κ v[i]) 0 + 1) = count.getD (κ v[i]) 0 + 1 := by
    rw [hget]
    exact narrow_eq ⟨by omega, by omega⟩
  refine ⟨count.set (κ v[i]) (count.getD (κ v[i]) 0 + 1), ?_, by simpa using hcount, fun k => ?_⟩
  · rw [countKey, hread, ok_bind, hkey _ hx, ok_bind, hread', ok_bind, hnarrow]
    exact write_ok (by rw [hcount]; exact hK _ hx) _
  · rw [getD_set_add (by rw [hcount]; exact hK _ hx), hget, List.take_succ_eq_append_getElem hi,
      List.countP_append]
    simp [List.countP_cons, eq_comm]

/-- The number of elements up to each key. -/
theorem addPreviouses_spec {count : List ℤ} (hm : 1 ≤ m) (hmK : m ≤ count.length)
    (hlen : v.length < 2 ^ 31)
    (hcount : ∀ k, count.getD k 0 = (v.countP fun x => κ x = k : ℕ)) :
    ∃ count', forLoop 1 m (fun i => addPrevious i) count = .ok count' ∧
      (count'.length = count.length ∧ ∀ k < m, count'.getD k 0 = (offset κ v (k + 1) : ℕ)) := by
  suffices h : ∃ count', forLoop 1 m (fun i => addPrevious i) count = .ok count' ∧
      (count'.length = count.length ∧ (∀ k < m, count'.getD k 0 = (offset κ v (k + 1) : ℕ)) ∧
        ∀ k, m ≤ k → count'.getD k 0 = count.getD k 0) by
    obtain ⟨count', hrun, hlen', hget, -⟩ := h
    exact ⟨count', hrun, hlen', hget⟩
  -- the first `i` counts are sums, and the others are still those of the single keys
  refine forLoop_spec (I := fun i (count' : List ℤ) => count'.length = count.length ∧
    (∀ k < i, count'.getD k 0 = (offset κ v (k + 1) : ℕ)) ∧
    ∀ k, i ≤ k → count'.getD k 0 = count.getD k 0) ?_ hm ⟨rfl, fun k hk => ?_, fun _ _ => rfl⟩
  · rintro i count' hi him ⟨hlen', hget, hrest⟩
    obtain ⟨i, rfl⟩ := Nat.exists_eq_add_of_le' hi
    have hprev : ((i + 1 : ℕ) : ℤ) - 1 = i := by omega
    have hread : read count' ((i + 1 : ℕ) : ℤ) = .ok (count'.getD (i + 1) 0) :=
      read_ok (by omega) 0
    have hread' : read count' (i : ℤ) = .ok (count'.getD i 0) := read_ok (by omega) 0
    have hsum : count'.getD (i + 1) 0 + count'.getD i 0 = (offset κ v (i + 1 + 1) : ℕ) := by
      rw [hrest (i + 1) le_rfl, hcount, hget i (Nat.lt_succ_self i), offset_succ κ v (i + 1)]
      omega
    have hle := offset_le_length (κ := κ) v (i + 1 + 1)
    refine ⟨count'.set (i + 1) (offset κ v (i + 1 + 1) : ℕ), ?_, by simpa using hlen',
      fun k hk => ?_, fun k hk => ?_⟩
    · rw [addPrevious, hread, ok_bind, hprev, hread', ok_bind, hsum, narrow_natCast (by omega)]
      exact write_ok (by omega) _
    · rw [congrFun (getD_set (by omega) _ 0) k]
      rcases eq_or_ne k (i + 1) with rfl | hne
      · rw [Function.update_self]
      · rw [Function.update_of_ne hne]
        exact hget k (by omega)
    · rw [congrFun (getD_set (by omega) _ 0) k, Function.update_of_ne (by omega)]
      exact hrest k (by omega)
  · rw [hcount, Nat.lt_one_iff.1 hk, offset_succ]
    simp [offset]

/-- The elements from position `i` on are in their places, and those places were written. The counts
are the numbers of the places that are left up to each key. -/
structure Placed (κ : ℤ → ℕ) (v : List ℤ) (m i : ℕ) (s : PlaceState) : Prop where
  length_v : s.v.length = v.length
  length_count : m ≤ s.count.length
  count : ∀ k < m, s.count.getD k 0 = (place κ v k i : ℕ)
  written : s.written =
    (List.range' i (v.length - i)).map fun j => (place κ v (κ (v.getD j 0)) j : ℤ)
  get : ∀ j x, i ≤ j → v[j]? = some x → s.v[place κ v (κ x) j]? = some x

/-- Each element takes the last free place of its key. -/
theorem placeStep_spec {s : PlaceState} (hkey : ∀ x ∈ v, key x = .ok (κ x))
    (hK : ∀ x ∈ v, κ x < m) (hlen : v.length < 2 ^ 31) (hi : i < v.length)
    (h : Placed κ v m (i + 1) s) :
    ∃ s', placeStep key v i s = .ok s' ∧ Placed κ v m i s' := by
  have hx : v[i] ∈ v := List.getElem_mem hi
  have hget : v[i]? = some v[i] := List.getElem?_eq_getElem hi
  have hk : κ v[i] < s.count.length := (hK _ hx).trans_le h.length_count
  -- the count is one more than the last free place of the key
  have hplace : s.count.getD (κ v[i]) 0 - 1 = (place κ v (κ v[i]) i : ℕ) := by
    rw [h.count _ (hK _ hx), place_succ κ hget, if_pos rfl]
    omega
  have hlt : place κ v (κ v[i]) i < s.v.length := by
    rw [h.length_v]
    exact (place_lt κ hget).trans_le (offset_le_length v _)
  have hlt' : 2 * place κ v (κ v[i]) i < 2 ^ 32 := by
    rw [h.length_v] at hlt
    omega
  refine ⟨⟨s.v.set (place κ v (κ v[i]) i) v[i], s.count.set (κ v[i]) (place κ v (κ v[i]) i : ℕ),
    place κ v (κ v[i]) i :: s.written⟩, ?_, by simpa using h.length_v,
    by simpa using h.length_count, fun k hkm => ?_, ?_, fun j x hj hxj => ?_⟩
  · rw [placeStep, read_eq hi, ok_bind, hkey _ hx, ok_bind, read_ok hk 0, ok_bind, hplace,
      narrow_natCast hlt', write_ok hlt, ok_bind, write_ok hk, ok_bind]
  · rw [congrFun (getD_set hk _ 0) k]
    rcases eq_or_ne k (κ v[i]) with rfl | hne
    · rw [Function.update_self]
    · rw [Function.update_of_ne hne, h.count k hkm, place_succ κ hget, if_neg hne.symm,
        Nat.add_zero]
  · have hrange : v.length - i = v.length - (i + 1) + 1 := by omega
    rw [h.written, hrange, List.range'_succ, List.map_cons]
    simp [hi]
  · rcases hj.eq_or_lt with rfl | hj
    · rw [hget] at hxj
      obtain rfl := Option.some.inj hxj
      rw [List.getElem?_set_self hlt]
    · -- no two elements have the same place
      rw [List.getElem?_set_ne]
      · exact h.get j x hj hxj
      · exact fun heq => hj.ne (place_inj hget hxj heq)

/-- Each position is written once, and then the elements of each key follow those of the smaller
keys. -/
theorem placeElements_spec {count : List ℤ} (hkey : ∀ x ∈ v, key x = .ok (κ x))
    (hK : ∀ x ∈ v, κ x < m) (hlen : v.length < 2 ^ 31) (hm : m ≤ count.length)
    (hcount : ∀ k < m, count.getD k 0 = (offset κ v (k + 1) : ℕ)) :
    ∃ s, forDown ((v.length : ℤ) - 1) (placeStep key v) ⟨v, count, []⟩ = .ok s ∧
      s.v = distribute κ v m ∧
      s.written.Perm ((List.range v.length).map fun i : ℕ => (i : ℤ)) := by
  have hstart : Placed κ v m v.length ⟨v, count, []⟩ := by
    refine ⟨rfl, hm, fun k hk => by rw [place_length, hcount k hk], by simp, fun j x hj hx => ?_⟩
    rw [List.getElem?_eq_none hj] at hx
    cases hx
  obtain ⟨s, hrun, h⟩ := forDown_spec (I := Placed κ v m)
    (fun i s hi h => placeStep_spec hkey hK hlen hi h) hstart
  refine ⟨s, hrun, eq_distribute hK h.length_v fun i x hx => h.get i x (Nat.zero_le i) hx, ?_⟩
  have hperm := (perm_map_place hK 0).map fun i : ℕ => (i : ℤ)
  rw [List.map_map] at hperm
  rw [h.written, Nat.sub_zero, ← List.range_eq_range']
  exact hperm

/-- The positions go from the last one down to the first one. -/
theorem lastPosition_eq (hlen : v.length < 2 ^ 31) :
    narrow 32 ((v.length : ℤ) - 1) = (v.length : ℤ) - 1 :=
  narrow_eq ⟨by omega, by omega⟩

/-- With 2 ^ 31 + 1 elements, the last position is converted to a negative number. -/
theorem lastPosition_neg (x y : ℤ) :
    narrow 32 (((x :: List.replicate (2 ^ 31) y).length : ℤ) - 1) < 0 := by
  rw [List.length_cons, List.length_replicate]
  decide

/-! ## `counting_sort` -/

/-- `counting_sort` stays inside both vectors, writes each position once and sorts. -/
theorem countingSort_sorts (v : List ℤ) (maxValue : ℤ) (hmax : maxValue + 1 ≤ maxSize)
    (hmax' : 0 ≤ maxValue) (hv : ∀ x ∈ v, 0 ≤ x ∧ x ≤ maxValue) (hint : ∀ x ∈ v, Fits 32 x)
    (hlen : v.length < 2 ^ 31) :
    ∃ s, countingSort v maxValue = .ok s ∧
      s.written.Perm ((List.range v.length).map fun i : ℕ => (i : ℤ)) ∧
      s.v.Perm v ∧ s.v.Pairwise (· ≤ ·) := by
  obtain ⟨K, hK⟩ : ∃ K : ℕ, maxValue + 1 = K := ⟨(maxValue + 1).toNat, by omega⟩
  rw [hK, maxSize] at hmax
  have hfits : ¬((K : ℤ) < 0 ∨ maxSize < K) := by
    rw [maxSize]
    omega
  have hkey : ∀ x ∈ v, (.ok x : Except Fault ℤ) = .ok (x.toNat : ℤ) := by
    intro x hx
    rw [Int.toNat_of_nonneg (hv x hx).1]
  have hlt : ∀ x ∈ v, x.toNat < K := by
    intro x hx
    have hx' := hv x hx
    omega
  -- values are less than 2 ^ 31, as far as the second loop gets
  have hlt' : ∀ x ∈ v, x.toNat < min K (2 ^ 31) := by
    intro x hx
    have hx' := (hint x hx).2
    have hx'' := hlt x hx
    omega
  obtain ⟨count, hcount, hsize, hget⟩ := countKeys_spec hkey hlt hlen
  obtain ⟨count', hcount', hsize', hget'⟩ := addPreviouses_spec (m := min K (2 ^ 31)) (by omega)
    (by omega) hlen hget
  obtain ⟨s, hs, hv', hwritten⟩ := placeElements_spec hkey hlt' hlen (by omega) hget'
  have hsorted := stablySorted_distribute hlt'
  rw [← hv'] at hsorted
  refine ⟨s, ?_, hwritten, hsorted.perm, hsorted.sorted.imp_of_mem fun hx hy hxy => ?_⟩
  · have hfirst := signedLoop_of_lt 64 Fault.diverged (countKey .ok v) (List.replicate K 0)
      (by decide) (by decide) (Nat.zero_le v.length) (by omega)
    have hsecond := signedLoop_eq 32 Fault.diverged addPrevious count (by decide) (by decide)
      (show count.length ≤ 2 ^ 64 - 2 ^ (32 - 1) by omega)
      (show 1 ≤ min count.length (2 ^ (32 - 1)) by omega) (by decide)
    rw [Nat.cast_zero, hcount] at hfirst
    rw [Nat.cast_one, hsize, hcount'] at hsecond
    unfold countingSort
    dsimp only
    rw [hK, narrow_natCast (w := 64) (by omega), if_neg hfits, Int.toNat_natCast, hfirst,
      ok_bind, hsize, hsecond, ok_bind, lastPosition_eq hlen, hs]
  · have hx' := (hv _ (hsorted.perm.mem_iff.1 hx)).1
    have hy' := (hv _ (hsorted.perm.mem_iff.1 hy)).1
    omega

theorem countingSort_sorts_four :
    ∃ s, countingSort [2, 0, 2, 1] 2 = .ok s ∧
      s.written.Perm ((List.range 4).map fun i : ℕ => (i : ℤ)) ∧
      s.v.Perm [2, 0, 2, 1] ∧ s.v.Pairwise (· ≤ ·) :=
  countingSort_sorts [2, 0, 2, 1] 2 (by decide) (by decide) (by decide) (by decide) (by decide)

/-- No element is moved if the last position is converted to a negative number. -/
theorem countingSort_of_neg {maxValue : ℤ} {s : PlaceState}
    (h : narrow 32 ((v.length : ℤ) - 1) < 0) (hrun : countingSort v maxValue = .ok s) :
    s.v = v := by
  unfold countingSort at hrun
  dsimp only at hrun
  split_ifs at hrun
  obtain ⟨count, -, hrun⟩ := bind_eq_ok.1 hrun
  obtain ⟨count', -, hrun⟩ := bind_eq_ok.1 hrun
  rw [forDown_of_neg h] at hrun
  exact congrArg PlaceState.v (Except.ok.inj hrun).symm

/-- The constructor of the vector of counts throws. -/
theorem countingSort_of_size {maxValue : ℤ}
    (h : narrow 64 (maxValue + 1) < 0 ∨ maxSize < narrow 64 (maxValue + 1)) :
    countingSort v maxValue = .error .checkFailed := by
  unfold countingSort
  dsimp only
  rw [if_pos h]

/-- The number of elements, or that of the values, does not fit. The vector of counts is too long
from `max_size()` values on, which is below the largest 64-bit number. -/
theorem countingSort_overflow :
    (¬∃ s, countingSort (1 :: List.replicate (2 ^ 31) 0) 1 = .ok s ∧ s.v.Pairwise (· ≤ ·)) ∧
      countingSort [] (2 ^ 61 - 1) = .error .checkFailed ∧
        countingSort [] (2 ^ 63 - 1) = .error .checkFailed := by
  refine ⟨?_, countingSort_of_size (.inr (by decide)), countingSort_of_size (.inl (by decide))⟩
  rintro ⟨s, hrun, hsorted⟩
  rw [countingSort_of_neg (lastPosition_neg 1 0) hrun] at hsorted
  exact absurd hsorted (not_pairwise_cons_replicate (by decide) (Nat.two_pow_pos 31).ne')

end CppLearn.Sorting

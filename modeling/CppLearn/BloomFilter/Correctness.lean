import CppLearn.BloomFilter.Defs
import Mathlib.Data.List.Induction
import Mathlib.Data.List.ProdSigma
import Mathlib.Tactic.IntervalCases

/-!
# Filters have no false negatives

After a sequence of calls of `Insert` an entry of `buf_` depends only on the number of pairs of a
call and a hash function whose index it is, whichever calls and functions meet in it: `Insert` has
changed the entry that often. For counters this gives the number itself, cut off at the largest
value, and for bits whether there was such a pair.

The number of pairs is `hits`, and `tally` is the list of entries that have been changed as often as
that. `insertLoop_tally` is one call of `Insert`, and `existsLoop_tally` says that `Exists` is a
conjunction over the hash functions. The entries and answers of both filters after any calls are in
`filters_count_hits`.
-/

namespace CppLearn

open BoundedLoop CheckedVector

/-- The number of pairs of a call and a hash function whose index is `i`. -/
def hits (bucketSize : UInt64) (hashFunctions : List Hasher) (calls : List (List UInt8 × ℤ))
    (i : ℕ) : ℕ :=
  (calls ×ˢ hashFunctions).countP fun p => bucketIndex bucketSize p.2 p.1.1 p.1.2 = i

/-- `n` buckets, where `next` has been applied to the bucket `i` for `count i` times. -/
def tally {α : Type} (n : ℕ) (next : α → α) (d : α) (count : ℕ → ℕ) : List α :=
  (List.range n).map fun i => next^[count i] d

variable {bucketSize : UInt64} {hashFunctions : List Hasher} {key : List UInt8} {len : ℤ}
  {calls : List (List UInt8 × ℤ)}

/-- Hash values are reduced to indices. -/
theorem bucketIndex_lt (hpos : 1 ≤ bucketSize.toNat) (fn : Hasher) (key : List UInt8) (len : ℤ) :
    bucketIndex bucketSize fn key len < bucketSize.toNat := by
  rw [bucketIndex, UInt64.toNat_mod]
  exact Nat.mod_lt _ hpos

@[simp]
theorem hits_nil : hits bucketSize hashFunctions [] = fun _ => 0 := rfl

/-- Later calls add their own hits. -/
theorem hits_append (later : List (List UInt8 × ℤ)) (i : ℕ) :
    hits bucketSize hashFunctions (calls ++ later) i =
      hits bucketSize hashFunctions calls i + hits bucketSize hashFunctions later i := by
  have hproduct : (calls ++ later) ×ˢ hashFunctions =
      calls ×ˢ hashFunctions ++ later ×ˢ hashFunctions := List.flatMap_append
  rw [hits, hproduct, List.countP_append, hits, hits]

/-- One call adds the hash functions that select the bucket for its key. -/
theorem hits_singleton (i : ℕ) :
    hits bucketSize hashFunctions [(key, len)] i =
      hashFunctions.countP fun fn => bucketIndex bucketSize fn key len = i := by
  rw [hits, List.product_cons, List.nil_product, List.append_nil, List.countP_map]
  rfl

/-- A bucket of a key is hit by each call that inserts this key. -/
theorem count_le_hits {fn : Hasher} (hfn : fn ∈ hashFunctions) :
    calls.count (key, len) ≤
      hits bucketSize hashFunctions calls (bucketIndex bucketSize fn key len) := by
  induction calls using List.reverseRecOn with
  | nil => simp
  | append_singleton calls call ih =>
    obtain ⟨key', len'⟩ := call
    rw [hits_append, hits_singleton, List.count_append]
    by_cases h : (key', len') = (key, len)
    · obtain ⟨rfl, rfl⟩ := Prod.mk.inj h
      have hone : 0 < hashFunctions.countP fun fn' =>
          bucketIndex bucketSize fn' key' len' = bucketIndex bucketSize fn key' len' :=
        List.countP_pos_iff.2 ⟨fn, hfn, by simp⟩
      rw [List.count_singleton_self]
      omega
    · have hnone : [(key', len')].count (key, len) = 0 :=
        List.count_eq_zero.2 (by simpa using Ne.symm h)
      omega

/-! ## The loops -/

section Loops

variable {α : Type} {n : ℕ} {next : α → α} {d : α} {count : ℕ → ℕ}

/-- An entry has been changed as often as it was hit, -/
theorem read_tally {i : ℕ} (hi : i < n) :
    read (tally n next d count) i = .ok (next^[count i] d) := by
  rw [read_eq (by simpa [tally] using hi)]
  simp [tally]

/-- Changing one bucket once more. -/
theorem write_tally {i : ℕ} (hi : i < n) :
    write (tally n next d count) i (next (next^[count i] d)) =
      .ok (tally n next d (Function.update count i (count i + 1))) := by
  rw [write_ok (by simpa [tally] using hi)]
  congr 1
  refine List.ext_getElem (by simp [tally]) fun j hj hj' => ?_
  rw [List.getElem_set]
  by_cases h : i = j
  · subst h
    simp [tally, Function.iterate_succ_apply']
  · simp [tally, h, Function.update_of_ne (Ne.symm h)]

/-- The loop of `Insert` changes each bucket once for each function that selects it. -/
theorem insertLoop_tally (hpos : 1 ≤ bucketSize.toNat) :
    insertLoop bucketSize next key len hashFunctions (tally bucketSize.toNat next d count) =
      .ok (tally bucketSize.toNat next d fun i =>
        count i + hashFunctions.countP fun fn => bucketIndex bucketSize fn key len = i) := by
  induction hashFunctions generalizing count with
  | nil => rfl
  | cons fn hashFunctions ih =>
    have hi := bucketIndex_lt hpos fn key len
    unfold insertLoop at ih ⊢
    simp only [List.foldlM_cons, read_tally hi, write_tally hi, bind, Except.bind]
    refine ih.trans ?_
    congr 2
    funext i
    by_cases h : bucketIndex bucketSize fn key len = i
    · subst h
      simp
      omega
    · simp [h, Function.update_of_ne (Ne.symm h)]

/-- The loop of `Insert` counts the call. -/
theorem insertLoop_hits (hpos : 1 ≤ bucketSize.toNat) :
    insertLoop bucketSize next key len hashFunctions
        (tally bucketSize.toNat next d (hits bucketSize hashFunctions calls)) =
      .ok (tally bucketSize.toNat next d
        (hits bucketSize hashFunctions (calls ++ [(key, len)]))) := by
  rw [insertLoop_tally hpos]
  simp only [← hits_singleton, ← hits_append]

/-- The loop of `Exists` asks for the buckets of all functions. -/
theorem existsLoop_tally (hpos : 1 ≤ bucketSize.toNat) (missing : α → Bool) :
    existsLoop bucketSize missing key len (tally bucketSize.toNat next d count) hashFunctions =
      .ok (hashFunctions.all fun fn =>
        !missing (next^[count (bucketIndex bucketSize fn key len)] d)) := by
  induction hashFunctions with
  | nil => rfl
  | cons fn hashFunctions ih =>
    have hi := bucketIndex_lt hpos fn key len
    unfold existsLoop
    simp only [read_tally hi, ih, bind, Except.bind, List.all_cons]
    cases missing (next^[count (bucketIndex bucketSize fn key len)] d) <;> rfl

end Loops

/-- which is never at first. -/
theorem tally_zero {α : Type} (n : ℕ) (next : α → α) (d : α) :
    tally n next d (fun _ => 0) = resize [] n d := by
  rw [resize_nil]
  exact List.ext_getElem (by simp [tally]) fun j hj hj' => by simp [tally]

/-! ## Counters -/

namespace CountingBloomFilter

variable {w : ℕ}

/-- The counter after `k` increments. -/
theorem toNat_iterate_increment (k : ℕ) :
    (increment^[k] (0 : BitVec w)).toNat = min (2 ^ w - 1) k := by
  induction k with
  | zero => simp
  | succ k ih =>
    rw [Function.iterate_succ_apply', increment]
    have hpow : 0 < 2 ^ w := Nat.two_pow_pos w
    split_ifs with hmax
    · -- the counter is below its largest value, so the addition does not wrap around
      have hne : (increment^[k] (0 : BitVec w)).toNat ≠ 2 ^ w - 1 := fun h =>
        hmax (BitVec.eq_of_toNat_eq (by rw [h, BitVec.toNat_allOnes]))
      have hlt : (increment^[k] (0 : BitVec w)).toNat + 1 < 2 ^ w := by omega
      have hone : (1 : BitVec w).toNat = 1 % 2 ^ w := BitVec.toNat_ofNat 1 w
      rw [BitVec.toNat_add, hone, Nat.add_mod_mod, Nat.mod_eq_of_lt hlt]
      omega
    · rw [not_not] at hmax
      rw [hmax, BitVec.toNat_allOnes] at ih ⊢
      omega

/-- The filter after some calls of `Insert`. -/
def counted (w : ℕ) (bucketSize : UInt64) (hashFunctions : List Hasher)
    (calls : List (List UInt8 × ℤ)) : CountingBloomFilter w :=
  ⟨bucketSize, hashFunctions,
    tally bucketSize.toNat increment 0 (hits bucketSize hashFunctions calls)⟩

/-- One more call of `Insert` is one more key that has been counted, -/
theorem insert_counted (hpos : 1 ≤ bucketSize.toNat) :
    (counted w bucketSize hashFunctions calls).insert (some key) len =
      .ok (counted w bucketSize hashFunctions (calls ++ [(key, len)])) := by
  unfold insert counted
  simp only [insertLoop_hits hpos, bind, Except.bind]

/-- and so are more calls, -/
theorem insertAll_counted (hpos : 1 ≤ bucketSize.toNat) (later : List (List UInt8 × ℤ)) :
    (counted w bucketSize hashFunctions calls).insertAll later =
      .ok (counted w bucketSize hashFunctions (calls ++ later)) := by
  induction later generalizing calls with
  | nil => rw [List.append_nil]; rfl
  | cons call later ih =>
    unfold insertAll at ih ⊢
    rw [List.foldlM_cons, insert_counted hpos]
    refine ih.trans ?_
    rw [List.append_assoc, List.singleton_append]

/-- beginning with none. -/
theorem create_eq_counted :
    create w bucketSize hashFunctions = counted w bucketSize hashFunctions [] := by
  unfold create counted
  rw [hits_nil, tally_zero]

/-- `Exists` compares the cut off number of hits of each bucket of the key. -/
theorem exists_counted (hpos : 1 ≤ bucketSize.toNat) {maxCount : UInt32} (hmax : maxCount ≠ 0) :
    (counted w bucketSize hashFunctions calls).exists (some key) len maxCount =
      .ok (hashFunctions.all fun fn => decide (maxCount.toNat ≤ min (2 ^ w - 1)
        (hits bucketSize hashFunctions calls (bucketIndex bucketSize fn key len)))) := by
  unfold «exists» counted
  rw [if_neg hmax]
  simp only [existsLoop_tally hpos, toNat_iterate_increment, ← decide_not, not_lt]

/-- A key that was inserted often enough is found. -/
theorem exists_of_count (hpos : 1 ≤ bucketSize.toNat) {maxCount : UInt32}
    (hcount : maxCount.toNat ≤ calls.count (key, len)) (hmax : maxCount.toNat ≤ 2 ^ w - 1) :
    (counted w bucketSize hashFunctions calls).exists (some key) len maxCount = .ok true := by
  by_cases hzero : maxCount = 0
  · simp [«exists», hzero]
  · rw [exists_counted hpos hzero]
    congr 1
    refine List.all_eq_true.2 fun fn hfn => decide_eq_true ?_
    exact le_min hmax (hcount.trans (count_le_hits hfn))

/-- What has been found is found after further calls. -/
theorem exists_later (hpos : 1 ≤ bucketSize.toNat) (later : List (List UInt8 × ℤ))
    {key : Option (List UInt8)} {maxCount : UInt32}
    (hfound : (counted w bucketSize hashFunctions calls).exists key len maxCount = .ok true) :
    (counted w bucketSize hashFunctions (calls ++ later)).exists key len maxCount = .ok true := by
  by_cases hzero : maxCount = 0
  · simp [«exists», hzero]
  · cases key with
    | none => simp [«exists», hzero] at hfound
    | some key =>
      rw [exists_counted hpos hzero] at hfound ⊢
      congr 1
      refine List.all_eq_true.2 fun fn hfn => decide_eq_true ?_
      have hle := of_decide_eq_true (List.all_eq_true.1 (Except.ok.inj hfound) fn hfn)
      rw [hits_append]
      omega

end CountingBloomFilter

/-! ## Bits -/

namespace BloomFilter

/-- The filter after some calls of `Insert`. -/
def marked (bucketSize : UInt64) (hashFunctions : List Hasher)
    (calls : List (List UInt8 × ℤ)) : BloomFilter :=
  ⟨bucketSize, hashFunctions,
    tally bucketSize.toNat (fun _ => true) false (hits bucketSize hashFunctions calls)⟩

/-- The same with bits: one more call, -/
theorem insert_marked (hpos : 1 ≤ bucketSize.toNat) :
    (marked bucketSize hashFunctions calls).insert (some key) len =
      .ok (marked bucketSize hashFunctions (calls ++ [(key, len)])) := by
  unfold insert marked
  simp only [insertLoop_hits hpos, bind, Except.bind]

/-- more calls, -/
theorem insertAll_marked (hpos : 1 ≤ bucketSize.toNat) (later : List (List UInt8 × ℤ)) :
    (marked bucketSize hashFunctions calls).insertAll later =
      .ok (marked bucketSize hashFunctions (calls ++ later)) := by
  induction later generalizing calls with
  | nil => rw [List.append_nil]; rfl
  | cons call later ih =>
    unfold insertAll at ih ⊢
    rw [List.foldlM_cons, insert_marked hpos]
    refine ih.trans ?_
    rw [List.append_assoc, List.singleton_append]

/-- and none. -/
theorem create_eq_marked :
    create bucketSize hashFunctions = marked bucketSize hashFunctions [] := by
  unfold create marked
  rw [hits_nil, tally_zero]

/-- A bit that is set stays set. -/
theorem iterate_true (k : ℕ) : (fun _ => true)^[k] false = decide (0 < k) := by
  cases k with
  | zero => rfl
  | succ k => simp [Function.iterate_succ_apply']

/-- `Exists` asks whether each bucket of the key was hit. -/
theorem exists_marked (hpos : 1 ≤ bucketSize.toNat) :
    (marked bucketSize hashFunctions calls).exists (some key) len =
      .ok (hashFunctions.all fun fn => decide (0 <
        hits bucketSize hashFunctions calls (bucketIndex bucketSize fn key len))) := by
  unfold «exists» marked
  simp only [existsLoop_tally hpos, iterate_true]
  simp

/-- A key that was inserted is found. -/
theorem exists_of_mem (hpos : 1 ≤ bucketSize.toNat) (hmem : (key, len) ∈ calls) :
    (marked bucketSize hashFunctions calls).exists (some key) len = .ok true := by
  rw [exists_marked hpos]
  congr 1
  refine List.all_eq_true.2 fun fn hfn => decide_eq_true ?_
  exact (List.count_pos_iff.2 hmem).trans_le (count_le_hits hfn)

/-- What has been found is found after further calls. -/
theorem exists_later (hpos : 1 ≤ bucketSize.toNat) (later : List (List UInt8 × ℤ))
    {key : Option (List UInt8)}
    (hfound : (marked bucketSize hashFunctions calls).exists key len = .ok true) :
    (marked bucketSize hashFunctions (calls ++ later)).exists key len = .ok true := by
  cases key with
  | none => simp [«exists»] at hfound
  | some key =>
    rw [exists_marked hpos] at hfound ⊢
    congr 1
    refine List.all_eq_true.2 fun fn hfn => decide_eq_true ?_
    have hlt := of_decide_eq_true (List.all_eq_true.1 (Except.ok.inj hfound) fn hfn)
    rw [hits_append]
    omega

end BloomFilter

/-! ## Both filters -/

/-- After any calls of `Insert`, each counter is the number of pairs of a call and a hash function
with its index, cut off at the largest value of the type. A key that was inserted `c` times is found
with the count `c`, and with a filter of bits if it was inserted at all. What has been found is
found again after further calls. -/
theorem filters_count_hits (w : ℕ) (bucketSize : UInt64) (hashFunctions : List Hasher)
    (hpos : 1 ≤ bucketSize.toNat) (calls later : List (List UInt8 × ℤ)) :
    ∃ f f' : CountingBloomFilter w, ∃ g g' : BloomFilter,
      (CountingBloomFilter.create w bucketSize hashFunctions).insertAll calls = .ok f ∧
      f.insertAll later = .ok f' ∧
      (BloomFilter.create bucketSize hashFunctions).insertAll calls = .ok g ∧
      g.insertAll later = .ok g' ∧
      f.buf.length = bucketSize.toNat ∧
      (∀ (i : ℕ) (hi : i < f.buf.length), (f.buf.get ⟨i, hi⟩).toNat =
        min (2 ^ w - 1) (hits bucketSize hashFunctions calls i)) ∧
      (∀ key len c, c.toNat ≤ calls.count (key, len) → c.toNat ≤ 2 ^ w - 1 →
        f.exists (some key) len c = .ok true) ∧
      (∀ key len, (key, len) ∈ calls → g.exists (some key) len = .ok true) ∧
      (∀ key len c, f.exists key len c = .ok true → f'.exists key len c = .ok true) ∧
      ∀ key len, g.exists key len = .ok true → g'.exists key len = .ok true := by
  -- the four filters have a closed form, in terms of the calls
  refine ⟨.counted w bucketSize hashFunctions calls,
    .counted w bucketSize hashFunctions (calls ++ later), .marked bucketSize hashFunctions calls,
    .marked bucketSize hashFunctions (calls ++ later), ?_, ?_, ?_, ?_, ?_, ?_, ?_, ?_, ?_, ?_⟩
  · rw [CountingBloomFilter.create_eq_counted, CountingBloomFilter.insertAll_counted hpos]
    rfl
  · exact CountingBloomFilter.insertAll_counted hpos later
  · rw [BloomFilter.create_eq_marked, BloomFilter.insertAll_marked hpos]
    rfl
  · exact BloomFilter.insertAll_marked hpos later
  · simp [CountingBloomFilter.counted, tally]
  · intro i hi
    simp only [CountingBloomFilter.counted, tally, List.get_eq_getElem, List.getElem_map,
      List.getElem_range, CountingBloomFilter.toNat_iterate_increment]
  · exact fun key len c hcount hmax => CountingBloomFilter.exists_of_count hpos hcount hmax
  · exact fun key len hmem => BloomFilter.exists_of_mem hpos hmem
  · exact fun key len c hfound => CountingBloomFilter.exists_later hpos later hfound
  · exact fun key len hfound => BloomFilter.exists_later hpos later hfound

/-- Two hash functions that agree: two calls with one key count four times. -/
theorem filters_count_hits_collision :
    1 ≤ (4 : UInt64).toNat ∧
      ∃ f : CountingBloomFilter 8,
        (CountingBloomFilter.create 8 4 [fun _ _ => (0, 5), fun _ _ => (1, 9)]).insertAll
          [([7], 1), ([7], 1)] = .ok f ∧
        f.buf.map BitVec.toNat = [0, 4, 0, 0] ∧ f.exists (some [7]) 1 2 = .ok true := by
  have hpos : 1 ≤ (4 : UInt64).toNat := by decide
  obtain ⟨f, -, -, -, hrun, -, -, -, hlen, hbuf, hfound, -⟩ :=
    filters_count_hits 8 4 [fun _ _ => (0, 5), fun _ _ => (1, 9)] hpos [([7], 1), ([7], 1)] []
  refine ⟨hpos, f, hrun, List.ext_getElem (by simpa using hlen) fun i hi hi' => ?_,
    hfound [7] 1 2 (by decide) (by decide)⟩
  rw [List.getElem_map]
  refine (hbuf i (by simpa using hi)).trans ?_
  have hlt : i < 4 := hi'
  interval_cases i <;> rfl

end CppLearn

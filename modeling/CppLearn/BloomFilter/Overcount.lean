import CppLearn.BloomFilter.Correctness

/-!
# Counting a key too often

A call of `Insert` adds one to the bucket of each hash function, and more than one where functions
meet in a bucket. So `m` calls can leave a key with a count larger than `m`. One bucket of the key
that is hit at most `m` times, or that cannot count further than `m`, excludes this.

If the functions do not meet, a bucket is hit once for each call at most (`hits_le_length`), and no
count is too large. In general `CountingBloomFilter.exists_false_iff` is the exact condition on the
buckets. Calls with null keys are admitted, as they leave the filter alone
(`CountingBloomFilter.insertCalls`).
-/

namespace CppLearn

/-- If the functions select different buckets for each inserted key, a bucket is hit at most once
for each call. -/
theorem hits_le_length {bucketSize : UInt64} {hashFunctions : List Hasher}
    (calls : List (List UInt8 × ℤ))
    (hmeet : ∀ call ∈ calls,
      (hashFunctions.map fun fn => bucketIndex bucketSize fn call.1 call.2).Nodup) (i : ℕ) :
    hits bucketSize hashFunctions calls i ≤ calls.length := by
  induction calls using List.reverseRecOn with
  | nil => exact le_rfl
  | append_singleton calls call ih =>
    obtain ⟨key, len⟩ := call
    have hfirst := ih fun call hcall => hmeet call (List.mem_append_left _ hcall)
    -- the functions that select the bucket are the occurrences of its index
    have hcount : (hashFunctions.countP fun fn => bucketIndex bucketSize fn key len = i) =
        (hashFunctions.map fun fn => bucketIndex bucketSize fn key len).count i := by
      rw [List.count, List.countP_map]
      rfl
    have hlast := List.nodup_iff_count.1 (hmeet (key, len) (by simp)) i
    rw [hits_append, hits_singleton, hcount, List.length_append, List.length_singleton]
    exact Nat.add_le_add hfirst hlast

namespace CountingBloomFilter

open BoundedLoop

variable {w : ℕ} {bucketSize : UInt64} {hashFunctions : List Hasher}

/-- A sequence of calls of `Insert`. -/
def insertCalls (f : CountingBloomFilter w) (calls : List (Option (List UInt8) × ℤ)) :
    Except Fault (CountingBloomFilter w) :=
  calls.foldlM (fun f call => f.insert call.1 call.2) f

/-- The keys that are not null, with their lengths. -/
def keys (calls : List (Option (List UInt8) × ℤ)) : List (List UInt8 × ℤ) :=
  calls.filterMap fun call => call.1.map fun key => (key, call.2)

/-- Calls with null keys have no effect. -/
theorem insertCalls_counted (hpos : 1 ≤ bucketSize.toNat) (earlier : List (List UInt8 × ℤ))
    (calls : List (Option (List UInt8) × ℤ)) :
    (counted w bucketSize hashFunctions earlier).insertCalls calls =
      .ok (counted w bucketSize hashFunctions (earlier ++ keys calls)) := by
  induction calls generalizing earlier with
  | nil => exact congrArg _ (congrArg _ (List.append_nil _).symm)
  | cons call calls ih =>
    obtain ⟨key, len⟩ := call
    unfold insertCalls at ih ⊢
    rw [List.foldlM_cons]
    cases key with
    | none => exact ih earlier
    | some key =>
      have hkeys : keys ((some key, len) :: calls) = (key, len) :: keys calls := rfl
      rw [insert_counted hpos, hkeys]
      refine (ih (earlier ++ [(key, len)])).trans ?_
      rw [List.append_assoc, List.singleton_append]

/-- A positive count is denied if and only if it is larger than a counter of the key, as far as the
type of the counters goes. -/
theorem exists_counted_false_iff (hpos : 1 ≤ bucketSize.toNat) {calls : List (List UInt8 × ℤ)}
    {key : List UInt8} {len : ℤ} {c : UInt32} (hc : c ≠ 0) :
    (counted w bucketSize hashFunctions calls).exists (some key) len c = .ok false ↔
      ∃ fn ∈ hashFunctions, min (2 ^ w - 1)
        (hits bucketSize hashFunctions calls (bucketIndex bucketSize fn key len)) < c.toNat := by
  rw [exists_counted hpos hc, Except.ok.injEq, List.all_eq_false]
  simp only [decide_eq_true_eq, not_le]

/-- If there are functions, and they do not meet for the inserted keys, no key has a count larger
than the number of calls. -/
theorem exists_false_of_apart (hpos : 1 ≤ bucketSize.toNat) (hne : hashFunctions ≠ [])
    {calls : List (Option (List UInt8) × ℤ)} (hmeet : ∀ call ∈ keys calls,
      (hashFunctions.map fun fn => bucketIndex bucketSize fn call.1 call.2).Nodup)
    (key : List UInt8) (len : ℤ) {c : UInt32} (hc : calls.length < c.toNat) :
    (counted w bucketSize hashFunctions (keys calls)).exists (some key) len c = .ok false := by
  obtain ⟨fn, hfn⟩ := List.exists_mem_of_ne_nil _ hne
  have hhits := hits_le_length (keys calls) hmeet (bucketIndex bucketSize fn key len)
  have hkeys : (keys calls).length ≤ calls.length := List.length_filterMap_le ..
  have hzero : c ≠ 0 := by
    rintro rfl
    exact absurd hc (Nat.not_lt_zero _)
  exact (exists_counted_false_iff hpos hzero).2 ⟨fn, hfn, by omega⟩

/-- After `m` calls of `Insert`, a key has no count larger than `m` if and only if one of its
buckets was hit at most `m` times, whatever the functions that hit it, or its counter does not go
further than `m`, or `uint32_t` does not. -/
theorem exists_false_iff (w : ℕ) (bucketSize : UInt64) (hashFunctions : List Hasher)
    (hpos : 1 ≤ bucketSize.toNat) (calls : List (Option (List UInt8) × ℤ)) (key : List UInt8)
    (len : ℤ) :
    ∃ f, (create w bucketSize hashFunctions).insertCalls calls = .ok f ∧
      ((∀ c : UInt32, calls.length < c.toNat → f.exists (some key) len c = .ok false) ↔
        2 ^ 32 ≤ calls.length + 1 ∨ ∃ fn ∈ hashFunctions, min (2 ^ w - 1)
          (hits bucketSize hashFunctions (keys calls) (bucketIndex bucketSize fn key len)) ≤
            calls.length) := by
  refine ⟨counted w bucketSize hashFunctions (keys calls), ?_, ?_⟩
  · rw [create_eq_counted, insertCalls_counted hpos, List.nil_append]
  -- a count of zero is the case that is always true
  have hne {c : UInt32} (hc : calls.length < c.toNat) : c ≠ 0 := by
    rintro rfl
    exact absurd hc (Nat.not_lt_zero _)
  constructor
  · intro hfalse
    by_cases hlen : 2 ^ 32 ≤ calls.length + 1
    · exact .inl hlen
    · -- the least count that is too large
      have hc : (UInt32.ofNat (calls.length + 1)).toNat = calls.length + 1 :=
        UInt32.toNat_ofNat_of_lt' (Nat.lt_of_not_le hlen)
      have hlt : calls.length < (UInt32.ofNat (calls.length + 1)).toNat := by omega
      obtain ⟨fn, hfn, hhits⟩ := (exists_counted_false_iff hpos (hne hlt)).1 (hfalse _ hlt)
      exact .inr ⟨fn, hfn, by omega⟩
  · rintro (hlen | ⟨fn, hfn, hhits⟩) c hc
    · have := c.toNat_lt
      omega
    · exact (exists_counted_false_iff hpos (hne hc)).2 ⟨fn, hfn, hhits.trans_lt hc⟩

/-- One call, with functions that do not meet. -/
theorem exists_false_iff_apart :
    ∃ f, (create 8 4 [fun _ _ => (0, 5), fun _ _ => (1, 6)]).insertCalls [(some [7], 1)] = .ok f ∧
      ∀ c : UInt32, 1 < c.toNat → f.exists (some [7]) 1 c = .ok false := by
  obtain ⟨f, hrun, hiff⟩ := exists_false_iff 8 4 [fun _ _ => (0, 5), fun _ _ => (1, 6)] (by decide)
    [(some [7], 1)] [7] 1
  exact ⟨f, hrun, hiff.2 (.inr ⟨fun _ _ => (0, 5), List.mem_cons_self, by decide⟩)⟩

/-- Two functions meet in the bucket of the key, and one call counts twice. -/
theorem one_call_counts_twice :
    ∃ f, (create 8 4 [fun _ _ => (0, 5), fun _ _ => (1, 9)]).insertCalls [(some [7], 1)] = .ok f ∧
      ¬ ∀ c : UInt32, 1 < c.toNat → f.exists (some [7]) 1 c = .ok false :=
  ⟨_, rfl, fun hfalse => absurd (hfalse 2 (by decide)) (by decide)⟩

end CountingBloomFilter

end CppLearn

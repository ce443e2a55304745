import CppLearn.Sorting.Exchange
import Mathlib.Data.List.Perm.Basic

/-!
# When `bucket_sort` sorts

An element is put into the bucket with the number `x % bucket_size`, and the buckets are emptied one
after the other. So the result is in order if the residues of the elements are in the order of the
elements, as they are if no element is as large as the number of buckets. All positions are
`int32_t`, and the bucket that holds 2 ^ 31 elements is not sorted.

The number of the bucket is `residue`. What the procedure leaves are the sorted buckets, one after
the other (`bucketSort_eq`), and when this is sorted is `bucketSort_sorts_iff`.
-/

namespace CppLearn.Sorting

open BoundedLoop CheckedVector Signed

variable {b i r : ℕ} {x y : ℤ} {v w : List ℤ}

/-- The number of the bucket for an element. -/
def residue (b : ℕ) (x : ℤ) : ℕ := (x % b).toNat

theorem residue_lt (hb : 0 < b) (x : ℤ) : residue b x < b := by
  have hlt := Int.emod_lt_of_pos x (Int.natCast_pos.2 hb)
  have hpos := Int.emod_nonneg x (Int.natCast_pos.2 hb).ne'
  unfold residue
  omega

theorem residue_le_iff (hb : 0 < b) : residue b x ≤ residue b y ↔ x % b ≤ y % b := by
  have hx := Int.emod_nonneg x (Int.natCast_pos.2 hb).ne'
  have hy := Int.emod_nonneg y (Int.natCast_pos.2 hb).ne'
  unfold residue
  omega

/-! ## The buckets -/

theorem pushBucket_eq {bucket : List (List ℤ)} (hx : 0 ≤ x) (hb : 0 < b)
    (hlen : bucket.length = b) :
    pushBucket b bucket x =
      .ok (bucket.set (residue b x) (bucket.getD (residue b x) [] ++ [x])) := by
  have hr := residue_lt hb x
  have hmod : x.tmod b = residue b x := by
    rw [Int.tmod_eq_emod_of_nonneg hx, residue,
      Int.toNat_of_nonneg (Int.emod_nonneg x (Int.natCast_pos.2 hb).ne')]
  simp only [pushBucket, if_neg (show ¬(b : ℤ) = 0 by omega), hmod,
    read_ok (show residue b x < bucket.length by omega) [], bind, Except.bind]
  exact write_ok (by omega) _

/-- The elements are appended to their buckets. -/
theorem pushBuckets_spec (bucket : List (List ℤ)) (hv : ∀ x ∈ v, 0 ≤ x) (hb : 0 < b)
    (hlen : bucket.length = b) :
    ∃ bucket', v.foldlM (pushBucket b) bucket = .ok bucket' ∧ bucket'.length = b ∧
      ∀ r, bucket'.getD r [] = bucket.getD r [] ++ v.filter fun x => residue b x = r := by
  induction v generalizing bucket with
  | nil => exact ⟨bucket, rfl, hlen, fun r => by simp⟩
  | cons x v ih =>
    obtain ⟨hx, hv⟩ := List.forall_mem_cons.1 hv
    have hr := residue_lt hb x
    obtain ⟨bucket', hrun, hlen', hget⟩ :=
      ih (bucket.set (residue b x) (bucket.getD (residue b x) [] ++ [x])) hv (by simpa)
    refine ⟨bucket', ?_, hlen', fun r => ?_⟩
    · rw [List.foldlM_cons, pushBucket_eq hx hb hlen]
      exact hrun
    · rw [hget, congrFun (getD_set (show residue b x < bucket.length by omega) _ []) r]
      rcases eq_or_ne r (residue b x) with rfl | hne
      · simp
      · simp [hne, hne.symm]

/-! ## The result -/

/-- An element is written at position `idx` if this position fits. -/
theorem putNext_ok {s t : List ℤ} (hlt : s.length < 2 ^ 31) (x y : ℤ) :
    putNext (s ++ y :: t, narrow 32 s.length) x =
      .ok ((s ++ [x]) ++ t, narrow 32 (s ++ [x]).length) := by
  have hwrite : write (s ++ y :: t) (s.length : ℤ) x = .ok (s ++ [x] ++ t) := by
    rw [write_ok (by simp)]
    simp
  have hlen : ((s ++ [x]).length : ℤ) = s.length + 1 := by simp
  rw [hlen, narrow_natCast (show 2 * s.length < 2 ^ 32 by omega)]
  exact bind_eq_ok.2 ⟨_, hwrite, rfl⟩

theorem putNext_error (v : List ℤ) (x : ℤ) :
    putNext (v, narrow 32 ((2 ^ 31 : ℕ) : ℤ)) x = .error .invalidAccess := by
  have hwrite : write v (narrow 32 ((2 ^ 31 : ℕ) : ℤ)) x = .error .invalidAccess :=
    if_neg fun h => absurd h.1 (by decide)
  rw [putNext, hwrite]
  rfl

/-- The elements are written from position `idx` on. -/
theorem putNext_foldlM {s t values : List ℤ} (hlen : values.length ≤ t.length)
    (hmax : s.length ≤ 2 ^ 31) :
    values.foldlM putNext (s ++ t, narrow 32 s.length) =
      if s.length + values.length ≤ 2 ^ 31 then
        .ok (s ++ values ++ t.drop values.length, narrow 32 (s ++ values).length)
      else .error .invalidAccess := by
  induction values generalizing s t with
  | nil =>
    rw [List.length_nil, Nat.add_zero, if_pos hmax, List.append_nil, List.drop_zero]
    rfl
  | cons x values ih =>
    cases t with
    | nil => simp at hlen
    | cons y t =>
      rw [List.foldlM_cons, List.length_cons]
      rcases hmax.lt_or_eq with hlt | heq
      -- the next position is the length of what has been written
      · have hlen' : (s ++ [x]).length = s.length + 1 := by simp
        have hrest := ih (s := s ++ [x]) (t := t) (Nat.le_of_succ_le_succ hlen) (hlen'.trans_le hlt)
        have hcount : (s ++ [x]).length + values.length = s.length + (values.length + 1) := by
          omega
        rw [hcount, List.append_assoc s [x] values, List.singleton_append] at hrest
        rw [putNext_ok hlt, List.drop_succ_cons]
        exact hrest
      · -- the position does not fit
        rw [heq, putNext_error, if_neg (by omega)]
        rfl

/-- The second loop writes the sorted buckets, one after the other. -/
theorem emptyBuckets_eq {bucket : List (List ℤ)} {f : ℕ → List ℤ} {s : List ℤ × ℤ}
    (hlen : bucket.length < 2 ^ 31)
    (hf : ∀ i < bucket.length, insertSort (bucket.getD i []) = .ok (f i)) :
    signedLoop 32 .diverged 0 bucket.length (emptyBucket bucket) s =
      ((List.range bucket.length).flatMap f).foldlM putNext s := by
  have hloop := signedLoop_of_lt 32 Fault.diverged (emptyBucket bucket) s (by decide) (by decide)
    (Nat.zero_le _) hlen
  rw [Nat.cast_zero] at hloop
  rw [hloop, ← forLoop_foldlM]
  refine forLoop_congr fun i s _ hi => ?_
  rw [emptyBucket, read_ok hi [], ok_bind, hf i hi, ok_bind]

/-- What `insert_sort` returns. -/
theorem perm_of_insertSort (h : insertSort v = .ok w) : w.Perm v := by
  obtain ⟨u, hu, hperm⟩ := insertSort_perm v
  rw [h] at hu
  exact Except.ok.inj hu ▸ hperm

/-- The sorted buckets, one after the other, if all positions fit. -/
theorem bucketSort_eq (hv : ∀ x ∈ v, 0 ≤ x) (hb : 0 < b) (hb' : b < 2 ^ 31) :
    ∃ f : ℕ → List ℤ, (∀ r, insertSort (v.filter fun x => residue b x = r) = .ok (f r)) ∧
      ((List.range b).flatMap f).Perm v ∧
      bucketSort v b =
        if v.length ≤ 2 ^ 31 then .ok ((List.range b).flatMap f) else .error .invalidAccess := by
  choose f hf _ using fun r => insertSort_perm (v.filter fun x => residue b x = r)
  have hperm : ((List.range b).flatMap f).Perm v := by
    refine (List.Perm.flatMap_left _ fun r _ => perm_of_insertSort (hf r)).trans ?_
    rw [← distribute_eq_flatMap]
    exact (stablySorted_distribute fun x _ => residue_lt hb x).perm
  refine ⟨f, hf, hperm, ?_⟩
  obtain ⟨bucket, hbucket, hlen, hget⟩ := pushBuckets_spec (List.replicate b []) hv hb
    (List.length_replicate ..)
  have hget' : ∀ i < bucket.length, insertSort (bucket.getD i []) = .ok (f i) := by
    intro i _
    rw [hget, getD_replicate, List.nil_append, hf]
  -- the buckets have as many elements as the vector, which is overwritten from its beginning
  have hput := putNext_foldlM (s := []) (t := v) hperm.length_eq.le (Nat.zero_le _)
  rw [List.length_nil, Nat.cast_zero, narrow_eq (x := 0) (by decide), List.nil_append,
    Nat.zero_add, List.nil_append, hperm.length_eq, List.drop_length, List.append_nil] at hput
  rw [bucketSort, if_neg (by omega), Int.toNat_natCast, hbucket, ok_bind,
    emptyBuckets_eq (by omega) hget', hlen, hput]
  split_ifs <;> rfl

/-! ## When the result is in order -/

/-- The sorted buckets are in order if and only if each of them is, and no element is smaller than
one in a bucket before its own. -/
theorem pairwise_buckets_iff {f : ℕ → List ℤ} (hb : 0 < b)
    (hf : ∀ r, (f r).Perm (v.filter fun x => residue b x = r)) :
    ((List.range b).flatMap f).Pairwise (· ≤ ·) ↔
      (∀ r < b, (f r).Pairwise (· ≤ ·)) ∧ ∀ x ∈ v, ∀ y ∈ v, x ≤ y → x % b ≤ y % b := by
  have hmem : ∀ r x, x ∈ f r ↔ x ∈ v ∧ residue b x = r := by
    intro r x
    rw [(hf r).mem_iff, List.mem_filter, decide_eq_true_eq]
  rw [List.pairwise_flatMap]
  simp only [List.mem_range, List.pairwise_iff_getElem, List.getElem_range, List.length_range]
  refine and_congr_right fun _ => ⟨fun h x hx y hy hxy => ?_, fun h r r' hr hr' hlt x hx y hy => ?_⟩
  · rw [← residue_le_iff hb]
    by_contra hlt
    have hyx := h (residue b y) (residue b x) (residue_lt hb y) (residue_lt hb x) (not_le.1 hlt) y
      ((hmem _ y).2 ⟨hy, rfl⟩) x ((hmem _ x).2 ⟨hx, rfl⟩)
    rw [le_antisymm hxy hyx] at hlt
    exact hlt le_rfl
  · obtain ⟨hxv, rfl⟩ := (hmem r x).1 hx
    obtain ⟨hyv, rfl⟩ := (hmem r' y).1 hy
    by_contra hyx
    have hle := h y hyv x hxv (not_le.1 hyx).le
    rw [← residue_le_iff hb] at hle
    omega

/-- A bucket is sorted if it has fewer than 2 ^ 31 elements. -/
theorem pairwise_of_insertSort (hlen : v.length < 2 ^ 31) (h : insertSort v = .ok w) :
    w.Pairwise (· ≤ ·) := by
  obtain ⟨u, hu, hsorted⟩ := insertSort_spec hlen
  rw [h] at hu
  exact Except.ok.inj hu ▸ hsorted.sorted

/-- With 2 ^ 31 elements, the buckets are in order if there are two of them, or if the only one was
in order. -/
theorem pairwise_buckets_of_length_eq {f : ℕ → List ℤ} (hb : 0 < b) (hlen : v.length = 2 ^ 31)
    (hf : ∀ r, insertSort (v.filter fun x => residue b x = r) = .ok (f r)) :
    (∀ r < b, (f r).Pairwise (· ≤ ·)) ↔
      (∃ x ∈ v, ∃ y ∈ v, x % b ≠ y % b) ∨ v.Pairwise (· ≤ ·) := by
  have hshort : ∀ r, (∃ x ∈ v, residue b x ≠ r) → (f r).Pairwise (· ≤ ·) := by
    rintro r ⟨x, hx, hne⟩
    refine pairwise_of_insertSort ?_ (hf r)
    rw [← hlen, List.length_filter_lt_length_iff_exists]
    exact ⟨x, hx, by simpa using hne⟩
  have hresidue : ∀ x y : ℤ, x % b = y % b ↔ residue b x = residue b y := by
    intro x y
    rw [le_antisymm_iff, le_antisymm_iff, residue_le_iff hb, residue_le_iff hb]
  have hne : v ≠ [] := fun hnil => by
    rw [hnil] at hlen
    exact absurd hlen (by decide)
  obtain ⟨z, hz⟩ := List.exists_mem_of_ne_nil v hne
  -- if two buckets have elements, then each of them has fewer than 2 ^ 31
  by_cases htwo : ∃ x ∈ v, ∃ y ∈ v, x % b ≠ y % b
  · refine ⟨fun _ => .inl htwo, fun _ r _ => hshort r ?_⟩
    obtain ⟨x, hx, y, hy, hxy⟩ := htwo
    by_contra hall
    push Not at hall
    exact hxy ((hresidue x y).2 ((hall x hx).trans (hall y hy).symm))
  · push Not at htwo
    have hall : ∀ x ∈ v, residue b x = residue b z := fun x hx =>
      (hresidue x z).1 (htwo x hx z hz)
    -- the only bucket with elements is not sorted
    have hbucket : f (residue b z) = v := by
      have hfilter : v.filter (fun x => residue b x = residue b z) = v :=
        List.filter_eq_self.2 fun x hx => decide_eq_true (hall x hx)
      have hsame : insertSort v = .ok v := (exchangeSorts_of_nonpos (by
        rw [hlen]
        decide)).2.1
      have hrun := hf (residue b z)
      rw [hfilter, hsame] at hrun
      exact (Except.ok.inj hrun).symm
    constructor
    · intro h
      exact .inr (hbucket ▸ h _ (residue_lt hb z))
    · rintro (⟨x, hx, y, hy, hxy⟩ | hsorted) r -
      · exact absurd (htwo x hx y hy) hxy
      · by_cases hr : r = residue b z
        · rw [hr, hbucket]
          exact hsorted
        · exact hshort r ⟨z, hz, Ne.symm hr⟩

/-- `bucket_sort` sorts if and only if the residues of the elements are in the order of the
elements, all positions fit, and so does the number of elements of each bucket unless its elements
are in order already. -/
theorem bucketSort_sorts_iff (v : List ℤ) (b : ℕ) (hv : ∀ x ∈ v, 0 ≤ x) (hb : 1 ≤ b)
    (hb' : b < 2 ^ 31) :
    (∃ w, bucketSort v b = .ok w ∧ w.Perm v ∧ w.Pairwise (· ≤ ·)) ↔
    (∀ x ∈ v, ∀ y ∈ v, x ≤ y → x % b ≤ y % b) ∧
      (v.length < 2 ^ 31 ∨
        v.length = 2 ^ 31 ∧ ((∃ x ∈ v, ∃ y ∈ v, x % b ≠ y % b) ∨ v.Pairwise (· ≤ ·))) := by
  -- every bucket is sorted on its own, and the result lists the buckets by residue
  obtain ⟨f, hf, hperm, hrun⟩ := bucketSort_eq hv hb hb'
  have hbuckets := pairwise_buckets_iff hb fun r => perm_of_insertSort (hf r)
  have hiff : (∃ w, bucketSort v b = .ok w ∧ w.Perm v ∧ w.Pairwise (· ≤ ·)) ↔
      v.length ≤ 2 ^ 31 ∧ ((List.range b).flatMap f).Pairwise (· ≤ ·) := by
    rw [hrun]
    split_ifs with hlen
    · constructor
      · rintro ⟨w, hw, -, hsorted⟩
        exact ⟨hlen, Except.ok.inj hw ▸ hsorted⟩
      · exact fun h => ⟨_, rfl, hperm, h.2⟩
    · constructor
      · rintro ⟨w, hw, -⟩
        cases hw
      · exact fun h => absurd h.1 hlen
  rw [hiff, hbuckets]
  -- from `2 ^ 31` elements on, a single bucket that holds all of them is not sorted
  rcases lt_trichotomy v.length (2 ^ 31) with hlt | heq | hgt
  · have hall : ∀ r < b, (f r).Pairwise (· ≤ ·) := fun r _ =>
      pairwise_of_insertSort ((List.length_filter_le _ _).trans_lt hlt) (hf r)
    exact ⟨fun h => ⟨h.2.2, .inl hlt⟩, fun h => ⟨hlt.le, hall, h.1⟩⟩
  · rw [pairwise_buckets_of_length_eq hb heq hf]
    constructor
    · rintro ⟨-, hsorted, hresidue⟩
      exact ⟨hresidue, .inr ⟨heq, hsorted⟩⟩
    · rintro ⟨hresidue, hlt | ⟨-, hsorted⟩⟩
      · exact absurd heq hlt.ne
      · exact ⟨heq.le, hsorted, hresidue⟩
  · constructor
    · rintro ⟨hle, -⟩
      exact absurd hle (not_le.2 hgt)
    · rintro ⟨-, hlt | ⟨heq, -⟩⟩
      · exact absurd hlt hgt.not_gt
      · exact absurd heq hgt.ne'

theorem bucketSort_sorts_iff_three :
    (∃ w, bucketSort [2, 0, 1] (4 : ℕ) = .ok w ∧ w.Perm [2, 0, 1] ∧ w.Pairwise (· ≤ ·)) ↔
    (∀ x ∈ [2, 0, (1 : ℤ)], ∀ y ∈ [2, 0, (1 : ℤ)], x ≤ y → x % (4 : ℕ) ≤ y % (4 : ℕ)) ∧
      ([2, 0, (1 : ℤ)].length < 2 ^ 31 ∨ [2, 0, (1 : ℤ)].length = 2 ^ 31 ∧
        ((∃ x ∈ [2, 0, (1 : ℤ)], ∃ y ∈ [2, 0, (1 : ℤ)], x % (4 : ℕ) ≠ y % (4 : ℕ)) ∨
          [2, 0, (1 : ℤ)].Pairwise (· ≤ ·))) :=
  bucketSort_sorts_iff [2, 0, 1] 4 (by decide) (by decide) (by decide)

/-- The value 2 goes to the bucket before that of the value 1. -/
theorem bucketSort_residues :
    ¬∃ w, bucketSort [1, 2] 2 = .ok w ∧ w.Perm [1, 2] ∧ w.Pairwise (· ≤ ·) := by
  rintro ⟨w, hrun, -, hsorted⟩
  have hresult : bucketSort [1, 2] 2 = .ok [2, 1] := by decide
  rw [hresult] at hrun
  obtain rfl := Except.ok.inj hrun
  exact absurd hsorted (by decide)

end CppLearn.Sorting

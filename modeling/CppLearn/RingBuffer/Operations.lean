import CppLearn.RingBuffer.Layout

/-!
# Push and pop on a list of records

What `push` and `pop` do to the list of records that a buffer holds. A buffer that is exactly full
has coinciding pointers, which the loop of `push` takes for an empty buffer: `visible` is the list
that the loop works on.

`Holds` says that the buffer holds a list of records, and it holds one only (`Holds.unique`). In
terms of this list, `push` drops the oldest records until the new one fits (`dropToFit`,
`push_spec`), and `pop` takes the first one (`pop_spec`).
-/

namespace CppLearn.RingBuffer

open BoundedLoop Unsigned

/-- The records in a buffer. The pointers are null exactly when there are none. -/
def Holds (rb : Buffer) (l : List Node) : Prop :=
  (l = [] ∧ rb.read = none ∧ rb.write = none) ∨
    (l ≠ [] ∧ ∃ read write, rb.read = some read ∧ rb.write = some write ∧ Layout rb read write l)

/-- Drop the shortest prefix of `l` such that `need` more bytes fit. -/
def dropToFit (cap need : ℕ) : List Node → List Node
  | [] => []
  | node :: l => if total (node :: l) + need ≤ cap then node :: l else dropToFit cap need l

/-- The records that the loop of `push` finds between the pointers. -/
def visible (cap : ℕ) (l : List Node) : List Node := if total l = cap then [] else l

variable {rb : Buffer} {read write need : ℕ} {node : Node} {l l' : List Node}

theorem dropToFit_of_fits {cap : ℕ} (h : total l + need ≤ cap) : dropToFit cap need l = l := by
  cases l with
  | nil => rfl
  | cons node l =>
    unfold dropToFit
    rw [if_pos h]

theorem total_dropToFit_le {cap : ℕ} (h : need ≤ cap) :
    total (dropToFit cap need l) + need ≤ cap := by
  induction l with
  | nil => simpa [dropToFit] using h
  | cons node l ih =>
    unfold dropToFit
    split_ifs with hfits
    · exact hfits
    · exact ih

theorem dropToFit_suffix (cap need : ℕ) (l : List Node) : dropToFit cap need l <:+ l := by
  induction l with
  | nil => exact List.suffix_refl []
  | cons node l ih =>
    unfold dropToFit
    split_ifs
    · exact List.suffix_refl _
    · exact ih.trans (List.suffix_cons node l)

theorem visible_suffix (cap : ℕ) (l : List Node) : visible cap l <:+ l := by
  unfold visible
  split_ifs
  · exact List.nil_suffix
  · exact List.suffix_refl l

/-! ## Push -/

/-- `push` starts with the pointers around the records that it is aware of. -/
theorem pushStart_spec (h : Holds rb l) (hcap : Mapped rb.capacity) :
    ∃ read write, rb.pushStart = .ok (read, write) ∧
      Layout rb read write (visible rb.capacity l) ∧
      total (visible rb.capacity l) < rb.capacity := by
  have hpos := hcap.pos
  rcases h with ⟨rfl, hread, hwrite⟩ | ⟨-, read, write, hread, hwrite, h⟩
  · have hvis : visible rb.capacity [] = [] := ite_self []
    rw [hvis]
    exact ⟨0, 0, by simp [Buffer.pushStart, Buffer.empty, hread],
      Layout.nil hpos (Nat.dvd_zero 8), hpos⟩
  · refine ⟨read, write, by simp [Buffer.pushStart, Buffer.empty, hread, hwrite], ?_⟩
    unfold visible
    by_cases hfull : total l = rb.capacity
    · -- the pointers coincide, as in an empty buffer
      have heq : read = write := h.read_eq_write_iff.2 (.inr hfull)
      rw [if_pos hfull, ← heq]
      exact ⟨Layout.nil h.read_lt h.read_dvd, hpos⟩
    · rw [if_neg hfull]
      exact ⟨h, Nat.lt_of_le_of_ne h.fits hfull⟩

/-- The condition of the loop while the buffer is not full. -/
theorem evictCond_iff (h : Layout rb read write l) (hcap : Mapped rb.capacity)
    (hfull : total l < rb.capacity) :
    rb.evictCond need (read, write) = .ok true ↔ rb.capacity < total l + need := by
  rw [evictCond_eq h hcap, Nat.mod_eq_of_lt hfull]
  simp only [Except.ok.injEq, decide_eq_true_eq]
  omega

/-- When the loop goes on there is a record to drop. -/
theorem exists_cons_of_evictCond (h : Layout rb read write l) (hcap : Mapped rb.capacity)
    (hfull : total l < rb.capacity) (hneed : need ≤ rb.capacity)
    (hc : rb.evictCond need (read, write) = .ok true) : ∃ node l', l = node :: l' := by
  cases l with
  | nil =>
    have := (evictCond_iff h hcap hfull).1 hc
    rw [total_nil] at this
    omega
  | cons node l' => exact ⟨node, l', rfl⟩

/-- The loop of `push` terminates and drops the oldest records until the new one fits. -/
theorem evict_spec (h : Layout rb read write l) (hcap : Mapped rb.capacity)
    (hfull : total l < rb.capacity) (hneed : need ≤ rb.capacity) :
    ∃ s, whileLoop (fun _ => .diverged) (rb.evictCond need) rb.evictBody (rb.capacity + 1)
        (read, write) = .ok s ∧ Layout rb s.1 s.2 (dropToFit rb.capacity need l) := by
  -- the records that are left, of which still the same ones will stay
  refine whileLoop_spec
    (I := fun n s => ∃ k, Layout rb s.1 s.2 k ∧ total k < rb.capacity ∧ n = k.length ∧
      dropToFit rb.capacity need k = dropToFit rb.capacity need l)
    ?_ ?_ ?_ ⟨l, h, hfull, rfl, rfl⟩ ?_
  · rintro n s ⟨k, hk, hlt, -, hdrop⟩ hc
    have hfits : total k + need ≤ rb.capacity := by
      by_contra hgt
      have htrue : rb.evictCond need s = .ok true :=
        (evictCond_iff hk hcap hlt).2 (Nat.lt_of_not_le hgt)
      simp [htrue] at hc
    rw [← hdrop, dropToFit_of_fits hfits]
    exact hk
  · rintro n s ⟨k, hk, -⟩
    exact ⟨_, evictCond_eq hk hcap need⟩
  · rintro n s ⟨k, hk, hlt, rfl, hdrop⟩ hc
    have hgt := (evictCond_iff hk hcap hlt).1 hc
    obtain ⟨node, k, rfl⟩ := exists_cons_of_evictCond hk hcap hlt hneed hc
    obtain ⟨read', write', hrun, hk'⟩ := evictBody_spec hk hcap hlt
    refine ⟨(read', write'), k.length, hrun, Nat.lt_succ_self _, k, hk', ?_, rfl, ?_⟩
    · rw [total_cons] at hlt
      omega
    · rw [← hdrop, dropToFit, if_neg (by omega)]
  · -- each record takes at least one byte
    have := length_le_total l
    omega

/-- `push` drops the oldest of the records that it is aware of and appends the new one. -/
theorem push_spec (pad : ℕ → UInt8) (h : Holds rb l) (hcap : Mapped rb.capacity)
    (hsize : node.data.length = node.size) (hfits : footprint node ≤ rb.capacity) :
    ∃ rb', rb.push pad node = .ok rb' ∧ rb'.capacity = rb.capacity ∧
      Holds rb' (dropToFit rb.capacity (footprint node) (visible rb.capacity l) ++ [node]) := by
  obtain ⟨halign, hadd⟩ := footprint_eq hcap hfits
  -- the pointers, the evictions, and the copies one after the other
  obtain ⟨read, write, hstart, hL, hlt⟩ := pushStart_spec h hcap
  obtain ⟨⟨read', write'⟩, hevict, hL'⟩ := evict_spec hL hcap hlt hfits
  obtain ⟨m', write'', hwrite, hL''⟩ :=
    writeRecord_spec pad hL' hcap (total_dropToFit_le hfits) hsize
  refine ⟨{ rb with buffer := m', read := some read', write := some write'' }, ?_, rfl,
    .inr ⟨by simp, read', write'', rfl, rfl, hL''.read_lt, hL''.read_dvd, hL''.write_eq,
      hL''.fits, hL''.stored, hL''.sizes⟩⟩
  rw [halign] at hadd
  simp only [Buffer.push, bind, Except.bind, hstart, halign, hadd, gt_iff_lt,
    if_neg (Nat.not_lt.2 hfits), hevict, hwrite]

/-! ## Pop -/

/-- The data of a record, cut out of its padded copy. -/
theorem resize_data {m : Memory} {cap len : ℕ} (hlen : node.size ≤ len)
    (hsize : node.data.length = node.size)
    (hdata : ∀ i < node.size, node.data[i]? = some (m ((read + i) % cap))) :
    resize ((List.range len).map fun i => m ((read + i) % cap)) node.size = node.data := by
  have hzero : node.size - ((List.range len).map fun i => m ((read + i) % cap)).length = 0 := by
    rw [List.length_map, List.length_range]
    omega
  rw [resize, hzero, List.replicate_zero, List.append_nil]
  ext1 i
  by_cases hi : i < node.size
  · rw [hdata i hi, List.getElem?_take_of_lt hi, List.getElem?_map,
      List.getElem?_range (by omega), Option.map_some]
  · rw [List.getElem?_eq_none (by simp; omega), List.getElem?_eq_none (by omega)]

/-- `pop` returns the oldest record, or an empty node. -/
theorem pop_spec (h : Holds rb l) (hcap : Mapped rb.capacity) :
    ∃ rb', rb.pop = .ok (l.headD ⟨0, []⟩, rb') ∧ rb'.capacity = rb.capacity ∧ Holds rb' l.tail := by
  rcases h with ⟨rfl, hread, hwrite⟩ | ⟨hne, read, write, hread, hwrite, h⟩
  · exact ⟨rb, by simp [Buffer.pop, hread], rfl, .inl ⟨rfl, hread, hwrite⟩⟩
  cases l with
  | nil => exact absurd rfl hne
  | cons node l =>
    have hfits : footprint node ≤ rb.capacity := by
      have := h.fits
      rw [total_cons] at this
      omega
    obtain ⟨halign, -⟩ := footprint_eq hcap hfits
    have hhead := header_fits hcap h.read_lt h.read_dvd
    have hfp : footprint node = 8 + align8 node.size := rfl
    obtain ⟨next, hcopy, hnext⟩ :=
      readData_spec rb (align8 node.size) hcap hhead (by omega) (by omega)
    have hdata := resize_data (le_align8 node.size) (h.sizes node (List.mem_cons_self ..))
      h.stored.2.1
    have htail := h.tail hcap
    rw [Nat.add_assoc, ← hfp] at hnext
    simp only [Buffer.pop, hread, bind, Except.bind, h.loadSize hcap, halign, hcopy, hdata, hnext,
      hwrite, Option.some.injEq]
    by_cases heq : (read + footprint node) % rb.capacity = write
    · -- the pointers meet when nothing is left
      have hnil : l = [] := by
        rcases htail.read_eq_write_iff.1 heq with h0 | hfull
        · exact total_eq_zero_iff.1 h0
        · have := h.fits
          have := eight_le_footprint node
          rw [total_cons] at *
          omega
      rw [if_pos heq]
      exact ⟨_, rfl, rfl, .inl ⟨by simp [hnil], rfl, rfl⟩⟩
    · have hnil : l ≠ [] := by
        rintro rfl
        exact heq (htail.read_eq_write_iff.2 (.inl rfl))
      rw [if_neg heq]
      exact ⟨_, rfl, rfl, .inr ⟨hnil, _, write, rfl, rfl, htail.read_lt, htail.read_dvd,
        htail.write_eq, htail.fits, htail.stored, htail.sizes⟩⟩

/-! ## Uniqueness -/

/-- The bytes from a position on determine the records that take a given space. -/
theorem Stored.unique {m : Memory} {cap p : ℕ} (h : Stored m cap p l) (h' : Stored m cap p l')
    (hsizes : ∀ node ∈ l, node.data.length = node.size)
    (hsizes' : ∀ node ∈ l', node.data.length = node.size) (htotal : total l = total l') :
    l = l' := by
  induction l generalizing l' p with
  | nil => exact (total_eq_zero_iff.1 htotal.symm).symm
  | cons node l ih =>
    cases l' with
    | nil => exact total_eq_zero_iff.1 htotal
    | cons node' l' =>
      -- the size in the header tells where the record ends
      have hsize : node.size = node'.size := h.1.symm.trans h'.1
      have hdata : node.data = node'.data := by
        ext1 i
        by_cases hi : i < node.size
        · rw [h.2.1 i hi, h'.2.1 i (hsize ▸ hi)]
        · have hlen := hsizes node (List.mem_cons_self ..)
          have hlen' := hsizes' node' (List.mem_cons_self ..)
          rw [List.getElem?_eq_none (by omega), List.getElem?_eq_none (by omega)]
      obtain rfl : node = node' := by
        cases node
        cases node'
        simp_all
      rw [total_cons, total_cons, Nat.add_left_cancel_iff] at htotal
      rw [ih h.2.2 h'.2.2 (fun n hn => hsizes n (List.mem_cons_of_mem _ hn))
        (fun n hn => hsizes' n (List.mem_cons_of_mem _ hn)) htotal]

/-- A buffer holds one list of records only. -/
theorem Holds.unique (h : Holds rb l) (h' : Holds rb l') : l = l' := by
  rcases h with ⟨rfl, hread, -⟩ | ⟨hne, read, write, hread, hwrite, hL⟩
  · rcases h' with ⟨rfl, -⟩ | ⟨-, read', -, hread', -⟩
    · rfl
    · simp [hread] at hread'
  · rcases h' with ⟨rfl, hread', -⟩ | ⟨hne', read', write', hread', hwrite', hL'⟩
    · simp [hread] at hread'
    · obtain rfl : read = read' := Option.some.inj (hread.symm.trans hread')
      obtain rfl : write = write' := Option.some.inj (hwrite.symm.trans hwrite')
      refine hL.stored.unique hL'.stored hL.sizes hL'.sizes ?_
      -- both spaces are positive, at most the capacity, and end at the same place
      have hpos := mt total_eq_zero_iff.1 hne
      have hpos' := mt total_eq_zero_iff.1 hne'
      have hfits := hL.fits
      have hfits' := hL'.fits
      have hend := hL.write_eq.symm.trans hL'.write_eq
      by_contra hdiff
      rcases Nat.lt_or_gt_of_ne hdiff with hlt | hgt
      · exact position_ne hlt (by omega) hend
      · exact position_ne hgt (by omega) hend.symm

end CppLearn.RingBuffer

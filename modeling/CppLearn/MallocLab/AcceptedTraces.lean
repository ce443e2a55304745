import CppLearn.MallocLab.ReadTrace

/-!
# The trace files that are accepted

What `read_trace` knows about a trace that it returns, whatever the text is. The identifiers of the
requests `free` are not checked, and neither are those of a trace with no identifiers.

The function always ends (`terminates_readTrace`), and `readTrace_sound` is about the requests of a
trace that is accepted.
-/

namespace CppLearn.MallocLab

open BoundedLoop CheckedVector Scanf

variable {s s' : Reading} {text rest w : List UInt8} {n index size fuel : ℕ}

namespace Reading

/-- Reading a number does not make the text longer. -/
theorem scanUnsigned_length {r : Option ℕ} (h : scanUnsigned text = .ok (r, rest)) :
    rest.length ≤ text.length := by
  have hle := length_scanNumber_le text
  rw [scanUnsigned] at h
  split at h
  · next heq =>
    rw [heq] at hle
    obtain ⟨-, rfl⟩ := Prod.mk.inj (Except.ok.inj h)
    exact hle
  · next heq =>
    rw [heq] at hle
    split_ifs at h
    obtain ⟨-, rfl⟩ := Prod.mk.inj (Except.ok.inj h)
    exact hle

/-- Only `index` and `size` are read. -/
theorem scanPair_ok (h : s.scanPair text = .ok (s', rest)) :
    (∃ index size, s' = { s with index, size }) ∧ rest.length ≤ text.length := by
  obtain ⟨⟨r₁, text₁⟩, h₁, h⟩ := bind_eq_ok.1 h
  have hle₁ := scanUnsigned_length h₁
  cases r₁ with
  | none =>
    obtain ⟨rfl, rfl⟩ := Prod.mk.inj (Except.ok.inj h)
    exact ⟨⟨_, _, rfl⟩, hle₁⟩
  | some index =>
    obtain ⟨⟨r₂, text₂⟩, h₂, h⟩ := bind_eq_ok.1 h
    have hle₂ := scanUnsigned_length h₂
    cases r₂ with
    | none =>
      obtain ⟨rfl, rfl⟩ := Prod.mk.inj (Except.ok.inj h)
      exact ⟨⟨index, _, rfl⟩, hle₂.trans hle₁⟩
    | some size =>
      obtain ⟨rfl, rfl⟩ := Prod.mk.inj (Except.ok.inj h)
      exact ⟨⟨index, size, rfl⟩, hle₂.trans hle₁⟩

/-- An index that has been read. -/
theorem scanIndex_ok (h : s.scanIndex text = .ok (s', rest)) :
    (∃ index, s' = { s with index }) ∧ rest.length ≤ text.length := by
  obtain ⟨⟨r, text₁⟩, h₁, h⟩ := bind_eq_ok.1 h
  have hle := scanUnsigned_length h₁
  cases r with
  | none =>
    obtain ⟨rfl, rfl⟩ := Prod.mk.inj (Except.ok.inj h)
    exact ⟨⟨_, rfl⟩, hle⟩
  | some index =>
    obtain ⟨rfl, rfl⟩ := Prod.mk.inj (Except.ok.inj h)
    refine ⟨⟨index, rfl⟩, le_trans ?_ hle⟩
    split_ifs
    · exact List.length_tail.trans_le (Nat.sub_le _ _)
    · exact le_rfl

/-- A request that has been stored is inside the array. -/
theorem store_ok {op : TraceOp → TraceOp} (h : s.store op = .ok s') :
    ∃ old, s.opIndex < s.ops.length ∧
      s' = { s with ops := s.ops.set s.opIndex (op old), opIndex := s.opIndex + 1 } := by
  obtain ⟨old, hread, h⟩ := bind_eq_ok.1 h
  obtain ⟨ops, hwrite, h⟩ := bind_eq_ok.1 h
  have hlt := lt_of_read hread
  rw [write_ok hlt] at hwrite
  obtain rfl := Except.ok.inj hwrite
  exact ⟨old, hlt, (Except.ok.inj h).symm⟩

/-- The part of `ops` that was written, and the largest identifier in it. -/
structure Holds (capacity : ℕ) (s : Reading) : Prop where
  length : s.ops.length = capacity
  le : s.opIndex ≤ capacity
  le_max : ∀ op ∈ s.ops.take s.opIndex, op.type ≠ .free →
    ∃ i ≤ s.maxIndex, op.index = Signed.narrow 32 (i : ℕ)
  max_mem : s.maxIndex = 0 ∨ ∃ op ∈ s.ops.take s.opIndex, op.type ≠ .free ∧
    op.index = Signed.narrow 32 (s.maxIndex : ℕ)

/-- One more element is written. -/
theorem Holds.store {capacity m : ℕ} (h : Holds capacity s) (op : TraceOp) (index size : ℕ)
    (hlt : s.opIndex < s.ops.length) (hm : s.maxIndex ≤ m)
    (hop : op.type ≠ .free → ∃ i ≤ m, op.index = Signed.narrow 32 (i : ℕ))
    (hmem : m = s.maxIndex ∨ op.type ≠ .free ∧ op.index = Signed.narrow 32 (m : ℕ)) :
    Holds capacity ⟨index, size, m, s.opIndex + 1, s.ops.set s.opIndex op⟩ := by
  -- the requests so far, and the new one
  have htake : (s.ops.set s.opIndex op).take (s.opIndex + 1) = s.ops.take s.opIndex ++ [op] := by
    rw [List.take_add_one, List.take_set_of_le le_rfl, List.getElem?_set_self hlt]
    rfl
  refine ⟨(List.length_set ..).trans h.length, h.length ▸ hlt, ?_, ?_⟩
  · dsimp only
    rw [htake]
    intro op' hop' htype
    rcases List.mem_append.1 hop' with hold | hnew
    · obtain ⟨i, hi, hindex⟩ := h.le_max op' hold htype
      exact ⟨i, hi.trans hm, hindex⟩
    · obtain rfl := List.mem_singleton.1 hnew
      exact hop htype
  · dsimp only
    rw [htake]
    rcases hmem with rfl | hnew
    · refine h.max_mem.imp_right ?_
      rintro ⟨op', hold, hindex⟩
      exact ⟨op', List.mem_append_left _ hold, hindex⟩
    · exact .inr ⟨op, by simp, hnew⟩

/-- Lines with a size, -/
theorem Holds.sized {type : OpType} {capacity : ℕ} (h : Holds capacity s) (htype : type ≠ .free)
    (hrun : s.sized type text = .ok (s', rest)) :
    Holds capacity s' ∧ rest.length ≤ text.length := by
  obtain ⟨⟨s₁, text₁⟩, hscan, hrun⟩ := bind_eq_ok.1 hrun
  obtain ⟨s₂, hstore, hrun⟩ := bind_eq_ok.1 hrun
  obtain ⟨⟨index, size, rfl⟩, hle⟩ := scanPair_ok hscan
  obtain ⟨old, hlt, rfl⟩ := store_ok hstore
  obtain ⟨rfl, rfl⟩ := Prod.mk.inj (Except.ok.inj hrun)
  have hmax : (if index > s.maxIndex then index else s.maxIndex) = max s.maxIndex index := by
    split_ifs <;> omega
  refine ⟨?_, hle⟩
  dsimp only
  rw [hmax]
  -- the new request has the identifier that becomes the largest one, or a smaller one
  have hnew : ∃ i ≤ max s.maxIndex index, Signed.narrow 32 index = Signed.narrow 32 (i : ℕ) :=
    ⟨index, Nat.le_max_right _ _, rfl⟩
  have hstored := h.store ⟨type, Signed.narrow 32 index, Signed.narrow 32 size⟩ index size hlt
    (Nat.le_max_left s.maxIndex index)
  dsimp only at hstored
  refine hstored (fun _ => hnew) ?_
  rcases Nat.le_total s.maxIndex index with hle | hle
  · exact .inr ⟨htype, by rw [Nat.max_eq_right hle]⟩
  · exact .inl (Nat.max_eq_left hle)

/-- lines without one, -/
theorem Holds.unsized {capacity : ℕ} (h : Holds capacity s)
    (hrun : s.unsized text = .ok (s', rest)) : Holds capacity s' ∧ rest.length ≤ text.length := by
  obtain ⟨⟨s₁, text₁⟩, hscan, hrun⟩ := bind_eq_ok.1 hrun
  obtain ⟨s₂, hstore, hrun⟩ := bind_eq_ok.1 hrun
  obtain ⟨⟨index, rfl⟩, hle⟩ := scanIndex_ok hscan
  obtain ⟨old, hlt, rfl⟩ := store_ok hstore
  obtain ⟨rfl, rfl⟩ := Prod.mk.inj (Except.ok.inj hrun)
  exact ⟨h.store { old with type := .free, index := Signed.narrow 32 index } index s.size hlt le_rfl
    (fun hne => absurd rfl hne) (.inl rfl), hle⟩

/-- and any line that was accepted. -/
theorem Holds.next {capacity : ℕ} (h : Holds capacity s) (hrun : s.next w text = .ok (s', rest)) :
    Holds capacity s' ∧ rest.length ≤ text.length := by
  rw [Reading.next] at hrun
  split_ifs at hrun
  split at hrun
  · exact h.sized (by decide) hrun
  · exact h.sized (by decide) hrun
  · exact h.unsized hrun
  · cases hrun

/-! ### The end of the loop -/

/-- No part of the function loops: reading a number, -/
theorem terminates_scanUnsigned (text : List UInt8) : Terminates (scanUnsigned text) := by
  rw [scanUnsigned]
  split
  · exact terminates_ok _
  · split_ifs
    · exact terminates_ok _
    · simp

/-- storing a request, -/
theorem terminates_store (s : Reading) (op : TraceOp → TraceOp) : Terminates (s.store op) := by
  by_cases hlt : s.opIndex < s.ops.length
  · rw [store, read_eq hlt, ok_bind, write_ok hlt]
    exact terminates_ok _
  · have hread : CheckedVector.read s.ops s.opIndex = .error .invalidAccess := by
      rw [CheckedVector.read, if_pos (Int.natCast_nonneg _), Int.toNat_natCast,
        List.getElem?_eq_none (Nat.le_of_not_lt hlt)]
    rw [store, hread]
    exact terminates_error.2 (by decide)

/-- a line, -/
theorem terminates_next (s : Reading) (type text : List UInt8) :
    Terminates (s.next type text) := by
  have hpair : Terminates (s.scanPair text) :=
    (terminates_scanUnsigned text).bind fun ⟨r, text₁⟩ _ => by
      cases r with
      | none => exact terminates_ok _
      | some index =>
        exact (terminates_scanUnsigned text₁).bind fun ⟨r, _⟩ _ => by
          cases r <;> exact terminates_ok _
  have hindex : Terminates (s.scanIndex text) :=
    (terminates_scanUnsigned text).bind fun ⟨r, _⟩ _ => by cases r <;> exact terminates_ok _
  have hsized : ∀ type, Terminates (s.sized type text) := fun _ =>
    hpair.bind fun _ _ => (terminates_store _ _).bind fun _ _ => terminates_ok _
  rw [Reading.next]
  split_ifs
  · simp
  · split
    · exact hsized .alloc
    · exact hsized .realloc
    · exact hindex.bind fun _ _ => (terminates_store _ _).bind fun _ _ => terminates_ok _
    · simp

/-- The loop ends, as each iteration reads a word. -/
theorem Holds.readOps {capacity : ℕ} (h : Holds capacity s) (hfuel : text.length < fuel) :
    Terminates (s.readOps fuel text) ∧ ∀ s', s.readOps fuel text = .ok s' → Holds capacity s' := by
  induction fuel generalizing s text with
  | zero => exact absurd hfuel (Nat.not_lt_zero _)
  | succ fuel ih =>
    rw [Reading.readOps]
    split
    · exact ⟨terminates_ok _, fun s' hrun => Except.ok.inj hrun ▸ h⟩
    · next w text₁ hword =>
      -- a word is consumed, so that the rest of the text is shorter
      have hshort := length_scanWord_lt hword
      have hnext : ∀ s₁ rest, s.next w text₁ = .ok (s₁, rest) →
          Holds capacity s₁ ∧ rest.length < fuel := fun s₁ rest hrun => by
        obtain ⟨h₁, hle⟩ := h.next hrun
        exact ⟨h₁, by omega⟩
      constructor
      · refine (terminates_next s w text₁).bind fun r hrun => ?_
        obtain ⟨s₁, rest⟩ := r
        obtain ⟨h₁, hlt⟩ := hnext s₁ rest hrun
        exact (ih h₁ hlt).1
      · intro s' hrun
        obtain ⟨⟨s₁, rest⟩, hstep, hrun⟩ := bind_eq_ok.1 hrun
        obtain ⟨h₁, hlt⟩ := hnext s₁ rest hstep
        exact (ih h₁ hlt).2 s' hrun

end Reading

/-- A variable of type `int` has a value of that type. -/
theorem scanInt_fits {old x : ℤ} (hold : Signed.Fits 32 old)
    (h : scanInt old text = .ok (x, rest)) : Signed.Fits 32 x := by
  rw [scanInt] at h
  split at h
  · exact (Prod.mk.inj (Except.ok.inj h)).1 ▸ hold
  · split_ifs at h with hfits
    exact (Prod.mk.inj (Except.ok.inj h)).1 ▸ hfits

/-- or a number of the header. -/
theorem terminates_scanInt (old : ℤ) (text : List UInt8) : Terminates (scanInt old text) := by
  rw [scanInt]
  split
  · exact terminates_ok _
  · split_ifs
    · exact terminates_ok _
    · simp

/-- Before the first line, the arrays are allocated. -/
theorem Reading.holds_start (junk : Junk) (numOps : ℤ) :
    Holds (toSize (numOps * 12) / 12)
      ⟨0, junk.size, 0, 0, allocate junk.ops numOps 12⟩ := by
  refine ⟨by simp [allocate], Nat.zero_le _, ?_, .inl rfl⟩
  intro op hop
  exact absurd hop List.not_mem_nil

/-- The function always ends. -/
theorem terminates_readTrace (junk : Junk) (text : List UInt8) :
    Terminates (readTrace junk text) := by
  refine (terminates_scanInt _ _).bind fun _ _ => (terminates_scanInt _ _).bind fun _ _ =>
    (terminates_scanInt _ _).bind fun ⟨numOps, _⟩ _ => (terminates_scanInt _ _).bind fun _ _ => ?_
  refine ((Reading.holds_start junk numOps).readOps (Nat.lt_succ_self _)).1.bind fun s _ => ?_
  split_ifs
  · exact terminates_ok _
  · simp

/-- If an array has room for as many elements as the program counts, its size has not wrapped
around. -/
theorem natCast_eq_of_le {x : ℤ} (hx : Signed.Fits 32 x) (hle : toSize x ≤ toSize (x * 12) / 12) :
    x = (toSize x : ℕ) ∧ toSize (x * 12) / 12 = toSize x := by
  obtain ⟨hlow, hhigh⟩ := hx
  rw [toSize, toSize] at hle ⊢
  omega

/-- A trace that is accepted has the number of requests that its header says, even if the size of
the array has wrapped around. If the header has a positive number of identifiers, those of all
requests but `free` are below it, and the largest of them is used, or is zero. -/
theorem readTrace_sound (junk : Junk) (text : List UInt8) (t : Trace)
    (hrun : readTrace junk text = .ok t) :
    t.ops.length = t.numOps ∧
      (1 ≤ t.numIds → (∀ op ∈ t.ops, op.type ≠ .free → 0 ≤ op.index ∧ op.index < t.numIds) ∧
        (t.numIds = 1 ∨ ∃ op ∈ t.ops, op.type ≠ .free ∧ op.index = t.numIds - 1)) := by
  obtain ⟨⟨suggHeapsize, text₁⟩, -, hrun⟩ := bind_eq_ok.1 hrun
  obtain ⟨⟨numIds, text₂⟩, hnumIds, hrun⟩ := bind_eq_ok.1 hrun
  obtain ⟨⟨numOps, text₃⟩, hnumOps, hrun⟩ := bind_eq_ok.1 hrun
  obtain ⟨⟨weight, text₄⟩, -, hrun⟩ := bind_eq_ok.1 hrun
  obtain ⟨s, hloop, hrun⟩ := bind_eq_ok.1 hrun
  -- the loop keeps the number of the requests, and the largest identifier
  have hholds := ((Reading.holds_start junk numOps).readOps (Nat.lt_succ_self _)).2 s hloop
  split_ifs at hrun with hcheck
  obtain rfl := Except.ok.inj hrun
  obtain ⟨hmax, hcount⟩ := hcheck
  dsimp only
  have hle : toSize numOps ≤ toSize (numOps * 12) / 12 := hcount ▸ hholds.le
  -- the loop has not left the array, so the size of the array has not wrapped around
  obtain ⟨hnum, hcapacity⟩ := natCast_eq_of_le (scanInt_fits junk.numOps_fits hnumOps) hle
  have hlength : s.ops.length = s.opIndex := by rw [hholds.length, hcapacity, hcount]
  refine ⟨by rw [hlength, ← hcount]; exact hnum.symm, fun hids => ?_⟩
  obtain ⟨hlow, hhigh⟩ := scanInt_fits junk.numIds_fits hnumIds
  -- the last check compares the largest identifier with the header
  have hlast : (s.maxIndex : ℤ) = numIds - 1 := by
    rw [hmax, toSize]
    omega
  have hnarrow : ∀ i ≤ s.maxIndex, Signed.narrow 32 (i : ℕ) = i := fun i hi =>
    Signed.narrow_natCast (by omega)
  have htake : s.ops.take s.opIndex = s.ops := List.take_of_length_le hlength.le
  refine ⟨fun op hop htype => ?_, ?_⟩
  · obtain ⟨i, hi, hindex⟩ := hholds.le_max op (by rwa [htake]) htype
    rw [hindex, hnarrow i hi]
    omega
  · refine hholds.max_mem.imp (fun hzero => by omega) ?_
    rintro ⟨op, hop, htype, hindex⟩
    exact ⟨op, List.mem_of_mem_take hop, htype, by rw [hindex, hnarrow _ le_rfl, hlast]⟩

/-- The small file is accepted. -/
theorem readTrace_sound_smallFile :
    ∃ t, readTrace zeros smallFile = .ok t ∧ t.ops.length = t.numOps ∧
      (1 ≤ t.numIds → (∀ op ∈ t.ops, op.type ≠ .free → 0 ≤ op.index ∧ op.index < t.numIds) ∧
        (t.numIds = 1 ∨ ∃ op ∈ t.ops, op.type ≠ .free ∧ op.index = t.numIds - 1)) := by
  have hrun : readTrace zeros smallFile =
      .ok ⟨9, 2, 3, 1, [⟨.alloc, 1, 8⟩, ⟨.realloc, 1, 16⟩, ⟨.free, 1, 0⟩], [0, 0], [0, 0]⟩ := by
    decide +kernel
  exact ⟨_, hrun, readTrace_sound zeros smallFile _ hrun⟩

end CppLearn.MallocLab

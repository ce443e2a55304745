import CppLearn.RingBuffer.Correctness

/-!
# What `push` reads of the vector

`push` copies the data of a node in one piece or, around the end of the array, in two. The length
of what is copied is the size of the node rounded up to a multiple of eight, while the vector has
the size itself.

The indices that the copies read are `Buffer.pushReads`. `push` depends on the bytes at these
indices only (`push_congr`), which are computed by `pushReads_eq`. When they are inside the vector
is `push_reads_within_data_iff`.
-/

namespace CppLearn.RingBuffer

open BoundedLoop Unsigned

/-- The indices that the copies of `push` read, one after the other, when the data goes to
`write`. -/
def Buffer.dataReads (rb : Buffer) (write dataSize : ℕ) : List ℕ :=
  let freeSize := sub 64 rb.capacity write
  if freeSize < dataSize then
    List.range freeSize ++ (List.range (sub 64 dataSize freeSize)).map (freeSize + ·)
  else List.range dataSize

/-- The indices of `node.data` that `push` reads. -/
def Buffer.pushReads (rb : Buffer) (node : Node) : Except Fault (List ℕ) := do
  let s ← rb.pushStart
  let dataSize := evaluateAlignedSize node.size
  let size := add 64 8 dataSize
  if size > rb.capacity then .error .checkFailed
  else
    let (_, write) ←
      whileLoop (fun _ => .diverged) (rb.evictCond size) rb.evictBody (rb.capacity + 1) s
    .ok (rb.dataReads (write + 8) dataSize)

variable {rb : Buffer} {l : List Node} {node : Node}

/-! ## Reads and results -/

theorem copyIn_congr {src src' : ℕ → UInt8} {a len : ℕ} (h : ∀ i < len, src i = src' i) :
    rb.copyIn a src len = rb.copyIn a src' len := by
  unfold Buffer.copyIn
  split_ifs
  · congr 2
    funext p
    unfold Memory.write
    split_ifs with hp
    · exact h (p - a) (by omega)
    · rfl
  · rfl

/-- The copies depend on the bytes that they read. -/
theorem writeData_congr {src src' : ℕ → UInt8} {write dataSize : ℕ}
    (h : ∀ i ∈ rb.dataReads write dataSize, src i = src' i) :
    rb.writeData write src dataSize = rb.writeData write src' dataSize := by
  unfold Buffer.dataReads at h
  unfold Buffer.writeData
  by_cases hwrap : sub 64 rb.capacity write < dataSize
  · simp only [if_pos hwrap, List.mem_append, List.mem_range, List.mem_map] at h ⊢
    have hfront : ∀ i < sub 64 rb.capacity write, src i = src' i := fun i hi => h i (.inl hi)
    have hback : ∀ i < sub 64 dataSize (sub 64 rb.capacity write),
        src (sub 64 rb.capacity write + i) = src' (sub 64 rb.capacity write + i) :=
      fun i hi => h _ (.inr ⟨i, hi, rfl⟩)
    rw [copyIn_congr hfront]
    refine bind_congr fun rb' => ?_
    rw [copyIn_congr hback]
  · simp only [if_neg hwrap, List.mem_range] at h ⊢
    rw [copyIn_congr h]

theorem writeRecord_congr {pad pad' : ℕ → UInt8} {write dataSize : ℕ}
    (h : ∀ i ∈ rb.dataReads (write + 8) dataSize, node.byteAt pad i = node.byteAt pad' i) :
    rb.writeRecord pad write node dataSize = rb.writeRecord pad' write node dataSize := by
  -- the header does not change the capacity, which the ways of copying depend on
  have hdata := @writeData_congr { rb with buffer := rb.buffer.storeLE 8 write node.size } _ _ _ _ h
  unfold Buffer.writeRecord Buffer.storeSize
  split_ifs
  · simp only [bind, Except.bind, hdata]
  · rfl

/-- `push` depends on the bytes that it reads. -/
theorem push_congr {pad pad' : ℕ → UInt8} {reads : List ℕ} (hreads : rb.pushReads node = .ok reads)
    (h : ∀ i ∈ reads, node.byteAt pad i = node.byteAt pad' i) :
    rb.push pad node = rb.push pad' node := by
  unfold Buffer.pushReads at hreads
  unfold Buffer.push
  cases hstart : rb.pushStart with
  | error e => rfl
  | ok s =>
    simp only [hstart, bind, Except.bind] at hreads ⊢
    split_ifs at hreads ⊢
    cases hloop : whileLoop (fun _ => .diverged)
        (rb.evictCond (add 64 8 (evaluateAlignedSize node.size))) rb.evictBody
        (rb.capacity + 1) s with
    | error e => rfl
    | ok s' =>
      simp only [hloop] at hreads ⊢
      rw [← Except.ok.inj hreads] at h
      rw [writeRecord_congr h]

/-! ## The indices -/

/-- Both ways of copying read a beginning of the data, without gaps and once. -/
theorem dataReads_eq (hcap : Mapped rb.capacity) {write dataSize : ℕ} (hw : write ≤ rb.capacity)
    (hfit : dataSize ≤ rb.capacity) : rb.dataReads write dataSize = List.range dataSize := by
  have hbound := hcap.bound
  have hfree : sub 64 rb.capacity write = rb.capacity - write := sub_eq hw (by omega)
  unfold Buffer.dataReads
  rw [hfree]
  by_cases hwrap : rb.capacity - write < dataSize
  · have hrest : sub 64 dataSize (rb.capacity - write) = dataSize - (rb.capacity - write) :=
      sub_eq hwrap.le (by omega)
    simp only [if_pos hwrap, hrest]
    rw [← List.range_add, Nat.add_sub_cancel' hwrap.le]
  · simp only [if_neg hwrap]

/-- In every state `push` reads as many bytes as the record has room for. -/
theorem pushReads_eq (h : Holds rb l) (hcap : Mapped rb.capacity)
    (hfits : footprint node ≤ rb.capacity) :
    rb.pushReads node = .ok (List.range (align8 node.size)) := by
  obtain ⟨halign, hadd⟩ := footprint_eq hcap hfits
  obtain ⟨read, write, hstart, hL, hlt⟩ := pushStart_spec h hcap
  obtain ⟨⟨read', write'⟩, hevict, hL'⟩ := evict_spec hL hcap hlt hfits
  have hhead := header_fits hcap (hL'.write_lt hcap) (hL'.write_dvd hcap)
  have hfit : align8 node.size ≤ rb.capacity := le_trans (Nat.le_add_left _ 8) hfits
  rw [halign] at hadd
  simp only [Buffer.pushReads, bind, Except.bind, hstart, halign, hadd, gt_iff_lt,
    if_neg (Nat.not_lt.2 hfits), hevict, dataReads_eq hcap hhead hfit]

/-- Where `push` puts the bytes that it copies. -/
theorem push_stores (h : Holds rb l) (hcap : Mapped rb.capacity)
    (hfits : footprint node ≤ rb.capacity) :
    ∃ write, ∀ pad, ∃ rb', rb.push pad node = .ok rb' ∧
      ∀ i < align8 node.size, rb'.buffer ((write + i) % rb.capacity) = node.byteAt pad i := by
  obtain ⟨halign, hadd⟩ := footprint_eq hcap hfits
  obtain ⟨read, write, hstart, hL, hlt⟩ := pushStart_spec h hcap
  obtain ⟨⟨read', write'⟩, hevict, hL'⟩ := evict_spec hL hcap hlt hfits
  have hw := hL'.write_lt hcap
  have hhead := header_fits hcap hw (hL'.write_dvd hcap)
  have hfp : footprint node = 8 + align8 node.size := rfl
  refine ⟨write' + 8, fun pad => ?_⟩
  obtain ⟨m', next, hrun, -, hdata, -⟩ :=
    writeData_spec { rb with buffer := rb.buffer.storeLE 8 write' node.size } (node.byteAt pad)
      hcap hhead (by simp only; omega) (show align8 node.size ≤ rb.capacity by omega)
  rw [halign] at hadd
  refine ⟨⟨rb.capacity, m', some (if next = rb.capacity then 0 else next), some read'⟩, ?_, hdata⟩
  simp only [Buffer.push, bind, Except.bind, hstart, halign, hadd, gt_iff_lt,
    if_neg (Nat.not_lt.2 hfits), hevict, Buffer.writeRecord, Buffer.storeSize, if_pos hhead, hrun]

/-- In every state that calls on a new buffer lead to, `push` reads the vector of a node only below
its size exactly when this size is a multiple of eight. Otherwise it stores bytes that do not come
from the node. -/
theorem push_reads_within_data_iff (mmap : ℕ → Option Memory) (hmmap : MmapBounds mmap)
    (size : ℕ) (rb₀ rb : Buffer) (hinit : init mmap size = some rb₀) (ops : List Op)
    (hops : ∀ op ∈ ops, op.Fits rb₀.capacity) (outs : List Node)
    (hrun : rb₀.run ops = .ok (outs, rb)) (node : Node) (hsize : node.data.length = node.size)
    (hfits : footprint node ≤ rb.capacity) :
    ∃ reads, rb.pushReads node = .ok reads ∧
      ((∀ i ∈ reads, i < node.data.length) ↔ 8 ∣ node.size) ∧
      ((∀ pad pad', rb.push pad node = rb.push pad' node) ↔ 8 ∣ node.size) := by
  obtain ⟨hcap₀, h₀⟩ := init_spec hmmap hinit
  obtain ⟨outs', rb', -, l, hrun', -, hc, h, -⟩ := run_popped_sublist h₀ rfl hcap₀ hops
  obtain ⟨rfl, rfl⟩ := Prod.mk.inj (Except.ok.inj (hrun.symm.trans hrun'))
  have hcap : Mapped rb.capacity := hc ▸ hcap₀
  have hreads := pushReads_eq h hcap hfits
  refine ⟨_, hreads, ?_, fun hpad => ?_, fun hdvd pad pad' => ?_⟩
  · simp only [List.mem_range, hsize, ← align8_le_iff]
    exact ⟨fun hlt => Nat.le_of_not_lt fun hgt => (hlt _ hgt).false,
      fun hle i hi => hi.trans_le hle⟩
  · by_contra hdvd
    have hlt : node.size < align8 node.size := Nat.lt_of_not_le (mt align8_le_iff.1 hdvd)
    -- the byte behind the end of the vector is the first one that is made up
    have hbyte (b : UInt8) : node.byteAt (fun _ => b) node.size = b :=
      List.getD_eq_getElem?_getD.trans (by rw [List.getElem?_eq_none hsize.le]; rfl)
    obtain ⟨write, hstores⟩ := push_stores h hcap hfits
    obtain ⟨rb₁, hpush₁, hbytes₁⟩ := hstores fun _ => 0
    obtain ⟨rb₂, hpush₂, hbytes₂⟩ := hstores fun _ => 1
    obtain rfl := Except.ok.inj (hpush₁.symm.trans ((hpad _ _).trans hpush₂))
    have heq := (hbytes₁ _ hlt).symm.trans (hbytes₂ _ hlt)
    rw [hbyte, hbyte] at heq
    exact absurd heq (by decide)
  · refine push_congr hreads fun i hi => ?_
    have hlt : i < node.data.length := by
      rw [hsize]
      exact (List.mem_range.1 hi).trans_le (align8_le_iff.2 hdvd)
    simp only [Node.byteAt, List.getD_eq_getElem?_getD, List.getElem?_eq_getElem hlt,
      Option.getD_some]

/-- A push that wraps around the end of a buffer of 56 bytes, with eight bytes on either side. -/
theorem push_reads_within_wrapped_data :
    ∃ outs rb, Buffer.run ⟨56, fun _ => 0, none, none⟩ [.push (fun _ => 0) (uniformNode 8 1),
        .push (fun _ => 0) (uniformNode 16 2), .pop] = .ok (outs, rb) ∧
      ∃ reads, rb.pushReads (uniformNode 16 3) = .ok reads ∧ ∀ i ∈ reads, i < 16 := by
  have hops : ∀ op ∈ [Op.push (fun _ => 0) (uniformNode 8 1),
      .push (fun _ => 0) (uniformNode 16 2), .pop], op.Fits 56 := by
    simp only [List.forall_mem_cons, List.not_mem_nil, false_imp_iff, implies_true, and_true]
    exact ⟨uniformNode_fits (by decide) _ 1, uniformNode_fits (by decide) _ 2, trivial⟩
  have hinit : init anonymousMmap 56 = some ⟨56, fun _ => 0, none, none⟩ := rfl
  obtain ⟨hcap, h⟩ := init_spec anonymousMmap_bounds hinit
  obtain ⟨outs, rb, -, -, hrun, -, hc, -⟩ := run_popped_sublist h rfl hcap hops
  obtain ⟨reads, hreads, hlt, -⟩ := push_reads_within_data_iff anonymousMmap anonymousMmap_bounds 56
    _ rb hinit _ hops outs hrun (uniformNode 16 3) rfl (by rw [hc]; decide)
  exact ⟨outs, rb, hrun, reads, hreads, hlt.2 (by decide)⟩

/-- Eight bytes out of a vector of one. -/
theorem push_reads_behind_data :
    ∃ rb, init anonymousMmap 32 = some rb ∧ footprint (uniformNode 1 7) ≤ rb.capacity ∧
      ∃ reads, rb.pushReads (uniformNode 1 7) = .ok reads ∧
        ¬ ∀ i ∈ reads, i < (uniformNode 1 7).data.length := by
  refine ⟨⟨32, fun _ => 0, none, none⟩, rfl, by decide, List.range 8, ?_, by decide⟩
  decide +kernel

end CppLearn.RingBuffer

import CppLearn.RingBuffer.Operations

/-!
# The ring buffer over whole runs

Any sequence of calls that respects the interface of a ring buffer runs without a fault, keeps the
buffer parsable, and returns records that have been pushed, in order. Against a bounded FIFO that
drops its oldest records the buffer falls short in one situation: when the records fill it exactly
the pointers coincide, `push` takes the buffer for empty, and every record is lost, also those for
which there is room.

The FIFO is `fifoApply`, and `fifoRun` for a whole run. A run refines it (`RefinesFifo`) exactly if
no call meets an exactly full buffer with records worth keeping (`KeepsRecords`); this is
`refinesFifo_iff`. What holds after any run is `run_wellFormed_sublist`.
-/

namespace CppLearn.RingBuffer

open BoundedLoop Unsigned

/-- `mmap` fails on a length of zero and on lengths that exceed the address space. -/
def MmapBounds (mmap : ℕ → Option Memory) : Prop :=
  ∀ length m, mmap length = some m → 0 < length ∧ length < 2 ^ 63

/-- The calls that a client may make: the vector of a node has the size that the node says, and
the record fits into the buffer. -/
def Op.Fits (cap : ℕ) : Op → Prop
  | .push _ node => node.data.length = node.size ∧ footprint node ≤ cap
  | .pop => True

/-! ## The bounded FIFO -/

/-- A call on the drop-oldest FIFO of capacity `cap`. -/
def fifoApply (cap : ℕ) (l : List Node) : Op → Option Node × List Node
  | .push _ node => (none, dropToFit cap (footprint node) l ++ [node])
  | .pop => (some (l.headD ⟨0, []⟩), l.tail)

/-- A sequence of calls on the FIFO, with the nodes that they return. -/
def fifoRun (cap : ℕ) : List Node → List Op → List Node × List Node
  | l, [] => ([], l)
  | l, op :: ops =>
    let (out, l) := fifoApply cap l op
    let (outs, l) := fifoRun cap l ops
    (out.toList ++ outs, l)

/-- After each call of the run the buffer has returned what the FIFO of capacity `cap` returns and
holds the records of the FIFO, which starts with the records in `l`. -/
def RefinesFifo (cap : ℕ) (rb : Buffer) (l : List Node) (ops : List Op) : Prop :=
  ∀ pre, pre <+: ops → ∃ rb', rb.run pre = .ok ((fifoRun cap l pre).1, rb') ∧
    Holds rb' (fifoRun cap l pre).2

/-- The records do not fill the buffer exactly, or a push has to drop the newest one as well. -/
def KeepsRecords (cap : ℕ) (l : List Node) : Op → Prop
  | .push _ node => total l = cap → ∀ newest ∈ l.getLast?, cap < footprint newest + footprint node
  | .pop => True

/-- `KeepsRecords` at each call of a run of the FIFO. -/
def RunKeepsRecords (cap : ℕ) : List Node → List Op → Prop
  | _, [] => True
  | l, op :: ops => KeepsRecords cap l op ∧ RunKeepsRecords cap (fifoApply cap l op).2 ops

variable {rb : Buffer} {l : List Node} {op : Op} {ops : List Op}

/-- Everything is dropped when not even the newest record can stay. -/
theorem dropToFit_eq_nil_iff {cap need : ℕ} :
    dropToFit cap need l = [] ↔ ∀ newest ∈ l.getLast?, cap < footprint newest + need := by
  induction l with
  | nil => simp [dropToFit]
  | cons node l ih =>
    -- the newest record stays the longest
    have hnewest : ∀ newest ∈ (node :: l).getLast?, footprint newest ≤ total (node :: l) := by
      intro newest hmem
      obtain ⟨init, hl⟩ := List.getLast?_eq_some_iff.1 hmem
      rw [hl, total_append, total_cons, total_nil]
      omega
    unfold dropToFit
    split_ifs with hfits
    · refine iff_of_false (by simp) fun h => ?_
      have hmem : (node :: l).getLast (by simp) ∈ (node :: l).getLast? := by
        rw [List.getLast?_eq_some_getLast]
        rfl
      have := h _ hmem
      have := hnewest _ hmem
      omega
    · rw [ih]
      cases l with
      | nil =>
        rw [total_cons, total_nil] at hfits
        simp
        omega
      | cons node' l => rw [List.getLast?_cons_cons]

/-- The list of records after a call on the buffer. -/
def bufferApply (cap : ℕ) (l : List Node) : Op → List Node
  | .push _ node => dropToFit cap (footprint node) (visible cap l) ++ [node]
  | .pop => l.tail

/-- The buffer and the FIFO keep the same records exactly when no record worth keeping is lost. -/
theorem bufferApply_eq_iff {cap : ℕ} :
    bufferApply cap l op = (fifoApply cap l op).2 ↔ KeepsRecords cap l op := by
  cases op with
  | pop => exact iff_of_true rfl trivial
  | push pad node =>
    simp only [bufferApply, fifoApply, KeepsRecords, List.append_cancel_right_eq, visible]
    by_cases hfull : total l = cap
    · rw [if_pos hfull, dropToFit, eq_comm, dropToFit_eq_nil_iff]
      simp [hfull]
    · simp [hfull]

/-- One call on a buffer: it returns what the FIFO returns. -/
theorem apply_spec {cap : ℕ} (h : Holds rb l) (hc : rb.capacity = cap) (hcap : Mapped cap)
    (hop : op.Fits cap) :
    ∃ rb', rb.apply op = .ok ((fifoApply cap l op).1, rb') ∧ rb'.capacity = cap ∧
      Holds rb' (bufferApply cap l op) := by
  subst hc
  cases op with
  | push pad node =>
    obtain ⟨rb', hrun, hc, h'⟩ := push_spec pad h hcap hop.1 hop.2
    exact ⟨rb', by simp only [Buffer.apply, hrun, bind, Except.bind, fifoApply], hc, h'⟩
  | pop =>
    obtain ⟨rb', hrun, hc, h'⟩ := pop_spec h hcap
    exact ⟨rb', by simp only [Buffer.apply, hrun, bind, Except.bind, fifoApply], hc, h'⟩

/-- The rest of a run after its first call. -/
theorem run_cons_iff {rb' rb'' : Buffer} {out : Option Node} {outs : List Node}
    (h : rb.apply op = .ok (out, rb')) :
    rb.run (op :: ops) = .ok (out.toList ++ outs, rb'') ↔ rb'.run ops = .ok (outs, rb'') := by
  simp only [Buffer.run, h, bind, Except.bind]
  cases rb'.run ops with
  | error e => simp
  | ok r =>
    obtain ⟨o, b⟩ := r
    simp

/-- A run refines the FIFO when its first call and the rest do. -/
theorem refinesFifo_cons_iff {cap : ℕ} {rb' : Buffer}
    (hrun : rb.apply op = .ok ((fifoApply cap l op).1, rb')) (h : Holds rb l)
    (h' : Holds rb' (bufferApply cap l op)) :
    RefinesFifo cap rb l (op :: ops) ↔
      KeepsRecords cap l op ∧ RefinesFifo cap rb' (fifoApply cap l op).2 ops := by
  constructor
  · intro href
    have hrest : RefinesFifo cap rb' (fifoApply cap l op).2 ops := by
      intro pre hpre
      obtain ⟨rb₁, hrun₁, h₁⟩ := href (op :: pre) (List.cons_prefix_cons.2 ⟨rfl, hpre⟩)
      exact ⟨rb₁, (run_cons_iff hrun).1 hrun₁, h₁⟩
    refine ⟨bufferApply_eq_iff.1 ?_, hrest⟩
    -- the buffer holds the list of the FIFO after the first call already
    obtain ⟨rb₁, hrun₁, h₁⟩ := hrest [] List.nil_prefix
    obtain rfl : rb' = rb₁ := (Prod.mk.inj (Except.ok.inj hrun₁)).2
    exact h'.unique h₁
  · rintro ⟨-, hrest⟩ pre hpre
    cases pre with
    | nil => exact ⟨rb, rfl, h⟩
    | cons o pre =>
      obtain ⟨rfl, htail⟩ := List.cons_prefix_cons.1 hpre
      obtain ⟨rb₁, hrun₁, h₁⟩ := hrest pre htail
      exact ⟨rb₁, (run_cons_iff hrun).2 hrun₁, h₁⟩

/-- Refinement of a run, from any list of records on. -/
theorem refinesFifo_iff_of_holds {cap : ℕ} (h : Holds rb l) (hc : rb.capacity = cap)
    (hcap : Mapped cap) (hops : ∀ op ∈ ops, op.Fits cap) :
    RefinesFifo cap rb l ops ↔ RunKeepsRecords cap l ops := by
  induction ops generalizing rb l with
  | nil =>
    refine iff_of_true (fun pre hpre => ?_) trivial
    rw [List.prefix_nil.1 hpre]
    exact ⟨rb, rfl, h⟩
  | cons op ops ih =>
    obtain ⟨rb', hrun, hc', h'⟩ := apply_spec h hc hcap (hops op (List.mem_cons_self ..))
    rw [refinesFifo_cons_iff hrun h h']
    -- as long as the records are kept, the buffer holds what the queue holds
    refine and_congr_right fun hkeep => ?_
    rw [bufferApply_eq_iff.2 hkeep] at h'
    exact ih h' hc' fun o ho => hops o (List.mem_cons_of_mem _ ho)

/-- A buffer that `init` has created. -/
theorem init_spec {mmap : ℕ → Option Memory} {size : ℕ} (hmmap : MmapBounds mmap)
    (hinit : init mmap size = some rb) : Mapped rb.capacity ∧ Holds rb [] := by
  unfold init at hinit
  obtain ⟨m, hm, rfl⟩ := Option.map_eq_some_iff.1 hinit
  obtain ⟨hpos, hbound⟩ := hmmap _ _ hm
  exact ⟨⟨hpos, Nat.dvd_mul_left 8 _, hbound⟩, .inl ⟨rfl, rfl, rfl⟩⟩

/-- A run of calls on a new buffer refines the drop-oldest FIFO exactly when no push meets an
exactly full buffer in which the FIFO would keep a record. -/
theorem refinesFifo_iff (mmap : ℕ → Option Memory) (hmmap : MmapBounds mmap) (size : ℕ)
    (rb : Buffer) (hinit : init mmap size = some rb) (ops : List Op)
    (hops : ∀ op ∈ ops, op.Fits rb.capacity) :
    RefinesFifo rb.capacity rb [] ops ↔ RunKeepsRecords rb.capacity [] ops := by
  obtain ⟨hcap, h⟩ := init_spec hmmap hinit
  exact refinesFifo_iff_of_holds h rfl hcap hops

/-- An anonymous mapping is filled with zeros. -/
def anonymousMmap (length : ℕ) : Option Memory :=
  if 0 < length ∧ length < 2 ^ 63 then some fun _ => 0 else none

theorem anonymousMmap_bounds : MmapBounds anonymousMmap := by
  intro length m h
  unfold anonymousMmap at h
  split_ifs at h with hb
  exact hb

/-- A node of `size` equal bytes. -/
def uniformNode (size : ℕ) (b : UInt8) : Node := ⟨size, List.replicate size b⟩

theorem uniformNode_fits {cap size : ℕ} (h : 8 + align8 size ≤ cap) (pad : ℕ → UInt8) (b : UInt8) :
    (Op.push pad (uniformNode size b)).Fits cap :=
  ⟨List.length_replicate, h⟩

/-- The calls of the test of the repository, on a buffer of 40 bytes. -/
theorem refinesFifo_five_byte_records :
    RefinesFifo 40 ⟨40, fun _ => 0, none, none⟩ []
      [.push (fun _ => 0) (uniformNode 5 1), .push (fun _ => 0) (uniformNode 5 2),
        .push (fun _ => 0) (uniformNode 5 3), .pop, .pop] := by
  refine (refinesFifo_iff anonymousMmap anonymousMmap_bounds 40 ⟨40, fun _ => 0, none, none⟩ rfl _
    ?_).2 ?_
  · simp only [List.forall_mem_cons, List.not_mem_nil, false_imp_iff, implies_true, and_true]
    exact ⟨uniformNode_fits (by decide) _ 1, uniformNode_fits (by decide) _ 2,
      uniformNode_fits (by decide) _ 3, trivial, trivial⟩
  · simp [RunKeepsRecords, KeepsRecords, fifoApply, dropToFit, footprint, uniformNode, total,
      align8]

/-- Three records of eight bytes in a buffer of 32: the third push loses the second record. -/
theorem push_into_full_buffer :
    ∃ rb, init anonymousMmap 32 = some rb ∧
      (∀ op ∈ [.push (fun _ => 0) (uniformNode 8 1), .push (fun _ => 0) (uniformNode 8 2),
        .push (fun _ => 0) (uniformNode 8 3), .pop], Op.Fits rb.capacity op) ∧
      ¬ RefinesFifo rb.capacity rb []
        [.push (fun _ => 0) (uniformNode 8 1), .push (fun _ => 0) (uniformNode 8 2),
          .push (fun _ => 0) (uniformNode 8 3), .pop] := by
  refine ⟨⟨32, fun _ => 0, none, none⟩, rfl, ?_, fun href => ?_⟩
  · simp only [List.forall_mem_cons, List.not_mem_nil, false_imp_iff, implies_true, and_true]
    exact ⟨uniformNode_fits (by decide) _ 1, uniformNode_fits (by decide) _ 2,
      uniformNode_fits (by decide) _ 3, trivial⟩
  · obtain ⟨rb', hrun, -⟩ := href _ (List.prefix_refl _)
    -- the buffer returns the third record, the FIFO the second
    have hne : (Buffer.run ⟨32, fun _ => 0, none, none⟩
        [.push (fun _ => 0) (uniformNode 8 1), .push (fun _ => 0) (uniformNode 8 2),
          .push (fun _ => 0) (uniformNode 8 3), .pop]).toOption.map Prod.fst ≠
        some (fifoRun 32 []
          [.push (fun _ => 0) (uniformNode 8 1), .push (fun _ => 0) (uniformNode 8 2),
            .push (fun _ => 0) (uniformNode 8 3), .pop]).1 := by decide +kernel
    exact hne (by rw [hrun]; rfl)

/-! ## What holds after any run -/

/-- The nodes that a run pushes. -/
def pushed : List Op → List Node
  | [] => []
  | .push _ node :: ops => node :: pushed ops
  | .pop :: ops => pushed ops

/-- The nodes that a run pops from a buffer that is not empty. -/
def Buffer.popped : Buffer → List Op → Except Fault (List Node)
  | _, [] => .ok []
  | rb, op :: ops => do
    let (out, rb') ← rb.apply op
    let outs ← popped rb' ops
    .ok ((if rb.empty then [] else out.toList) ++ outs)

/-- The pointers `(read_, write_)` at which a push of a record that takes `size` bytes evaluates
the condition of its loop. -/
inductive EvictState (rb : Buffer) (size : ℕ) : ℕ × ℕ → Prop
  | start {s : ℕ × ℕ} : rb.pushStart = .ok s → EvictState rb size s
  | step {s s' : ℕ × ℕ} : EvictState rb size s → rb.evictCond size s = .ok true →
      rb.evictBody s = .ok s' → EvictState rb size s'

/-- All along the loop of `push` the pointers enclose some of the newest records. -/
theorem EvictState.layout {size : ℕ} {s : ℕ × ℕ} (hs : EvictState rb size s) (h : Holds rb l)
    (hcap : Mapped rb.capacity) (hsize : size ≤ rb.capacity) :
    ∃ k, k <:+ l ∧ Layout rb s.1 s.2 k ∧ total k < rb.capacity := by
  induction hs with
  | start hstart =>
    obtain ⟨read, write, hrun, hL, hlt⟩ := pushStart_spec h hcap
    obtain rfl := Except.ok.inj (hstart.symm.trans hrun)
    exact ⟨_, visible_suffix _ l, hL, hlt⟩
  | step _ hc hbody ih =>
    obtain ⟨k, hk, hL, hlt⟩ := ih
    -- the loop runs only while there is a record to drop
    obtain ⟨node, k', rfl⟩ := exists_cons_of_evictCond hL hcap hlt hsize hc
    obtain ⟨read', write', hrun, hL'⟩ := evictBody_spec hL hcap hlt
    obtain rfl := Except.ok.inj (hbody.symm.trans hrun)
    refine ⟨k', (List.suffix_cons node k').trans hk, hL', ?_⟩
    rw [total_cons] at hlt
    omega

theorem Holds.empty_iff (h : Holds rb l) : rb.empty = true ↔ l = [] := by
  rcases h with ⟨rfl, hread, -⟩ | ⟨hne, read, write, hread, -⟩
  · simp [Buffer.empty, hread]
  · simp [Buffer.empty, hread, hne]

/-- A run from a buffer with records `l` pops records of `l` and records that it pushes, in order,
and keeps later ones. -/
theorem run_popped_sublist {cap : ℕ} (h : Holds rb l) (hc : rb.capacity = cap) (hcap : Mapped cap)
    (hops : ∀ op ∈ ops, op.Fits cap) :
    ∃ outs rb' nodes l', rb.run ops = .ok (outs, rb') ∧ rb.popped ops = .ok nodes ∧
      rb'.capacity = cap ∧ Holds rb' l' ∧ (nodes ++ l').Sublist (l ++ pushed ops) := by
  induction ops generalizing rb l with
  | nil => exact ⟨[], rb, [], l, rfl, rfl, hc, h, by simp [pushed]⟩
  | cons op ops ih =>
    obtain ⟨rb₁, hrun, hc₁, h₁⟩ := apply_spec h hc hcap (hops op (List.mem_cons_self ..))
    obtain ⟨outs, rb', nodes, l', hrest, hpop, hc', h', hsub⟩ :=
      ih h₁ hc₁ fun o ho => hops o (List.mem_cons_of_mem _ ho)
    refine ⟨_, rb', (if rb.empty then [] else (fifoApply cap l op).1.toList) ++ nodes, l',
      (run_cons_iff hrun).2 hrest, ?_, hc', h', ?_⟩
    · simp only [Buffer.popped, hrun, hpop, bind, Except.bind]
    cases op with
    | push pad node =>
      -- `push` pops nothing: it drops the oldest records
      have hsuffix : dropToFit cap (footprint node) (visible cap l) <:+ l :=
        (dropToFit_suffix ..).trans (visible_suffix cap l)
      simp only [fifoApply, Option.toList_none, ite_self, List.nil_append]
      calc (nodes ++ l').Sublist
            (dropToFit cap (footprint node) (visible cap l) ++ [node] ++ pushed ops) := hsub
        _ = dropToFit cap (footprint node) (visible cap l) ++ (node :: pushed ops) := by simp
        List.Sublist _ (l ++ (node :: pushed ops)) := hsuffix.sublist.append_right _
    | pop =>
      cases l with
      | nil =>
        rw [if_pos (h.empty_iff.2 rfl)]
        exact hsub
      | cons node l =>
        -- the record that is popped is the first of the list
        rw [if_neg (by simp [h.empty_iff])]
        exact hsub.cons_cons node

/-- The number of bytes from `read` cyclically to `write`, a whole round when they are equal. -/
def span (cap read write : ℕ) : ℕ := if read = write then cap else (write + cap - read) % cap

/-- The pointers of a buffer are sound and its bytes are the given records. -/
structure WellFormed (rb : Buffer) (records : List Node) : Prop where
  /-- The pointers are null, or aligned offsets between which there are the records only. -/
  parse : (rb.read = none ∧ rb.write = none ∧ records = []) ∨
    ∃ read write, rb.read = some read ∧ rb.write = some write ∧
      (8 ∣ read ∧ read < rb.capacity) ∧ (8 ∣ write ∧ write < rb.capacity) ∧
      Stored rb.buffer rb.capacity read records ∧ total records = span rb.capacity read write
  /-- The header that `pop` reads is the size of the oldest record. -/
  pop_header : ∀ read, rb.read = some read →
    ∃ node rest, records = node :: rest ∧ rb.loadSize read = .ok node.size
  /-- The headers that the loop of `push` reads are sizes of records. -/
  evict_header : ∀ size ≤ rb.capacity, ∀ s, EvictState rb size s →
    rb.evictCond size s = .ok true → ∃ node rest, node :: rest <:+ records ∧
      Stored rb.buffer rb.capacity s.1 (node :: rest) ∧ rb.loadSize s.1 = .ok node.size

/-- The space between the pointers is the one that the records take. -/
theorem Layout.total_eq_span {read write : ℕ} (h : Layout rb read write l) (hne : l ≠ []) :
    total l = span rb.capacity read write := by
  have hlt := h.read_lt
  have hfits := h.fits
  have hpos := mt total_eq_zero_iff.1 hne
  unfold span
  split_ifs with heq
  · rcases h.read_eq_write_iff.1 heq with h0 | hfull
    · exact absurd h0 hpos
    · exact hfull
  · have hfull : total l ≠ rb.capacity := fun hf => heq (h.read_eq_write_iff.2 (.inr hf))
    rw [h.write_eq]
    -- whether the records run over the end of the storage
    by_cases hsum : read + total l < rb.capacity
    · have hdist : read + total l + rb.capacity - read = total l + rb.capacity := by omega
      rw [Nat.mod_eq_of_lt hsum, hdist, Nat.add_mod_right, Nat.mod_eq_of_lt (by omega)]
    · have hmod : (read + total l) % rb.capacity = read + total l - rb.capacity := by
        rw [Nat.mod_eq_sub_mod (by omega), Nat.mod_eq_of_lt (by omega)]
      have hdist : read + total l - rb.capacity + rb.capacity - read = total l := by omega
      rw [hmod, hdist, Nat.mod_eq_of_lt (by omega)]

theorem Holds.wellFormed (h : Holds rb l) (hcap : Mapped rb.capacity) : WellFormed rb l where
  parse := by
    rcases h with ⟨hl, hread, hwrite⟩ | ⟨hne, read, write, hread, hwrite, hL⟩
    · exact .inl ⟨hread, hwrite, hl⟩
    · exact .inr ⟨read, write, hread, hwrite, ⟨hL.read_dvd, hL.read_lt⟩,
        ⟨hL.write_dvd hcap, hL.write_lt hcap⟩, hL.stored, hL.total_eq_span hne⟩
  pop_header read hread := by
    rcases h with ⟨-, hnone, -⟩ | ⟨hne, read', write, hread', -, hL⟩
    · simp [hnone] at hread
    · obtain rfl : read' = read := Option.some.inj (hread'.symm.trans hread)
      obtain ⟨node, rest, rfl⟩ := List.exists_cons_of_ne_nil hne
      exact ⟨node, rest, rfl, hL.loadSize hcap⟩
  evict_header size hsize s hs hc := by
    obtain ⟨k, hk, hL, hlt⟩ := hs.layout h hcap hsize
    obtain ⟨node, rest, rfl⟩ := exists_cons_of_evictCond hL hcap hlt hsize hc
    exact ⟨node, rest, hk, hL.stored, hL.loadSize hcap⟩

/-- Any run of calls on a new buffer terminates without leaving the array. Afterwards the buffer is
well formed, and the nodes popped so far, followed by the records in the buffer, are a subsequence
of the nodes pushed. -/
theorem run_wellFormed_sublist (mmap : ℕ → Option Memory) (hmmap : MmapBounds mmap) (size : ℕ)
    (rb₀ : Buffer) (hinit : init mmap size = some rb₀) (ops : List Op)
    (hops : ∀ op ∈ ops, op.Fits rb₀.capacity) :
    ∃ outs rb nodes records, rb₀.run ops = .ok (outs, rb) ∧ rb₀.popped ops = .ok nodes ∧
      WellFormed rb records ∧ (nodes ++ records).Sublist (pushed ops) := by
  obtain ⟨hcap, h⟩ := init_spec hmmap hinit
  obtain ⟨outs, rb, nodes, records, hrun, hpop, hc, hrec, hsub⟩ :=
    run_popped_sublist h rfl hcap hops
  exact ⟨outs, rb, nodes, records, hrun, hpop, hrec.wellFormed (hc ▸ hcap), hsub⟩

/-- A run that fills a buffer of 32 bytes and goes on. -/
theorem run_wellFormed_full_buffer :
    ∃ outs rb nodes records, Buffer.run ⟨32, fun _ => 0, none, none⟩
        [.push (fun _ => 0) (uniformNode 8 1), .push (fun _ => 0) (uniformNode 8 2),
          .push (fun _ => 0) (uniformNode 8 3), .pop] = .ok (outs, rb) ∧
      Buffer.popped ⟨32, fun _ => 0, none, none⟩
        [.push (fun _ => 0) (uniformNode 8 1), .push (fun _ => 0) (uniformNode 8 2),
          .push (fun _ => 0) (uniformNode 8 3), .pop] = .ok nodes ∧
      WellFormed rb records ∧
      (nodes ++ records).Sublist [uniformNode 8 1, uniformNode 8 2, uniformNode 8 3] := by
  refine run_wellFormed_sublist anonymousMmap anonymousMmap_bounds 32
    ⟨32, fun _ => 0, none, none⟩ rfl _ ?_
  simp only [List.forall_mem_cons, List.not_mem_nil, false_imp_iff, implies_true, and_true]
  exact ⟨uniformNode_fits (by decide) _ 1, uniformNode_fits (by decide) _ 2,
    uniformNode_fits (by decide) _ 3, trivial⟩

end CppLearn.RingBuffer

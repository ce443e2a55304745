import CppLearn.RingBuffer.Defs
import Mathlib.Data.Nat.ModEq
import Mathlib.Algebra.BigOperators.Group.List.Basic

/-!
# The records in a ring buffer

A nonempty ring buffer holds a list of records one after the other, from `read_` on, around the
end of the array. Positions are counted without wrapping and taken modulo the capacity where a
byte is accessed, so that consecutive records have consecutive positions.

`Mapped` is what `init` guarantees about the capacity. The space that records take is their
`footprint`, and `Layout` says that the pointers and the bytes agree with a list of records. The
parts of `push` and `pop` are `writeRecord_spec`, `evictBody_spec` and `readData_spec`.
-/

namespace CppLearn.RingBuffer

open BoundedLoop Unsigned

/-- The capacities of buffers that `init` can create: a multiple of eight, not zero, and small
enough for `mmap` to succeed and for pointer differences to be defined. -/
structure Mapped (capacity : ℕ) : Prop where
  pos : 0 < capacity
  aligned : 8 ∣ capacity
  bound : capacity < 2 ^ 63

/-- The space that a record takes in the buffer. -/
def footprint (node : Node) : ℕ := 8 + align8 node.size

/-- The space that a list of records takes. -/
def total (l : List Node) : ℕ := (l.map footprint).sum

@[simp]
theorem total_nil : total [] = 0 := rfl

/-- The records of a list take up the sum of their sizes. -/
@[simp]
theorem total_cons (node : Node) (l : List Node) : total (node :: l) = footprint node + total l :=
  List.sum_cons

@[simp]
theorem total_append (l l' : List Node) : total (l ++ l') = total l + total l' := by
  simp [total]

/-- A record has at least its header, -/
theorem eight_le_footprint (node : Node) : 8 ≤ footprint node := Nat.le_add_right ..

/-- and is padded to a multiple of eight, -/
theorem dvd_footprint (node : Node) : 8 ∣ footprint node :=
  Nat.dvd_add (Nat.dvd_refl 8) (dvd_align8 node.size)

/-- so that all records together are one too, -/
theorem dvd_total (l : List Node) : 8 ∣ total l := by
  induction l with
  | nil => exact Nat.dvd_zero 8
  | cons node l ih =>
    rw [total_cons]
    exact Nat.dvd_add (dvd_footprint node) ih

/-- A list of records is not longer than the space that it takes. -/
theorem length_le_total (l : List Node) : l.length ≤ total l := by
  induction l with
  | nil => exact Nat.le_refl 0
  | cons node l ih =>
    have := eight_le_footprint node
    rw [total_cons, List.length_cons]
    omega

/-- Without overflow the code computes the footprint. -/
theorem footprint_eq {cap : ℕ} (hcap : Mapped cap) {node : Node} (h : footprint node ≤ cap) :
    evaluateAlignedSize node.size = align8 node.size ∧
      add 64 8 (evaluateAlignedSize node.size) = footprint node := by
  have hbound := hcap.bound
  have hle := le_align8 node.size
  unfold footprint at h
  have halign : evaluateAlignedSize node.size = align8 node.size := alignUp8_eq (by omega)
  refine ⟨halign, ?_⟩
  rw [halign]
  exact add_eq (by omega)

/-! ## Positions -/

section Positions

variable {cap p r w i j : ℕ}

/-- Positions less than one round apart are different places. -/
theorem position_ne (hij : i < j) (hj : j < i + cap) : (p + i) % cap ≠ (p + j) % cap := by
  intro h
  have hmod : p + i ≡ p + j [MOD cap] := h
  have hdvd : cap ∣ p + j - (p + i) := (Nat.modEq_iff_dvd' (by omega)).1 hmod
  have hle := Nat.le_of_dvd (by omega) hdvd
  omega

/-- Moving a pointer forward, back to the start of the array where its end is reached. -/
theorem wrap_eq (hr : r ≤ cap) (hi : r + i < 2 * cap) :
    (if (if cap - r < i then i - (cap - r) else r + i) = cap then 0
      else if cap - r < i then i - (cap - r) else r + i) = (r + i) % cap := by
  by_cases h : cap - r < i
  · have hsum : r + i = i - (cap - r) + cap := by omega
    rw [if_pos h, if_neg (by omega), hsum, Nat.add_mod_right, Nat.mod_eq_of_lt (by omega)]
  · rw [if_neg h]
    by_cases heq : r + i = cap
    · rw [if_pos heq, heq, Nat.mod_self]
    · rw [if_neg heq, Nat.mod_eq_of_lt (by omega)]

/-- The distance that the loop of `push` computes. -/
theorem distance_eq (hcap : Mapped cap) (hr : r < cap) {n : ℕ} (hn : n ≤ cap) :
    add 64 (sub 64 ((r + n) % cap) r) cap % cap = n % cap := by
  have hbound := hcap.bound
  by_cases h : r + n < cap
  · rw [Nat.mod_eq_of_lt h, sub_eq (by omega) (by omega), add_eq (by omega), Nat.add_mod_right,
      Nat.add_sub_cancel_left]
  · have hsum : r + n = r + n - cap + cap := by omega
    rw [hsum, Nat.add_mod_right, Nat.mod_eq_of_lt (show r + n - cap < cap by omega)]
    -- the pointer difference is negative, or zero in a full buffer
    have hdist : add 64 (sub 64 (r + n - cap) r) cap = n := by
      unfold add sub
      omega
    rw [hdist]

/-- A multiple of eight below the capacity leaves room for a header. -/
theorem header_fits (hcap : Mapped cap) (hr : r < cap) (h8 : 8 ∣ r) : r + 8 ≤ cap := by
  obtain ⟨a, rfl⟩ := h8
  obtain ⟨b, rfl⟩ := hcap.aligned
  omega

/-- and offsets in the array stay aligned around its end. -/
theorem dvd_position (hcap : Mapped cap) (h8 : 8 ∣ p) : 8 ∣ p % cap :=
  (Nat.dvd_mod_iff hcap.aligned).2 h8

end Positions

/-! ## Records in memory -/

/-- The bytes from position `p` on are the records in `l`: for each of them its size, its data,
and padding. -/
def Stored (m : Memory) (cap : ℕ) : ℕ → List Node → Prop
  | _, [] => True
  | p, node :: l =>
    m.loadLE 8 (p % cap) = node.size ∧
      (∀ i < node.size, node.data[i]? = some (m ((p + 8 + i) % cap))) ∧
      Stored m cap (p + footprint node) l

section Stored

variable {m m' : Memory} {cap p : ℕ} {l l' : List Node}

/-- Positions count around the end of the array. -/
theorem stored_mod_iff : Stored m cap (p % cap) l ↔ Stored m cap p l := by
  induction l generalizing p with
  | nil => exact Iff.rfl
  | cons node l ih =>
    unfold Stored
    rw [← ih (p := p % cap + footprint node), ← ih (p := p + footprint node), Nat.mod_add_mod]
    simp only [Nat.mod_mod, Nat.add_assoc, Nat.mod_add_mod]

/-- Records are stored behind each other. -/
theorem stored_append :
    Stored m cap p (l ++ l') ↔ Stored m cap p l ∧ Stored m cap (p + total l) l' := by
  induction l generalizing p with
  | nil => simp [Stored]
  | cons node l ih =>
    simp only [List.cons_append, Stored, ih, total_cons, Nat.add_assoc, and_assoc]

/-- Records depend on the bytes that they take only. -/
theorem Stored.congr (hcap : Mapped cap) (h8 : 8 ∣ p) (h : Stored m cap p l)
    (heq : ∀ i < total l, m' ((p + i) % cap) = m ((p + i) % cap)) : Stored m' cap p l := by
  induction l generalizing p with
  | nil => trivial
  | cons node l ih =>
    obtain ⟨hsize, hdata, hl⟩ := h
    have hfp : footprint node = 8 + align8 node.size := rfl
    have hle := le_align8 node.size
    rw [total_cons] at heq
    refine ⟨?_, fun i hi => ?_, ?_⟩
    · rw [← hsize]
      apply Memory.loadLE_congr
      intro i hi
      -- the header does not wrap
      have hfit := header_fits hcap (Nat.mod_lt p hcap.pos) (dvd_position hcap h8)
      have hpos : (p + i) % cap = p % cap + i := by
        rw [← Nat.mod_add_mod, Nat.mod_eq_of_lt (by omega)]
      rw [← hpos]
      exact heq i (by omega)
    · rw [hdata i hi, Nat.add_assoc, heq (8 + i) (by omega)]
    · apply ih (Nat.dvd_add h8 (dvd_footprint node)) hl
      intro i hi
      rw [Nat.add_assoc]
      exact heq (footprint node + i) (by omega)

end Stored

/-- The records in `l` lie between `read_` and `write_`. The list is empty, or takes the whole
buffer, where the pointers coincide. -/
structure Layout (rb : Buffer) (read write : ℕ) (l : List Node) : Prop where
  read_lt : read < rb.capacity
  read_dvd : 8 ∣ read
  write_eq : write = (read + total l) % rb.capacity
  fits : total l ≤ rb.capacity
  stored : Stored rb.buffer rb.capacity read l
  sizes : ∀ node ∈ l, node.data.length = node.size

section Layout

variable {rb : Buffer} {read write : ℕ} {node : Node} {l : List Node}

/-- The offset of the next record is inside the array, -/
theorem Layout.write_lt (h : Layout rb read write l) (hcap : Mapped rb.capacity) :
    write < rb.capacity := by
  rw [h.write_eq]
  exact Nat.mod_lt _ hcap.pos

/-- and aligned. -/
theorem Layout.write_dvd (h : Layout rb read write l) (hcap : Mapped rb.capacity) : 8 ∣ write := by
  rw [h.write_eq]
  exact dvd_position hcap (Nat.dvd_add h.read_dvd (dvd_total l))

/-- No records, anywhere. -/
theorem Layout.nil (hread : read < rb.capacity) (h8 : 8 ∣ read) : Layout rb read read [] :=
  ⟨hread, h8, (Nat.mod_eq_of_lt hread).symm, Nat.zero_le _, trivial, by simp⟩

/-- The header at `read_` is the size of the oldest record. -/
theorem Layout.loadSize (h : Layout rb read write (node :: l)) (hcap : Mapped rb.capacity) :
    rb.loadSize read = .ok node.size := by
  obtain ⟨hsize, -⟩ := h.stored
  rw [Nat.mod_eq_of_lt h.read_lt] at hsize
  rw [Buffer.loadSize, if_pos (header_fits hcap h.read_lt h.read_dvd), hsize]

/-- Without its oldest record. -/
theorem Layout.tail (h : Layout rb read write (node :: l)) (hcap : Mapped rb.capacity) :
    Layout rb ((read + footprint node) % rb.capacity) write l where
  read_lt := Nat.mod_lt _ hcap.pos
  read_dvd := dvd_position hcap (Nat.dvd_add h.read_dvd (dvd_footprint node))
  write_eq := by rw [h.write_eq, total_cons, Nat.mod_add_mod, Nat.add_assoc]
  fits := by
    have := h.fits
    rw [total_cons] at this
    omega
  stored := stored_mod_iff.2 h.stored.2.2
  sizes node' hn := h.sizes node' (List.mem_cons_of_mem _ hn)

/-- The pointers coincide exactly when there is nothing or no room left. -/
theorem Layout.read_eq_write_iff (h : Layout rb read write l) :
    read = write ↔ total l = 0 ∨ total l = rb.capacity := by
  have hlt := h.read_lt
  have hfits := h.fits
  rw [h.write_eq]
  by_cases hsum : read + total l < rb.capacity
  · rw [Nat.mod_eq_of_lt hsum]
    omega
  · have hmod : (read + total l) % rb.capacity = read + total l - rb.capacity := by
      rw [Nat.mod_eq_sub_mod (by omega), Nat.mod_eq_of_lt (by omega)]
    rw [hmod]
    omega

/-- Only an empty list takes up nothing. -/
theorem total_eq_zero_iff : total l = 0 ↔ l = [] := by
  constructor
  · intro h
    have := length_le_total l
    exact List.length_eq_zero_iff.1 (by omega)
  · rintro rfl
    rfl

/-- One iteration of the loop of `push` drops the oldest record. When nothing is left, both
pointers go back to the start. -/
theorem evictBody_spec (h : Layout rb read write (node :: l)) (hcap : Mapped rb.capacity)
    (hfull : total (node :: l) < rb.capacity) :
    ∃ read' write', rb.evictBody (read, write) = .ok (read', write') ∧
      Layout rb read' write' l := by
  have hfp : footprint node ≤ rb.capacity := by
    have := h.fits
    rw [total_cons] at this
    omega
  have hlt := h.read_lt
  have hbound := hcap.bound
  have hsub : sub 64 rb.capacity read = rb.capacity - read := sub_eq (by omega) (by omega)
  have htail := h.tail hcap
  simp only [Buffer.evictBody, h.loadSize hcap, bind, Except.bind, (footprint_eq hcap hfp).2, hsub,
    wrap_eq (Nat.le_of_lt hlt) (show read + footprint node < 2 * rb.capacity by omega)]
  -- the pointers meet when the last record has been dropped: the buffer was not full
  by_cases heq : (read + footprint node) % rb.capacity = write
  · rw [if_pos heq]
    refine ⟨0, 0, rfl, ?_⟩
    have hnil : l = [] := by
      rw [total_cons] at hfull
      rcases htail.read_eq_write_iff.1 heq with h0 | hc
      · exact total_eq_zero_iff.1 h0
      · omega
    rw [hnil]
    exact Layout.nil hcap.pos (Nat.dvd_zero 8)
  · rw [if_neg heq]
    exact ⟨_, _, rfl, htail⟩

/-- The condition of the loop of `push`: the free space does not suffice. -/
theorem evictCond_eq (h : Layout rb read write l) (hcap : Mapped rb.capacity) (size : ℕ) :
    rb.evictCond size (read, write) =
      .ok (decide (rb.capacity - total l % rb.capacity < size)) := by
  have hmod := Nat.mod_lt (total l) hcap.pos
  have hbound := hcap.bound
  rw [Buffer.evictCond, h.write_eq, distance_eq hcap h.read_lt h.fits,
    sub_eq (Nat.le_of_lt hmod) (by omega)]

end Layout

/-! ## Writing and reading a record -/

section Record

variable {rb : Buffer} {read write : ℕ} {node : Node} {l : List Node}

/-- The bytes of a block that is written around the end of the array. -/
theorem write_wrapped {m : Memory} {cap a len i : ℕ} {src : ℕ → UInt8} (ha : a ≤ cap)
    (hlen : cap - a < len) (hfit : len ≤ cap) (hi : i < len) :
    ((m.write a src (cap - a)).write 0 (fun j => src (cap - a + j)) (len - (cap - a)))
      ((a + i) % cap) = src i := by
  by_cases h : a + i < cap
  · rw [Nat.mod_eq_of_lt h, Memory.write_of_not_mem (.inr (by omega)),
      Memory.write_of_mem (by omega)]
  · have hpos : (a + i) % cap = 0 + (a + i - cap) := by
      rw [Nat.mod_eq_sub_mod (by omega), Nat.mod_eq_of_lt (by omega), Nat.zero_add]
    rw [hpos, Memory.write_of_mem (by omega)]
    congr 1
    omega

/-- The copies of `push` write the source around the end of the array and nothing else. -/
theorem writeData_spec (rb : Buffer) (src : ℕ → UInt8) {len : ℕ} (hcap : Mapped rb.capacity)
    (hw : write ≤ rb.capacity) (hlen : write + len < 2 * rb.capacity) (hfit : len ≤ rb.capacity) :
    ∃ m' next, rb.writeData write src len = .ok ({ rb with buffer := m' }, next) ∧
      (if next = rb.capacity then 0 else next) = (write + len) % rb.capacity ∧
      (∀ i < len, m' ((write + i) % rb.capacity) = src i) ∧
      ∀ q < rb.capacity, (∀ i < len, q ≠ (write + i) % rb.capacity) → m' q = rb.buffer q := by
  have hbound := hcap.bound
  have hfree : sub 64 rb.capacity write = rb.capacity - write := sub_eq hw (by omega)
  have hnext := wrap_eq hw hlen
  by_cases h : rb.capacity - write < len
  · have hrest : sub 64 len (rb.capacity - write) = len - (rb.capacity - write) :=
      sub_eq (Nat.le_of_lt h) (by omega)
    rw [if_pos h] at hnext
    refine ⟨(rb.buffer.write write src (rb.capacity - write)).write 0
      (fun j => src (rb.capacity - write + j)) (len - (rb.capacity - write)), _, ?_, hnext,
      fun i hi => write_wrapped hw h hfit hi, fun q hq hne => ?_⟩
    · simp only [Buffer.writeData, hfree, if_pos h, Buffer.copyIn, bind, Except.bind, hrest,
        if_pos (show write + (rb.capacity - write) ≤ rb.capacity by omega),
        if_pos (show 0 + (len - (rb.capacity - write)) ≤ rb.capacity by omega)]
    · -- a byte in one of the two blocks would be one of those at the positions written
      have hback : len - (rb.capacity - write) ≤ q := by
        by_contra hlt
        refine hne (q + (rb.capacity - write)) (by omega) ?_
        have hsum : write + (q + (rb.capacity - write)) = q + rb.capacity := by omega
        rw [hsum, Nat.add_mod_right, Nat.mod_eq_of_lt hq]
      have hfront : q < write := by
        by_contra hle
        refine hne (q - write) (by omega) ?_
        rw [Nat.add_sub_cancel' (by omega), Nat.mod_eq_of_lt hq]
      rw [Memory.write_of_not_mem (.inr (by omega)), Memory.write_of_not_mem (.inl hfront)]
  · rw [if_neg h] at hnext
    refine ⟨rb.buffer.write write src len, write + len, ?_, hnext, fun i hi => ?_,
      fun q hq hne => ?_⟩
    · simp only [Buffer.writeData, hfree, if_neg h, Buffer.copyIn, bind, Except.bind,
        if_pos (show write + len ≤ rb.capacity by omega)]
    · rw [Nat.mod_eq_of_lt (by omega), Memory.write_of_mem hi]
    · apply Memory.write_of_not_mem
      by_contra hin
      refine hne (q - write) (by omega) ?_
      rw [Nat.add_sub_cancel' (by omega), Nat.mod_eq_of_lt hq]

/-- The part of `push` after the loop appends a record. -/
theorem writeRecord_spec (pad : ℕ → UInt8) (h : Layout rb read write l) (hcap : Mapped rb.capacity)
    (hroom : total l + footprint node ≤ rb.capacity) (hsize : node.data.length = node.size) :
    ∃ m' write', rb.writeRecord pad write node (align8 node.size) =
        .ok ({ rb with buffer := m' }, write') ∧
      Layout { rb with buffer := m' } read write' (l ++ [node]) := by
  have hw := h.write_lt hcap
  have hbound := hcap.bound
  have hfp : footprint node = 8 + align8 node.size := rfl
  have hle := le_align8 node.size
  have hhead := header_fits hcap hw (h.write_dvd hcap)
  obtain ⟨m', next, hrun, hnext, hdata, hkeep⟩ :=
    writeData_spec { rb with buffer := rb.buffer.storeLE 8 write node.size } (node.byteAt pad)
      hcap hhead (by simp only; omega)
      (show align8 node.size ≤ rb.capacity by omega)
  simp only at hrun hnext hdata hkeep
  have hcond : (write + 8 + align8 node.size) % rb.capacity =
      (read + total (l ++ [node])) % rb.capacity := by
    rw [h.write_eq, Nat.add_assoc, ← hfp, Nat.mod_add_mod, total_append, total_cons, total_nil,
      Nat.add_zero, Nat.add_assoc]
  -- earlier records lie at other positions, and the new one is what has been written
  have hstored : Stored m' rb.capacity read (l ++ [node]) := by
    have hpos : ∀ j, (write + j) % rb.capacity = (read + (total l + j)) % rb.capacity := by
      intro j
      rw [h.write_eq, Nat.mod_add_mod, Nat.add_assoc]
    refine stored_append.2 ⟨h.stored.congr hcap h.read_dvd fun i hi => ?_, ?_, fun i hi => ?_,
      trivial⟩
    · have hne : ∀ j < footprint node, (read + i) % rb.capacity ≠ (write + j) % rb.capacity := by
        intro j hj
        rw [hpos]
        exact position_ne (by omega) (by omega)
      rw [hkeep _ (Nat.mod_lt _ hcap.pos) fun j hj => by
        rw [Nat.add_assoc]
        exact hne (8 + j) (by omega)]
      apply Memory.storeLE_of_not_mem
      by_contra hin
      refine hne ((read + i) % rb.capacity - write) (by omega) ?_
      rw [Nat.add_sub_cancel' (by omega), Nat.mod_mod]
    · have hheader : m'.loadLE 8 write = (rb.buffer.storeLE 8 write node.size).loadLE 8 write := by
        apply Memory.loadLE_congr
        intro j hj
        refine hkeep _ (by omega) fun i hi => ?_
        rw [← Nat.mod_eq_of_lt (show write + j < rb.capacity by omega), Nat.add_assoc]
        exact position_ne (by omega) (by omega)
      rw [← h.write_eq]
      exact hheader.trans (Memory.loadLE_storeLE (by omega))
    · have hbyte : (read + total l + 8 + i) % rb.capacity = (write + 8 + i) % rb.capacity := by
        rw [Nat.add_assoc write, hpos, Nat.add_assoc, Nat.add_assoc]
      rw [hbyte, hdata i (by omega), Node.byteAt, List.getD_eq_getElem?_getD,
        List.getElem?_eq_getElem (by omega), Option.getD_some]
  refine ⟨m', _, ?_, ⟨h.read_lt, h.read_dvd, hcond, ?_, hstored, ?_⟩⟩
  · simp only [Buffer.writeRecord, Buffer.storeSize, bind, Except.bind, if_pos hhead, hrun, hnext]
  · rw [total_append, total_cons, total_nil]
    exact hroom
  · intro node' hmem
    rcases List.mem_append.1 hmem with hmem | hmem
    · exact h.sizes node' hmem
    · rw [List.mem_singleton.1 hmem, hsize]

/-- The copies of `pop` read the bytes at the positions of the data. -/
theorem readData_spec (rb : Buffer) (len : ℕ) (hcap : Mapped rb.capacity) (hr : read ≤ rb.capacity)
    (hlen : read + len < 2 * rb.capacity) (hfit : len ≤ rb.capacity) :
    ∃ next, rb.readData read len =
        .ok ((List.range len).map fun i => rb.buffer ((read + i) % rb.capacity), next) ∧
      (if next = rb.capacity then 0 else next) = (read + len) % rb.capacity := by
  have hbound := hcap.bound
  have htail : sub 64 rb.capacity read = rb.capacity - read := sub_eq hr (by omega)
  have hnext := wrap_eq hr hlen
  -- two copies if the data run over the end of the storage, else one
  by_cases h : rb.capacity - read < len
  · have hrest : sub 64 len (rb.capacity - read) = len - (rb.capacity - read) :=
      sub_eq (Nat.le_of_lt h) (by omega)
    rw [if_pos h] at hnext
    refine ⟨_, ?_, hnext⟩
    simp only [Buffer.readData, htail, if_pos h, Buffer.copyOut, bind, Except.bind, hrest,
        if_pos (show read + (rb.capacity - read) ≤ rb.capacity by omega),
        if_pos (show 0 + (len - (rb.capacity - read)) ≤ rb.capacity by omega)]
    have hsum : len = (rb.capacity - read) + (len - (rb.capacity - read)) := by omega
    congr 2
    conv_rhs => rw [hsum, List.range_add, List.map_append, List.map_map]
    congr 1
    · apply List.map_congr_left
      intro i hi
      rw [List.mem_range] at hi
      rw [Nat.mod_eq_of_lt (by omega)]
    · apply List.map_congr_left
      intro i hi
      rw [List.mem_range] at hi
      -- the second copy starts at the beginning of the storage
      have hwrap : read + (rb.capacity - read + i) = i + rb.capacity := by omega
      simp only [Function.comp_apply, hwrap, Nat.add_mod_right, Nat.zero_add]
      rw [Nat.mod_eq_of_lt (by omega)]
  · rw [if_neg h] at hnext
    refine ⟨read + len, ?_, hnext⟩
    simp only [Buffer.readData, htail, if_neg h, Buffer.copyOut, bind, Except.bind,
        if_pos (show read + len ≤ rb.capacity by omega)]
    congr 2
    apply List.map_congr_left
    intro i hi
    rw [List.mem_range] at hi
    rw [Nat.mod_eq_of_lt (by omega)]

end Record

end CppLearn.RingBuffer

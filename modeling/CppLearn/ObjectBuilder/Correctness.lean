import CppLearn.ObjectBuilder.Defs

/-!
# Images of an `ObjectBuilder`

After any construction the objects lie next to each other, at multiples of their alignments. The
members of objects are then pieces of the buffer that do not overlap, so an update of one of them
is not seen by the others; and as a pointer holds a distance, all members read the same in a copy of
the buffer at another address.

`Inv` is the invariant of constructions, which calls keep (`Inv.allocate`, `Inv.update`). In
particular members do not overlap (`Inv.apart`), and a pointer can lead to any place in the buffer
(`Inv.admits_pointer`). For every member, `run_image` says that its last update (`lastUpdate`) can
be read in any copy (`Value.ReadAt`).
-/

namespace CppLearn.ObjectBuilder

open Traces

variable {b : Buffer} {T : Layout} {n : ℕ} {s s' : State} {c : Call} {calls : List Call}

/-! ## Allocations -/

theorem computeAlignedSize_eq {size k : ℕ} (hsize : size < 2 ^ 31) (hk : k < 64) :
    (computeAlignedSize (BitVec.ofNat 64 size) (BitVec.ofNat 64 (2 ^ k))).toNat =
      Unsigned.alignTo k size := by
  have hpow : 2 ^ k ≤ 2 ^ 63 := Nat.pow_le_pow_right (by decide) (by omega)
  have hpos := Nat.one_le_two_pow (n := k)
  have hmask : (BitVec.ofNat 64 (2 ^ k) - 1#64).toNat = 2 ^ k - 1 := by
    rw [BitVec.ofNat_sub_ofNat_of_le _ _ (by decide) hpos, BitVec.toNat_ofNat,
      Nat.mod_eq_of_lt (by omega)]
  have hsum : (BitVec.ofNat 64 size + (BitVec.ofNat 64 (2 ^ k) - 1#64)).toNat =
      size + (2 ^ k - 1) := by
    rw [BitVec.toNat_add, hmask, BitVec.toNat_ofNat, Nat.mod_eq_of_lt (by omega : size < 2 ^ 64),
      Nat.mod_eq_of_lt (by omega)]
  unfold computeAlignedSize
  rw [Unsigned.toNat_and_not_mask hk]
  exact congrArg (· / 2 ^ k * 2 ^ k) hsum

theorem allocate_eq : allocate b T = allocateArray b T 1 := by
  simp only [allocate, allocateArray, Nat.cast_one, mul_one]

/-- Without overflow, `allocate` appends the array at the next multiple of the alignment. -/
theorem allocateArray_eq (h : Unsigned.alignTo T.logAlign b.size + T.size * n < 2 ^ 31) :
    allocateArray b T n = ((Unsigned.alignTo T.logAlign b.size : ℤ),
      b.resize (Unsigned.alignTo T.logAlign b.size + T.size * n)) := by
  have hle := Unsigned.le_alignTo T.logAlign b.size
  have hoffset : Signed.narrow 32
      (computeAlignedSize (BitVec.ofNat 64 b.size) (BitVec.ofNat 64 T.align)).toNat =
        (Unsigned.alignTo T.logAlign b.size : ℤ) := by
    unfold Layout.align
    rw [computeAlignedSize_eq (by omega) T.logAlign_lt, Signed.narrow_eq]
    constructor <;> omega
  have hsize : (((Unsigned.alignTo T.logAlign b.size : ℤ) + T.size * n) % 2 ^ 64).toNat =
      Unsigned.alignTo T.logAlign b.size + T.size * n := by
    rw [← Nat.cast_mul, ← Nat.cast_add, Int.emod_eq_of_lt (by omega) (by omega), Int.toNat_natCast]
  simp only [allocateArray, hoffset, hsize]

/-! ## Members -/

/-- A member of an object. -/
structure Member where
  object : ℤ
  field : Field
  deriving DecidableEq

/-- The position in the buffer. -/
def Member.position (m : Member) : ℤ := m.object + m.field.offset

/-- What a member can be given: a target, or the bytes of a value. -/
inductive Value where
  | pointer (target : ℤ)
  | normal (val : List UInt8)

/-- The member that a call updates, and its new value. -/
def Call.update : Call → Option (Member × Value)
  | .allocate _ | .allocateArray _ _ => none
  | .updateObjectPointerMember object dataPtr offset => some (⟨object, dataPtr⟩, .pointer offset)
  | .updateObjectNormalMember object dataPtr val => some (⟨object, dataPtr⟩, .normal val)

/-- The value that the last update of the member gave to it. -/
def lastUpdate (calls : List Call) (m : Member) : Option Value :=
  ((calls.filterMap Call.update).reverse.find? (·.1 = m)).map (·.2)

/-- In a memory with a copy of the buffer at address `base`, the member has the value. -/
def Value.ReadAt (mem : Memory) (base : ℕ) (m : Member) : Value → Prop
  | .pointer target =>
    m.field.size = 4 ∧ address mem (base + m.position.toNat) = base + target
  | .normal val => mem.bytes (base + m.position.toNat) m.field.size = val

variable {m m' : Member} {v v' : Value} {mem mem' : Memory} {base : ℕ}

/-- A value depends on the bytes of the member only, and not on the place of the buffer. -/
theorem Value.ReadAt.congr (h : v.ReadAt mem 0 m)
    (heq : ∀ i < m.field.size, mem' (base + m.position.toNat + i) = mem (m.position.toNat + i)) :
    v.ReadAt mem' base m := by
  cases v with
  | pointer target =>
    obtain ⟨hsize, haddr⟩ := h
    rw [hsize] at heq
    refine ⟨hsize, ?_⟩
    simp only [address, Nat.cast_zero, zero_add] at haddr
    simp only [address, Memory.loadLE_congr heq]
    push_cast
    omega
  | normal val =>
    simp only [Value.ReadAt, Nat.zero_add] at h ⊢
    rw [Memory.bytes_congr heq, h]

theorem lastUpdate_concat : lastUpdate (calls ++ [c]) m =
    match c.update with
    | none => lastUpdate calls m
    | some (m', v) => if m' = m then some v else lastUpdate calls m := by
  unfold lastUpdate
  rw [List.filterMap_append]
  cases hc : c.update with
  | none => simp [hc]
  | some u => by_cases hm : u.1 = m <;> simp [hc, hm]

/-! ## The invariant -/

/-- The end of an allocated array. -/
def Allocation.stop (a : Allocation) : ℤ := a.offset + a.count * a.type.size

/-- The invariant: allocations follow each other, and updated members have their last values. -/
structure Inv (calls : List Call) (s : State) : Prop where
  size_lt : s.buffer.size < 2 ^ 31
  inside : ∀ a ∈ s.allocations, 0 ≤ a.offset ∧ a.stop ≤ s.buffer.size
  aligned : ∀ a ∈ s.allocations, (a.type.align : ℤ) ∣ a.offset
  ordered : s.allocations.Pairwise fun a b => a.stop ≤ b.offset
  member : ∀ m v, lastUpdate calls m = some v → s.HasMember m.object m.field
  value : ∀ m v, lastUpdate calls m = some v → v.ReadAt s.buffer.data 0 m

theorem inv_init : Inv [] .init :=
  ⟨by decide, nofun, nofun, .nil, nofun, nofun⟩

/-- An element of an array ends before the next one. -/
theorem element_le {i j : ℕ} (size : ℕ) (h : i < j) :
    (0 : ℤ) ≤ i * size ∧ (i * size + size : ℤ) ≤ j * size := by
  have hle := Nat.mul_le_mul_right size (Nat.succ_le_of_lt h)
  rw [Nat.succ_mul] at hle
  exact ⟨by exact_mod_cast Nat.zero_le (i * size), by exact_mod_cast hle⟩

/-- A member is inside the array of its object. -/
theorem member_within {a : Allocation} {i : ℕ} (hi : i < a.count)
    (hobject : m.object = a.offset + i * a.type.size) (hfield : m.field ∈ a.type.fields) :
    a.offset ≤ m.position ∧ m.position + m.field.size ≤ a.stop := by
  have hin := a.type.inside _ hfield
  have helement := element_le a.type.size hi
  unfold Member.position Allocation.stop
  omega

/-- Members are inside the buffer. -/
theorem Inv.member_inside (h : Inv calls s) (hm : s.HasMember m.object m.field) :
    0 ≤ m.position ∧ m.position + m.field.size ≤ s.buffer.size := by
  obtain ⟨a, ha, i, hi, hobject, hfield⟩ := hm
  have hin := h.inside a ha
  have hwithin := member_within hi hobject hfield
  omega

/-- Two allocations are the same, or one ends before the other begins. -/
theorem Inv.trichotomy (h : Inv calls s) {a a' : Allocation} (ha : a ∈ s.allocations)
    (ha' : a' ∈ s.allocations) : a = a' ∨ a.stop ≤ a'.offset ∨ a'.stop ≤ a.offset :=
  h.ordered.imp (S := fun a a' => a = a' ∨ a.stop ≤ a'.offset ∨ a'.stop ≤ a.offset)
    (fun hle => .inr (.inl hle)) |>.forall_of_forall_of_flip (fun _ _ => .inl rfl)
    (h.ordered.imp fun hle => .inr (.inr hle)) ha ha'

/-- Different members do not overlap. -/
theorem Inv.apart (h : Inv calls s) (hm : s.HasMember m.object m.field)
    (hm' : s.HasMember m'.object m'.field) (hne : m ≠ m') :
    Apart m.position m.field.size m'.position m'.field.size := by
  obtain ⟨a, ha, i, hi, hobject, hfield⟩ := hm
  obtain ⟨a', ha', i', hi', hobject', hfield'⟩ := hm'
  have hwithin := member_within hi hobject hfield
  have hwithin' := member_within hi' hobject' hfield'
  unfold Apart
  rcases h.trichotomy ha ha' with rfl | hbefore | hafter
  · have hin := a.type.inside _ hfield
    have hin' := a.type.inside _ hfield'
    unfold Member.position
    rcases Nat.lt_trichotomy i i' with hlt | rfl | hgt
    · have := element_le a.type.size hlt
      omega
    · -- in the same object it is another field
      have hfields : m.field ≠ m'.field := by
        intro heq
        apply hne
        cases m
        cases m'
        simp_all
      have := a.type.apart _ hfield _ hfield' hfields
      unfold Apart at this
      omega
    · have := element_le a.type.size hgt
      omega
  · omega
  · omega

/-! ## Calls -/

/-- A new array behind the others. -/
theorem Inv.allocate (h : Inv calls s) (hc : c.update = none)
    (hsize : s.totalSize T n < 2 ^ 31) :
    Inv (calls ++ [c]) ⟨(allocateArray s.buffer T n).2,
      s.allocations ++ [⟨T, (allocateArray s.buffer T n).1, n⟩]⟩ := by
  rw [allocateArray_eq hsize]
  have hle := Unsigned.le_alignTo T.logAlign s.buffer.size
  have hlast : ∀ m, lastUpdate (calls ++ [c]) m = lastUpdate calls m := by
    intro m
    rw [lastUpdate_concat, hc]
  refine ⟨hsize, fun a ha => ?_, fun a ha => ?_, ?_, fun m v hv => ?_, fun m v hv => ?_⟩
  · rcases List.mem_append.1 ha with ha | ha
    · obtain ⟨hpos, hstop⟩ := h.inside a ha
      have hgrow : s.buffer.size ≤ Unsigned.alignTo T.logAlign s.buffer.size + T.size * n := by
        omega
      exact ⟨hpos, hstop.trans (by exact_mod_cast hgrow)⟩
    · obtain rfl := List.mem_singleton.1 ha
      refine ⟨by simp, ?_⟩
      simp only [Allocation.stop, Buffer.resize]
      push_cast
      rw [mul_comm]
  · rcases List.mem_append.1 ha with ha | ha
    · exact h.aligned a ha
    · obtain rfl := List.mem_singleton.1 ha
      exact Int.natCast_dvd_natCast.2 (Unsigned.dvd_alignTo T.logAlign s.buffer.size)
  · refine List.pairwise_append.2 ⟨h.ordered, List.pairwise_singleton _ _, fun a ha a' ha' => ?_⟩
    obtain rfl := List.mem_singleton.1 ha'
    have := (h.inside a ha).2
    simp only
    omega
  · obtain ⟨a, ha, hrest⟩ := h.member m v (hlast m ▸ hv)
    exact ⟨a, List.mem_append_left _ ha, hrest⟩
  · rw [hlast] at hv
    -- the bytes of old members stay where they are
    have hin := h.member_inside (h.member m v hv)
    refine (h.value m v hv).congr fun i hi => ?_
    rw [Nat.zero_add]
    simp only [Buffer.resize]
    rw [if_pos (by omega)]

/-- An update of a member, which writes its bytes and no others. -/
theorem Inv.update {data : Memory} (h : Inv calls s) (hc : c.update = some (m, v))
    (hm : s.HasMember m.object m.field) (hv : v.ReadAt data 0 m)
    (hframe : ∀ p, p < m.position.toNat ∨ m.position.toNat + m.field.size ≤ p →
      data p = s.buffer.data p) :
    Inv (calls ++ [c]) { s with buffer := { s.buffer with data := data } } := by
  have hlast : ∀ m', lastUpdate (calls ++ [c]) m' =
      if m = m' then some v else lastUpdate calls m' := by
    intro m'
    rw [lastUpdate_concat, hc]
  refine ⟨h.size_lt, h.inside, h.aligned, h.ordered, fun m' v' hv' => ?_, fun m' v' hv' => ?_⟩
  · rw [hlast] at hv'
    split_ifs at hv' with heq
    · exact heq ▸ hm
    · exact h.member m' v' hv'
  · rw [hlast] at hv'
    split_ifs at hv' with heq
    · obtain rfl := Option.some.inj hv'
      exact heq ▸ hv
    · -- other members lie elsewhere
      have hm' := h.member m' v' hv'
      have hapart := h.apart hm hm' heq
      have hin := h.member_inside hm
      have hin' := h.member_inside hm'
      unfold Apart at hapart
      refine (h.value m' v' hv').congr fun i hi => ?_
      rw [Nat.zero_add]
      exact hframe _ (by omega)

/-- The bytes that `update_object_pointer_member` writes. -/
theorem updateObjectPointerMember_eq {object : ℤ} {dataPtr : Field} {offset : ℤ}
    (hpos : 0 ≤ object + dataPtr.offset) (hlt : object + dataPtr.offset < 2 ^ 31)
    (hfits : Signed.Fits 32 (offset - (object + dataPtr.offset))) :
    updateObjectPointerMember b object dataPtr offset =
      ⟨b.size, b.data.storeLE 4 (object + dataPtr.offset).toNat
        ((offset - (object + dataPtr.offset)) % 2 ^ 32).toNat⟩ := by
  have haddress : Signed.narrow 32 (object + dataPtr.offset) = object + dataPtr.offset :=
    Signed.narrow_eq ⟨by omega, by omega⟩
  simp only [updateObjectPointerMember, haddress, Signed.narrow_eq hfits]

/-- Every offset of the builder can be the target of a pointer. -/
theorem Inv.admits_pointer (h : Inv calls s) {object : ℤ} {dataPtr : Field} {offset : ℤ}
    (hm : s.HasMember object dataPtr) (hsize : dataPtr.size = 4) (hpos : 0 ≤ offset)
    (hlt : offset < 2 ^ 31) : s.Admits (.updateObjectPointerMember object dataPtr offset) := by
  have hin := h.member_inside (m := ⟨object, dataPtr⟩) hm
  have hsize_lt := h.size_lt
  simp only [Member.position, hsize] at hin
  exact ⟨hm, hsize, by omega, by omega⟩

/-- All calls keep the invariant. -/
theorem Inv.next (h : Inv calls s) (hnext : s.next c = some s') : Inv (calls ++ [c]) s' := by
  unfold State.next at hnext
  split_ifs at hnext with hadmits
  obtain rfl := Option.some.inj hnext
  cases c with
  | allocate T =>
    simp only [allocate_eq]
    exact h.allocate rfl hadmits
  | allocateArray T numElements =>
    simp only
    exact h.allocate rfl hadmits
  | updateObjectPointerMember object dataPtr offset =>
    obtain ⟨hm, hsize, hfits⟩ := hadmits
    have hin := h.member_inside (m := ⟨object, dataPtr⟩) hm
    have hlt := h.size_lt
    simp only [Member.position, hsize] at hin
    simp only
    rw [updateObjectPointerMember_eq hin.1 (by omega) hfits]
    refine h.update rfl hm ⟨hsize, ?_⟩ fun p hp => Memory.storeLE_of_not_mem (hsize ▸ hp)
    -- the distance is read back, and added to the address of the pointer
    have hload := Memory.loadLE_storeLE (m := s.buffer.data) (w := 4)
      (a := (object + dataPtr.offset).toNat)
      (v := ((offset - (object + dataPtr.offset)) % 2 ^ 32).toNat) (by omega)
    simp only [address, Nat.zero_add, Member.position]
    rw [hload, Signed.narrow_word hfits]
    omega
  | updateObjectNormalMember object dataPtr val =>
    obtain ⟨hm, hlen⟩ := hadmits
    refine h.update rfl hm ?_ fun p hp => Memory.write_of_not_mem (hlen ▸ hp)
    simp only [Value.ReadAt, Nat.zero_add, ← hlen]
    refine Memory.bytes_eq fun i hi => ?_
    simp only [Member.position, Memory.write_of_mem hi]
    simp [hi]

/-- The objects of a construction are aligned, inside the buffer and apart from each other; and in a
copy of the buffer at any address, every member has the value of its last update, where a pointer
leads to its target in the copy. -/
theorem run_image (calls : List Call) (hrun : run State.next .init calls = some s) :
    (∀ a ∈ s.allocations,
        (a.type.align : ℤ) ∣ a.offset ∧ 0 ≤ a.offset ∧ a.stop ≤ s.buffer.size) ∧
      s.allocations.Pairwise (fun a a' =>
        Apart a.offset (a.count * a.type.size) a'.offset (a'.count * a'.type.size)) ∧
      ∀ (mem : Memory) (base : ℕ) (m : Member) (v : Value), lastUpdate calls m = some v →
        v.ReadAt (mem.write base s.buffer.data s.buffer.size) base m := by
  have h : Inv calls s := run_invariant (P := Inv) inv_init (fun _ _ _ _ h => h.next) hrun
  refine ⟨fun a ha => ⟨h.aligned a ha, h.inside a ha⟩, h.ordered.imp fun hle => .inl hle,
    fun mem base m v hv => ?_⟩
  have hin := h.member_inside (h.member m v hv)
  refine (h.value m v hv).congr fun i hi => ?_
  rw [Nat.add_assoc, Memory.write_of_mem (by omega)]

/-- A type with an `int32_t` and a pointer. -/
def testObject : Layout where
  size := 8
  logAlign := 2
  fields := [⟨0, 4⟩, ⟨4, 4⟩]
  size_pos := by decide
  logAlign_lt := by decide
  inside := by decide
  apart := by decide

/-- Two objects, with a pointer from the first one to the second one. -/
theorem run_image_two :
    ∃ s, run State.next .init [.allocate testObject,
        .updateObjectNormalMember 0 ⟨0, 4⟩ [1, 0, 0, 0], .allocate testObject,
        .updateObjectNormalMember 8 ⟨0, 4⟩ [2, 0, 0, 0],
        .updateObjectPointerMember 0 ⟨4, 4⟩ 8] = some s ∧
      ∀ (mem : Memory) (base : ℕ),
        (Value.pointer 8).ReadAt (mem.write base s.buffer.data s.buffer.size) base ⟨0, ⟨4, 4⟩⟩ := by
  obtain ⟨s, hs⟩ : ∃ s, run State.next .init [.allocate testObject,
        .updateObjectNormalMember 0 ⟨0, 4⟩ [1, 0, 0, 0], .allocate testObject,
        .updateObjectNormalMember 8 ⟨0, 4⟩ [2, 0, 0, 0],
        .updateObjectPointerMember 0 ⟨4, 4⟩ 8] = some s := Option.isSome_iff_exists.1 (by decide)
  exact ⟨s, hs, fun mem base => (run_image _ hs).2.2 mem base _ _ rfl⟩

end CppLearn.ObjectBuilder

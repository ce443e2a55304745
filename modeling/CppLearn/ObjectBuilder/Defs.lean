import CppLearn.Lib.ByteMemory
import CppLearn.Lib.Signed
import CppLearn.Lib.Traces
import CppLearn.Lib.Unsigned

/-!
# The `ObjectBuilder` of `object_builder.h`

Objects are laid out one after the other in a buffer that can be copied to any place: a `Pointer`
does not hold an address, but the distance from itself to its target.

A type is given by its size, its alignment and its fields, and the value of a field by its bytes.
The buffer is a memory of which the first `size` bytes count.

The methods are `ObjectBuilder.allocate`, `ObjectBuilder.updateObjectPointerMember` and
`ObjectBuilder.updateObjectNormalMember`, and `address` is `Pointer::address`. `State.next` is a
call in a construction, which keeps track of the objects that were allocated.
-/

namespace CppLearn.ObjectBuilder

/-- A data member of a class: its place in an object, and its size. -/
structure Field where
  offset : ℕ
  size : ℕ
  deriving DecidableEq

/-- The ranges `[a, a + m)` and `[b, b + n)` have nothing in common. -/
def Apart (a m b n : ℤ) : Prop := a + m ≤ b ∨ b + n ≤ a

instance (a m b n : ℤ) : Decidable (Apart a m b n) := inferInstanceAs (Decidable (_ ∨ _))

/-- What the compiler says about a type. -/
structure Layout where
  /-- `sizeof(T)`. -/
  size : ℕ
  /-- The binary logarithm of `alignof(T)`. -/
  logAlign : ℕ
  fields : List Field
  size_pos : 0 < size
  logAlign_lt : logAlign < 64
  inside : ∀ f ∈ fields, f.offset + f.size ≤ size
  apart : ∀ f ∈ fields, ∀ g ∈ fields, f ≠ g → Apart f.offset f.size g.offset g.size

/-- `alignof(T)`. -/
def Layout.align (T : Layout) : ℕ := 2 ^ T.logAlign

/-! ## The methods -/

/-- `buffer_`. -/
structure Buffer where
  size : ℕ
  data : Memory

/-- The buffer of a new `ObjectBuilder`. -/
def Buffer.empty : Buffer := ⟨0, fun _ => 0⟩

/-- `std::vector::resize`: new bytes are zero. -/
def Buffer.resize (b : Buffer) (size : ℕ) : Buffer :=
  ⟨size, fun p => if p < b.size then b.data p else 0⟩

def computeAlignedSize (size alignSize : BitVec 64) : BitVec 64 :=
  let alignMask := alignSize - 1
  (size + alignMask) &&& ~~~alignMask

/-- `allocate<T>(num_elements)`. -/
def allocateArray (b : Buffer) (T : Layout) (numElements : ℕ) : ℤ × Buffer :=
  let offset := Signed.narrow 32
    (computeAlignedSize (BitVec.ofNat 64 b.size) (BitVec.ofNat 64 T.align)).toNat
  (offset, b.resize ((offset + T.size * numElements) % 2 ^ 64).toNat)

/-- `allocate<T>()`. -/
def allocate (b : Buffer) (T : Layout) : ℤ × Buffer :=
  let offset := Signed.narrow 32
    (computeAlignedSize (BitVec.ofNat 64 b.size) (BitVec.ofNat 64 T.align)).toNat
  (offset, b.resize ((offset + T.size) % 2 ^ 64).toNat)

/-- `update_object_pointer_member`. -/
def updateObjectPointerMember (b : Buffer) (object : ℤ) (dataPtr : Field) (offset : ℤ) : Buffer :=
  let pointerAddress := Signed.narrow 32 (object + dataPtr.offset)
  let value := Signed.narrow 32 (offset - pointerAddress)
  { b with data := b.data.storeLE 4 pointerAddress.toNat (value % 2 ^ 32).toNat }

/-- `update_object_normal_member`. -/
def updateObjectNormalMember (b : Buffer) (object : ℤ) (dataPtr : Field) (val : List UInt8) :
    Buffer :=
  { b with data := b.data.write (object + dataPtr.offset).toNat (fun i => val.getD i 0) val.length }

/-- `Pointer::address` for the pointer at the address `this`. -/
def address (m : Memory) (this : ℕ) : ℤ := this + Signed.narrow 32 (m.loadLE 4 this)

/-! ## Constructions -/

/-- An allocated array. -/
structure Allocation where
  type : Layout
  offset : ℤ
  count : ℕ

/-- A buffer, and what was allocated in it. -/
structure State where
  buffer : Buffer
  allocations : List Allocation

def State.init : State := ⟨.empty, []⟩

/-- The calls. -/
inductive Call where
  | allocate (T : Layout)
  | allocateArray (T : Layout) (numElements : ℕ)
  | updateObjectPointerMember (object : ℤ) (dataPtr : Field) (offset : ℤ)
  | updateObjectNormalMember (object : ℤ) (dataPtr : Field) (val : List UInt8)

/-- There is an object at the offset `object`, and it has the field. -/
def State.HasMember (s : State) (object : ℤ) (field : Field) : Prop :=
  ∃ a ∈ s.allocations, ∃ i < a.count, object = a.offset + i * a.type.size ∧ field ∈ a.type.fields

instance (s : State) (object : ℤ) (field : Field) : Decidable (s.HasMember object field) :=
  inferInstanceAs (Decidable (∃ _ ∈ _, _))

/-- The size of the buffer after an allocation, if there is no overflow. -/
def State.totalSize (s : State) (T : Layout) (numElements : ℕ) : ℕ :=
  Unsigned.alignTo T.logAlign s.buffer.size + T.size * numElements

/-- The calls that the builder is made for: the total size stays below `2 ^ 31`, members belong to
objects, values have the size of the field, and the distance to the target of a pointer is an
`int32_t`, as it is for every target inside the buffer. -/
def State.Admits (s : State) : Call → Prop
  | .allocate T => s.totalSize T 1 < 2 ^ 31
  | .allocateArray T numElements => s.totalSize T numElements < 2 ^ 31
  | .updateObjectPointerMember object dataPtr offset =>
    s.HasMember object dataPtr ∧ dataPtr.size = 4 ∧
      Signed.Fits 32 (offset - (object + dataPtr.offset))
  | .updateObjectNormalMember object dataPtr val =>
    s.HasMember object dataPtr ∧ val.length = dataPtr.size

instance (s : State) : (c : Call) → Decidable (s.Admits c)
  | .allocate _ | .allocateArray _ _ => inferInstanceAs (Decidable (_ < _))
  | .updateObjectPointerMember _ _ _ | .updateObjectNormalMember _ _ _ =>
    inferInstanceAs (Decidable (_ ∧ _))

/-- What a call does. -/
def State.next (s : State) (c : Call) : Option State :=
  if s.Admits c then
    some <| match c with
    | .allocate T =>
      let (offset, b) := ObjectBuilder.allocate s.buffer T
      ⟨b, s.allocations ++ [⟨T, offset, 1⟩]⟩
    | .allocateArray T numElements =>
      let (offset, b) := ObjectBuilder.allocateArray s.buffer T numElements
      ⟨b, s.allocations ++ [⟨T, offset, numElements⟩]⟩
    | .updateObjectPointerMember object dataPtr offset =>
      { s with buffer := ObjectBuilder.updateObjectPointerMember s.buffer object dataPtr offset }
    | .updateObjectNormalMember object dataPtr val =>
      { s with buffer := ObjectBuilder.updateObjectNormalMember s.buffer object dataPtr val }
  else none

end CppLearn.ObjectBuilder

import Mathlib.Algebra.Order.Ring.Nat
import Mathlib.Tactic.Common

/-!
# Byte memory

Memory as a function from addresses to bytes, with block writes and little-endian words. Bounds
are the business of the code that uses a memory; the lemmas here say which bytes an access
depends on and which bytes it changes.

`Memory.write` writes a block of bytes and `Memory.bytes` reads it, `Memory.loadLE` and
`Memory.storeLE` do the same with a word. A stored word is read back (`Memory.loadLE_storeLE`), and
a word depends on its own bytes only (`Memory.loadLE_congr`).
-/

/-- Bytes by address. -/
abbrev Memory := ℕ → UInt8

namespace Memory

/-- Write the first `len` bytes of `src` at address `a`. -/
def write (m : Memory) (a : ℕ) (src : ℕ → UInt8) (len : ℕ) : Memory :=
  fun p => if a ≤ p ∧ p < a + len then src (p - a) else m p

/-- The byte of `v` with weight `256 ^ i`. -/
def byte (v i : ℕ) : UInt8 := UInt8.ofNat (v / 256 ^ i)

/-- The little-endian word of `w` bytes at address `a`. -/
def loadLE (m : Memory) : ℕ → ℕ → ℕ
  | 0, _ => 0
  | w + 1, a => (m a).toNat + 256 * loadLE m w (a + 1)

/-- Write `v` as a little-endian word of `w` bytes at address `a`. -/
def storeLE (m : Memory) (w a v : ℕ) : Memory := m.write a (byte v) w

/-- The `len` bytes from address `a` on. -/
def bytes (m : Memory) (a len : ℕ) : List UInt8 := (List.range len).map fun i => m (a + i)

variable {m m' : Memory} {a a' p len : ℕ} {src : ℕ → UInt8}

/-- Inside the block a write sets the bytes of the source. -/
theorem write_of_mem {i : ℕ} (hi : i < len) : m.write a src len (a + i) = src i := by
  unfold write
  rw [if_pos ⟨Nat.le_add_right a i, Nat.add_lt_add_left hi a⟩, Nat.add_sub_cancel_left]

/-- Outside the block a write changes nothing. -/
theorem write_of_not_mem (hp : p < a ∨ a + len ≤ p) : m.write a src len p = m p := by
  unfold write
  rw [if_neg (by omega)]

theorem storeLE_of_not_mem {w v : ℕ} (hp : p < a ∨ a + w ≤ p) : m.storeLE w a v p = m p :=
  write_of_not_mem hp

/-- A word depends on its own bytes only, and not on its address. -/
theorem loadLE_congr {w : ℕ} (h : ∀ i < w, m' (a' + i) = m (a + i)) :
    m'.loadLE w a' = m.loadLE w a := by
  induction w generalizing a a' with
  | zero => rfl
  | succ w ih =>
    have hhead : m' a' = m a := h 0 (Nat.succ_pos w)
    have htail : m'.loadLE w (a' + 1) = m.loadLE w (a + 1) := by
      apply ih
      intro i hi
      rw [Nat.add_right_comm, Nat.add_right_comm a]
      exact h (i + 1) (by omega)
    unfold loadLE
    rw [hhead, htail]

theorem loadLE_lt (m : Memory) (w a : ℕ) : m.loadLE w a < 256 ^ w := by
  induction w generalizing a with
  | zero => simp [loadLE]
  | succ w ih =>
    have hhead := (m a).toNat_lt
    have htail := ih (a + 1)
    rw [loadLE, Nat.pow_succ']
    omega

/-- A word whose bytes are those of `v` is `v`. -/
theorem loadLE_eq {w v : ℕ} (hv : v < 256 ^ w) (h : ∀ i < w, m (a + i) = byte v i) :
    m.loadLE w a = v := by
  induction w generalizing a v with
  | zero =>
    rw [Nat.pow_zero, Nat.lt_one_iff] at hv
    rw [hv, loadLE]
  | succ w ih =>
    -- the tail of the word holds the quotient by the base
    have hdiv : v / 256 < 256 ^ w := by
      rw [Nat.div_lt_iff_lt_mul (by decide)]
      rwa [Nat.pow_succ] at hv
    have htail : m.loadLE w (a + 1) = v / 256 := by
      refine ih hdiv fun i hi => ?_
      rw [Nat.add_assoc, Nat.add_comm 1 i, h (i + 1) (by omega), byte, byte, Nat.div_div_eq_div_mul,
        Nat.pow_succ']
    have hhead : (m a).toNat = v % 256 := by
      have := h 0 (Nat.succ_pos w)
      rw [Nat.add_zero, byte, Nat.pow_zero, Nat.div_one] at this
      rw [this]
      exact UInt8.toNat_ofNat'
    rw [loadLE, hhead, htail]
    omega

/-- A stored word is read back. -/
theorem loadLE_storeLE {w v : ℕ} (hv : v < 256 ^ w) : (m.storeLE w a v).loadLE w a = v :=
  loadLE_eq hv fun _ hi => write_of_mem hi

/-- A write to other addresses does not change a word. -/
theorem loadLE_write_of_disjoint {w : ℕ} (h : p + w ≤ a ∨ a + len ≤ p) :
    (m.write a src len).loadLE w p = m.loadLE w p := by
  apply loadLE_congr
  intro i hi
  apply write_of_not_mem
  omega

/-- A block depends on its own bytes only, and not on its address. -/
theorem bytes_congr (h : ∀ i < len, m' (a' + i) = m (a + i)) :
    m'.bytes a' len = m.bytes a len :=
  List.map_congr_left fun i hi => h i (List.mem_range.1 hi)

/-- The bytes of a block, one by one. -/
theorem bytes_eq {l : List UInt8} (h : ∀ i (hi : i < l.length), m (a + i) = l[i]) :
    m.bytes a l.length = l := by
  apply List.ext_getElem
  · simp [bytes]
  · intro i _ hi
    simpa [bytes] using h i hi

end Memory

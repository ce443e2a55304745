import CppLearn.Lib.ByteMemory
import Mathlib.Algebra.Order.Ring.Nat
import Mathlib.Tactic.Common

/-!
# Blocks with boundary tags

A memory range that is divided into blocks, each with a header in its first eight bytes and a
footer in its last eight. A tag is a word with the size of the block, which is a multiple of
eight, and its status in the lowest bit.

The header and the footer of a block in use are equal. The footer of a free block may be that of a
smaller free block at its end, whose header is inside: this is what remains when blocks are merged
and not all of their tags are updated.

`IsBlock` is a block at an address and `Tiles` a range that is divided into blocks. Such a range
depends on its own bytes only (`Tiles.congr`), can be cut between blocks (`tiles_append`), and is
determined by the tags (`Tiles.unique`). The payloads of the blocks in use, `allocated`, are
disjoint (`Tiles.pairwise_allocated`), and each belongs to one block (`Tiles.exists_of_mem`).
-/

namespace BoundaryTags

/-- A block: its size, with the tags, and whether it is in use. -/
structure Block where
  size : ℕ
  alloc : Bool
  deriving DecidableEq

/-- The word at an address. -/
def word (m : Memory) (a : ℕ) : ℕ := m.loadLE 4 a

/-- A free block of size `f` ends at `e`, as far as its tags tell. -/
structure IsTail (m : Memory) (e f : ℕ) : Prop where
  footer : word m (e - 8) = f
  header : word m (e - f) = f
  dvd : 8 ∣ f
  large : 24 ≤ f

/-- The block `b` at address `h`. The payload of a block in use is that of the memory `ref`. -/
structure IsBlock (ref m : Memory) (h : ℕ) (b : Block) : Prop where
  header : word m h = b.size + b.alloc.toNat
  dvd : 8 ∣ b.size
  large : 24 ≤ b.size
  footer : b.alloc = true → word m (h + b.size - 8) = b.size + 1
  tail : b.alloc = false → ∃ f ≤ b.size, IsTail m (h + b.size) f
  content : b.alloc = true → ∀ a, h + 8 ≤ a → a + 8 < h + b.size → m a = ref a

/-- The range from `h` to `e` consists of the blocks `bs`. -/
def Tiles (ref m : Memory) : ℕ → List Block → ℕ → Prop
  | h, [], e => h = e
  | h, b :: bs, e => IsBlock ref m h b ∧ Tiles ref m (h + b.size) bs e

/-- The payloads, by address and length, of the blocks in use among blocks from address `h` on. -/
def allocated : ℕ → List Block → List (ℕ × ℕ)
  | _, [] => []
  | h, b :: bs =>
    if b.alloc then (h + 8, b.size - 16) :: allocated (h + b.size) bs
    else allocated (h + b.size) bs

variable {ref m m' : Memory} {h e k a f : ℕ} {b : Block} {bs xs ys : List Block}

theorem word_congr (heq : ∀ i < 4, m' (a + i) = m (a + i)) : word m' a = word m a :=
  Memory.loadLE_congr heq

/-! ## Changing the memory -/

theorem IsTail.congr (ht : IsTail m e f) (hf : f ≤ e)
    (heq : ∀ x, e - f ≤ x → x < e → m' x = m x) : IsTail m' e f := by
  have hlarge := ht.large
  refine ⟨?_, ?_, ht.dvd, hlarge⟩
  · rw [word_congr fun i hi => heq _ (by omega) (by omega)]
    exact ht.footer
  · rw [word_congr fun i hi => heq _ (by omega) (by omega)]
    exact ht.header

/-- A block depends on its own bytes only. -/
theorem IsBlock.congr (hb : IsBlock ref m h b)
    (heq : ∀ x, h ≤ x → x < h + b.size → m' x = m x) : IsBlock ref m' h b := by
  have hlarge := hb.large
  refine ⟨?_, hb.dvd, hlarge, fun halloc => ?_, fun hfree => ?_, fun halloc a hge hlt => ?_⟩
  · rw [word_congr fun i hi => heq _ (by omega) (by omega)]
    exact hb.header
  · rw [word_congr fun i hi => heq _ (by omega) (by omega)]
    exact hb.footer halloc
  · obtain ⟨f, hf, ht⟩ := hb.tail hfree
    exact ⟨f, hf, ht.congr (by omega) fun x hge hlt => heq x (by omega) hlt⟩
  · rw [heq a (by omega) (by omega)]
    exact hb.content halloc a hge hlt

theorem Tiles.le (ht : Tiles ref m h bs e) : h ≤ e := by
  induction bs generalizing h with
  | nil => exact Nat.le_of_eq ht
  | cons b bs ih =>
    have := ih ht.2
    omega

/-- A range depends on its own bytes only. -/
theorem Tiles.congr (ht : Tiles ref m h bs e) (heq : ∀ x, h ≤ x → x < e → m' x = m x) :
    Tiles ref m' h bs e := by
  induction bs generalizing h with
  | nil => exact ht
  | cons b bs ih =>
    have hle := ht.2.le
    exact ⟨ht.1.congr fun x hge hlt => heq x hge (by omega),
      ih ht.2 fun x hge hlt => heq x (by omega) hlt⟩

/-- The payloads of a range are those of the reference memory. -/
theorem Tiles.eq_ref (ht : Tiles ref m h bs e) {p : ℕ × ℕ} (hp : p ∈ allocated h bs)
    (i : ℕ) (hi : i < p.2) : m (p.1 + i) = ref (p.1 + i) := by
  induction bs generalizing h with
  | nil => simp [allocated] at hp
  | cons b bs ih =>
    unfold allocated at hp
    split_ifs at hp with halloc
    · rcases List.mem_cons.1 hp with rfl | hp
      · have hlarge := ht.1.large
        exact ht.1.content halloc _ (Nat.le_add_right ..) (by simp only at hi ⊢; omega)
      · exact ih ht.2 hp
    · exact ih ht.2 hp

/-- The blocks of a range are determined by their headers. -/
theorem Tiles.unique {ref' : Memory} (ht : Tiles ref m h xs e) (ht' : Tiles ref' m h ys e) :
    xs = ys := by
  induction xs generalizing h ys with
  | nil =>
    obtain rfl : h = e := ht
    cases ys with
    | nil => rfl
    | cons b ys =>
      have hlarge := ht'.1.large
      have hle := ht'.2.le
      omega
  | cons b xs ih =>
    cases ys with
    | nil =>
      obtain rfl : h = e := ht'
      have hlarge := ht.1.large
      have hle := ht.2.le
      omega
    | cons b' ys =>
      obtain ⟨hb, hxs⟩ := ht
      obtain ⟨hb', hys⟩ := ht'
      obtain ⟨size, alloc⟩ := b
      obtain ⟨size', alloc'⟩ := b'
      have hword : size + alloc.toNat = size' + alloc'.toNat := hb.header.symm.trans hb'.header
      have hdvd : 8 ∣ size := hb.dvd
      have hdvd' : 8 ∣ size' := hb'.dvd
      have hbit := Bool.toNat_lt alloc
      have hbit' := Bool.toNat_lt alloc'
      -- the status is in the lowest bit
      obtain rfl : size = size' := by omega
      obtain rfl : alloc = alloc' := by
        cases alloc <;> cases alloc' <;> simp_all
      rw [ih hxs hys]

/-- The memory itself can be taken as the reference. -/
theorem Tiles.self (ht : Tiles ref m h bs e) : Tiles m m h bs e := by
  induction bs generalizing h with
  | nil => exact ht
  | cons b bs ih =>
    have hb := ht.1
    exact ⟨⟨hb.header, hb.dvd, hb.large, hb.footer, hb.tail, fun _ _ _ _ => rfl⟩, ih ht.2⟩

/-! ## Cutting ranges -/

theorem tiles_append :
    Tiles ref m h (xs ++ ys) e ↔ ∃ k, Tiles ref m h xs k ∧ Tiles ref m k ys e := by
  induction xs generalizing h with
  | nil => exact ⟨fun ht => ⟨h, rfl, ht⟩, fun ⟨k, hk, ht⟩ => (show h = k from hk) ▸ ht⟩
  | cons b xs ih =>
    rw [List.cons_append, Tiles, ih]
    constructor
    · rintro ⟨hb, k, hxs, hys⟩
      exact ⟨k, ⟨hb, hxs⟩, hys⟩
    · rintro ⟨k, ⟨hb, hxs⟩, hys⟩
      exact ⟨hb, k, hxs, hys⟩

/-- A block at the end of a range extends it. -/
theorem Tiles.concat {size : ℕ} {alloc : Bool} (hxs : Tiles ref m h xs k)
    (hb : IsBlock ref m k ⟨size, alloc⟩) : Tiles ref m h (xs ++ [⟨size, alloc⟩]) (k + size) :=
  tiles_append.2 ⟨k, hxs, hb, rfl⟩

theorem Tiles.allocated_append (ht : Tiles ref m h xs k) :
    allocated h (xs ++ ys) = allocated h xs ++ allocated k ys := by
  induction xs generalizing h with
  | nil =>
    obtain rfl : h = k := ht
    rfl
  | cons b xs ih =>
    obtain ⟨size, alloc⟩ := b
    have hrest := ih ht.2
    cases alloc with
    | false => exact hrest
    | true => exact congrArg ((h + 8, size - 16) :: ·) hrest

/-- The end of a range is as far from its start as a multiple of eight. -/
theorem Tiles.dvd (ht : Tiles ref m h bs e) : 8 ∣ e - h := by
  induction bs generalizing h with
  | nil =>
    obtain rfl : h = e := ht
    simp
  | cons b bs ih =>
    have hle := ht.2.le
    have hdvd := ht.1.dvd
    have := ih ht.2
    omega

/-- A payload is inside its range and aligned with it. -/
theorem Tiles.allocated_bounds (ht : Tiles ref m h bs e) {p : ℕ × ℕ} (hp : p ∈ allocated h bs) :
    h + 8 ≤ p.1 ∧ p.1 + p.2 + 8 ≤ e ∧ 8 ∣ p.1 - h := by
  induction bs generalizing h with
  | nil => simp [allocated] at hp
  | cons b bs ih =>
    have hle := ht.2.le
    have hlarge := ht.1.large
    have hdvd := ht.1.dvd
    unfold allocated at hp
    split_ifs at hp with halloc
    · rcases List.mem_cons.1 hp with rfl | hp
      · refine ⟨Nat.le_refl _, by omega, by omega⟩
      · have := ih ht.2 hp
        omega
    · have := ih ht.2 hp
      omega

/-- Payloads follow each other. -/
theorem Tiles.pairwise_allocated (ht : Tiles ref m h bs e) :
    (allocated h bs).Pairwise fun p q => p.1 + p.2 < q.1 := by
  induction bs generalizing h with
  | nil => exact .nil
  | cons b bs ih =>
    have hlarge := ht.1.large
    unfold allocated
    split_ifs
    · refine List.pairwise_cons.2 ⟨fun q hq => ?_, ih ht.2⟩
      have := ht.2.allocated_bounds hq
      omega
    · exact ih ht.2

/-- The block of a payload. -/
theorem Tiles.exists_of_mem (ht : Tiles ref m h bs e) {p : ℕ × ℕ} (hp : p ∈ allocated h bs) :
    ∃ xs ys size k, bs = xs ++ ⟨size, true⟩ :: ys ∧ p = (k + 8, size - 16) ∧ Tiles ref m h xs k ∧
      IsBlock ref m k ⟨size, true⟩ ∧ Tiles ref m (k + size) ys e := by
  induction bs generalizing h with
  | nil => simp [allocated] at hp
  | cons b bs ih =>
    -- a payload of a later block
    have hrest : p ∈ allocated (h + b.size) bs →
        ∃ xs ys size k, b :: bs = xs ++ ⟨size, true⟩ :: ys ∧ p = (k + 8, size - 16) ∧
          Tiles ref m h xs k ∧ IsBlock ref m k ⟨size, true⟩ ∧ Tiles ref m (k + size) ys e := by
      intro hp
      obtain ⟨xs, ys, size, k, rfl, hpk, hxs, hb, hys⟩ := ih ht.2 hp
      exact ⟨b :: xs, ys, size, k, rfl, hpk, ⟨ht.1, hxs⟩, hb, hys⟩
    unfold allocated at hp
    split_ifs at hp with halloc
    · rcases List.mem_cons.1 hp with rfl | hp
      · obtain ⟨size, alloc⟩ := b
        obtain rfl : alloc = true := halloc
        exact ⟨[], bs, size, h, rfl, rfl, rfl, ht.1, ht.2⟩
      · exact hrest hp
    · exact hrest hp

end BoundaryTags

import CppLearn.Lib.BoundaryTags
import Mathlib.Algebra.BigOperators.Group.List.Basic
import Mathlib.Data.List.Chain

/-!
# Runs of free blocks

A sequence of blocks in which every maximal run of adjacent free blocks is replaced by one free
block. The number of blocks that each of the results stands for is recorded, because it decides
about the footer: where a pass over the heap merges an even number of blocks, and more than two, it
writes the last footer once too often.

## Main definitions

* `runs`, `mergeFree`: the runs of a sequence of blocks, with and without the numbers of blocks;
* `Stale`: the runs whose footers are not those of the whole block;
* `MergedTiles`: a range that is divided into runs;
* `Tight`, `TightBut`: all footers are equal to the headers, perhaps with one exception.

## Main results

* `runs_run`: what becomes of a maximal run of free blocks;
* `mergeFree_isChain`: no two adjacent free blocks remain;
* `eq_mergeFree`: what merging does not change;
* `TightBut.around`: the footers around the first block that fits.
-/

namespace BoundaryTags

/-- The first of some blocks is not free. -/
def NotFree : List Block → Prop
  | [] => True
  | b :: _ => b.alloc = true

/-- A run in front of others. If it and the next one are free, they are one run. -/
def absorb (x : Block × ℕ) : List (Block × ℕ) → List (Block × ℕ)
  | [] => [x]
  | y :: ys =>
    if x.1.alloc || y.1.alloc then x :: y :: ys
    else (⟨x.1.size + y.1.size, false⟩, x.2 + y.2) :: ys

/-- The blocks in use and the maximal runs of free blocks, each with its number of blocks. -/
def runs : List Block → List (Block × ℕ)
  | [] => []
  | b :: bs => absorb (b, 1) (runs bs)

/-- The blocks after all runs of free blocks have been merged. -/
def mergeFree (bs : List Block) : List Block := (runs bs).map Prod.fst

/-- The number of bytes in blocks. -/
def totalSize (bs : List Block) : ℕ := (bs.map Block.size).sum

/-- The number of bytes in free blocks. -/
def freeSize (bs : List Block) : ℕ := (bs.map fun b => if b.alloc then 0 else b.size).sum

variable {ref m m' : Memory} {h e k n c size : ℕ} {b : Block} {bs xs ys fs : List Block}
  {x : Block × ℕ} {us vs : List (Block × ℕ)}

/-! ## Runs -/

/-- The list does not begin with a free block. -/
theorem notFree_iff : NotFree bs ↔ ∀ b ∈ bs.head?, b.alloc = true := by
  cases bs with
  | nil => simp [NotFree]
  | cons b bs => simp [NotFree]

/-- A block in use takes nothing in. -/
@[simp]
theorem absorb_used (hx : x.1.alloc = true) : absorb x us = x :: us := by
  cases us with
  | nil => rfl
  | cons y us => simp [absorb, hx]

/-- A block in use is a run of its own. -/
theorem runs_cons_used : runs (⟨size, true⟩ :: bs) = (⟨size, true⟩, 1) :: runs bs :=
  absorb_used rfl

/-- A run ends where no free block follows. -/
theorem absorb_runs (hys : NotFree ys) : absorb x (runs ys) = x :: runs ys := by
  cases ys with
  | nil => rfl
  | cons b ys =>
    obtain ⟨size, alloc⟩ := b
    obtain rfl : alloc = true := hys
    rw [runs_cons_used]
    simp [absorb]

/-- A free block extends a run. -/
theorem absorb_absorb :
    absorb (⟨size, false⟩, c) (absorb (⟨n, false⟩, 1) us) =
      absorb (⟨size + n, false⟩, c + 1) us := by
  cases us with
  | nil => rfl
  | cons y us =>
    obtain ⟨⟨t, _ | _⟩, d⟩ := y
    · simp [absorb, Nat.add_assoc]
    · rfl

/-- Only the first run can be taken in. -/
theorem absorb_append (hne : us ≠ []) : absorb x (us ++ vs) = absorb x us ++ vs := by
  cases us with
  | nil => exact absurd rfl hne
  | cons y us =>
    simp only [List.cons_append, absorb]
    split_ifs
    · rfl
    · rfl

/-- The block stays, alone or as a part of the first run. -/
theorem absorb_ne_nil (x : Block × ℕ) (us : List (Block × ℕ)) : absorb x us ≠ [] := by
  cases us with
  | nil => exact List.cons_ne_nil _ _
  | cons y us =>
    simp only [absorb]
    split_ifs
    · exact List.cons_ne_nil _ _
    · exact List.cons_ne_nil _ _

/-- Runs do not extend over a block in use. -/
theorem runs_append (hlast : ∀ b ∈ xs.getLast?, b.alloc = true) :
    runs (xs ++ ys) = runs xs ++ runs ys := by
  induction xs with
  | nil => rfl
  | cons b xs ih =>
    cases xs with
    | nil =>
      have hb : b.alloc = true := hlast b rfl
      simp [runs, hb]
    | cons b' xs =>
      have hrest := ih fun c hc => hlast c (by rwa [List.getLast?_cons_cons])
      rw [List.cons_append, runs, hrest]
      exact absorb_append (absorb_ne_nil _ _)

/-- A maximal run of free blocks, at the front. -/
theorem runs_free (hne : fs ≠ []) (hfree : ∀ b ∈ fs, b.alloc = false) (hys : NotFree ys) :
    runs (fs ++ ys) = (⟨totalSize fs, false⟩, fs.length) :: runs ys := by
  induction fs with
  | nil => exact absurd rfl hne
  | cons b fs ih =>
    obtain ⟨size, alloc⟩ := b
    obtain rfl : alloc = false := hfree _ (List.mem_cons_self ..)
    by_cases hfs : fs = []
    · subst hfs
      exact absorb_runs hys
    · rw [List.cons_append, runs, ih hfs fun b hb => hfree b (List.mem_cons_of_mem _ hb)]
      simp [absorb, totalSize, Nat.add_comm]

/-- A maximal run of free blocks becomes one block. -/
theorem runs_run (hxs : ∀ b ∈ xs.getLast?, b.alloc = true) (hne : fs ≠ [])
    (hfree : ∀ b ∈ fs, b.alloc = false) (hys : NotFree ys) :
    runs (xs ++ (fs ++ ys)) =
      runs xs ++ (⟨totalSize fs, false⟩, fs.length) :: runs ys := by
  rw [runs_append hxs, runs_free hne hfree hys]

/-! ## Merged blocks -/

/-- No two free runs are next to each other. -/
theorem isChain_absorb
    (hus : (us.map Prod.fst).IsChain fun b c => b.alloc = true ∨ c.alloc = true) :
    ((absorb x us).map Prod.fst).IsChain fun b c => b.alloc = true ∨ c.alloc = true := by
  cases us with
  | nil => simp [absorb]
  | cons y us =>
    simp only [absorb]
    split_ifs with halloc
    · simp only [Bool.or_eq_true] at halloc
      exact List.isChain_cons_cons.2 ⟨halloc, hus⟩
    · -- the joined run is free as the one that it continues
      simp only [Bool.or_eq_true, not_or, Bool.not_eq_true] at halloc
      cases us with
      | nil => simp
      | cons z us =>
        simp only [List.map_cons, List.isChain_cons_cons, halloc.2] at hus ⊢
        exact hus

/-- Of two adjacent blocks at least one is in use. -/
theorem mergeFree_isChain (bs : List Block) :
    (mergeFree bs).IsChain fun b c => b.alloc = true ∨ c.alloc = true := by
  induction bs with
  | nil => exact .nil
  | cons b bs ih => exact isChain_absorb ih

/-- What does not change when two adjacent free blocks are joined, at any address, does not change
when all runs are merged. -/
theorem eq_mergeFree {α : Type*} (F : ℕ → List Block → α)
    (hcons : ∀ h b bs bs', (∀ k, F k bs = F k bs') → F h (b :: bs) = F h (b :: bs'))
    (hjoin : ∀ h size n bs, F h (⟨size + n, false⟩ :: bs) =
      F h (⟨size, false⟩ :: ⟨n, false⟩ :: bs)) (h : ℕ) (bs : List Block) :
    F h (mergeFree bs) = F h bs := by
  induction bs generalizing h with
  | nil => rfl
  | cons b bs ih =>
    refine Eq.trans ?_ (hcons h b _ _ ih)
    unfold mergeFree
    rw [runs]
    cases runs bs with
    | nil => rfl
    | cons y us =>
      obtain ⟨size, _ | _⟩ := b
      · obtain ⟨⟨n, _ | _⟩, d⟩ := y
        · exact hjoin h size n _
        · rfl
      · rfl

/-- The blocks in use remain where they are. -/
theorem allocated_mergeFree (h : ℕ) (bs : List Block) :
    allocated h (mergeFree bs) = allocated h bs := by
  refine eq_mergeFree allocated (fun h b bs bs' heq => ?_) (fun h size n bs => ?_) h bs
  · simp only [allocated, heq]
  · simp [allocated, Nat.add_assoc]

theorem totalSize_cons (b : Block) (bs : List Block) :
    totalSize (b :: bs) = b.size + totalSize bs := by
  simp [totalSize]

/-- Merging keeps the total size. -/
theorem totalSize_mergeFree (bs : List Block) : totalSize (mergeFree bs) = totalSize bs := by
  refine eq_mergeFree (fun _ => totalSize) (fun h b bs bs' heq => ?_) (fun h size n bs => ?_) 0 bs
  · rw [totalSize_cons, totalSize_cons, heq h]
  · simp [totalSize_cons, Nat.add_assoc]

@[simp]
theorem freeSize_append (xs ys : List Block) : freeSize (xs ++ ys) = freeSize xs + freeSize ys := by
  simp [freeSize]

/-- Only free blocks count. -/
theorem freeSize_cons (b : Block) (bs : List Block) :
    freeSize (b :: bs) = (if b.alloc then 0 else b.size) + freeSize bs := by
  simp [freeSize]

/-- A free block is a part of the free memory. -/
theorem size_le_freeSize (hb : b ∈ bs) (hfree : b.alloc = false) : b.size ≤ freeSize bs := by
  obtain ⟨xs, ys, rfl⟩ := List.append_of_mem hb
  rw [freeSize_append, freeSize_cons, hfree]
  simp
  omega

/-- Merging does not change how much is free. -/
theorem freeSize_mergeFree (bs : List Block) : freeSize (mergeFree bs) = freeSize bs := by
  refine eq_mergeFree (fun _ => freeSize) (fun h b bs bs' heq => ?_) (fun h size n bs => ?_) 0 bs
  · rw [freeSize_cons, freeSize_cons, heq h]
  · simp [freeSize_cons, Nat.add_assoc]

/-! ## Footers -/

/-- A run of an even number of blocks, more than two. -/
def Stale (count : ℕ) : Prop := 4 ≤ count ∧ 2 ∣ count

instance (count : ℕ) : Decidable (Stale count) := inferInstanceAs (Decidable (_ ∧ _))

/-- The footers of runs from address `h` on: exactly those of stale runs differ from the headers. -/
def Footers (m : Memory) : ℕ → List (Block × ℕ) → Prop
  | _, [] => True
  | h, x :: us =>
    (word m (h + x.1.size - 8) = word m h ↔ ¬ Stale x.2) ∧ Footers m (h + x.1.size) us

/-- The range from `h` to `e` consists of blocks that stand for the given runs. -/
structure MergedTiles (ref m : Memory) (h : ℕ) (us : List (Block × ℕ)) (e : ℕ) : Prop where
  tiles : Tiles ref m h (us.map Prod.fst) e
  footers : Footers m h us

/-- All footers of the blocks from address `h` on are equal to the headers. -/
def Tight (m : Memory) : ℕ → List Block → Prop
  | _, [] => True
  | h, b :: bs => word m (h + b.size - 8) = word m h ∧ Tight m (h + b.size) bs

/-- Runs are behind each other, -/
theorem MergedTiles.le (ht : MergedTiles ref m h us e) : h ≤ e := ht.tiles.le

/-- The tags of a block depend on its own bytes only. -/
theorem IsBlock.footer_congr (hb : IsBlock ref m h b)
    (heq : ∀ x, h ≤ x → x < h + b.size → m' x = m x) :
    (word m' (h + b.size - 8) = word m' h ↔ word m (h + b.size - 8) = word m h) := by
  have hlarge := hb.large
  rw [word_congr fun i hi => heq (h + b.size - 8 + i) (by omega) (by omega),
    word_congr fun i hi => heq (h + i) (by omega) (by omega)]

/-- The two tags of a block in use agree, and it stands for itself. -/
theorem IsBlock.footer_used (hb : IsBlock ref m h ⟨size, true⟩) :
    word m (h + size - 8) = word m h ↔ ¬ Stale 1 :=
  iff_of_true ((hb.footer rfl).trans hb.header.symm) (by decide)

/-- and depend on the memory that they cover only. -/
theorem MergedTiles.congr (ht : MergedTiles ref m h us e)
    (heq : ∀ x, h ≤ x → x < e → m' x = m x) : MergedTiles ref m' h us e := by
  obtain ⟨ht, hf⟩ := ht
  refine ⟨ht.congr heq, ?_⟩
  induction us generalizing h with
  | nil => trivial
  | cons x us ih =>
    have hle := ht.2.le
    refine ⟨?_, ih (fun x hge hlt => heq x (by omega) hlt) ht.2 hf.2⟩
    rw [ht.1.footer_congr fun x hge hlt => heq x hge (by omega)]
    exact hf.1

/-- Whether all footers are written depends on the memory of the blocks only. -/
theorem Tight.congr (hti : Tight m h bs) (ht : Tiles ref m h bs e)
    (heq : ∀ x, h ≤ x → x < e → m' x = m x) : Tight m' h bs := by
  induction bs generalizing h with
  | nil => trivial
  | cons b bs ih =>
    have hle := ht.2.le
    refine ⟨?_, ih hti.2 ht.2 fun x hge hlt => heq x (by omega) hlt⟩
    exact (ht.1.footer_congr fun x hge hlt => heq x hge (by omega)).2 hti.1

/-- One more run at the end. -/
theorem footers_concat (ht : Tiles ref m h (us.map Prod.fst) k) (hf : Footers m h us)
    (hx : word m (k + x.1.size - 8) = word m k ↔ ¬ Stale x.2) : Footers m h (us ++ [x]) := by
  induction us generalizing h with
  | nil =>
    obtain rfl : h = k := ht
    exact ⟨hx, trivial⟩
  | cons y us ih => exact ⟨hf.1, ih ht.2 hf.2⟩

/-- A run at the end of a range extends it. -/
theorem MergedTiles.concat {size : ℕ} {alloc : Bool} (ht : MergedTiles ref m h us k)
    (hb : IsBlock ref m k ⟨size, alloc⟩)
    (hfoot : word m (k + size - 8) = word m k ↔ ¬ Stale c) :
    MergedTiles ref m h (us ++ [(⟨size, alloc⟩, c)]) (k + size) := by
  refine ⟨?_, footers_concat ht.tiles ht.footers hfoot⟩
  rw [List.map_append]
  exact ht.tiles.concat hb

/-- Without stale footers, all of them are written. -/
theorem Footers.tight (hf : Footers m h us) (hus : ∀ x ∈ us, ¬ Stale x.2) :
    Tight m h (us.map Prod.fst) := by
  induction us generalizing h with
  | nil => trivial
  | cons x us ih =>
    exact ⟨hf.1.2 (hus x (List.mem_cons_self ..)),
      ih hf.2 fun y hy => hus y (List.mem_cons_of_mem _ hy)⟩

/-- Each part has its footers written. -/
theorem tight_append (ht : Tiles ref m h xs k) :
    Tight m h (xs ++ ys) ↔ Tight m h xs ∧ Tight m k ys := by
  induction xs generalizing h with
  | nil =>
    obtain rfl : h = k := ht
    exact (and_iff_right trivial).symm
  | cons b xs ih =>
    rw [List.cons_append, Tight, Tight, ih ht.2, and_assoc]

/-! ## First fit -/

/-- A free block with room for `n` bytes, tags included. -/
def Block.Fits (n : ℕ) (b : Block) : Prop := b.alloc = false ∧ n ≤ b.size

instance (n : ℕ) : DecidablePred (Block.Fits n) := fun _ => inferInstanceAs (Decidable (_ ∧ _))

/-- All footers are equal to the headers, except perhaps that of the first block that fits. -/
def TightBut (n : ℕ) (m : Memory) : ℕ → List Block → Prop
  | _, [] => True
  | h, b :: bs =>
    if b.Fits n then Tight m (h + b.size) bs
    else word m (h + b.size - 8) = word m h ∧ TightBut n m (h + b.size) bs

/-- No run is stale, except perhaps the first one that fits. -/
def StaleFirst (n : ℕ) : List (Block × ℕ) → Prop
  | [] => True
  | x :: us => if x.1.Fits n then ∀ y ∈ us, ¬ Stale y.2 else ¬ Stale x.2 ∧ StaleFirst n us

/-- One footer may be an exception, or not. -/
theorem Tight.but (ht : Tight m h bs) : TightBut n m h bs := by
  induction bs generalizing h with
  | nil => trivial
  | cons b bs ih =>
    simp only [TightBut]
    split_ifs
    · exact ht.2
    · exact ⟨ht.1, ih ht.2⟩

/-- If only one run can have a stale footer, it is the exception. -/
theorem Footers.tightBut (hf : Footers m h us) (hus : StaleFirst n us) :
    TightBut n m h (us.map Prod.fst) := by
  induction us generalizing h with
  | nil => trivial
  | cons x us ih =>
    simp only [List.map_cons, TightBut]
    simp only [StaleFirst] at hus
    split_ifs at hus ⊢
    · exact hf.2.tight hus
    · exact ⟨hf.1.2 hus.1, ih hf.2 hus.2⟩

/-- Where nothing fits there is no exception. -/
theorem TightBut.tight (ht : TightBut n m h bs) (hbs : ∀ b ∈ bs, ¬ b.Fits n) : Tight m h bs := by
  induction bs generalizing h with
  | nil => trivial
  | cons b bs ih =>
    simp only [TightBut, if_neg (hbs b (List.mem_cons_self ..))] at ht
    exact ⟨ht.1, ih ht.2 fun b hb => hbs b (List.mem_cons_of_mem _ hb)⟩

/-- The blocks around the first one that fits. -/
theorem TightBut.around (ht : TightBut n m h (xs ++ b :: ys)) (hxs : ∀ b ∈ xs, ¬ b.Fits n)
    (hb : b.Fits n) (htiles : Tiles ref m h xs k) :
    Tight m h xs ∧ Tight m (k + b.size) ys := by
  induction xs generalizing h with
  | nil =>
    obtain rfl : h = k := htiles
    simp only [List.nil_append, TightBut, if_pos hb] at ht
    exact ⟨trivial, ht⟩
  | cons c xs ih =>
    simp only [List.cons_append, TightBut, if_neg (hxs c (List.mem_cons_self ..))] at ht
    obtain ⟨hxs', hys⟩ := ih ht.2 (fun b hb => hxs b (List.mem_cons_of_mem _ hb)) htiles.2
    exact ⟨⟨ht.1, hxs'⟩, hys⟩

end BoundaryTags

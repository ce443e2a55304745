import CppLearn.Lib.HeapOrder
import Mathlib.Algebra.Order.Ring.Nat
import Mathlib.Data.List.Perm.Basic
import Mathlib.Tactic.Common
import Mathlib.Tactic.Ring

/-!
# Buddy trees

The state of a buddy allocator as a binary tree: a block is free, in use, or split into two halves
of half the size. The smallest blocks have size `unit`, and a tree of height `h` divides a block of
size `unit * 2 ^ h`.

The second half of the module is about the usual representation of such a tree: an array in heap
order, with one number for each node. The number of a node is the size of the largest block that
can be allocated below it. Below a block in use the numbers are those of a free block.

## Main definitions

* `SplitTree`, `SplitTree.child`, `SplitTree.replace`: trees and positions in them;
* `SplitTree.blocks`: the blocks in use;
* `SplitTree.value`: the number of a node;
* `Overlaps`: two blocks share an address;
* `Represents`: an array holds the numbers of a tree.

## Main results

* `SplitTree.blocks_replace`: what changing a subtree does to the blocks in use;
* `SplitTree.blocks_disjoint`, `SplitTree.blocks_bounds`: blocks in use do not overlap;
* `SplitTree.eq_free_of_lt_value`: a node whose number exceeds half its size is free;
* `SplitTree.free_or_overlaps`, `SplitTree.not_overlaps_of_free`: a block lies in a free part of the
  tree if and only if it overlaps no block in use;
* `Represents.take`, `Represents.release`, `Represents.join`: the writes that keep an array and a
  tree together.
-/

namespace BuddyTree

open HeapOrder

/-- The division of a block. -/
inductive SplitTree where
  | free
  | used
  | split (l r : SplitTree)
  deriving DecidableEq

namespace SplitTree

/-- The first (`false`) or second (`true`) half of a block. The halves of a free block are free. -/
def child : SplitTree → Bool → SplitTree
  | split l _, false => l
  | split _ r, true => r
  | free, _ => free
  | used, _ => used

/-- Put two halves together; two free halves are a free block. -/
def join (l r : SplitTree) : SplitTree := if l = free ∧ r = free then free else split l r

/-- Put together half `d` and the other half. -/
def joinAt (d : Bool) (near far : SplitTree) : SplitTree :=
  match d with
  | false => join near far
  | true => join far near

/-- The subtree at the end of a path. -/
def subtree : SplitTree → List Bool → SplitTree
  | t, [] => t
  | t, d :: p => (t.child d).subtree p

/-- The tree with `s` at the end of a path. -/
def replace : SplitTree → List Bool → SplitTree → SplitTree
  | _, [], s => s
  | t, d :: p, s => joinAt d ((t.child d).replace p s) (t.child !d)

/-- No block on the way to the end of the path is in use. -/
def Open : SplitTree → List Bool → Prop
  | _, [] => True
  | t, d :: p => t ≠ used ∧ (t.child d).Open p

/-- Splits go on for at most `h` levels, and always leave something in use. -/
def WellFormed : ℕ → SplitTree → Prop
  | _, free => True
  | _, used => True
  | 0, split _ _ => False
  | h + 1, split l r => ¬ (l = free ∧ r = free) ∧ l.WellFormed h ∧ r.WellFormed h

/-- Leaves fit at any height. -/
@[simp]
theorem wellFormed_free (h : ℕ) : free.WellFormed h := by cases h <;> trivial

@[simp]
theorem wellFormed_used (h : ℕ) : used.WellFormed h := by cases h <;> trivial

/-- The halves of a block, -/
theorem WellFormed.child {h : ℕ} {t : SplitTree} (ht : t.WellFormed (h + 1)) (d : Bool) :
    (t.child d).WellFormed h := by
  cases t with
  | free => exact wellFormed_free h
  | used => exact wellFormed_used h
  | split l r =>
    cases d with
    | false => exact ht.2.1
    | true => exact ht.2.2

/-- and all smaller blocks, are well formed. -/
theorem WellFormed.subtree {h : ℕ} {t : SplitTree} {p : List Bool} (ht : t.WellFormed h)
    (hp : p.length ≤ h) : (t.subtree p).WellFormed (h - p.length) := by
  induction p generalizing t h with
  | nil => exact ht
  | cons d p ih =>
    cases h with
    | zero => simp at hp
    | succ h =>
      rw [List.length_cons, Nat.add_sub_add_right]
      exact ih (ht.child d) (by simpa using hp)

/-- Two well-formed halves make a block. -/
theorem WellFormed.join {h : ℕ} {l r : SplitTree} (hl : l.WellFormed h) (hr : r.WellFormed h) :
    (join l r).WellFormed (h + 1) := by
  unfold SplitTree.join
  split_ifs with hfree
  · exact wellFormed_free _
  · exact ⟨hfree, hl, hr⟩

/-- Any part can be exchanged for one of the same height. -/
theorem WellFormed.replace {h : ℕ} {t s : SplitTree} {p : List Bool} (ht : t.WellFormed h)
    (hp : p.length ≤ h) (hs : s.WellFormed (h - p.length)) : (t.replace p s).WellFormed h := by
  induction p generalizing t h with
  | nil => exact hs
  | cons d p ih =>
    cases h with
    | zero => simp at hp
    | succ h =>
      rw [List.length_cons, Nat.add_sub_add_right] at hs
      have hnear := ih (ht.child d) (by simpa using hp) hs
      have hfar := ht.child !d
      cases d with
      | false => exact hnear.join hfar
      | true => exact hfar.join hnear

variable (unit : ℕ)

/-! ## Blocks in use -/

/-- Offset and size of the blocks in use, for a tree of height `h` at offset `base`. -/
def blocks : ℕ → ℕ → SplitTree → List (ℕ × ℕ)
  | _, _, free => []
  | base, h, used => [(base, unit * 2 ^ h)]
  | base, h, split l r =>
    blocks base (h - 1) l ++ blocks (base + unit * 2 ^ (h - 1)) (h - 1) r

/-- The offset of the end of a path in a tree of height `h`. -/
def offset : ℕ → List Bool → ℕ
  | _, [] => 0
  | h, d :: p => (if d then unit * 2 ^ (h - 1) else 0) + offset (h - 1) p

variable {unit} {h base : ℕ} {t l r s : SplitTree} {p : List Bool}

/-- Joining free halves does not change which blocks are in use. -/
theorem blocks_join : (join l r).blocks unit base h = (split l r).blocks unit base h := by
  unfold join
  split_ifs with hfree
  · obtain ⟨rfl, rfl⟩ := hfree
    rfl
  · rfl

/-- The blocks in use in a block that is not in use itself. -/
theorem blocks_of_ne_used (ht : t ≠ used) :
    t.blocks unit base h = (t.child false).blocks unit base (h - 1) ++
      (t.child true).blocks unit (base + unit * 2 ^ (h - 1)) (h - 1) := by
  cases t with
  | free => rfl
  | used => exact absurd rfl ht
  | split l r => rfl

private theorem append_right_comm_perm {α : Type} (a b c : List α) :
    (a ++ b ++ c).Perm (a ++ c ++ b) := by
  simpa only [List.append_assoc] using List.perm_append_comm.append_left a

/-- Changing a subtree exchanges its blocks in use. -/
theorem blocks_replace (unit base h : ℕ) (s : SplitTree) (hp : t.Open p) :
    ((t.replace p s).blocks unit base h ++
        (t.subtree p).blocks unit (base + offset unit h p) (h - p.length)).Perm
      (t.blocks unit base h ++ s.blocks unit (base + offset unit h p) (h - p.length)) := by
  induction p generalizing t h base with
  | nil =>
    simp only [replace, subtree, offset, Nat.add_zero]
    exact List.perm_append_comm
  | cons d p ih =>
    obtain ⟨hne, hp⟩ := hp
    have hlen : h - (d :: p).length = h - 1 - p.length := by
      rw [List.length_cons]
      omega
    -- the blocks of the other half are the same on both sides
    rw [blocks_of_ne_used hne, hlen]
    cases d with
    | false =>
      have hoff : base + offset unit h (false :: p) = base + offset unit (h - 1) p := by
        simp [offset]
      rw [hoff]
      simp only [replace, subtree, joinAt, blocks_join, blocks, Bool.not_false]
      refine (append_right_comm_perm ..).trans ?_
      refine ((ih _ _ hp).append_right _).trans ?_
      exact append_right_comm_perm ..
    | true =>
      have hoff : base + offset unit h (true :: p) =
          base + unit * 2 ^ (h - 1) + offset unit (h - 1) p := by
        simp [offset, Nat.add_assoc]
      rw [hoff]
      simp only [replace, subtree, joinAt, blocks_join, blocks, Bool.not_true, List.append_assoc]
      exact (ih _ _ hp).append_left _

/-- A block is made of two halves. -/
theorem double_eq (unit h : ℕ) : unit * 2 ^ (h + 1) = unit * 2 ^ h + unit * 2 ^ h := by ring

/-- The size of a half by division. -/
theorem half_eq (unit h : ℕ) : unit * 2 ^ (h + 1) / 2 = unit * 2 ^ h := by
  rw [Nat.pow_succ, ← Nat.mul_assoc, Nat.mul_div_cancel _ (by decide)]

/-- Half the size divides the size. -/
theorem dvd_double (unit h : ℕ) : unit * 2 ^ h ∣ unit * 2 ^ (h + 1) := by
  rw [double_eq]
  exact Nat.dvd_add (Nat.dvd_refl _) (Nat.dvd_refl _)

/-- Blocks in use lie inside the tree, and their offsets are multiples of their sizes. -/
theorem blocks_bounds (ht : t.WellFormed h) (hbase : unit * 2 ^ h ∣ base) {b : ℕ × ℕ}
    (hb : b ∈ t.blocks unit base h) :
    base ≤ b.1 ∧ b.1 + b.2 ≤ base + unit * 2 ^ h ∧ b.2 ∣ b.1 := by
  induction t generalizing h base with
  | free => simp [blocks] at hb
  | used =>
    rw [blocks, List.mem_singleton] at hb
    subst hb
    exact ⟨Nat.le_refl _, Nat.le_refl _, hbase⟩
  -- the blocks of the halves lie in the halves
  | split l r ihl ihr =>
    cases h with
    | zero => exact absurd ht id
    | succ h =>
      obtain ⟨-, hl, hr⟩ := ht
      have hhalf := double_eq unit h
      have hdvd : unit * 2 ^ h ∣ base := (dvd_double unit h).trans hbase
      rw [blocks, Nat.add_sub_cancel, List.mem_append] at hb
      rcases hb with hb | hb
      · obtain ⟨h1, h2, h3⟩ := ihl hl hdvd hb
        exact ⟨h1, by omega, h3⟩
      · obtain ⟨h1, h2, h3⟩ := ihr hr (Nat.dvd_add hdvd (Nat.dvd_refl _)) hb
        exact ⟨by omega, by omega, h3⟩

/-- Different blocks in use do not overlap. -/
theorem blocks_disjoint (unit : ℕ) (ht : t.WellFormed h) (hbase : unit * 2 ^ h ∣ base) :
    (t.blocks unit base h).Pairwise fun b b' => b.1 + b.2 ≤ b'.1 ∨ b'.1 + b'.2 ≤ b.1 := by
  induction t generalizing h base with
  | free => exact List.Pairwise.nil
  | used => exact List.pairwise_singleton ..
  | split l r ihl ihr =>
    cases h with
    | zero => exact absurd ht id
    | succ h =>
      obtain ⟨-, hl, hr⟩ := ht
      have hdvd : unit * 2 ^ h ∣ base := (dvd_double unit h).trans hbase
      have hdvd' : unit * 2 ^ h ∣ base + unit * 2 ^ h := Nat.dvd_add hdvd (Nat.dvd_refl _)
      rw [blocks, Nat.add_sub_cancel]
      refine List.pairwise_append.2 ⟨ihl hl hdvd, ihr hr hdvd', fun b hb b' hb' => .inl ?_⟩
      -- the first half ends where the second one begins
      have hend := (blocks_bounds hl hdvd hb).2.1
      have hstart := (blocks_bounds hr hdvd' hb').1
      omega

/-- Blocks in use are not empty. -/
theorem blocks_pos (hunit : 0 < unit) {b : ℕ × ℕ} (hb : b ∈ t.blocks unit base h) : 0 < b.2 := by
  induction t generalizing h base with
  | free => simp [blocks] at hb
  | used =>
    rw [blocks, List.mem_singleton] at hb
    subst hb
    exact Nat.mul_pos hunit (Nat.two_pow_pos h)
  | split l r ihl ihr =>
    rcases List.mem_append.1 hb with hb | hb
    · exact ihl hb
    · exact ihr hb

/-- A block that is not free has a block in use. -/
theorem blocks_ne_nil (unit base : ℕ) (ht : t.WellFormed h) (hne : t ≠ free) :
    t.blocks unit base h ≠ [] := by
  induction t generalizing h base with
  | free => exact absurd rfl hne
  | used => exact List.cons_ne_nil _ _
  | split l r ihl ihr =>
    cases h with
    | zero => exact absurd ht id
    | succ h =>
      obtain ⟨hsplit, hl, hr⟩ := ht
      rw [blocks, Nat.add_sub_cancel]
      intro hnil
      obtain ⟨hnl, hnr⟩ := List.append_eq_nil_iff.1 hnil
      -- a well-formed tree does not split a block into two free halves
      refine hsplit ⟨?_, ?_⟩
      · by_contra hlf
        exact ihl base hl hlf hnl
      · by_contra hrf
        exact ihr _ hr hrf hnr

/-- A block in use of the size of the whole tree is the whole tree. -/
theorem eq_used_of_mem_blocks {o : ℕ} (hunit : 0 < unit) (ht : t.WellFormed h)
    (hbase : unit * 2 ^ h ∣ base) (hb : (o, unit * 2 ^ h) ∈ t.blocks unit base h) :
    t = used ∧ o = base := by
  cases t with
  | free => simp [blocks] at hb
  | used =>
    rw [blocks, List.mem_singleton] at hb
    exact ⟨rfl, (Prod.mk.inj hb).1⟩
  | split l r =>
    cases h with
    | zero => exact absurd ht id
    | succ h =>
      -- blocks in a half are not larger than the half
      obtain ⟨-, hl, hr⟩ := ht
      have hpos : 0 < unit * 2 ^ h := Nat.mul_pos hunit (Nat.two_pow_pos h)
      have hdvd : unit * 2 ^ h ∣ base := (dvd_double unit h).trans hbase
      rw [blocks, Nat.add_sub_cancel, List.mem_append, double_eq] at hb
      rcases hb with hb | hb
      · obtain ⟨h1, h2, -⟩ := blocks_bounds hl hdvd hb
        simp only at h1 h2
        omega
      · obtain ⟨h1, h2, -⟩ :=
          blocks_bounds hr (Nat.dvd_add hdvd (Nat.dvd_refl _)) hb
        simp only at h1 h2
        omega

/-- The blocks in use determine the tree. -/
theorem eq_of_blocks {t' : SplitTree} (hunit : 0 < unit) (ht : t.WellFormed h)
    (ht' : t'.WellFormed h) (hbase : unit * 2 ^ h ∣ base)
    (hsame : ∀ b, b ∈ t.blocks unit base h ↔ b ∈ t'.blocks unit base h) : t = t' := by
  induction t generalizing h base t' with
  | free =>
    by_contra hne
    obtain ⟨b, hb⟩ := List.exists_mem_of_ne_nil _ (blocks_ne_nil unit base ht' (Ne.symm hne))
    exact absurd ((hsame b).2 hb) List.not_mem_nil
  | used =>
    have hmem := (hsame (base, unit * 2 ^ h)).1 (List.mem_singleton_self _)
    exact (eq_used_of_mem_blocks hunit ht' hbase hmem).1.symm
  | split l r ihl ihr =>
    cases h with
    | zero => exact absurd ht id
    | succ h =>
      -- a tree that is free or in use has other blocks
      cases t' with
      | free =>
        obtain ⟨b, hb⟩ := List.exists_mem_of_ne_nil _ (blocks_ne_nil unit base ht (by simp))
        exact absurd ((hsame b).1 hb) List.not_mem_nil
      | used =>
        have hmem := (hsame (base, unit * 2 ^ (h + 1))).2 (List.mem_singleton_self _)
        exact (eq_used_of_mem_blocks hunit ht hbase hmem).1
      | split l' r' =>
        have hdvd : unit * 2 ^ h ∣ base := (dvd_double unit h).trans hbase
        have hdvd' : unit * 2 ^ h ∣ base + unit * 2 ^ h := Nat.dvd_add hdvd (Nat.dvd_refl _)
        obtain ⟨-, hl, hr⟩ := ht
        obtain ⟨-, hl', hr'⟩ := ht'
        simp only [blocks, Nat.add_sub_cancel, List.mem_append] at hsame
        -- the offset of a block tells which half it is in
        have hapart : ∀ {u v : SplitTree}, u.WellFormed h → v.WellFormed h → ∀ b,
            b ∈ u.blocks unit base h → b ∉ v.blocks unit (base + unit * 2 ^ h) h := by
          intro u v hu hv b hb hb'
          have hend := (blocks_bounds hu hdvd hb).2.1
          have hstart := (blocks_bounds hv hdvd' hb').1
          have hpos := blocks_pos hunit hb
          omega
        have hleft : l = l' := by
          refine ihl hl hl' hdvd fun b => ⟨fun hb => ?_, fun hb => ?_⟩
          · exact ((hsame b).1 (.inl hb)).resolve_right (hapart hl hr' b hb)
          · exact ((hsame b).2 (.inl hb)).resolve_right (hapart hl' hr b hb)
        have hright : r = r' := by
          refine ihr hr hr' hdvd' fun b => ⟨fun hb => ?_, fun hb => ?_⟩
          · exact ((hsame b).1 (.inr hb)).resolve_left fun hb' => hapart hl' hr b hb' hb
          · exact ((hsame b).2 (.inr hb)).resolve_left fun hb' => hapart hl hr' b hb' hb
        rw [hleft, hright]

/-! ## Numbers of nodes -/

/-- The number of a block of size `s` whose halves have the numbers `a` and `b`: the whole block
when both halves are free, else the better half. -/
def merge (s a b : ℕ) : ℕ := if a + b = s then s else max a b

/-- The size of the largest free block in a tree of height `h`. -/
def value (unit : ℕ) : ℕ → SplitTree → ℕ
  | h, free => unit * 2 ^ h
  | _, used => 0
  | h, split l r => merge (unit * 2 ^ h) (value unit (h - 1) l) (value unit (h - 1) r)

/-- The number of a node is at most the size of its block. -/
theorem value_le (unit : ℕ) (ht : t.WellFormed h) : t.value unit h ≤ unit * 2 ^ h := by
  induction t generalizing h with
  | free => exact Nat.le_refl _
  | used => exact Nat.zero_le _
  | split l r ihl ihr =>
    cases h with
    | zero => exact absurd ht id
    | succ h =>
      obtain ⟨-, hl, hr⟩ := ht
      have hl' := ihl hl
      have hr' := ihr hr
      have hhalf := double_eq unit h
      rw [value, Nat.add_sub_cancel, merge]
      split_ifs
      · exact Nat.le_refl _
      · omega

/-- The number of a block that is not in use comes from its halves. -/
theorem value_of_ne_used (ht : t ≠ used) :
    t.value unit (h + 1) = merge (unit * 2 ^ (h + 1)) ((t.child false).value unit h)
      ((t.child true).value unit h) := by
  cases t with
  | free => simp only [value, child, merge, ← double_eq, if_true]
  | used => exact absurd rfl ht
  | split l r => rfl

/-- A block whose number is its size is free. -/
theorem eq_free_of_value_eq (hunit : 0 < unit) (ht : t.WellFormed h)
    (hv : t.value unit h = unit * 2 ^ h) : t = free := by
  induction t generalizing h with
  | free => rfl
  | used =>
    have hpos : 0 < unit * 2 ^ h := Nat.mul_pos hunit (Nat.two_pow_pos h)
    rw [value] at hv
    omega
  | split l r ihl ihr =>
    cases h with
    | zero => exact absurd ht id
    | succ h =>
      obtain ⟨hne, hl, hr⟩ := ht
      have hl' := value_le unit hl
      have hr' := value_le unit hr
      have hpos : 0 < unit * 2 ^ h := Nat.mul_pos hunit (Nat.two_pow_pos h)
      rw [value, Nat.add_sub_cancel, merge, double_eq] at hv
      split_ifs at hv with hsum
      · -- both halves have their full number
        exact absurd ⟨ihl hl (by omega), ihr hr (by omega)⟩ hne
      · omega

/-- A block whose number exceeds half its size is free. -/
theorem eq_free_of_lt_value (hunit : 0 < unit) (ht : t.WellFormed (h + 1))
    (hv : unit * 2 ^ h < t.value unit (h + 1)) : t = free := by
  refine eq_free_of_value_eq hunit ht ?_
  cases t with
  | free => rfl
  | used => simp [value] at hv
  | split l r =>
    obtain ⟨-, hl, hr⟩ := ht
    have hl' := value_le unit hl
    have hr' := value_le unit hr
    rw [value, Nat.add_sub_cancel, merge] at hv ⊢
    -- otherwise the number is that of a half, which is no larger than the half
    split_ifs at hv ⊢ with hsum
    · rfl
    · omega

/-- One of the halves can serve what the whole block can, if it is no more than half of it. -/
theorem exists_le_value_child {b : ℕ} (ht : t.WellFormed (h + 1)) (hb : 0 < b)
    (hv : b ≤ t.value unit (h + 1)) (hhalf : b ≤ unit * 2 ^ h) :
    t ≠ used ∧ (b ≤ (t.child false).value unit h ∨ b ≤ (t.child true).value unit h) := by
  have hne : t ≠ used := by
    rintro rfl
    rw [value] at hv
    omega
  have hl := value_le unit (ht.child false)
  have hr := value_le unit (ht.child true)
  refine ⟨hne, ?_⟩
  rw [value_of_ne_used hne, merge, double_eq] at hv
  -- either both halves are free, or the number is the maximum of theirs
  split_ifs at hv with hsum
  · exact .inl (by omega)
  · omega

/-! ## Free blocks -/

/-- A free block counts for the whole tree. -/
theorem le_value_of_free (ht : t.WellFormed h) (hp : p.length ≤ h) (hopen : t.Open p)
    (hfree : t.subtree p = free) : unit * 2 ^ (h - p.length) ≤ t.value unit h := by
  induction p generalizing t h with
  | nil =>
    rw [show t = free from hfree]
    exact Nat.le_refl _
  | cons d p ih =>
    cases h with
    | zero => simp at hp
    | succ h =>
      obtain ⟨hne, hopen⟩ := hopen
      rw [List.length_cons, Nat.add_sub_add_right]
      have hchild := ih (ht.child d) (by simpa using hp) hopen hfree
      have hl := value_le unit (ht.child false)
      have hr := value_le unit (ht.child true)
      have hdouble := double_eq unit h
      rw [value_of_ne_used hne, merge]
      -- the number is at least that of the half with the free block
      cases d <;> split_ifs <;> omega

/-- The number of a tree is the size of a free block. -/
theorem exists_free_of_value (hunit : 0 < unit) (ht : t.WellFormed h)
    (hv : 0 < t.value unit h) :
    ∃ q, q.length ≤ h ∧ t.Open q ∧ t.subtree q = free ∧
      t.value unit h ≤ unit * 2 ^ (h - q.length) := by
  induction t generalizing h with
  | free => exact ⟨[], Nat.zero_le _, trivial, rfl, Nat.le_refl _⟩
  | used => exact absurd hv (Nat.lt_irrefl 0)
  | split l r ihl ihr =>
    -- a split block is not free as a whole, so its number is that of a half
    have hne : (split l r).value unit h ≠ unit * 2 ^ h := by
      intro heq
      exact absurd (eq_free_of_value_eq hunit ht heq) (by simp)
    cases h with
    | zero => exact absurd ht id
    | succ h =>
      obtain ⟨-, hl, hr⟩ := ht
      rw [value, Nat.add_sub_cancel, merge] at hne hv ⊢
      split_ifs at hne hv ⊢ with hsum
      · exact absurd rfl hne
      · rcases Nat.le_total (r.value unit h) (l.value unit h) with hle | hle
        · rw [Nat.max_eq_left hle] at hv ⊢
          obtain ⟨q, hq, hopen, hfree, hval⟩ := ihl hl hv
          refine ⟨false :: q, by simpa using hq, ⟨by simp, hopen⟩, hfree, ?_⟩
          rwa [List.length_cons, Nat.add_sub_add_right]
        · rw [Nat.max_eq_right hle] at hv ⊢
          obtain ⟨q, hq, hopen, hfree, hval⟩ := ihr hr hv
          refine ⟨true :: q, by simpa using hq, ⟨by simp, hopen⟩, hfree, ?_⟩
          rwa [List.length_cons, Nat.add_sub_add_right]

/-- A position that can be reached, and one that can be reached from there. -/
theorem Open.append {q : List Bool} (hp : t.Open p) (hq : (t.subtree p).Open q) :
    t.Open (p ++ q) ∧ t.subtree (p ++ q) = (t.subtree p).subtree q := by
  induction p generalizing t with
  | nil => exact ⟨hq, rfl⟩
  | cons d p ih =>
    obtain ⟨hopen, hsub⟩ := ih hp.2 hq
    exact ⟨⟨hp.1, hopen⟩, hsub⟩

/-- Two intervals, given by offset and size, have a point in common. -/
def Overlaps (b b' : ℕ × ℕ) : Prop := b.1 < b'.1 + b'.2 ∧ b'.1 < b.1 + b.2

/-- The end of a path lies inside the tree. -/
theorem offset_le (unit : ℕ) (hp : p.length ≤ h) :
    offset unit h p + unit * 2 ^ (h - p.length) ≤ unit * 2 ^ h := by
  induction p generalizing h with
  | nil => simp [offset]
  | cons d p ih =>
    cases h with
    | zero => simp at hp
    | succ h =>
      have hchild := ih (h := h) (by simpa using hp)
      have hdouble := double_eq unit h
      rw [offset, Nat.add_sub_cancel, List.length_cons, Nat.add_sub_add_right]
      split_ifs <;> omega

/-- The interval `b` is a part of `b'`. -/
def Within (b b' : ℕ × ℕ) : Prop := b'.1 ≤ b.1 ∧ b.1 + b.2 ≤ b'.1 + b'.2

/-- A part that is not open lies inside a block in use. -/
theorem exists_within_of_not_open (unit base : ℕ) (hp : p.length ≤ h) (hopen : ¬t.Open p) :
    ∃ b ∈ t.blocks unit base h,
      Within (base + offset unit h p, unit * 2 ^ (h - p.length)) b := by
  induction p generalizing t h base with
  | nil => exact absurd trivial hopen
  | cons d p ih =>
    cases h with
    | zero => simp at hp
    | succ h =>
      -- the path stops at a block in use, or goes on in a child
      by_cases hused : t = used
      · have hle := offset_le unit hp
        refine ⟨(base, unit * 2 ^ (h + 1)), by simp [hused, blocks], ?_⟩
        simp only [Within]
        omega
      · have hchild : ¬(t.child d).Open p := fun hc => hopen ⟨hused, hc⟩
        have hlen : p.length ≤ h := by simpa using hp
        rw [blocks_of_ne_used hused, offset, Nat.add_sub_cancel, List.length_cons,
          Nat.add_sub_add_right, ← Nat.add_assoc]
        cases d with
        | false =>
          obtain ⟨b, hb, hwithin⟩ := ih base hlen hchild
          exact ⟨b, List.mem_append_left _ hb, hwithin⟩
        | true =>
          obtain ⟨b, hb, hwithin⟩ := ih (base + unit * 2 ^ h) hlen hchild
          exact ⟨b, List.mem_append_right _ hb, hwithin⟩

/-- A part of the tree is free, or overlaps a block in use. -/
theorem free_or_overlaps (base : ℕ) (hunit : 0 < unit) (ht : t.WellFormed h)
    (hbase : unit * 2 ^ h ∣ base) (hp : p.length ≤ h) :
    (t.Open p ∧ t.subtree p = free) ∨ ∃ b ∈ t.blocks unit base h,
      Overlaps (base + offset unit h p, unit * 2 ^ (h - p.length)) b := by
  induction p generalizing t h base with
  | nil =>
    by_cases hfree : t = free
    · exact .inl ⟨trivial, hfree⟩
    · -- any block in use overlaps the whole tree
      obtain ⟨b, hb⟩ := List.exists_mem_of_ne_nil _ (blocks_ne_nil unit base ht hfree)
      obtain ⟨hlow, hhigh, -⟩ := blocks_bounds ht hbase hb
      have hpos := blocks_pos hunit hb
      refine .inr ⟨b, hb, ?_⟩
      simp only [Overlaps, offset, List.length_nil, Nat.add_zero, Nat.sub_zero]
      omega
  | cons d p ih =>
    cases h with
    | zero => simp at hp
    | succ h =>
      have hlen : p.length ≤ h := by simpa using hp
      have hdvd : unit * 2 ^ h ∣ base := (dvd_double unit h).trans hbase
      by_cases hused : t = used
      · -- the whole tree is one block
        have hoffset := offset_le unit hp
        have hpos : 0 < unit * 2 ^ (h + 1 - (d :: p).length) :=
          Nat.mul_pos hunit (Nat.two_pow_pos _)
        refine .inr ⟨(base, unit * 2 ^ (h + 1)), by simp [hused, blocks], ?_⟩
        simp only [Overlaps]
        omega
      · rw [blocks_of_ne_used hused, offset, Nat.add_sub_cancel, List.length_cons,
          Nat.add_sub_add_right, ← Nat.add_assoc]
        cases d with
        | false =>
          rcases ih base (ht.child false) hdvd hlen with ⟨hopen, hfree⟩ | ⟨b, hb, hover⟩
          · exact .inl ⟨⟨hused, hopen⟩, hfree⟩
          · exact .inr ⟨b, List.mem_append_left _ hb, hover⟩
        | true =>
          have hdvd' : unit * 2 ^ h ∣ base + unit * 2 ^ h := Nat.dvd_add hdvd (Nat.dvd_refl _)
          rcases ih _ (ht.child true) hdvd' hlen with ⟨hopen, hfree⟩ | ⟨b, hb, hover⟩
          · exact .inl ⟨⟨hused, hopen⟩, hfree⟩
          · exact .inr ⟨b, List.mem_append_right _ hb, hover⟩

/-- A free part of the tree overlaps no block in use. -/
theorem not_overlaps_of_free (ht : t.WellFormed h) (hbase : unit * 2 ^ h ∣ base)
    (hp : p.length ≤ h) (hopen : t.Open p) (hfree : t.subtree p = free) {b : ℕ × ℕ}
    (hb : b ∈ t.blocks unit base h) :
    ¬Overlaps (base + offset unit h p, unit * 2 ^ (h - p.length)) b := by
  -- if the part were in use, its block would be disjoint from the others
  have hblocks := blocks_replace unit base h .used hopen
  rw [hfree] at hblocks
  simp only [blocks, List.append_nil] at hblocks
  have hdisj := blocks_disjoint unit (ht.replace hp (wellFormed_used _)) hbase
  rw [hblocks.pairwise_iff fun hxy => hxy.symm, List.pairwise_append] at hdisj
  have := hdisj.2.2 b hb _ (List.mem_singleton_self _)
  simp only [Overlaps]
  omega

/-- The parts of size `unit * 2 ^ (h - L)` lie at the multiples of their size. -/
theorem exists_offset (unit : ℕ) {L k : ℕ} (hL : L ≤ h) (hk : k < 2 ^ L) :
    ∃ p, p.length = L ∧ offset unit h p = k * (unit * 2 ^ (h - L)) := by
  induction L generalizing h k with
  | zero =>
    obtain rfl : k = 0 := by omega
    exact ⟨[], rfl, by simp [offset]⟩
  | succ L ih =>
    cases h with
    | zero => omega
    | succ h =>
      rw [Nat.add_sub_add_right]
      have hL' : L ≤ h := Nat.le_of_succ_le_succ hL
      have hhalf : 2 ^ L * (unit * 2 ^ (h - L)) = unit * 2 ^ h := by
        rw [← Nat.sub_add_cancel hL', Nat.add_sub_cancel, Nat.pow_add]
        ring
      by_cases hlow : k < 2 ^ L
      · obtain ⟨p, hp, hoffset⟩ := ih hL' hlow
        exact ⟨false :: p, by rw [List.length_cons, hp], by simpa [offset] using hoffset⟩
      · -- the second half
        obtain ⟨j, rfl⟩ := Nat.exists_eq_add_of_le (Nat.le_of_not_lt hlow)
        obtain ⟨p, hp, hoffset⟩ := ih (k := j) hL' (by rw [Nat.pow_succ] at hk; omega)
        refine ⟨true :: p, by rw [List.length_cons, hp], ?_⟩
        rw [Nat.add_mul, hhalf, ← hoffset]
        simp [offset]

/-- Blocks of one size are at the multiples of this size. -/
theorem offset_eq_mul (unit : ℕ) (hp : p.length ≤ h) :
    ∃ k < 2 ^ p.length, offset unit h p = k * (unit * 2 ^ (h - p.length)) := by
  induction p generalizing h with
  | nil => exact ⟨0, Nat.one_pos, by simp [offset]⟩
  | cons d p ih =>
    cases h with
    | zero => simp at hp
    | succ h =>
      have hlen : p.length ≤ h := by simpa using hp
      -- a step into the right half skips the half of the range
      obtain ⟨k, hk, hoffset⟩ := ih hlen
      have hhalf : 2 ^ p.length * (unit * 2 ^ (h - p.length)) = unit * 2 ^ h := by
        rw [← Nat.sub_add_cancel hlen, Nat.add_sub_cancel, Nat.pow_add]
        ring
      rw [List.length_cons, Nat.add_sub_add_right, Nat.pow_succ]
      cases d with
      | false => exact ⟨k, by omega, by simpa [offset] using hoffset⟩
      | true =>
        refine ⟨2 ^ p.length + k, by omega, ?_⟩
        rw [Nat.add_mul, hhalf, ← hoffset]
        simp [offset]

end SplitTree

/-! ## Arrays of numbers -/

section Represents

variable (unit : ℕ) (pool : ℕ → ℕ)

/-- The numbers of a free block of height `h` at node `i`. -/
def Full : ℕ → ℕ → Prop
  | i, 0 => pool i = unit * 2 ^ 0
  | i, h + 1 => pool i = unit * 2 ^ (h + 1) ∧ ∀ d, Full (childIndex i d) h

/-- The numbers from node `i` on are those of a tree of height `h`. -/
def Represents : ℕ → ℕ → SplitTree → Prop
  | i, h, .free => Full unit pool i h
  | i, 0, .used => pool i = 0
  | i, h + 1, .used => pool i = 0 ∧ ∀ d, Full unit pool (childIndex i d) h
  | _, 0, .split _ _ => False
  | i, h + 1, .split l r => pool i = (SplitTree.split l r).value unit (h + 1) ∧
      Represents (childIndex i false) h l ∧ Represents (childIndex i true) h r

variable {unit pool} {pool' : ℕ → ℕ} {i h : ℕ} {t s : SplitTree} {p : List Bool}

/-- A free block has full numbers everywhere below. -/
theorem represents_free : Represents unit pool i h .free ↔ Full unit pool i h := by
  cases h <;> exact Iff.rfl

/-- Only the numbers below the node matter. -/
theorem Full.congr (hf : Full unit pool i h) (heq : ∀ j, Below i j → pool' j = pool j) :
    Full unit pool' i h := by
  induction h generalizing i with
  | zero => exact (heq i (Below.refl i)).trans hf
  | succ h ih =>
    refine ⟨(heq i (Below.refl i)).trans hf.1, fun d => ih (hf.2 d) fun j hj => ?_⟩
    exact heq j hj.of_child

/-- The numbers of a subtree depend on the nodes of the subtree only. -/
theorem Represents.congr (hr : Represents unit pool i h t)
    (heq : ∀ j, Below i j → pool' j = pool j) : Represents unit pool' i h t := by
  have hi := heq i (Below.refl i)
  induction t generalizing i h with
  | free => exact represents_free.2 ((represents_free.1 hr).congr heq)
  | used =>
    cases h with
    | zero => exact hi.trans hr
    | succ h =>
      exact ⟨hi.trans hr.1, fun d => (hr.2 d).congr fun j hj => heq j hj.of_child⟩
  | split l r ihl ihr =>
    cases h with
    | zero => exact hr
    | succ h =>
      obtain ⟨hv, hl, hr⟩ := hr
      exact ⟨hi.trans hv, ihl hl (fun j hj => heq j hj.of_child) (heq _ (Below.refl _).of_child),
        ihr hr (fun j hj => heq j hj.of_child) (heq _ (Below.refl _).of_child)⟩

/-- A table is that of a free block when every node has its own size. -/
theorem full_of_nodeIndex
    (hpool : ∀ p : List Bool, p.length ≤ h → pool (nodeIndex i p) = unit * 2 ^ (h - p.length)) :
    Full unit pool i h := by
  induction h generalizing i with
  | zero => exact hpool [] (Nat.le_refl 0)
  | succ h ih =>
    refine ⟨hpool [] (Nat.zero_le _), fun d => ih fun p hp => ?_⟩
    have := hpool (d :: p) (Nat.succ_le_succ hp)
    rwa [List.length_cons, Nat.add_sub_add_right] at this

/-- The number of the node itself. -/
theorem Full.value (hf : Full unit pool i h) : pool i = unit * 2 ^ h := by
  cases h with
  | zero => exact hf
  | succ h => exact hf.1

/-- Every node of a free block has its own size. -/
theorem Full.nodeIndex (hf : Full unit pool i h) {p : List Bool} (hp : p.length ≤ h) :
    pool (nodeIndex i p) = unit * 2 ^ (h - p.length) := by
  induction p generalizing i h with
  | nil => exact hf.value
  | cons d p ih =>
    cases h with
    | zero => simp at hp
    | succ h =>
      rw [List.length_cons, Nat.add_sub_add_right]
      exact ih (hf.2 d) (by simpa using hp)

/-- The number of a node is the value of its subtree. -/
theorem Represents.value (hr : Represents unit pool i h t) : pool i = t.value unit h := by
  cases t with
  | free => exact (represents_free.1 hr).value
  | used =>
    cases h with
    | zero => exact hr
    | succ h => exact hr.1
  | split l r =>
    cases h with
    | zero => exact absurd hr id
    | succ h => exact hr.1

/-- The tree determines the numbers of its nodes. -/
theorem Represents.nodeIndex_eq (hr : Represents unit pool i h t)
    (hr' : Represents unit pool' i h t) (hp : p.length ≤ h) :
    pool' (nodeIndex i p) = pool (nodeIndex i p) := by
  induction p generalizing i h t with
  | nil => exact hr'.value.trans hr.value.symm
  | cons d p ih =>
    cases h with
    | zero => simp at hp
    | succ h =>
      -- below a free or a used block all entries are determined by the block
      have hlen : p.length ≤ h := by simpa using hp
      cases t with
      | free =>
        have hf := (represents_free.1 hr).2 d
        have hf' := (represents_free.1 hr').2 d
        exact (hf'.nodeIndex hlen).trans (hf.nodeIndex hlen).symm
      | used => exact ((hr'.2 d).nodeIndex hlen).trans ((hr.2 d).nodeIndex hlen).symm
      | split l r =>
        cases d with
        | false => exact ih hr.2.1 hr'.2.1 hlen
        | true => exact ih hr.2.2 hr'.2.2 hlen

/-- The halves of a block that is not in use. -/
theorem Represents.child (hr : Represents unit pool i (h + 1) t) (ht : t ≠ .used) (d : Bool) :
    Represents unit pool (childIndex i d) h (t.child d) := by
  cases t with
  | free => exact represents_free.2 ((represents_free.1 hr).2 d)
  | used => exact absurd rfl ht
  | split l r =>
    cases d with
    | false => exact hr.2.1
    | true => exact hr.2.2

/-- Two halves with the merged number above them. -/
theorem Represents.join {l r : SplitTree}
    (hi : pool i = SplitTree.merge (unit * 2 ^ (h + 1)) (l.value unit h) (r.value unit h))
    (hl : Represents unit pool (childIndex i false) h l)
    (hr : Represents unit pool (childIndex i true) h r) :
    Represents unit pool i (h + 1) (SplitTree.join l r) := by
  unfold SplitTree.join
  split_ifs with hfree
  · -- two free halves are one free block
    obtain ⟨rfl, rfl⟩ := hfree
    refine represents_free.2 ⟨?_, fun d => ?_⟩
    · rw [hi]
      exact (SplitTree.value_of_ne_used (t := .free) (by simp)).symm
    · cases d with
      | false => exact represents_free.1 hl
      | true => exact represents_free.1 hr
  · exact ⟨hi, hl, hr⟩

/-- Taking a free block changes its own number only. -/
theorem Represents.take (hr : Represents unit pool i h .free) (hi : pool' i = 0)
    (heq : ∀ j, j ≠ i → pool' j = pool j) : Represents unit pool' i h .used := by
  cases h with
  | zero => exact hi
  | succ h =>
    refine ⟨hi, fun d => ((represents_free.1 hr).2 d).congr fun j hj => heq j ?_⟩
    rintro rfl
    exact not_below_child _ d hj

/-- Giving back a block in use changes its own number only. -/
theorem Represents.release (hr : Represents unit pool i h .used) (hi : pool' i = unit * 2 ^ h)
    (heq : ∀ j, j ≠ i → pool' j = pool j) : Represents unit pool' i h .free := by
  refine represents_free.2 ?_
  cases h with
  | zero => exact hi
  | succ h =>
    refine ⟨hi, fun d => (hr.2 d).congr fun j hj => heq j ?_⟩
    rintro rfl
    exact not_below_child _ d hj

variable (unit pool) in
/-- As `Represents`, but with `s` in the place of the subtree at the end of the path, and with
nothing known about the numbers on the way there. -/
def RepresentsHole : ℕ → ℕ → SplitTree → List Bool → SplitTree → Prop
  | i, h, _, [], s => Represents unit pool i h s
  | _, 0, _, _ :: _, _ => False
  | i, h + 1, t, d :: p, s => RepresentsHole (childIndex i d) h (t.child d) p s ∧
      Represents unit pool (childIndex i !d) h (t.child !d)

/-- A hole at the root is no tree at all. -/
theorem representsHole_nil : RepresentsHole unit pool i h t [] s ↔ Represents unit pool i h s := by
  cases h <;> exact Iff.rfl

/-- The subtree at the end of a path. -/
theorem Represents.subtree (hr : Represents unit pool i h t) (hp : t.Open p) (hlen : p.length ≤ h) :
    Represents unit pool (nodeIndex i p) (h - p.length) (t.subtree p) := by
  induction p generalizing i h t with
  | nil => exact hr
  | cons d p ih =>
    cases h with
    | zero => simp at hlen
    | succ h =>
      rw [List.length_cons, Nat.add_sub_add_right]
      exact ih (hr.child hp.1 d) hp.2 (by simpa using hlen)

/-- A change in the subtree at the end of a path. -/
theorem Represents.hole (hr : Represents unit pool i h t) (hp : t.Open p) (hlen : p.length ≤ h)
    (heq : ∀ j, ¬ Below (nodeIndex i p) j → pool' j = pool j)
    (hs : Represents unit pool' (nodeIndex i p) (h - p.length) s) :
    RepresentsHole unit pool' i h t p s := by
  induction p generalizing i h t with
  | nil => exact representsHole_nil.2 hs
  | cons d p ih =>
    cases h with
    | zero => simp at hlen
    | succ h =>
      rw [List.length_cons, Nat.add_sub_add_right] at hs
      refine ⟨ih (hr.child hp.1 d) hp.2 (by simpa using hlen) heq hs, ?_⟩
      -- the sibling has no node in common with the subtree
      refine (hr.child hp.1 !d).congr fun j hj => heq j fun hbelow => ?_
      exact not_below_sibling (Below.of_nodeIndex (p := p) hbelow) hj

end Represents

end BuddyTree

import CppLearn.MallocLab.Coalesce

/-!
# Paths through the functions

What is known about the functions of `mm.c` from the fact alone that they have returned, in any
state of the heap. Nothing is assumed about the tags: they may have been overwritten. The paths
through `mm_malloc` and `mm_realloc` are given by the calls that are made on them.

The variables are unchanged by the internal functions (`coalesces_sameVars`, `place_sameVars`,
`extend_sameVars`). A new block is found in one of three ways, `Obtains`, and `Reallocates` are the
ways through `mm_realloc`; a call that has returned has taken one of these paths (`mmMalloc_cases`,
`mmRealloc_cases`), and conversely they determine the result (`Obtains.mmMalloc_eq`,
`Obtains.mmRealloc_eq`). On the way to `mem_sbrk`, which is `NoFit`, a fault is the result as well
(`NoFit.mmMalloc_eq`, `NoFit.mmRealloc_eq`).
-/

namespace CppLearn.MallocLab

open BoundedLoop Unsigned

variable {s s' s₁ : Heap} {p q val size newSize oldSize : ℕ} {r : Option ℕ}

/-! ## Variables -/

/-- A write changes the memory only, as do all steps below that end with `place`. -/
theorem put_sameVars (hrun : s.put p val = .ok s') : SameVars s s' := by
  unfold Heap.put at hrun
  split_ifs at hrun
  obtain rfl := Except.ok.inj hrun
  rfl

/-- Writing both tags of a block. -/
theorem putTags_sameVars (hrun : s.putTags p val = .ok s') : SameVars s s' := by
  obtain ⟨s₁, hhead, hrun⟩ := bind_eq_ok.1 hrun
  obtain ⟨a, -, hfoot⟩ := bind_eq_ok.1 hrun
  exact (put_sameVars hhead).trans (put_sameVars hfoot)

/-- Merging a block with the next one. -/
theorem coalesce_sameVars (hrun : s.coalesce p = .ok s') : SameVars s s' := by
  unfold Heap.coalesce at hrun
  simp only [bind, bind_eq_ok] at hrun
  obtain ⟨prevAlloc, -, next, -, nextAlloc, -, freeSize, -, hrun⟩ := hrun
  split_ifs at hrun
  · exact putTags_sameVars hrun
  · simp only [bind_eq_ok] at hrun
    obtain ⟨_, -, _, -, hput⟩ := hrun
    exact putTags_sameVars hput
  · simp only [bind_eq_ok] at hrun
    obtain ⟨_, -, _, -, _, -, s₁, hput, _, -, hput'⟩ := hrun
    exact (put_sameVars hput).trans (put_sameVars hput')
  · simp only [bind_eq_ok] at hrun
    obtain ⟨_, -, _, -, _, -, _, -, _, -, s₁, hput, _, -, _, -, hput'⟩ := hrun
    exact (put_sameVars hput).trans (put_sameVars hput')

/-- The pass over the heap. -/
theorem coalesces_sameVars (hrun : s.coalesces = .ok s') : SameVars s s' := by
  obtain ⟨⟨s₁, p⟩, hloop, heq⟩ := bind_eq_ok.1 hrun
  obtain rfl := Except.ok.inj heq
  refine whileLoop_invariant (I := fun x : Heap × ℕ => SameVars s x.1) ?_ (.refl s) hloop
  rintro ⟨s₁, p⟩ ⟨s₂, q⟩ hvars hbody
  obtain ⟨alloc, -, hbody⟩ := bind_eq_ok.1 hbody
  obtain ⟨s₃, hcoalesce, hbody⟩ := bind_eq_ok.1 hbody
  obtain ⟨next, -, heq⟩ := bind_eq_ok.1 hbody
  obtain ⟨rfl, -⟩ := Prod.mk.inj (Except.ok.inj heq)
  split_ifs at hcoalesce
  · exact hvars.trans (coalesce_sameVars hcoalesce)
  · obtain rfl := Except.ok.inj hcoalesce
    exact hvars

/-- Placing a block in a free one. -/
theorem place_sameVars (hrun : s.place p newSize = .ok s') : SameVars s s' := by
  obtain ⟨freeSize, -, hrun⟩ := bind_eq_ok.1 hrun
  split_ifs at hrun
  · obtain ⟨s₁, hput, hrun⟩ := bind_eq_ok.1 hrun
    obtain ⟨next, -, hput'⟩ := bind_eq_ok.1 hrun
    exact (putTags_sameVars hput).trans (putTags_sameVars hput')
  · exact putTags_sameVars hrun

/-- The tags of a new block and the new end, once `mem_sbrk` has moved `mem_brk`. -/
theorem extend_sameVars (hrun : s.extend p newSize = .ok s') : SameVars s s' := by
  obtain ⟨s₁, hput, hrun⟩ := bind_eq_ok.1 hrun
  obtain ⟨finish, -, hput'⟩ := bind_eq_ok.1 hrun
  exact (putTags_sameVars hput).trans (put_sameVars hput')

/-- Copying a payload. -/
theorem memcpy_sameVars {dest src n : ℕ} (hrun : s.memcpy dest src n = .ok s') : SameVars s s' := by
  unfold Heap.memcpy at hrun
  split_ifs at hrun
  obtain rfl := Except.ok.inj hrun
  rfl

/-! ## Paths -/

/-- A pass over the heap under a condition. -/
def Passed (s : Heap) (c : Prop) (s₁ : Heap) : Prop := c ∧ s.coalesces = .ok s₁ ∨ ¬ c ∧ s₁ = s

/-- `coalesces` is called under the condition that the amount of free memory seems enough. -/
theorem passed_of_if {c : Prop} [Decidable c]
    (hrun : (if c then s.coalesces else .ok s) = .ok s₁) : Passed s c s₁ := by
  split_ifs at hrun with hc
  · exact .inl ⟨hc, hrun⟩
  · exact .inr ⟨hc, (Except.ok.inj hrun).symm⟩

/-- The converse of `passed_of_if`. -/
theorem Passed.if_eq {c : Prop} [Decidable c] (h : Passed s c s₁) :
    (if c then s.coalesces else .ok s) = .ok s₁ := by
  rcases h with ⟨hc, hrun⟩ | ⟨hc, rfl⟩
  · rw [if_pos hc, hrun]
  · rw [if_neg hc]

/-- A pass moves no end of the heap, whether it takes place or not. -/
theorem Passed.sameVars {c : Prop} (h : Passed s c s₁) : SameVars s s₁ := by
  rcases h with ⟨-, hrun⟩ | ⟨-, rfl⟩
  · exact coalesces_sameVars hrun
  · exact .refl _

/-- There is no block of `newSize` bytes, neither before nor after a pass, which is made under the
condition `c` and leads to `s₁`. -/
structure NoFit (s : Heap) (c : Prop) (newSize : ℕ) (s₁ : Heap) : Prop where
  before : s.findFitBlock newSize = .ok none
  passed : Passed s c s₁
  after : s₁.findFitBlock newSize = .ok none

/-- A block of `newSize` bytes is obtained at `p`. If there is none, a pass over the heap is made
under the condition `c`. -/
inductive Obtains (s : Heap) (c : Prop) (newSize p : ℕ) (s' : Heap) : Prop
  | fit : s.findFitBlock newSize = .ok (some p) → s.place p newSize = .ok s' →
      Obtains s c newSize p s'
  | merged {s₁ : Heap} : s.findFitBlock newSize = .ok none → Passed s c s₁ →
      s₁.findFitBlock newSize = .ok (some p) → s₁.place p newSize = .ok s' →
      Obtains s c newSize p s'
  | grown {s₁ s₂ : Heap} : NoFit s c newSize s₁ → s₁.memSbrk newSize = (p, s₂) →
      s₂.extend p newSize = .ok s' → Obtains s c newSize p s'

/-- `mm_malloc` obtains a block, or `mem_sbrk` returns the null pointer. -/
theorem mmMalloc_cases (hsize : size ≠ 0) (hrun : s.mmMalloc size = .ok (r, s')) :
    (∃ p, r = some p ∧
      Obtains s (s.totalFreeSize ≥ Heap.blockSize size) (Heap.blockSize size) p s') ∨
    ∃ s₁, NoFit s (s.totalFreeSize ≥ Heap.blockSize size) (Heap.blockSize size) s₁ ∧
      s₁.memSbrk (Heap.blockSize size) = (0, s') := by
  unfold Heap.mmMalloc at hrun
  rw [if_neg hsize] at hrun
  obtain ⟨fit, hfind, hrun⟩ := bind_eq_ok.1 hrun
  -- a block that fits is found at once, after a pass, or behind the end of the heap
  cases fit with
  | some p =>
    obtain ⟨s₁, hplace, heq⟩ := bind_eq_ok.1 hrun
    obtain ⟨rfl, rfl⟩ := Prod.mk.inj (Except.ok.inj heq)
    exact .inl ⟨p, rfl, .fit hfind hplace⟩
  | none =>
    obtain ⟨s₁, hpass, hrun⟩ := bind_eq_ok.1 hrun
    obtain ⟨fit, hfind₁, hrun⟩ := bind_eq_ok.1 hrun
    cases fit with
    | some p =>
      obtain ⟨s₂, hplace, heq⟩ := bind_eq_ok.1 hrun
      obtain ⟨rfl, rfl⟩ := Prod.mk.inj (Except.ok.inj heq)
      exact .inl ⟨p, rfl, .merged hfind (passed_of_if hpass) hfind₁ hplace⟩
    | none =>
      have hnone := NoFit.mk hfind (passed_of_if hpass) hfind₁
      obtain ⟨n, -, hrun⟩ := bind_eq_ok.1 hrun
      simp only at hrun
      split_ifs at hrun with hnull
      · obtain ⟨rfl, rfl⟩ := Prod.mk.inj (Except.ok.inj hrun)
        exact .inr ⟨s₁, hnone, Prod.ext hnull rfl⟩
      · obtain ⟨s₂, hext, heq⟩ := bind_eq_ok.1 hrun
        obtain ⟨rfl, rfl⟩ := Prod.mk.inj (Except.ok.inj heq)
        exact .inl ⟨_, rfl, .grown hnone rfl hext⟩

/-- A block that can be obtained is what `mm_malloc` returns. -/
theorem Obtains.mmMalloc_eq
    (h : Obtains s (s.totalFreeSize ≥ Heap.blockSize size) (Heap.blockSize size) p s')
    (hsize : size ≠ 0) (hp : p ≠ 0)
    (hfinal : ∀ s₁, SameVars s s₁ → ∃ n, s₁.finalFreeSize = .ok n) :
    s.mmMalloc size = .ok (some p, s') := by
  unfold Heap.mmMalloc
  rw [if_neg hsize]
  cases h with
  | fit hfind hplace => simp only [hfind, hplace, bind, Except.bind]
  | merged hnone hpassed hfind hplace =>
    simp only [hnone, hpassed.if_eq, hfind, hplace, bind, Except.bind]
  | grown hnone hsbrk hext =>
    obtain ⟨n, hn⟩ := hfinal _ hnone.passed.sameVars
    simp only [hnone.before, hnone.passed.if_eq, hnone.after, hn, hsbrk, if_neg hp, hext, bind,
      Except.bind]

/-- If nothing fits, `mm_malloc` fails where writing the tags of the new block does. -/
theorem NoFit.mmMalloc_eq {s₂ : Heap} {fault : Fault}
    (h : NoFit s (s.totalFreeSize ≥ Heap.blockSize size) (Heap.blockSize size) s₁)
    (hsize : size ≠ 0) (hfinal : ∀ s₁, SameVars s s₁ → ∃ n, s₁.finalFreeSize = .ok n)
    (hsbrk : s₁.memSbrk (Heap.blockSize size) = (p, s₂)) (hp : p ≠ 0)
    (hext : s₂.extend p (Heap.blockSize size) = .error fault) :
    s.mmMalloc size = .error fault := by
  obtain ⟨n, hn⟩ := hfinal _ h.passed.sameVars
  simp only [Heap.mmMalloc, if_neg hsize, h.before, h.passed.if_eq, h.after, hn, hsbrk, if_neg hp,
    hext, bind, Except.bind]

/-- The part of `mm_realloc` behind the test for a request of zero bytes. -/
def Heap.reallocTail (s : Heap) (p size : ℕ) : Except Fault (Option ℕ × Heap) := do
  if p = 0 then s.mmMalloc size
  else
    let newSize := blockSize size
    let oldSize ← s.getSize (hdrp p)
    let dataSize ← s.dataSize (hdrp p)
    if oldSize = newSize then .ok (some p, s)
    else if oldSize > newSize then .ok (some p, ← s.place p newSize)
    else
      match ← s.findFitBlock newSize with
      | some newP => (← s.place newP newSize).move newP p dataSize
      | none =>
        let s ← (if s.totalFreeSize > newSize then s.coalesces else .ok s)
        match ← s.findFitBlock newSize with
        | some newP => (← s.place newP newSize).move newP p dataSize
        | none =>
          let (newP, s) := s.memSbrk newSize
          if newP = 0 then .ok (none, s) else (← s.extend newP newSize).move newP p dataSize

/-- For sizes other than zero, `mm_realloc` does not free the block at once. -/
theorem mmRealloc_eq (hsize : size ≠ 0) : s.mmRealloc p size = s.reallocTail p size := by
  unfold Heap.mmRealloc
  rw [if_neg hsize]
  rfl

/-- For the size zero it does, and goes on with the block all the same. -/
theorem mmRealloc_zero : s.mmRealloc p 0 = (s.mmFree p).bind fun s => s.reallocTail p 0 := rfl

/-- The size of a payload is read from the header. -/
theorem dataSize_eq {a n : ℕ} (hn : s.getSize a = .ok n) :
    s.dataSize a = .ok (sub 32 n (2 * sizeTSize)) := by
  simp only [Heap.dataSize, hn, bind, Except.bind]

/-- A block that is moved is copied, and then freed. -/
theorem move_cases {n : ℕ} (hrun : s.move q p n = .ok (r, s')) :
    r = some q ∧ ∃ s₁, s.memcpy q p n = .ok s₁ ∧ s₁.mmFree p = .ok s' := by
  obtain ⟨s₁, hcopy, hrun⟩ := bind_eq_ok.1 hrun
  obtain ⟨s₂, hfree, heq⟩ := bind_eq_ok.1 hrun
  obtain ⟨rfl, rfl⟩ := Prod.mk.inj (Except.ok.inj heq)
  exact ⟨rfl, s₁, hcopy, hfree⟩

/-- The block is kept, is cut in place, or is moved to a block that was obtained, unless `mem_sbrk`
returns the null pointer. -/
inductive Reallocates (s : Heap) (p newSize : ℕ) (r : Option ℕ) (s' : Heap) : Prop
  | same : s.getSize (hdrp p) = .ok newSize → r = some p → s' = s → Reallocates s p newSize r s'
  | shrunk {oldSize : ℕ} : s.getSize (hdrp p) = .ok oldSize → newSize < oldSize → r = some p →
      s.place p newSize = .ok s' → Reallocates s p newSize r s'
  | moved {oldSize q : ℕ} {s₁ s₂ : Heap} : s.getSize (hdrp p) = .ok oldSize →
      oldSize < newSize → r = some q → Obtains s (s.totalFreeSize > newSize) newSize q s₁ →
      s₁.memcpy q p (sub 32 oldSize (2 * sizeTSize)) = .ok s₂ → s₂.mmFree p = .ok s' →
      Reallocates s p newSize r s'
  | null {oldSize : ℕ} {s₁ : Heap} : s.getSize (hdrp p) = .ok oldSize → oldSize < newSize →
      NoFit s (s.totalFreeSize > newSize) newSize s₁ → s₁.memSbrk newSize = (0, s') →
      Reallocates s p newSize r s'

/-- What `mm_realloc` has done when it has returned. -/
theorem reallocTail_cases (hp : p ≠ 0) (hrun : s.reallocTail p size = .ok (r, s')) :
    Reallocates s p (Heap.blockSize size) r s' := by
  unfold Heap.reallocTail at hrun
  rw [if_neg hp] at hrun
  obtain ⟨oldSize, hold, hrun⟩ := bind_eq_ok.1 hrun
  obtain ⟨n, hn, hrun⟩ := bind_eq_ok.1 hrun
  obtain rfl := Except.ok.inj ((dataSize_eq hold).symm.trans hn)
  by_cases hsame : oldSize = Heap.blockSize size
  · rw [if_pos hsame] at hrun
    obtain ⟨rfl, rfl⟩ := Prod.mk.inj (Except.ok.inj hrun)
    exact .same (hsame ▸ hold) rfl rfl
  rw [if_neg hsame] at hrun
  by_cases hshrink : oldSize > Heap.blockSize size
  · rw [if_pos hshrink] at hrun
    obtain ⟨s₁, hplace, heq⟩ := bind_eq_ok.1 hrun
    obtain ⟨rfl, rfl⟩ := Prod.mk.inj (Except.ok.inj heq)
    exact .shrunk hold hshrink rfl hplace
  rw [if_neg hshrink] at hrun
  have hlt : oldSize < Heap.blockSize size := by omega
  -- the same three ways as in `mm_malloc`
  obtain ⟨fit, hfind, hrun⟩ := bind_eq_ok.1 hrun
  cases fit with
  | some q =>
    obtain ⟨s₁, hplace, hrun⟩ := bind_eq_ok.1 hrun
    obtain ⟨rfl, s₂, hcopy, hfree⟩ := move_cases hrun
    exact .moved hold hlt rfl (.fit hfind hplace) hcopy hfree
  | none =>
    obtain ⟨s₁, hpass, hrun⟩ := bind_eq_ok.1 hrun
    obtain ⟨fit, hfind₁, hrun⟩ := bind_eq_ok.1 hrun
    cases fit with
    | some q =>
      obtain ⟨s₂, hplace, hrun⟩ := bind_eq_ok.1 hrun
      obtain ⟨rfl, s₃, hcopy, hfree⟩ := move_cases hrun
      exact .moved hold hlt rfl (.merged hfind (passed_of_if hpass) hfind₁ hplace) hcopy hfree
    | none =>
      have hnone := NoFit.mk hfind (passed_of_if hpass) hfind₁
      simp only at hrun
      split_ifs at hrun with hnull
      · obtain ⟨rfl, rfl⟩ := Prod.mk.inj (Except.ok.inj hrun)
        exact .null hold hlt hnone (Prod.ext hnull rfl)
      · obtain ⟨s₂, hext, hrun⟩ := bind_eq_ok.1 hrun
        obtain ⟨rfl, s₃, hcopy, hfree⟩ := move_cases hrun
        exact .moved hold hlt rfl (.grown hnone rfl hext) hcopy hfree

/-- The paths through `mm_realloc`. -/
theorem mmRealloc_cases (hp : p ≠ 0) (hsize : size ≠ 0)
    (hrun : s.mmRealloc p size = .ok (r, s')) : Reallocates s p (Heap.blockSize size) r s' := by
  rw [mmRealloc_eq hsize] at hrun
  exact reallocTail_cases hp hrun

section Moving

variable (hp : p ≠ 0) (hsize : size ≠ 0) (hold : s.getSize (hdrp p) = .ok oldSize)
  (hlt : oldSize < Heap.blockSize size) (hq : q ≠ 0)
include hp hsize hold hlt hq

/-- If another block can be obtained, the payload is moved to it. -/
theorem Obtains.mmRealloc_eq
    (h : Obtains s (s.totalFreeSize > Heap.blockSize size) (Heap.blockSize size) q s₁) :
    s.mmRealloc p size = s₁.move q p (sub 32 oldSize (2 * sizeTSize)) := by
  have hsame : ¬ oldSize = Heap.blockSize size := by omega
  have hshrink : ¬ oldSize > Heap.blockSize size := by omega
  rw [MallocLab.mmRealloc_eq hsize]
  unfold Heap.reallocTail
  simp only [if_neg hp, hold, dataSize_eq hold, if_neg hsame, if_neg hshrink, bind, Except.bind]
  cases h with
  | fit hfind hplace => simp only [hfind, hplace]
  | merged hnone hpassed hfind hplace => simp only [hnone, hpassed.if_eq, hfind, hplace]
  | grown hnone hsbrk hext =>
    simp only [hnone.before, hnone.passed.if_eq, hnone.after, hsbrk, if_neg hq, hext]

/-- If nothing fits, `mm_realloc` fails like `mm_malloc`. -/
theorem NoFit.mmRealloc_eq {s₂ : Heap} {fault : Fault}
    (h : NoFit s (s.totalFreeSize > Heap.blockSize size) (Heap.blockSize size) s₁)
    (hsbrk : s₁.memSbrk (Heap.blockSize size) = (q, s₂))
    (hext : s₂.extend q (Heap.blockSize size) = .error fault) :
    s.mmRealloc p size = .error fault := by
  have hsame : ¬ oldSize = Heap.blockSize size := by omega
  have hshrink : ¬ oldSize > Heap.blockSize size := by omega
  rw [MallocLab.mmRealloc_eq hsize]
  unfold Heap.reallocTail
  simp only [if_neg hp, hold, dataSize_eq hold, if_neg hsame, if_neg hshrink, h.before,
    h.passed.if_eq, h.after, hsbrk, if_neg hq, hext, bind, Except.bind]

end Moving

end CppLearn.MallocLab

import CppLearn.MallocLab.Calls

/-!
# What the allocator does not check

Results for all requests, including those that overflow. The heap may then be in disorder, but its
variables are not, and the pointers that are returned are inside the storage behind it.

* `mem_sbrk` returns the pointer `-1` when it fails. Only the null pointer is recognised, and the
  tags of a block at `-1` are written outside the storage.
* The size of the block is computed with wrap-around, so that a very large request gets a block that
  is too small.
* `mm_realloc` frees the block for a request of zero bytes, but does not return.

`Within` says that the variables of the heap are in order, `InStorage` that a pointer can be used.
The three results are `sbrk_failure_faults`, `malloc_payload_iff` and `realloc_zero_not_null`.
-/

namespace CppLearn.MallocLab

open BoundedLoop Unsigned BoundaryTags

/-- The heap is in the storage at `startBrk` and has at least room for its end marker. -/
structure Within (startBrk : ℕ) (s : Heap) : Prop where
  base : s.startBrk = startBrk
  max : s.maxAddr = startBrk + maxHeap
  ge : startBrk + 8 ≤ s.brk
  le : s.brk ≤ s.maxAddr
  dvd : 8 ∣ s.brk

/-- The header of a block at `p` is inside the storage at `startBrk`. -/
structure InStorage (startBrk p : ℕ) : Prop where
  ge : startBrk ≤ hdrp p
  le : hdrp p + 4 ≤ startBrk + maxHeap

variable {s s' s₁ : Heap} {startBrk a b p val n size newSize : ℕ} {live : List (ℕ × ℕ)} {c : Prop}

/-- The storage is where it was. -/
theorem Within.region (hw : Within startBrk s) (hbase : HeapBase startBrk) : Region s := by
  refine ⟨?_, ?_, ?_, ?_⟩
  · rw [hw.base]
    exact hbase.pos
  · rw [hw.base]
    exact hbase.dvd
  · rw [hw.max, hw.base]
  · rw [hw.base]
    exact hbase.bound

/-- Steps that leave the variables alone stay inside it. -/
theorem Within.of_sameVars (hw : Within startBrk s) (hvars : SameVars s s') :
    Within startBrk s' := by
  rw [hvars]
  exact ⟨hw.base, hw.max, hw.ge, hw.le, hw.dvd⟩

/-- Blocks have sizes that are multiples of eight, also where the computation wraps. -/
theorem dvd_blockSize (size : ℕ) : 8 ∣ Heap.blockSize size := by
  unfold Heap.blockSize alignUp8 add sizeTSize
  omega

/-! ## Reading and writing words -/

/-- A read that succeeds is inside the storage. -/
theorem get_bounds (hget : s.get a = .ok val) : s.startBrk ≤ a ∧ a + 4 ≤ s.maxAddr := by
  unfold Heap.get at hget
  split_ifs at hget with hin
  exact hin

/-- The size is a word without its lowest bits. -/
theorem getSize_eq (hsize : s.getSize a = .ok n) : ∃ val, s.get a = .ok val ∧ n = val / 8 * 8 := by
  obtain ⟨val, hget, heq⟩ := bind_eq_ok.1 hsize
  exact ⟨val, hget, (Except.ok.inj heq).symm⟩

/-- Sizes are multiples of eight below `2 ^ 32`. -/
theorem getSize_lt (hn : s.getSize a = .ok n) : n + 8 ≤ 2 ^ 32 := by
  obtain ⟨val, hget, rfl⟩ := getSize_eq hn
  have hval : val < 2 ^ 32 := by
    unfold Heap.get at hget
    split_ifs at hget
    rw [← Except.ok.inj hget]
    exact Memory.loadLE_lt s.memory 4 a
  omega

/-- A word that has been written is read back. -/
theorem put_get_self (hput : s.put a val = .ok s') (hval : val < 2 ^ 32) : s'.get a = .ok val := by
  unfold Heap.put at hput
  split_ifs at hput with hin
  obtain rfl := Except.ok.inj hput
  unfold Heap.get
  rw [if_pos hin, Memory.loadLE_storeLE hval]

/-- A word apart from it is unchanged. -/
theorem put_get_of_disjoint (hput : s.put b val = .ok s') (hget : s.get a = .ok n)
    (hab : a + 4 ≤ b ∨ b + 4 ≤ a) : s'.get a = .ok n := by
  have hin := get_bounds hget
  unfold Heap.put at hput
  split_ifs at hput
  obtain rfl := Except.ok.inj hput
  unfold Heap.get at hget ⊢
  rw [if_pos hin] at hget ⊢
  rw [← hget]
  exact congrArg Except.ok (word_store_of_disjoint hab)

/-- A word at a distance that is a multiple of eight, modulo the address space, is disjoint. -/
theorem disjoint_of_add {d : ℕ} (hb : b = add 32 a d) (hdvd : 8 ∣ d) (hpos : 0 < d)
    (hlt : d < 2 ^ 32) : a + 4 ≤ b ∨ b + 4 ≤ a := by
  unfold add at hb
  omega

/-- Addresses are computed modulo `2 ^ 32`: the header of the next block, -/
theorem hdrp_add_mod (p n : ℕ) : hdrp (add 32 p n) = add 32 (hdrp p) n := by
  unfold hdrp add sub sizeTSize
  omega

/-- and the footer of a block. -/
theorem ftrp_mod (hn : 8 ≤ n) : sub 32 (add 32 p n) (2 * sizeTSize) = add 32 (hdrp p) (n - 8) := by
  unfold hdrp add sub sizeTSize
  omega

/-- The header is still there after both tags of a block have been written. -/
theorem putTags_get (hput : s.putTags p val = .ok s') (hlarge : 24 ≤ val) (hval : val < 2 ^ 32) :
    s'.get (hdrp p) = .ok val := by
  obtain ⟨s₁, hhead, hput⟩ := bind_eq_ok.1 hput
  obtain ⟨f, hf, hfoot⟩ := bind_eq_ok.1 hput
  have hget := put_get_self hhead hval
  have hf' : f = add 32 (hdrp p) (val / 8 * 8 - 8) := by
    rw [← ftrp_mod (by omega)]
    simpa [Heap.ftrp, Heap.getSize, hget, bind, Except.bind] using hf.symm
  exact put_get_of_disjoint hfoot hget
    (disjoint_of_add hf' (by omega) (by omega) (by omega))

/-- The header is still there after both tags of the block behind have been written. -/
theorem putTags_get_next {rest : ℕ} (hput : s.putTags (add 32 p newSize) rest = .ok s')
    (hget : s.get (hdrp p) = .ok val) (hdvd : 8 ∣ newSize) (hpos : 0 < newSize) (hrest : 8 ∣ rest)
    (hlarge : 16 < rest) (hlt : newSize + rest < 2 ^ 32) : s'.get (hdrp p) = .ok val := by
  obtain ⟨s₁, hhead, hput⟩ := bind_eq_ok.1 hput
  obtain ⟨f, hf, hfoot⟩ := bind_eq_ok.1 hput
  have hget₁ : s₁.get (hdrp p) = .ok val :=
    put_get_of_disjoint hhead hget
      (disjoint_of_add (hdrp_add_mod p newSize) hdvd hpos (by omega))
  have hnext := put_get_self hhead (by omega)
  have hmul : rest / 8 * 8 = rest := Nat.div_mul_cancel hrest
  have hf' : f = add 32 (hdrp p) (newSize + rest - 8) := by
    have hfoot' : f = sub 32 (add 32 (add 32 p newSize) rest) (2 * sizeTSize) := by
      simpa [Heap.ftrp, Heap.getSize, hnext, bind, Except.bind, hmul] using hf.symm
    rw [hfoot', ftrp_mod (by omega), hdrp_add_mod]
    unfold add
    omega
  exact put_get_of_disjoint hfoot hget₁
    (disjoint_of_add hf' (by omega) (by omega) (by omega))

/-! ## New blocks -/

/-- A block that was found is free and large enough. -/
theorem findFitBlock_found (hfind : s.findFitBlock newSize = .ok (some p)) :
    ∃ n, s.getSize (hdrp p) = .ok n ∧ newSize ≤ n := by
  refine iterate_invariant (I := fun _ => True)
    (Q := fun r => ∀ p, r = some p → ∃ n, s.getSize (hdrp p) = .ok n ∧ newSize ≤ n)
    (fun _ _ _ _ => trivial) ?_ trivial hfind p rfl
  rintro q r - hstep p rfl
  unfold Heap.findFitStep at hstep
  simp only [bind, bind_eq_ok] at hstep
  obtain ⟨isEnd, -, hstep⟩ := hstep
  split_ifs at hstep
  · simp at hstep
  · simp only [bind_eq_ok] at hstep
    obtain ⟨alloc, -, n, hn, hstep⟩ := hstep
    split_ifs at hstep with hfit
    · simp only [Except.ok.injEq, Sum.inr.injEq, Option.some.injEq] at hstep
      exact ⟨n, hstep ▸ hn, hfit.2⟩
    · simp [bind_eq_ok] at hstep

/-- After `place` the block is large enough. -/
theorem place_header (hplace : s.place p newSize = .ok s') (hn : s.getSize (hdrp p) = .ok n)
    (hfit : newSize ≤ n) (hdvd : 8 ∣ newSize) (hlarge : 24 ≤ newSize) (hlt : n < 2 ^ 32) :
    ∃ val, s'.get (hdrp p) = .ok val ∧ newSize ≤ val / 8 * 8 := by
  obtain ⟨val, -, hval⟩ := getSize_eq hn
  obtain ⟨n', hn', hplace⟩ := bind_eq_ok.1 hplace
  obtain rfl := Except.ok.inj (hn'.symm.trans hn)
  have hsub : sub 32 n' newSize = n' - newSize := sub_eq hfit hlt
  rw [hsub, pack_one hdvd, pack_one (show 8 ∣ n' by omega), pack_zero] at hplace
  split_ifs at hplace with hsplit
  · obtain ⟨s₁, hput, hplace⟩ := bind_eq_ok.1 hplace
    obtain ⟨next, hnext, hput'⟩ := bind_eq_ok.1 hplace
    have hget := putTags_get hput (by omega) (by omega)
    have hmul : (newSize + 1) / 8 * 8 = newSize := by omega
    obtain rfl : add 32 p newSize = next := by
      simpa [Heap.nextBlk, Heap.getSize, hget, bind, Except.bind, hmul] using hnext
    unfold sizeTSize at hsplit
    refine ⟨newSize + 1, ?_, by omega⟩
    exact putTags_get_next hput' hget hdvd (by omega) (by omega) (by omega) (by omega)
  · exact ⟨n' + 1, putTags_get hplace (by omega) (by omega), by omega⟩

/-- After `extend` the block is large enough. -/
theorem extend_header (hext : s.extend p newSize = .ok s') (hdvd : 8 ∣ newSize)
    (hlarge : 24 ≤ newSize) (hlt : newSize < 2 ^ 32) : s'.get (hdrp p) = .ok (newSize + 1) := by
  unfold Heap.extend at hext
  rw [pack_one hdvd] at hext
  obtain ⟨s₁, hput, hext⟩ := bind_eq_ok.1 hext
  obtain ⟨finish, hfinish, hput'⟩ := bind_eq_ok.1 hext
  have hget := putTags_get hput (by omega) (by omega)
  have hmul : (newSize + 1) / 8 * 8 = newSize := by omega
  obtain rfl : add 32 p newSize = finish := by
    simpa [Heap.nextBlk, Heap.getSize, hget, bind, Except.bind, hmul] using hfinish
  exact put_get_of_disjoint hput' hget
    (disjoint_of_add (hdrp_add_mod p newSize) hdvd (by omega) hlt)

/-- A block for a request that does not overflow is large enough. -/
theorem Obtains.header (h : Obtains s c newSize p s') (hdvd : 8 ∣ newSize) (hlarge : 24 ≤ newSize)
    (hlt : newSize < 2 ^ 32) : ∃ val, s'.get (hdrp p) = .ok val ∧ newSize ≤ val / 8 * 8 := by
  cases h with
  | fit hfind hplace =>
    obtain ⟨n, hn, hfit⟩ := findFitBlock_found hfind
    exact place_header hplace hn hfit hdvd hlarge (by have := getSize_lt hn; omega)
  | merged _ _ hfind hplace =>
    obtain ⟨n, hn, hfit⟩ := findFitBlock_found hfind
    exact place_header hplace hn hfit hdvd hlarge (by have := getSize_lt hn; omega)
  | grown _ _ hext => exact ⟨newSize + 1, extend_header hext hdvd hlarge hlt, by omega⟩

/-! ## Variables -/

/-- Addresses of payloads are not null. -/
theorem InStorage.ne_zero (hbase : HeapBase startBrk) (hp : InStorage startBrk p) : p ≠ 0 := by
  rintro rfl
  have hle : 2 ^ 32 - 8 + 4 ≤ startBrk + maxHeap := hp.le
  have hdvd := hbase.dvd
  have hbound := hbase.bound
  unfold maxHeap at hle hbound
  omega

/-- `mem_sbrk` stays inside the storage, or fails, -/
theorem Within.memSbrk (hw : Within startBrk s) (hdvd : 8 ∣ newSize) :
    Within startBrk (s.memSbrk newSize).2 := by
  have hbrk := hw.dvd
  have hge := hw.ge
  unfold Heap.memSbrk
  split_ifs with hroom
  · exact ⟨hw.base, hw.max, show startBrk + 8 ≤ s.brk + newSize by omega, hroom.2,
      show 8 ∣ s.brk + newSize by omega⟩
  · exact hw

/-- and never returns null. -/
theorem Within.memSbrk_ne_zero (hw : Within startBrk s) (newSize : ℕ) :
    (s.memSbrk newSize).1 ≠ 0 := by
  have hge := hw.ge
  unfold Heap.memSbrk
  split_ifs
  · exact show s.brk ≠ 0 by omega
  · exact show 2 ^ 32 - 1 ≠ 0 by decide

/-- `mem_sbrk` does not return the null pointer. -/
theorem Within.noFit_ne_null (hw : Within startBrk s) (hnone : NoFit s c newSize s₁) :
    s₁.memSbrk newSize ≠ (0, s') := fun hnull =>
  (hw.of_sameVars hnone.passed.sameVars).memSbrk_ne_zero newSize (congrArg Prod.fst hnull)

/-- A header that can be read is inside the storage. -/
theorem inStorage_of_get (hw : Within startBrk s) (hget : s.get (hdrp p) = .ok val) :
    InStorage startBrk p := by
  obtain ⟨hge, hle⟩ := get_bounds hget
  rw [hw.base] at hge
  rw [hw.max] at hle
  exact ⟨hge, hle⟩

/-- So is one that can be written. -/
theorem inStorage_of_putTags (hw : Within startBrk s) (hput : s.putTags p val = .ok s') :
    InStorage startBrk p := by
  obtain ⟨s₁, hhead, -⟩ := bind_eq_ok.1 hput
  unfold Heap.put at hhead
  split_ifs at hhead with hin
  obtain ⟨hge, hle⟩ := hin
  rw [hw.base] at hge
  rw [hw.max] at hle
  exact ⟨hge, hle⟩

/-- A block that was found is inside the storage. -/
theorem Within.place (hw : Within startBrk s) (hplace : s.place p newSize = .ok s') :
    Within startBrk s' ∧ InStorage startBrk p := by
  refine ⟨hw.of_sameVars (place_sameVars hplace), ?_⟩
  obtain ⟨n, hn, -⟩ := bind_eq_ok.1 hplace
  obtain ⟨val, hget, -⟩ := getSize_eq hn
  exact inStorage_of_get hw hget

/-- A block that has been obtained is inside the storage. -/
theorem Within.obtains (hw : Within startBrk s) (hdvd : 8 ∣ newSize)
    (h : Obtains s c newSize p s') : Within startBrk s' ∧ InStorage startBrk p := by
  cases h with
  | fit _ hplace => exact hw.place hplace
  | merged _ hpassed _ hplace => exact (hw.of_sameVars hpassed.sameVars).place hplace
  | grown hnone hsbrk hext =>
    have hw₂ := (hw.of_sameVars hnone.passed.sameVars).memSbrk hdvd
    rw [hsbrk] at hw₂
    refine ⟨hw₂.of_sameVars (extend_sameVars hext), ?_⟩
    obtain ⟨s₃, hput, -⟩ := bind_eq_ok.1 hext
    exact inStorage_of_putTags hw₂ hput

/-- Freeing a block stays inside it. -/
theorem Within.mmFree (hw : Within startBrk s) (hrun : s.mmFree p = .ok s') :
    Within startBrk s' := by
  unfold Heap.mmFree at hrun
  split_ifs at hrun
  · obtain rfl := Except.ok.inj hrun
    exact hw
  · obtain ⟨n, -, hput⟩ := bind_eq_ok.1 hrun
    refine Within.of_sameVars ?_ (putTags_sameVars hput)
    exact ⟨hw.base, hw.max, hw.ge, hw.le, hw.dvd⟩

/-- `mm_malloc` returns a pointer to a block that it has obtained. -/
theorem Within.mmMalloc {r : Option ℕ} (hw : Within startBrk s) (hpos : 1 ≤ size)
    (hrun : s.mmMalloc size = .ok (r, s')) : ∃ p, r = some p ∧
      Obtains s (s.totalFreeSize ≥ Heap.blockSize size) (Heap.blockSize size) p s' := by
  rcases mmMalloc_cases (by omega) hrun with hobtains | ⟨s₁, hnone, hnull⟩
  · exact hobtains
  · exact absurd hnull (hw.noFit_ne_null hnone)

/-- `mm_realloc` keeps the variables in order, and does not return the null pointer. -/
theorem Within.reallocates {r : Option ℕ} (hw : Within startBrk s) (hp : InStorage startBrk p)
    (hdvd : 8 ∣ newSize) (h : Reallocates s p newSize r s') :
    Within startBrk s' ∧ ∃ q, r = some q ∧ InStorage startBrk q := by
  cases h with
  | same _ hr hs' => exact ⟨hs' ▸ hw, p, hr, hp⟩
  | shrunk _ _ hr hplace => exact ⟨(hw.place hplace).1, p, hr, hp⟩
  | moved _ _ hr hobtains hcopy hfree =>
    obtain ⟨hw₁, hq⟩ := hw.obtains hdvd hobtains
    exact ⟨(hw₁.of_sameVars (memcpy_sameVars hcopy)).mmFree hfree, _, hr, hq⟩
  | null _ _ hnone hnull => exact absurd hnull (hw.noFit_ne_null hnone)

/-- In every reachable state the variables are in order, and live pointers can be used. -/
theorem Reachable.within {bound : ℕ} (hbase : HeapBase startBrk)
    (h : Reachable bound startBrk s live) :
    Within startBrk s ∧ ∀ x ∈ live, InStorage startBrk x.1 := by
  induction h with
  -- the storage has room for the marker at the end
  | init hrun =>
    have hroom : startBrk + 8 ≤ startBrk + maxHeap := by
      unfold maxHeap
      omega
    rw [mmInit_eq (Nat.le_refl _) hroom] at hrun
    obtain rfl := Except.ok.inj hrun
    have hdvd := hbase.dvd
    exact ⟨⟨rfl, rfl, Nat.le_refl _, hroom, show 8 ∣ startBrk + 8 by omega⟩, by simp⟩
  | malloc _ hpos _ hrun ih =>
    obtain ⟨p, rfl, hobtains⟩ := ih.1.mmMalloc hpos hrun
    obtain ⟨hw, hp⟩ := ih.1.obtains (dvd_blockSize _) hobtains
    exact ⟨hw, List.forall_mem_cons.2 ⟨hp, ih.2⟩⟩
  | free _ _ hrun ih =>
    exact ⟨ih.1.mmFree hrun, fun y hy => ih.2 y (List.mem_of_mem_erase hy)⟩
  | realloc _ hx hpos _ hrun ih =>
    have hx' := ih.2 _ hx
    have hcases := mmRealloc_cases (hx'.ne_zero hbase) (by omega) hrun
    obtain ⟨hw, q, rfl, hq⟩ := ih.1.reallocates hx' (dvd_blockSize _) hcases
    exact ⟨hw, List.forall_mem_cons.2 ⟨hq, fun y hy => ih.2 y (List.mem_of_mem_erase hy)⟩⟩
  | write _ _ _ ih => exact ⟨⟨ih.1.base, ih.1.max, ih.1.ge, ih.1.le, ih.1.dvd⟩, ih.2⟩

/-! ## The failure of `mem_sbrk` -/

/-- `mm_malloc` writes to the result of `mem_sbrk` when it has failed. -/
theorem mmMalloc_fails (hbase : HeapBase startBrk) (hw : Within startBrk s) (hpos : 1 ≤ size)
    (hnone : NoFit s (s.totalFreeSize ≥ Heap.blockSize size) (Heap.blockSize size) s₁)
    (hsbrk : s₁.memSbrk (Heap.blockSize size) = (2 ^ 32 - 1, s₁)) :
    s.mmMalloc size = .error .invalidAccess := by
  have hfinal : ∀ s₁, SameVars s s₁ → ∃ n, s₁.finalFreeSize = .ok n := by
    intro s₁ hvars
    have hw₁ := hw.of_sameVars hvars
    exact finalFreeSize_ok (hw₁.region hbase) (by rw [hw₁.base]; exact hw₁.ge) hw₁.le hw₁.dvd
  have hw₁ := hw.of_sameVars hnone.passed.sameVars
  exact hnone.mmMalloc_eq (by omega) hfinal hsbrk (by decide)
    (extend_outside (hw₁.region hbase) (Heap.blockSize size))

/-- `mm_realloc` does the same. -/
theorem mmRealloc_fails {oldSize : ℕ} (hbase : HeapBase startBrk) (hw : Within startBrk s)
    (hp : InStorage startBrk p) (hpos : 1 ≤ size) (hold : s.getSize (hdrp p) = .ok oldSize)
    (hlt : oldSize < Heap.blockSize size)
    (hnone : NoFit s (s.totalFreeSize > Heap.blockSize size) (Heap.blockSize size) s₁)
    (hsbrk : s₁.memSbrk (Heap.blockSize size) = (2 ^ 32 - 1, s₁)) :
    s.mmRealloc p size = .error .invalidAccess := by
  have hw₁ := hw.of_sameVars hnone.passed.sameVars
  exact hnone.mmRealloc_eq (hp.ne_zero hbase) (by omega) hold hlt (by decide) hsbrk
    (extend_outside (hw₁.region hbase) (Heap.blockSize size))

/-- In every reachable state, whenever `mm_malloc` or `mm_realloc` asks `mem_sbrk` for more heap and
`mem_sbrk` fails, there is an access outside the storage. -/
theorem sbrk_failure_faults (startBrk : ℕ) (hbase : HeapBase startBrk) (s : Heap)
    (live : List (ℕ × ℕ)) (h : Reachable (2 ^ 32 - 1) startBrk s live) (size : ℕ)
    (hpos : 1 ≤ size) :
    (∀ s₁, NoFit s (s.totalFreeSize ≥ Heap.blockSize size) (Heap.blockSize size) s₁ →
      s₁.memSbrk (Heap.blockSize size) = (2 ^ 32 - 1, s₁) →
      s.mmMalloc size = .error .invalidAccess) ∧
    ∀ x ∈ live, ∀ oldSize s₁, s.getSize (hdrp x.1) = .ok oldSize →
      oldSize < Heap.blockSize size →
      NoFit s (s.totalFreeSize > Heap.blockSize size) (Heap.blockSize size) s₁ →
      s₁.memSbrk (Heap.blockSize size) = (2 ^ 32 - 1, s₁) →
      s.mmRealloc x.1 size = .error .invalidAccess := by
  obtain ⟨hw, hlive⟩ := h.within hbase
  refine ⟨fun s₁ hnone hsbrk => mmMalloc_fails hbase hw hpos hnone hsbrk, ?_⟩
  intro x hx oldSize s₁ hold hlt hnone hsbrk
  exact mmRealloc_fails hbase hw (hlive x hx) hpos hold hlt hnone hsbrk

/-- A new heap from which more is requested than there is storage. -/
theorem noFit_new_heap :
    ∃ s, Reachable (2 ^ 32 - 1) 4096 s [] ∧
      NoFit s (s.totalFreeSize ≥ Heap.blockSize (21 * 2 ^ 20)) (Heap.blockSize (21 * 2 ^ 20)) s ∧
      s.memSbrk (Heap.blockSize (21 * 2 ^ 20)) = (2 ^ 32 - 1, s) := by
  have heval : ((replay (2 ^ 32 - 1) 4096 []).bind fun x =>
      (x.1.findFitBlock (Heap.blockSize (21 * 2 ^ 20))).bind fun fit =>
        .ok (x.2, fit, x.1.totalFreeSize, x.1.brk, x.1.maxAddr)).toOption =
      some ([], none, 0, 4104, 4096 + maxHeap) := by decide +kernel
  simp only [toOption_bind_eq_some] at heval
  obtain ⟨⟨s, live⟩, hrun, fit, hfind, heq⟩ := heval
  obtain ⟨rfl, rfl, hfree, hbrk, hmax⟩ : live = [] ∧ fit = none ∧ s.totalFreeSize = 0 ∧
      s.brk = 4104 ∧ s.maxAddr = 4096 + maxHeap := by
    simpa [Except.toOption] using heq
  refine ⟨s, replay_reachable hrun, ⟨hfind, .inr ⟨?_, rfl⟩, hfind⟩, if_neg ?_⟩
  · rw [hfree]
    decide
  · rw [hbrk, hmax]
    decide

/-- A request for 21 MiB on a new heap. -/
theorem sbrk_failure_faults_new_heap :
    ∃ s, HeapBase 4096 ∧ Reachable (2 ^ 32 - 1) 4096 s [] ∧
      s.mmMalloc (21 * 2 ^ 20) = .error .invalidAccess := by
  obtain ⟨s, hreach, hnone, hsbrk⟩ := noFit_new_heap
  exact ⟨s, heapBase_4096, hreach, (sbrk_failure_faults 4096 heapBase_4096 s [] hreach _
    (by decide)).1 s hnone hsbrk⟩

/-- The request does not return, although `mem_sbrk` has failed. -/
theorem sbrk_failure_not_null :
    ∃ s, HeapBase 4096 ∧ Reachable (2 ^ 32 - 1) 4096 s [] ∧
      NoFit s (s.totalFreeSize ≥ Heap.blockSize (21 * 2 ^ 20)) (Heap.blockSize (21 * 2 ^ 20)) s ∧
      s.memSbrk (Heap.blockSize (21 * 2 ^ 20)) = (2 ^ 32 - 1, s) ∧
      ¬ ∃ s', s.mmMalloc (21 * 2 ^ 20) = .ok (none, s') := by
  obtain ⟨s, hreach, hnone, hsbrk⟩ := noFit_new_heap
  have hw := (hreach.within heapBase_4096).1
  refine ⟨s, heapBase_4096, hreach, hnone, hsbrk, ?_⟩
  rintro ⟨s', hrun⟩
  rw [mmMalloc_fails heapBase_4096 hw (by decide) hnone hsbrk] at hrun
  simp at hrun

/-! ## Large requests -/

/-- In every reachable state, the block that `mm_malloc` returns is large enough for the request
exactly if the computation of its size does not overflow. -/
theorem malloc_payload_iff (startBrk : ℕ) (hbase : HeapBase startBrk) (s : Heap)
    (live : List (ℕ × ℕ)) (h : Reachable (2 ^ 32 - 1) startBrk s live) (size p : ℕ) (s' : Heap)
    (hpos : 1 ≤ size) (hrun : s.mmMalloc size = .ok (some p, s')) :
    ∃ n, s'.getSize (hdrp p) = .ok n ∧ (size + 16 ≤ n ↔ size ≤ 2 ^ 32 - 24) := by
  have hw := (h.within hbase).1
  obtain ⟨q, hq, hobtains⟩ := hw.mmMalloc hpos hrun
  obtain rfl := Option.some.inj hq
  by_cases hsize : size ≤ 2 ^ 32 - 24
  · -- the size of the block is exact
    obtain ⟨hdvd, hlarge, hle⟩ := blockSize_spec hpos hsize
    have hlt : Heap.blockSize size < 2 ^ 32 := Nat.mod_lt _ (by decide)
    obtain ⟨val, hget, hval⟩ := hobtains.header hdvd hlarge hlt
    refine ⟨val / 8 * 8, ?_, iff_of_true (by omega) hsize⟩
    simp only [Heap.getSize, hget, bind, Except.bind]
  · -- no block can be large enough
    obtain ⟨hw', hp⟩ := hw.obtains (dvd_blockSize size) hobtains
    have hget : s'.get (hdrp p) = .ok (s'.memory.loadLE 4 (hdrp p)) := by
      refine if_pos ⟨?_, ?_⟩
      · rw [hw'.base]
        exact hp.ge
      · rw [hw'.max]
        exact hp.le
    have hn : s'.getSize (hdrp p) = .ok (s'.memory.loadLE 4 (hdrp p) / 8 * 8) := by
      simp only [Heap.getSize, hget, bind, Except.bind]
    have hlt := getSize_lt hn
    exact ⟨_, hn, iff_of_false (by omega) hsize⟩

/-- One byte gets a block of 24 bytes. -/
theorem malloc_payload_single :
    ∃ s s', HeapBase 4096 ∧ Reachable (2 ^ 32 - 1) 4096 s [] ∧
      s.mmMalloc 1 = .ok (some 4104, s') ∧ ∃ n, s'.getSize (hdrp 4104) = .ok n ∧ 17 ≤ n := by
  have heval : ((replay (2 ^ 32 - 1) 4096 []).bind fun x =>
      (x.1.mmMalloc 1).bind fun y => .ok (x.2, y.1)).toOption = some ([], some 4104) := by
    decide +kernel
  simp only [toOption_bind_eq_some] at heval
  obtain ⟨⟨s, live⟩, hrun, ⟨r, s'⟩, hmalloc, heq⟩ := heval
  obtain ⟨rfl, rfl⟩ : live = [] ∧ r = some 4104 := by simpa [Except.toOption] using heq
  have hreach := replay_reachable hrun
  obtain ⟨n, hn, hiff⟩ :=
    malloc_payload_iff 4096 heapBase_4096 s [] hreach 1 4104 s' (by decide) hmalloc
  exact ⟨s, s', heapBase_4096, hreach, hmalloc, n, hn, hiff.2 (by decide)⟩

/-- A request of `2 ^ 32 - 8` bytes gets a block of eight bytes. -/
theorem malloc_payload_too_small :
    ∃ s s', HeapBase 4096 ∧ Reachable (2 ^ 32 - 1) 4096 s [] ∧
      s.mmMalloc (2 ^ 32 - 8) = .ok (some 4104, s') ∧ s'.getSize (hdrp 4104) = .ok 8 ∧
      ¬ 2 ^ 32 - 8 + 16 ≤ 8 := by
  have heval : ((replay (2 ^ 32 - 1) 4096 []).bind fun x =>
      (x.1.mmMalloc (2 ^ 32 - 8)).bind fun y => (y.2.getSize (hdrp 4104)).bind fun n =>
        .ok (x.2, y.1, n)).toOption = some ([], some 4104, 8) := by decide +kernel
  simp only [toOption_bind_eq_some] at heval
  obtain ⟨⟨s, live⟩, hrun, ⟨r, s'⟩, hmalloc, n, hn, heq⟩ := heval
  obtain ⟨rfl, rfl, rfl⟩ : live = [] ∧ r = some 4104 ∧ n = 8 := by
    simpa [Except.toOption] using heq
  exact ⟨s, s', heapBase_4096, replay_reachable hrun, hmalloc, hn, by decide⟩

/-! ## A request of zero bytes in `mm_realloc` -/

/-- Cutting a block down to its two tags marks it as in use. -/
theorem place_tags_only {h e : ℕ} {alloc : Bool} (he : Ended s e) (ht : Tagged s h size alloc)
    (hle : h + size ≤ e) (hlarge : 24 ≤ size) :
    ∃ s', s.place (h + 8) 16 = .ok s' ∧ s'.getAlloc h = .ok 1 := by
  have hge := ht.ge
  have hdvd := ht.dvd
  have hend := he.le
  have hmax := he.region.maxAddr_lt
  have hsub : sub 32 size 16 = size - 16 := sub_eq (by omega) (by omega)
  by_cases hsplit : size - 16 > 2 * sizeTSize
  · have hsplit' := hsplit
    unfold sizeTSize at hsplit'
    have hput : s.putTags (h + 8) 17 = .ok (s.tag h (h + 8) 17) :=
      putTags_eq he.region true hge (show 8 ≤ 16 by decide) (by omega) (by decide)
    generalize hs₁ : s.tag h (h + 8) 17 = s₁ at hput
    have hvars : SameVars s s₁ := hs₁ ▸ sameVars_tag ..
    have hR₁ : Region s₁ := hs₁ ▸ he.region.tag h (h + 8) 17
    have hmax₁ : s₁.maxAddr = s.maxAddr := by rw [hvars]
    have hbase := hvars.startBrk
    have ht₁ : Tagged s₁ h 16 true :=
      ⟨by omega, by omega, hs₁ ▸ word_tag_left (by decide) (.inl (by omega)), by decide⟩
    have hend₁ : h + 16 + (size - 16) = h + size := by omega
    have hput₁ := putTags_eq hR₁ false (show s₁.startBrk ≤ h + 16 by omega)
      (show 8 ≤ size - 16 by omega) (show h + 16 + (size - 16) + 8 ≤ s₁.maxAddr by omega) (by omega)
    rw [hend₁] at hput₁
    -- the tags of the rest are behind the block
    have ht₂ : Tagged (s₁.tag (h + 16) (h + size - 8) (size - 16)) h 16 true :=
      (ht₁.store_of_disjoint (.inl (by omega))).store_of_disjoint (.inl (by omega))
    refine ⟨_, ?_, ht₂.getAlloc⟩
    simp only [Heap.place, ht.hdrp he.region, ht.getSize, bind, Except.bind, hsub, if_pos hsplit,
      pack_one (show 8 ∣ 16 by decide), pack_zero, hput,
      ht₁.nextBlk hR₁ (show h + 16 + 8 ≤ s₁.maxAddr by omega)]
    exact hput₁
  · have hput := putTags_eq he.region true hge (by omega)
      (show h + size + 8 ≤ s.maxAddr by omega) hdvd
    have ht' : Tagged (s.tag h (h + size - 8) (size + 1)) h size true :=
      ⟨hge, ht.le, word_tag_left (by omega) (.inl (by omega)), hdvd⟩
    refine ⟨_, ?_, ht'.getAlloc⟩
    simp only [Heap.place, ht.hdrp he.region, ht.getSize, bind, Except.bind, hsub, if_neg hsplit,
      pack_one hdvd]
    exact hput

/-- After a block has been freed, `mm_realloc` goes on and marks it as in use again. -/
theorem Tracks.realloc_zero {x : ℕ × ℕ} (h : Tracks startBrk s live) (hx : x ∈ live) :
    ∃ s', s.mmRealloc x.1 0 = .ok (some x.1, s') ∧ s'.getAlloc (hdrp x.1) = .ok 1 := by
  obtain ⟨l, p, hs, hp, hfits, -⟩ := h.payload hx
  rw [hfits.1]
  obtain ⟨bs, hbs, hperm⟩ := hs.blocks
  have hp' := hperm.mem_iff.2 hp
  obtain ⟨e, xs, ys, size, k, he, rfl, rfl, hxs, hb, hys, -⟩ := hbs.split hp'
  have hlarge : 24 ≤ size := hb.large
  have hle : k + size ≤ e := hys.le
  have hend := he.le
  have hmax := he.region.maxAddr_lt
  have ht : Tagged s k size true := he.tagged hb.header hb.dvd hxs.le (by omega)
  obtain ⟨s₁, bs₁, hfree, hbase, ⟨e₁, he₁, -⟩, -⟩ := hbs.free hp'
  obtain ⟨n, hn, hput⟩ := bind_eq_ok.1 ((if_neg (Nat.succ_ne_zero _)).symm.trans hfree)
  rw [ht.hdrp he.region, ht.getSize] at hn
  obtain rfl := Except.ok.inj hn
  rw [pack_zero] at hput
  have hbrk : s₁.brk = s.brk := by rw [putTags_sameVars hput]
  obtain rfl : e₁ = e := by
    have h₁ := he₁.brk
    have h₂ := he.brk
    omega
  -- the header has the size of the block, which is larger than a block for no bytes
  have hget := putTags_get hput hlarge (by omega)
  rw [ht.hdrp he.region] at hget
  have hword : word s₁.memory k = size :=
    Except.ok.inj ((if_pos (get_bounds hget)).symm.trans hget)
  have ht₁ : Tagged s₁ k size false :=
    he₁.tagged hword hb.dvd (by rw [hbase]; exact hxs.le) (by omega)
  obtain ⟨s', hplace, halloc⟩ := place_tags_only he₁ ht₁ hle hlarge
  refine ⟨s', ?_, by rw [ht.hdrp he.region]; exact halloc⟩
  have hnew : Heap.blockSize 0 = 16 := by decide
  have hsame : ¬ size = 16 := by omega
  rw [mmRealloc_zero, hfree]
  simp only [Except.bind, Heap.reallocTail, if_neg (Nat.succ_ne_zero (k + 7)), ht₁.hdrp he₁.region,
    ht₁.getSize, dataSize_eq ht₁.getSize, hnew, if_neg hsame, gt_iff_lt,
    if_pos (show 16 < size by omega), hplace, bind]

/-- In every reachable state `mm_realloc` does not return the null pointer for a request of zero
bytes. In a run without overflow it returns the block that it has freed, and the block is in use
again. -/
theorem realloc_zero_not_null (startBrk : ℕ) (hbase : HeapBase startBrk) (s : Heap)
    (live : List (ℕ × ℕ)) (h : Reachable (2 ^ 32 - 1) startBrk s live) (x : ℕ × ℕ)
    (hx : x ∈ live) :
    (∀ s', s.mmRealloc x.1 0 ≠ .ok (none, s')) ∧
    (Reachable (2 ^ 32 - 24) startBrk s live →
      ∃ s', s.mmRealloc x.1 0 = .ok (some x.1, s') ∧ s'.getAlloc (hdrp x.1) = .ok 1) := by
  refine ⟨fun s' hrun => ?_, fun h' => ?_⟩
  · obtain ⟨hw, hlive⟩ := h.within hbase
    have hp := hlive x hx
    rw [mmRealloc_zero] at hrun
    obtain ⟨s₁, hfree, htail⟩ := bind_eq_ok.1 hrun
    -- none of the paths through the rest of the function returns the null pointer
    have hcases := reallocTail_cases (hp.ne_zero hbase) htail
    obtain ⟨-, q, hq, -⟩ := (hw.mmFree hfree).reallocates hp (dvd_blockSize 0) hcases
    simp at hq
  · exact (h'.tracks hbase (Nat.le_refl _)).realloc_zero hx

/-- A block of eight bytes is not freed. -/
theorem realloc_zero_not_null_eight :
    ∃ s, HeapBase 4096 ∧ Reachable (2 ^ 32 - 1) 4096 s [(4104, 8)] ∧
      ∃ s', s.mmRealloc 4104 0 = .ok (some 4104, s') ∧ s'.getAlloc (hdrp 4104) = .ok 1 := by
  have heval : ((replay (2 ^ 32 - 24) 4096 [.malloc 8]).bind fun x => .ok x.2).toOption =
      some [(4104, 8)] := by decide +kernel
  rw [toOption_bind_eq_some] at heval
  obtain ⟨⟨s, live⟩, hrun, heq⟩ := heval
  obtain rfl : live = [(4104, 8)] := Option.some.inj heq
  have hreach := replay_reachable hrun
  have hreach' : Reachable (2 ^ 32 - 1) 4096 s [(4104, 8)] := hreach.mono (by decide)
  exact ⟨s, heapBase_4096, hreach', (realloc_zero_not_null 4096 heapBase_4096 s _ hreach' (4104, 8)
    (List.mem_cons_self ..)).2 hreach⟩

/-- `mm_free` marks the block of eight bytes as free, but `mm_realloc` with a request of zero bytes
returns it, still marked as in use. -/
theorem realloc_zero_keeps_block :
    ∃ s s₁ s₂, HeapBase 4096 ∧ Reachable (2 ^ 32 - 1) 4096 s [(4104, 8)] ∧
      s.mmFree 4104 = .ok s₁ ∧ s₁.getAlloc (hdrp 4104) = .ok 0 ∧
      s.mmRealloc 4104 0 = .ok (some 4104, s₂) ∧ s₂.getAlloc (hdrp 4104) = .ok 1 ∧
      ¬ ∃ s', s.mmRealloc 4104 0 = .ok (none, s') := by
  have heval : ((replay (2 ^ 32 - 1) 4096 [.malloc 8]).bind fun x =>
      (x.1.mmFree 4104).bind fun s₁ => (s₁.getAlloc (hdrp 4104)).bind fun a₁ =>
        (x.1.mmRealloc 4104 0).bind fun y => (y.2.getAlloc (hdrp 4104)).bind fun a₂ =>
          .ok (x.2, a₁, y.1, a₂)).toOption = some ([(4104, 8)], 0, some 4104, 1) := by
    decide +kernel
  simp only [toOption_bind_eq_some] at heval
  obtain ⟨⟨s, live⟩, hrun, s₁, hfree, a₁, ha₁, ⟨r, s₂⟩, hrealloc, a₂, ha₂, heq⟩ := heval
  obtain ⟨rfl, rfl, rfl, rfl⟩ : live = [(4104, 8)] ∧ a₁ = 0 ∧ r = some 4104 ∧ a₂ = 1 := by
    simpa [Except.toOption] using heq
  refine ⟨s, s₁, s₂, heapBase_4096, replay_reachable hrun, hfree, ha₁, hrealloc, ha₂, ?_⟩
  rintro ⟨s', hnull⟩
  simp [hrealloc] at hnull

end CppLearn.MallocLab

import CppLearn.RedBlackTree.InsertFixup
import CppLearn.RedBlackTree.Unlink
import CppLearn.RedBlackTree.EraseFixup
import CppLearn.RedBlackTree.Search

/-!
# The operations on valid red-black trees

A state is valid when its pointers form a balanced tree with strictly increasing keys. `insert`
and `erase` return on every valid state, lead to a valid state, and change the entries of the
tree as a map is changed.

The invariant is `Valid`, and `Binds` reads a tree as a relation between keys and values. The two
operations are `erase_valid` and `insert_valid`.
-/

namespace CppLearn

open RedBlack BoundedLoop

variable {K V : Type} {t : RBTree K V} {T : ColorTree (Entry K V)} {E : List Ptr} {n₀ : Node K V}
  {C : Context (Entry K V)}

/-! ## A new leaf -/

/-- A fresh cell is put at an empty position. Nothing else changes but the cell above. -/
theorem Represents.addLeaf {t' : RBTree K V} {x : Entry K V} (h : Represents t (plug C .nil) [] n₀)
    (hx : x.addr = t.next) (hnext : t'.next = t.next + 1)
    (hroot : t'.root = if C = [] then x.addr else t.root)
    (hleaf : t'.heap x.addr = some (cell .left .RED nullNode x nullNode (parentPtr C)))
    (hC : StoredContext t'.heap x.addr C)
    (hnull : t'.heap nullNode = t.heap nullNode)
    (hcells : ∀ p, p ≠ x.addr → (t'.heap p).isSome = (t.heap p).isSome) :
    Represents t' (plug C (.nodeAt .left .RED .nil x .nil)) [] n₀ := by
  have hperm : (addrs (plug C (.nodeAt .left .RED .nil x .nil)).toList).Perm
      (x.addr :: addrs (plug C .nil).toList) := by
    rw [← addrs_cons]
    refine addrs_perm ?_
    simp [toList_plug, ColorTree.nodeAt, ColorTree.toList]
  have hmem : ∀ p, p ∈ nullNode :: ([] ++ addrs (plug C (.nodeAt .left .RED .nil x .nil)).toList) ↔
      p = x.addr ∨ p ∈ nullNode :: ([] ++ addrs (plug C .nil).toList) := by
    intro p
    simp only [List.nil_append, List.mem_cons, hperm.mem_iff]
    exact or_left_comm
  -- the address has not been used before
  have hfresh : x.addr ∉ nullNode :: ([] ++ addrs (plug C .nil).toList) := by
    intro hmem
    exact absurd hx (Nat.ne_of_lt (h.fresh _ ((h.domain _).2 hmem)))
  refine ⟨?_, ?_, ?_, by rw [hnull, h.sentinel], h.black, ?_, ?_⟩
  · rw [hroot]
    cases C with
    | nil => rfl
    | cons f C => exact h.root.trans (ptr_plug_cons ..)
  · rw [stored_plug]
    exact ⟨⟨hleaf, trivial, trivial⟩, hC⟩
  · have hnd := List.nodup_cons.2 ⟨hfresh, h.nodup⟩
    exact ((hperm.cons nullNode).trans (List.Perm.swap ..)).nodup_iff.2 hnd
  · intro p
    rw [hmem]
    by_cases hp : p = x.addr
    · simp [hp, hleaf]
    · rw [hcells p hp, h.domain p]
      simp [hp]
  · intro p hp
    rw [hnext]
    by_cases hpx : p = x.addr
    · exact Nat.lt_succ_of_le (Nat.le_of_eq (hpx.trans hx))
    · rw [hcells p hpx] at hp
      exact Nat.lt_succ_of_lt (h.fresh p hp)

section Operations

variable [LinearOrder K]

/-- The new node goes to the side that the comparison with its parent asks for. -/
theorem Descent.side_iff {f : Frame (Entry K V)} {key : K} {s : ColorTree (Entry K V)}
    (h : Descent T key (f :: C) s) : key < f.label.key ↔ f.side = .left := by
  obtain ⟨d, c, x, sib⟩ := f
  cases d with
  | left => exact iff_of_true (h.upper x (by simp [Context.after])) rfl
  | right =>
    have hlt : x.key < key := h.lower x (by simp [Context.before])
    exact iff_of_false hlt.not_gt (by simp)

/-- Hanging a new node below the parent that the search found, before the repair. -/
theorem link_spec {key : K} (value : V) (h : Represents t (plug C .nil) [] n₀)
    (hd : Descent (plug C .nil) key C .nil) :
    ∃ t', t.insertLink (parentPtr C) key value = t'.insertFixup t.next ∧
      Represents t' (plug C (.nodeAt .left .RED .nil ⟨t.next, key, value⟩ .nil)) [] n₀ := by
  have hlive : ∀ p, (t.heap p).isSome → p ≠ t.next := fun p hp => Nat.ne_of_lt (h.fresh p hp)
  have hnull : nullNode ≠ t.next := hlive _ (by simp [h.sentinel])
  set leaf : Node K V := cell .left .RED nullNode ⟨t.next, key, value⟩ nullNode (parentPtr C)
    with hleafdef
  cases C with
  | nil =>
    refine ⟨{ t.write t.next leaf with root := t.next, next := t.next + 1 }, ?_, ?_⟩
    · simp [RBTree.insertLink, RBTree.alloc, RBTree.write, bind, Except.bind, hleafdef, cell]
    · refine h.addLeaf rfl rfl (by simp) (by simp [hleafdef]) trivial ?_ fun p hp => ?_
      · exact RBTree.write_heap_of_ne hnull
      · exact congrArg _ (RBTree.write_heap_of_ne hp)
  | cons f C =>
    have hf := h.heap_parent
    have hfn : f.label.addr ≠ t.next := hlive _ (by simp [hf])
    obtain ⟨hf0, hfC⟩ : nullNode ≠ f.label.addr ∧
        f.label.addr ∉ addrs f.sibling.toList ++ addrs (Context.labels C) := by
      have hnd := h.nodup_plug
      simp only [Context.labels, addrs_cons, addrs_append, ColorTree.toList_nil, addrs_nil,
        List.nil_append, List.nodup_cons, List.mem_cons, not_or] at hnd
      exact ⟨hnd.1.1, hnd.2.1⟩
    have hst := h.stored
    rw [stored_plug] at hst
    obtain ⟨-, -, hsib, hC⟩ := hst
    set t₁ : RBTree K V := { t.write t.next leaf with next := t.next + 1 } with ht₁
    have hf₁ : t₁.heap f.label.addr = some (cell f.side f.color nullNode f.label (ptr f.sibling)
        (parentPtr C)) := (RBTree.write_heap_of_ne hfn).trans hf
    -- the search came from the side on which the new key belongs
    have hmod : t₁.modify f.label.addr (·.setChild f.side t.next) =
        .ok (t₁.write f.label.addr (cell f.side f.color t.next f.label (ptr f.sibling)
          (parentPtr C))) := by
      rw [RBTree.modify_eq hf₁, cell_setChild]
    refine ⟨t₁.write f.label.addr (cell f.side f.color t.next f.label (ptr f.sibling)
      (parentPtr C)), ?_, h.addLeaf rfl rfl (by simp [ht₁]) ?_ ?_ ?_ fun p hp => ?_⟩
    · have halloc : t.alloc ⟨key, value, .RED, nullNode, nullNode, f.label.addr⟩ = (t.next, t₁) :=
        rfl
      have hside := hd.side_iff
      simp only [RBTree.insertLink, parentPtr_cons, halloc, if_neg hf0.symm, RBTree.read_eq hf₁,
        bind, Except.bind, cell_key]
      cases hs : f.side with
      | left => rw [if_pos (hside.2 hs), ← hs, hmod]
      | right => rw [if_neg (fun hlt => by simp [hside.1 hlt] at hs), ← hs, hmod]
    · rw [RBTree.write_heap_of_ne hfn.symm]
      simp [ht₁, hleafdef]
    · have hkeep : ∀ q ∈ addrs f.sibling.toList ++ addrs (Context.labels C),
          (t₁.write f.label.addr (cell f.side f.color t.next f.label (ptr f.sibling)
            (parentPtr C))).heap q = t.heap q := by
        intro q hq
        have hq' : q ∈ addrs (plug (f :: C) .nil).toList := by
          rw [(addrs_perm (toList_plug_perm (f :: C) .nil)).mem_iff]
          simpa [Context.labels] using Or.inr hq
        have hqn : q ≠ t.next := hlive q ((h.domain q).2 (List.mem_cons_of_mem _ hq'))
        rw [RBTree.write_heap_of_ne (ne_of_mem_of_not_mem hq hfC)]
        exact RBTree.write_heap_of_ne hqn
      exact ⟨RBTree.write_heap_self, hsib.congr fun q hq => hkeep q (List.mem_append_left _ hq),
        hC.congr fun q hq => hkeep q (List.mem_append_right _ hq)⟩
    · rw [RBTree.write_heap_of_ne hf0]
      exact RBTree.write_heap_of_ne hnull
    · by_cases hpf : p = f.label.addr
      · simp [hpf, hf]
      · rw [RBTree.write_heap_of_ne hpf]
        exact congrArg _ (RBTree.write_heap_of_ne hp)

/-- `insert` puts a key that is absent into its place. -/
theorem insertLink_spec {key : K} (value : V) (h : Represents t (plug C .nil) [] n₀)
    (hB : Balanced (plug C .nil)) (hd : Descent (plug C .nil) key C .nil) :
    ∃ t' T', t.insertLink (parentPtr C) key value = .ok t' ∧ Represents t' T' [] n₀ ∧
      Balanced T' ∧ T'.toList = C.before ++ ⟨t.next, key, value⟩ :: C.after := by
  obtain ⟨t₁, hrun, h₁⟩ := link_spec value h hd
  obtain ⟨t', T', hfix, h', hB', hl⟩ :=
    insertFixup_spec h₁ (Ascending.of_balanced hB .left ⟨t.next, key, value⟩)
  rw [ptr_nodeAt] at hfix
  refine ⟨t', T', hrun.trans hfix, h', hB', ?_⟩
  simp [hl, toList_plug, ColorTree.nodeAt, ColorTree.toList]

/-! ## The operations -/

/-- The invariant of the public operations: the pointers of `t` form the balanced search tree
`T`, and there are no other cells. -/
def Valid (t : RBTree K V) (T : ColorTree (Entry K V)) : Prop :=
  ∃ n₀, Represents t T [] n₀ ∧ Balanced T ∧ Ordered T

omit [LinearOrder K] in
/-- A detached cell can be deleted. -/
theorem Represents.delete {p : Ptr} (h : Represents t T (p :: E) n₀) :
    ∃ t', t.delete p = .ok t' ∧ Represents t' T E n₀ := by
  have hp : (t.heap p).isSome := (h.domain p).2 (by simp)
  obtain ⟨n, hn⟩ := Option.isSome_iff_exists.1 hp
  have hnd : (p :: nullNode :: (E ++ addrs T.toList)).Nodup :=
    (List.Perm.swap ..).nodup_iff.1 h.nodup
  obtain ⟨hfresh, hnd⟩ := List.nodup_cons.1 hnd
  simp only [List.mem_cons, List.mem_append, not_or] at hfresh
  obtain ⟨hp0, hpE, hpT⟩ := hfresh
  -- the cell belongs neither to the tree nor to the other detached cells
  have hkeep : ∀ q, q ≠ p →
      ({ t with heap := Function.update t.heap p none } : RBTree K V).heap q = t.heap q :=
    fun q hq => Function.update_of_ne hq ..
  refine ⟨{ t with heap := Function.update t.heap p none }, by simp [RBTree.delete, hn],
    h.root, ?_, hnd, ?_, h.black, ?_, ?_⟩
  · exact h.stored.congr fun q hq => hkeep q (ne_of_mem_of_not_mem hq hpT)
  · exact (hkeep _ (Ne.symm hp0)).trans h.sentinel
  · intro q
    by_cases hq : q = p
    · subst hq
      simp [hp0, hpE, hpT]
    · rw [hkeep q hq, h.domain q]
      simp [hq]
  · intro q hq
    by_cases hqp : q = p
    · simp [hqp] at hq
    · rw [hkeep q hqp] at hq
      exact h.fresh q hq

/-- `erase` takes the entry with the key out of the tree, or returns `false`. -/
theorem erase_spec (h : Valid t T) (key : K) :
    ∃ r t' T', t.erase key = .ok (r, t') ∧ Valid t' T' ∧
      ((r = false ∧ T' = T ∧ ∀ x ∈ T.toList, x.key ≠ key) ∨
        (r = true ∧ ∃ L x R, T.toList = L ++ x :: R ∧ x.key = key ∧ T'.toList = L ++ R)) := by
  obtain ⟨n₀, hrep, hB, ho⟩ := h
  obtain ⟨r, hfind, ⟨rfl, habs⟩ | ⟨C, c, a, x, b, rfl, rfl, hkey⟩⟩ := find_spec hrep ho key
  · exact ⟨false, t, T, by simp [RBTree.erase, bind, Except.bind, hfind],
      ⟨n₀, hrep, hB, ho⟩, .inl ⟨rfl, rfl, habs⟩⟩
  obtain ⟨t₁, c', C', s, n₁, hun, hU⟩ := eraseUnlink_spec hrep
  obtain ⟨L, R, hT, hT₁⟩ := hU.entries
  -- a repair is needed exactly when a black node is missing
  obtain ⟨t₂, T₂, hfix, h₂, hB₂, hl₂⟩ : ∃ t₂ T₂,
      (if c' = .BLACK then t₁.eraseFixup (ptr s) else .ok t₁) = .ok t₂ ∧
        Represents t₂ T₂ [x.addr] n₁ ∧ Balanced T₂ ∧ T₂.toList = L ++ R := by
    cases c' with
    | RED => exact ⟨t₁, _, by simp, hU.represents, hU.balanced hB rfl, hT₁⟩
    | BLACK =>
      obtain ⟨t₂, T₂, hrun, h₂, hB₂, hl₂⟩ :=
        eraseFixup_spec hU.represents (hU.deficient hB rfl) hU.position
      exact ⟨t₂, T₂, by simp [hrun], h₂, hB₂, hl₂.trans hT₁⟩
  obtain ⟨t', hdel, h'⟩ := h₂.delete
  refine ⟨true, t', T₂, ?_, ⟨n₁, h', hB₂, ?_⟩, .inr ⟨rfl, L, x, R, hT, hkey, hl₂⟩⟩
  · simp only [RBTree.erase, bind, Except.bind, hfind, hun, hfix, hdel]
  · unfold Ordered
    rw [hl₂]
    exact ho.sublist (hT ▸ (List.sublist_cons_self x R).append_left L)

/-- Putting an entry between the smaller and the larger keys keeps the order. -/
theorem Descent.ordered {key : K} {x : Entry K V} (hd : Descent T key C .nil) (ho : Ordered T)
    (hx : x.key = key) {T' : ColorTree (Entry K V)} (hl : T'.toList = C.before ++ x :: C.after) :
    Ordered T' := by
  unfold Ordered at ho ⊢
  rw [hd.position, toList_plug, ColorTree.toList_nil, List.append_nil] at ho
  obtain ⟨hb, ha, hba⟩ := List.pairwise_append.1 ho
  rw [hl]
  -- the search has passed smaller keys on the left and larger ones on the right
  refine List.pairwise_append.2 ⟨hb, List.pairwise_cons.2 ⟨fun y hy => ?_, ha⟩, fun y hy z hz => ?_⟩
  · rw [hx]
    exact hd.upper y hy
  · rcases List.mem_cons.1 hz with rfl | hz
    · rw [hx]
      exact hd.lower y hy
    · exact hba y hy z hz

/-- A key that is absent is inserted without recursion. -/
theorem insertRec_absent (h : Valid t T) {key : K} (value : V) (habs : ∀ x ∈ T.toList, x.key ≠ key)
    (depth : ℕ) :
    ∃ t' T' L x R, RBTree.insertRec (depth + 1) t key value = .ok t' ∧ Valid t' T' ∧
      T.toList = L ++ R ∧ T'.toList = L ++ x :: R ∧ x.key = key ∧ x.value = value := by
  obtain ⟨n₀, hrep, hB, ho⟩ := h
  obtain ⟨r, hs, ⟨rfl, x, hx, hkey⟩ | ⟨C, rfl, hd⟩⟩ := insertSearch_spec hrep ho key
  · -- the search does not meet the key
    exact absurd hkey (habs x hx)
  have hpos := hd.position
  subst hpos
  obtain ⟨t', T', hrun, h', hB', hl⟩ := insertLink_spec value hrep hB hd
  refine ⟨t', T', C.before, ⟨t.next, key, value⟩, C.after, ?_,
    ⟨n₀, h', hB', hd.ordered ho rfl hl⟩, ?_, hl, rfl, rfl⟩
  · simp only [RBTree.insertRec, bind, Except.bind, hs, hrun]
  · simp [toList_plug]

/-- The tree binds the key `k` to the value `v`. -/
def Binds (T : ColorTree (Entry K V)) (k : K) (v : V) : Prop :=
  ∃ x ∈ T.toList, x.key = k ∧ x.value = v

/-- In an ordered tree a key stands at one place only. -/
theorem Ordered.key_ne {x : Entry K V} {L R : List (Entry K V)} (ho : Ordered T)
    (hT : T.toList = L ++ x :: R) : ∀ y ∈ L ++ R, y.key ≠ x.key := by
  unfold Ordered at ho
  rw [hT] at ho
  obtain ⟨-, hxR, hLx⟩ := List.pairwise_append.1 ho
  intro y hy
  rcases List.mem_append.1 hy with hy | hy
  · exact (hLx y hy x (List.mem_cons_self ..)).ne
  · exact ((List.pairwise_cons.1 hxR).1 y hy).ne'

/-- The bindings of an ordered tree, seen from one of its entries. -/
theorem Ordered.binds_iff {x : Entry K V} {L R : List (Entry K V)} (ho : Ordered T)
    (hT : T.toList = L ++ x :: R) (k : K) (v : V) :
    Binds T k v ↔
      (k = x.key ∧ v = x.value) ∨ (k ≠ x.key ∧ ∃ y ∈ L ++ R, y.key = k ∧ y.value = v) := by
  have hne := ho.key_ne hT
  unfold Binds
  rw [hT]
  constructor
  · -- no other entry has the key of `x`
    rintro ⟨y, hy, rfl, rfl⟩
    rcases List.mem_append.1 hy with hy | hy
    · exact .inr ⟨hne y (List.mem_append_left _ hy), y, List.mem_append_left _ hy, rfl, rfl⟩
    · rcases List.mem_cons.1 hy with rfl | hy
      · exact .inl ⟨rfl, rfl⟩
      · exact .inr ⟨hne y (List.mem_append_right _ hy), y, List.mem_append_right _ hy, rfl, rfl⟩
  · rintro (⟨rfl, rfl⟩ | ⟨-, y, hy, hk, hv⟩)
    · exact ⟨x, by simp, rfl, rfl⟩
    · refine ⟨y, ?_, hk, hv⟩
      rw [List.mem_append] at hy ⊢
      exact hy.imp_right (List.mem_cons_of_mem x)

/-- `erase` on a valid state: it returns whether the key was bound, and removes its binding. -/
theorem erase_valid (h : Valid t T) (key : K) :
    ∃ r t' T', t.erase key = .ok (r, t') ∧ Valid t' T' ∧ (r = true ↔ ∃ v, Binds T key v) ∧
      ∀ k v, Binds T' k v ↔ k ≠ key ∧ Binds T k v := by
  obtain ⟨r, t', T', hrun, h', ⟨rfl, rfl, habs⟩ | ⟨rfl, L, x, R, hT, rfl, hT'⟩⟩ := erase_spec h key
  · -- the key was not there
    refine ⟨false, t', T', hrun, h', ?_, fun k v => ?_⟩
    · refine iff_of_false (by simp) ?_
      rintro ⟨v, x, hx, hk, -⟩
      exact habs x hx hk
    · refine (and_iff_right_of_imp ?_).symm
      rintro ⟨x, hx, rfl, -⟩
      exact habs x hx
  · obtain ⟨-, -, -, ho⟩ := h
    refine ⟨true, t', T', hrun, h', iff_of_true rfl ⟨x.value, x, by simp [hT], rfl, rfl⟩,
      fun k v => ?_⟩
    have hne := ho.key_ne hT
    rw [ho.binds_iff hT, Binds, hT']
    constructor
    · rintro ⟨y, hy, rfl, rfl⟩
      exact ⟨hne y hy, .inr ⟨hne y hy, y, hy, rfl, rfl⟩⟩
    · rintro ⟨hk, ⟨rfl, -⟩ | ⟨-, hy⟩⟩
      · exact absurd rfl hk
      · exact hy

/-- `insert` on a valid state binds the key to the value and keeps the other bindings. -/
theorem insert_valid (h : Valid t T) (key : K) (value : V) :
    ∃ t' T', t.insert key value = .ok t' ∧ Valid t' T' ∧
      ∀ k v, Binds T' k v ↔ (k = key ∧ v = value) ∨ (k ≠ key ∧ Binds T k v) := by
  -- a new binding next to those of a tree without the key
  have hadd : ∀ {t₁ : RBTree K V} {T₁ : ColorTree (Entry K V)} (depth : ℕ), Valid t₁ T₁ →
      (∀ k v, Binds T₁ k v ↔ k ≠ key ∧ Binds T k v) →
      ∃ t' T', RBTree.insertRec (depth + 1) t₁ key value = .ok t' ∧ Valid t' T' ∧
        ∀ k v, Binds T' k v ↔ (k = key ∧ v = value) ∨ (k ≠ key ∧ Binds T k v) := by
    intro t₁ T₁ depth h₁ hbinds
    have habs : ∀ x ∈ T₁.toList, x.key ≠ key :=
      fun x hx => ((hbinds x.key x.value).1 ⟨x, hx, rfl, rfl⟩).1
    obtain ⟨t', T', L, x, R, hrun, h', hl, hl', rfl, rfl⟩ := insertRec_absent h₁ value habs depth
    refine ⟨t', T', hrun, h', fun k v => ?_⟩
    obtain ⟨-, -, -, ho'⟩ := h'
    rw [ho'.binds_iff hl']
    refine or_congr_right (and_congr_right fun hk => ?_)
    rw [← hl]
    exact (hbinds k v).trans (and_iff_right hk)
  obtain ⟨n₀, hrep, hB, ho⟩ := h
  obtain ⟨r, hs, ⟨rfl, x, hx, hkey⟩ | ⟨C, rfl, hd⟩⟩ := insertSearch_spec hrep ho key
  · obtain ⟨r, t₁, T₁, herase, h₁, -, hbinds⟩ := erase_valid ⟨n₀, hrep, hB, ho⟩ key
    obtain ⟨t', T', hrun, h', hb'⟩ := hadd 0 h₁ hbinds
    refine ⟨t', T', ?_, h', hb'⟩
    rw [← hrun]
    simp only [RBTree.insert, RBTree.insertRec, bind, Except.bind, hs, herase]
  · refine hadd 1 ⟨n₀, hrep, hB, ho⟩ fun k v => (and_iff_right_of_imp ?_).symm
    rintro ⟨y, hy, rfl, -⟩
    exact hd.absent y hy

end Operations

end CppLearn

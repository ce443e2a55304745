import CppLearn.RedBlackTree.Operations
import Mathlib.Data.List.Induction

/-!
# Correctness of the red-black tree

What a client can rely on after any sequence of `insert` and `erase` calls on an empty tree. The
first result is about the pointers of the state alone: `WellFormed` spells out the red-black
conditions, the order of the keys and the agreement of the parent pointers without reference to
the abstract trees of the proofs. The second one is about what the operations return: the tree
behaves as a finite map.

`WellFormed` is built from walks along the child pointers, `BlackPath` and `InOrder`; every sequence
of calls returns and leaves such a state (`run_wellFormed`). `LastBinding` is the value that a
sequence of calls leaves for a key, and by `run_refines_map` searches and erasures answer
accordingly.
-/

namespace CppLearn

open RedBlack BoundedLoop

variable {K V : Type}

/-- There is a path from the node `p` down to `null_node_` with `m` black nodes, `null_node_` left
aside. -/
inductive BlackPath (t : RBTree K V) : Ptr → ℕ → Prop
  | null : BlackPath t nullNode 0
  | step {p : Ptr} {n : Node K V} {m : ℕ} (d : Side) : p ≠ nullNode → t.heap p = some n →
      BlackPath t (n.child d) m → BlackPath t p (m + n.color.weight)

/-- The keys below the node `p` in symmetric order. -/
inductive InOrder (t : RBTree K V) : Ptr → List K → Prop
  | null : InOrder t nullNode []
  | node {p : Ptr} {n : Node K V} {l r : List K} : p ≠ nullNode → t.heap p = some n →
      InOrder t n.left l → InOrder t n.right r → InOrder t p (l ++ n.key :: r)

/-- The conditions on the nodes of a state. -/
structure WellFormed [LinearOrder K] (t : RBTree K V) : Prop where
  /-- `root_` is `null_node_` or black. -/
  root_black : t.root = nullNode ∨ ∃ n, t.heap t.root = some n ∧ n.color = .BLACK
  /-- `null_node_` is black. -/
  null_black : ∃ n, t.heap nullNode = some n ∧ n.color = .BLACK
  /-- The children of a red node are black. -/
  red_child : ∀ p n d, p ≠ nullNode → t.heap p = some n → n.color = .RED →
    ∃ m, t.heap (n.child d) = some m ∧ m.color = .BLACK
  /-- All paths from a node down to `null_node_` have the same number of black nodes. -/
  black_height : ∀ p n, t.heap p = some n → ∃ b, ∀ m, BlackPath t p m ↔ m = b
  /-- The keys of the tree increase strictly. -/
  increasing : ∃ keys, InOrder t t.root keys ∧ keys.Pairwise (· < ·)
  /-- The parent pointer of the root is `null_node_`, and that of any other node leads to a node
  with this node as a child. -/
  parent : ∀ p n, p ≠ nullNode → t.heap p = some n →
    (p = t.root ∧ n.parent = nullNode) ∨
      (p ≠ t.root ∧ n.parent ≠ nullNode ∧
        ∃ m d, t.heap n.parent = some m ∧ m.child d = p)
  /-- A child has its node as parent. -/
  child : ∀ p n d, p ≠ nullNode → t.heap p = some n → n.child d ≠ nullNode →
    ∃ m, t.heap (n.child d) = some m ∧ m.parent = p

variable {t : RBTree K V} {T s : ColorTree (Entry K V)} {E : List Ptr} {n₀ : Node K V}
  {C : Context (Entry K V)}

/-! ## From abstract trees to pointers -/

/-- A node of a tree has a context. -/
theorem exists_plug_of_mem {α : Type} {T : ColorTree α} {x : α} (hx : x ∈ T.toList) :
    ∃ C c a b, T = plug C (.nodeAt .left c a x b) := by
  suffices ∀ C, ∃ D c a b, plug C T = plug D (.nodeAt .left c a x b) from this []
  induction T with
  | nil => simp at hx
  | node c l y r ihl ihr =>
    intro C
    simp only [ColorTree.toList, List.mem_append, List.mem_cons] at hx
    rcases hx with hx | rfl | hx
    · exact ihl hx (⟨.left, c, y, r⟩ :: C)
    · exact ⟨C, c, l, r, rfl⟩
    · exact ihr hx (⟨.right, c, y, l⟩ :: C)

/-- The cell of a node other than `null_node_`, and its place in the tree. -/
theorem Represents.exists_focus (h : Represents t T [] n₀) {p : Ptr} {n : Node K V}
    (hp : p ≠ nullNode) (hn : t.heap p = some n) :
    ∃ C c a x b, T = plug C (.nodeAt .left c a x b) ∧ p = x.addr ∧
      n = cell .left c (ptr a) x (ptr b) (parentPtr C) := by
  have hmem : p ∈ addrs T.toList := by
    have := (h.domain p).1 (by simp [hn])
    simpa [hp] using this
  obtain ⟨x, hx, rfl⟩ := List.mem_map.1 hmem
  obtain ⟨C, c, a, b, rfl⟩ := exists_plug_of_mem hx
  refine ⟨C, c, a, x, b, rfl, rfl, ?_⟩
  have := hn.symm.trans h.heap_focus
  exact Option.some.inj this

/-- The root of a nonempty context is one of its labels. -/
theorem ptr_plug_mem_labels (f : Frame (Entry K V)) (C : Context (Entry K V))
    (s : ColorTree (Entry K V)) : ptr (plug (f :: C) s) ∈ addrs (Context.labels (f :: C)) := by
  induction C generalizing f s with
  | nil => simp [plug, Context.labels]
  | cons g C ih =>
    rw [plug_cons, Context.labels, addrs_cons, addrs_append]
    exact List.mem_cons_of_mem _ (List.mem_append_right _ (ih g (f.fill s)))

/-- The parent pointer of a subtree leads to the node above it. -/
theorem Represents.heap_parentPtr (h : Represents t (plug C s) E n₀) (hs : s ≠ .nil) :
    ∃ n, t.heap (ptr s) = some n ∧ n.parent = parentPtr C := by
  obtain ⟨a, x, b, hnode⟩ := ColorTree.exists_nodeAt .left hs
  rw [hnode] at h ⊢
  rw [ptr_nodeAt, h.heap_focus]
  exact ⟨_, rfl, cell_parent ..⟩

/-- A path from a node other than `null_node_` goes on to one of its children. -/
theorem BlackPath.exists_child {p : Ptr} {m : ℕ} (h : BlackPath t p m) (hp : p ≠ nullNode) :
    ∃ n d k, t.heap p = some n ∧ BlackPath t (n.child d) k ∧ m = k + n.color.weight := by
  cases h with
  | null => exact absurd rfl hp
  | step d _ hn hpath => exact ⟨_, d, _, hn, hpath, rfl⟩

/-- The only path from `null_node_` is the empty one. -/
theorem blackPath_nullNode_iff {m : ℕ} : BlackPath t nullNode m ↔ m = 0 := by
  constructor
  · intro h
    cases h with
    | null => rfl
    | step _ hne => exact absurd rfl hne
  · rintro rfl
    exact .null

/-- The paths below a stored subtree have as many black nodes as its black height says. -/
theorem blackPath_iff {up : Ptr} {b : ℕ} (hs : Stored t.heap up s)
    (hnull : nullNode ∉ addrs s.toList) (hb : s.HasBlackHeight b) (m : ℕ) :
    BlackPath t (ptr s) m ↔ m = b := by
  induction s generalizing up b m with
  | nil =>
    obtain rfl : b = 0 := hb
    exact blackPath_nullNode_iff
  | node c l x r ihl ihr =>
    obtain ⟨hx, hl, hr⟩ := hs
    obtain ⟨k, rfl, hbl, hbr⟩ := hb
    simp only [ColorTree.toList, addrs_append, addrs_cons, List.mem_append, List.mem_cons,
      not_or] at hnull
    obtain ⟨hnl, hnx, hnr⟩ := hnull
    constructor
    · -- a path goes on in one of the subtrees, and these have the same black height
      intro h
      obtain ⟨n, d, j, hn, hpath, rfl⟩ := h.exists_child (Ne.symm hnx)
      obtain rfl := Option.some.inj (hn.symm.trans hx)
      rw [cell_color]
      cases d with
      | left => rw [(ihl hl hnl hbl _).1 hpath]
      | right => rw [(ihr hr hnr hbr _).1 hpath]
    · rintro rfl
      have hpath : BlackPath t ((cell .left c (ptr l) x (ptr r) up).child .left) k :=
        (ihl hl hnl hbl k).2 rfl
      have := BlackPath.step .left (Ne.symm hnx) hx hpath
      rwa [cell_color] at this

/-- The children of a red node are black. -/
theorem Represents.black_of_red (h : Represents t T [] n₀) (hB : Balanced T) {p : Ptr}
    {n : Node K V} (d : Side) (hp : p ≠ nullNode) (hn : t.heap p = some n)
    (hred : n.color = .RED) : ∃ m, t.heap (n.child d) = some m ∧ m.color = .BLACK := by
  obtain ⟨C, c, a, x, b, rfl, rfl, rfl⟩ := h.exists_focus hp hn
  obtain ⟨hrr, -⟩ := hB.split
  rw [cell_color] at hred
  obtain ⟨ha, hb⟩ := ((ColorTree.noRedRed_nodeAt ..).1 hrr).1 hred
  cases d with
  | left =>
    obtain ⟨m, hm, hcolor⟩ := h.heap_color (C := ⟨.left, c, x, b⟩ :: C)
    exact ⟨m, hm, hcolor.trans ha⟩
  | right =>
    obtain ⟨m, hm, hcolor⟩ := h.heap_color (C := ⟨.right, c, x, a⟩ :: C)
    exact ⟨m, hm, hcolor.trans hb⟩

/-- All paths from a node down have the same number of black nodes. -/
theorem Represents.exists_blackHeight (h : Represents t T [] n₀) (hB : Balanced T) {p : Ptr}
    {n : Node K V} (hn : t.heap p = some n) : ∃ b, ∀ m, BlackPath t p m ↔ m = b := by
  by_cases hp : p = nullNode
  · subst hp
    exact ⟨0, fun m => blackPath_nullNode_iff⟩
  · obtain ⟨C, c, a, x, b, rfl, rfl, rfl⟩ := h.exists_focus hp hn
    obtain ⟨-, -, -, -, k, N, hk, -⟩ := hB.split
    have hst := h.stored
    rw [stored_plug] at hst
    have hnull := (List.nodup_cons.1 h.nodup_plug).1
    refine ⟨k, fun m => ?_⟩
    rw [← ptr_nodeAt .left c a x b]
    exact blackPath_iff hst.1 (fun hm => hnull (List.mem_append_left _ hm)) hk m

/-- Only the root has no parent, and any other node is a child of its parent. -/
theorem Represents.parent_cases (h : Represents t T [] n₀) {p : Ptr} {n : Node K V}
    (hp : p ≠ nullNode) (hn : t.heap p = some n) :
    (p = t.root ∧ n.parent = nullNode) ∨
      (p ≠ t.root ∧ n.parent ≠ nullNode ∧ ∃ m d, t.heap n.parent = some m ∧ m.child d = p) := by
  obtain ⟨C, c, a, x, b, rfl, rfl, rfl⟩ := h.exists_focus hp hn
  rw [cell_parent, h.root]
  cases C with
  | nil =>
    refine .inl ⟨?_, rfl⟩
    rw [plug_nil, ptr_nodeAt]
  | cons f C =>
    have hnd := h.nodup_plug
    simp only [List.nodup_cons, List.mem_append, not_or] at hnd
    obtain ⟨⟨-, hnullC⟩, hnd⟩ := hnd
    refine .inr ⟨?_, ?_, _, f.side, h.heap_parent, ?_⟩
    · -- the root is a node of the context
      refine fun heq => List.disjoint_of_nodup_append hnd (a := x.addr) ?_ ?_
      · rw [← ptr_nodeAt .left c a x b]
        exact ptr_mem (ColorTree.nodeAt_ne_nil .left c a x b)
      · rw [heq]
        exact ptr_plug_mem_labels f C _
    · rintro heq
      exact hnullC (by simp [Context.labels, ← heq])
    · rw [cell_child, ptr_nodeAt]

/-- A child has its node as parent. -/
theorem Represents.child_parent (h : Represents t T [] n₀) {p : Ptr} {n : Node K V} {d : Side}
    (hp : p ≠ nullNode) (hn : t.heap p = some n) (hchild : n.child d ≠ nullNode) :
    ∃ m, t.heap (n.child d) = some m ∧ m.parent = p := by
  obtain ⟨C, c, a, x, b, rfl, rfl, rfl⟩ := h.exists_focus hp hn
  cases d with
  | left =>
    have ha : a ≠ .nil := by
      rintro rfl
      exact hchild rfl
    exact Represents.heap_parentPtr (C := ⟨.left, c, x, b⟩ :: C) h ha
  | right =>
    have hb : b ≠ .nil := by
      rintro rfl
      exact hchild rfl
    exact Represents.heap_parentPtr (C := ⟨.right, c, x, a⟩ :: C) h hb

/-- The walk in symmetric order along the pointers of a stored subtree. -/
theorem inOrder_stored {up : Ptr} (hs : Stored t.heap up s) (hnull : nullNode ∉ addrs s.toList) :
    InOrder t (ptr s) (s.toList.map Entry.key) := by
  induction s generalizing up with
  | nil => exact .null
  | node c l x r ihl ihr =>
    obtain ⟨hx, hl, hr⟩ := hs
    simp only [ColorTree.toList, addrs_append, addrs_cons, List.mem_append, List.mem_cons,
      not_or] at hnull
    obtain ⟨hnl, hnx, hnr⟩ := hnull
    have := InOrder.node (Ne.symm hnx) hx (ihl hl hnl) (ihr hr hnr)
    rw [ColorTree.toList, List.map_append, List.map_cons]
    rwa [cell_key] at this

/-! ## Histories -/

/-- The last call about `k` in the sequence is an insertion of `v`. -/
def LastBinding (ops : List (Op K V)) (k : K) (v : V) : Prop :=
  ∃ pre post, ops = pre ++ .insert k v :: post ∧ ∀ op ∈ post, op.key ≠ k

theorem not_lastBinding_nil (k : K) (v : V) : ¬ LastBinding [] k v := by
  rintro ⟨pre, post, h, -⟩
  simp at h

/-- One more call decides about its own key and leaves the others alone. -/
theorem lastBinding_concat_iff (ops : List (Op K V)) (op : Op K V) (k : K) (v : V) :
    LastBinding (ops ++ [op]) k v ↔
      op = .insert k v ∨ (op.key ≠ k ∧ LastBinding ops k v) := by
  constructor
  · rintro ⟨pre, post, h, hpost⟩
    -- the insertion is the last call, or the last call comes after it
    rcases List.eq_nil_or_concat post with rfl | ⟨post, op', rfl⟩
    · exact .inl (by simpa using (List.append_inj' h rfl).2)
    · rw [List.concat_eq_append, ← List.cons_append, ← List.append_assoc] at h
      obtain ⟨rfl, heq⟩ := List.append_inj' h rfl
      obtain rfl : op = op' := by simpa using heq
      exact .inr ⟨hpost op (by simp), pre, post, rfl, fun o ho => hpost o (by simp [ho])⟩
  · rintro (rfl | ⟨hk, pre, post, rfl, hpost⟩)
    · exact ⟨ops, [], rfl, by simp⟩
    · refine ⟨pre, post ++ [op], by simp, fun o ho => ?_⟩
      rcases List.mem_append.1 ho with ho | ho
      · exact hpost o ho
      · rwa [List.mem_singleton.1 ho]

section Correctness

variable [LinearOrder K]

/-- The pointers of a valid state are well formed. -/
theorem Valid.wellFormed (h : Valid t T) : WellFormed t := by
  obtain ⟨n₀, hrep, hB, ho⟩ := h
  have hnullT : nullNode ∉ addrs T.toList := (List.nodup_cons.1 hrep.nodup).1
  refine ⟨?_, ⟨n₀, hrep.sentinel, hrep.black⟩, ?_, ?_, ?_, ?_, ?_⟩
  · obtain ⟨n, hn, hcolor⟩ := hrep.heap_color (C := [])
    exact .inr ⟨n, by rw [hrep.root, hn], by rw [hcolor, hB.1]⟩
  · exact fun p n d hp hn hred => hrep.black_of_red hB d hp hn hred
  · exact fun p n hn => hrep.exists_blackHeight hB hn
  · refine ⟨T.toList.map Entry.key, ?_, List.pairwise_map.2 ho⟩
    rw [hrep.root]
    exact inOrder_stored hrep.stored hnullT
  · exact fun p n hp hn => hrep.parent_cases hp hn
  · exact fun p n d hp hn hchild => hrep.child_parent hp hn hchild

/-! ## Runs -/

/-- The empty tree is valid. -/
theorem valid_empty (k₀ : K) (v₀ : V) : Valid (RBTree.empty k₀ v₀) .nil := by
  refine ⟨⟨k₀, v₀, .BLACK, nullNode, nullNode, nullNode⟩, ⟨rfl, trivial, by simp,
    by simp [RBTree.empty], rfl, fun p => ?_, fun p hp => ?_⟩, balanced_nil, List.Pairwise.nil⟩
  · by_cases hp : p = nullNode <;> simp [RBTree.empty, hp]
  · by_cases hpn : p = nullNode
    · subst hpn
      exact Nat.lt_succ_self nullNode
    · simp [RBTree.empty, hpn] at hp

theorem RBTree.run_concat (t : RBTree K V) (ops : List (Op K V)) (op : Op K V) :
    t.run (ops ++ [op]) = (t.run ops).bind (·.apply op) := by
  induction ops generalizing t with
  | nil => cases h : t.apply op <;> simp [RBTree.run, bind, Except.bind, h]
  | cons o ops ih =>
    cases h : t.apply o with
    | error e => simp [RBTree.run, bind, Except.bind, h]
    | ok t' => simpa [RBTree.run, bind, Except.bind, h] using ih t'

/-- One call on a valid state. -/
theorem apply_valid (h : Valid t T) (op : Op K V) :
    ∃ t' T', t.apply op = .ok t' ∧ Valid t' T' ∧
      ∀ k v, Binds T' k v ↔ op = .insert k v ∨ (op.key ≠ k ∧ Binds T k v) := by
  cases op with
  | insert key value =>
    obtain ⟨t', T', hrun, h', hbinds⟩ := insert_valid h key value
    refine ⟨t', T', hrun, h', fun k v => ?_⟩
    rw [hbinds]
    -- the same condition, with the equations turned round
    simp only [Op.insert.injEq, Op.key, ne_comm (a := k), eq_comm (a := k), eq_comm (a := v)]
  | erase key =>
    obtain ⟨r, t', T', hrun, h', -, hbinds⟩ := erase_valid h key
    refine ⟨t', T', by simp [RBTree.apply, bind, Except.bind, hrun], h', fun k v => ?_⟩
    rw [hbinds]
    simp only [reduceCtorEq, false_or, Op.key, ne_comm (a := k)]

/-- Every sequence of calls returns, in a valid state with the last bindings. -/
theorem run_valid (k₀ : K) (v₀ : V) (ops : List (Op K V)) :
    ∃ t T, (RBTree.empty k₀ v₀).run ops = .ok t ∧ Valid t T ∧
      ∀ k v, Binds T k v ↔ LastBinding ops k v := by
  induction ops using List.reverseRecOn with
  | nil =>
    refine ⟨_, _, rfl, valid_empty k₀ v₀, fun k v => iff_of_false ?_ (not_lastBinding_nil k v)⟩
    rintro ⟨x, hx, -⟩
    simp at hx
  | append_singleton ops op ih =>
    obtain ⟨t, T, hrun, hv, hbinds⟩ := ih
    obtain ⟨t', T', hop, hv', hbinds'⟩ := apply_valid hv op
    refine ⟨t', T', ?_, hv', fun k v => ?_⟩
    · rw [RBTree.run_concat, hrun]
      exact hop
    · rw [hbinds', lastBinding_concat_iff, hbinds]

/-- After any sequence of calls on an empty tree the state is well formed. -/
theorem run_wellFormed (k₀ : K) (v₀ : V) (ops : List (Op K V)) :
    ∃ t, (RBTree.empty k₀ v₀).run ops = .ok t ∧ WellFormed t := by
  obtain ⟨t, T, hrun, hv, -⟩ := run_valid k₀ v₀ ops
  exact ⟨t, hrun, hv.wellFormed⟩

/-- `find` on a valid state. -/
theorem find_valid (h : Valid t T) (k : K) :
    (∃ p n, t.find k = .ok (some p) ∧ t.heap p = some n ∧ n.key = k ∧
      ∀ v, Binds T k v ↔ v = n.value) ∨
    (t.find k = .ok none ∧ ∀ v, ¬ Binds T k v) := by
  obtain ⟨n₀, hrep, -, ho⟩ := h
  obtain ⟨r, hrun, ⟨rfl, habs⟩ | ⟨C, c, a, x, b, rfl, rfl, rfl⟩⟩ := find_spec hrep ho k
  · refine .inr ⟨hrun, ?_⟩
    rintro v ⟨x, hx, hk, -⟩
    exact habs x hx hk
  · have hx := hrep.heap_focus (d := .left)
    refine .inl ⟨x.addr, _, hrun, hx, cell_key .., fun v => ?_⟩
    -- the entry that was found, with those before and behind it
    have hl : (plug C (.node c a x b)).toList =
        (C.before ++ a.toList) ++ x :: (b.toList ++ C.after) := by
      simp [toList_plug, ColorTree.toList]
    rw [ho.binds_iff hl, cell_value]
    simp

/-- What a caller reads for a key in a valid state. -/
theorem lookup_valid (h : Valid t T) (k : K) :
    ∃ o, t.lookup k = .ok o ∧ ∀ v, o = some v ↔ Binds T k v := by
  rcases find_valid h k with ⟨p, n, hrun, hn, -, hbinds⟩ | ⟨hrun, hnone⟩
  · refine ⟨some n.value, ?_, fun v => ?_⟩
    · simp [RBTree.lookup, bind, Except.bind, hrun, RBTree.read_eq hn]
    · rw [hbinds, Option.some.injEq, eq_comm]
  · refine ⟨none, ?_, fun v => iff_of_false (by simp) (hnone v)⟩
    simp [RBTree.lookup, bind, Except.bind, hrun]

/-- States with the same binding of a key answer alike. -/
theorem lookup_congr {t' : RBTree K V} {T' : ColorTree (Entry K V)} (h : Valid t T)
    (h' : Valid t' T') {k : K} (hb : ∀ v, Binds T' k v ↔ Binds T k v) :
    t'.lookup k = t.lookup k := by
  obtain ⟨o, hrun, ho⟩ := lookup_valid h k
  obtain ⟨o', hrun', ho'⟩ := lookup_valid h' k
  have heq : o' = o := by
    ext v
    rw [ho', ho, hb]
  rw [hrun, hrun', heq]

/-- After any sequence of calls on an empty tree: `find` returns a node with the key and the value
of the last insertion that no erasure of the key follows, and `nullptr` if there is none; `erase`
says whether the key was present and removes its binding only; `insert` sets the binding of its
key only. -/
theorem run_refines_map (k₀ : K) (v₀ : V) (ops : List (Op K V)) :
    ∃ t, (RBTree.empty k₀ v₀).run ops = .ok t ∧
      (∀ k v, LastBinding ops k v →
        ∃ p n, t.find k = .ok (some p) ∧ t.heap p = some n ∧ n.key = k ∧ n.value = v) ∧
      (∀ k, (∀ v, ¬ LastBinding ops k v) → t.find k = .ok none) ∧
      (∀ k, ∃ r t', t.erase k = .ok (r, t') ∧ (r = true ↔ ∃ v, LastBinding ops k v) ∧
        t'.lookup k = .ok none ∧ ∀ k', k' ≠ k → t'.lookup k' = t.lookup k') ∧
      (∀ k v, ∃ t', t.insert k v = .ok t' ∧ t'.lookup k = .ok (some v) ∧
        ∀ k', k' ≠ k → t'.lookup k' = t.lookup k') := by
  obtain ⟨t, T, hrun, hv, hbinds⟩ := run_valid k₀ v₀ ops
  refine ⟨t, hrun, fun k v hlast => ?_, fun k hnone => ?_, fun k => ?_, fun k v => ?_⟩
  · -- the keys that are bound are found, and the others are not
    rw [← hbinds] at hlast
    rcases find_valid hv k with ⟨p, n, hfind, hn, hk, hb⟩ | ⟨-, hnone⟩
    · exact ⟨p, n, hfind, hn, hk, ((hb v).1 hlast).symm⟩
    · exact absurd hlast (hnone v)
  · rcases find_valid hv k with ⟨p, n, -, -, -, hb⟩ | ⟨hfind, -⟩
    · exact absurd ((hbinds ..).1 ((hb n.value).2 rfl)) (hnone n.value)
    · exact hfind
  · -- after an erase or an insert the keys other than `k` have the binding they had
    obtain ⟨r, t', T', herase, hv', hr, hb⟩ := erase_valid hv k
    refine ⟨r, t', herase, ?_, ?_, fun k' hk' => ?_⟩
    · simp only [hr, hbinds]
    · obtain ⟨o, hlook, ho⟩ := lookup_valid hv' k
      cases o with
      | none => exact hlook
      | some v => exact absurd rfl ((hb k v).1 ((ho v).1 rfl)).1
    · exact lookup_congr hv hv' fun v => (hb k' v).trans (and_iff_right hk')
  · obtain ⟨t', T', hins, hv', hb⟩ := insert_valid hv k v
    refine ⟨t', hins, ?_, fun k' hk' => ?_⟩
    · obtain ⟨o, hlook, ho⟩ := lookup_valid hv' k
      rw [hlook, (ho v).2 ((hb k v).2 (.inl ⟨rfl, rfl⟩))]
    · refine lookup_congr hv hv' fun v' => ?_
      rw [hb]
      simp [hk']

end Correctness

end CppLearn

import CppLearn.RedBlackTree.Correctness

/-!
# The destructor of the red-black tree

`~RBTree` deletes the nodes below the root, children first, and then `null_node_`. As a second
`delete` of a cell is a fault, a destructor that returns has deleted each node once.

`RBTree.destroy` is the recursive function and `RBTree.destruct` the destructor. Nothing is left
after any sequence of calls (`run_destruct`).
-/

namespace CppLearn

open RedBlack BoundedLoop

variable {K V : Type} {t t' t'' : RBTree K V} {s T : ColorTree (Entry K V)} {up : Ptr}
  {ps qs : List Ptr} {fuel : ℕ}

namespace RBTree

/-- `_destroy`, with a bound on the depth of its recursion. -/
def destroy : ℕ → RBTree K V → Ptr → Except Fault (RBTree K V)
  | 0, _, _ => .error .diverged
  | depth + 1, t, node =>
    if node = nullNode then .ok t
    else do
      let t ← t.destroy depth (← t.read node).left
      let t ← t.destroy depth (← t.read node).right
      t.delete node

/-- `~RBTree`. -/
def destruct (t : RBTree K V) : Except Fault (RBTree K V) := do
  let t ← t.destroy t.fuel t.root
  t.delete nullNode

end RBTree

/-- The cells in the list are gone, and the others are as before. -/
def Deletes (t t' : RBTree K V) (ps : List Ptr) : Prop :=
  ∀ p, t'.heap p = if p ∈ ps then none else t.heap p

theorem Deletes.keeps (h : Deletes t t' ps) {p : Ptr} (hp : p ∉ ps) : t'.heap p = t.heap p := by
  rw [h, if_neg hp]

theorem Deletes.trans (h : Deletes t t' ps) (h' : Deletes t' t'' qs) :
    Deletes t t'' (ps ++ qs) := by
  intro p
  rw [h', h]
  simp only [List.mem_append]
  split_ifs <;> tauto

theorem Deletes.perm (h : Deletes t t' ps) (hperm : ps.Perm qs) : Deletes t t' qs := by
  intro p
  rw [h]
  exact if_congr hperm.mem_iff rfl rfl

theorem RBTree.delete_deletes {p : Ptr} {n : Node K V} (h : t.heap p = some n) :
    ∃ t', t.delete p = .ok t' ∧ Deletes t t' [p] := by
  refine ⟨{ t with heap := Function.update t.heap p none }, by rw [RBTree.delete, h], fun q => ?_⟩
  show Function.update t.heap p none q = _
  by_cases hq : q = p
  · rw [hq, Function.update_self, if_pos (List.mem_singleton_self p)]
  · rw [Function.update_of_ne hq, if_neg (by simpa using hq)]

/-- A stored subtree is deleted, and nothing else. The subtrees of a node have no cells in common,
so the second one is still there when the first one is gone, and so is the node itself. -/
theorem destroy_spec (hs : Stored t.heap up s) (hnd : (nullNode :: addrs s.toList).Nodup)
    (hfuel : s.toList.length < fuel) :
    ∃ t', t.destroy fuel (ptr s) = .ok t' ∧ Deletes t t' (addrs s.toList) := by
  induction s generalizing t up fuel with
  | nil =>
    obtain ⟨depth, rfl⟩ := Nat.exists_eq_succ_of_ne_zero (Nat.ne_zero_of_lt hfuel)
    refine ⟨t, ?_, fun p => (if_neg List.not_mem_nil).symm⟩
    rw [RBTree.destroy, ptr_nil, if_pos rfl]
  | node c l x r ihl ihr =>
    obtain ⟨depth, rfl⟩ := Nat.exists_eq_succ_of_ne_zero (Nat.ne_zero_of_lt hfuel)
    obtain ⟨hx, hl, hr⟩ := hs
    rw [ColorTree.toList] at hfuel hnd ⊢
    rw [List.length_append, List.length_cons] at hfuel
    rw [addrs_append, addrs_cons] at hnd ⊢
    obtain ⟨hnull, hnd⟩ := List.nodup_cons.1 hnd
    obtain ⟨hndl, hndxr, hdisj⟩ := List.nodup_append.1 hnd
    obtain ⟨hxr, hndr⟩ := List.nodup_cons.1 hndxr
    rw [List.mem_append, List.mem_cons, not_or, not_or] at hnull
    obtain ⟨hnull_l, hnull_x, hnull_r⟩ := hnull
    have hxl : x.addr ∉ addrs l.toList := fun h => hdisj _ h _ List.mem_cons_self rfl
    have hlr : ∀ p ∈ addrs r.toList, p ∉ addrs l.toList := fun p hr hl =>
      hdisj p hl p (List.mem_cons_of_mem _ hr) rfl
    -- the left subtree
    obtain ⟨t₁, hrun₁, h₁⟩ := ihl hl (List.nodup_cons.2 ⟨hnull_l, hndl⟩) (show _ < depth by omega)
    have hx₁ := (h₁.keeps hxl).trans hx
    -- the right subtree
    obtain ⟨t₂, hrun₂, h₂⟩ := ihr (hr.congr fun p hp => h₁.keeps (hlr p hp))
      (List.nodup_cons.2 ⟨hnull_r, hndr⟩) (show _ < depth by omega)
    have hx₂ := (h₂.keeps hxr).trans hx₁
    obtain ⟨t', hdelete, h'⟩ := RBTree.delete_deletes hx₂
    refine ⟨t', ?_, ((h₁.trans h₂).trans h').perm ?_⟩
    · rw [RBTree.destroy, ptr, if_neg (Ne.symm hnull_x), RBTree.read_eq hx, ok_bind, cell, hrun₁,
        ok_bind, RBTree.read_eq hx₁, ok_bind, cell, hrun₂, ok_bind, hdelete]
    · rw [List.append_assoc]
      exact List.perm_append_comm.append_left _

/-- After any sequence of calls, the destructor returns, and no cell is left. -/
theorem run_destruct [LinearOrder K] (k₀ : K) (v₀ : V) (ops : List (Op K V)) :
    ∃ t t', (RBTree.empty k₀ v₀).run ops = .ok t ∧ t.destruct = .ok t' ∧
      ∀ p, t'.heap p = none := by
  obtain ⟨t, T, hrun, ⟨n₀, hrep, -, -⟩, -⟩ := run_valid k₀ v₀ ops
  obtain ⟨t₁, hdestroy, h₁⟩ := destroy_spec hrep.stored hrep.nodup hrep.length_lt_fuel
  obtain ⟨hnull, -⟩ := List.nodup_cons.1 hrep.nodup
  have hsentinel := (h₁.keeps hnull).trans hrep.sentinel
  obtain ⟨t', hdelete, h'⟩ := RBTree.delete_deletes hsentinel
  refine ⟨t, t', hrun, ?_, fun p => ?_⟩
  · rw [RBTree.destruct, hrep.root, hdestroy, ok_bind, hdelete]
  · rw [h₁.trans h' p]
    split_ifs with hmem
    · rfl
    · -- there are no other cells
      have hdomain := (hrep.domain p).not.2 (by simpa [and_comm] using hmem)
      simpa using hdomain

end CppLearn

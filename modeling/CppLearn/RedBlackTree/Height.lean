import CppLearn.RedBlackTree.Correctness

/-!
# The height of the red-black tree

The paths along the child pointers are as short as the red-black conditions promise, and so are the
searches.

`NodePath` is a path down to `null_node_`, and `Visits` are the nodes that `find` looks at. Both are
bounded by `run_height`, after any sequence of calls.
-/

namespace CppLearn

open RedBlack BoundedLoop

variable {K V : Type} {t : RBTree K V} {s T : ColorTree (Entry K V)} {up : Ptr}

/-- There is a path of `m` nodes from the node `p` down to `null_node_`, which is left aside. -/
inductive NodePath (t : RBTree K V) : Ptr → ℕ → Prop
  | null : NodePath t nullNode 0
  | step {p : Ptr} {n : Node K V} {m : ℕ} (d : Side) : p ≠ nullNode → t.heap p = some n →
      NodePath t (n.child d) m → NodePath t p (m + 1)

/-- From the node `p` on, `find` looks at the nodes `visited`, and returns `r`. -/
inductive Visits [LinearOrder K] (t : RBTree K V) (key : K) :
    Ptr → List Ptr → Option Ptr → Prop
  | null : Visits t key nullNode [] none
  | stop {p : Ptr} {r : Option Ptr} : p ≠ nullNode → t.findStep key p = .ok (.inr r) →
      Visits t key p [p] r
  | move {p q : Ptr} {visited : List Ptr} {r : Option Ptr} : p ≠ nullNode →
      t.findStep key p = .ok (.inl q) → Visits t key q visited r → Visits t key p (p :: visited) r

/-- No path below a stored subtree has more nodes than the height says. -/
theorem NodePath.le_height {m : ℕ} (hpath : NodePath t (ptr s) m) (hs : Stored t.heap up s)
    (hnull : nullNode ∉ addrs s.toList) : m ≤ s.height := by
  induction s generalizing up m with
  | nil =>
    cases hpath with
    | null => exact le_rfl
    | step _ hne => exact absurd rfl hne
  | node c l x r ihl ihr =>
    obtain ⟨hx, hl, hr⟩ := hs
    simp only [ColorTree.toList, addrs_append, addrs_cons, List.mem_append, List.mem_cons,
      not_or] at hnull
    obtain ⟨hnl, hnx, hnr⟩ := hnull
    rw [ColorTree.height]
    change NodePath t x.addr m at hpath
    generalize hp : x.addr = p at hpath
    cases hpath with
    | null => exact absurd hp.symm hnx
    | step d hne hn hrest =>
      subst hp
      obtain rfl := Option.some.inj (hn.symm.trans hx)
      cases d with
      | left => exact Nat.succ_le_succ ((ihl hrest hl hnl).trans (le_max_left ..))
      | right => exact Nat.succ_le_succ ((ihr hrest hr hnr).trans (le_max_right ..))

section Search

variable [LinearOrder K] {key : K}

/-- The nodes that the search in a stored subtree looks at are on one path. -/
theorem exists_visits (hs : Stored t.heap up s) (hnull : nullNode ∉ addrs s.toList) (key : K) :
    ∃ visited r, Visits t key (ptr s) visited r ∧ visited.length ≤ s.height := by
  induction s generalizing up with
  | nil => exact ⟨[], none, .null, le_rfl⟩
  | node c l x r ihl ihr =>
    obtain ⟨hx, hl, hr⟩ := hs
    simp only [ColorTree.toList, addrs_append, addrs_cons, List.mem_append, List.mem_cons,
      not_or] at hnull
    obtain ⟨hnl, hnx, hnr⟩ := hnull
    have hne : x.addr ≠ nullNode := Ne.symm hnx
    have hstep : t.findStep key x.addr =
        if x.key = key then .ok (.inr (some x.addr))
        else if x.key < key then .ok (.inl (ptr r)) else .ok (.inl (ptr l)) := by
      rw [RBTree.findStep, if_neg hne]
      simp only [RBTree.read, hx, bind, Except.bind]
      rfl
    rw [ColorTree.height]
    change ∃ visited o, Visits t key x.addr visited o ∧ _
    -- the walk ends here, or goes on in one of the two subtrees
    by_cases heq : x.key = key
    · exact ⟨[x.addr], some x.addr, .stop hne (by rw [hstep, if_pos heq]), Nat.le_add_left ..⟩
    rw [if_neg heq] at hstep
    by_cases hlt : x.key < key
    · obtain ⟨visited, o, hvisits, hlen⟩ := ihr hr hnr
      refine ⟨x.addr :: visited, o, .move hne (by rw [hstep, if_pos hlt]) hvisits, ?_⟩
      exact Nat.succ_le_succ (hlen.trans (le_max_right ..))
    · obtain ⟨visited, o, hvisits, hlen⟩ := ihl hl hnl
      refine ⟨x.addr :: visited, o, .move hne (by rw [hstep, if_neg hlt]) hvisits, ?_⟩
      exact Nat.succ_le_succ (hlen.trans (le_max_left ..))

/-- `find` returns what it is left with after the nodes that it looks at. -/
theorem Visits.find_eq {p : Ptr} {visited : List Ptr} {r : Option Ptr}
    (h : Visits t key p visited r) {fuel : ℕ} (hfuel : visited.length < fuel) :
    iterate (fun _ => .diverged) (t.findStep key) fuel p = .ok r := by
  obtain ⟨fuel, rfl⟩ := Nat.exists_eq_add_of_le' (Nat.one_le_of_lt hfuel)
  induction h generalizing fuel with
  | null => simp [iterate, RBTree.findStep]
  | stop _ hstep => exact iterate_exit hstep _
  | move _ hstep _ ih =>
    obtain ⟨fuel, rfl⟩ := Nat.exists_eq_add_of_le' (Nat.one_le_of_lt (Nat.lt_of_succ_lt_succ hfuel))
    simp only [iterate, hstep]
    exact ih fuel (Nat.lt_of_succ_lt_succ hfuel)

/-- After any sequence of calls on an empty tree, no path from the root and no search looks at more
than `2 log (n + 1)` nodes of the `n` that there are. -/
theorem run_height (k₀ : K) (v₀ : V) (ops : List (Op K V)) :
    ∃ t keys, (RBTree.empty k₀ v₀).run ops = .ok t ∧ InOrder t t.root keys ∧
      (∀ m, NodePath t t.root m → m ≤ 2 * Nat.log 2 (keys.length + 1)) ∧
      ∀ key, ∃ visited r, Visits t key t.root visited r ∧ t.find key = .ok r ∧
        visited.length ≤ 2 * Nat.log 2 (keys.length + 1) := by
  obtain ⟨t, T, hrun, ⟨n₀, hrep, hB, -⟩, -⟩ := run_valid k₀ v₀ ops
  have hnull : nullNode ∉ addrs T.toList := (List.nodup_cons.1 hrep.nodup).1
  refine ⟨t, T.toList.map Entry.key, hrun, ?_, fun m hpath => ?_, fun key => ?_⟩
  · rw [hrep.root]
    exact inOrder_stored hrep.stored hnull
  · rw [hrep.root] at hpath
    rw [List.length_map]
    exact (hpath.le_height hrep.stored hnull).trans hB.height_le
  · obtain ⟨visited, r, hvisits, hlen⟩ := exists_visits hrep.stored hnull key
    rw [← hrep.root] at hvisits
    refine ⟨visited, r, hvisits, hvisits.find_eq ?_, ?_⟩
    · have hfuel := hrep.length_lt_fuel
      have hheight := T.height_le_length
      omega
    · rw [List.length_map]
      exact hlen.trans hB.height_le

end Search

end CppLearn

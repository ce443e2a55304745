import CppLearn.PairTree.Represents

/-!
# When a `PairTree` is a priority queue

`push` and `update` keep the nodes in a tree with the smallest value at the root. `pop` returns the
root; but it hands the root itself to `_merges`, and not its children, so the root stays where it
is. A `PairTree` does what it should exactly as long as nothing is popped.

`Session.Correct` says that the heap consists of the nodes that were pushed and not popped, with a
smallest one at the top. `push` and `update` return and keep the invariant (`Session.Inv.push`,
`Session.Inv.update`), and what `pop` does is `Session.Inv.pop`. The criterion for whole runs is
`run_correct_iff`.
-/

namespace CppLearn.PairTree

open Forest Traces BoundedLoop

variable {T : Type} [LinearOrder T] {s s' : Session T} {c : Call T} {node : ℕ} {value : T}

namespace Session

/-- The heap is what it should be: it consists of the nodes that were pushed and not popped, `top`
is one of them with a smallest value, or null if there are none, and every call returns. -/
structure Correct (s : Session T) : Prop where
  top_none : s.tree.root = none ↔ s.held = ∅
  top_le : ∀ r, s.tree.root = some r → r ∈ s.held ∧
    ∀ x ∈ s.held, (s.tree.nodes r).value ≤ (s.tree.nodes x).value
  nodes : ∃ f, Links s.tree.nodes s.tree.root none f ∧ f.labels.Nodup ∧
    ∀ x, x ∈ f.labels ↔ x ∈ s.held
  returns : ∀ c, s.Admits c → ∃ s', s.exec c = .ok s'

/-- The invariant: the heap is empty, or it is a tree of the nodes that it should hold. -/
structure Inv (s : Session T) : Prop where
  held_subset : s.held ⊆ s.pushed
  shape : (s.tree.root = none ∧ s.held = ∅) ∨
    ∃ r c, s.tree.root = some r ∧ TreeAt s.tree.nodes r c ∧ ∀ x, x ∈ s.held ↔ x ∈ r :: c.labels

theorem inv_init (h : PairNodes T) : Inv (init h) := ⟨Finset.Subset.refl ∅, .inl ⟨rfl, rfl⟩⟩

/-! ## The calls -/

/-- A new node becomes a part of the tree. -/
theorem Inv.push (h : Inv s) (hnode : node ∉ s.pushed) (value : T) :
    ∃ s', s.exec (.push node value) = .ok s' ∧ Inv s' := by
  refine ⟨_, rfl, Finset.insert_subset_insert node h.held_subset, .inr ?_⟩
  have hnew : TreeAt (Function.update s.tree.nodes node ⟨value, none, none, none⟩) node .nil := by
    refine ⟨⟨rfl, ?_, ?_, ?_⟩, by simp, trivial⟩ <;> simp [Links]
  rcases h.shape with ⟨hroot, hheld⟩ | ⟨r, c, hroot, htree, hmem⟩
  · refine ⟨node, .nil, ?_, ?_, fun x => ?_⟩
    · simp [PairTree.push, hroot, merge]
    · simpa [PairTree.push, hroot, merge] using hnew
    · simp [hheld]
  · have hnot : node ∉ r :: c.labels := fun hx => hnode (h.held_subset ((hmem node).2 hx))
    have hold : TreeAt (Function.update s.tree.nodes node ⟨value, none, none, none⟩) r c :=
      htree.congr fun x hx => Function.update_of_ne (ne_of_mem_of_not_mem hx hnot) ..
    obtain ⟨r', c', h', hmerge, htree', hperm, -, -⟩ := hnew.merge hold (by simpa using hnot)
    refine ⟨r', c', ?_, ?_, fun x => ?_⟩
    · simp [PairTree.push, hroot, hmerge]
    · simpa [PairTree.push, hroot, hmerge] using htree'
    · rw [Finset.mem_insert, hmem, hperm.mem_iff]
      simp

/-- A smaller value for a node of the heap. -/
theorem Inv.update (h : Inv s) (hnode : node ∈ s.held)
    (hle : value ≤ (s.tree.nodes node).value) :
    ∃ s', s.exec (.update node value) = .ok s' ∧ Inv s' := by
  rcases h.shape with ⟨-, hempty⟩ | ⟨r, c, hroot, htree, hmem⟩
  · simp [hempty] at hnode
  by_cases hrn : r = node
  · -- the root stays the root
    subst hrn
    refine ⟨{ s with tree := ⟨s.tree.nodes.setValue r value, s.tree.root⟩ }, ?_, h.held_subset,
      .inr ⟨r, c, hroot, htree.setValue hle, hmem⟩⟩
    simp [exec, PairTree.update, hroot, bind, Except.bind]
  · have hc : node ∈ c.labels := by
      have := (hmem node).1 hnode
      simpa [Ne.symm hrn] using this
    obtain ⟨father, hfather, hrest, hsub, hperm⟩ := htree.unlink hc hle
    have hdisjoint := (List.nodup_append'.1 (hperm.nodup_iff.1 htree.nodup)).2.2
    obtain ⟨r', c', h', hmerge, htree', hperm', -, -⟩ := hrest.merge hsub hdisjoint
    refine ⟨{ s with tree := ⟨h', some r'⟩ }, ?_, h.held_subset, .inr ⟨r', c', rfl, htree', ?_⟩⟩
    · have hfather' : (s.tree.nodes.setValue node value node).father = some father := by
        rw [(sameLinks_setValue s.tree.nodes node value node).2.2, hfather]
      simp [exec, PairTree.update, hroot, hrn, hfather', hmerge, bind, Except.bind]
    · intro x
      rw [hmem, hperm.mem_iff, hperm'.mem_iff]

/-- `pop` returns the root, and leaves it in the heap. -/
theorem Inv.pop (h : Inv s) (hheld : s.held ≠ ∅) :
    ∃ r t, s.exec .pop = .ok { s with tree := t, held := s.held.erase r } ∧ t.root = some r := by
  rcases h.shape with ⟨-, hempty⟩ | ⟨r, c, hroot, htree, hmem⟩
  · exact absurd hempty hheld
  · obtain ⟨-, -, -, hbrother⟩ := htree.links
    have hnone : (s.tree.nodes.setFather r none r).brother = none := by
      have : (s.tree.nodes r).brother = none := hbrother
      simpa [PairNodes.setFather] using this
    have hmerges : merges (s.pushed.card + 1) s.tree.nodes (some r) =
        .ok (some r, s.tree.nodes.setFather r none) := by
      simp only [merges, hnone]
    refine ⟨r, ⟨((s.tree.nodes.setFather r none).setBrother r none).setFather r none, some r⟩, ?_,
      rfl⟩
    simp only [exec, PairTree.pop, hroot, hmerges, bind, Except.bind]

theorem Inv.correct (h : Inv s) : Correct s := by
  refine ⟨?_, fun r hr => ?_, ?_, fun c hc => ?_⟩
  · rcases h.shape with ⟨hroot, hheld⟩ | ⟨r, c, hroot, -, hmem⟩
    · simp [hroot, hheld]
    · have hne : s.held ≠ ∅ := Finset.ne_empty_of_mem ((hmem r).2 List.mem_cons_self)
      simp [hroot, hne]
  · rcases h.shape with ⟨hroot, -⟩ | ⟨r', c, hroot, htree, hmem⟩
    · simp [hroot] at hr
    · obtain rfl : r' = r := Option.some.inj (hroot.symm.trans hr)
      exact ⟨(hmem r').2 List.mem_cons_self, fun x hx => htree.le ((hmem x).1 hx)⟩
  · rcases h.shape with ⟨hroot, hheld⟩ | ⟨r, c, hroot, htree, hmem⟩
    · exact ⟨.nil, hroot, List.nodup_nil, by simp [hheld]⟩
    · refine ⟨.node r c .nil, hroot ▸ htree.links, by simpa using htree.nodup, fun x => ?_⟩
      rw [hmem]
      simp
  · cases c with
    | push node value => exact ⟨_, rfl⟩
    | update node value =>
      obtain ⟨s', hs', -⟩ := h.update hc.1 hc.2
      exact ⟨s', hs'⟩
    | pop =>
      obtain ⟨r, t, hpop, -⟩ := h.pop hc
      exact ⟨_, hpop⟩

/-- The other calls keep the invariant. -/
theorem Inv.next (h : Inv s) (hc : c ≠ .pop) (hnext : s.next c = some s') : Inv s' := by
  unfold Session.next at hnext
  split_ifs at hnext with hadmits
  have hkeeps : ∃ s', s.exec c = .ok s' ∧ Inv s' := by
    cases c with
    | push node value => exact h.push hadmits value
    | update node value => exact h.update hadmits.1 hadmits.2
    | pop => exact absurd rfl hc
  obtain ⟨s₁, hs₁, hinv⟩ := hkeeps
  rw [hs₁] at hnext
  obtain rfl := Option.some.inj hnext
  exact hinv

/-- After `pop`, the node at the top is one that was popped. -/
theorem Inv.not_correct_pop (h : Inv s) (hnext : s.next .pop = some s') : ¬Correct s' := by
  unfold Session.next at hnext
  split_ifs at hnext with hadmits
  obtain ⟨r, t, hpop, ht⟩ := h.pop hadmits
  rw [hpop] at hnext
  obtain rfl := Option.some.inj hnext
  intro hcorrect
  exact Finset.notMem_erase r s.held (hcorrect.top_le r ht).1

end Session

open Session

/-- In all states of a run the heap is what it should be, exactly if nothing is popped in it. -/
theorem run_correct_iff (h : PairNodes T) (calls : List (Call T)) :
    StatesMeet Session.next (init h) Correct calls ↔
      StepsMeet Session.next (init h) (fun _ c => c ≠ .pop) calls := by
  refine statesMeet_iff (inv_init h) (fun _ hinv => hinv.correct)
    (fun _ _ _ hinv hc hnext => hinv.next hc hnext) (fun s c s' hinv hc hnext => ?_) calls
  obtain rfl : c = .pop := not_not.1 hc
  exact hinv.not_correct_pop hnext

/-- A node is pushed and popped, and it is still at the top. -/
theorem pop_keeps_root :
    ¬StatesMeet Session.next (init fun _ => ⟨(0 : ℤ), none, none, none⟩) Correct
      [.push 0 1, .pop] := by
  intro h
  obtain ⟨s, hrun, hroot, hheld⟩ : ∃ s, Traces.run Session.next
      (init fun _ => ⟨(0 : ℤ), none, none, none⟩) [.push 0 1, .pop] = some s ∧
      s.tree.root = some 0 ∧ s.held = ∅ := ⟨_, rfl, rfl, rfl⟩
  have hnone := (h _ s (List.prefix_refl _) hrun).top_none.2 hheld
  rw [hroot] at hnone
  cases hnone

end CppLearn.PairTree

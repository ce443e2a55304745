import CppLearn.PairTree.Correctness

/-!
# The nodes of a `PairTree` and their pointers

What the invariant says about the pointers themselves. From the root, every node is reached along
exactly one sequence of `child` and `brother` pointers, and `father` always points one step back.

`follow` is the node that a sequence of pointers leads to. In a forest every node is reached by one
sequence (`Links.follow_iff`, `Links.follow_unique`). What should hold for a tree and its nodes is
`WellLinked`, and it does after any sequence of calls other than `pop` (`run_wellLinked`).
-/

namespace CppLearn.PairTree

open Forest Traces BoundedLoop

/-- The pointers that lead from a node to other ones. -/
inductive Pointer where
  | child
  | brother
  deriving DecidableEq

variable {T : Type} {h : PairNodes T} {p up : Option ℕ} {f c : Forest ℕ} {x y r : ℕ}
  {path path' : List Pointer}

/-- The value of a pointer of a node. -/
def Pointer.get (n : PairNode T) : Pointer → Option ℕ
  | .child => n.child
  | .brother => n.brother

/-- The node that the pointers `path` lead to from `p`. -/
def follow (h : PairNodes T) : Option ℕ → List Pointer → Option ℕ
  | p, [] => p
  | none, _ :: _ => none
  | some x, d :: path => follow h (d.get (h x)) path

/-- The node is in the list of children of `x`: it is the first child, or the next brother of one
that is in the list. -/
inductive ChildOf (h : PairNodes T) (x : ℕ) : ℕ → Prop
  | first {y : ℕ} : (h x).child = some y → ChildOf h x y
  | next {y z : ℕ} : ChildOf h x y → (h y).brother = some z → ChildOf h x z

/-- The tree consists of the nodes `S`, in the order of a heap. -/
structure WellLinked [LE T] (t : PairTree T) (S : Finset ℕ) : Prop where
  /-- The nodes that pointers lead to. -/
  reachable : ∀ x, x ∈ S ↔ ∃ path, follow t.nodes t.root path = some x
  /-- No node is reached twice. -/
  unique : ∀ path path' x, follow t.nodes t.root path = some x →
    follow t.nodes t.root path' = some x → path = path'
  /-- No value is smaller than that of the parent. -/
  child_le : ∀ x ∈ S, ∀ y, ChildOf t.nodes x y → (t.nodes x).value ≤ (t.nodes y).value
  /-- The root has a minimal value. -/
  root_le : ∀ r, t.root = some r → ∀ x ∈ S, (t.nodes r).value ≤ (t.nodes x).value
  /-- The root has no father, and no brothers. -/
  root_links : ∀ r, t.root = some r → (t.nodes r).father = none ∧ (t.nodes r).brother = none
  /-- `father` of a first child is the parent. -/
  father_child : ∀ x ∈ S, ∀ y, (t.nodes x).child = some y → (t.nodes y).father = some x
  /-- `father` of another child is the preceding brother. -/
  father_brother : ∀ x ∈ S, ∀ y, (t.nodes x).brother = some y → (t.nodes y).father = some x

/-! ## Following pointers -/

@[simp]
theorem follow_nil : follow h p [] = p := rfl

@[simp]
theorem follow_none : follow h none path = none := by
  cases path <;> rfl

/-- The pointers lead to the nodes of the forest. -/
theorem Links.follow_iff (hl : Links h p up f) :
    y ∈ f.labels ↔ ∃ path, follow h p path = some y := by
  induction f generalizing p up with
  | nil =>
    obtain rfl : p = none := hl
    simp
  | node x c s ihc ihs =>
    obtain ⟨rfl, -, hc, hs⟩ := hl
    rw [labels_node, List.mem_cons, List.mem_append, ihc hc, ihs hs]
    constructor
    · rintro (rfl | ⟨path, hpath⟩ | ⟨path, hpath⟩)
      · exact ⟨[], rfl⟩
      · exact ⟨.child :: path, hpath⟩
      · exact ⟨.brother :: path, hpath⟩
    · rintro ⟨_ | ⟨_ | _, path⟩, hpath⟩
      · exact .inl (Option.some.inj hpath).symm
      · exact .inr (.inl ⟨path, hpath⟩)
      · exact .inr (.inr ⟨path, hpath⟩)

/-- No two sequences of pointers lead to the same node. -/
theorem Links.follow_unique (hl : Links h p up f) (hnodup : f.labels.Nodup)
    (hpath : follow h p path = some y) (hpath' : follow h p path' = some y) : path = path' := by
  -- the node itself, those below it and its brothers are told apart by the first pointer
  induction f generalizing p up path path' with
  | nil =>
    obtain rfl : p = none := hl
    simp at hpath
  | node x c s ihc ihs =>
    obtain ⟨rfl, -, hc, hs⟩ := hl
    simp only [labels_node, List.nodup_cons, List.mem_append, not_or] at hnodup
    obtain ⟨⟨hxc, hxs⟩, happend⟩ := hnodup
    obtain ⟨hcnodup, hsnodup, hdisjoint⟩ := List.nodup_append'.1 happend
    have hchild : ∀ {z path}, follow h (h x).child path = some z → z ∈ c.labels :=
      fun heq => hc.follow_iff.2 ⟨_, heq⟩
    have hbrother : ∀ {z path}, follow h (h x).brother path = some z → z ∈ s.labels :=
      fun heq => hs.follow_iff.2 ⟨_, heq⟩
    -- the labels of the node, of its children and of its brothers are different
    match path, path' with
    | [], [] => rfl
    | [], .child :: _ => exact absurd (Option.some.inj hpath ▸ hchild hpath') hxc
    | [], .brother :: _ => exact absurd (Option.some.inj hpath ▸ hbrother hpath') hxs
    | .child :: _, [] => exact absurd (Option.some.inj hpath' ▸ hchild hpath) hxc
    | .brother :: _, [] => exact absurd (Option.some.inj hpath' ▸ hbrother hpath) hxs
    | .child :: _, .child :: _ => exact congrArg _ (ihc hc hcnodup hpath hpath')
    | .brother :: _, .brother :: _ => exact congrArg _ (ihs hs hsnodup hpath hpath')
    | .child :: _, .brother :: _ => exact absurd (hbrother hpath') (hdisjoint (hchild hpath))
    | .brother :: _, .child :: _ => exact absurd (hbrother hpath) (hdisjoint (hchild hpath'))

/-! ## Fathers and children -/

/-- `father` of the first node of a forest. -/
theorem Links.father_eq (hl : Links h (some y) up f) : (h y).father = up := by
  cases f with
  | nil => cases hl
  | node x c s =>
    obtain ⟨hx, hfather, -⟩ := hl
    rwa [Option.some.inj hx]

/-- `father` points one step back. -/
theorem Links.father_get (hl : Links h p up f) (hx : x ∈ f.labels) (d : Pointer)
    (hd : d.get (h x) = some y) : (h y).father = some x := by
  induction f generalizing p up with
  | nil => cases hx
  | node z c s ihc ihs =>
    obtain ⟨rfl, -, hc, hs⟩ := hl
    simp only [labels_node, List.mem_cons, List.mem_append] at hx
    rcases hx with rfl | hx | hx
    · cases d with
      | child =>
        have hchild : (h x).child = some y := hd
        rw [hchild] at hc
        exact hc.father_eq
      | brother =>
        have hbrother : (h x).brother = some y := hd
        rw [hbrother] at hs
        exact hs.father_eq
    · exact ihc hc hx
    · exact ihs hs hx

/-- One more brother. -/
theorem follow_brothers_snoc (n : ℕ) (hy : follow h p (List.replicate n .brother) = some x)
    (hz : (h x).brother = some y) : follow h p (List.replicate (n + 1) .brother) = some y := by
  induction n generalizing p with
  | zero =>
    obtain rfl : p = some x := hy
    exact hz
  | succ n ih =>
    cases p with
    | none => simp at hy
    | some z => exact ih hy

/-- A child is reached from the first child along the list of brothers. -/
theorem ChildOf.exists_follow (hy : ChildOf h x y) :
    ∃ n, follow h (h x).child (List.replicate n .brother) = some y := by
  induction hy with
  | first hy => exact ⟨0, hy⟩
  | next _ hz ih =>
    obtain ⟨n, hn⟩ := ih
    exact ⟨n + 1, follow_brothers_snoc n hn hz⟩

section Order

variable [LinearOrder T]

/-- All nodes on the list of brothers that starts at `p` have at least the value that bounds the
forest. -/
theorem Links.follow_brothers_le {low : T} (hl : Links h p up f)
    (habove : Above (fun x => (h x).value) low f) (n : ℕ)
    (hn : follow h p (List.replicate n .brother) = some y) : low ≤ (h y).value := by
  induction n generalizing p up f with
  | zero =>
    obtain rfl : p = some y := hn
    cases f with
    | nil => cases hl
    | node x c s =>
      obtain ⟨hx, -⟩ := hl
      obtain ⟨hle, -⟩ := habove
      rwa [Option.some.inj hx]
  | succ n ih =>
    cases f with
    | nil =>
      obtain rfl : p = none := hl
      simp at hn
    | node x c s =>
      obtain ⟨rfl, -, -, hs⟩ := hl
      exact ih hs habove.2.2 hn

/-- No child has a smaller value. -/
theorem Links.child_le {low : T} (hl : Links h p up f)
    (habove : Above (fun x => (h x).value) low f) (hx : x ∈ f.labels) (hy : ChildOf h x y) :
    (h x).value ≤ (h y).value := by
  induction f generalizing p up low with
  | nil => cases hx
  | node z c s ihc ihs =>
    obtain ⟨rfl, -, hc, hs⟩ := hl
    obtain ⟨-, habovec, haboves⟩ := habove
    simp only [labels_node, List.mem_cons, List.mem_append] at hx
    rcases hx with rfl | hx | hx
    · obtain ⟨n, hn⟩ := hy.exists_follow
      exact hc.follow_brothers_le habovec n hn
    · exact ihc hc habovec hx
    · exact ihs hs haboves hx

/-- A tree in the order of a heap. -/
theorem TreeAt.wellLinked {S : Finset ℕ} (ht : TreeAt h r c) (hS : ∀ x, x ∈ S ↔ x ∈ r :: c.labels) :
    WellLinked ⟨h, some r⟩ S := by
  have hlabels : ∀ x, x ∈ S ↔ x ∈ (Forest.node r c .nil).labels := by
    intro x
    simp [hS]
  have hnodup : (Forest.node r c .nil).labels.Nodup := by simpa using ht.nodup
  have habove : Above (fun x => (h x).value) (h r).value (.node r c .nil) :=
    ⟨le_rfl, ht.above, trivial⟩
  refine ⟨fun x => (hlabels x).trans ht.links.follow_iff, fun path path' x => ?_,
    fun x hx y => ht.links.child_le habove ((hlabels x).1 hx), ?_, ?_,
    fun x hx y => ht.links.father_get ((hlabels x).1 hx) .child,
    fun x hx y => ht.links.father_get ((hlabels x).1 hx) .brother⟩
  · exact ht.links.follow_unique hnodup
  · rintro _ ⟨⟩ x hx
    exact ht.le ((hS x).1 hx)
  · rintro _ ⟨⟩
    obtain ⟨-, hfather, -, hbrother⟩ := ht.links
    exact ⟨hfather, hbrother⟩

/-! ## Sequences of calls -/

variable {s s' : Session T} {call : Call T}

/-- As long as nothing is popped, the heap holds all nodes that were pushed. -/
theorem Session.held_eq_pushed (hheld : s.held = s.pushed) (hcall : call ≠ .pop)
    (hnext : s.next call = some s') : s'.held = s'.pushed := by
  unfold Session.next at hnext
  split_ifs at hnext
  cases call with
  | push node value =>
    obtain rfl := Option.some.inj hnext
    exact congrArg (insert node) hheld
  | update node value =>
    obtain ⟨t, -, ht⟩ := toOption_bind_eq_some.1 hnext
    obtain rfl := Option.some.inj ht
    exact hheld
  | pop => exact absurd rfl hcall

theorem Session.Inv.wellLinked (hinv : Session.Inv s) (hheld : s.held = s.pushed) :
    WellLinked s.tree s.pushed := by
  -- the invariant is about the nodes in the heap, which are all that were pushed
  obtain ⟨⟨nodes, root⟩, pushed, held⟩ := s
  obtain rfl : held = pushed := hheld
  rcases hinv.shape with ⟨hroot, hempty⟩ | ⟨r, c, hroot, htree, hmem⟩
  · simp only at hroot hempty
    subst hroot hempty
    constructor <;> simp
  · simp only at hroot hmem
    subst hroot
    exact htree.wellLinked hmem

/-- After any sequence of `push` and `update`, the tree consists of the nodes that were pushed, and
the next such call returns. -/
theorem run_wellLinked (nodes : PairNodes T) (calls : List (Call T)) (s : Session T)
    (hcalls : ∀ call ∈ calls, call ≠ .pop)
    (hrun : run Session.next (Session.init nodes) calls = some s) :
    WellLinked s.tree s.pushed ∧
      ∀ call, call ≠ .pop → s.Admits call → ∃ s', s.next call = some s' := by
  have hinv : (∀ call ∈ calls, call ≠ .pop) → Session.Inv s ∧ s.held = s.pushed := by
    refine run_invariant (P := fun calls s =>
      (∀ call ∈ calls, call ≠ .pop) → Session.Inv s ∧ s.held = s.pushed)
      (fun _ => ⟨Session.inv_init nodes, rfl⟩) (fun calls s call s' ih hnext hall => ?_) hrun
    obtain ⟨hinv, hheld⟩ := ih fun call hmem => hall call (List.mem_append_left _ hmem)
    have hcall := hall call (by simp)
    exact ⟨hinv.next hcall hnext, Session.held_eq_pushed hheld hcall hnext⟩
  obtain ⟨hinv, hheld⟩ := hinv hcalls
  refine ⟨hinv.wellLinked hheld, fun call _ hadmits => ?_⟩
  obtain ⟨s', hs'⟩ := hinv.correct.returns call hadmits
  exact ⟨s', by rw [Session.next, if_pos hadmits, hs']; rfl⟩

theorem run_wellLinked_three :
    ∃ s, run Session.next (Session.init fun _ => ⟨(0 : ℤ), none, none, none⟩)
        [.push 0 3, .push 1 5, .update 1 2] = some s ∧ s.tree.root = some 1 ∧
      WellLinked s.tree s.pushed := by
  obtain ⟨s, hrun, hroot⟩ : ∃ s, run Session.next
      (Session.init fun _ => ⟨(0 : ℤ), none, none, none⟩)
      [.push 0 3, .push 1 5, .update 1 2] = some s ∧ s.tree.root = some 1 := ⟨_, rfl, rfl⟩
  exact ⟨s, hrun, hroot, (run_wellLinked _ _ s (by simp) hrun).1⟩

end Order

end CppLearn.PairTree

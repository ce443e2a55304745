import CppLearn.PairTree.Represents

/-!
# Merging a list of trees

`_merges` takes two trees from the front of a list, merges the other ones by a call of itself, and
then the two results. What the roots of the list have as `father` does not matter. The trees of the
list have no nodes in common, so the two arguments of the last `_merge` can be evaluated in either
order.

`Trees` says that the nodes are linked as a list of trees, each in the order of a heap, and
`OneTree` that some nodes are linked as one tree. The two trees in front can be taken off
(`Trees.split`) and merged (`OneTree.merge`). By induction the list becomes one tree
(`Trees.unites`); `merges_oneTree` says so for both orders of evaluation, the other one being
`mergesPairFirst`.
-/

namespace CppLearn.PairTree

open BoundedLoop Forest

variable {T : Type} {h h' : PairNodes T} {p q : Option ℕ} {f c d s : Forest ℕ} {x y : ℕ}
  {l l' : List ℕ}

/-- The nodes before the calls in `_merges`. -/
def splitPair (h : PairNodes T) (root brother : ℕ) : PairNodes T :=
  (((h.setFather root none).setFather brother none).setBrother brother none).setBrother root none

/-- Splitting a pair off changes no other node, -/
theorem splitPair_of_ne {z : ℕ} (hx : z ≠ x) (hy : z ≠ y) : splitPair h x y z = h z := by
  simp [splitPair, PairNodes.setBrother, PairNodes.setFather, hx, hy]

/-- and no value. -/
theorem value_splitPair (h : PairNodes T) (x y z : ℕ) :
    (splitPair h x y z).value = (h z).value := by
  simp [splitPair]

variable [LinearOrder T]

/-- The nodes from `p` on are linked as the trees of `f`, one the brother of the other, and in each
tree no node is smaller than the one above it. -/
def Trees (h : PairNodes T) : Option ℕ → Forest ℕ → Prop
  | p, .nil => p = none
  | p, .node x c s => p = some x ∧ Links h (h x).child (some x) c ∧
      Above (fun y => (h y).value) (h x).value c ∧ Trees h (h x).brother s

/-- Only the nodes of the trees matter, -/
theorem Trees.congr (ht : Trees h p f) (heq : ∀ x ∈ f.labels, h' x = h x) : Trees h' p f := by
  induction f generalizing p with
  | nil => exact ht
  | node x c s _ ihs =>
    obtain ⟨rfl, hc, habove, hs⟩ := ht
    simp only [labels_node, List.mem_cons, List.mem_append] at heq
    have hx := heq x (.inl rfl)
    have hbelow : ∀ y ∈ c.labels, h' y = h y := fun y hy => heq y (.inr (.inl hy))
    refine ⟨rfl, ?_, ?_, ?_⟩ <;> rw [hx]
    · exact hc.congr fun y hy => .of_eq (hbelow y hy)
    · exact habove.congr fun y hy => congrArg PairNode.value (hbelow y hy)
    · exact ihs hs fun y hy => heq y (.inr (.inr hy))

/-- The nodes `l` are linked as one tree with this root, or there are none. -/
def OneTree (h : PairNodes T) (root : Option ℕ) (l : List ℕ) : Prop :=
  (root = none ∧ l = []) ∨ ∃ r c, root = some r ∧ TreeAt h r c ∧ (r :: c.labels).Perm l

/-- and those of a tree, -/
theorem OneTree.congr (ht : OneTree h p l) (heq : ∀ x ∈ l, h' x = h x) : OneTree h' p l := by
  rcases ht with hempty | ⟨r, c, hr, htree, hperm⟩
  · exact .inl hempty
  · exact .inr ⟨r, c, hr, htree.congr fun x hx => heq x (hperm.mem_iff.1 hx), hperm⟩

/-- Two trees become one, and the other nodes are not touched. -/
theorem OneTree.merge (hp : OneTree h p l) (hq : OneTree h q l') (hdisjoint : l.Disjoint l') :
    ∃ root h', merge h p q = (root, h') ∧ OneTree h' root (l ++ l') ∧
      (∀ y, (h' y).value = (h y).value) ∧ ∀ y ∉ l ++ l', h' y = h y := by
  rcases hp with ⟨rfl, rfl⟩ | ⟨a, ca, rfl, hta, hla⟩
  · exact ⟨q, h, rfl, hq, fun _ => rfl, fun _ _ => rfl⟩
  rcases hq with ⟨rfl, rfl⟩ | ⟨b, cb, rfl, htb, hlb⟩
  · refine ⟨some a, h, rfl, .inr ⟨a, ca, rfl, hta, ?_⟩, fun _ => rfl, fun _ _ => rfl⟩
    rwa [List.append_nil]
  have hdisjoint' : (a :: ca.labels).Disjoint (b :: cb.labels) := fun y hya hyb =>
    hdisjoint (hla.mem_iff.1 hya) (hlb.mem_iff.1 hyb)
  obtain ⟨r, c, h', hmerge, htree, hperm, hvalue, hframe⟩ := hta.merge htb hdisjoint'
  refine ⟨some r, h', hmerge, .inr ⟨r, c, rfl, htree, hperm.trans (hla.append hlb)⟩, hvalue,
    fun y hy => ?_⟩
  rw [List.mem_append, not_or] at hy
  exact hframe y (fun hya => hy.1 (hla.mem_iff.1 hya)) fun hyb => hy.2 (hlb.mem_iff.1 hyb)

/-- in any order. -/
theorem OneTree.perm (ht : OneTree h p l) (hperm : l.Perm l') : OneTree h p l' := by
  rcases ht with ⟨hp, rfl⟩ | ⟨r, c, hr, htree, hl⟩
  · exact .inl ⟨hp, List.nil_perm.1 hperm⟩
  · exact .inr ⟨r, c, hr, htree, hl.trans hperm⟩

/-! ## Splitting a list -/

/-- A tree that is cut off from its brothers. -/
theorem Trees.cut (ht : Trees h (some x) (.node x c s)) (hnodup : (x :: c.labels).Nodup)
    (hx : h' x = { h x with brother := none, father := none })
    (hc : ∀ y ∈ c.labels, h' y = h y) : OneTree h' (some x) (x :: c.labels) := by
  obtain ⟨-, hlinks, habove, -⟩ := ht
  refine .inr ⟨x, c, rfl, ⟨⟨rfl, ?_, ?_, ?_⟩, hnodup, ?_⟩, .refl _⟩ <;> rw [hx]
  · exact hlinks.congr fun y hy => .of_eq (hc y hy)
  · exact rfl
  · exact habove.congr fun y hy => congrArg PairNode.value (hc y hy)

/-- The first two trees are cut off from each other, and from the others. -/
theorem Trees.split (ht : Trees h p (.node x c (.node y d s)))
    (hnodup : (Forest.node x c (.node y d s)).labels.Nodup) :
    OneTree (splitPair h x y) (some x) (x :: c.labels) ∧
      OneTree (splitPair h x y) (some y) (y :: d.labels) ∧
      Trees (splitPair h x y) (h y).brother s := by
  simp only [labels_node, List.nodup_cons, List.mem_append, List.mem_cons, not_or,
    List.nodup_append', List.disjoint_cons_right, List.disjoint_append_right] at hnodup
  obtain ⟨⟨hxc, hxy, hxd, hxs⟩, hc, ⟨⟨hyd, hys⟩, hd, -, -⟩, hyc, -, -⟩ := hnodup
  obtain ⟨rfl, htx⟩ := ht
  obtain ⟨hbrother, hty⟩ := htx.2.2
  have hne {z : ℕ} {f : Forest ℕ} (hz : z ∈ f.labels) (hx : x ∉ f.labels) (hy : y ∉ f.labels) :
      splitPair h x y z = h z :=
    splitPair_of_ne (ne_of_mem_of_not_mem hz hx) (ne_of_mem_of_not_mem hz hy)
  refine ⟨Trees.cut ⟨rfl, htx⟩ (List.nodup_cons.2 ⟨hxc, hc⟩) ?_ fun z hz => hne hz hxc hyc,
    Trees.cut ⟨rfl, hty⟩ (List.nodup_cons.2 ⟨hyd, hd⟩) ?_ fun z hz => hne hz hxd hyd,
    hty.2.2.congr fun z hz => hne hz hxs hys⟩
  · simp [splitPair, PairNodes.setBrother, PairNodes.setFather, hxy]
  · simp [splitPair, PairNodes.setBrother, PairNodes.setFather, Ne.symm hxy]

/-! ## The recursion -/

/-- `_merges`, if the second argument of the last `_merge` is evaluated first. -/
def mergesPairFirst : ℕ → PairNodes T → Option ℕ → Except Fault (Option ℕ × PairNodes T)
  | 0, _, _ => .error .diverged
  | _ + 1, h, none => .ok (none, h)
  | fuel + 1, h, some root => do
    let h := h.setFather root none
    match (h root).brother with
    | none => .ok (some root, h)
    | some brother =>
      let nextBrother := (h brother).brother
      let h := h.setFather brother none
      let h := (h.setBrother brother none).setBrother root none
      let (b, h) := merge h (some root) (some brother)
      let (a, h) ← mergesPairFirst fuel h nextBrother
      .ok (merge h a b)

/-- The result is one tree of the nodes `l`. Values and other nodes are left alone. -/
def Unites (h : PairNodes T) (l : List ℕ) (result : Except Fault (Option ℕ × PairNodes T)) : Prop :=
  ∃ root h', result = .ok (root, h') ∧ OneTree h' root l ∧ (∀ y, (h' y).value = (h y).value) ∧
    ∀ y ∉ l, h' y = h y

/-- No tree. -/
theorem unites_nil (h : PairNodes T) : Unites h [] (.ok (none, h)) :=
  ⟨none, h, rfl, .inl ⟨rfl, rfl⟩, fun _ => rfl, fun _ _ => rfl⟩

/-- One tree, which gets a null father. -/
theorem Trees.unites_single (ht : Trees h (some x) (.node x c .nil))
    (hnodup : (x :: c.labels).Nodup) :
    Unites h (x :: c.labels) (.ok (some x, h.setFather x none)) := by
  have hbrother : (h x).brother = none := ht.2.2.2
  have hother : ∀ y, y ≠ x → h.setFather x none y = h y := fun y hy => Function.update_of_ne hy ..
  refine ⟨some x, _, rfl, ht.cut hnodup ?_ fun y hy => ?_, fun y => value_setFather none,
    fun y hy => hother y (List.ne_of_not_mem_cons hy)⟩
  · simp [PairNodes.setFather, hbrother]
  · exact hother y (ne_of_mem_of_not_mem hy (List.nodup_cons.1 hnodup).1)

section Pair

variable {g : PairNodes T → Except Fault (Option ℕ × PairNodes T)} {l₁ l₂ l₃ : List ℕ}

/-- Two trees and the others, where the others come first. -/
theorem unites_rest_first (hp : OneTree h p l₁) (hq : OneTree h q l₂) (hrest : Unites h l₃ (g h))
    (h12 : l₁.Disjoint l₂) (h13 : l₁.Disjoint l₃) (h23 : l₂.Disjoint l₃) :
    Unites h (l₁ ++ (l₂ ++ l₃)) (do
      let (a, h) ← g h
      let (b, h) := merge h p q
      .ok (merge h a b)) := by
  obtain ⟨a, h₁, hrun, hta, hvalue₁, hframe₁⟩ := hrest
  have hp₁ := hp.congr fun z hz => hframe₁ z (h13 hz)
  have hq₁ := hq.congr fun z hz => hframe₁ z (h23 hz)
  obtain ⟨b, h₂, hb, htb, hvalue₂, hframe₂⟩ := hp₁.merge hq₁ h12
  have h312 : l₃.Disjoint (l₁ ++ l₂) :=
    List.disjoint_append_right.2 ⟨h13.symm, h23.symm⟩
  have hta₂ := hta.congr fun z hz => hframe₂ z (h312 hz)
  obtain ⟨root, h₃, hroot, htree, hvalue₃, hframe₃⟩ := hta₂.merge htb h312
  refine ⟨root, h₃, ?_, htree.perm ?_, fun z => ?_, fun z hz => ?_⟩
  · simp only [hrun, hb, hroot, bind, Except.bind]
  · rw [← List.append_assoc l₁]
    exact List.perm_append_comm
  · rw [hvalue₃, hvalue₂, hvalue₁]
  · simp only [List.mem_append, not_or] at hz
    rw [hframe₃ z (by simp [hz]), hframe₂ z (by simp [hz]), hframe₁ z hz.2.2]

/-- Two trees and the others, where the two trees come first. -/
theorem unites_pair_first (hp : OneTree h p l₁) (hq : OneTree h q l₂)
    (hrest : ∀ h', (∀ z ∈ l₃, h' z = h z) → Unites h' l₃ (g h'))
    (h12 : l₁.Disjoint l₂) (h13 : l₁.Disjoint l₃) (h23 : l₂.Disjoint l₃) :
    Unites h (l₁ ++ (l₂ ++ l₃)) (do
      let (b, h) := merge h p q
      let (a, h) ← g h
      .ok (merge h a b)) := by
  obtain ⟨b, h₁, hb, htb, hvalue₁, hframe₁⟩ := hp.merge hq h12
  have h312 : l₃.Disjoint (l₁ ++ l₂) :=
    List.disjoint_append_right.2 ⟨h13.symm, h23.symm⟩
  obtain ⟨a, h₂, hrun, hta, hvalue₂, hframe₂⟩ := hrest h₁ fun z hz => hframe₁ z (h312 hz)
  have htb₂ := htb.congr fun z hz => hframe₂ z (h312.symm hz)
  obtain ⟨root, h₃, hroot, htree, hvalue₃, hframe₃⟩ := hta.merge htb₂ h312
  refine ⟨root, h₃, ?_, htree.perm ?_, fun z => ?_, fun z hz => ?_⟩
  · simp only [hrun, hb, hroot, bind, Except.bind]
  · rw [← List.append_assoc l₁]
    exact List.perm_append_comm
  · rw [hvalue₃, hvalue₂, hvalue₁]
  · simp only [List.mem_append, not_or] at hz
    rw [hframe₃ z (by simp [hz]), hframe₂ z hz.2.2, hframe₁ z (by simp [hz])]

end Pair

/-- The nodes were changed before, but not their values, and only nodes of the trees. -/
theorem Unites.of_eq {result : Except Fault (Option ℕ × PairNodes T)} (hu : Unites h' l result)
    (hvalue : ∀ y, (h' y).value = (h y).value) (hframe : ∀ y ∉ l, h' y = h y) :
    Unites h l result := by
  obtain ⟨root, h₁, hrun, htree, hvalue₁, hframe₁⟩ := hu
  exact ⟨root, h₁, hrun, htree, fun y => (hvalue₁ y).trans (hvalue y),
    fun y hy => (hframe₁ y hy).trans (hframe y hy)⟩

/-- With a depth of one more than the number of pairs of trees, the trees become one, in either
order of evaluation. -/
theorem Trees.unites {fuel : ℕ} (ht : Trees h p f) (hnodup : f.labels.Nodup)
    (hfuel : f.roots.length / 2 < fuel) :
    Unites h f.labels (merges fuel h p) ∧ Unites h f.labels (mergesPairFirst fuel h p) := by
  induction fuel generalizing h p f with
  | zero => omega
  | succ fuel ih =>
    -- no tree, one tree, or two trees in front of others
    match f with
    | .nil =>
      obtain rfl := ht
      exact ⟨unites_nil h, unites_nil h⟩
    | .node x c .nil =>
      obtain ⟨rfl, htx⟩ := ht
      have hbrother : (h.setFather x none x).brother = none := by
        have hnone : (h x).brother = none := htx.2.2
        simpa [PairNodes.setFather] using hnone
      rw [labels_node, labels_nil, List.append_nil] at hnodup ⊢
      simp only [merges, mergesPairFirst, hbrother]
      exact ⟨Trees.unites_single ⟨rfl, htx⟩ hnodup, Trees.unites_single ⟨rfl, htx⟩ hnodup⟩
    | .node x c (.node y d s) =>
      obtain ⟨hx, hy, hs⟩ := ht.split hnodup
      obtain ⟨rfl, -, -, hbrother, -⟩ := ht
      have hlabels : (Forest.node x c (.node y d s)).labels =
          (x :: c.labels) ++ ((y :: d.labels) ++ s.labels) := by simp
      rw [hlabels] at hnodup ⊢
      obtain ⟨-, hnodup', h1⟩ := List.nodup_append'.1 hnodup
      obtain ⟨-, hsnodup, h23⟩ := List.nodup_append'.1 hnodup'
      obtain ⟨h12, h13⟩ := List.disjoint_append_right.1 h1
      have hyx : y ≠ x := fun heq => h12 List.mem_cons_self (heq ▸ List.mem_cons_self)
      have hbrother' : (h.setFather x none x).brother = some y := by
        simpa [PairNodes.setFather] using hbrother
      have hnext : (h.setFather x none y).brother = (h y).brother := by
        simp [PairNodes.setFather, hyx]
      -- the other trees may be merged before or after the pair, as no node is in both
      have hrest : ∀ h', (∀ z ∈ s.labels, h' z = splitPair h x y z) →
          Unites h' s.labels (merges fuel h' (h y).brother) ∧
            Unites h' s.labels (mergesPairFirst fuel h' (h y).brother) := fun h' hh' => by
        refine ih (hs.congr hh') hsnodup ?_
        simp only [roots, List.length_cons] at hfuel
        omega
      have hframe : ∀ z ∉ (x :: c.labels) ++ ((y :: d.labels) ++ s.labels),
          splitPair h x y z = h z := fun z hz => by
        simp only [List.mem_append, List.mem_cons, not_or] at hz
        exact splitPair_of_ne hz.1.1 hz.2.1.1
      constructor
      · have hunites := unites_rest_first (g := fun h' => merges fuel h' (h y).brother) hx hy
          (hrest _ fun _ _ => rfl).1 h12 h13 h23
        simp only [merges, hbrother', hnext]
        exact hunites.of_eq (value_splitPair h x y) hframe
      · have hunites := unites_pair_first (g := fun h' => mergesPairFirst fuel h' (h y).brother) hx
          hy (fun h' hh' => (hrest h' hh').2) h12 h13 h23
        simp only [mergesPairFirst, hbrother', hnext]
        exact hunites.of_eq (value_splitPair h x y) hframe

/-- `_merges` of a list of trees returns null for an empty list, and otherwise the root of one tree
of all their nodes, which is in the order of a heap, has null pointers to a brother and a father,
and has a smallest value at the root. The order of evaluation does not matter. -/
theorem merges_oneTree (h : PairNodes T) (first : Option ℕ) (f : Forest ℕ) (ht : Trees h first f)
    (hnodup : f.labels.Nodup) (fuel : ℕ) (hfuel : f.roots.length / 2 < fuel) :
    ∀ run ∈ [merges, mergesPairFirst], ∃ root h', run fuel h first = .ok (root, h') ∧
      (∀ x, (h' x).value = (h x).value) ∧ (∀ x ∉ f.labels, h' x = h x) ∧
      ((root = none ∧ f = .nil) ∨ ∃ r c, root = some r ∧ TreeAt h' r c ∧
        (h' r).brother = none ∧ (h' r).father = none ∧ (r :: c.labels).Perm f.labels ∧
        ∀ x ∈ f.labels, (h r).value ≤ (h x).value) := by
  have hunites : ∀ run ∈ [merges, mergesPairFirst], Unites h f.labels (run fuel h first) := by
    have hboth := ht.unites hnodup hfuel
    simpa using hboth
  intro run hrun
  obtain ⟨root, h', hret, htree, hvalue, hframe⟩ := hunites run hrun
  refine ⟨root, h', hret, hvalue, hframe, ?_⟩
  rcases htree with ⟨rfl, hnil⟩ | ⟨r, c, rfl, htree, hperm⟩
  · cases f with
    | nil => exact .inl ⟨rfl, rfl⟩
    | node x c s => exact absurd hnil (List.cons_ne_nil _ _)
  · refine .inr ⟨r, c, rfl, htree, htree.links.2.2.2, htree.links.2.1, hperm, fun x hx => ?_⟩
    rw [← hvalue, ← hvalue]
    exact htree.le (hperm.mem_iff.2 hx)

/-- Three trees, the second one with a node below its root. -/
def threeTrees : PairNodes ℕ
  | 1 => ⟨5, none, some 2, none⟩
  | 2 => ⟨3, some 4, some 3, some 1⟩
  | 3 => ⟨7, none, none, some 2⟩
  | 4 => ⟨6, none, none, some 2⟩
  | _ => ⟨0, none, none, none⟩

/-- What both orders of evaluation make of the three trees. -/
def OneOfThree (r : Except Fault (Option ℕ × PairNodes ℕ)) : Prop :=
  ∃ root c h', r = .ok (some root, h') ∧ TreeAt h' root c ∧ (root :: c.labels).Perm [1, 2, 4, 3]

/-- Three trees of one node each. -/
theorem merges_oneTree_three :
    OneOfThree (merges 2 threeTrees (some 1)) ∧
      OneOfThree (mergesPairFirst 2 threeTrees (some 1)) := by
  have htrees : Trees threeTrees (some 1)
      (.node 1 .nil (.node 2 (.node 4 .nil .nil) (.node 3 .nil .nil))) :=
    ⟨rfl, rfl, trivial, rfl, ⟨rfl, rfl, rfl, rfl⟩, ⟨by decide, trivial, trivial⟩, rfl, rfl, trivial,
      rfl⟩
  have hboth : ∀ run ∈ [merges, mergesPairFirst], OneOfThree (run 2 threeTrees (some 1)) := by
    intro run hrun
    obtain ⟨_, h', hret, -, -, ⟨-, hnil⟩ | ⟨r, c, rfl, htree, -, -, hperm, -⟩⟩ :=
      merges_oneTree threeTrees (some 1) _ htrees (by decide) 2 (by decide) run hrun
    · exact nomatch hnil
    · exact ⟨r, c, h', hret, htree, hperm⟩
  exact ⟨hboth _ (.head _), hboth _ (.tail _ (.head _))⟩

end CppLearn.PairTree

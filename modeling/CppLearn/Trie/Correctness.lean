import CppLearn.Trie.Defs
import Mathlib.Data.List.Induction
import Mathlib.Data.List.Infix

/-!
# A trie is a set of words

Every node is reached from the root by exactly one string. The invariant describes a trie by the
strings that lead to a node and by those that lead to a marked one. An insertion adds the prefixes
of the word to the former, one after the other, and the word itself to the latter; all other
strings lead where they did.

`Trie.locate` is the node that a string leads to, and the invariant is `Trie.Holds`. A new node and
a new mark are `Trie.Holds.grow` and `Trie.Holds.mark`, and an insertion consists of these
(`Trie.Holds.insert`). What is found after any sequence of insertions is `Trie.run_correct`.
-/

namespace CppLearn.Trie

open BoundedLoop

variable {χ : Type} {t : Trie χ} {p q : ℕ} {s u : List χ} {ch : χ} {n : TrieNode χ}

/-- The child of a node, if there is one. -/
def child (t : Trie χ) (p : ℕ) (ch : χ) : Option ℕ := t.nodes[p]?.bind (·.children ch)

/-- The node that a string leads to. -/
def locate (t : Trie χ) (s : List χ) : Option ℕ := s.foldlM t.child t.root

/-- The strings in `paths` lead to different nodes, and those in `words` to marked ones. -/
structure Holds (t : Trie χ) (paths words : List χ → Prop) : Prop where
  /-- These strings lead to nodes. -/
  path_iff : ∀ s, (∃ p, t.locate s = some p) ↔ paths s
  /-- No two strings lead to the same node. -/
  injective : ∀ s s' p, t.locate s = some p → t.locate s' = some p → s = s'
  /-- The nodes exist, and the marks are those of the words. -/
  marks : ∀ s p, t.locate s = some p → ∃ n, t.nodes[p]? = some n ∧ (n.isEnd = true ↔ words s)
  /-- All words lead to nodes. -/
  path_of_word : ∀ s, words s → paths s

/-- The empty word leads to the root. -/
theorem locate_nil : t.locate [] = some t.root := rfl

/-- One more character leads to a child. -/
theorem locate_concat : t.locate (s ++ [ch]) = (t.locate s).bind (t.child · ch) := by
  rw [locate, List.foldlM_append, ← locate]
  cases t.locate s <;> simp [bind]

/-- Nodes that exist can be read, -/
theorem read_eq (h : t.nodes[p]? = some n) : t.read p = .ok n := by
  simp only [read, h]

/-- and changed, -/
theorem modify_eq (h : t.nodes[p]? = some n) (f : TrieNode χ → TrieNode χ) :
    t.modify p f = .ok { t with nodes := t.nodes.set p (f n) } := by
  simp only [modify, read_eq h, bind, Except.bind]

/-- and their children can be followed. -/
theorem child_eq (h : t.nodes[p]? = some n) : t.child p ch = n.children ch := by
  rw [child, h, Option.bind_some]

section Steps

variable {paths words : List χ → Prop}

/-- The constructor. -/
theorem holds_create : Holds (create : Trie χ) (· = []) (fun _ => False) := by
  -- nothing but the empty string leads to a node
  have hlocate : ∀ s p, (create : Trie χ).locate s = some p → s = [] ∧ p = 0 := by
    intro s
    induction s using List.reverseRecOn with
    | nil =>
      intro p hp
      exact ⟨rfl, (Option.some.inj hp).symm⟩
    | append_singleton s ch ih =>
      intro p hp
      rw [locate_concat, Option.bind_eq_some_iff] at hp
      obtain ⟨q, hq, hchild⟩ := hp
      obtain ⟨-, rfl⟩ := ih q hq
      cases hchild
  refine ⟨fun s => ⟨?_, ?_⟩, fun s s' p hs hs' => ?_, fun s p hs => ?_, fun s hs => hs.elim⟩
  · rintro ⟨p, hp⟩
    exact (hlocate s p hp).1
  · rintro rfl
    exact ⟨0, rfl⟩
  · rw [(hlocate s p hs).1, (hlocate s' p hs').1]
  · obtain ⟨-, rfl⟩ := hlocate s p hs
    exact ⟨.create, rfl, by simp [TrieNode.create]⟩

/-- The sets of words may be described differently. -/
theorem Holds.congr {paths' words' : List χ → Prop} (h : Holds t paths words)
    (hpaths : ∀ s, paths s ↔ paths' s) (hwords : ∀ s, words s ↔ words' s) :
    Holds t paths' words' := by
  obtain rfl : paths = paths' := funext fun s => propext (hpaths s)
  obtain rfl : words = words' := funext fun s => propext (hwords s)
  exact h

/-- Words lead to nodes that exist. -/
theorem Holds.lt_length (h : Holds t paths words) (hs : t.locate s = some p) :
    p < t.nodes.length := by
  obtain ⟨n, hn, -⟩ := h.marks s p hs
  exact (List.getElem?_eq_some_iff.1 hn).1

/-! ## A new mark -/

/-- The end of a word is marked. -/
theorem Holds.mark (h : Holds t paths words) (hs : t.locate s = some p)
    (hn : t.nodes[p]? = some n) :
    Holds { t with nodes := t.nodes.set p n.setEnd } paths (fun u => words u ∨ u = s) := by
  have hlt := h.lt_length hs
  -- only the mark of `p` changes, and no child
  have hchild : ({ t with nodes := t.nodes.set p n.setEnd } : Trie χ).child = t.child := by
    ext q ch' r
    by_cases hqp : q = p
    · subst hqp
      rw [child_eq (List.getElem?_set_self hlt), child_eq hn]
      rfl
    · rw [child, child, List.getElem?_set_ne (Ne.symm hqp)]
  have hlocate : ({ t with nodes := t.nodes.set p n.setEnd } : Trie χ).locate = t.locate := by
    ext u q
    rw [locate, locate, hchild]
  refine ⟨fun u => ?_, fun u u' q => ?_, fun u q hu => ?_, ?_⟩
  · rw [hlocate]
    exact h.path_iff u
  · rw [hlocate]
    exact h.injective u u' q
  · rw [hlocate] at hu
    obtain ⟨m, hm, hmark⟩ := h.marks u q hu
    -- the node of `u` is `p` exactly if `u` is the inserted string
    by_cases hqp : q = p
    · subst hqp
      refine ⟨n.setEnd, List.getElem?_set_self hlt, ?_⟩
      simp [TrieNode.setEnd, h.injective u s q hu hs]
    · refine ⟨m, by rw [List.getElem?_set_ne (Ne.symm hqp), hm], ?_⟩
      have hne : u ≠ s := by
        rintro rfl
        exact hqp (Option.some.inj (hu.symm.trans hs))
      simp [hmark, hne]
  · rintro u (hu | rfl)
    · exact h.path_of_word u hu
    · exact (h.path_iff u).1 ⟨p, hs⟩

/-! ## A new node -/

variable [DecidableEq χ]

/-- The trie after `tmp->children[ch] = new Node()`, where `n` is the node at `tmp`. -/
def grow (t : Trie χ) (p : ℕ) (n : TrieNode χ) (ch : χ) : Trie χ :=
  { t with nodes := (t.nodes ++ [TrieNode.create]).set p (n.setChild ch t.nodes.length) }

/-- A character for which there is a child, -/
theorem insertStep_some (hn : t.nodes[p]? = some n) (hq : n.children ch = some q) :
    insertStep (t, p) ch = .ok (t, q) := by
  simp only [insertStep, read_eq hn, bind, Except.bind, hq]

/-- and one for which a new node is made. -/
theorem insertStep_none (hn : t.nodes[p]? = some n) (hq : n.children ch = none) :
    insertStep (t, p) ch = .ok (t.grow p n ch, t.nodes.length) := by
  have hlt := (List.getElem?_eq_some_iff.1 hn).1
  have hn' : (t.nodes ++ [TrieNode.create])[p]? = some n := by
    rw [List.getElem?_append_left hlt, hn]
  have hmodify : modify { t with nodes := t.nodes ++ [.create] } p
      (·.setChild ch t.nodes.length) = .ok (t.grow p n ch) := modify_eq hn' _
  simp only [insertStep, read_eq hn, bind, Except.bind, hq, alloc, hmodify]

/-- The pointers afterwards. -/
theorem child_grow (hn : t.nodes[p]? = some n) (q : ℕ) (hq : q ≤ t.nodes.length) (ch' : χ) :
    (t.grow p n ch).child q ch' =
      if q = p ∧ ch' = ch then some t.nodes.length else t.child q ch' := by
  have hlt := (List.getElem?_eq_some_iff.1 hn).1
  by_cases hqp : q = p
  · subst hqp
    have hcell : (t.grow q n ch).nodes[q]? = some (n.setChild ch t.nodes.length) := by
      rw [grow, List.getElem?_set_self (by rw [List.length_append]; omega)]
    rw [child_eq hcell, child_eq hn]
    simp [TrieNode.setChild, Function.update_apply]
  · have hcell : (t.grow p n ch).nodes[q]? = (t.nodes ++ [TrieNode.create])[q]? :=
      List.getElem?_set_ne (Ne.symm hqp)
    rw [if_neg fun hand => hqp hand.1, child, child, hcell]
    rcases hq.lt_or_eq with hq | rfl
    · rw [List.getElem?_append_left hq]
    · rw [List.getElem?_concat_length, List.getElem?_eq_none le_rfl]
      rfl

/-- Only the string for the new node leads to another place than before. -/
theorem Holds.locate_grow (h : Holds t paths words) (hs : t.locate s = some p)
    (hn : t.nodes[p]? = some n) (hch : n.children ch = none) (u : List χ) :
    (t.grow p n ch).locate u = if u = s ++ [ch] then some t.nodes.length else t.locate u := by
  have hnew : t.locate (s ++ [ch]) = none := by
    rw [locate_concat, hs, Option.bind_some, child_eq hn, hch]
  induction u using List.reverseRecOn with
  | nil =>
    rw [if_neg (by simp)]
    rfl
  | append_singleton u d ih =>
    rw [locate_concat, ih]
    by_cases hu : u = s ++ [ch]
    · -- the new node has no children
      subst hu
      rw [if_pos rfl, if_neg (by simp), Option.bind_some, child_grow hn _ le_rfl,
        if_neg fun hand => (h.lt_length hs).ne' hand.1, locate_concat, hnew]
      simp [child]
    rw [if_neg hu, locate_concat]
    cases hq : t.locate u with
    | none =>
      have hne : u ++ [d] ≠ s ++ [ch] := by
        intro heq
        rw [(List.append_inj' heq rfl).1, hs] at hq
        cases hq
      rw [if_neg hne]
      rfl
    | some q =>
      rw [Option.bind_some, Option.bind_some, child_grow hn q (h.lt_length hq).le]
      refine if_congr ?_ rfl rfl
      constructor
      · rintro ⟨rfl, rfl⟩
        rw [h.injective u s q hq hs]
      · intro heq
        obtain ⟨rfl, hd⟩ := List.append_inj' heq rfl
        exact ⟨Option.some.inj (hq.symm.trans hs), List.singleton_inj.1 hd⟩

/-- One more node. -/
theorem Holds.grow (h : Holds t paths words) (hs : t.locate s = some p)
    (hn : t.nodes[p]? = some n) (hch : n.children ch = none) :
    Holds (t.grow p n ch) (fun u => paths u ∨ u = s ++ [ch]) words := by
  have hlocate := h.locate_grow hs hn hch
  have hnotpath : ¬paths (s ++ [ch]) := by
    rw [← h.path_iff]
    rintro ⟨q, hq⟩
    rw [locate_concat, hs, Option.bind_some, child_eq hn, hch] at hq
    cases hq
  refine ⟨fun u => ?_, fun u u' q hu hu' => ?_, fun u q hu => ?_, fun u hu =>
    .inl (h.path_of_word u hu)⟩
  · rw [hlocate, ← h.path_iff u]
    by_cases heq : u = s ++ [ch] <;> simp [heq]
  · rw [hlocate] at hu hu'
    split_ifs at hu hu' with heq heq' heq'
    · rw [heq, heq']
    · exact absurd (Option.some.inj hu) (h.lt_length hu').ne'
    · exact absurd (Option.some.inj hu') (h.lt_length hu).ne'
    · exact h.injective u u' q hu hu'
  · rw [hlocate] at hu
    have hlt := h.lt_length hs
    split_ifs at hu with heq
    · -- the new node is not marked
      obtain rfl := Option.some.inj hu
      refine ⟨.create, ?_, ?_⟩
      · rw [Trie.grow, List.getElem?_set_ne hlt.ne, List.getElem?_concat_length]
      · have hword : ¬words u := fun hu => hnotpath (heq ▸ h.path_of_word u hu)
        simp [TrieNode.create, hword]
    · obtain ⟨m, hm, hmark⟩ := h.marks u q hu
      by_cases hqp : q = p
      · subst hqp
        obtain rfl := Option.some.inj (hm.symm.trans hn)
        refine ⟨m.setChild ch t.nodes.length, ?_, hmark⟩
        rw [Trie.grow, List.getElem?_set_self (by rw [List.length_append]; omega)]
      · refine ⟨m, ?_, hmark⟩
        rw [Trie.grow, List.getElem?_set_ne (Ne.symm hqp),
          List.getElem?_append_left (h.lt_length hu), hm]

/-- One more character: its node is there, or it is created. -/
theorem Holds.insertCharacter (h : Holds t paths words) (hu : t.locate u = some p) (ch : χ) :
    ∃ t₁ q, insertStep (t, p) ch = .ok (t₁, q) ∧ t₁.locate (u ++ [ch]) = some q ∧
      Holds t₁ (fun x => paths x ∨ x = u ++ [ch]) words := by
  obtain ⟨n, hn, -⟩ := h.marks u p hu
  cases hq : n.children ch with
  | some q =>
    have hlocate : t.locate (u ++ [ch]) = some q := by
      rw [locate_concat, hu, Option.bind_some, child_eq hn, hq]
    refine ⟨t, q, insertStep_some hn hq, hlocate, h.congr (fun x => ?_) fun _ => .rfl⟩
    rw [iff_self_or]
    rintro rfl
    exact (h.path_iff _).1 ⟨q, hlocate⟩
  | none =>
    refine ⟨_, _, insertStep_none hn hq, ?_, h.grow hu hn hq⟩
    rw [h.locate_grow hu hn hq, if_pos rfl]

/-- The loop of `insert` adds the nodes that are missing on the way. -/
theorem Holds.insertLoop (h : Holds t paths words) (hu : t.locate u = some p) (s : List χ) :
    ∃ t' p', s.foldlM insertStep (t, p) = .ok (t', p') ∧ t'.locate (u ++ s) = some p' ∧
      Holds t' (fun x => paths x ∨ ∃ y, y <+: s ∧ x = u ++ y) words := by
  have hpath : paths u := (h.path_iff u).1 ⟨p, hu⟩
  induction s generalizing t p u paths with
  | nil =>
    refine ⟨t, p, rfl, by rw [List.append_nil, hu], h.congr (fun x => ?_) fun _ => .rfl⟩
    rw [iff_self_or]
    rintro ⟨y, hy, rfl⟩
    rw [List.prefix_nil.1 hy, List.append_nil]
    exact hpath
  | cons ch s ih =>
    obtain ⟨t₁, q, hrun, hlocate, h₁⟩ := h.insertCharacter hu ch
    obtain ⟨t', p', hrest, hlocate', h'⟩ := ih h₁ hlocate (.inr rfl)
    refine ⟨t', p', ?_, ?_, ?_⟩
    · rw [List.foldlM_cons, hrun]
      exact hrest
    · rw [← hlocate', List.append_assoc, List.singleton_append]
    · refine h'.congr (fun x => ?_) fun _ => .rfl
      rw [or_assoc]
      constructor
      · rintro (hx | rfl | ⟨y, hy, rfl⟩)
        · exact .inl hx
        · exact .inr ⟨[ch], List.prefix_append [ch] s, rfl⟩
        · refine .inr ⟨ch :: y, List.cons_prefix_cons.2 ⟨rfl, hy⟩, ?_⟩
          rw [List.append_assoc, List.singleton_append]
      · rintro (hx | ⟨y, hy, rfl⟩)
        · exact .inl hx
        · rcases List.prefix_cons_iff.1 hy with rfl | ⟨z, rfl, hz⟩
          · exact .inl (by rwa [List.append_nil])
          · refine .inr (.inr ⟨z, hz, ?_⟩)
            rw [List.append_assoc, List.singleton_append]

/-! ## Insertion -/

/-- An insertion adds the word and its prefixes. -/
theorem Holds.insert (h : Holds t paths words) (s : List χ) :
    ∃ t', t.insert s = .ok (true, t') ∧
      Holds t' (fun x => paths x ∨ x <+: s) (fun x => words x ∨ x = s) := by
  obtain ⟨t₁, p, hrun, hlocate, h₁⟩ := h.insertLoop locate_nil s
  obtain ⟨n, hn, -⟩ := h₁.marks _ p hlocate
  refine ⟨_, ?_, (h₁.mark hlocate hn).congr (fun x => ?_) fun x => ?_⟩
  · simp only [Trie.insert, hrun, bind, Except.bind, modify_eq hn]
  · simp
  · simp

end Steps

/-! ## Searches -/

section Search

variable {paths words : List χ → Prop}

/-- The loop of the searches arrives where the string leads. -/
theorem Holds.descend (h : Holds t paths words) (hu : t.locate u = some p) (s : List χ) :
    t.descend p s = .ok (t.locate (u ++ s)) := by
  induction s generalizing u p with
  | nil => rw [List.append_nil, hu, Trie.descend]
  | cons ch s ih =>
    obtain ⟨n, hn, -⟩ := h.marks u p hu
    have hlocate : t.locate (u ++ [ch]) = n.children ch := by
      rw [locate_concat, hu, Option.bind_some, child_eq hn]
    rw [Trie.descend, ← List.singleton_append, ← List.append_assoc]
    simp only [read_eq hn, bind, Except.bind]
    cases hq : n.children ch with
    | some q => exact ih (hlocate.trans hq)
    | none =>
      rw [locate, List.foldlM_append, ← locate, hlocate, hq]
      rfl

/-- `query` finds exactly the words that were inserted. -/
theorem Holds.query (h : Holds t paths words) (s : List χ) :
    ∃ b, t.query s = .ok b ∧ (b = true ↔ words s) := by
  have hdescend := h.descend locate_nil s
  rw [List.nil_append] at hdescend
  cases hs : t.locate s with
  | none =>
    refine ⟨false, by simp only [Trie.query, hdescend, hs, bind, Except.bind], ?_⟩
    have hnot : ¬words s := by
      intro hword
      obtain ⟨p, hp⟩ := (h.path_iff s).2 (h.path_of_word s hword)
      rw [hs] at hp
      cases hp
    simp [hnot]
  | some p =>
    obtain ⟨n, hn, hmark⟩ := h.marks s p hs
    refine ⟨n.isEnd, ?_, hmark⟩
    simp only [Trie.query, hdescend, hs, read_eq hn, bind, Except.bind]

/-- `start_with` finds exactly their beginnings. -/
theorem Holds.startWith (h : Holds t paths words) (s : List χ) :
    ∃ b, t.startWith s = .ok b ∧ (b = true ↔ paths s) := by
  have hdescend := h.descend locate_nil s
  rw [List.nil_append] at hdescend
  rw [← h.path_iff s]
  cases hs : t.locate s with
  | none => exact ⟨false, by simp only [Trie.startWith, hdescend, hs, bind, Except.bind], by simp⟩
  | some p => exact ⟨true, by simp only [Trie.startWith, hdescend, hs, bind, Except.bind], by simp⟩

end Search

/-! ## Sequences of insertions -/

variable [DecidableEq χ]

/-- After some insertions, the trie holds the words and their prefixes. -/
theorem run_holds (words : List (List χ)) :
    ∃ t, run words = .ok t ∧
      Holds t (fun s => s = [] ∨ ∃ w ∈ words, s <+: w) (fun s => s ∈ words) := by
  induction words using List.reverseRecOn with
  | nil => exact ⟨create, rfl, holds_create.congr (by simp) (by simp)⟩
  | append_singleton words w ih =>
    obtain ⟨t, hrun, h⟩ := ih
    obtain ⟨t', hinsert, h'⟩ := h.insert w
    refine ⟨t', ?_, h'.congr (fun s => ?_) fun s => ?_⟩
    · rw [run, List.foldlM_append]
      change (run words).bind _ = _
      rw [hrun, Except.bind, List.foldlM_cons, hinsert]
      rfl
    · simp only [List.mem_append, List.mem_singleton, or_and_right, exists_or, exists_eq_left,
        or_assoc]
    · simp

/-- After any sequence of insertions, all calls return; `query` finds exactly the inserted words,
and `start_with` the empty string and the prefixes of inserted words. -/
theorem run_correct (words : List (List χ)) :
    ∃ t, run words = .ok t ∧ ∀ s,
      (∃ b, t.query s = .ok b ∧ (b = true ↔ s ∈ words)) ∧
      (∃ b, t.startWith s = .ok b ∧ (b = true ↔ s = [] ∨ ∃ w ∈ words, s <+: w)) ∧
      ∃ t', t.insert s = .ok (true, t') := by
  obtain ⟨t, hrun, h⟩ := run_holds words
  refine ⟨t, hrun, fun s => ⟨h.query s, h.startWith s, ?_⟩⟩
  obtain ⟨t', hinsert, -⟩ := h.insert s
  exact ⟨t', hinsert⟩

end CppLearn.Trie

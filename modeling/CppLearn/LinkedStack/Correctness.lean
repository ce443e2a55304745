import CppLearn.Lib.LinkedList
import CppLearn.LinkedStack.Defs
import Mathlib.Data.List.Perm.Subperm

/-!
# Correctness of the linked stack

The nodes of a stack form a list, and there are no others. So the calls answer as they do for a
list, and the destructor deletes each node once.

`Holds` are the nodes of a stack; each function has a lemma about them (`Holds.push`, `Holds.pop`,
`Holds.destruct`). Any sequence of calls is `run_refines_list`.
-/

namespace CppLearn.LinkedStack

open BoundedLoop LinkedList

variable {T : Type}

/-- The links between the nodes. -/
def Stack.link (s : Stack T) (i : ℕ) : Option ℕ := (s.heap i).bind Node.next

/-- The addresses and the values of the nodes, from the top on. -/
structure Holds (s : Stack T) (cells : List (ℕ × T)) : Prop where
  chain : Chain s.link s.tail (cells.map Prod.fst)
  value : ∀ c ∈ cells, (s.heap c.1).map Node.value = some c.2
  nodup : (cells.map Prod.fst).Nodup
  domain : ∀ p, (s.heap p).isSome ↔ p ∈ cells.map Prod.fst
  lt : ∀ p ∈ cells.map Prod.fst, p < s.fresh

variable {s s' : Stack T} {cells : List (ℕ × T)} {i fuel : ℕ} {x : T}

/-- A new stack has no nodes. -/
theorem holds_create : Holds (Stack.create T) [] :=
  ⟨rfl, by simp, .nil, fun _ => by simp [Stack.create], by simp⟩

/-- What the operations do on a stack with the given cells: `empty`, -/
theorem Holds.empty (h : Holds s cells) : s.empty = cells.isEmpty := by
  have hhead := h.chain.head
  rw [Stack.empty, hhead]
  cases cells <;> rfl

/-- The node on the top. -/
theorem Holds.top (h : Holds s ((i, x) :: cells)) :
    s.tail = some i ∧ s.heap i = some ⟨x, s.link i⟩ ∧
      Chain s.link (s.link i) (cells.map Prod.fst) := by
  obtain ⟨htail, hchain⟩ := h.chain
  refine ⟨htail, ?_, hchain⟩
  obtain ⟨⟨value, next⟩, hnode, hvalue⟩ := Option.map_eq_some_iff.1 (h.value _ List.mem_cons_self)
  obtain rfl : value = x := hvalue
  have hlink : s.link i = next := by rw [Stack.link, hnode]; rfl
  rw [hlink]
  exact hnode

/-- reading the top, -/
theorem Holds.read_tail (h : Holds s ((i, x) :: cells)) :
    s.read s.tail = .ok ⟨x, s.link i⟩ := by
  obtain ⟨htail, hnode, -⟩ := h.top
  rw [Stack.read, htail, Option.bind_some, hnode]

/-! ## `push` -/

/-- assigning a link, -/
theorem Stack.setNext_eq {node : Node T} (h : s.heap i = some node) (next : Option ℕ) :
    s.setNext i next =
      .ok { s with heap := Function.update s.heap i (some { node with next }) } := by
  rw [Stack.setNext, Stack.read, Option.bind_some, h, ok_bind]

/-- `push`, -/
theorem Holds.push (h : Holds s cells) (x : T) :
    ∃ s', s.push x = .ok s' ∧ Holds s' ((s.fresh, x) :: cells) ∧ s'.size = s.size + 1 := by
  have hnew : s.fresh ∉ cells.map Prod.fst := fun hmem => Nat.lt_irrefl _ (h.lt _ hmem)
  let s₁ : Stack T := ⟨Function.update s.heap s.fresh (some ⟨x, s.tail⟩), s.fresh + 1, s.size + 1,
    some s.fresh⟩
  have hkeep : ∀ p, p ≠ s.fresh → s₁.heap p = s.heap p := fun p hp => Function.update_of_ne hp ..
  have hself : s₁.heap s.fresh = some ⟨x, s.tail⟩ := Function.update_self ..
  refine ⟨s₁, ?_, ⟨?_, ?_, List.nodup_cons.2 ⟨hnew, h.nodup⟩, ?_, ?_⟩, rfl⟩
  · rw [Stack.push]
    dsimp only
    cases htail : s.tail with
    | none =>
      rw [if_pos (by rfl), ok_bind]
      simp only [s₁, htail]
    | some p =>
      -- the link to the old top
      rw [if_neg (by simp [Stack.empty]), Stack.setNext_eq (Function.update_self ..), ok_bind,
        Function.update_idem]
      simp only [s₁, htail]
  · refine h.chain.push hnew ?_ fun p hp => ?_
    · rw [Stack.link, hself]
      rfl
    · rw [Stack.link, hkeep p hp]
      rfl
  · intro c hc
    rcases List.mem_cons.1 hc with rfl | hc
    · rw [hself]
      rfl
    · rw [hkeep _ (ne_of_mem_of_not_mem (List.mem_map_of_mem hc) hnew)]
      exact h.value c hc
  · intro p
    rw [List.map_cons, List.mem_cons, ← h.domain p]
    by_cases hp : p = s.fresh
    · rw [hp, hself]
      simp
    · rw [hkeep p hp]
      simp [hp]
  · intro p hp
    rcases List.mem_cons.1 hp with rfl | hp
    · exact Nat.lt_succ_self _
    · exact Nat.lt_succ_of_lt (h.lt p hp)

/-! ## `pop` and the destructor -/

/-- The node on the top is deleted, when `tail_` points to the next one. -/
theorem Holds.delete (h : Holds s ((i, x) :: cells)) :
    ∃ s', ({ s with tail := s.link i } : Stack T).delete s.tail = .ok s' ∧ Holds s' cells ∧
      s'.size = s.size ∧ s'.fresh = s.fresh := by
  obtain ⟨htail, hnode, hchain⟩ := h.top
  obtain ⟨hi, hnodup⟩ := List.nodup_cons.1 h.nodup
  let s₁ : Stack T := ⟨Function.update s.heap i none, s.fresh, s.size, s.link i⟩
  -- only the cell of the top has been emptied
  have hkeep : ∀ p, p ≠ i → s₁.heap p = s.heap p := fun p hp => Function.update_of_ne hp ..
  have hother : ∀ p ∈ cells.map Prod.fst, p ≠ i := fun p hp => ne_of_mem_of_not_mem hp hi
  refine ⟨s₁, ?_, ⟨?_, ?_, hnodup, ?_, ?_⟩, rfl, rfl⟩
  · simp only [Stack.delete, htail, hnode]
    rfl
  · refine hchain.congr fun p hp => ?_
    rw [Stack.link, hkeep p (hother p hp)]
    rfl
  · intro c hc
    rw [hkeep _ (hother _ (List.mem_map_of_mem hc))]
    exact h.value c (List.mem_cons_of_mem _ hc)
  · intro p
    by_cases hp : p = i
    · have hself : s₁.heap p = none := by rw [hp]; exact Function.update_self ..
      rw [hself, hp]
      exact iff_of_false Bool.false_ne_true hi
    · rw [hkeep p hp, h.domain p, List.map_cons, List.mem_cons, or_iff_right hp]
  · exact fun p hp => h.lt p (List.mem_cons_of_mem _ hp)

/-- `pop`, -/
theorem Holds.pop (h : Holds s ((i, x) :: cells)) (minusOne : T) :
    ∃ s', s.pop minusOne = .ok (x, s') ∧ Holds s' cells ∧ s'.size = s.size - 1 := by
  obtain ⟨htail, hnode, -⟩ := h.top
  obtain ⟨s', hdelete, h', hsize, -⟩ := h.delete
  refine ⟨{ s' with size := s'.size - 1 }, ?_, ⟨h'.chain, h'.value, h'.nodup, h'.domain, h'.lt⟩,
    by rw [hsize]⟩
  have hread : ({ s with tail := s.link i } : Stack T).read s.tail = .ok ⟨x, s.link i⟩ :=
    h.read_tail
  rw [Stack.pop, h.empty, if_neg (by simp)]
  dsimp only
  rw [h.read_tail, ok_bind, hread, ok_bind, hdelete, ok_bind]

/-- and the loop of the destructor. -/
theorem Holds.destructLoop (h : Holds s cells) (hfuel : cells.length < fuel) :
    ∃ s', s.destructLoop fuel = .ok s' ∧ Holds s' [] := by
  induction cells generalizing s fuel with
  | nil =>
    obtain ⟨fuel, rfl⟩ := Nat.exists_eq_succ_of_ne_zero (Nat.ne_zero_of_lt hfuel)
    have htail : s.tail = none := h.chain
    refine ⟨s, ?_, h⟩
    rw [Stack.destructLoop, htail]
    rfl
  | cons c cells ih =>
    obtain ⟨fuel, rfl⟩ := Nat.exists_eq_succ_of_ne_zero (Nat.ne_zero_of_lt hfuel)
    obtain ⟨s₁, hdelete, h₁, -⟩ := h.delete
    obtain ⟨s', hrun, h'⟩ := ih h₁ (Nat.lt_of_succ_lt_succ hfuel)
    have htail := h.top.1
    refine ⟨s', ?_, h'⟩
    rw [Stack.destructLoop, if_pos (by rw [htail]; rfl)]
    dsimp only
    rw [h.read_tail, ok_bind, hdelete, ok_bind, hrun]

/-- Each address is below the next one, so the nodes are not more than the iterations. -/
theorem Holds.length_le (h : Holds s cells) : cells.length ≤ s.fresh := by
  have hsub : cells.map Prod.fst ⊆ List.range s.fresh := fun p hp => List.mem_range.2 (h.lt p hp)
  have hle := (h.nodup.subperm hsub).length_le
  rwa [List.length_map, List.length_range] at hle

/-- The destructor deletes all nodes. -/
theorem Holds.destruct (h : Holds s cells) :
    ∃ s', s.destruct = .ok s' ∧ ∀ p, s'.heap p = none := by
  obtain ⟨s', hrun, h'⟩ := h.destructLoop (Nat.lt_succ_of_le h.length_le)
  refine ⟨s', hrun, fun p => ?_⟩
  have hdomain := (h'.domain p).not.2 List.not_mem_nil
  simpa using hdomain

/-! ## Sequences of calls -/

/-- The stack holds the values of the list. -/
def Represents (s : Stack T) (xs : List T) : Prop :=
  s.size = UInt64.ofNat xs.length ∧ ∃ cells, Holds s cells ∧ cells.map Prod.snd = xs

variable {xs : List T}

/-- A call fails on a stack if it fails on the list, and else it returns the same. -/
theorem Represents.apply (h : Represents s xs) (minusOne : T) (op : Op T) :
    match applyList minusOne xs op with
    | .error e => s.apply minusOne op = .error e
    | .ok (output, xs') => ∃ s', s.apply minusOne op = .ok (output, s') ∧ Represents s' xs' := by
  obtain ⟨hsize, cells, h, rfl⟩ := h
  -- the size is counted with wrap-around
  cases op with
  | push value =>
    obtain ⟨s', hrun, h', hsize'⟩ := h.push value
    refine ⟨s', by rw [Stack.apply, hrun, ok_bind], ?_, _, h', rfl⟩
    rw [hsize', hsize, List.length_cons, UInt64.ofNat_add]
    rfl
  | pop =>
    cases cells with
    | nil =>
      refine ⟨s, ?_, hsize, [], h, rfl⟩
      rw [Stack.apply, Stack.pop, h.empty]
      rfl
    | cons c cells =>
      obtain ⟨s', hrun, h', hsize'⟩ := h.pop minusOne
      refine ⟨s', by rw [Stack.apply, hrun, ok_bind]; rfl, ?_, _, h', rfl⟩
      rw [hsize', hsize, List.map_cons, List.length_cons, UInt64.ofNat_add]
      simp
  | top =>
    cases cells with
    | nil =>
      have htail : s.tail = none := h.chain
      show s.apply minusOne .top = .error .invalidAccess
      rw [Stack.apply, Stack.top, Stack.read, htail]
      rfl
    | cons c cells =>
      refine ⟨s, ?_, hsize, _, h, rfl⟩
      rw [Stack.apply, Stack.top, h.read_tail]
      rfl
  | size => exact ⟨s, by rw [Stack.apply, hsize], hsize, cells, h, rfl⟩
  | empty =>
    refine ⟨s, ?_, hsize, cells, h, rfl⟩
    rw [Stack.apply, h.empty, List.isEmpty_map]

/-- Any sequence of operations, which fails where the list does. -/
theorem Represents.run (h : Represents s xs) (minusOne : T) (ops : List (Op T)) :
    match run (applyList minusOne) xs ops with
    | .error e => run (Stack.apply minusOne) s ops = .error e
    | .ok (outputs, xs') =>
      ∃ s', run (Stack.apply minusOne) s ops = .ok (outputs, s') ∧ Represents s' xs' := by
  induction ops generalizing s xs with
  | nil => exact ⟨s, rfl, h⟩
  | cons op ops ih =>
    have hstep := h.apply minusOne op
    cases hop : applyList minusOne xs op with
    | error e =>
      rw [hop] at hstep
      rw [LinkedStack.run, hop, LinkedStack.run, hstep]
      rfl
    | ok r =>
      obtain ⟨output, xs₁⟩ := r
      rw [hop] at hstep
      obtain ⟨s₁, hrun₁, h₁⟩ := hstep
      -- the rest of the calls depends on the values only
      have hrest := ih h₁
      rw [LinkedStack.run, hop, ok_bind, LinkedStack.run, hrun₁, ok_bind]
      dsimp only
      cases hops : LinkedStack.run (applyList minusOne) xs₁ ops with
      | error e =>
        rw [hops] at hrest
        exact congrArg (· >>= _) hrest
      | ok r =>
        rw [hops] at hrest
        obtain ⟨s', hrun', h'⟩ := hrest
        exact ⟨s', by rw [hrun', ok_bind], h'⟩

/-- Any sequence of calls of an empty stack returns what it returns for a list, and fails where it
fails for the list, that is at the first `top` of an empty stack. If it does not fail, the
destructor returns, and no node is left. -/
theorem run_refines_list (minusOne : T) (ops : List (Op T)) :
    match run (applyList minusOne) [] ops with
    | .error e => run (Stack.apply minusOne) (Stack.create T) ops = .error e
    | .ok (outputs, _) =>
      ∃ s s', run (Stack.apply minusOne) (Stack.create T) ops = .ok (outputs, s) ∧
        s.destruct = .ok s' ∧ ∀ p, s'.heap p = none := by
  have hcreate : Represents (Stack.create T) [] := ⟨rfl, [], holds_create, rfl⟩
  have hrun := hcreate.run minusOne ops
  cases hlist : run (applyList minusOne) [] ops with
  | error e => rwa [hlist] at hrun
  | ok r =>
    rw [hlist] at hrun
    obtain ⟨s, hstack, -, cells, h, -⟩ := hrun
    obtain ⟨s', hdestruct, hempty⟩ := h.destruct
    exact ⟨s, s', hstack, hdestruct, hempty⟩

end CppLearn.LinkedStack

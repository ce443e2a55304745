import CppLearn.Heap.Defs
import CppLearn.Lib.HeapArray
import Mathlib.Data.Multiset.AddSub
import Mathlib.Order.OrderDual

/-!
# Heaps are priority queues

The loops of `push` and `pop` restore the order of the heap and permute the elements in use, so a
heap does what a multiset does from which a maximum can be removed. Elements of `buffer_` behind the
first `size_` are left over from earlier operations, and do not matter.

The invariant is `Heap.Inv`; a multiset with a maximum serves as the priority queue (`Heap.Serves`).
The loops are `Heap.heapifyUp_spec` and `Heap.heapifyDown_spec`, and with them `push` and `pop`
(`Heap.push_spec`, `Heap.pop_spec`) keep a heap and a multiset together. `Heap.PriorityQueue` says
this for any sequence of operations, and `heaps_refine` proves it for the two classes.
-/

namespace CppLearn

open BoundedLoop CheckedVector HeapArray

namespace Heap

variable {T : Type}

/-- The elements in use. -/
def live (s : Heap T) : List T := s.buffer.take s.size

section Operations

variable {less : T → T → Bool} {s : Heap T} {buffer : List T} {n : ℕ}

theorem heapifyUpStep_eq {child : ℕ} (hpos : 0 < child) (hp : (child - 1) / 2 < buffer.length)
    (hc : child < buffer.length) : heapifyUpStep less (child, buffer) =
      if less buffer[(child - 1) / 2] buffer[child] then
        (swap buffer (((child - 1) / 2 : ℕ) : ℤ) child).bind fun b =>
          .ok (.inl ((child - 1) / 2, b))
      else .ok (.inr buffer) := by
  simp only [heapifyUpStep, if_neg hpos.ne', read_eq hp, read_eq hc, bind, Except.bind]

variable [LinearOrder T]

/-- The invariant. -/
structure Inv (s : Heap T) : Prop where
  size_le : s.size ≤ s.buffer.length
  ordered : ∀ d, Ordered (fun i => s.buffer.getD i d) s.size

/-! ## The loops -/

/-- The loop of `push` moves the last element up to its place. -/
theorem heapifyUp_spec (hless : ∀ x y, less x y = true ↔ x < y) (hpos : 0 < n)
    (hlen : n ≤ buffer.length) (h : ∀ d, UpOrdered (fun i => buffer.getD i d) n (n - 1)) :
    ∃ b, heapifyUp less n buffer = .ok b ∧ b.length = buffer.length ∧
      (∀ d, Ordered (fun i => b.getD i d) n) ∧ (b.take n).Perm (buffer.take n) := by
  -- the index is the position of the element that goes up
  refine iterate_spec (I := fun m s => s.1 = m ∧ s.1 < n ∧ s.2.length = buffer.length ∧
    (∀ d, UpOrdered (fun i => s.2.getD i d) n s.1) ∧ (s.2.take n).Perm (buffer.take n))
    ?_ ⟨rfl, by omega, rfl, h, .refl _⟩ (by omega)
  rintro _ ⟨child, b⟩ ⟨rfl, hchild, hb, hup, hperm⟩
  simp only at hchild hb hup hperm
  rcases Nat.eq_zero_or_pos child with rfl | hcpos
  · refine .inl ⟨b, by simp [heapifyUpStep], hb, fun d => ?_, hperm⟩
    exact (hup d).ordered_of_le fun h0 => absurd h0 (Nat.lt_irrefl 0)
  -- the parent is in the buffer
  have hparent : (child - 1) / 2 < child := parent_lt hcpos
  have hp : (child - 1) / 2 < b.length := by omega
  have hc : child < b.length := by omega
  by_cases hlt : b[(child - 1) / 2] < b[child]
  · obtain ⟨w, hw, hwlen, hwget, hwperm⟩ := swap_spec hp hc
    refine .inr ⟨((child - 1) / 2, w), _, ?_, hparent, rfl, ?_, hwlen.trans hb, fun d => ?_, ?_⟩
    · rw [heapifyUpStep_eq hcpos hp hc, if_pos ((hless _ _).2 hlt), hw]
      rfl
    · exact hparent.trans hchild
    · simp only [hwget]
      exact (hup d).swap hcpos hchild (by simpa [HeapArray.parent, hp, hc] using hlt)
    · exact (hwperm n (by omega) hchild).trans hperm
  · refine .inl ⟨b, ?_, hb, fun d => (hup d).ordered_of_le fun _ => ?_, hperm⟩
    · rw [heapifyUpStep_eq hcpos hp hc, if_neg (by rwa [hless])]
    · simpa [HeapArray.parent, hp, hc] using hlt

/-- The child that the loop of `pop` looks at is a maximum of the children. -/
theorem largerChild_spec (hless : ∀ x y, less x y = true ↔ x < y) (hlen : n ≤ buffer.length)
    {p : ℕ} (hp : 2 * p + 1 < n) :
    ∃ c, largerChild less n buffer (2 * p + 1) = .ok c ∧ 0 < c ∧ c < n ∧ parent c = p ∧
      ∀ d, ∀ i < n, 0 < i → parent i = p → buffer.getD i d ≤ buffer.getD c d := by
  have hleft : 2 * p + 1 < buffer.length := by omega
  by_cases hright : 2 * p + 1 + 1 < n
  · have hright' : 2 * p + 1 + 1 < buffer.length := by omega
    have hread : largerChild less n buffer (2 * p + 1) =
        .ok (if less buffer[2 * p + 1] buffer[2 * p + 1 + 1] then 2 * p + 1 + 1
          else 2 * p + 1) := by
      simp only [largerChild, if_pos hright, read_eq hleft, read_eq hright', bind, Except.bind]
    -- the children are these two
    have hchildren : ∀ i, 0 < i → parent i = p → i = 2 * p + 1 ∨ i = 2 * p + 1 + 1 := by
      intro i hi hpar
      unfold parent at hpar
      omega
    by_cases hlt : buffer[2 * p + 1] < buffer[2 * p + 1 + 1]
    · refine ⟨_, by rw [hread, if_pos ((hless _ _).2 hlt)], by omega, hright, ?_, ?_⟩
      · unfold parent
        omega
      · intro d i hi hpos hpar
        rcases hchildren i hpos hpar with rfl | rfl
        · simpa [hleft, hright'] using hlt.le
        · exact le_rfl
    · refine ⟨_, by rw [hread, if_neg (by rwa [hless])], by omega, hp, ?_, ?_⟩
      · unfold parent
        omega
      · intro d i hi hpos hpar
        rcases hchildren i hpos hpar with rfl | rfl
        · exact le_rfl
        · simpa [hleft, hright'] using hlt
  · -- there is one child only
    refine ⟨2 * p + 1, by simp only [largerChild, if_neg hright], by omega, hp, ?_, ?_⟩
    · unfold parent
      omega
    · intro d i hi hpos hpar
      have : i = 2 * p + 1 := by
        unfold parent at hpar
        omega
      rw [this]

/-- The loop of `pop` moves the first element down to its place. -/
theorem heapifyDown_spec (hless : ∀ x y, less x y = true ↔ x < y) (hlen : n ≤ buffer.length)
    (h : ∀ d, DownOrdered (fun i => buffer.getD i d) n 0) :
    ∃ b, heapifyDown less n buffer = .ok b ∧ b.length = buffer.length ∧
      (∀ d, Ordered (fun i => b.getD i d) n) ∧ (b.take n).Perm (buffer.take n) := by
  refine iterate_spec (I := fun m s => n - s.1 = m ∧ s.2.1 = 2 * s.1 + 1 ∧
    s.2.2.length = buffer.length ∧ (∀ d, DownOrdered (fun i => s.2.2.getD i d) n s.1) ∧
    (s.2.2.take n).Perm (buffer.take n)) ?_ ⟨rfl, rfl, rfl, h, .refl _⟩ (by simp)
  rintro _ ⟨p, child, b⟩ ⟨rfl, hchild, hb, hdown, hperm⟩
  simp only at hchild hb hdown hperm
  subst hchild
  by_cases hp : 2 * p + 1 < n
  · obtain ⟨c, hc, hcpos, hcn, hcp, hmax⟩ :=
      largerChild_spec hless (show n ≤ b.length by omega) hp
    have hpb : p < b.length := by omega
    have hcb : c < b.length := by omega
    have hpc : p < c := hcp ▸ parent_lt hcpos
    have hstep : heapifyDownStep less n (p, 2 * p + 1, b) =
        if less b[p] b[c] then (swap b (p : ℤ) c).bind fun b => .ok (.inl (c, 2 * c + 1, b))
        else .ok (.inr b) := by
      simp only [heapifyDownStep, if_pos hp, hc, read_eq hpb, read_eq hcb, bind, Except.bind]
    by_cases hlt : b[p] < b[c]
    · obtain ⟨w, hw, hwlen, hwget, hwperm⟩ := swap_spec hpb hcb
      refine .inr ⟨(c, 2 * c + 1, w), n - c, ?_, by omega, rfl, rfl, hwlen.trans hb,
        fun d => ?_, ?_⟩
      · rw [hstep, if_pos ((hless _ _).2 hlt), hw]
        rfl
      · simp only [hwget]
        exact (hdown d).swap hcpos hcn hcp (hmax d) (by simpa [hpb, hcb] using hlt)
      · exact (hwperm n (by omega) hcn).trans hperm
    · refine .inl ⟨b, ?_, hb, fun d => (hdown d).ordered_of_le fun i hi hpos hpar => ?_, hperm⟩
      · rw [hstep, if_neg (by rwa [hless])]
      · refine (hmax d i hi hpos hpar).trans ?_
        simpa [hpb, hcb] using hlt
  · -- a leaf
    refine .inl ⟨b, ?_, hb, fun d => (hdown d).ordered_of_le fun i hi hpos hpar => ?_, hperm⟩
    · simp only [heapifyDownStep, if_neg hp]
    · unfold parent at hpar
      omega

/-! ## The operations -/

omit [LinearOrder T] in
/-- The value is stored behind the elements in use. -/
theorem store_spec (hlen : s.size ≤ s.buffer.length) (value : T) :
    ∃ b, s.store value = .ok b ∧ s.size < b.length ∧ b.take (s.size + 1) = s.live ++ [value] ∧
      ∀ i < s.size, b[i]? = s.buffer[i]? := by
  unfold store
  by_cases hfull : s.size + 1 > s.buffer.length
  · have heq : s.buffer.length = s.size := by omega
    refine ⟨_, if_pos hfull, by simp [heq], ?_, fun i hi => ?_⟩
    · rw [live, ← heq, List.take_length, List.take_of_length_le (by simp)]
    · exact List.getElem?_append_left (by omega)
  · have hlt : s.size < s.buffer.length := by omega
    have hindex : ((s.size + 1 : ℕ) : ℤ) - 1 = s.size := by omega
    refine ⟨_, by rw [if_neg hfull, hindex, write_ok hlt], by simpa using hlt, ?_, fun i hi => ?_⟩
    · rw [live, List.take_add_one, List.take_set_of_le (Nat.le_refl _), List.getElem?_set_self hlt]
      rfl
    · exact List.getElem?_set_ne (by omega)

/-- `push` adds the value. -/
theorem push_spec (hless : ∀ x y, less x y = true ↔ x < y) (h : Inv s) (value : T) :
    ∃ s', push less s value = .ok s' ∧ Inv s' ∧ s'.size = s.size + 1 ∧
      s'.live.Perm (value :: s.live) := by
  obtain ⟨b, hb, hlen, htake, hsame⟩ := store_spec h.size_le value
  have hup : ∀ d, UpOrdered (fun i => b.getD i d) (s.size + 1) s.size := by
    intro d
    refine Ordered.upOrdered fun i hi hpos => ?_
    have hpar := (parent_lt hpos).trans hi
    have hle := h.ordered d i hi hpos
    simpa only [List.getD_eq_getElem?_getD, hsame i hi, hsame _ hpar] using hle
  obtain ⟨b', hb', hlen', hord, hperm⟩ :=
    heapifyUp_spec hless (Nat.succ_pos s.size) (show s.size + 1 ≤ b.length by omega)
      (by simpa using hup)
  refine ⟨⟨s.size + 1, b'⟩, ?_, ⟨by simp only; omega, hord⟩, rfl, ?_⟩
  · simp only [push, hb, hb', bind, Except.bind]
  · rw [htake] at hperm
    exact hperm.trans List.perm_append_comm

/-- `pop` removes the value at the top, which is a maximum. -/
theorem pop_spec (hless : ∀ x y, less x y = true ↔ x < y) (h : Inv s) (hpos : 0 < s.size) :
    ∃ x s', top s = .ok x ∧ pop less s = .ok s' ∧ Inv s' ∧ s'.size + 1 = s.size ∧
      s.live.Perm (x :: s'.live) ∧ ∀ y ∈ s.live, y ≤ x := by
  have hlen := h.size_le
  have h0 : 0 < s.buffer.length := by omega
  have hlast : s.size - 1 < s.buffer.length := by omega
  obtain ⟨w, hw, hwlen, hwget, hwperm⟩ := swap_spec h0 hlast
  -- the old top is behind the elements in use now
  have htop : ∀ d, w.getD (s.size - 1) d = s.buffer.getD 0 d := by
    intro d
    have := congrFun (hwget d) (s.size - 1)
    simpa using this
  have hdown : ∀ d, DownOrdered (fun i => w.getD i d) (s.size - 1) 0 := by
    intro d
    have hord : Ordered (fun i => s.buffer.getD i d) (s.size - 1) :=
      fun i hi hipos => h.ordered d i (by omega) hipos
    refine hord.downOrdered fun i hi hipos => ?_
    have := congrFun (hwget d) i
    rwa [Function.comp, Equiv.swap_apply_of_ne_of_ne hipos.ne' hi.ne] at this
  obtain ⟨b, hb, hblen, hord, hperm⟩ := heapifyDown_spec hless (by omega) hdown
  refine ⟨s.buffer[0], ⟨s.size - 1, b⟩, ?_, ?_, ⟨by simp only; omega, hord⟩, by simp only; omega,
    ?_, fun y hy => ?_⟩
  · exact_mod_cast read_eq h0
  · have hindex : (s.size - 1 : ℤ) = ((s.size - 1 : ℕ) : ℤ) := by omega
    have hzero : (0 : ℤ) = ((0 : ℕ) : ℤ) := rfl
    simp only [pop, hindex, hzero, hw, hb, bind, Except.bind]
  · have hget : w[s.size - 1]? = some s.buffer[0] := by
      have := htop s.buffer[0]
      simp only [List.getD_eq_getElem?_getD, List.getElem?_eq_getElem (hwlen ▸ hlast),
        List.getElem?_eq_getElem h0, Option.getD_some] at this
      rw [List.getElem?_eq_getElem (hwlen ▸ hlast), this]
    have hsplit : w.take s.size = w.take (s.size - 1) ++ [s.buffer[0]] := by
      have := List.take_add_one (l := w) (i := s.size - 1)
      rwa [Nat.sub_add_cancel hpos, hget] at this
    have hold : s.live.Perm (w.take (s.size - 1) ++ [s.buffer[0]]) :=
      hsplit ▸ (hwperm s.size hpos (by omega)).symm
    exact (hold.trans List.perm_append_comm).trans (hperm.symm.cons _)
  · obtain ⟨i, hi, rfl⟩ := List.mem_iff_getElem.1 hy
    have hi' : i < s.size := by
      simp only [live, List.length_take] at hi
      omega
    have hle := (h.ordered s.buffer[0]).le_root hi'
    simpa [live, h0, show i < s.buffer.length by omega] using hle

end Operations

/-! ## Priority queues -/

/-- One operation on a priority queue, given by the list of removed values and the multiset of the
others: `pop` removes an element that no other one exceeds. -/
inductive Serves (le : T → T → Prop) : List T × Multiset T → Op T → List T × Multiset T → Prop
  | push (removed : List T) (m : Multiset T) (value : T) :
      Serves le (removed, m) (.push value) (removed, value ::ₘ m)
  | pop (removed : List T) (m : Multiset T) (x : T) : (∀ y ∈ m, le y x) →
      Serves le (removed, x ::ₘ m) .pop (removed ++ [x], m)

/-- A sequence of operations. -/
inductive ServesAll (le : T → T → Prop) :
    List T × Multiset T → List (Op T) → List T × Multiset T → Prop
  | nil (q : List T × Multiset T) : ServesAll le q [] q
  | cons {q q' q'' : List T × Multiset T} {op : Op T} {ops : List (Op T)} :
      Serves le q op q' → ServesAll le q' ops q'' → ServesAll le q (op :: ops) q''

/-- From `n` elements on, `pop` is called only when there is an element. -/
def Admissible : ℕ → List (Op T) → Prop
  | _, [] => True
  | n, .push _ :: ops => Admissible (n + 1) ops
  | n, .pop :: ops => 0 < n ∧ Admissible (n - 1) ops

/-- What should hold of a heap: it serves all operations like a priority queue, its order is that of
a heap, and it sorts. -/
structure PriorityQueue (le : T → T → Prop) (run : List (Op T) → Except Fault (List T × Heap T)) :
    Prop where
  refines : ∀ ops, Admissible 0 ops → ∃ removed s, run ops = .ok (removed, s) ∧
    s.size ≤ s.buffer.length ∧
    (∀ i x y, 0 < i → i < s.size → s.buffer[i]? = some x → s.buffer[(i - 1) / 2]? = some y →
      le x y) ∧
    ServesAll le ([], 0) ops (removed, s.live)
  sorts : ∀ l : List T, ∃ sorted s,
    run (l.map .push ++ List.replicate l.length .pop) = .ok (sorted, s) ∧ s.size = 0 ∧
    sorted.Perm l ∧ sorted.Pairwise fun x y => le y x

section Queues

variable {le : T → T → Prop} {q q' : List T × Multiset T} {ops : List (Op T)} {l : List T}

theorem serves_pushes (h : ServesAll le q (l.map .push ++ ops) q') :
    ServesAll le (q.1, (l : Multiset T) + q.2) ops q' := by
  induction l generalizing q with
  | nil => simpa using h
  | cons v l ih =>
    cases h with
    | cons hstep hrest =>
      cases hstep with
      | push removed m =>
        have := ih hrest
        rwa [Multiset.add_cons, ← Multiset.cons_add, Multiset.cons_coe] at this

/-- What is removed by `pop` alone is sorted. -/
theorem serves_pops {n : ℕ} (h : ServesAll le q (List.replicate n .pop) q') :
    ∃ sorted, q'.1 = q.1 ++ sorted ∧ sorted.length = n ∧ (sorted : Multiset T) + q'.2 = q.2 ∧
      sorted.Pairwise fun x y => le y x := by
  induction n generalizing q with
  | zero =>
    cases h
    exact ⟨[], by simp⟩
  | succ n ih =>
    cases h with
    | cons hstep hrest =>
      cases hstep with
      | pop removed m x hmax =>
        obtain ⟨sorted, hremoved, hlen, hsum, hsorted⟩ := ih hrest
        refine ⟨x :: sorted, ?_, by simp [hlen], ?_, List.pairwise_cons.2 ⟨fun y hy => ?_, hsorted⟩⟩
        · rw [hremoved, List.append_assoc]
          rfl
        · rw [← Multiset.cons_coe, Multiset.cons_add, hsum]
        · -- the later ones were there when `x` was removed
          apply hmax
          simp only at hsum
          rw [← hsum]
          exact Multiset.mem_add.2 (.inl hy)

theorem admissible_replicate_pop (n : ℕ) : Admissible n (List.replicate n (.pop : Op T)) := by
  induction n with
  | zero => trivial
  | succ n ih => exact ⟨Nat.succ_pos n, ih⟩

theorem admissible_pushes (l : List T) (n : ℕ) (h : Admissible (n + l.length) ops) :
    Admissible n (l.map .push ++ ops) := by
  induction l generalizing n with
  | nil => exact h
  | cons v l ih =>
    refine ih (n + 1) ?_
    rwa [List.length_cons, Nat.add_comm l.length, ← Nat.add_assoc] at h

end Queues

section Runs

variable [LinearOrder T] {less : T → T → Bool} {s : Heap T} {ops : List (Op T)}

/-- A heap serves all operations like a priority queue. -/
theorem exec_spec (hless : ∀ x y, less x y = true ↔ x < y) (h : Inv s)
    (hops : Admissible s.size ops) (removed : List T) :
    ∃ removed' s', ops.foldlM (exec (push less) (pop less)) (removed, s) = .ok (removed', s') ∧
      Inv s' ∧ ServesAll (· ≤ ·) (removed, s.live) ops (removed', s'.live) := by
  induction ops generalizing s removed with
  | nil => exact ⟨removed, s, rfl, h, .nil _⟩
  | cons op ops ih =>
    cases op with
    | push value =>
      obtain ⟨s₁, hs₁, hinv, hsize, hlive⟩ := push_spec hless h value
      obtain ⟨removed', s', hrun, hinv', hserves⟩ := ih hinv (hsize ▸ hops) removed
      refine ⟨removed', s', ?_, hinv', .cons (.push removed s.live value) ?_⟩
      · simp only [List.foldlM_cons, exec, hs₁, bind, Except.bind]
        exact hrun
      · rwa [Multiset.cons_coe, ← Multiset.coe_eq_coe.2 hlive]
    | pop =>
      obtain ⟨x, s₁, hx, hs₁, hinv, hsize, hlive, hmax⟩ := pop_spec hless h hops.1
      -- the heap serves the largest element, and the rest is what it has left
      have hsize' : s.size - 1 = s₁.size := by omega
      obtain ⟨removed', s', hrun, hinv', hserves⟩ := ih hinv (hsize' ▸ hops.2) (removed ++ [x])
      refine ⟨removed', s', ?_, hinv', ?_⟩
      · simp only [List.foldlM_cons, exec, hx, hs₁, bind, Except.bind]
        exact hrun
      · rw [Multiset.coe_eq_coe.2 hlive, ← Multiset.cons_coe]
        refine .cons (.pop removed s₁.live x fun y hy => ?_) hserves
        exact hmax y (hlive.mem_iff.2 (List.mem_cons_of_mem x hy))

theorem inv_create : Inv (create : Heap T) :=
  ⟨Nat.le_refl 0, fun _ i hi => absurd hi (Nat.not_lt_zero i)⟩

/-- With a comparison that is that of the order, a heap is a priority queue. -/
theorem priorityQueue (hless : ∀ x y, less x y = true ↔ x < y) :
    PriorityQueue (· ≤ ·) fun ops : List (Op T) =>
      ops.foldlM (exec (push less) (pop less)) ([], create) := by
  constructor
  · intro ops hops
    obtain ⟨removed, s, hrun, hinv, hserves⟩ := exec_spec hless inv_create hops []
    refine ⟨removed, s, hrun, hinv.size_le, fun i x y hpos hi hx hy => ?_, hserves⟩
    have := hinv.ordered x i hi hpos
    simpa [List.getD_eq_getElem?_getD, HeapArray.parent, hx, hy] using this
  · intro l
    have hops : Admissible 0 (l.map .push ++ List.replicate l.length (.pop : Op T)) :=
      admissible_pushes l 0 (by simpa using admissible_replicate_pop l.length)
    obtain ⟨sorted, s, hrun, hinv, hserves⟩ := exec_spec hless inv_create hops []
    obtain ⟨sorted', hsorted, hlen, hsum, hpairwise⟩ := serves_pops (serves_pushes hserves)
    simp only [List.nil_append] at hsorted
    subst hsorted
    -- as many elements were removed as there were
    have hcard := congrArg Multiset.card hsum
    have hzero : (create : Heap T).live = [] := rfl
    simp only [hzero, Multiset.card_add, Multiset.coe_card, hlen, List.length_nil] at hcard
    have hlive : s.live = [] := List.eq_nil_of_length_eq_zero (by omega)
    refine ⟨sorted, s, hrun, ?_, ?_, hpairwise⟩
    · have hsize := hinv.size_le
      rcases List.take_eq_nil_iff.1 hlive with hs | hb
      · exact hs
      · rw [hb, List.length_nil] at hsize
        omega
    · rw [hlive, hzero] at hsum
      exact Multiset.coe_eq_coe.1 (by simpa using hsum)

end Runs

end Heap

/-- Both heaps are priority queues, for the order and for the opposite one. -/
theorem heaps_refine {T : Type} [LinearOrder T] :
    Heap.PriorityQueue (fun x y : T => x ≤ y) MaxHeap.run ∧
      Heap.PriorityQueue (fun x y : T => y ≤ x) MinHeap.run := by
  have hmax := Heap.priorityQueue fun x y : T => decide_eq_true_iff (p := x < y)
  have hmin := @Heap.priorityQueue T (inferInstanceAs (LinearOrder Tᵒᵈ)) _
    fun x y : T => decide_eq_true_iff (p := x > y)
  exact ⟨hmax, hmin⟩

end CppLearn

import CppLearn.ShmMsgQueue.Defs
import CppLearn.Lib.LinkedList

/-!
# The two lists of the message queue

The free list and the message list share the link field of their nodes. `Lists` says which nodes
are on which list; the operations move one node between a list and the outside.

## Main definitions

* `Lists`: the nodes on the free list and on the message list;
* `SamePayload`: two states agree on everything but the links.

## Main results

* `init_spec`, `allocateNode_spec`, `deallocateNode_spec`, `put_spec`, `pop_spec`: one lemma for
  each operation.
-/

namespace CppLearn.ShmMsgQueue

open BoundedLoop LinkedList

/-- The free list consists of the nodes in `free`, the message list of those in `msgs`. -/
structure Lists (list : ChunkList) (free msgs : List ℕ) : Prop where
  /-- The free list. -/
  freeChain : Chain (fun i => (list.nodes i).next) list.freeListHead free
  /-- The message list. -/
  msgChain : Chain (fun i => (list.nodes i).next) list.head msgs
  /-- `tail` is the last message. -/
  tail : list.tail = msgs.getLast?
  /-- No node occurs twice. -/
  nodup : (free ++ msgs).Nodup
  /-- The nodes are in the array. -/
  lt : ∀ i ∈ free ++ msgs, i < list.capacity

/-- The arrays of `list` and `list'` differ in their links only. -/
structure SamePayload (list list' : ChunkList) : Prop where
  capacity : list'.capacity = list.capacity
  data : ∀ i, (list'.nodes i).data = (list.nodes i).data
  size : ∀ i, (list'.nodes i).size = (list.nodes i).size

variable {list : ChunkList} {free msgs : List ℕ} {i : ℕ}

/-- The payload is kept by doing nothing, -/
theorem SamePayload.refl (list : ChunkList) : SamePayload list list :=
  ⟨rfl, fun _ => rfl, fun _ => rfl⟩

/-- and by two steps that keep it. -/
theorem SamePayload.trans {l₁ l₂ l₃ : ChunkList} (h : SamePayload l₁ l₂) (h' : SamePayload l₂ l₃) :
    SamePayload l₁ l₃ :=
  ⟨h'.capacity.trans h.capacity, fun i => (h'.data i).trans (h.data i),
    fun i => (h'.size i).trans (h.size i)⟩

/-- The array with the link of one node changed. -/
def setNext (nodes : ℕ → Node) (i : ℕ) (p : Option ℕ) : ℕ → Node :=
  Function.update nodes i { nodes i with next := p }

section SetNext

variable (nodes : ℕ → Node) (i j : ℕ) (p : Option ℕ)

/-- Assigning a link changes that node, -/
theorem setNext_self : (setNext nodes i p i).next = p := by simp [setNext]

/-- no other one, -/
theorem setNext_of_ne {i j : ℕ} (h : j ≠ i) : setNext nodes i p j = nodes j :=
  Function.update_of_ne h ..

/-- and neither the data -/
theorem setNext_data : (setNext nodes i p j).data = (nodes j).data := by
  by_cases h : j = i
  · subst h
    simp [setNext]
  · rw [setNext_of_ne nodes p h]

/-- nor the size. -/
theorem setNext_size : (setNext nodes i p j).size = (nodes j).size := by
  by_cases h : j = i
  · subst h
    simp [setNext]
  · rw [setNext_of_ne nodes p h]

end SetNext

/-- The same in the list of nodes. -/
theorem modify_next (hi : i < list.capacity) (p : Option ℕ) :
    list.modify i ({ · with next := p }) = .ok { list with nodes := setNext list.nodes i p } :=
  if_pos hi

/-- The number of nodes is converted to 32 bits, -/
theorem init_capacity {capacity : ℕ} (h : ChunkList.init capacity = .ok list) :
    list.capacity = capacity % 2 ^ 32 := by
  unfold ChunkList.init at h
  simp only at h
  split_ifs at h
  rw [← Except.ok.inj h]

/-- and must not be zero then. -/
theorem init_capacity_pos {capacity : ℕ} (h : ChunkList.init capacity = .ok list) :
    0 < capacity % 2 ^ 32 := by
  unfold ChunkList.init at h
  simp only at h
  split_ifs at h with hcap
  exact hcap.1

/-- A new list: all nodes are free. -/
theorem init_spec {capacity : ℕ} (h : ChunkList.init capacity = .ok list) :
    Lists list (List.range list.capacity) [] ∧ list.capacity < 2 ^ 31 := by
  unfold ChunkList.init at h
  simp only at h
  split_ifs at h with hcap
  obtain rfl := Except.ok.inj h
  refine ⟨⟨?_, rfl, rfl, by simpa using List.nodup_range, by simp⟩, hcap.2⟩
  rw [List.range_eq_range']
  -- each node is linked to the next one, and the last one to none
  refine chain_range 0 (fun i hi _ => ?_) (fun i hi _ => ?_) hcap.1
  · rw [Nat.zero_add] at hi
    exact if_pos hi
  · rw [Nat.zero_add] at hi
    exact if_neg (Nat.not_lt.2 (Nat.le_of_eq hi.symm))

/-- `allocate_node` takes the first node off the free list. -/
theorem allocateNode_spec (h : Lists list free msgs) :
    (free = [] ∧ list.allocateNode = .ok (none, list)) ∨
      ∃ i rest list', free = i :: rest ∧ list.allocateNode = .ok (some i, list') ∧
        Lists list' rest msgs ∧ SamePayload list list' ∧ list'.nodes = list.nodes := by
  have hhead := h.freeChain.head
  cases free with
  | nil => exact .inl ⟨rfl, by simp [ChunkList.allocateNode, hhead]⟩
  | cons i rest =>
    rw [List.head?_cons] at hhead
    have hi : i < list.capacity := h.lt i (by simp)
    refine .inr ⟨i, rest, { list with freeListHead := (list.nodes i).next }, rfl, ?_,
      ⟨h.freeChain.2, h.msgChain, h.tail, ?_, fun j hj => h.lt j ?_⟩,
      ⟨rfl, fun _ => rfl, fun _ => rfl⟩, rfl⟩
    · simp [ChunkList.allocateNode, hhead, ChunkList.read, hi, bind, Except.bind]
    · exact (List.nodup_cons.1 h.nodup).2
    · exact List.mem_cons_of_mem i hj

/-- Changing the payload of a node does not affect the lists. -/
theorem modify_spec (f : Node → Node) (h : Lists list free msgs) (hi : i < list.capacity)
    (hf : ∀ n, (f n).next = n.next) :
    ∃ list', list.modify i f = .ok list' ∧ Lists list' free msgs ∧
      list'.capacity = list.capacity ∧
      list'.nodes = Function.update list.nodes i (f (list.nodes i)) := by
  -- `next` is the only field that the lists depend on
  have hnext : ∀ j, ((Function.update list.nodes i (f (list.nodes i))) j).next =
      (list.nodes j).next := by
    intro j
    by_cases hj : j = i
    · subst hj
      rw [Function.update_self, hf]
    · rw [Function.update_of_ne hj]
  exact ⟨_, if_pos hi, ⟨h.freeChain.congr fun j _ => hnext j, h.msgChain.congr fun j _ => hnext j,
    h.tail, h.nodup, h.lt⟩, rfl, rfl⟩

/-- `deallocate_node` puts a node in front of the free list. -/
theorem deallocateNode_spec (h : Lists list free msgs) (hi : i < list.capacity)
    (hout : i ∉ free ++ msgs) :
    ∃ list', list.deallocateNode i = .ok list' ∧ Lists list' (i :: free) msgs ∧
      SamePayload list list' := by
  rw [List.mem_append, not_or] at hout
  -- only the link of the node itself changes
  have hkeep : ∀ j, j ≠ i →
      (setNext list.nodes i list.freeListHead j).next = (list.nodes j).next :=
    fun j hj => congrArg Node.next (setNext_of_ne _ _ hj)
  refine ⟨{ list with nodes := setNext list.nodes i list.freeListHead, freeListHead := some i }, ?_,
    ⟨?_, ?_, h.tail, ?_, ?_⟩, rfl, fun j => setNext_data .., fun j => setNext_size ..⟩
  · simp only [ChunkList.deallocateNode, modify_next hi, bind, Except.bind]
  · exact h.freeChain.push hout.1 (setNext_self ..) hkeep
  · exact h.msgChain.congr fun j hj => hkeep j (ne_of_mem_of_not_mem hj hout.2)
  · exact List.nodup_cons.2 ⟨by simp [hout], h.nodup⟩
  · intro j hj
    rcases List.mem_cons.1 hj with rfl | hj
    · exact hi
    · exact h.lt j hj

/-- `put` appends a node to the message list. -/
theorem put_spec (h : Lists list free msgs) (hi : i < list.capacity) (hout : i ∉ free ++ msgs) :
    ∃ list', list.put i = .ok list' ∧ Lists list' free (msgs ++ [i]) ∧ SamePayload list list' := by
  have hnd : (free ++ (msgs ++ [i])).Nodup := by
    rw [← List.append_assoc]
    exact List.nodup_append.2 ⟨h.nodup, List.nodup_singleton i, fun j hj k hk => by
      rw [List.mem_singleton.1 hk]
      exact ne_of_mem_of_not_mem hj hout⟩
  have hlt : ∀ j ∈ free ++ (msgs ++ [i]), j < list.capacity := by
    intro j hj
    rw [← List.append_assoc, List.mem_append, List.mem_singleton] at hj
    rcases hj with hj | rfl
    · exact h.lt j hj
    · exact hi
  rw [List.mem_append, not_or] at hout
  have hkeep : ∀ j, j ≠ i → (setNext list.nodes i none j).next = (list.nodes j).next :=
    fun j hj => congrArg Node.next (setNext_of_ne _ _ hj)
  rcases List.eq_nil_or_concat msgs with rfl | ⟨front, last, rfl⟩
  · -- the first message becomes head and tail
    have htail : list.tail = none := h.tail
    have hhead : list.head = none := h.msgChain
    refine ⟨{ list with nodes := setNext list.nodes i none, tail := some i, head := some i }, ?_,
      ⟨h.freeChain.congr fun j hj => hkeep j (ne_of_mem_of_not_mem hj hout.1),
        ⟨rfl, setNext_self ..⟩, rfl, hnd, hlt⟩, rfl, fun j => setNext_data ..,
      fun j => setNext_size ..⟩
    simp only [ChunkList.put, modify_next hi, bind, Except.bind, htail, hhead, if_true]
  · -- a later message is linked to the last one
    rw [List.concat_eq_append] at *
    have htail : list.tail = some last := by rw [h.tail, List.getLast?_concat]
    have hlast : last < list.capacity := h.lt last (by simp)
    have hhead : list.head ≠ none := by
      rw [h.msgChain.head]
      simp
    have hne : i ≠ last := by
      rintro rfl
      exact hout.2 (by simp)
    have hmod : ({ list with nodes := setNext list.nodes i none } : ChunkList).modify last
        ({ · with next := some i }) =
        .ok { list with nodes := setNext (setNext list.nodes i none) last (some i) } :=
      if_pos hlast
    have hkeep' : ∀ j, j ≠ i → j ≠ last →
        (setNext (setNext list.nodes i none) last (some i) j).next = (list.nodes j).next := by
      intro j hji hjl
      rw [setNext_of_ne _ _ hjl]
      exact hkeep j hji
    have hmsgs : (front ++ [last]).Nodup := (List.nodup_append.1 h.nodup).2.1
    have hdisj : ∀ j ∈ free, j ≠ last := fun j hj =>
      (List.nodup_append.1 h.nodup).2.2 j hj last (by simp)
    refine ⟨{ list with
        nodes := setNext (setNext list.nodes i none) last (some i), tail := some i },
      ?_, ⟨?_, ?_, ?_, hnd, hlt⟩, rfl, fun j => ?_, fun j => ?_⟩
    · rw [htail] at hmod
      simp only [ChunkList.put, modify_next hi, bind, Except.bind, htail, hmod, if_neg hhead]
    · exact h.freeChain.congr fun j hj =>
        hkeep' j (ne_of_mem_of_not_mem hj hout.1) (hdisj j hj)
    · have hnew : (setNext (setNext list.nodes i none) last (some i) i).next = none := by
        rw [setNext_of_ne _ _ hne]
        exact setNext_self ..
      exact h.msgChain.append hmsgs hout.2 (setNext_self ..) hnew hkeep'
    · exact List.getLast?_concat.symm
    · exact (setNext_data ..).trans (setNext_data ..)
    · exact (setNext_size ..).trans (setNext_size ..)

/-- `pop` takes the first node off the message list. -/
theorem pop_spec (h : Lists list free msgs) :
    (msgs = [] ∧ list.pop = .ok (none, list)) ∨
      ∃ i rest list', msgs = i :: rest ∧ list.pop = .ok (some i, list') ∧
        Lists list' free rest ∧ SamePayload list list' ∧ list'.nodes = list.nodes := by
  have hhead := h.msgChain.head
  cases msgs with
  | nil => exact .inl ⟨rfl, by simp [ChunkList.pop, hhead]⟩
  | cons i rest =>
    rw [List.head?_cons] at hhead
    have hi : i < list.capacity := h.lt i (by simp)
    have hnd : (free ++ rest).Nodup := by
      refine h.nodup.sublist ?_
      exact (List.sublist_cons_self i rest).append_left free
    have hlt : ∀ j ∈ free ++ rest, j < list.capacity := by
      intro j hj
      refine h.lt j ?_
      rw [List.mem_append] at hj ⊢
      exact hj.imp_right (List.mem_cons_of_mem i)
    have hrest := h.msgChain.2
    by_cases hnext : (list.nodes i).next = none
    · -- it was the only message
      obtain rfl : rest = [] := by
        have hfirst : (list.nodes i).next = rest.head? := hrest.head
        rw [hnext] at hfirst
        exact List.head?_eq_none_iff.1 hfirst.symm
      refine .inr ⟨i, [], { list with head := none, tail := none }, rfl, ?_,
        ⟨h.freeChain, rfl, rfl, hnd, hlt⟩, ⟨rfl, fun _ => rfl, fun _ => rfl⟩, rfl⟩
      simp [ChunkList.pop, hhead, ChunkList.read, hi, bind, Except.bind, hnext]
    · have htail : list.tail = rest.getLast? := by
        rw [h.tail]
        cases rest with
        | nil => exact absurd hrest hnext
        | cons j rest => exact List.getLast?_cons_cons
      refine .inr ⟨i, rest, { list with head := (list.nodes i).next }, rfl, ?_,
        ⟨h.freeChain, hrest, htail, hnd, hlt⟩, ⟨rfl, fun _ => rfl, fun _ => rfl⟩, rfl⟩
      simp [ChunkList.pop, hhead, ChunkList.read, hi, bind, Except.bind, hnext]

end CppLearn.ShmMsgQueue

import Mathlib.Data.List.Basic
import Mathlib.Data.List.Perm.Basic
import Mathlib.Data.List.Range

/-!
# Deques and their ledgers

Operations on a sequential deque, and a ledger that gives every inserted element a ticket, so that
equal elements can be told apart. The tickets are handed out in the order of insertion.

The operations are `Op`, and `Acts` is what they do. A `Ledger` says which insertions are in the
deque, which have been delivered, and which have been discarded. It is sound if it accounts for the
deque (`Ledger.Sound`), and the ledger of any sequence of operations is (`Acts.sound`).
-/

namespace CppLearn.Deque

open scoped List

/-- The operations on a deque. -/
inductive Op (α : Type*) where
  | pushBack (x : α)
  | pushFront (x : α)
  | popFront (x : α)
  | clear

/-- The sequence of operations takes the first deque to the second one. -/
inductive Acts {α : Type*} : List α → List (Op α) → List α → Prop
  | nil {q : List α} : Acts q [] q
  | pushBack {q₀ q : List α} {ops : List (Op α)} (x : α) : Acts q₀ ops q →
      Acts q₀ (ops ++ [.pushBack x]) (q ++ [x])
  | pushFront {q₀ q : List α} {ops : List (Op α)} (x : α) : Acts q₀ ops q →
      Acts q₀ (ops ++ [.pushFront x]) (x :: q)
  | popFront {q₀ q : List α} {ops : List (Op α)} (x : α) : Acts q₀ ops (x :: q) →
      Acts q₀ (ops ++ [.popFront x]) q
  | clear {q₀ q : List α} {ops : List (Op α)} : Acts q₀ ops q → Acts q₀ (ops ++ [.clear]) []

/-- The end of the deque at which an element was inserted. -/
inductive Side where
  | front
  | back
  deriving DecidableEq

/-- The insertions in their order, and the tickets of the elements that are in the deque, have been
delivered, and have been discarded. -/
structure Ledger (α : Type*) where
  arrivals : List (Side × α)
  queue : List ℕ
  delivered : List ℕ
  discarded : List ℕ

variable {α : Type*} {L : Ledger α} {q out : List α} {ops : List (Op α)}

namespace Ledger

/-- The next ticket is for `x`. -/
def arrive (L : Ledger α) (side : Side) (x : α) : Ledger α :=
  { L with arrivals := L.arrivals ++ [(side, x)] }

/-- Keep the ledger up to date. -/
def record (L : Ledger α) : Op α → Ledger α
  | .pushBack x => { L.arrive .back x with queue := L.queue ++ [L.arrivals.length] }
  | .pushFront x => { L.arrive .front x with queue := L.arrivals.length :: L.queue }
  | .popFront _ => { L with queue := L.queue.tail, delivered := L.delivered ++ L.queue.take 1 }
  | .clear => { L with queue := [], discarded := L.discarded ++ L.queue }

/-- The element with the ticket `k`. -/
def item (L : Ledger α) (k : ℕ) : Option α := L.arrivals[k]?.map Prod.snd

/-- The element with the ticket `k` was inserted at the back. -/
def fromBack (L : Ledger α) (k : ℕ) : Bool := L.arrivals[k]?.map Prod.fst = some .back

/-- The ledger accounts for the deque `q` and for the elements delivered so far: each ticket is in
one place, and what was inserted at the back is delivered in the order of insertion. -/
structure Sound (L : Ledger α) (q out : List α) : Prop where
  queue : L.queue.map L.item = q.map some
  delivered : L.delivered.map L.item = out.map some
  partition : (L.queue ++ L.delivered ++ L.discarded).Perm (List.range L.arrivals.length)
  order : ((L.delivered ++ L.queue).filter L.fromBack).Pairwise (· < ·)

end Ledger

/-- The ledger of a sequence of operations on an empty deque. -/
def ledger (ops : List (Op α)) : Ledger α := ops.foldl Ledger.record ⟨[], [], [], []⟩

/-- The elements that the operations deliver. -/
def popped (ops : List (Op α)) : List α :=
  ops.filterMap fun
    | .popFront x => some x
    | _ => none

namespace Ledger

/-- The ledger is kept from the first operation to the last. -/
theorem ledger_concat (op : Op α) : ledger (ops ++ [op]) = (ledger ops).record op := by
  simp [ledger]

/-! ## Insertions -/

/-- Every number in it belongs to an arrival. -/
theorem Sound.lt (h : L.Sound q out) {k : ℕ} (hk : k ∈ L.queue ++ L.delivered ++ L.discarded) :
    k < L.arrivals.length :=
  List.mem_range.1 (h.partition.mem_iff.1 hk)

@[simp]
theorem item_arrive_self (side : Side) (x : α) :
    (L.arrive side x).item L.arrivals.length = some x := by
  simp [item, arrive]

/-- Arrivals do not change the earlier ones: -/
theorem item_arrive {side : Side} {x : α} {k : ℕ} (hk : k < L.arrivals.length) :
    (L.arrive side x).item k = L.item k := by
  simp only [item, arrive, List.getElem?_append_left hk]

/-- a new one remembers its side, -/
theorem fromBack_arrive_self (side : Side) (x : α) :
    (L.arrive side x).fromBack L.arrivals.length = (side = .back) := by
  simp [fromBack, arrive]

/-- and the others theirs. -/
theorem fromBack_arrive {side : Side} {x : α} {k : ℕ} (hk : k < L.arrivals.length) :
    (L.arrive side x).fromBack k = L.fromBack k := by
  simp only [fromBack, arrive, List.getElem?_append_left hk]

/-- The tickets that are handed out keep their elements. -/
theorem Sound.map_item_arrive (h : L.Sound q out) (side : Side) (x : α) :
    L.queue.map (L.arrive side x).item = q.map some ∧
      L.delivered.map (L.arrive side x).item = out.map some := by
  rw [← h.queue, ← h.delivered]
  constructor <;> refine List.map_congr_left fun k hk => item_arrive (h.lt ?_)
  · simp [hk]
  · simp [hk]

/-- The tickets that are handed out keep their side. -/
theorem Sound.filter_arrive (h : L.Sound q out) (side : Side) (x : α) :
    (L.delivered ++ L.queue).filter (L.arrive side x).fromBack =
      (L.delivered ++ L.queue).filter L.fromBack := by
  refine List.filter_congr fun k hk => fromBack_arrive (h.lt ?_)
  rcases List.mem_append.1 hk with hk | hk <;> simp [hk]

/-- The new ticket, wherever it is put, completes the tickets that are handed out. -/
theorem Sound.partition_arrive (h : L.Sound q out) {queue : List ℕ}
    (hqueue : queue.Perm (L.arrivals.length :: L.queue)) :
    (queue ++ L.delivered ++ L.discarded).Perm (List.range (L.arrivals.length + 1)) := by
  rw [List.range_succ]
  calc queue ++ L.delivered ++ L.discarded
      _ ~ L.arrivals.length :: (L.queue ++ L.delivered ++ L.discarded) :=
        (hqueue.append_right _).append_right _
      _ ~ L.arrivals.length :: List.range L.arrivals.length := h.partition.cons _
      _ ~ List.range L.arrivals.length ++ [L.arrivals.length] :=
        (List.perm_append_singleton _ _).symm

/-- Arrivals at the back, -/
theorem Sound.pushBack (h : L.Sound q out) (x : α) :
    (L.record (.pushBack x)).Sound (q ++ [x]) out := by
  obtain ⟨hqueue, hdelivered⟩ := h.map_item_arrive .back x
  refine ⟨?_, hdelivered, ?_, ?_⟩
  · change (L.queue ++ [L.arrivals.length]).map (L.arrive .back x).item = _
    rw [List.map_append, hqueue]
    simp
  · have hpart := h.partition_arrive (List.perm_append_singleton L.arrivals.length L.queue)
    simpa [record, arrive] using hpart
  · change ((L.delivered ++ (L.queue ++ [L.arrivals.length])).filter
      (L.arrive .back x).fromBack).Pairwise _
    rw [← List.append_assoc, List.filter_append, h.filter_arrive, List.pairwise_append]
    -- the new ticket is larger than all others
    refine ⟨h.order, List.Pairwise.filter _ (List.pairwise_singleton _ _), fun k hk m hm => ?_⟩
    rw [List.mem_singleton.1 (List.mem_of_mem_filter hm)]
    rcases List.mem_append.1 (List.mem_of_mem_filter hk) with hk | hk <;> exact h.lt (by simp [hk])

/-- and at the front, -/
theorem Sound.pushFront (h : L.Sound q out) (x : α) :
    (L.record (.pushFront x)).Sound (x :: q) out := by
  obtain ⟨hqueue, hdelivered⟩ := h.map_item_arrive .front x
  refine ⟨?_, hdelivered, ?_, ?_⟩
  · change (L.arrivals.length :: L.queue).map (L.arrive .front x).item = _
    rw [List.map_cons, hqueue]
    simp
  · have hpart := h.partition_arrive (List.Perm.refl (L.arrivals.length :: L.queue))
    simpa [record, arrive] using hpart
  · change ((L.delivered ++ L.arrivals.length :: L.queue).filter
      (L.arrive .front x).fromBack).Pairwise _
    -- the new ticket is not for an element from the back
    have hfilter := h.filter_arrive .front x
    rw [List.filter_append] at hfilter ⊢
    rw [List.filter_cons_of_neg (by rw [fromBack_arrive_self]; nofun), hfilter]
    exact h.order

/-! ## Removals -/

/-- a delivery, -/
theorem Sound.popFront {x : α} (h : L.Sound (x :: q) out) :
    (L.record (.popFront x)).Sound q (out ++ [x]) := by
  have hqueue := h.queue
  rcases htickets : L.queue with _ | ⟨k, tickets⟩
  · rw [htickets] at hqueue
    cases hqueue
  · rw [htickets, List.map_cons, List.map_cons, List.cons.injEq] at hqueue
    obtain ⟨hk, htail⟩ := hqueue
    refine ⟨?_, ?_, ?_, ?_⟩ <;> simp only [record, htickets, List.tail_cons, List.take_succ_cons,
      List.take_zero]
    · exact htail
    · change (L.delivered ++ [k]).map L.item = _
      rw [List.map_append, h.delivered, List.map_append, List.map_singleton, hk, List.map_singleton]
    · have hpart := h.partition
      rw [htickets] at hpart
      refine List.Perm.trans ?_ hpart
      -- the ticket moves from the head of the queue to the end of what is delivered
      apply List.Perm.append_right
      rw [← List.append_assoc]
      exact List.perm_append_singleton _ _
    · have horder := h.order
      rw [htickets] at horder
      rwa [List.append_assoc, List.singleton_append]

/-- and the loss of the whole queue keep the ledger sound. -/
theorem Sound.clear (h : L.Sound q out) : (L.record .clear).Sound [] out := by
  refine ⟨rfl, h.delivered, ?_, ?_⟩
  · refine List.Perm.trans ?_ h.partition
    change (L.delivered ++ (L.discarded ++ L.queue)).Perm _
    rw [List.append_assoc, ← List.append_assoc L.delivered]
    exact List.perm_append_comm
  · change ((L.delivered ++ []).filter L.fromBack).Pairwise _
    have horder := h.order
    rw [List.filter_append] at horder
    rw [List.append_nil]
    exact (List.pairwise_append.1 horder).1

end Ledger

/-- The ledger of a sequence of operations accounts for the deque that they lead to. -/
theorem Acts.sound (h : Acts [] ops q) : (ledger ops).Sound q (popped ops) := by
  induction h with
  | nil => exact ⟨rfl, rfl, List.Perm.refl _, List.Pairwise.nil⟩
  | pushBack x _ ih =>
    rw [Ledger.ledger_concat]
    simpa [popped] using ih.pushBack x
  | pushFront x _ ih =>
    rw [Ledger.ledger_concat]
    simpa [popped] using ih.pushFront x
  | popFront x _ ih =>
    rw [Ledger.ledger_concat]
    simpa [popped] using ih.popFront
  | clear _ ih =>
    rw [Ledger.ledger_concat]
    simpa [popped] using ih.clear

end CppLearn.Deque

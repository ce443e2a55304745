import CppLearn.MallocLab.Correctness

/-!
# Calls of the allocator

The calls that a client can make, as data. Sequences of them can be run, and runs can be restricted
by a condition on every call and the heap in which it is made.

A `Call` is that of a client, or a write to a payload, and `replay` makes a sequence of them from
the beginning. `ReachableWhen` are the states of runs in which every call meets a condition.
-/

namespace CppLearn.MallocLab

open BoundedLoop

/-- A call of a client. Live blocks are given with their addresses and the requested sizes. -/
inductive Call where
  | malloc (size : ℕ)
  | free (x : ℕ × ℕ)
  | realloc (x : ℕ × ℕ) (size : ℕ)
  | write (x : ℕ × ℕ) (i : ℕ) (byte : UInt8)

namespace Call

/-- The arguments are live, and requests are for at least one byte and at most `bound` bytes. -/
def Allowed (bound : ℕ) (live : List (ℕ × ℕ)) : Call → Prop
  | malloc size => 1 ≤ size ∧ size ≤ bound
  | free x => x ∈ live
  | realloc x size => x ∈ live ∧ 1 ≤ size ∧ size ≤ bound
  | write x i _ => x ∈ live ∧ i < x.2

instance (bound : ℕ) (live : List (ℕ × ℕ)) : DecidablePred (Allowed bound live)
  | malloc _ => inferInstanceAs (Decidable (_ ∧ _))
  | free x => inferInstanceAs (Decidable (x ∈ live))
  | realloc _ _ => inferInstanceAs (Decidable (_ ∧ _))
  | write _ _ _ => inferInstanceAs (Decidable (_ ∧ _))

/-- The heap and the live blocks after a call. -/
def run (s : Heap) (live : List (ℕ × ℕ)) : Call → Except Fault (Heap × List (ℕ × ℕ))
  | malloc size => do
    let (r, s) ← s.mmMalloc size
    .ok (s, afterMalloc live size r)
  | free x => do .ok (← s.mmFree x.1, live.erase x)
  | realloc x size => do
    let (r, s) ← s.mmRealloc x.1 size
    .ok (s, afterRealloc live x size r)
  | write x i byte => .ok ({ s with memory := Function.update s.memory (x.1 + i) byte }, live)

end Call

/-- A sequence of calls on a heap, each of which has to be allowed. -/
def runCalls (bound : ℕ) : List Call → Heap × List (ℕ × ℕ) → Except Fault (Heap × List (ℕ × ℕ))
  | [], x => .ok x
  | c :: calls, x => do
    if c.Allowed bound x.2 then runCalls bound calls (← c.run x.1 x.2)
    else .error .checkFailed

/-- A sequence of calls on a new heap in storage with zeros. -/
def replay (bound startBrk : ℕ) (calls : List Call) : Except Fault (Heap × List (ℕ × ℕ)) := do
  runCalls bound calls (← (memInit startBrk fun _ => 0).mmInit, [])

/-- The states after sequences of allowed calls that meet the condition `C` in the heap in which
they are made. -/
inductive ReachableWhen (C : Heap → Call → Prop) (bound startBrk : ℕ) :
    Heap → List (ℕ × ℕ) → Prop
  | init {memory : Memory} {s : Heap} : (memInit startBrk memory).mmInit = .ok s →
      ReachableWhen C bound startBrk s []
  | call {s s' : Heap} {live live' : List (ℕ × ℕ)} {c : Call} :
      ReachableWhen C bound startBrk s live → c.Allowed bound live → C s c →
      c.run s live = .ok (s', live') → ReachableWhen C bound startBrk s' live'

variable {C : Heap → Call → Prop} {bound startBrk : ℕ} {s s' : Heap} {live live' : List (ℕ × ℕ)}
  {c : Call} {calls : List Call}

/-- Runs with smaller requests are among the runs with larger ones. -/
theorem Reachable.mono {bound' : ℕ} (h : Reachable bound startBrk s live) (hle : bound ≤ bound') :
    Reachable bound' startBrk s live := by
  induction h with
  | init hrun => exact .init hrun
  | malloc _ hpos hsize hrun ih => exact ih.malloc hpos (Nat.le_trans hsize hle) hrun
  | free _ hx hrun ih => exact ih.free hx hrun
  | realloc _ hx hpos hsize hrun ih => exact ih.realloc hx hpos (Nat.le_trans hsize hle) hrun
  | write _ hx hi ih => exact ih.write hx hi

/-- One more call. -/
theorem Reachable.call (h : Reachable bound startBrk s live) (hallowed : c.Allowed bound live)
    (hrun : c.run s live = .ok (s', live')) : Reachable bound startBrk s' live' := by
  cases c with
  | malloc size =>
    obtain ⟨⟨r, s₁⟩, hmalloc, heq⟩ := bind_eq_ok.1 hrun
    obtain ⟨rfl, rfl⟩ := Prod.mk.inj (Except.ok.inj heq)
    exact h.malloc hallowed.1 hallowed.2 hmalloc
  | free x =>
    obtain ⟨s₁, hfree, heq⟩ := bind_eq_ok.1 hrun
    obtain ⟨rfl, rfl⟩ := Prod.mk.inj (Except.ok.inj heq)
    exact h.free hallowed hfree
  | realloc x size =>
    obtain ⟨⟨r, s₁⟩, hrealloc, heq⟩ := bind_eq_ok.1 hrun
    obtain ⟨rfl, rfl⟩ := Prod.mk.inj (Except.ok.inj heq)
    exact h.realloc hallowed.1 hallowed.2.1 hallowed.2.2 hrealloc
  | write x i byte =>
    obtain ⟨rfl, rfl⟩ := Prod.mk.inj (Except.ok.inj hrun)
    exact h.write hallowed.1 hallowed.2

/-- The states of restricted runs are reachable. -/
theorem ReachableWhen.reachable (h : ReachableWhen C bound startBrk s live) :
    Reachable bound startBrk s live := by
  induction h with
  | init hrun => exact .init hrun
  | call _ hallowed _ hrun ih => exact ih.call hallowed hrun

theorem Reachable.runCalls (h : Reachable bound startBrk s live)
    (hrun : runCalls bound calls (s, live) = .ok (s', live')) :
    Reachable bound startBrk s' live' := by
  induction calls generalizing s live with
  | nil =>
    obtain ⟨rfl, rfl⟩ := Prod.mk.inj (Except.ok.inj hrun)
    exact h
  | cons c calls ih =>
    unfold MallocLab.runCalls at hrun
    split_ifs at hrun with hallowed
    obtain ⟨⟨s₁, live₁⟩, hcall, hrest⟩ := bind_eq_ok.1 hrun
    exact ih (h.call hallowed hcall) hrest

/-- A sequence of calls that was evaluated leads to a reachable state. -/
theorem replay_reachable (hrun : replay bound startBrk calls = .ok (s, live)) :
    Reachable bound startBrk s live := by
  obtain ⟨s₀, hinit, hcalls⟩ := bind_eq_ok.1 hrun
  exact (Reachable.init hinit).runCalls hcalls

end CppLearn.MallocLab

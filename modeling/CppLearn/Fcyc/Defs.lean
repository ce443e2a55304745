import CppLearn.Lib.CheckedVector
import Mathlib.Order.Basic

/-!
# The sampler of `fcyc.c`

`fcyc` measures a function again and again. It keeps the `kbest` smallest measurements, and stops as
soon as they are close to each other. The measurements are the values of a function of their number,
in a linear order, as none of them is NaN. Whether two of them are close is a parameter that stands
for `(1 + epsilon) * values[0] >= values[kbest - 1]`. The way in which the time is measured, and
what is done to the cache before, are left out.

`addSample` and `hasConverged` are the functions of these names, and `fcyc` is the loop that calls
them.
-/

namespace CppLearn.Fcyc

open BoundedLoop CheckedVector

variable {α : Type} [LinearOrder α]

/-- The variables `values` and `samplecount`. -/
structure Sampler (α : Type) where
  values : List α
  samplecount : ℕ
  deriving DecidableEq

variable (kbest maxsamples : ℕ)

/-- `init_sampler`. -/
def initSampler (zero : α) : Sampler α := ⟨List.replicate kbest zero, 0⟩

/-- The loop of the insertion sort, from the position `pos`. -/
def insertionLoop : ℕ → List α → Except Fault (List α)
  | 0, values => .ok values
  | pos + 1, values => do
    if (← read values pos) > (← read values (pos + 1 : ℕ)) then
      insertionLoop pos (← swap values pos (pos + 1 : ℕ))
    else .ok values

/-- The part of `add_sample` before the loop: `pos` and the values. -/
def placeSample (s : Sampler α) (val : α) : Except Fault (ℕ × List α) := do
  if s.samplecount < kbest then .ok (s.samplecount, ← write s.values s.samplecount val)
  else if val < (← read s.values (kbest - 1 : ℤ)) then
    .ok (kbest - 1, ← write s.values (kbest - 1 : ℤ) val)
  else .ok (0, s.values)

/-- `add_sample`. -/
def addSample (s : Sampler α) (val : α) : Except Fault (Sampler α) := do
  let (pos, values) ← placeSample kbest s val
  .ok ⟨← insertionLoop pos values, s.samplecount + 1⟩

/-- `has_converged`. -/
def hasConverged (close : α → α → Bool) (s : Sampler α) : Except Fault Bool := do
  if s.samplecount ≥ kbest then .ok (close (← read s.values 0) (← read s.values (kbest - 1 : ℤ)))
  else .ok false

/-- One iteration of the loop of `fcyc`, where `cyc i` is the measurement after `i` others. -/
def step (close : α → α → Bool) (cyc : ℕ → α) (s : Sampler α) :
    Except Fault (Sampler α ⊕ Sampler α) := do
  let s ← addSample kbest s (cyc s.samplecount)
  if !(← hasConverged kbest close s) && s.samplecount < maxsamples then .ok (.inl s)
  else .ok (.inr s)

/-- `fcyc`: the smallest measurement, with the values and the number of measurements. -/
def fcyc (close : α → α → Bool) (zero : α) (cyc : ℕ → α) (fuel : ℕ) :
    Except Fault (α × Sampler α) := do
  let s ← iterate (fun _ => .diverged) (step kbest maxsamples close cyc) fuel
    (initSampler kbest zero)
  .ok (← read s.values 0, s)

/-- The measurements 9, 5, 7, 6, and then 5 are close enough for the three smallest ones. -/
example :
    (fcyc 3 20 (fun a b : ℕ => decide (b ≤ a + 1)) 0 (fun i => [9, 5, 7, 6, 5].getD i 0)
      21).toOption = some (5, ⟨[5, 5, 6], 5⟩) := by decide

end CppLearn.Fcyc

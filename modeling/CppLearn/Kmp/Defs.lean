import CppLearn.Lib.CheckedVector
import CppLearn.Lib.CountedLoop

/-!
# The prefix function and the matching automaton of `kmp.h`

Positions are `int32_t`. They are less than the length of the string, once this has been converted.
The prefix function compares elements only, so it is given for strings over any type. For the
automaton they are the codes of the characters.

The functions are `prefixFunction` and `computeAutomaton`; `follow` leads the automaton over a text.
-/

namespace CppLearn.Kmp

open BoundedLoop CheckedVector Signed

section PrefixFunction

variable {α : Type} [DecidableEq α]

/-- The condition of the inner loop. -/
def mismatch (s : List α) (i : ℕ) (j : ℤ) : Except Fault Bool := do
  if j > 0 then
    let x ← read s i
    let y ← read s j
    .ok (decide (x ≠ y))
  else .ok false

/-- The inner loop. -/
def fallBack (s : List α) (pi : List ℤ) (i : ℕ) (j : ℤ) : Except Fault ℤ :=
  whileLoop (fun _ => .diverged) (mismatch s i) (fun j => read pi (j - 1)) (i + 1) j

/-- The body of the outer loop. -/
def prefixStep (s : List α) (i : ℕ) (pi : List ℤ) : Except Fault (List ℤ) := do
  let j ← read pi (i - 1)
  let j ← fallBack s pi i j
  let x ← read s i
  let y ← read s j
  write pi i (if x = y then j + 1 else j)

/-- `prefix_function`. The constructor of the vector throws if its size is negative. -/
def prefixFunction (s : List α) : Except Fault (List ℤ) := do
  let n := narrow 32 s.length
  if n < 0 then .error .checkFailed
  else forLoop 1 n.toNat (prefixStep s) (List.replicate n.toNat 0)

end PrefixFunction

/-! ## The automaton -/

/-- `aut[i][c] = q`. -/
def setCell (aut : List (List ℤ)) (i c : ℤ) (q : ℤ) : Except Fault (List (List ℤ)) := do
  let row ← read aut i
  let row ← write row c q
  write aut i row

/-- `aut[i][c]`. -/
def cell (aut : List (List ℤ)) (i c : ℤ) : Except Fault ℤ := do
  let row ← read aut i
  read row c

/-- The body of the inner loop; `'a'` is 97. -/
def automatonStep (s : List ℤ) (pi : List ℤ) (i c : ℕ) (aut : List (List ℤ)) :
    Except Fault (List (List ℤ)) := do
  let x ← read s i
  if i > 0 ∧ 97 + c ≠ x then
    let p ← read pi (i - 1)
    let q ← cell aut p c
    setCell aut i c q
  else setCell aut i c (i + if 97 + c = x then 1 else 0)

/-- `compute_automaton`; `'#'` is 35. -/
def computeAutomaton (s : List ℤ) : Except Fault (List (List ℤ)) := do
  let s := s ++ [35]
  let n := narrow 32 s.length
  let pi ← prefixFunction s
  forLoop 0 n.toNat (fun i => forLoop 0 26 (automatonStep s pi i))
    (List.replicate n.toNat (List.replicate 26 0))

/-- The state after a text, from state 0. -/
def follow (aut : List (List ℤ)) (t : List ℤ) : Except Fault ℤ :=
  t.foldlM (fun q x => cell aut q (x - 97)) 0

end CppLearn.Kmp

import CppLearn.Lib.CheckedVector
import CppLearn.Lib.CountedLoop
import CppLearn.Lib.Signed
import Mathlib.Data.Nat.Log

/-!
# The sparse table of `sparse_table.h`

A `SparseTable` stores, in row `i` and column `j`, the operation folded over the `2 ^ j` elements
from position `i` on. Cells whose elements reach beyond the end are filled too, from cells that the
constructor has left at their initial value.

The logarithms are rounded up exactly. The logarithm of a number that is not positive, whose
conversion to `int` is undefined, and a shift by a negative amount count as failed checks; an access
outside the table is a fault.

`SparseTable.create` is the constructor, and `SparseTable.query` takes the two ends of the range.
-/

namespace CppLearn

open BoundedLoop CheckedVector Signed

/-- A `SparseTable<T>`. -/
structure SparseTable (T : Type) where
  op : T → T → T
  table : List (List T)

namespace SparseTable

variable {T : Type}

/-- `std::ceil(log2(n))`. -/
def ceilLog2 (n : ℤ) : Except Fault ℤ :=
  if 0 < n then .ok (Nat.clog 2 n.toNat) else .error .checkFailed

/-- `1 << q`. -/
def shiftOne (q : ℤ) : Except Fault ℤ :=
  if 0 ≤ q ∧ q < 31 then .ok (2 ^ q.toNat) else .error .checkFailed

/-- `table[i][j]`. -/
def readCell (table : List (List T)) (i j : ℤ) : Except Fault T := do
  let row ← read table i
  read row j

/-- `table[i][j] = x`. -/
def writeCell (table : List (List T)) (i j : ℤ) (x : T) : Except Fault (List (List T)) := do
  let row ← read table i
  let row ← write row j x
  write table i row

/-- The body of the loop over the rows, in column `j`. -/
def fillCell (op : T → T → T) (j : ℕ) (i : ℕ) (table : List (List T)) :
    Except Fault (List (List T)) := do
  let x ← readCell table i (j - 1)
  let y ← readCell table (i + (← shiftOne (j - 1))) (j - 1)
  writeCell table i j (op x y)

/-- The body of the loop over the columns. The condition of the inner loop is `i + pj < len`. -/
def fillColumn (op : T → T → T) (len : ℤ) (j : ℕ) (table : List (List T)) :
    Except Fault (List (List T)) := do
  let pj ← shiftOne (j - 1)
  forLoop 0 (len - pj).toNat (fillCell op j) table

/-- The constructor. The value `zero` is the one that the cells have at first. -/
def create (op : T → T → T) (zero : T) (v : List T) : Except Fault (SparseTable T) := do
  let len := narrow 32 v.length
  let l1 := (← ceilLog2 len) + 1
  let table := List.replicate len.toNat (List.replicate l1.toNat zero)
  let table ← forLoop 0 len.toNat (fun i table => do
    let x ← read v i
    writeCell table i 0 x) table
  let table ← forLoop 1 l1.toNat (fillColumn op len) table
  .ok ⟨op, table⟩

/-- `query`. -/
def query (t : SparseTable T) (l r : ℤ) : Except Fault T := do
  let lt := r - l + 1
  let q := (← ceilLog2 lt) - 1
  let x ← readCell t.table l q
  let y ← readCell t.table (r - (← shiftOne q) + 1) q
  .ok (t.op x y)

end SparseTable

end CppLearn

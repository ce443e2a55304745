import CppLearn.Lib.Scanf
import CppLearn.MallocLab.Driver

/-!
# The trace files of `mdriver.c`

`read_trace` reads a trace from the text of a file. The text is a list of bytes, and the variables
and arrays that are read before they are written have the values of a parameter. A number that the
type of its variable cannot represent is a fault, as the program is undefined then. The storage for
the arrays is there, but its size wraps around.

A `Trace` is what is read, by `readTrace`. For texts that are written as they should be, `Spells`
says which requests their words stand for, and `readTrace_eq` that these are read.
-/

namespace CppLearn.MallocLab

open BoundedLoop CheckedVector Scanf

/-- `trace_t`. -/
structure Trace where
  suggHeapsize : ℤ
  numIds : ℤ
  numOps : ℤ
  weight : ℤ
  ops : List TraceOp
  blocks : List ℕ
  blockSizes : List ℕ
  deriving DecidableEq

/-- The values of the variables and the arrays before they are written. -/
structure Junk where
  suggHeapsize : ℤ
  numIds : ℤ
  numOps : ℤ
  weight : ℤ
  size : ℕ
  ops : ℕ → TraceOp
  blocks : ℕ → ℕ
  blockSizes : ℕ → ℕ
  numIds_fits : Signed.Fits 32 numIds
  numOps_fits : Signed.Fits 32 numOps

/-- An array in storage of `count * width` bytes, where the product wraps around. -/
def allocate {α : Type} (junk : ℕ → α) (count : ℤ) (width : ℕ) : List α :=
  (List.range (toSize (count * width) / width)).map junk

/-- `MAXLINE`. -/
def maxline : ℕ := 1024

/-! ## `fscanf` -/

/-- `%d`, where the variable has the value `old`. -/
def scanInt (old : ℤ) (text : List UInt8) : Except Fault (ℤ × List UInt8) :=
  match scanNumber text with
  | (none, text) => .ok (old, text)
  | (some x, text) => if Signed.Fits 32 x then .ok (x, text) else .error .invalidAccess

/-- `%u`, which accepts negative numbers. -/
def scanUnsigned (text : List UInt8) : Except Fault (Option ℕ × List UInt8) :=
  match scanNumber text with
  | (none, text) => .ok (none, text)
  | (some x, text) =>
    if x.natAbs < 2 ^ 32 then .ok (some (x % 2 ^ 32).toNat, text) else .error .invalidAccess

/-- The variables of the loop over the requests. -/
structure Reading where
  index : ℕ
  size : ℕ
  maxIndex : ℕ
  opIndex : ℕ
  ops : List TraceOp

namespace Reading

/-- `%u %u`. -/
def scanPair (s : Reading) (text : List UInt8) : Except Fault (Reading × List UInt8) := do
  match ← scanUnsigned text with
  | (none, text) => .ok (s, text)
  | (some index, text) =>
    match ← scanUnsigned text with
    | (none, text) => .ok ({ s with index }, text)
    | (some size, text) => .ok ({ s with index, size }, text)

/-- `%ud`: a letter `d` after the number is read, too. -/
def scanIndex (s : Reading) (text : List UInt8) : Except Fault (Reading × List UInt8) := do
  match ← scanUnsigned text with
  | (none, text) => .ok (s, text)
  | (some index, text) => .ok ({ s with index }, if text.head? = some 100 then text.tail else text)

/-- The element of `ops` is written, and `op_index` is increased. -/
def store (s : Reading) (op : TraceOp → TraceOp) : Except Fault Reading := do
  let ops ← write s.ops s.opIndex (op (← read s.ops s.opIndex))
  .ok { s with ops, opIndex := s.opIndex + 1 }

/-- The cases `'a'` and `'r'`. -/
def sized (type : OpType) (s : Reading) (text : List UInt8) :
    Except Fault (Reading × List UInt8) := do
  let (s, text) ← s.scanPair text
  let s ← s.store fun _ => ⟨type, Signed.narrow 32 s.index, Signed.narrow 32 s.size⟩
  .ok ({ s with maxIndex := if s.index > s.maxIndex then s.index else s.maxIndex }, text)

/-- The case `'f'`, in which the size is not written. -/
def unsized (s : Reading) (text : List UInt8) : Except Fault (Reading × List UInt8) := do
  let (s, text) ← s.scanIndex text
  let s ← s.store fun op => { op with type := .free, index := Signed.narrow 32 s.index }
  .ok (s, text)

/-- The body of the loop, for a word that was read into the array `type`. -/
def next (s : Reading) (type text : List UInt8) : Except Fault (Reading × List UInt8) :=
  if type.length ≥ maxline then .error .invalidAccess
  else match type.head? with
    | some 97 => s.sized .alloc text
    | some 114 => s.sized .realloc text
    | some 102 => s.unsized text
    | _ => .error .checkFailed

/-- The loop over the requests. -/
def readOps : ℕ → Reading → List UInt8 → Except Fault Reading
  | 0, _, _ => .error .diverged
  | fuel + 1, s, text =>
    match scanWord text with
    | (none, _) => .ok s
    | (some type, text) => do
      let (s, text) ← s.next type text
      s.readOps fuel text

end Reading

/-- `read_trace`, after the file was opened. -/
def readTrace (junk : Junk) (text : List UInt8) : Except Fault Trace := do
  let (suggHeapsize, text) ← scanInt junk.suggHeapsize text
  let (numIds, text) ← scanInt junk.numIds text
  let (numOps, text) ← scanInt junk.numOps text
  let (weight, text) ← scanInt junk.weight text
  let ops := allocate junk.ops numOps 12
  let s ← Reading.readOps (text.length + 1) ⟨0, junk.size, 0, 0, ops⟩ text
  if s.maxIndex = toSize (numIds - 1) ∧ toSize numOps = s.opIndex then
    .ok ⟨suggHeapsize, numIds, numOps, weight, s.ops, allocate junk.blocks numIds 4,
      allocate junk.blockSizes numIds 4⟩
  else .error .checkFailed

/-! ## Requests and their words -/

/-- A request of a trace file. -/
inductive Request where
  | alloc (index size : ℕ)
  | realloc (index size : ℕ)
  | free (index : ℕ)
  deriving DecidableEq

/-- What the request leaves in the array `ops`. -/
def Request.stored (old : TraceOp) : Request → TraceOp
  | .alloc index size => ⟨.alloc, index, size⟩
  | .realloc index size => ⟨.realloc, index, size⟩
  | .free index => { old with type := .free, index }

/-- The identifier that counts for `max_index`. -/
def Request.counted : Request → ℕ
  | .alloc index _ => index
  | .realloc index _ => index
  | .free _ => 0

/-- The largest identifier of a request that is not `free`. -/
def maxIndex (requests : List Request) : ℕ :=
  requests.foldl (fun m r => max m r.counted) 0

/-- The words of a request: the first one begins with its letter. -/
inductive Spells : List (List UInt8) → Request → Prop
  | alloc {letters w₁ w₂ : List UInt8} {index size : ℕ}
      (hletters : (97 :: letters).length < maxline) (hindex : Numeral w₁ index)
      (hsize : Numeral w₂ size) (hle : index < 2 ^ 31 ∧ size < 2 ^ 31) :
      Spells [97 :: letters, w₁, w₂] (.alloc index size)
  | realloc {letters w₁ w₂ : List UInt8} {index size : ℕ}
      (hletters : (114 :: letters).length < maxline) (hindex : Numeral w₁ index)
      (hsize : Numeral w₂ size) (hle : index < 2 ^ 31 ∧ size < 2 ^ 31) :
      Spells [114 :: letters, w₁, w₂] (.realloc index size)
  | free {letters w₁ : List UInt8} {index : ℕ} (hletters : (102 :: letters).length < maxline)
      (hindex : Numeral w₁ index) (hle : index < 2 ^ 31) :
      Spells [102 :: letters, w₁] (.free index)

/-! ## Texts that are well written -/

variable {s s' : Reading} {junk : Junk} {text rest w w₁ w₂ w₃ w₄ letters : List UInt8}
  {ws line : List (List UInt8)} {lines : List (List (List UInt8))} {r : Request}
  {requests : List Request} {done todo : List TraceOp} {old : TraceOp} {n index size fuel : ℕ}

/-- Counts of an `int` are converted exactly, -/
theorem toSize_natCast (h : n < 2 ^ 32) : toSize n = n := by
  rw [toSize, Int.emod_eq_of_lt (Int.natCast_nonneg n) (by exact_mod_cast h), Int.toNat_natCast]

/-- and arrays get their lengths. -/
theorem allocate_natCast {α : Type} (junk : ℕ → α) {width : ℕ} (hwidth : 0 < width)
    (h : n * width < 2 ^ 32) : allocate junk n width = (List.range n).map junk := by
  rw [allocate, ← Int.natCast_mul, toSize_natCast h, Nat.mul_div_cancel n hwidth]

/-- A numeral is read as an `int`, -/
theorem scanInt_eq (h : Splits text w rest) (hw : Numeral w n) (hn : n < 2 ^ 31) (old : ℤ) :
    scanInt old text = .ok (↑n, rest) := by
  rw [scanInt, scanNumber_eq h hw]
  exact if_pos ⟨by omega, by omega⟩

/-- or as an `unsigned`. -/
theorem scanUnsigned_eq (h : Splits text w rest) (hw : Numeral w n) (hn : n < 2 ^ 31) :
    scanUnsigned text = .ok (some n, rest) := by
  rw [scanUnsigned, scanNumber_eq h hw]
  refine (if_pos (by omega)).trans ?_
  rw [Int.emod_eq_of_lt (by omega) (by omega), Int.toNat_natCast]

namespace Reading

/-- The two numbers behind `a` and `r`. -/
theorem scanPair_eq (s : Reading) (htext : words text = w₁ :: w₂ :: ws) (hindex : Numeral w₁ index)
    (hsize : Numeral w₂ size) (hle : index < 2 ^ 31 ∧ size < 2 ^ 31) :
    ∃ rest, s.scanPair text = .ok ({ s with index, size }, rest) ∧ words rest = ws := by
  obtain ⟨text₁, hsplits₁, htext₁⟩ := splits_of_words htext
  obtain ⟨text₂, hsplits₂, htext₂⟩ := splits_of_words htext₁
  refine ⟨text₂, ?_, htext₂⟩
  rw [scanPair, scanUnsigned_eq hsplits₁ hindex hle.1, ok_bind]
  dsimp only
  rw [scanUnsigned_eq hsplits₂ hsize hle.2, ok_bind]

/-- The text after a word does not begin with a letter. -/
theorem scanIndex_eq (s : Reading) (htext : words text = w :: ws) (hindex : Numeral w index)
    (hle : index < 2 ^ 31) :
    ∃ rest, s.scanIndex text = .ok ({ s with index }, rest) ∧ words rest = ws := by
  obtain ⟨rest, hsplits, hrest⟩ := splits_of_words htext
  refine ⟨rest, ?_, hrest⟩
  rw [scanIndex, scanUnsigned_eq hsplits hindex hle, ok_bind]
  dsimp only
  have hletter : rest.head? ≠ some 100 := fun h => by
    have hspace := hsplits.ends 100 h
    revert hspace
    decide
  rw [if_neg hletter]

/-- A request is stored where the next one belongs. -/
theorem store_eq (hops : s.ops = done ++ old :: todo) (hdone : done.length = s.opIndex)
    (op : TraceOp → TraceOp) :
    s.store op = .ok { s with ops := done ++ op old :: todo, opIndex := s.opIndex + 1 } := by
  have hlt : s.opIndex < s.ops.length := by
    rw [hops, List.length_append, List.length_cons]
    omega
  rw [store, read_eq hlt, ok_bind, write_ok hlt, ok_bind]
  simp [hops, ← hdone]

/-- The variables after the requests, where the elements `todo` of `ops` are to be written. -/
structure Reads (s s' : Reading) (done todo : List TraceOp) (requests : List Request) : Prop where
  ops : s'.ops = done ++ (List.zipWith Request.stored todo requests ++ todo.drop requests.length)
  maxIndex : s'.maxIndex = requests.foldl (fun m r => max m r.counted) s.maxIndex
  opIndex : s'.opIndex = s.opIndex + requests.length

/-- The state after one request. -/
def after (s : Reading) (done todo : List TraceOp) (old : TraceOp) (r : Request)
    (index size : ℕ) : Reading :=
  ⟨index, size, max s.maxIndex r.counted, s.opIndex + 1, done ++ r.stored old :: todo⟩

/-- The lines of `a` and `r`, -/
theorem sized_eq {type : OpType} (hr : r.stored old = ⟨type, index, size⟩)
    (hcounted : r.counted = index) (hops : s.ops = done ++ old :: todo)
    (hdone : done.length = s.opIndex) (htext : words text = w₁ :: w₂ :: ws)
    (hindex : Numeral w₁ index) (hsize : Numeral w₂ size) (hle : index < 2 ^ 31 ∧ size < 2 ^ 31) :
    ∃ rest, s.sized type text = .ok (s.after done todo old r index size, rest) ∧
      words rest = ws := by
  obtain ⟨rest, hscan, hrest⟩ := s.scanPair_eq htext hindex hsize hle
  refine ⟨rest, ?_, hrest⟩
  have hmax : (if index > s.maxIndex then index else s.maxIndex) = max s.maxIndex index := by
    split_ifs <;> omega
  rw [sized, hscan, ok_bind]
  dsimp only
  rw [store_eq (s := { s with index, size }) hops hdone, ok_bind]
  dsimp only
  rw [hmax, after, hr, hcounted, Signed.narrow_natCast (by omega), Signed.narrow_natCast (by omega)]

/-- and those of `f`. -/
theorem unsized_eq (hops : s.ops = done ++ old :: todo) (hdone : done.length = s.opIndex)
    (htext : words text = w :: ws) (hindex : Numeral w index) (hle : index < 2 ^ 31) :
    ∃ rest, s.unsized text = .ok (s.after done todo old (.free index) index s.size, rest) ∧
      words rest = ws := by
  obtain ⟨rest, hscan, hrest⟩ := s.scanIndex_eq htext hindex hle
  refine ⟨rest, ?_, hrest⟩
  rw [unsized, hscan, ok_bind]
  dsimp only
  rw [store_eq (s := { s with index }) hops hdone, ok_bind, after,
    Signed.narrow_natCast (by omega), show (Request.free index).counted = 0 from rfl, Nat.max_zero]
  rfl

/-- One request, and the others. -/
theorem Reads.cons (h : Reads (s.after done todo old r index size) s'
    (done ++ [r.stored old]) todo requests) : Reads s s' done (old :: todo) (r :: requests) := by
  refine ⟨?_, h.maxIndex, ?_⟩
  · rw [h.ops, List.append_assoc]
    rfl
  · rw [h.opIndex, List.length_cons]
    show s.opIndex + 1 + requests.length = _
    omega

/-- An iteration of the loop. -/
theorem next_eq (hline : Spells line r) (hops : s.ops = done ++ old :: todo)
    (hdone : done.length = s.opIndex) (htext : words text = line ++ ws) :
    ∃ w text₁ rest index size, scanWord text = (some w, text₁) ∧
      s.next w text₁ = .ok (s.after done todo old r index size, rest) ∧ words rest = ws := by
  obtain ⟨w, line, rfl⟩ : ∃ w line', line = w :: line' := by cases hline <;> exact ⟨_, _, rfl⟩
  obtain ⟨text₁, hsplits, htext₁⟩ := splits_of_words htext
  have hword := scanWord_eq hsplits
  cases hline with
  | alloc hletters hindex hsize hle =>
    obtain ⟨rest, hnext, hrest⟩ :=
      sized_eq (r := .alloc _ _) rfl rfl hops hdone htext₁ hindex hsize hle
    exact ⟨_, _, rest, _, _, hword, (if_neg hletters.not_ge).trans hnext, hrest⟩
  | realloc hletters hindex hsize hle =>
    obtain ⟨rest, hnext, hrest⟩ :=
      sized_eq (r := .realloc _ _) rfl rfl hops hdone htext₁ hindex hsize hle
    exact ⟨_, _, rest, _, _, hword, (if_neg hletters.not_ge).trans hnext, hrest⟩
  | free hletters hindex hle =>
    obtain ⟨rest, hnext, hrest⟩ := unsized_eq hops hdone htext₁ hindex hle
    exact ⟨_, _, rest, _, _, hword, (if_neg hletters.not_ge).trans hnext, hrest⟩

/-- The loop, with at least one iteration for each request. -/
theorem readOps_eq (hlines : List.Forall₂ Spells lines requests)
    (htext : words text = lines.flatten) (hops : s.ops = done ++ todo)
    (hdone : done.length = s.opIndex) (htodo : requests.length ≤ todo.length)
    (hfuel : requests.length < fuel) :
    ∃ s', s.readOps fuel text = .ok s' ∧ Reads s s' done todo requests := by
  obtain ⟨fuel, rfl⟩ := Nat.exists_eq_succ_of_ne_zero (Nat.ne_zero_of_lt hfuel)
  induction hlines generalizing s text done todo fuel with
  | nil =>
    refine ⟨s, ?_, ?_, rfl, rfl⟩
    · rw [readOps, scanWord_nil htext]
    · simp [hops]
  -- one line is read, and the others come behind it in the array
  | @cons line r lines requests hline _ ih =>
    obtain ⟨old, todo, rfl⟩ := List.exists_cons_of_length_pos (Nat.zero_lt_of_lt htodo)
    obtain ⟨fuel, rfl⟩ :=
      Nat.exists_eq_succ_of_ne_zero (Nat.ne_zero_of_lt (Nat.lt_of_succ_lt_succ hfuel))
    obtain ⟨w, text₁, rest, index, size, hword, hnext, hrest⟩ := next_eq hline hops hdone htext
    obtain ⟨s', hrun, hreads⟩ := ih (s := s.after done todo old r index size) hrest
      (by rw [after, List.append_cons]) (by rw [List.length_append, hdone]; rfl)
      (Nat.le_of_succ_le_succ htodo) _ (Nat.lt_of_succ_lt_succ hfuel)
    refine ⟨s', ?_, hreads.cons⟩
    rw [readOps, hword]
    dsimp only
    rw [hnext, ok_bind]
    exact hrun

end Reading

/-- The largest index is an `int`. -/
theorem maxIndex_lt (hlines : List.Forall₂ Spells lines requests) : maxIndex requests < 2 ^ 31 := by
  suffices h : ∀ m < 2 ^ 31, requests.foldl (fun m r => max m r.counted) m < 2 ^ 31 from
    h 0 (by decide)
  induction hlines with
  | nil => exact fun m hm => hm
  | cons hline _ ih =>
    refine fun m hm => ih _ (max_lt hm ?_)
    cases hline with
    | alloc _ _ _ hle => exact hle.1
    | realloc _ _ _ hle => exact hle.1
    | free => exact Nat.two_pow_pos 31

/-- There are not more requests than words. -/
theorem length_le_of_spells (hlines : List.Forall₂ Spells lines requests) :
    requests.length ≤ lines.flatten.length := by
  induction hlines with
  | nil => exact le_rfl
  | cons hline _ ih =>
    rw [List.length_cons, List.flatten_cons, List.length_append]
    cases hline <;> simp only [List.length_cons] <;> omega

/-- However the words are separated, and whatever letters are behind the first one of a word, the
trace is what the text says, if the header has the number of the requests and one more than the
largest identifier. -/
theorem readTrace_eq (junk : Junk) (text : List UInt8) {w₁ w₂ w₃ w₄ : List UInt8}
    {lines : List (List (List UInt8))} {requests : List Request} {suggHeapsize numIds weight : ℕ}
    (htext : words text = w₁ :: w₂ :: w₃ :: w₄ :: lines.flatten) (hsugg : Numeral w₁ suggHeapsize)
    (hids : Numeral w₂ numIds) (hops : Numeral w₃ requests.length) (hweight : Numeral w₄ weight)
    (hle : suggHeapsize < 2 ^ 31 ∧ numIds < 2 ^ 31 ∧ weight < 2 ^ 31)
    (hlength : requests.length * 12 < 2 ^ 32) (hlines : List.Forall₂ Spells lines requests) :
    readTrace junk text =
      if maxIndex requests + 1 = numIds then
        .ok ⟨suggHeapsize, numIds, requests.length, weight,
          List.zipWith Request.stored ((List.range requests.length).map junk.ops) requests,
          allocate junk.blocks numIds 4, allocate junk.blockSizes numIds 4⟩
      else .error .checkFailed := by
  -- the header has four words
  obtain ⟨text₁, hsplits₁, htext₁⟩ := splits_of_words htext
  obtain ⟨text₂, hsplits₂, htext₂⟩ := splits_of_words htext₁
  obtain ⟨text₃, hsplits₃, htext₃⟩ := splits_of_words htext₂
  obtain ⟨text₄, hsplits₄, htext₄⟩ := splits_of_words htext₃
  have hstorage := allocate_natCast junk.ops (show 0 < 12 by decide) hlength
  -- every request has a word, so the text is longer than the number of requests
  have hfuel : requests.length < text₄.length + 1 := by
    have hwords := length_words_le text₄
    rw [htext₄] at hwords
    have hle := length_le_of_spells hlines
    omega
  have hstart : (⟨0, junk.size, 0, 0, (List.range requests.length).map junk.ops⟩ : Reading).ops =
      [] ++ (List.range requests.length).map junk.ops := rfl
  obtain ⟨s', hrun, hreads⟩ :=
    Reading.readOps_eq hlines htext₄ hstart rfl (by simp) hfuel
  have hlt := maxIndex_lt hlines
  -- with no identifiers the comparison wraps around, and fails
  have hcond : (s'.maxIndex = toSize ((numIds : ℤ) - 1) ∧
      toSize (requests.length : ℕ) = s'.opIndex) ↔ maxIndex requests + 1 = numIds := by
    have hmax : s'.maxIndex = maxIndex requests := hreads.maxIndex
    have hindex : s'.opIndex = requests.length := hreads.opIndex.trans (Nat.zero_add _)
    rw [hmax, hindex, toSize_natCast (by omega), and_iff_left rfl]
    rcases Nat.eq_zero_or_pos numIds with rfl | hpos
    · refine iff_of_false (fun h => ?_) (Nat.succ_ne_zero _)
      have hwrap : toSize (((0 : ℕ) : ℤ) - 1) = 2 ^ 32 - 1 := by decide
      omega
    · rw [← Int.natCast_pred_of_pos hpos, toSize_natCast (by omega)]
      omega
  rw [readTrace, scanInt_eq hsplits₁ hsugg hle.1, ok_bind]
  dsimp only
  rw [scanInt_eq hsplits₂ hids hle.2.1, ok_bind]
  dsimp only
  rw [scanInt_eq hsplits₃ hops (by omega), ok_bind]
  dsimp only
  rw [scanInt_eq hsplits₄ hweight hle.2.2, ok_bind]
  dsimp only
  rw [hstorage, hrun, ok_bind]
  refine if_congr hcond ?_ rfl
  rw [hreads.ops]
  simp

/-- A small file, with the lines `9 2`, `3  1`, `a 1 8`, `r 1 016` and `free 1`. -/
def smallFile : List UInt8 :=
  [57, 32, 50, 10, 51, 32, 32, 49, 10, 97, 32, 49, 32, 56, 10, 114, 32, 49, 32, 48, 49, 54, 10,
    102, 114, 101, 101, 32, 49, 10]

/-- A file of three requests, one of them spelled in full. -/
theorem words_smallFile : words smallFile = [57] :: [50] :: [51] :: [49] ::
    List.flatten [[[97], [49], [56]], [[114], [49], [48, 49, 54]],
      [[102, 114, 101, 101], [49]]] := by
  decide

/-- Storage that has zeros in it. -/
def zeros : Junk where
  suggHeapsize := 0
  numIds := 0
  numOps := 0
  weight := 0
  size := 0
  ops _ := ⟨.free, 0, 0⟩
  blocks _ := 0
  blockSizes _ := 0
  numIds_fits := by decide
  numOps_fits := by decide

/-- The trace that is read from it. -/
theorem readTrace_eq_smallFile :
    readTrace zeros smallFile =
      if maxIndex [.alloc 1 8, .realloc 1 16, .free 1] + 1 = 2 then
        .ok ⟨9, 2, 3, 1, [⟨.alloc, 1, 8⟩, ⟨.realloc, 1, 16⟩, ⟨.free, 1, 0⟩], [0, 0], [0, 0]⟩
      else .error .checkFailed :=
  readTrace_eq zeros smallFile words_smallFile (by decide) (by decide) (by decide) (by decide)
    (by decide) (by decide)
    (.cons (.alloc (by decide) (by decide) (by decide) (by decide))
      (.cons (.realloc (by decide) (by decide) (by decide) (by decide))
        (.cons (.free (by decide) (by decide) (by decide)) .nil)))

end CppLearn.MallocLab

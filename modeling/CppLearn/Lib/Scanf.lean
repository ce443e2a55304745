import CppLearn.Lib.Signed
import Mathlib.Data.List.DropRight
import Mathlib.Data.Nat.Digits.Defs

/-!
# The conversions of `fscanf`

The conversions `%s`, `%d` and `%u`, on the bytes of a text that have not been read. A conversion
skips white space first. It returns nothing if the text ends there, or does not go on with a number,
and the text that is left in any case.

`scanWord` is the conversion `%s`; `scanNumber` is the number of `%d` and `%u` before it is
converted to the type. `words` are the words of a text, and `Numeral` says that a word is the
decimal notation of a number. The conversions read a text word by word (`scanWord_eq`,
`scanNumber_eq`), and leave less of it (`length_scanWord_lt`, `length_scanNumber_le`).
-/

namespace Scanf

/-- `isspace`. -/
def isSpace (c : UInt8) : Bool := c = 32 ∨ 9 ≤ c ∧ c ≤ 13

/-- `isdigit`. -/
def isDigit (c : UInt8) : Bool := 48 ≤ c ∧ c ≤ 57

/-- White space is skipped. -/
def skipSpace (text : List UInt8) : List UInt8 := text.dropWhile isSpace

/-- The number with the digits. -/
def value (digits : List UInt8) : ℕ := Nat.ofDigits 10 (digits.map fun c => c.toNat - 48).reverse

/-- `%s`. -/
def scanWord (text : List UInt8) : Option (List UInt8) × List UInt8 :=
  let text := skipSpace text
  (if text = [] then none else some (text.takeWhile (!isSpace ·)), text.dropWhile (!isSpace ·))

/-- The digits at the beginning of a text, as a number. -/
def scanDigits (text : List UInt8) : Option ℕ × List UInt8 :=
  let digits := text.takeWhile isDigit
  (if digits = [] then none else some (value digits), text.dropWhile isDigit)

/-- `%d` and `%u`: the digits may have a sign before them. -/
def scanNumber (text : List UInt8) : Option ℤ × List UInt8 :=
  match skipSpace text with
  | 43 :: text => (scanDigits text).map (Option.map Int.ofNat) id
  | 45 :: text => (scanDigits text).map (Option.map fun n => -Int.ofNat n) id
  | text => (scanDigits text).map (Option.map Int.ofNat) id

/-- The words of a text. -/
def words (text : List UInt8) : List (List UInt8) := (text.splitOnP isSpace).filter (· ≠ [])

/-- The word consists of digits, and they are those of the number, perhaps after zeros. -/
def Numeral (w : List UInt8) (n : ℕ) : Prop := w ≠ [] ∧ (∀ c ∈ w, isDigit c) ∧ value w = n

instance (w : List UInt8) (n : ℕ) : Decidable (Numeral w n) :=
  decidable_of_iff (w ≠ [] ∧ w.all isDigit ∧ value w = n) (by simp [Numeral])

variable {text rest w : List UInt8} {ws : List (List UInt8)} {c : UInt8} {n : ℕ}

/-- Digits are not white space. -/
theorem isSpace_of_isDigit (h : isDigit c) : isSpace c = false := by
  simp only [isDigit, isSpace, decide_eq_true_eq, decide_eq_false_iff_not, UInt8.le_iff_toNat_le,
    ← UInt8.toNat_inj] at h ⊢
  grind

/-! ## Words -/

/-- The text ends, or goes on with white space. -/
def Ends (text : List UInt8) : Prop := ∀ c ∈ text.head?, isSpace c

/-- The first word of a text, and what comes after it. -/
structure Splits (text w rest : List UInt8) : Prop where
  eq : skipSpace text = w ++ rest
  ne_nil : w ≠ []
  not_space : ∀ c ∈ w, isSpace c = false
  ends : Ends rest

/-- A word ends where the text does, or at white space. -/
theorem Ends.takeWhile_eq_nil {p : UInt8 → Bool} (h : Ends rest)
    (hp : ∀ c, isSpace c → p c = false) : rest.takeWhile p = [] := by
  cases rest with
  | nil => rfl
  | cons c rest => rw [List.takeWhile_cons_of_neg (by simp [hp c (h c rfl)])]

/-- The longest beginning of the text with a property of all characters of the word. -/
theorem Splits.span {p : UInt8 → Bool} (h : Splits text w rest) (hword : ∀ c ∈ w, p c)
    (hp : ∀ c, isSpace c → p c = false) :
    (skipSpace text).takeWhile p = w ∧ (skipSpace text).dropWhile p = rest := by
  have htake : (skipSpace text).takeWhile p = w := by
    rw [h.eq, List.takeWhile_append_of_pos hword, h.ends.takeWhile_eq_nil hp, List.append_nil]
  have hsplit := (skipSpace text).takeWhile_append_dropWhile (p := p)
  rw [htake, h.eq] at hsplit
  exact ⟨htake, by rw [h.eq]; exact List.append_cancel_left hsplit⟩

/-- Every text with a character that is no white space has a first word. -/
theorem exists_splits (h : skipSpace text ≠ []) :
    Splits text ((skipSpace text).takeWhile (!isSpace ·)) ((skipSpace text).dropWhile (!isSpace ·))
    where
  eq := List.takeWhile_append_dropWhile.symm
  ne_nil hnil := by
    have hhead : isSpace ((skipSpace text).head h) = false := List.head_dropWhile_not isSpace h
    obtain ⟨c, rest, heq⟩ := List.exists_cons_of_ne_nil h
    simp [heq] at hhead hnil
    exact Bool.false_ne_true (hhead.symm.trans hnil)
  not_space c hc := by simpa using List.mem_takeWhile_imp hc
  ends c hc := by
    have hnot := List.head?_dropWhile_not (!isSpace ·) (skipSpace text)
    rw [Option.mem_def.1 hc] at hnot
    simpa using hnot

/-- White space in front of a text does not change its words, -/
theorem words_space (h : isSpace c) : words (c :: text) = words text := by
  simp [words, List.splitOnP_cons_eq_if_modifyHead, h]

/-- and can be skipped. -/
theorem words_skipSpace (text : List UInt8) : words (skipSpace text) = words text := by
  induction text with
  | nil => rfl
  | cons c text ih =>
    by_cases h : isSpace c
    · rw [words_space h, ← ih, skipSpace, List.dropWhile_cons_of_pos h, skipSpace]
    · rw [skipSpace, List.dropWhile_cons_of_neg h]

/-- The first word is followed by those of the rest. -/
theorem Splits.words_eq (h : Splits text w rest) : words text = w :: words rest := by
  rw [← words_skipSpace, h.eq]
  obtain ⟨-, hne, hword, hends⟩ := h
  cases rest with
  | nil =>
    rw [List.append_nil, words, List.splitOnP_eq_singleton hword]
    simp [hne, words]
  | cons c rest =>
    have hc := hends c rfl
    rw [words_space hc, words, List.splitOnP_append_cons_of_forall_mem hword c hc,
      List.filter_cons_of_pos (by simpa using hne), words]

/-- A text of white space has none. -/
theorem words_eq_nil (h : skipSpace text = []) : words text = [] := by
  rw [← words_skipSpace, h]
  rfl

/-- The first word of a text with words. -/
theorem splits_of_words (h : words text = w :: ws) :
    ∃ rest, Splits text w rest ∧ words rest = ws := by
  have hne : skipSpace text ≠ [] := fun hnil => by
    rw [words_eq_nil hnil] at h
    cases h
  have hsplits := exists_splits hne
  obtain ⟨rfl, rfl⟩ := List.cons.inj (hsplits.words_eq.symm.trans h)
  exact ⟨_, hsplits, rfl⟩

/-! ## Conversions -/

/-- `%s` reads the first word, -/
theorem scanWord_eq (h : Splits text w rest) : scanWord text = (some w, rest) := by
  obtain ⟨htake, hdrop⟩ := h.span (p := fun c => !isSpace c)
    (fun c hc => by simp [h.not_space c hc]) (fun c hc => by simp [hc])
  have hne : skipSpace text ≠ [] := by
    rw [h.eq]
    exact List.append_ne_nil_of_left_ne_nil h.ne_nil rest
  rw [scanWord, if_neg hne, htake, hdrop]

/-- or nothing. -/
theorem scanWord_nil (h : words text = []) : scanWord text = (none, []) := by
  have hnil : skipSpace text = [] := by
    by_contra hne
    cases h.symm.trans (exists_splits hne).words_eq
  rw [scanWord, hnil, if_pos rfl]
  rfl

/-- `%d` reads a first word that is a numeral. -/
theorem scanNumber_eq (h : Splits text w rest) (hw : Numeral w n) :
    scanNumber text = (some (n : ℤ), rest) := by
  obtain ⟨hne, hdigit, hvalue⟩ := hw
  obtain ⟨htake, hdrop⟩ := h.span hdigit fun c hc => by
    by_contra hnot
    rw [isSpace_of_isDigit (Bool.of_not_eq_false hnot)] at hc
    cases hc
  have hdigits : scanDigits (skipSpace text) = (some n, rest) := by
    rw [scanDigits, htake, hdrop, if_neg hne, hvalue]
  obtain ⟨c, w, rfl⟩ := List.exists_cons_of_ne_nil hne
  have hc : isDigit c := hdigit c List.mem_cons_self
  rw [scanNumber]
  split
  · -- a digit is neither a sign nor the end of the text
    next heq =>
    rw [h.eq] at heq
    obtain rfl := (List.cons.inj heq).1
    cases hc
  · next heq =>
    rw [h.eq] at heq
    obtain rfl := (List.cons.inj heq).1
    cases hc
  · rw [hdigits]
    rfl

/-! ## The text that is left -/

/-- What is left is not longer: behind white space, -/
theorem length_skipSpace_le (text : List UInt8) : (skipSpace text).length ≤ text.length :=
  (List.dropWhile_suffix isSpace).length_le

/-- A word has at least one character. -/
theorem length_scanWord_lt (h : scanWord text = (some w, rest)) : rest.length < text.length := by
  by_cases hnil : skipSpace text = []
  · rw [scanWord, if_pos hnil] at h
    cases h
  · have hsplits := exists_splits hnil
    obtain ⟨-, rfl⟩ := Prod.mk.inj ((scanWord_eq hsplits).symm.trans h)
    have hlen := congrArg List.length hsplits.eq
    rw [List.length_append] at hlen
    have hpos := List.length_pos_of_ne_nil hsplits.ne_nil
    have hle := length_skipSpace_le text
    omega

/-- in words, -/
theorem length_words_le (text : List UInt8) : (words text).length ≤ text.length := by
  generalize h : words text = ws
  induction ws generalizing text with
  | nil => exact Nat.zero_le _
  | cons w ws ih =>
    obtain ⟨rest, hsplits, hrest⟩ := splits_of_words h
    exact (ih rest hrest).trans_lt (length_scanWord_lt (scanWord_eq hsplits))

/-- and behind a number. -/
theorem length_scanNumber_le (text : List UInt8) : (scanNumber text).2.length ≤ text.length := by
  have hle := length_skipSpace_le text
  have hdigits : ∀ text, (scanDigits text).2.length ≤ text.length := fun text =>
    (List.dropWhile_suffix isDigit).length_le
  rw [scanNumber]
  split
  · next sign heq =>
    rw [heq, List.length_cons] at hle
    exact (hdigits sign).trans (by omega)
  · next sign heq =>
    rw [heq, List.length_cons] at hle
    exact (hdigits sign).trans (by omega)
  · exact (hdigits _).trans hle

end Scanf

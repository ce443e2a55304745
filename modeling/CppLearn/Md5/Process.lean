import CppLearn.Md5.Defs

/-!
# The upper bits never matter

All that `md5_process` does with its words of 64 bits can be done with the lower 32 bits alone: sums
and bitwise operations keep the lower bits apart from the upper ones, and the macro `S` masks the
word before it shifts it down. So a block has the effect on the lower halves that it should have.

`Words.low` are the lower halves. The macro `S` rotates them (`setWidth_S`), and the numbers in the
uses of `P` are those of the standard (`MatchesFour`), so a round commutes with taking them
(`low_foldl`), and so does a whole block (`low_md5Process`).
-/

namespace CppLearn.Md5

open Standard

/-- The lower halves of the words. -/
def Words.low (w : Words 64) : Words 32 :=
  ⟨w.a.setWidth 32, w.b.setWidth 32, w.c.setWidth 32, w.d.setWidth 32⟩

/-! ## The macros -/

theorem setWidth_sum (x y : Ulong) : (x + y).setWidth 32 = x.setWidth 32 + y.setWidth 32 :=
  BitVec.setWidth_add x y (by decide)

/-- The mask leaves the lower half. -/
theorem and_mask (x : Ulong) : x &&& 0xFFFFFFFF = (x.setWidth 32).setWidth 64 := by
  have hmask : ∀ i, (0xFFFFFFFF : Ulong).getLsbD i = decide (i < 32) := by
    intro i
    have hbit := Nat.testBit_two_pow_sub_one 32 i
    rw [BitVec.ofNat_eq_ofNat, BitVec.getLsbD_ofNat]
    by_cases hi : i < 32
    · simp_all [show i < 64 by omega]
    · simp_all
  apply BitVec.eq_of_getLsbD_eq
  intro i hi
  rw [BitVec.getLsbD_and, hmask, BitVec.getLsbD_setWidth, BitVec.getLsbD_setWidth, Bool.and_comm]
  simp [hi]

/-- The macro `S` rotates the lower half. -/
theorem setWidth_S (x : Ulong) {n : ℕ} (hlt : n < 32) :
    (S x n).setWidth 32 = (x.setWidth 32).rotateLeft n := by
  have hdown : (((x.setWidth 32).setWidth 64) >>> (32 - n)).setWidth 32 =
      x.setWidth 32 >>> (32 - n) := by
    rw [← BitVec.setWidth_ushiftRight (by decide), BitVec.setWidth_setWidth_of_le _ (by decide),
      BitVec.setWidth_eq]
  rw [S, and_mask, BitVec.setWidth_or, BitVec.setWidth_shiftLeft_of_le (by decide), hdown,
    BitVec.rotateLeft_def, Nat.mod_eq_of_lt hlt]

theorem setWidth_F₁ (x y z : Ulong) : (F₁ x y z).setWidth 32 =
    F (x.setWidth 32) (y.setWidth 32) (z.setWidth 32) := by
  ext i hi
  simp [F₁, F]
  cases x.getLsbD i <;> cases y.getLsbD i <;> cases z.getLsbD i <;> rfl

theorem setWidth_F₂ (x y z : Ulong) : (F₂ x y z).setWidth 32 =
    G (x.setWidth 32) (y.setWidth 32) (z.setWidth 32) := by
  ext i hi
  simp [F₂, G]
  cases x.getLsbD i <;> cases y.getLsbD i <;> cases z.getLsbD i <;> rfl

theorem setWidth_F₃ (x y z : Ulong) : (F₃ x y z).setWidth 32 =
    H (x.setWidth 32) (y.setWidth 32) (z.setWidth 32) := by
  simp only [F₃, H, BitVec.setWidth_xor]

theorem setWidth_F₄ (x y z : Ulong) : (F₄ x y z).setWidth 32 =
    I (x.setWidth 32) (y.setWidth 32) (z.setWidth 32) := by
  simp only [F₄, I, BitVec.setWidth_xor, BitVec.setWidth_or,
    BitVec.setWidth_not (by decide : 32 ≤ 64)]

/-- The words of a block. -/
theorem setWidth_getUlongLE (data : List Byte) (k : ℕ) :
    (getUlongLE data (4 * k)).setWidth 32 = word data k := by
  simp only [getUlongLE, word, BitVec.setWidth_or]
  simp

/-! ## Steps and rounds -/

variable {F : Ulong → Ulong → Ulong → Ulong} {f : Word → Word → Word → Word} {X : ℕ → Ulong}
  {X' : ℕ → Word} {r : Row} {i : ℕ}

/-- The numbers of the step `i` of the standard. -/
def Row.Matches (r : Row) (i : ℕ) : Prop :=
  r.k = wordIndex i ∧ r.s = shift i ∧ r.s < 32 ∧ r.t.setWidth 32 = sines.getD i 0

instance (r : Row) (i : ℕ) : Decidable (r.Matches i) := inferInstanceAs (Decidable (_ ∧ _))

/-- The macro `P` computes the word that a step changes. -/
theorem setWidth_P (hF : ∀ x y z, (F x y z).setWidth 32 =
      f (x.setWidth 32) (y.setWidth 32) (z.setWidth 32))
    (hX : ∀ k, (X k).setWidth 32 = X' k) (hr : r.Matches i) (hf : aux i = f) (a b c d : Ulong) :
    (P F X a b c d r).setWidth 32 =
      (step X' ⟨a.setWidth 32, b.setWidth 32, c.setWidth 32, d.setWidth 32⟩ i).b := by
  obtain ⟨hk, hs, hlt, ht⟩ := hr
  simp only [P, step, setWidth_sum, setWidth_S _ hlt, hF, hX, ht, hf, ← hk, ← hs]
  rw [BitVec.add_comm, BitVec.add_assoc (a.setWidth 32), BitVec.add_assoc (a.setWidth 32)]

/-- The numbers of four steps. -/
def MatchesFour (r : Row × Row × Row × Row) (i : ℕ) : Prop :=
  r.1.Matches i ∧ r.2.1.Matches (i + 1) ∧ r.2.2.1.Matches (i + 2) ∧ r.2.2.2.Matches (i + 3)

instance (r : Row × Row × Row × Row) (i : ℕ) : Decidable (MatchesFour r i) :=
  inferInstanceAs (Decidable (_ ∧ _))

/-- After four steps all words are in their old places. -/
theorem low_fourSteps {r : Row × Row × Row × Row} (hF : ∀ x y z, (F x y z).setWidth 32 =
      f (x.setWidth 32) (y.setWidth 32) (z.setWidth 32))
    (hX : ∀ k, (X k).setWidth 32 = X' k) (hr : MatchesFour r i)
    (hf : ∀ j, i ≤ j → j < i + 4 → aux j = f) (w : Words 64) :
    (fourSteps F X w r).low = [i, i + 1, i + 2, i + 3].foldl (step X') w.low := by
  obtain ⟨h₀, h₁, h₂, h₃⟩ := hr
  have p₀ := setWidth_P hF hX h₀ (hf i (by omega) (by omega))
  have p₁ := setWidth_P hF hX h₁ (hf (i + 1) (by omega) (by omega))
  have p₂ := setWidth_P hF hX h₂ (hf (i + 2) (by omega) (by omega))
  have p₃ := setWidth_P hF hX h₃ (hf (i + 3) (by omega) (by omega))
  simp only [fourSteps, Words.low, p₀, p₁, p₂, p₃]
  rfl

/-- The numbers of a whole round, from the step `i` on. -/
def MatchesAll : List (Row × Row × Row × Row) → ℕ → Prop
  | [], _ => True
  | r :: rs, i => MatchesFour r i ∧ MatchesAll rs (i + 4)

instance decidableMatchesAll :
    (rs : List (Row × Row × Row × Row)) → (i : ℕ) → Decidable (MatchesAll rs i)
  | [], _ => isTrue trivial
  | _ :: rs, i => @instDecidableAnd _ _ _ (decidableMatchesAll rs (i + 4))

/-- A round. -/
theorem low_foldl (rs : List (Row × Row × Row × Row)) (hF : ∀ x y z, (F x y z).setWidth 32 =
      f (x.setWidth 32) (y.setWidth 32) (z.setWidth 32))
    (hX : ∀ k, (X k).setWidth 32 = X' k) (hr : MatchesAll rs i)
    (hf : ∀ j, i ≤ j → j < i + 4 * rs.length → aux j = f) (w : Words 64) :
    (rs.foldl (fourSteps F X) w).low =
      (List.range' i (4 * rs.length)).foldl (step X') w.low := by
  induction rs generalizing i w with
  | nil => rfl
  | cons r rs ih =>
    obtain ⟨hfirst, hrest⟩ := hr
    rw [List.length_cons, Nat.mul_succ] at hf ⊢
    have hrange : List.range' i (4 * rs.length + 4) =
        [i, i + 1, i + 2, i + 3] ++ List.range' (i + 4) (4 * rs.length) := rfl
    rw [List.foldl_cons, ih hrest fun j hj hlt => hf j (by omega) (by omega),
      low_fourSteps hF hX hfirst fun j hj hlt => hf j hj (by omega), hrange, List.foldl_append]

/-- A block has the effect on the lower halves that it should have. -/
theorem low_md5Process (state : Words 64) (data : List Byte) :
    (md5Process state data).low = compress state.low data := by
  have hX := setWidth_getUlongLE data
  -- the functions of the four rounds
  have h₁ := low_foldl rows₁ (i := 0) setWidth_F₁ hX (by decide) fun j _ hj => by
    have : j < 16 := hj
    simp only [aux, if_pos this]
  have h₂ := low_foldl rows₂ (i := 16) setWidth_F₂ hX (by decide) fun j hle hj => by
    have : j < 32 := hj
    simp only [aux, if_neg (show ¬j < 16 by omega), if_pos this]
  have h₃ := low_foldl rows₃ (i := 32) setWidth_F₃ hX (by decide) fun j hle hj => by
    have : j < 48 := hj
    simp only [aux, if_neg (show ¬j < 16 by omega), if_neg (show ¬j < 32 by omega), if_pos this]
  have h₄ := low_foldl rows₄ (i := 48) setWidth_F₄ hX (by decide) fun j hle _ => by
    simp only [aux, if_neg (show ¬j < 16 by omega), if_neg (show ¬j < 32 by omega),
      if_neg (show ¬j < 48 by omega)]
  have hrange : List.range 64 = List.range' 0 (4 * rows₁.length) ++
      List.range' 16 (4 * rows₂.length) ++ List.range' 32 (4 * rows₃.length) ++
      List.range' 48 (4 * rows₄.length) := by decide
  have hsteps : (rows₄.foldl (fourSteps F₄ fun k => getUlongLE data (4 * k))
      (rows₃.foldl (fourSteps F₃ fun k => getUlongLE data (4 * k))
      (rows₂.foldl (fourSteps F₂ fun k => getUlongLE data (4 * k))
      (rows₁.foldl (fourSteps F₁ fun k => getUlongLE data (4 * k)) state)))).low =
      (List.range 64).foldl (step (word data)) state.low := by
    rw [h₄, h₃, h₂, h₁, hrange, List.foldl_append, List.foldl_append, List.foldl_append]
  simp only [md5Process, compress, ← hsteps]
  simp only [Words.low, setWidth_sum]

end CppLearn.Md5

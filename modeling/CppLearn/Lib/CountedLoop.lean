import CppLearn.Lib.BoundedLoop
import CppLearn.Lib.Signed

/-!
# Loops that count

The loop `for (i = lo; i < hi; ++i)` whose body does not change `i`, and the one that counts down to
zero. They need no iteration bound. A signed counter that is compared with a length, which is
unsigned, becomes negative after the largest number of its type. It is then larger than the length,
and the loop is left.

`forLoop` and `forDown` are the two loops, with the rules `forLoop_spec` and `forDown_spec` for an
invariant that is indexed by the counter. `signedLoop` is the loop with a signed counter, up to a
length; where it ends is `signedLoop_eq`.
-/

namespace BoundedLoop

open Signed

variable {ε σ : Type*}

/-- The loop `for (i = lo; i < hi; ++i)`. -/
def forLoop (lo hi : ℕ) (body : ℕ → σ → Except ε σ) (s : σ) : Except ε σ :=
  (List.range' lo (hi - lo)).foldlM (fun s i => body i s) s

variable {body : ℕ → σ → Except ε σ} {lo hi : ℕ} {s : σ}

theorem forLoop_of_le (h : hi ≤ lo) : forLoop lo hi body s = .ok s := by
  rw [forLoop, Nat.sub_eq_zero_of_le h]
  rfl

/-- The first iteration. -/
theorem forLoop_of_lt (h : lo < hi) :
    forLoop lo hi body s = (body lo s).bind (forLoop (lo + 1) hi body) := by
  have hn : hi - lo = hi - (lo + 1) + 1 := by omega
  rw [forLoop, hn, List.range'_succ, List.foldlM_cons]
  rfl

/-- Total correctness: an invariant that is indexed by the counter. -/
theorem forLoop_spec {I : ℕ → σ → Prop}
    (hstep : ∀ i s, lo ≤ i → i < hi → I i s → ∃ s', body i s = .ok s' ∧ I (i + 1) s')
    (hle : lo ≤ hi) (hI : I lo s) : ∃ s', forLoop lo hi body s = .ok s' ∧ I hi s' := by
  induction hle using Nat.decreasingInduction generalizing s with
  | self => exact ⟨s, forLoop_of_le le_rfl, hI⟩
  | of_succ lo hlt ih =>
    obtain ⟨s₁, hs₁, hI₁⟩ := hstep lo s le_rfl hlt hI
    obtain ⟨s', hs', hI'⟩ := ih (fun i s hi => hstep i s (Nat.le_of_succ_le hi)) hI₁
    exact ⟨s', by rw [forLoop_of_lt hlt, hs₁]; exact hs', hI'⟩

theorem forLoop_congr {body' : ℕ → σ → Except ε σ}
    (h : ∀ i s, lo ≤ i → i < hi → body i s = body' i s) :
    forLoop lo hi body s = forLoop lo hi body' s := by
  rcases le_total hi lo with hle | hle
  · rw [forLoop_of_le hle, forLoop_of_le hle]
  induction hle using Nat.decreasingInduction generalizing s with
  | self => rw [forLoop_of_le le_rfl, forLoop_of_le le_rfl]
  | of_succ lo hlt ih =>
    rw [forLoop_of_lt hlt, forLoop_of_lt hlt, h lo s le_rfl hlt]
    cases body' lo s with
    | error e => rfl
    | ok s => exact ih fun i s hi => h i s (Nat.le_of_succ_le hi)

/-- A loop over lists is one over the list of their elements. -/
theorem forLoop_foldlM {β : Type*} (f : ℕ → List β) (step : σ → β → Except ε σ) (n : ℕ) (s : σ) :
    forLoop 0 n (fun i s => (f i).foldlM step s) s = ((List.range n).flatMap f).foldlM step s := by
  unfold forLoop
  rw [Nat.sub_zero, List.range_eq_range']
  generalize List.range' 0 n = l
  induction l generalizing s with
  | nil => rfl
  | cons i l ih =>
    rw [List.foldlM_cons, List.flatMap_cons, List.foldlM_append]
    exact congrArg _ (funext ih)

/-! ## A signed counter -/

/-- The loop `for (i = lo; i < n; ++i)`, where `i` is a signed integer of `w` bits and `n` a length.
The comparison converts `i` to the type of the lengths. -/
def signedLoop (w : ℕ) (out : ε) (lo : ℤ) (n : ℕ) (body : ℤ → σ → Except ε σ) (s : σ) :
    Except ε σ := do
  let (s, _) ← whileLoop (fun _ => out) (fun (s : σ × ℤ) => .ok (decide (s.2 % 2 ^ 64 < n)))
    (fun (s : σ × ℤ) => do
      let t ← body s.2 s.1
      .ok (t, narrow w (s.2 + 1))) (n + 1) (s, lo)
  .ok s

variable {n : ℕ}

/-- The counter gets to the length, or to the end of its type. -/
theorem signedLoop_eq (w : ℕ) (out : ε) (body : ℤ → σ → Except ε σ) (s : σ) (hw : 0 < w)
    (hw' : w ≤ 64) (hn : n ≤ 2 ^ 64 - 2 ^ (w - 1)) (hlo : lo ≤ min n (2 ^ (w - 1)))
    (hlo' : lo < 2 ^ (w - 1)) :
    signedLoop w out lo n body s = forLoop lo (min n (2 ^ (w - 1))) (fun i => body i) s := by
  obtain ⟨w, rfl⟩ := Nat.exists_eq_add_of_le' hw
  rw [Nat.add_sub_cancel] at hn hlo hlo' ⊢
  generalize hm : min n (2 ^ w) = m at hlo ⊢
  have hhalf : (2 : ℤ) ^ (w + 1) = 2 * (2 ^ w : ℕ) := by
    push_cast
    rw [pow_succ, mul_comm]
  have hpos : 0 < 2 ^ w := Nat.two_pow_pos w
  have hword : 2 ^ w ≤ 2 ^ 63 := Nat.pow_le_pow_right (by decide) (by omega)
  have hnarrow : ∀ i < 2 ^ w, narrow (w + 1) (i : ℕ) = i := by
    intro i hi
    refine narrow_eq ⟨?_, ?_⟩ <;> rw [hhalf] <;> omega
  -- the counter is the conversion of the number of the iteration
  have hloop : ∀ fuel, m - lo < fuel →
      (whileLoop (fun _ => out) (fun (s : σ × ℤ) => .ok (decide (s.2 % 2 ^ 64 < n)))
        (fun (s : σ × ℤ) => do
          let t ← body s.2 s.1
          .ok (t, narrow (w + 1) (s.2 + 1))) fuel (s, narrow (w + 1) lo)).bind (fun s => .ok s.1) =
      forLoop lo m (fun i => body i) s := by
    clear hlo'
    induction hlo using Nat.decreasingInduction generalizing s with
    | self =>
      intro fuel hfuel
      have hexit : ¬narrow (w + 1) m % 2 ^ 64 < n := by
        by_cases hlt : n < 2 ^ w
        · rw [show m = n by omega, hnarrow n hlt]
          omega
        · obtain rfl : 2 ^ w = m := by omega
          have hneg := narrow_neg (w := w + 1) (x := (2 ^ w : ℕ)) hhalf.le (by rw [hhalf]; omega)
          have hlow := (narrow_fits (w + 1) (2 ^ w : ℕ)).1
          rw [hhalf] at hlow
          omega
      rw [(Steps.refl _).whileLoop_exit (by simpa using hexit) (by omega), forLoop_of_le le_rfl]
      rfl
    | of_succ lo hlt ih =>
      intro fuel hfuel
      have hlt' : lo < 2 ^ w := by omega
      have hentry : narrow (w + 1) lo % 2 ^ 64 < n := by
        rw [hnarrow lo hlt']
        omega
      rw [whileLoop_of_true (by simpa using hentry) (by omega), forLoop_of_lt hlt, hnarrow lo hlt']
      cases hbody : body lo s with
      | error e => simp only [bind, Except.bind]
      | ok t =>
        simp only [bind, Except.bind]
        exact ih t (fuel - 1) (by omega)
  have hrun := hloop (n + 1) (by omega)
  rw [hnarrow lo hlo'] at hrun
  exact hrun

/-- A length that the counter can get to. -/
theorem signedLoop_of_lt (w : ℕ) (out : ε) (body : ℤ → σ → Except ε σ) (s : σ) (hw : 0 < w)
    (hw' : w ≤ 64) (hlo : lo ≤ n) (hn : n < 2 ^ (w - 1)) :
    signedLoop w out lo n body s = forLoop lo n (fun i => body i) s := by
  have hword : 2 ^ (w - 1) ≤ 2 ^ 63 := Nat.pow_le_pow_right (by decide) (by omega)
  have hmin : min n (2 ^ (w - 1)) = n := min_eq_left hn.le
  rw [signedLoop_eq w out body s hw hw' (by omega) (by omega) (by omega), hmin]

/-! ## Down to zero -/

/-- The loop `for (i = hi; i >= 0; --i)`. -/
def forDown (hi : ℤ) (body : ℕ → σ → Except ε σ) (s : σ) : Except ε σ :=
  (List.range (hi + 1).toNat).reverse.foldlM (fun s i => body i s) s

theorem forDown_of_neg {hi : ℤ} (h : hi < 0) : forDown hi body s = .ok s := by
  rw [forDown, Int.toNat_eq_zero.2 (by omega)]
  rfl

theorem forDown_zero (body : ℕ → σ → Except ε σ) (s : σ) :
    forDown (((0 : ℕ) : ℤ) - 1) body s = .ok s :=
  forDown_of_neg (by decide)

theorem forDown_succ (n : ℕ) (body : ℕ → σ → Except ε σ) (s : σ) :
    forDown (((n + 1 : ℕ) : ℤ) - 1) body s = (body n s).bind (forDown ((n : ℤ) - 1) body) := by
  have hlast : (((n + 1 : ℕ) : ℤ) - 1 + 1).toNat = n + 1 := by omega
  have hnext : ((n : ℤ) - 1 + 1).toNat = n := by omega
  unfold forDown
  rw [hlast, List.range_succ, List.reverse_append, hnext]
  rfl

/-- Total correctness, where `i` iterations are left in a state with `I i`. -/
theorem forDown_spec {I : ℕ → σ → Prop}
    (hstep : ∀ i s, i < n → I (i + 1) s → ∃ s', body i s = .ok s' ∧ I i s') (hI : I n s) :
    ∃ s', forDown ((n : ℤ) - 1) body s = .ok s' ∧ I 0 s' := by
  induction n generalizing s with
  | zero => exact ⟨s, forDown_zero body s, hI⟩
  | succ n ih =>
    obtain ⟨s₁, hs₁, hI₁⟩ := hstep n s (Nat.lt_succ_self n) hI
    obtain ⟨s', hs', hI'⟩ := ih (fun i s hi => hstep i s (Nat.lt_succ_of_lt hi)) hI₁
    exact ⟨s', by rw [forDown_succ, hs₁]; exact hs', hI'⟩

end BoundedLoop

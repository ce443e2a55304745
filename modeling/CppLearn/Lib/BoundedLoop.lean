import Mathlib.Algebra.Order.Ring.Nat
import Mathlib.Tactic.Common

/-!
# Loops with an iteration bound

Imperative loops as computable functions. `iterate` runs one step function until it returns a
result, for at most `fuel` iterations; `whileLoop` is the `while (cond) body` instance. A step
may fail, and running out of fuel is a failure too, so a result `.ok r` says that the loop
terminated normally.

The rules for total correctness are `iterate_spec` and `whileLoop_spec`. They ask for an invariant
indexed by a natural number that decreases with each iteration, and conclude that the loop returns
as soon as the fuel exceeds the index it starts from. Those for partial correctness are about a loop
that has returned, and need no index.

## Main definitions

* `Fault`: why a computation stopped without a result;
* `iterate` and `whileLoop`;
* `Steps`: the iterations of a `while` loop;
* `Terminates`: a computation that ends, normally or not.

## Main results

* `iterate_spec` and `whileLoop_spec`: an invariant that descends is an invariant of a loop
  that returns;
* `iterate_invariant` and `whileLoop_invariant`: an invariant of a loop that has returned;
* `whileLoop_first`: a loop through a fixed sequence of states;
* `whileLoop_diverges`: a loop that is never left;
* `whileLoop_of_true`, `whileLoop_error`: the first iteration of a loop;
* `Steps.whileLoop_exit`: a loop whose iterations are known;
* `Steps.invariant` and `Steps.exists_exit`: a bound on the number of iterations;
* `bind_eq_ok`, `ite_eq_ok` and `toOption_bind_eq_some`: a sequence of computations returns if all
  of them do;
* `Terminates.bind`, `terminates_iterate`, `terminates_whileLoop`: computations that end.
-/

namespace BoundedLoop

/-- The reasons for which a computation stops without returning. -/
inductive Fault where
  /-- An assertion that is checked at run time does not hold. -/
  | checkFailed
  /-- A read or a write outside the allocated storage. -/
  | invalidAccess
  /-- The iteration bound of a loop is exhausted. -/
  | diverged
  deriving DecidableEq, Repr

universe u

variable {ε σ ρ : Type*}

/-- Repeat `step` until it returns `.inr r`, for at most `fuel` iterations. When the fuel is
exhausted in state `s` the loop fails with `out s`. -/
def iterate (out : σ → ε) (step : σ → Except ε (σ ⊕ ρ)) : ℕ → σ → Except ε ρ
  | 0, s => .error (out s)
  | fuel + 1, s =>
    match step s with
    | .error e => .error e
    | .ok (.inl s') => iterate out step fuel s'
    | .ok (.inr r) => .ok r

/-- One iteration of `while (cond) body`: continue with the state that `body` returns, or leave
the loop with the current state. -/
def whileStep (cond : σ → Except ε Bool) (body : σ → Except ε σ) (s : σ) :
    Except ε (σ ⊕ σ) :=
  match cond s with
  | .error e => .error e
  | .ok false => .ok (.inr s)
  | .ok true =>
    match body s with
    | .error e => .error e
    | .ok s' => .ok (.inl s')

/-- The loop `while (cond) body`, for at most `fuel` iterations. -/
def whileLoop (out : σ → ε) (cond : σ → Except ε Bool) (body : σ → Except ε σ) :
    ℕ → σ → Except ε σ :=
  iterate out (whileStep cond body)

/-- Total correctness of `iterate`. Each iteration from a state of index `n` either returns a
result in `Q`, or continues in a state of smaller index; then the loop returns a result in `Q`
whenever the fuel exceeds the index of its initial state. -/
theorem iterate_spec {out : σ → ε} {step : σ → Except ε (σ ⊕ ρ)} {I : ℕ → σ → Prop}
    {Q : ρ → Prop}
    (hstep : ∀ n s, I n s →
      (∃ r, step s = .ok (.inr r) ∧ Q r) ∨
        ∃ s' m, step s = .ok (.inl s') ∧ m < n ∧ I m s')
    {n fuel : ℕ} {s : σ} (hI : I n s) (hfuel : n < fuel) :
    ∃ r, iterate out step fuel s = .ok r ∧ Q r := by
  induction fuel generalizing n s with
  | zero => omega
  | succ fuel ih =>
    rcases hstep n s hI with ⟨r, hr, hQ⟩ | ⟨s', m, hs', hm, hI'⟩
    · exact ⟨r, by simp only [iterate, hr], hQ⟩
    · obtain ⟨r, hr, hQ⟩ := ih hI' (by omega)
      exact ⟨r, by simp only [iterate, hs', hr], hQ⟩

/-- A loop that is left in the first iteration. -/
theorem iterate_exit {out : σ → ε} {step : σ → Except ε (σ ⊕ ρ)} {s : σ} {r : ρ}
    (h : step s = .ok (.inr r)) (fuel : ℕ) : iterate out step (fuel + 1) s = .ok r := by
  simp only [iterate, h]

/-- Total correctness of `whileLoop`: the invariant holds when the loop is left. -/
theorem whileLoop_spec {out : σ → ε} {cond : σ → Except ε Bool} {body : σ → Except ε σ}
    {I : ℕ → σ → Prop} {Q : σ → Prop}
    (hexit : ∀ n s, I n s → cond s = .ok false → Q s)
    (hcond : ∀ n s, I n s → ∃ b, cond s = .ok b)
    (hbody : ∀ n s, I n s → cond s = .ok true →
      ∃ s' m, body s = .ok s' ∧ m < n ∧ I m s')
    {n fuel : ℕ} {s : σ} (hI : I n s) (hfuel : n < fuel) :
    ∃ s', whileLoop out cond body fuel s = .ok s' ∧ Q s' := by
  refine iterate_spec (I := I) (fun n s hI => ?_) hI hfuel
  obtain ⟨b, hb⟩ := hcond n s hI
  cases b with
  | false => exact .inl ⟨s, by simp only [whileStep, hb], hexit n s hI hb⟩
  | true =>
    obtain ⟨s', m, hs', hm, hI'⟩ := hbody n s hI hb
    exact .inr ⟨s', m, by simp only [whileStep, hb, hs'], hm, hI'⟩

/-- A loop through a fixed sequence of states stops at the first one for which the condition
fails. -/
theorem whileLoop_first {out : σ → ε} {cond : σ → Except ε Bool} {body : σ → Except ε σ}
    {a : ℕ → σ} {b : ℕ → Bool} {m fuel : ℕ} (hcond : ∀ n ≤ m, cond (a n) = .ok (b n))
    (hbody : ∀ n < m, body (a n) = .ok (a (n + 1))) (hlast : b m = false) (hfuel : m < fuel) :
    ∃ n ≤ m, whileLoop out cond body fuel (a 0) = .ok (a n) ∧ b n = false ∧
      ∀ k < n, b k = true := by
  have hloop : ∃ s, whileLoop out cond body fuel (a 0) = .ok s ∧
      ∃ n ≤ m, s = a n ∧ b n = false ∧ ∀ k < n, b k = true := by
    refine whileLoop_spec (I := fun i s => ∃ n ≤ m, s = a n ∧ i = m - n ∧ ∀ k < n, b k = true)
      ?_ ?_ ?_ ⟨0, Nat.zero_le _, rfl, rfl, fun k hk => absurd hk (Nat.not_lt_zero k)⟩ hfuel
    · rintro _ _ ⟨n, hn, rfl, -, hbefore⟩ hexit
      rw [hcond n hn] at hexit
      exact ⟨n, hn, rfl, Except.ok.inj hexit, hbefore⟩
    · rintro _ _ ⟨n, hn, rfl, -, -⟩
      exact ⟨_, hcond n hn⟩
    · rintro _ _ ⟨n, hn, rfl, rfl, hbefore⟩ hon
      rw [hcond n hn] at hon
      have hlt : n < m := hn.lt_of_ne fun heq => by simp [heq, hlast] at hon
      refine ⟨_, m - (n + 1), hbody n hlt, by omega, n + 1, hlt, rfl, rfl, ?_⟩
      exact Nat.forall_lt_succ_right.2 ⟨hbefore, Except.ok.inj hon⟩
  obtain ⟨_, hrun, n, hn, rfl, hrest⟩ := hloop
  exact ⟨n, hn, hrun, hrest⟩

/-- Partial correctness of `iterate`. -/
theorem iterate_invariant {out : σ → ε} {step : σ → Except ε (σ ⊕ ρ)} {I : σ → Prop}
    {Q : ρ → Prop} (hstep : ∀ s s', I s → step s = .ok (.inl s') → I s')
    (hexit : ∀ s r, I s → step s = .ok (.inr r) → Q r) {fuel : ℕ} {s : σ} {r : ρ} (hI : I s)
    (hrun : iterate out step fuel s = .ok r) : Q r := by
  induction fuel generalizing s with
  | zero => simp [iterate] at hrun
  | succ fuel ih =>
    unfold iterate at hrun
    cases hs : step s with
    | error e => simp [hs] at hrun
    | ok x =>
      cases x with
      | inl s' =>
        simp only [hs] at hrun
        exact ih (hstep s s' hI hs) hrun
      | inr r' =>
        simp only [hs] at hrun
        obtain rfl := Except.ok.inj hrun
        exact hexit s r' hI hs

/-- Partial correctness of `whileLoop`. -/
theorem whileLoop_invariant {out : σ → ε} {cond : σ → Except ε Bool} {body : σ → Except ε σ}
    {I : σ → Prop} (hbody : ∀ s s', I s → body s = .ok s' → I s') {fuel : ℕ} {s s' : σ} (hI : I s)
    (hrun : whileLoop out cond body fuel s = .ok s') : I s' := by
  refine iterate_invariant (I := I) (fun s s' hI hstep => ?_) (fun s r hI hstep => ?_) hI hrun
  · unfold whileStep at hstep
    split at hstep
    · simp at hstep
    · simp at hstep
    · -- the condition holds, and the body makes the step
      cases hb : body s with
      | error e => simp [hb] at hstep
      | ok s₁ =>
        simp only [hb, Except.ok.injEq, Sum.inl.injEq] at hstep
        exact hbody s s' hI (hstep ▸ hb)
  · unfold whileStep at hstep
    split at hstep
    · simp at hstep
    · simp only [Except.ok.injEq, Sum.inr.injEq] at hstep
      exact hstep ▸ hI
    · split at hstep
      · simp at hstep
      · simp at hstep

/-- A loop whose condition never fails runs out of fuel. -/
theorem whileLoop_diverges {out : σ → ε} {cond : σ → Except ε Bool} {body : σ → Except ε σ}
    {I : σ → Prop} (hcond : ∀ s, I s → cond s = .ok true)
    (hbody : ∀ s, I s → ∃ s', body s = .ok s' ∧ I s') (fuel : ℕ) {s : σ} (hI : I s) :
    ∃ s', whileLoop out cond body fuel s = .error (out s') := by
  induction fuel generalizing s with
  | zero => exact ⟨s, rfl⟩
  | succ fuel ih =>
    obtain ⟨s₁, hs₁, hI₁⟩ := hbody s hI
    obtain ⟨s', hs'⟩ := ih hI₁
    refine ⟨s', ?_⟩
    rw [← hs']
    simp only [whileLoop, iterate, whileStep, hcond s hI, hs₁]

/-- The first iteration of a loop that is entered. -/
theorem whileLoop_of_true {out : σ → ε} {cond : σ → Except ε Bool} {body : σ → Except ε σ}
    {fuel : ℕ} {s : σ} (hcond : cond s = .ok true) (hfuel : 0 < fuel) :
    whileLoop out cond body fuel s = (body s).bind (whileLoop out cond body (fuel - 1)) := by
  obtain ⟨fuel, rfl⟩ := Nat.exists_eq_add_of_le' hfuel
  simp only [whileLoop, iterate, whileStep, hcond, Nat.add_sub_cancel]
  cases body s <;> rfl

/-- A loop fails if its body does. -/
theorem whileLoop_error {out : σ → ε} {cond : σ → Except ε Bool} {body : σ → Except ε σ}
    {fuel : ℕ} {s : σ} {e : ε} (hcond : cond s = .ok true) (hbody : body s = .error e)
    (hfuel : 0 < fuel) : whileLoop out cond body fuel s = .error e := by
  rw [whileLoop_of_true hcond hfuel, hbody]
  rfl

/-- `n` iterations of `while (cond) body` lead from one state to another. -/
inductive Steps (cond : σ → Except ε Bool) (body : σ → Except ε σ) : ℕ → σ → σ → Prop
  | refl (s : σ) : Steps cond body 0 s s
  | snoc {n : ℕ} {s s' s'' : σ} : Steps cond body n s s' → cond s' = .ok true →
      body s' = .ok s'' → Steps cond body (n + 1) s s''

/-- Iterations that have been done can be skipped. -/
theorem Steps.whileLoop_eq {out : σ → ε} {cond : σ → Except ε Bool} {body : σ → Except ε σ}
    {n : ℕ} {s s' : σ} (h : Steps cond body n s s') (fuel : ℕ) :
    whileLoop out cond body (n + fuel) s = whileLoop out cond body fuel s' := by
  induction h generalizing fuel with
  | refl s => rw [Nat.zero_add]
  | snoc _ hcond hbody ih =>
    rw [Nat.add_assoc, Nat.add_comm 1, ih]
    simp only [whileLoop, iterate, whileStep, hcond, hbody]

/-- A loop returns the state that its iterations lead to when the condition fails there. -/
theorem Steps.whileLoop_exit {out : σ → ε} {cond : σ → Except ε Bool} {body : σ → Except ε σ}
    {n fuel : ℕ} {s s' : σ} (h : Steps cond body n s s') (hcond : cond s' = .ok false)
    (hfuel : n < fuel) : whileLoop out cond body fuel s = .ok s' := by
  obtain ⟨k, rfl⟩ := Nat.exists_eq_add_of_lt hfuel
  rw [Nat.add_assoc, h.whileLoop_eq]
  simp only [whileLoop, iterate, whileStep, hcond]

/-- An invariant whose index decreases holds after every iteration, with an index that has gone down
by one at least for each of them. -/
theorem Steps.invariant {cond : σ → Except ε Bool} {body : σ → Except ε σ} {I : ℕ → σ → Prop}
    (hbody : ∀ n s, I n s → cond s = .ok true → ∃ s' m, body s = .ok s' ∧ m < n ∧ I m s')
    {n k : ℕ} {s s' : σ} (h : Steps cond body k s s') (hI : I n s) : ∃ m, m + k ≤ n ∧ I m s' := by
  induction h with
  | refl s => exact ⟨n, Nat.le_refl n, hI⟩
  | snoc _ hcond hrun ih =>
    obtain ⟨m, hm, hI'⟩ := ih hI
    obtain ⟨s₁, m', hs₁, hlt, hI₁⟩ := hbody m _ hI' hcond
    obtain rfl := Except.ok.inj (hrun.symm.trans hs₁)
    exact ⟨m', by omega, hI₁⟩

/-- A loop with an invariant whose index decreases is left after at most as many iterations as the
index says. -/
theorem Steps.exists_exit {cond : σ → Except ε Bool} {body : σ → Except ε σ} {I : ℕ → σ → Prop}
    (hcond : ∀ n s, I n s → ∃ b, cond s = .ok b)
    (hbody : ∀ n s, I n s → cond s = .ok true → ∃ s' m, body s = .ok s' ∧ m < n ∧ I m s')
    {n : ℕ} {s : σ} (hI : I n s) :
    ∃ k ≤ n, ∃ s', Steps cond body k s s' ∧ cond s' = .ok false := by
  -- from any state on the way, by induction on the index that is left there
  suffices hway : ∀ m k s', Steps cond body k s s' → I m s' →
      ∃ k' ≤ k + m, ∃ s'', Steps cond body k' s s'' ∧ cond s'' = .ok false by
    simpa using hway n 0 s (.refl s) hI
  intro m
  induction m using Nat.strongRecOn with
  | ind m ih =>
    intro k s' hsteps hI'
    obtain ⟨b, hb⟩ := hcond m s' hI'
    cases b with
    | false => exact ⟨k, Nat.le_add_right k m, s', hsteps, hb⟩
    | true =>
      obtain ⟨s₁, m', hs₁, hlt, hI₁⟩ := hbody m s' hI' hb
      obtain ⟨k', hk', hexit⟩ := ih m' hlt (k + 1) s₁ (hsteps.snoc hb hs₁) hI₁
      exact ⟨k', by omega, hexit⟩

/-! ## One computation after another -/

section Bind

variable {α β : Type*} {x : Except ε α} {f : α → Except ε β} {r : β}

/-- Two computations return if the first one does, and the second one from its result. -/
theorem bind_eq_ok : x.bind f = .ok r ↔ ∃ a, x = .ok a ∧ f a = .ok r := by
  cases x with
  | error e => simp [Except.bind]
  | ok a => simp [Except.bind]

/-- A computation after one that returns. Rewriting with it does not unfold either of them. -/
theorem ok_bind {α β : Type u} (a : α) (f : α → Except ε β) : (Except.ok a >>= f) = f a := rfl

/-- A computation that is made under a condition returns if it does, or if the condition fails. -/
theorem ite_eq_ok {c : Prop} [Decidable c] {a a' : α} :
    (if c then x else .ok a) = .ok a' ↔ c ∧ x = .ok a' ∨ ¬ c ∧ a' = a := by
  by_cases hc : c
  · simp [hc]
  · simp [hc, eq_comm]

/-- The results of computations that were evaluated. -/
theorem toOption_bind_eq_some :
    (x.bind f).toOption = some r ↔ ∃ a, x = .ok a ∧ (f a).toOption = some r := by
  cases x with
  | error e => simp [Except.bind, Except.toOption]
  | ok a => simp [Except.bind]

end Bind

/-! ## Computations that end -/

section Terminates

variable {α β : Type*}

/-- The computation ends: it returns, or it stops with a fault other than an exhausted bound. -/
def Terminates (x : Except Fault α) : Prop := x ≠ .error .diverged

@[simp]
theorem terminates_ok (a : α) : Terminates (.ok a) := nofun

@[simp]
theorem terminates_error {e : Fault} : Terminates (.error e : Except Fault α) ↔ e ≠ .diverged := by
  simp [Terminates]

/-- Two computations end if the first one does, and the second one after it. -/
theorem Terminates.bind {x : Except Fault α} {f : α → Except Fault β} (h : Terminates x)
    (hf : ∀ a, x = .ok a → Terminates (f a)) : Terminates (x.bind f) := by
  cases x with
  | error e => exact terminates_error.2 (terminates_error.1 h)
  | ok a => exact hf a rfl

/-- A loop ends if its steps do and an index decreases with each of them. -/
theorem terminates_iterate {out : σ → Fault} {step : σ → Except Fault (σ ⊕ ρ)} {I : ℕ → σ → Prop}
    (hstep : ∀ n s, I n s → Terminates (step s))
    (hnext : ∀ n s s', I n s → step s = .ok (.inl s') → ∃ m, m < n ∧ I m s')
    {n fuel : ℕ} {s : σ} (hI : I n s) (hfuel : n < fuel) :
    Terminates (iterate out step fuel s) := by
  induction fuel generalizing n s with
  | zero => omega
  | succ fuel ih =>
    have hends := hstep n s hI
    unfold iterate
    cases hs : step s with
    | error e =>
      rw [hs] at hends
      exact terminates_error.2 (terminates_error.1 hends)
    | ok x =>
      cases x with
      | inl s' =>
        obtain ⟨m, hm, hI'⟩ := hnext n s s' hI hs
        exact ih hI' (by omega)
      | inr r => exact terminates_ok r

/-- The same for `while (cond) body`. -/
theorem terminates_whileLoop {out : σ → Fault} {cond : σ → Except Fault Bool}
    {body : σ → Except Fault σ} {I : ℕ → σ → Prop} (hcond : ∀ s, Terminates (cond s))
    (hbody : ∀ s, Terminates (body s))
    (hnext : ∀ n s s', I n s → cond s = .ok true → body s = .ok s' → ∃ m, m < n ∧ I m s')
    {n fuel : ℕ} {s : σ} (hI : I n s) (hfuel : n < fuel) :
    Terminates (whileLoop out cond body fuel s) := by
  refine terminates_iterate (fun n s _ => ?_) (fun n s s' hI hs => ?_) hI hfuel
  · have hends := hcond s
    unfold whileStep
    cases hc : cond s with
    | error e =>
      rw [hc] at hends
      exact terminates_error.2 (terminates_error.1 hends)
    | ok b =>
      cases b with
      | false => exact terminates_ok _
      | true =>
        have hends' := hbody s
        cases hb : body s with
        | error e =>
          rw [hb] at hends'
          exact terminates_error.2 (terminates_error.1 hends')
        | ok s' => exact terminates_ok _
  · unfold whileStep at hs
    split at hs
    · simp at hs
    · simp at hs
    · -- the loop goes on, so the body returned
      cases hb : body s with
      | error e => simp [hb] at hs
      | ok s₁ =>
        rw [hb] at hs
        obtain rfl := Sum.inl.inj (Except.ok.inj hs)
        exact hnext n s s₁ hI ‹_› hb

end Terminates

end BoundedLoop

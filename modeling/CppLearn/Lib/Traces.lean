import Mathlib.Data.List.Infix
import Mathlib.Data.List.Perm.Basic

/-!
# Runs of event systems

A system is given by a function that says what an event does in a state, and is undefined when the
event cannot happen there. A run is a list of events, the oldest first.

`run` is the state after a list of events, and `Reaches` says that some events lead from one state
to the other. The rule of invariants is `run_invariant`. A property of all states of a run
(`StatesMeet`) is turned into a condition on its steps (`StepsMeet`) by `statesMeet_iff`.
-/

namespace CppLearn.Traces

variable {σ ε : Type*} {step : σ → ε → Option σ} {s s' s'' : σ} {e : ε} {es es' : List ε}

/-- The state after the events `es`, if all of them can happen. -/
def run (step : σ → ε → Option σ) : σ → List ε → Option σ
  | s, [] => some s
  | s, e :: es => (step s e).bind fun s' => run step s' es

/-- Runs over no event, over a first one, and over the events of two lists. -/
@[simp]
theorem run_nil : run step s [] = some s := rfl

theorem run_cons : run step s (e :: es) = (step s e).bind fun s' => run step s' es := rfl

theorem run_append : run step s (es ++ es') = (run step s es).bind fun s' => run step s' es' := by
  induction es generalizing s with
  | nil => rfl
  | cons e es ih =>
    rw [List.cons_append, run_cons, run_cons, Option.bind_assoc]
    congr 1
    funext s'
    exact ih

/-- A run that ends with the event `e`. -/
theorem run_concat_eq_some :
    run step s (es ++ [e]) = some s'' ↔ ∃ s', run step s es = some s' ∧ step s' e = some s'' := by
  rw [run_append, Option.bind_eq_some_iff]
  simp [run_cons]

/-- A property of the events so far and of the state they lead to: what holds at the start and is
kept by every event holds after every run. -/
theorem run_invariant {P : List ε → σ → Prop} (hinit : P [] s)
    (hstep : ∀ es s' e s'', P es s' → step s' e = some s'' → P (es ++ [e]) s'')
    (hrun : run step s es = some s') : P es s' := by
  induction es using List.reverseRecOn generalizing s' with
  | nil =>
    obtain rfl := Option.some.inj hrun
    exact hinit
  | append_singleton es e ih =>
    obtain ⟨s₁, hs₁, he⟩ := run_concat_eq_some.1 hrun
    exact hstep es s₁ e s' (ih hs₁) he

/-- Some events lead from `s` to `s'`. -/
def Reaches (step : σ → ε → Option σ) (s s' : σ) : Prop := ∃ es, run step s es = some s'

/-- A state can be reached from itself, -/
theorem Reaches.refl (step : σ → ε → Option σ) (s : σ) : Reaches step s s := ⟨[], rfl⟩

/-- by a first event and those that follow, -/
theorem Reaches.head (hstep : step s e = some s') (h : Reaches step s' s'') :
    Reaches step s s'' := by
  obtain ⟨es, hrun⟩ := h
  exact ⟨e :: es, by rw [run_cons, hstep, Option.bind_some, hrun]⟩

/-- by one event, -/
theorem Reaches.single (hstep : step s e = some s') : Reaches step s s' :=
  .head hstep (.refl step s')

/-- or over another state. -/
theorem Reaches.trans (h : Reaches step s s') (h' : Reaches step s' s'') :
    Reaches step s s'' := by
  obtain ⟨es, hrun⟩ := h
  obtain ⟨es', hrun'⟩ := h'
  exact ⟨es ++ es', by rw [run_append, hrun, Option.bind_some, hrun']⟩

/-! ## Conditions on all states and on all steps -/

/-- `P` holds in every state that the events lead through. -/
def StatesMeet (step : σ → ε → Option σ) (s : σ) (P : σ → Prop) (es : List ε) : Prop :=
  ∀ past s', past <+: es → run step s past = some s' → P s'

/-- `C` holds of every event that happens, in the state in which it does. -/
def StepsMeet (step : σ → ε → Option σ) (s : σ) (C : σ → ε → Prop) (es : List ε) : Prop :=
  ∀ past e s' s'', past ++ [e] <+: es → run step s past = some s' → step s' e = some s'' → C s' e

variable {P : σ → Prop} {C : σ → ε → Prop}

/-- Without steps there is nothing to check. -/
theorem stepsMeet_nil : StepsMeet step s C [] := by
  intro past e s' s'' hpast
  simp at hpast

/-- One more event. -/
theorem stepsMeet_concat (hrun : run step s es = some s') (hstep : step s' e = some s'') :
    StepsMeet step s C (es ++ [e]) ↔ StepsMeet step s C es ∧ C s' e := by
  constructor
  · intro h
    refine ⟨fun past e' t t' hpast => h past e' t t' (hpast.trans (List.prefix_append ..)), ?_⟩
    exact h es e s' s'' (List.prefix_refl _) hrun hstep
  · rintro ⟨h, hlast⟩ past e' t t' hpast hrun' hstep'
    rcases List.prefix_concat_iff.1 hpast with heq | hpast
    · -- the event is the last one
      obtain ⟨rfl, rfl⟩ : past = es ∧ e' = e := by simpa using heq
      obtain rfl := Option.some.inj (hrun.symm.trans hrun')
      exact hlast
    · exact h past e' t t' hpast hrun' hstep'

/-- How many of the events meet the condition `c`, each in the state in which it happens. -/
def stepCount (step : σ → ε → Option σ) (c : σ → ε → Bool) : σ → List ε → ℕ
  | _, [] => 0
  | s, e :: es => (c s e).toNat + ((step s e).map fun s' => stepCount step c s' es).getD 0

/-- One more event. -/
theorem stepCount_concat {c : σ → ε → Bool} (hrun : run step s es = some s') (e : ε) :
    stepCount step c s (es ++ [e]) = stepCount step c s es + (c s' e).toNat := by
  induction es generalizing s with
  | nil =>
    obtain rfl := Option.some.inj hrun
    simp only [List.nil_append, stepCount]
    cases step s e <;> simp
  | cons e' es ih =>
    obtain ⟨t, ht, hrun⟩ := Option.bind_eq_some_iff.1 hrun
    simp only [List.cons_append, stepCount, ht, Option.map_some, Option.getD_some, ih hrun,
      Nat.add_assoc]

/-- A property of all states is a condition on all steps, when there is an invariant that gives the
property and that exactly the steps with the condition keep. -/
theorem statesMeet_iff {Inv : σ → Prop} (hinit : Inv s) (hP : ∀ s, Inv s → P s)
    (hgood : ∀ s e s', Inv s → C s e → step s e = some s' → Inv s')
    (hbad : ∀ s e s', Inv s → ¬C s e → step s e = some s' → ¬P s') (es : List ε) :
    StatesMeet step s P es ↔ StepsMeet step s C es := by
  -- the invariant holds as long as the steps meet the condition
  have hinv : ∀ past s', StepsMeet step s C past → run step s past = some s' → Inv s' := by
    intro past
    induction past using List.reverseRecOn with
    | nil =>
      intro s' _ hrun
      obtain rfl := Option.some.inj hrun
      exact hinit
    | append_singleton past e ih =>
      intro s'' hmeet hrun
      obtain ⟨s', hrun', hstep⟩ := run_concat_eq_some.1 hrun
      obtain ⟨hmeet', hlast⟩ := (stepsMeet_concat hrun' hstep).1 hmeet
      exact hgood s' e s'' (ih s' hmeet' hrun') hlast hstep
  constructor
  · intro h
    -- the first step without the condition would lead to a state without the property
    have hall : ∀ past, past <+: es → StepsMeet step s C past := by
      intro past
      induction past using List.reverseRecOn with
      | nil => exact fun _ => stepsMeet_nil
      | append_singleton past e ih =>
        intro hpast past' e' t t' hpast' hrun hstep
        have hmeet := ih ((List.prefix_append past [e]).trans hpast)
        rcases List.prefix_concat_iff.1 hpast' with heq | hpast'
        · obtain ⟨rfl, rfl⟩ : past' = past ∧ e' = e := by simpa using heq
          by_contra hnot
          have hrun' := run_concat_eq_some.2 ⟨t, hrun, hstep⟩
          exact hbad t e' t' (hinv past' t hmeet hrun) hnot hstep (h _ t' hpast hrun')
        · exact hmeet past' e' t t' hpast' hrun hstep
    exact hall es (List.prefix_refl _)
  · intro h past s' hpast hrun
    refine hP s' (hinv past s' ?_ hrun)
    exact fun past' e t t' hpast' => h past' e t t' (hpast'.trans hpast)

/-- Two lists whose elements of each kind are the same, in the same order, differ in the order of
the kinds only. -/
theorem perm_of_filter_eq {α κ : Type*} [DecidableEq κ] {kind : α → κ} {l l' : List α}
    (h : ∀ k, l.filter (kind · = k) = l'.filter (kind · = k)) : l.Perm l' := by
  classical
  rw [List.perm_iff_count]
  intro a
  have hcount : ∀ m : List α, (m.filter (kind · = kind a)).count a = m.count a :=
    fun m => List.count_filter (by simp)
  rw [← hcount l, ← hcount l', h (kind a)]

end CppLearn.Traces

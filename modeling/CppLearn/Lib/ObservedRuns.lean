import CppLearn.Lib.BoundedLoop

/-!
# Runs seen through probes

An object with operations that may fail, compared with an abstract machine. Some of the operations
are probes, whose results show the state of the object. A run is observed to be right when after
each of its beginnings every probe is answered as by the machine.

If a single operation is right exactly under a condition on the state before it, then a run is
observed to be right exactly when all its operations meet the condition.

`performAll` gives the results of a run, and `answers` those of the abstract machine; a run is
`Observed` if they agree for all probes after all its beginnings. `EachMeets` is the condition on
the state before every operation, and `observed_iff` the equivalence.
-/

namespace ObservedRuns

open BoundedLoop

variable {σ α ι ρ ε : Type*}

/-- The operations `ops`, one after the other: their results, and the final state. -/
def performAll (step : σ → ι → Except ε (ρ × σ)) : σ → List ι → Except ε (List ρ × σ)
  | s, [] => .ok ([], s)
  | s, op :: ops => do
    let (result, s) ← step s op
    let (results, s) ← performAll step s ops
    .ok (result :: results, s)

/-- The results of the abstract machine. -/
def answers (next : α → ι → α) (answer : α → ι → ρ) : α → List ι → List ρ
  | _, [] => []
  | a, op :: ops => answer a op :: answers next answer (next a op) ops

variable {step : σ → ι → Except ε (ρ × σ)} {next : α → ι → α} {answer : α → ι → ρ}
  {s s' : σ} {a : α} {op : ι} {ops : List ι}

theorem performAll_cons {result : ρ} (hstep : step s op = .ok (result, s')) {results : List ρ}
    {s'' : σ} : performAll step s (op :: ops) = .ok (result :: results, s'') ↔
      performAll step s' ops = .ok (results, s'') := by
  simp only [performAll, hstep, bind, Except.bind]
  cases performAll step s' ops with
  | error e => simp
  | ok x => simp [Prod.ext_iff]

/-- The results of a run whose first operation returns. -/
theorem performAll_cons_results {result : ρ} (hstep : step s op = .ok (result, s')) :
    (performAll step s (op :: ops)).map Prod.fst =
      ((performAll step s' ops).map Prod.fst).map (result :: ·) := by
  simp only [performAll, hstep, bind, Except.bind]
  cases performAll step s' ops with
  | error e => rfl
  | ok x => rfl

/-- A run whose first operation fails. -/
theorem performAll_cons_error {e : ε} (hstep : step s op = .error e) :
    performAll step s (op :: ops) = .error e := by
  simp only [performAll, hstep, bind, Except.bind]

/-- The result of a run of one operation. -/
theorem performAll_single_results {result : ρ} :
    (performAll step s [op]).map Prod.fst = .ok [result] ↔ ∃ s', step s op = .ok (result, s') := by
  cases hstep : step s op with
  | error e => simp [performAll_cons_error hstep, Except.map]
  | ok x =>
    have hstep' : step s op = .ok (x.1, x.2) := hstep
    rw [performAll_cons_results hstep']
    simp [performAll, Except.map, Prod.ext_iff]

/-- A run that returns begins with an operation that returns. -/
theorem performAll_cons_inv {results : List ρ} {s'' : σ}
    (h : performAll step s (op :: ops) = .ok (results, s'')) :
    ∃ result s' results', step s op = .ok (result, s') ∧ results = result :: results' ∧
      performAll step s' ops = .ok (results', s'') := by
  obtain ⟨⟨result, s'⟩, hstep, hrest⟩ := bind_eq_ok.1 h
  obtain ⟨⟨results', s₂⟩, hrun, heq⟩ := bind_eq_ok.1 hrest
  obtain ⟨rfl, rfl⟩ := Prod.mk.inj (Except.ok.inj heq)
  exact ⟨result, s', results', hstep, rfl, hrun⟩

variable {Probe : ι → Prop} {Meets : σ → α → ι → Prop}

/-- After every beginning of `ops`, every probe is answered as by the abstract machine. -/
def Observed (step : σ → ι → Except ε (ρ × σ)) (next : α → ι → α) (answer : α → ι → ρ)
    (Probe : ι → Prop) (s : σ) (a : α) (ops : List ι) : Prop :=
  ∀ pre post, ops = pre ++ post → ∀ p, Probe p →
    ∃ s', performAll step s (pre ++ [p]) = .ok (answers next answer a (pre ++ [p]), s')

/-- Every operation meets a condition in the state in which it takes place. -/
def EachMeets (step : σ → ι → Except ε (ρ × σ)) (next : α → ι → α) (Meets : σ → α → ι → Prop)
    (s : σ) (a : α) (ops : List ι) : Prop :=
  ∀ pre op post results s', ops = pre ++ op :: post →
    performAll step s pre = .ok (results, s') → Meets s' (pre.foldl next a) op

theorem performAll_single {p : ι} :
    (∃ s', performAll step s [p] = .ok (answers next answer a [p], s')) ↔
      ∃ s', step s p = .ok (answer a p, s') := by
  constructor
  · rintro ⟨s', hrun⟩
    obtain ⟨result, s₁, results, hstep, heq, -⟩ := performAll_cons_inv hrun
    obtain ⟨rfl, -⟩ := List.cons_eq_cons.1 heq
    exact ⟨s₁, hstep⟩
  · rintro ⟨s', hstep⟩
    exact ⟨s', (performAll_cons hstep).2 rfl⟩

/-- Before the first operation, the probes are answered rightly. -/
theorem Observed.probe (h : Observed step next answer Probe s a ops) {p : ι} (hp : Probe p) :
    ∃ s', step s p = .ok (answer a p, s') :=
  performAll_single.1 (h [] ops rfl p hp)

theorem observed_nil :
    Observed step next answer Probe s a [] ↔
      ∀ p, Probe p → ∃ s', step s p = .ok (answer a p, s') := by
  constructor
  · exact fun h p hp => h.probe hp
  · intro h pre post hops p hp
    obtain ⟨rfl, -⟩ := List.append_eq_nil_iff.1 hops.symm
    exact performAll_single.2 (h p hp)

theorem observed_cons (hprobe : ∃ p, Probe p) :
    Observed step next answer Probe s a (op :: ops) ↔
      (∀ p, Probe p → ∃ s', step s p = .ok (answer a p, s')) ∧
      ∃ s', step s op = .ok (answer a op, s') ∧
        Observed step next answer Probe s' (next a op) ops := by
  constructor
  · intro h
    refine ⟨fun p hp => h.probe hp, ?_⟩
    -- a probe after the first operation shows that it has succeeded
    obtain ⟨p, hp⟩ := hprobe
    obtain ⟨s₂, hrun⟩ := h [op] ops rfl p hp
    obtain ⟨result, s', results, hstep, heq, -⟩ := performAll_cons_inv hrun
    obtain ⟨rfl, -⟩ := List.cons_eq_cons.1 heq
    refine ⟨s', hstep, fun pre post hops p hp => ?_⟩
    obtain ⟨s₃, hrun'⟩ := h (op :: pre) post (by rw [hops, List.cons_append]) p hp
    exact ⟨s₃, (performAll_cons hstep).1 hrun'⟩
  · rintro ⟨hnow, s', hstep, hrest⟩ pre post hops p hp
    cases pre with
    | nil => exact observed_nil.2 hnow [] [] rfl p hp
    | cons op' pre =>
      obtain ⟨rfl, hops'⟩ := List.cons_eq_cons.1 hops
      obtain ⟨s₂, hrun⟩ := hrest pre post hops' p hp
      exact ⟨s₂, (performAll_cons hstep).2 hrun⟩

theorem eachMeets_nil : EachMeets step next Meets s a [] := by
  intro pre op post results s' hops
  simp at hops

theorem eachMeets_cons {result : ρ} (hstep : step s op = .ok (result, s')) :
    EachMeets step next Meets s a (op :: ops) ↔
      Meets s a op ∧ EachMeets step next Meets s' (next a op) ops := by
  constructor
  · intro h
    refine ⟨h [] op ops [] s rfl rfl, fun pre op' post results s₂ hops hrun => ?_⟩
    exact h (op :: pre) op' post _ s₂ (by rw [hops, List.cons_append])
      ((performAll_cons hstep).2 hrun)
  · rintro ⟨hop, hrest⟩ pre op' post results s₂ hops hrun
    cases pre with
    | nil =>
      obtain ⟨rfl, rfl⟩ := List.cons_eq_cons.1 hops
      obtain ⟨-, rfl⟩ := Prod.mk.inj (Except.ok.inj hrun)
      exact hop
    | cons op'' pre =>
      obtain ⟨rfl, hops'⟩ := List.cons_eq_cons.1 hops
      obtain ⟨_, s₁, results', hstep', -, hrun'⟩ := performAll_cons_inv hrun
      obtain ⟨-, rfl⟩ := Prod.mk.inj (Except.ok.inj (hstep.symm.trans hstep'))
      exact hrest pre op' post results' s₂ hops' hrun'

/-- `Rep` relates the states of the object to those of the machine. If an operation is right exactly
under a condition, and probes are right exactly in related states, then a run is observed to be
right exactly when all operations meet the condition. -/
theorem observed_iff (Rep : σ → α → Prop) {Allowed : ι → Prop} (hprobe : ∃ p, Probe p)
    (hright : ∀ s a p, Rep s a → Probe p → ∃ s', step s p = .ok (answer a p, s'))
    (hstep : ∀ s a op, Rep s a → Allowed op → Meets s a op →
      ∃ s', step s op = .ok (answer a op, s') ∧ Rep s' (next a op))
    (hmeets : ∀ s a op s', Rep s a → Allowed op → step s op = .ok (answer a op, s') →
      (∀ p, Probe p → ∃ s'', step s' p = .ok (answer (next a op) p, s'')) → Meets s a op)
    (hrep : Rep s a) (hops : ∀ op ∈ ops, Allowed op) :
    Observed step next answer Probe s a ops ↔ EachMeets step next Meets s a ops := by
  induction ops generalizing s a with
  | nil =>
    exact iff_of_true (observed_nil.2 fun p hp => hright s a p hrep hp) eachMeets_nil
  | cons op ops ih =>
    have hop := hops op List.mem_cons_self
    have hrest : ∀ op ∈ ops, Allowed op := fun op hmem => hops op (List.mem_cons_of_mem _ hmem)
    rw [observed_cons hprobe]
    constructor
    · rintro ⟨-, s', hs', hobserved⟩
      -- the probes after the operation show that it met the condition
      have hcond := hmeets s a op s' hrep hop hs' fun p hp => hobserved.probe hp
      obtain ⟨s₁, hs₁, hrep'⟩ := hstep s a op hrep hop hcond
      obtain ⟨-, rfl⟩ := Prod.mk.inj (Except.ok.inj (hs'.symm.trans hs₁))
      exact (eachMeets_cons hs').2 ⟨hcond, (ih hrep' hrest).1 hobserved⟩
    · intro h
      have hcond := h [] op ops [] s rfl rfl
      obtain ⟨s', hs', hrep'⟩ := hstep s a op hrep hop hcond
      refine ⟨fun p hp => hright s a p hrep hp, s', hs', ?_⟩
      exact (ih hrep' hrest).2 ((eachMeets_cons hs').1 h).2

end ObservedRuns

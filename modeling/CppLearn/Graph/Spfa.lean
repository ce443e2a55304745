import CppLearn.Graph.BellmanFord
import Mathlib.Data.Fin.VecNotation
import Mathlib.Tactic.Linarith
import Mathlib.Tactic.Positivity
import Mathlib.Tactic.Ring

/-!
# SPFA

The loop of `SPFA` keeps the vertices in a queue whose outgoing edges may still lower an entry. The
entry of each vertex comes from a trail whose number of edges is `count`; a trail with `n` edges
meets a vertex again, and shows a negative cycle. Trails with less than `n` edges bound the entries
from below, which makes the loop end.

The loops keep `Graph.Invariant` and lower `Graph.potential`. So `SPFA` returns, with a settled
table or after it has found a negative cycle (`Graph.spfa_spec`), and it agrees with Bellman-Ford
(`Graph.spfa_bellmanFord`).
-/

namespace CppLearn.Graph

open BoundedLoop ShortestPath

variable {n : ℕ} {g : Graph n} {start : Fin n}

/-- The invariant of the loops. A vertex outside the queue cannot lower entries along the edges in
`ok`; between two iterations of the outer loop these are all its edges. -/
structure Invariant (g : Graph n) (start : Fin n) (ok : Fin n → List (Fin n × ℤ))
    (s : SpfaState n) : Prop where
  sound : Sound g.Edge start int32Max s.answer
  queued : ∀ v, s.visit v = true → v ∈ s.queue
  reached : ∀ v ∈ s.queue, s.answer v ≠ int32Max
  settled : ∀ v ∉ s.queue, s.answer v ≠ int32Max → ∀ p ∈ ok v, s.answer p.1 ≤ s.answer v + p.2
  trail : ∀ v, s.answer v ≠ int32Max → ∃ t, Trail g.Edge start ((v, s.answer v) :: t) ∧
    t.length = s.count v ∧ ∀ x e, (x, e) ∈ t → s.answer x ≤ e
  count_lt : ∀ v, s.count v < n

variable {ok ok' : Fin n → List (Fin n × ℤ)} {s : SpfaState n} {u v : Fin n} {w : ℤ}

/-- Before the first iteration. -/
theorem spfaInitial_invariant (g : Graph n) (start : Fin n) :
    Invariant g start g.graph (spfaInitial start) := by
  have hanswer : (spfaInitial start).answer = initialAnswer start := rfl
  have hqueue {v : Fin n} : v ∈ (spfaInitial start).queue ↔ v = start := List.mem_singleton
  have hstart {v : Fin n} (hv : (spfaInitial start).answer v ≠ int32Max) : v = start := by
    by_contra hne
    exact hv (initialAnswer_of_ne hne)
  refine ⟨initialAnswer_sound g start, fun v hv => ?_, fun v hv => ?_, fun v hv hne => ?_,
    fun v hne => ?_, fun v => start.pos⟩
  · rw [hqueue]
    by_contra hne
    simp only [spfaInitial, Function.update_of_ne hne] at hv
    cases hv
  · rw [hqueue.1 hv, hanswer, initialAnswer_self]
    decide
  · exact absurd (hqueue.2 (hstart hne)) hv
  · refine ⟨[], ?_, rfl, by simp⟩
    rw [hstart hne, hanswer, initialAnswer_self]
    exact .start

/-- Removing `u` from the queue: nothing is known about its edges. -/
theorem Invariant.pop (h : Invariant g start g.graph s) {queue : List (Fin n)}
    (hqueue : s.queue = u :: queue) :
    Invariant g start (Function.update g.graph u [])
      { s with queue, visit := Function.update s.visit u false } := by
  refine ⟨h.sound, fun v hv => ?_, fun v hv => ?_, fun v hv hne p hp => ?_, h.trail, h.count_lt⟩
  · simp only at hv ⊢
    -- `u` is no longer marked
    have hvu : v ≠ u := by
      rintro rfl
      rw [Function.update_self] at hv
      cases hv
    rw [Function.update_of_ne hvu] at hv
    have hmem := h.queued v hv
    rw [hqueue] at hmem
    exact (List.mem_cons.1 hmem).resolve_left hvu
  · exact h.reached v (by rw [hqueue]; exact List.mem_cons_of_mem _ hv)
  · -- of `u` no edge counts as done
    by_cases hvu : v = u
    · rw [hvu, Function.update_self] at hp
      cases hp
    · rw [Function.update_of_ne hvu] at hp
      refine h.settled v (fun hmem => ?_) hne p hp
      rw [hqueue] at hmem
      exact hv ((List.mem_cons.1 hmem).resolve_left hvu)

/-- Lowering an entry extends the trail of `u` by the edge. -/
theorem Invariant.trail_lower (h : Invariant g start ok s) (hu : s.answer u ≠ int32Max)
    (hedge : g.Edge u v w) (hlt : s.answer u + w < s.answer v) :
    ∃ t, Trail g.Edge start ((v, s.answer u + w) :: t) ∧ t.length = s.count u + 1 ∧
      ∀ x e, (x, e) ∈ t → s.answer x ≤ e := by
  obtain ⟨t, htrail, hlen, hle⟩ := h.trail u hu
  have hle' (x : Fin n) (e : ℤ) (hx : (x, e) ∈ (u, s.answer u) :: t) : s.answer x ≤ e := by
    rcases List.mem_cons.1 hx with hhead | htail
    · obtain ⟨rfl, rfl⟩ := Prod.mk.inj hhead
      exact le_rfl
    · exact hle x e htail
  refine ⟨(u, s.answer u) :: t, htrail.step hedge fun e he => hlt.trans_le (hle' v e he), ?_, hle'⟩
  rw [List.length_cons, hlen]

/-- An edge that cannot lower an entry. -/
theorem Invariant.skip {done : List (Fin n × ℤ)}
    (h : Invariant g start (Function.update g.graph u done) s)
    (hle : s.answer v ≤ s.answer u + w) :
    Invariant g start (Function.update g.graph u (done ++ [(v, w)])) s := by
  refine ⟨h.sound, h.queued, h.reached, fun x hx hne p hp => ?_, h.trail, h.count_lt⟩
  have hold := h.settled x hx hne p
  by_cases hxu : x = u
  · subst hxu
    rw [Function.update_self] at hp hold
    rcases List.mem_append.1 hp with hmem | hlast
    · exact hold hmem
    · rw [List.mem_singleton.1 hlast]
      exact hle
  · rw [Function.update_of_ne hxu] at hp hold
    exact hold hp

/-- After lowering, the vertex is in the queue. -/
theorem mem_enqueue (hqueued : ∀ v, s.visit v = true → v ∈ s.queue) (v : Fin n) :
    v ∈ (s.enqueue v).queue := by
  unfold SpfaState.enqueue
  cases hv : s.visit v with
  | false => simp
  | true => simpa using hqueued v hv

/-- No vertex leaves the queue when one is put into it, -/
theorem subset_enqueue (s : SpfaState n) (v : Fin n) : s.queue ⊆ (s.enqueue v).queue := by
  unfold SpfaState.enqueue
  split_ifs
  · exact List.subset_append_left _ _
  · exact fun _ h => h

/-- and no other one comes in. -/
theorem mem_of_mem_enqueue {x : Fin n} (hxv : x ≠ v) (hx : x ∈ (s.enqueue v).queue) :
    x ∈ s.queue := by
  unfold SpfaState.enqueue at hx
  split_ifs at hx
  · exact (List.mem_append.1 hx).resolve_right (by simpa using hxv)
  · exact hx

/-- Only this vertex is marked. -/
theorem visit_enqueue (s : SpfaState n) {x : Fin n} (hxv : x ≠ v) :
    (s.enqueue v).visit x = s.visit x := by
  unfold SpfaState.enqueue
  split_ifs
  · exact Function.update_of_ne hxv ..
  · rfl

/-- The queue does not concern the distances or the counts. -/
@[simp]
theorem enqueue_answer (s : SpfaState n) (v : Fin n) : (s.enqueue v).answer = s.answer := by
  unfold SpfaState.enqueue
  split_ifs <;> rfl

@[simp]
theorem enqueue_count (s : SpfaState n) (v : Fin n) : (s.enqueue v).count = s.count := by
  unfold SpfaState.enqueue
  split_ifs <;> rfl

/-- An edge that lowers the entry of its target, without too many edges on the trail. -/
theorem Invariant.lower {done : List (Fin n × ℤ)}
    (h : Invariant g start (Function.update g.graph u done) s) (hu : s.answer u ≠ int32Max)
    (hedge : g.Edge u v w) (hlt : s.answer u + w < s.answer v) (hcount : s.count u + 1 < n) :
    Invariant g start (Function.update g.graph u (done ++ [(v, w)]))
      ((s.lower u v w).enqueue v) := by
  have hself : (s.lower u v w).answer v = s.answer u + w := Function.update_self ..
  have hother {x : Fin n} (hx : x ≠ v) : (s.lower u v w).answer x = s.answer x :=
    Function.update_of_ne hx ..
  have hcountSelf : (s.lower u v w).count v = s.count u + 1 := Function.update_self ..
  have hcountOther {x : Fin n} (hx : x ≠ v) : (s.lower u v w).count x = s.count x :=
    Function.update_of_ne hx ..
  have hle : (s.lower u v w).answer ≤ s.answer := update_le_self_iff.2 hlt.le
  have hmem : v ∈ ((s.lower u v w).enqueue v).queue := mem_enqueue (s := s.lower u v w) h.queued v
  -- each clause for `v`, whose entry and count change, and for the others
  refine ⟨?_, fun x hx => ?_, fun x hx => ?_, fun x hx hne p hp => ?_, fun x hne => ?_, fun x => ?_⟩
  · rw [enqueue_answer]
    exact h.sound.relax hu hedge hlt
  · by_cases hxv : x = v
    · rw [hxv]
      exact hmem
    · rw [visit_enqueue _ hxv] at hx
      exact subset_enqueue _ v (h.queued x hx)
  · rw [enqueue_answer]
    have := h.sound.le_inf v
    by_cases hxv : x = v
    · rw [hxv, hself]
      omega
    · rw [hother hxv]
      exact h.reached x (mem_of_mem_enqueue (s := s.lower u v w) hxv hx)
  · -- `v` is in the queue, so nothing is said about its edges
    have hxv : x ≠ v := fun heq => hx (heq ▸ hmem)
    rw [enqueue_answer] at hne ⊢
    rw [hother hxv] at hne ⊢
    have hold := h.settled x (fun hxs => hx (subset_enqueue _ v hxs)) hne
    by_cases hxu : x = u
    · subst hxu
      rw [Function.update_self] at hp hold
      rcases List.mem_append.1 hp with hdone | hlast
      · exact (hle p.1).trans (hold p hdone)
      · rw [List.mem_singleton.1 hlast, hself]
    · rw [Function.update_of_ne hxu] at hp hold
      exact (hle p.1).trans (hold p hp)
  · rw [enqueue_answer] at hne ⊢
    rw [enqueue_count]
    by_cases hxv : x = v
    · -- the trail of `u` with the edge to `v` appended
      obtain ⟨t, htrail, hlen, hbelow⟩ := h.trail_lower hu hedge hlt
      refine ⟨t, by rw [hxv, hself]; exact htrail, ?_, fun y e hy => (hle y).trans (hbelow y e hy)⟩
      rw [hlen, hxv, hcountSelf]
    · rw [hother hxv] at hne ⊢
      obtain ⟨t, htrail, hlen, hbelow⟩ := h.trail x hne
      refine ⟨t, htrail, ?_, fun y e hy => (hle y).trans (hbelow y e hy)⟩
      rw [hlen, hcountOther hxv]
  · rw [enqueue_count]
    by_cases hxv : x = v
    · rw [hxv, hcountSelf]
      exact hcount
    · rw [hcountOther hxv]
      exact h.count_lt x

/-! ## Termination -/

/-- No entry gets below `-lowest`. -/
def lowest (g : Graph n) : ℤ := n * g.totalWeight

/-- Each relaxation lowers the sum of the entries, and adds at most one vertex to the queue. -/
def potential (g : Graph n) (s : SpfaState n) : ℤ :=
  2 * ∑ v, (s.answer v + g.lowest) + s.queue.length

variable {inf : ℤ}

/-- The edges of a vertex are a part of all edges. -/
theorem outWeight_le_totalWeight (hsmall : Small g.Edge g.outWeight inf) (u : Fin n) :
    g.outWeight u ≤ g.totalWeight :=
  Finset.single_le_sum (fun v _ => hsmall.nonneg v) (Finset.mem_univ u)

/-- The weight of a trail is bounded from below by its number of edges. -/
theorem trail_weight_ge (hsmall : Small g.Edge g.outWeight inf) {t : List (Fin n × ℤ)}
    {d : ℤ} (h : Trail g.Edge start ((v, d) :: t)) : -(t.length * g.totalWeight) ≤ d := by
  generalize hl : (v, d) :: t = l at h
  induction h generalizing v d t with
  | start =>
    obtain ⟨hhead, rfl⟩ := List.cons.inj hl
    obtain ⟨-, rfl⟩ := Prod.mk.inj hhead
    simp
  | @step u x d' w t' _ hedge _ ih =>
    obtain ⟨hhead, rfl⟩ := List.cons.inj hl
    obtain ⟨-, rfl⟩ := Prod.mk.inj hhead
    -- each edge lowers the weight by at most the sum of all weights
    have hprev := ih rfl
    have habs := hsmall.abs_le u x w hedge
    have htotal := outWeight_le_totalWeight hsmall u
    have hneg := neg_abs_le w
    rw [List.length_cons]
    push_cast
    linarith

/-- The entries are bounded from below. -/
theorem Invariant.answer_ge (hsmall : Small g.Edge g.outWeight inf)
    (h : Invariant g start ok s) (v : Fin n) : 0 ≤ s.answer v + g.lowest := by
  have htotal : 0 ≤ g.totalWeight := Finset.sum_nonneg fun u _ => hsmall.nonneg u
  unfold lowest
  by_cases hv : s.answer v = int32Max
  · have hmax : (0 : ℤ) ≤ int32Max := by decide
    rw [hv]
    positivity
  · -- a finite entry is the weight of a trail with fewer than `n` edges
    obtain ⟨t, htrail, hlen, -⟩ := h.trail v hv
    have hge := trail_weight_ge hsmall htrail
    have hcount : (s.count v : ℤ) ≤ n := by exact_mod_cast (h.count_lt v).le
    have hmul := mul_le_mul_of_nonneg_right hcount htotal
    rw [hlen] at hge
    linarith

/-- The measure for the end of the loop is not negative. -/
theorem Invariant.potential_nonneg (hsmall : Small g.Edge g.outWeight inf)
    (h : Invariant g start ok s) : (s.queue.length : ℤ) ≤ g.potential s := by
  have := Finset.sum_nonneg fun v (_ : v ∈ Finset.univ) => h.answer_ge hsmall v
  unfold potential
  omega

/-- The queue gets longer by at most one. -/
theorem length_enqueue_le (s : SpfaState n) (v : Fin n) :
    (s.enqueue v).queue.length ≤ s.queue.length + 1 := by
  unfold SpfaState.enqueue
  split_ifs <;> simp

/-- A relaxation makes the potential smaller. -/
theorem potential_lower_lt (g : Graph n) (hlt : s.answer u + w < s.answer v) :
    g.potential ((s.lower u v w).enqueue v) < g.potential s := by
  have hsum : ∑ x, ((s.lower u v w).answer x + g.lowest) < ∑ x, (s.answer x + g.lowest) := by
    have hle : (s.lower u v w).answer ≤ s.answer := update_le_self_iff.2 hlt.le
    have hself : (s.lower u v w).answer v = s.answer u + w := Function.update_self ..
    refine Finset.sum_lt_sum (fun x _ => ?_) ⟨v, Finset.mem_univ v, ?_⟩
    · exact add_le_add_left (hle x) _
    · rw [hself]
      omega
  -- the queue gets longer by one at most
  have hlen := length_enqueue_le (s.lower u v w) v
  have hqueue : (s.lower u v w).queue = s.queue := rfl
  rw [hqueue] at hlen
  unfold potential
  rw [enqueue_answer]
  omega

/-! ## The loops -/

/-- The loop over the edges of `u` returns with the invariant, unless it finds a negative cycle. -/
theorem spfaEdges_spec {done edges : List (Fin n × ℤ)} (hall : g.graph u = done ++ edges)
    (h : Invariant g start (Function.update g.graph u done) s) (hu : s.answer u ≠ int32Max) :
    (∃ s', spfaEdges u edges s = .inl s' ∧ Invariant g start g.graph s' ∧
      g.potential s' ≤ g.potential s ∧ Relaxes g.Edge int32Max s.answer s'.answer) ∨
    ∃ answer, spfaEdges u edges s = .inr answer ∧ NegativeCycle g.Edge start := by
  induction edges generalizing s done with
  | nil =>
    rw [List.append_nil] at hall
    refine .inl ⟨s, rfl, ?_, le_rfl, .refl⟩
    rwa [← hall, Function.update_eq_self] at h
  | cons p edges ih =>
    obtain ⟨v, w⟩ := p
    have hall' : g.graph u = (done ++ [(v, w)]) ++ edges := by rw [hall]; simp
    have hedge : g.Edge u v w := by
      rw [Edge, hall]
      simp
    by_cases hlt : s.answer v > s.answer u + w
    · have hcountSelf : (s.lower u v w).count v = s.count u + 1 := Function.update_self ..
      by_cases hcount : n ≤ s.count u + 1
      · -- the trail of `v` has as many edges as there are vertices
        obtain ⟨t, htrail, hlen, -⟩ := h.trail_lower hu hedge hlt
        refine .inr ⟨(s.lower u v w).answer, ?_, htrail.negativeCycle ?_⟩
        · rw [spfaEdges, if_pos hlt]
          simp only [hcountSelf, ge_iff_le, hcount, if_true]
        · rw [Fintype.card_fin, List.length_cons, hlen]
          omega
      · have hinv := h.lower hu hedge hlt (by omega)
        have hreached : ((s.lower u v w).enqueue v).answer u ≠ int32Max := by
          have hle : (s.lower u v w).answer u ≤ s.answer u := update_le_self_iff.2 hlt.le u
          have := h.sound.le_inf u
          rw [enqueue_answer]
          omega
        have hrun : spfaEdges u ((v, w) :: edges) s =
            spfaEdges u edges ((s.lower u v w).enqueue v) := by
          rw [spfaEdges, if_pos hlt]
          simp only [hcountSelf, ge_iff_le, hcount, if_false]
        rw [hrun]
        rcases ih hall' hinv hreached with ⟨s', hs', hinv', hpot, hrest⟩ | hcycle
        · refine .inl ⟨s', hs', hinv', hpot.trans (potential_lower_lt g hlt).le, ?_⟩
          rw [enqueue_answer] at hrest
          exact .head (.edge hu hedge hlt) hrest
        · exact .inr hcycle
    · have hrun : spfaEdges u ((v, w) :: edges) s = spfaEdges u edges s := by
        rw [spfaEdges, if_neg hlt]
      rw [hrun]
      exact ih hall' (h.skip (not_lt.1 hlt)) hu

/-- `SPFA` returns. The result `true` comes with a sound and settled table, which has come about by
relaxation, and the result `false` with a negative cycle. -/
theorem spfa_spec (g : Graph n) (start : Fin n) :
    ∃ bound, ∀ fuel, bound < fuel → ∃ result answer, g.spfa fuel start = .ok (result, answer) ∧
      (result = true → Sound g.Edge start int32Max answer ∧ Settled g.Edge int32Max answer ∧
        Relaxes g.Edge int32Max (initialAnswer start) answer) ∧
      (result = false → NegativeCycle g.Edge start) := by
  have hsmall : Small g.Edge g.outWeight (g.totalWeight + 1) := small (lt_add_one _)
  refine ⟨(g.potential (spfaInitial start)).toNat, fun fuel hfuel => ?_⟩
  have hloop : ∃ r, g.spfa fuel start = .ok r ∧
      (r.1 = true → Sound g.Edge start int32Max r.2 ∧ Settled g.Edge int32Max r.2 ∧
        Relaxes g.Edge int32Max (initialAnswer start) r.2) ∧
      (r.1 = false → NegativeCycle g.Edge start) := by
    refine iterate_spec (I := fun m s => Invariant g start g.graph s ∧ g.potential s ≤ m ∧
        Relaxes g.Edge int32Max (initialAnswer start) s.answer)
      ?_ ⟨spfaInitial_invariant g start, Int.self_le_toNat _, .refl⟩ hfuel
    rintro m s ⟨hinv, hpot, hrelaxes⟩
    cases hqueue : s.queue with
    | nil =>
      refine .inl ⟨(true, s.answer), by simp only [spfaStep, hqueue], fun _ => ?_, nofun⟩
      refine ⟨hinv.sound, fun u v w hedge hu => hinv.settled u ?_ hu (v, w) hedge, hrelaxes⟩
      rw [hqueue]
      exact List.not_mem_nil
    | cons u queue =>
      have hpop := hinv.pop hqueue
      have hu := hinv.reached u (by rw [hqueue]; exact List.mem_cons_self)
      rcases spfaEdges_spec (List.nil_append _).symm hpop hu with
        ⟨s', hs', hinv', hpot', hedges⟩ | ⟨answer, hanswer, hcycle⟩
      · -- the vertex that was removed makes the potential smaller
        have hlt : g.potential { s with queue, visit := Function.update s.visit u false } + 1 =
            g.potential s := by
          simp only [potential, hqueue, List.length_cons]
          push_cast
          ring
        have hnonneg := hinv'.potential_nonneg hsmall
        refine .inr ⟨s', m - 1, by simp only [spfaStep, hqueue, hs'], by omega, hinv', ?_,
          hrelaxes.trans hedges⟩
        omega
      · refine .inl ⟨(false, answer), by simp only [spfaStep, hqueue, hanswer], nofun, ?_⟩
        exact fun _ => hcycle
  obtain ⟨⟨result, answer⟩, hrun, hpost⟩ := hloop
  exact ⟨result, answer, hrun, hpost⟩

/-! ## Agreement -/

/-- For graphs with small weights, `SPFA` terminates; it returns `true` exactly when `BellmanFord`
returns `false`, which is when no negative cycle can be reached; and then both compute the same
distances. -/
theorem spfa_bellmanFord (g : Graph n) (start : Fin n) (hweight : g.totalWeight < int32Max) :
    ∃ bound, ∀ fuel, bound < fuel → ∃ result answer, g.spfa fuel start = .ok (result, answer) ∧
      (result = true ↔ (g.bellmanFord start).1 = false) ∧
      (result = true ↔ ¬ NegativeCycle g.Edge start) ∧
      (result = true → answer = (g.bellmanFord start).2) := by
  have hsmall := small hweight
  obtain ⟨bound, hspfa⟩ := spfa_spec g start
  refine ⟨bound, fun fuel hfuel => ?_⟩
  obtain ⟨result, answer, hrun, htrue, hfalse⟩ := hspfa fuel hfuel
  -- both results say the same about negative cycles
  have hcycle : result = true ↔ ¬ NegativeCycle g.Edge start := by
    constructor
    · intro h
      -- sound and settled tables are equal
      obtain ⟨hsound, hsettled, -⟩ := htrue h
      exact hsettled.not_negativeCycle hsmall hsound.start_le
    · intro h
      by_contra hresult
      exact h (hfalse (Bool.not_eq_true _ ▸ hresult))
  have hford : (g.bellmanFord start).1 = false ↔ ¬ NegativeCycle g.Edge start := by
    constructor
    · intro h
      obtain ⟨hsound, hsettled⟩ := bellmanFord_settled h
      exact hsettled.not_negativeCycle hsmall hsound.start_le
    · exact bellmanFord_eq_false
  refine ⟨result, answer, hrun, hcycle.trans hford.symm, hcycle, fun h => ?_⟩
  obtain ⟨hsound, hsettled, -⟩ := htrue h
  obtain ⟨hsound', hsettled'⟩ := bellmanFord_settled (hford.2 (hcycle.1 h))
  exact hsettled.eq hsettled' hsmall hsound hsound'

/-- Two vertices with an edge of negative weight on a cycle of positive weight. -/
theorem spfa_bellmanFord_two :
    ∃ bound, ∀ fuel, bound < fuel →
      ∃ answer, (⟨![[(1, -3)], [(0, 5)]]⟩ : Graph 2).spfa fuel 0 = .ok (true, answer) ∧
        answer = ![0, -3] := by
  have hford : ((⟨![[(1, -3)], [(0, 5)]]⟩ : Graph 2).bellmanFord 0).1 = false := by decide
  have hanswer : ((⟨![[(1, -3)], [(0, 5)]]⟩ : Graph 2).bellmanFord 0).2 = ![0, -3] := by decide
  obtain ⟨bound, h⟩ := spfa_bellmanFord (⟨![[(1, -3)], [(0, 5)]]⟩ : Graph 2) 0 (by decide)
  refine ⟨bound, fun fuel hfuel => ?_⟩
  obtain ⟨result, answer, hrun, hiff, -, heq⟩ := h fuel hfuel
  obtain rfl := hiff.2 hford
  exact ⟨answer, hrun, (heq rfl).trans hanswer⟩

end CppLearn.Graph

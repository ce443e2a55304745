import CppLearn.Graph.Defs
import CppLearn.Lib.ShortestPath
import Mathlib.Algebra.BigOperators.Fin
import Mathlib.Data.Fin.VecNotation
import Mathlib.Tactic.Ring

/-!
# Bellman-Ford

A round of `BellmanFord` lowers entries along edges. After `k` rounds the entries are at most the
weights of all simple paths with up to `k` edges that stay below `INT32_MAX`, so that without
negative cycles nothing changes in round `n`; and a round in which nothing changes leaves a settled
table.

`Graph.Edge` makes a relation of the edges, and `Graph.Lowered` is what a part of a round does to
the table and to `flag`. The result `false` comes with a sound and settled table
(`Graph.bellmanFord_settled`), and is returned when there is no negative cycle
(`Graph.bellmanFord_eq_false`). Both give the distances for graphs with small weights
(`Graph.bellmanFord_distances`). That the entries do not leave the range of an `int64_t` is
`Graph.bellmanFord_ge`.
-/

namespace CppLearn.Graph

open ShortestPath

variable {n : ℕ} {g : Graph n} {start : Fin n}

/-- The edges of the graph. -/
def Edge (g : Graph n) (u v : Fin n) (w : ℤ) : Prop := (v, w) ∈ g.graph u

/-- The weights are small in the sense of `ShortestPath.Small`. -/
theorem small {inf : ℤ} (h : g.totalWeight < inf) : Small g.Edge g.outWeight inf := by
  refine ⟨fun u => ?_, fun u v w hedge => ?_, h⟩
  · refine List.sum_nonneg fun x hx => ?_
    obtain ⟨p, -, rfl⟩ := List.mem_map.1 hx
    exact abs_nonneg p.2
  · refine List.single_le_sum (fun x hx => ?_) _ (List.mem_map.2 ⟨(v, w), hedge, rfl⟩)
    obtain ⟨p, -, rfl⟩ := List.mem_map.1 hx
    exact abs_nonneg p.2

@[simp]
theorem initialAnswer_self (start : Fin n) : initialAnswer start start = 0 :=
  Function.update_self ..

/-- All vertices but the first one begin with the largest number. -/
theorem initialAnswer_of_ne {v : Fin n} (h : v ≠ start) : initialAnswer start v = int32Max :=
  Function.update_of_ne h ..

/-- The table in which both algorithms start. -/
theorem initialAnswer_sound (g : Graph n) (start : Fin n) :
    Sound g.Edge start int32Max (initialAnswer start) := by
  refine ⟨(initialAnswer_self start).le, fun v => ?_, fun v hv => ?_⟩
  · by_cases hvs : v = start
    · rw [hvs, initialAnswer_self]
      decide
    · rw [initialAnswer_of_ne hvs]
  · by_cases hvs : v = start
    · rw [hvs, initialAnswer_self]
      exact .refl start
    · exact absurd (initialAnswer_of_ne hvs) hv

/-! ## One round -/

/-- What a part of a round does to the table and to `flag`: entries are lowered along edges, and
`flag` tells whether one of them was. -/
structure Lowered (g : Graph n) (start : Fin n) (s s' : (Fin n → ℤ) × Bool) : Prop where
  sound : Sound g.Edge start int32Max s.1 → Sound g.Edge start int32Max s'.1
  le : ∀ v, s'.1 v ≤ s.1 v
  unchanged : s'.2 = false → s.2 = false ∧ s'.1 = s.1
  changed : s'.2 = true → s.2 = true ∨ ∃ v, s'.1 v < s.1 v

variable {s s' s'' : (Fin n → ℤ) × Bool} {u : Fin n}

/-- The relation between the distances before and after some edges: no edge, -/
theorem Lowered.refl (s : (Fin n → ℤ) × Bool) : Lowered g start s s :=
  ⟨id, fun _ => le_rfl, fun h => ⟨h, rfl⟩, .inl⟩

/-- and some more edges. -/
theorem Lowered.trans (h : Lowered g start s s') (h' : Lowered g start s' s'') :
    Lowered g start s s'' := by
  refine ⟨h'.sound ∘ h.sound, fun v => (h'.le v).trans (h.le v), fun hflag => ?_, fun hflag => ?_⟩
  · obtain ⟨hflag', heq'⟩ := h'.unchanged hflag
    obtain ⟨hflag, heq⟩ := h.unchanged hflag'
    exact ⟨hflag, heq'.trans heq⟩
  · rcases h'.changed hflag with hflag' | ⟨v, hv⟩
    · rcases h.changed hflag' with hflag | ⟨v, hv⟩
      · exact .inl hflag
      · exact .inr ⟨v, (h'.le v).trans_lt hv⟩
    · exact .inr ⟨v, hv.trans_le (h.le v)⟩

/-- An entry that is not `inf` stays so. -/
theorem Lowered.ne_inf (h : Lowered g start s s') (hsound : Sound g.Edge start int32Max s.1)
    (hu : s.1 u ≠ int32Max) : s'.1 u ≠ int32Max := by
  have hle := h.le u
  have := hsound.le_inf u
  omega

/-- One edge: afterwards the entry of its target is at most the distance through `u`. -/
theorem relaxEdge_lowered {p : Fin n × ℤ} (hu : s.1 u ≠ int32Max) (hp : p ∈ g.graph u) :
    Lowered g start s (relaxEdge u s p) ∧ (relaxEdge u s p).1 p.1 ≤ s.1 u + p.2 := by
  unfold relaxEdge
  split_ifs with hlt
  · have hself : Function.update s.1 p.1 (s.1 u + p.2) p.1 = s.1 u + p.2 :=
      Function.update_self ..
    refine ⟨⟨fun hsound => hsound.relax hu hp hlt, ?_, fun h => ?_, fun _ => ?_⟩, hself.le⟩
    · exact update_le_self_iff.2 hlt.le
    · cases h
    · exact .inr ⟨p.1, hself.trans_lt hlt⟩
  · exact ⟨.refl s, not_lt.1 hlt⟩

/-- The edges of `u`, one after the other. Since the entry of `u` only gets smaller, the entries of
the targets are at most the distances through `u` at the beginning. -/
theorem foldl_relaxEdge_lowered {edges : List (Fin n × ℤ)} (hedges : edges ⊆ g.graph u)
    (hsound : Sound g.Edge start int32Max s.1) (hu : s.1 u ≠ int32Max) :
    Lowered g start s (edges.foldl (relaxEdge u) s) ∧
      ∀ p ∈ edges, (edges.foldl (relaxEdge u) s).1 p.1 ≤ s.1 u + p.2 := by
  induction edges generalizing s with
  | nil => exact ⟨.refl s, by simp⟩
  | cons p edges ih =>
    have hfirst : Lowered g start s (relaxEdge u s p) ∧ (relaxEdge u s p).1 p.1 ≤ s.1 u + p.2 :=
      relaxEdge_lowered hu (hedges List.mem_cons_self)
    obtain ⟨hlow, hp⟩ := hfirst
    obtain ⟨hlow', hp'⟩ := ih (fun q hq => hedges (List.mem_cons_of_mem _ hq)) (hlow.sound hsound)
      (hlow.ne_inf hsound hu)
    refine ⟨hlow.trans hlow', fun q hq => ?_⟩
    rw [List.foldl_cons]
    rcases List.mem_cons.1 hq with rfl | hmem
    · exact (hlow'.le _).trans hp
    · -- the entry of `u` may have become smaller in the meantime
      have := hp' q hmem
      have := hlow.le u
      omega

/-- All edges of one vertex. -/
theorem relaxVertex_lowered (hsound : Sound g.Edge start int32Max s.1) (u : Fin n) :
    Lowered g start s (g.relaxVertex s u) ∧ (s.1 u ≠ int32Max →
      ∀ p ∈ g.graph u, (g.relaxVertex s u).1 p.1 ≤ s.1 u + p.2) := by
  unfold relaxVertex
  split_ifs with hu
  · exact ⟨.refl s, fun h => absurd hu h⟩
  · obtain ⟨hlow, hp⟩ := foldl_relaxEdge_lowered (g := g) (fun _ h => h) hsound hu
    exact ⟨hlow, fun _ => hp⟩

/-- A list of vertices, one after the other. -/
theorem foldl_relaxVertex_lowered (hsound : Sound g.Edge start int32Max s.1) (us : List (Fin n)) :
    Lowered g start s (us.foldl g.relaxVertex s) ∧ ∀ u ∈ us, s.1 u ≠ int32Max →
      ∀ p ∈ g.graph u, (us.foldl g.relaxVertex s).1 p.1 ≤ s.1 u + p.2 := by
  induction us generalizing s with
  | nil => exact ⟨.refl s, by simp⟩
  | cons x us ih =>
    obtain ⟨hlow, hx⟩ := relaxVertex_lowered hsound x
    obtain ⟨hlow', hus⟩ := ih (hlow.sound hsound)
    refine ⟨hlow.trans hlow', fun u hu hne p hp => ?_⟩
    rw [List.foldl_cons]
    rcases List.mem_cons.1 hu with rfl | hmem
    · exact (hlow'.le _).trans (hx hne p hp)
    · have := hus u hmem (hlow.ne_inf hsound hne) p hp
      have := hlow.le u
      omega

/-- A whole round: every edge from a vertex that had been reached is taken into account. -/
theorem relaxRound_lowered {answer : Fin n → ℤ} (hsound : Sound g.Edge start int32Max answer) :
    Lowered g start (answer, false) (g.relaxRound answer) ∧
      ∀ u v w, g.Edge u v w → answer u ≠ int32Max → (g.relaxRound answer).1 v ≤ answer u + w := by
  obtain ⟨hlow, hall⟩ :=
    foldl_relaxVertex_lowered (s := (answer, false)) hsound (List.finRange n)
  exact ⟨hlow, fun u v w hedge hne => hall u (List.mem_finRange u) hne (v, w) hedge⟩

/-! ## Rounds as relaxation -/

/-- One edge in the sense of the library, -/
theorem relaxEdge_relaxes {p : Fin n × ℤ} (hu : s.1 u ≠ int32Max) (hp : p ∈ g.graph u) :
    Relaxes g.Edge int32Max s.1 (relaxEdge u s p).1 := by
  unfold relaxEdge
  split_ifs with hlt
  · exact .single (.edge hu hp hlt)
  · exact .refl

/-- the edges of a vertex, -/
theorem foldl_relaxEdge_relaxes {edges : List (Fin n × ℤ)} (hedges : edges ⊆ g.graph u)
    (hle : ∀ v, s.1 v ≤ int32Max) (hu : s.1 u ≠ int32Max) :
    Relaxes g.Edge int32Max s.1 (edges.foldl (relaxEdge u) s).1 := by
  induction edges generalizing s with
  | nil => exact .refl
  | cons p edges ih =>
    have hfirst : Relaxes g.Edge int32Max s.1 (relaxEdge u s p).1 :=
      relaxEdge_relaxes hu (hedges List.mem_cons_self)
    have hrest := ih (fun q hq => hedges (List.mem_cons_of_mem _ hq))
      (fun v => (hfirst.le v).trans (hle v)) (hfirst.ne_inf hle hu)
    exact hfirst.trans hrest

/-- those of several vertices, -/
theorem foldl_relaxVertex_relaxes (hle : ∀ v, s.1 v ≤ int32Max) (us : List (Fin n)) :
    Relaxes g.Edge int32Max s.1 (us.foldl g.relaxVertex s).1 := by
  induction us generalizing s with
  | nil => exact .refl
  | cons u us ih =>
    have hfirst : Relaxes g.Edge int32Max s.1 (g.relaxVertex s u).1 := by
      unfold relaxVertex
      split_ifs with hu
      · exact .refl
      · exact foldl_relaxEdge_relaxes (fun _ h => h) hle hu
    exact hfirst.trans (ih fun v => (hfirst.le v).trans (hle v))

/-- a round, -/
theorem relaxRound_relaxes {answer : Fin n → ℤ} (hle : ∀ v, answer v ≤ int32Max) :
    Relaxes g.Edge int32Max answer (g.relaxRound answer).1 :=
  foldl_relaxVertex_relaxes (s := (answer, false)) hle _

/-- and several rounds. -/
theorem relaxRounds_relaxes {answer : Fin n → ℤ} (hle : ∀ v, answer v ≤ int32Max) (k : ℕ)
    (flag : Bool) : Relaxes g.Edge int32Max answer (g.relaxRounds k flag answer).2 := by
  induction k generalizing flag answer with
  | zero => exact .refl
  | succ k ih =>
    have hround : Relaxes g.Edge int32Max answer (g.relaxRound answer).1 := relaxRound_relaxes hle
    simp only [relaxRounds]
    split_ifs
    · exact hround
    · exact hround.trans (ih (fun v => (hround.le v).trans (hle v)) _)

/-! ## All rounds -/

/-- When the loop ends because nothing has changed, the table is sound and settled. -/
theorem relaxRounds_settled {k : ℕ} {flag : Bool} {answer : Fin n → ℤ}
    (hsound : Sound g.Edge start int32Max answer) (hflag : k = 0 → flag = true)
    (h : (g.relaxRounds k flag answer).1 = false) :
    Sound g.Edge start int32Max (g.relaxRounds k flag answer).2 ∧
      Settled g.Edge int32Max (g.relaxRounds k flag answer).2 := by
  induction k generalizing flag answer with
  | zero =>
    rw [relaxRounds, hflag rfl] at h
    cases h
  | succ k ih =>
    obtain ⟨hlow, hedges⟩ := relaxRound_lowered hsound
    simp only [relaxRounds] at h ⊢
    cases hround : (g.relaxRound answer).2 with
    -- a round without a change leaves the table as it is, so all edges are settled in it
    | false =>
      obtain ⟨-, hsame⟩ := hlow.unchanged hround
      simp only [Bool.not_false, if_true]
      refine ⟨hlow.sound hsound, fun u v w hedge hne => ?_⟩
      rw [hsame] at hne
      have := hedges u v w hedge hne
      rwa [hsame] at this ⊢
    | true =>
      simp only [hround, Bool.not_true, Bool.false_eq_true, if_false] at h ⊢
      exact ih (hlow.sound hsound) (fun _ => rfl) h

/-- The entries are at most the weights of the paths below `INT32_MAX` with up to `k` edges. -/
def Dominates (g : Graph n) (start : Fin n) (answer : Fin n → ℤ) (k : ℕ) : Prop :=
  ∀ S v d, PathBelow g.Edge int32Max start S v d → S.card ≤ k + 1 → answer v ≤ d

/-- Each round takes paths with one more edge into account. -/
theorem Dominates.round {answer : Fin n → ℤ} {k : ℕ} (hsound : Sound g.Edge start int32Max answer)
    (h : Dominates g start answer k) : Dominates g start (g.relaxRound answer).1 (k + 1) := by
  obtain ⟨hlow, hedges⟩ := relaxRound_lowered hsound
  intro S v d hpath hcard
  cases hpath with
  | refl => exact (hlow.le start).trans hsound.start_le
  -- the path without its last edge was taken into account before, and the round uses the edge
  | snoc hpath' hedge hv _ =>
    rw [Finset.card_insert_of_notMem hv] at hcard
    have hle := h _ _ _ hpath' (by omega)
    have hlt := hpath'.weight_lt (by decide)
    have := hedges _ _ _ hedge (by omega)
    omega

/-- Once all paths are taken into account, a round changes nothing. -/
theorem Dominates.unchanged (hcycle : ¬ NegativeCycle g.Edge start) {answer : Fin n → ℤ} {k : ℕ}
    (hsound : Sound g.Edge start int32Max answer) (hreached : Reached g.Edge start int32Max answer)
    (h : Dominates g start answer k) (hk : n ≤ k + 1) : (g.relaxRound answer).2 = false := by
  obtain ⟨hlow, -⟩ := relaxRound_lowered hsound
  by_contra hflag
  rw [Bool.not_eq_false] at hflag
  rcases hlow.changed hflag with hfalse | ⟨v, hv⟩
  · cases hfalse
  · -- the lowered entry comes from a path, and no path can lower an entry
    have hle := hsound.le_inf v
    have hreached' := (relaxRound_relaxes hsound.le_inf).reached hcycle hsound.le_inf hreached
    obtain ⟨S, d, hpath, hd⟩ := hreached' v (by simp only at hv; omega)
    have hcard : S.card ≤ n := by simpa using Finset.card_le_univ S
    have := h S v d hpath (by omega)
    simp only at hv
    omega

/-- Without negative cycles, the last round finds nothing to relax. -/
theorem relaxRounds_eq_false (hcycle : ¬ NegativeCycle g.Edge start) {k j : ℕ} {flag : Bool}
    {answer : Fin n → ℤ} (hsound : Sound g.Edge start int32Max answer)
    (hreached : Reached g.Edge start int32Max answer) (h : Dominates g start answer j)
    (hk : n ≤ j + k) (hpos : 0 < k) : (g.relaxRounds k flag answer).1 = false := by
  induction k generalizing flag answer j with
  | zero => omega
  | succ k ih =>
    simp only [relaxRounds]
    cases hround : (g.relaxRound answer).2 with
    | false => simp
    | true =>
      simp only [Bool.not_true, Bool.false_eq_true, if_false]
      -- there are rounds left, since the last one changes nothing
      have hkpos : 0 < k := by
        by_contra hzero
        have := h.unchanged hcycle hsound hreached (by omega)
        rw [hround] at this
        cases this
      have hrelaxes := relaxRound_relaxes hsound.le_inf (g := g)
      exact ih (hrelaxes.sound hsound) (hrelaxes.reached hcycle hsound.le_inf hreached)
        (h.round hsound) (by omega) hkpos

/-! ## Range of the entries -/

/-- Along a list of edges, entries sink by at most the sum of the weights. -/
theorem foldl_relaxEdge_ge {b : ℤ} (hb : ∀ v, b ≤ s.1 v) (edges : List (Fin n × ℤ)) (v : Fin n) :
    b - (edges.map fun p => |p.2|).sum ≤ (edges.foldl (relaxEdge u) s).1 v := by
  induction edges generalizing s b with
  | nil => simpa using hb v
  | cons p edges ih =>
    have hstep (x : Fin n) : b - |p.2| ≤ (relaxEdge u s p).1 x := by
      have habs := neg_abs_le p.2
      have hnonneg := abs_nonneg p.2
      have hx := hb x
      unfold relaxEdge
      split_ifs with hlt
      · -- only the target of the edge changes
        by_cases hxp : x = p.1
        · have hself : Function.update s.1 p.1 (s.1 u + p.2) x = s.1 u + p.2 := by
            rw [hxp, Function.update_self]
          have := hb u
          simp only [hself]
          omega
        · have hother : Function.update s.1 p.1 (s.1 u + p.2) x = s.1 x :=
            Function.update_of_ne hxp ..
          simp only [hother]
          omega
      · omega
    have := ih hstep
    simp only [List.map_cons, List.sum_cons, List.foldl_cons]
    omega

/-- Along a list of vertices, entries sink by at most the sum of the weights of their edges. -/
theorem foldl_relaxVertex_ge (hsmall : Small g.Edge g.outWeight int32Max) {b : ℤ}
    (hb : ∀ v, b ≤ s.1 v) (us : List (Fin n)) (v : Fin n) :
    b - (us.map g.outWeight).sum ≤ (us.foldl g.relaxVertex s).1 v := by
  induction us generalizing s b with
  | nil => simpa using hb v
  | cons u us ih =>
    have hstep (x : Fin n) : b - g.outWeight u ≤ (g.relaxVertex s u).1 x := by
      unfold relaxVertex
      split_ifs
      · -- a vertex that has not been reached is skipped
        have := hb x
        have := hsmall.nonneg u
        omega
      · exact foldl_relaxEdge_ge hb (g.graph u) x
    have := ih hstep
    simp only [List.map_cons, List.sum_cons, List.foldl_cons]
    omega

/-- In a round, entries sink by at most the sum of all weights. -/
theorem relaxRound_ge (hsmall : Small g.Edge g.outWeight int32Max) {answer : Fin n → ℤ} {b : ℤ}
    (hb : ∀ v, b ≤ answer v) (v : Fin n) : b - g.totalWeight ≤ (g.relaxRound answer).1 v := by
  have htotal : ((List.finRange n).map g.outWeight).sum = g.totalWeight :=
    (Fin.sum_univ_def g.outWeight).symm
  rw [← htotal]
  exact foldl_relaxVertex_ge hsmall (s := (answer, false)) hb _ v

/-- In `k` rounds, entries sink by at most `k` times the sum of all weights. -/
theorem relaxRounds_ge (hsmall : Small g.Edge g.outWeight int32Max) {answer : Fin n → ℤ} {b : ℤ}
    (hb : ∀ v, b ≤ answer v) (k : ℕ) (flag : Bool) (v : Fin n) :
    b - k * g.totalWeight ≤ (g.relaxRounds k flag answer).2 v := by
  induction k generalizing flag answer b with
  | zero => simpa [relaxRounds] using hb v
  | succ k ih =>
    have htotal : 0 ≤ g.totalWeight := Finset.sum_nonneg fun u _ => hsmall.nonneg u
    have hround := relaxRound_ge hsmall hb
    have hsplit : ((k + 1 : ℕ) : ℤ) * g.totalWeight = k * g.totalWeight + g.totalWeight := by
      push_cast
      ring
    have hk : 0 ≤ (k : ℤ) * g.totalWeight := mul_nonneg (Int.natCast_nonneg k) htotal
    simp only [relaxRounds]
    split_ifs
    · have := hround v
      simp only
      omega
    · have := ih hround (g.relaxRound answer).2
      omega

/-- All entries that `BellmanFord` computes are between `-(n * totalWeight)` and `INT32_MAX`, hence
values of an `int64_t`. -/
theorem bellmanFord_ge (hsmall : Small g.Edge g.outWeight int32Max) (v : Fin n) :
    -(n * g.totalWeight) ≤ (g.bellmanFord start).2 v := by
  have hinit (v : Fin n) : 0 ≤ initialAnswer start v := by
    by_cases hv : v = start
    · rw [hv, initialAnswer_self]
    · rw [initialAnswer_of_ne hv]
      decide
  have hrounds := relaxRounds_ge hsmall hinit n false v
  rw [zero_sub] at hrounds
  exact hrounds

/-! ## Results -/

/-- The result `false` comes with a sound and settled table. -/
theorem bellmanFord_settled (h : (g.bellmanFord start).1 = false) :
    Sound g.Edge start int32Max (g.bellmanFord start).2 ∧
      Settled g.Edge int32Max (g.bellmanFord start).2 := by
  refine relaxRounds_settled (initialAnswer_sound g start) (fun hn => ?_) h
  exact absurd start.isLt (by omega)

/-- Before the first round, only the start node has been reached. -/
theorem initialAnswer_reached (g : Graph n) (start : Fin n) :
    Reached g.Edge start int32Max (initialAnswer start) := by
  intro v hv
  have hvs : v = start := by
    by_contra hne
    exact hv (initialAnswer_of_ne hne)
  refine ⟨{start}, 0, ?_, ?_⟩
  · rw [hvs]
    exact .refl
  · rw [hvs, initialAnswer_self]

/-- Without negative cycles the result is `false`. -/
theorem bellmanFord_eq_false (hcycle : ¬ NegativeCycle g.Edge start) :
    (g.bellmanFord start).1 = false := by
  refine relaxRounds_eq_false hcycle (j := 0) (initialAnswer_sound g start)
    (initialAnswer_reached g start) ?_ (by omega) (by have := start.isLt; omega)
  intro S v d hpath hcard
  cases hpath with
  | refl => exact (initialAnswer_sound g start).start_le
  | snoc hpath' _ hv _ =>
    rw [Finset.card_insert_of_notMem hv] at hcard
    have := Finset.card_pos.2 ⟨_, hpath'.simplePath.mem⟩
    omega

/-- For graphs with small weights, `BellmanFord` returns `true` exactly when a negative cycle can be
reached; otherwise `answer` holds the weights of shortest paths, and `INT32_MAX` for vertices that
cannot be reached. -/
theorem bellmanFord_distances (g : Graph n) (start : Fin n) (hweight : g.totalWeight < int32Max) :
    ((g.bellmanFord start).1 = true ↔ NegativeCycle g.Edge start) ∧
      ((g.bellmanFord start).1 = false → ∀ v,
        IsLeast {x | Walk g.Edge start v x} ((g.bellmanFord start).2 v) ∨
          (∀ x, ¬ Walk g.Edge start v x) ∧ (g.bellmanFord start).2 v = int32Max) := by
  have hsmall := small hweight
  refine ⟨⟨fun htrue => ?_, fun hcycle => ?_⟩, fun hfalse v => ?_⟩
  · by_contra hcycle
    rw [bellmanFord_eq_false hcycle] at htrue
    cases htrue
  · by_contra hfalse
    obtain ⟨hsound, hsettled⟩ := bellmanFord_settled (Bool.not_eq_true _ ▸ hfalse)
    exact hsettled.not_negativeCycle hsmall hsound.start_le hcycle
  · obtain ⟨hsound, hsettled⟩ := bellmanFord_settled hfalse
    by_cases hreach : ∃ x, Walk g.Edge start v x
    · obtain ⟨x, hx⟩ := hreach
      refine .inl ⟨hsound.walk v (hsettled.ne_inf hsmall hsound.start_le hx), fun y hy => ?_⟩
      have := hsettled.le_walk hsmall hsound.start_le (.refl start) hy
      have := hsound.start_le
      omega
    · refine .inr ⟨fun x hx => hreach ⟨x, hx⟩, ?_⟩
      by_contra hv
      exact hreach ⟨_, hsound.walk v hv⟩

/-- A negative edge on a cycle of positive weight, parallel edges, and a vertex that cannot be
reached. -/
theorem bellmanFord_distances_three :
    ¬ NegativeCycle (Edge ⟨![[(1, -3), (1, 7)], [(0, 5)], [(0, 1)]]⟩) 0 ∧
      ((⟨![[(1, -3), (1, 7)], [(0, 5)], [(0, 1)]]⟩ : Graph 3).bellmanFord 0).2 =
        ![0, -3, int32Max] ∧
      ∀ v, IsLeast {x | Walk (Edge ⟨![[(1, -3), (1, 7)], [(0, 5)], [(0, 1)]]⟩) 0 v x}
          (![0, -3, int32Max] v) ∨
        (∀ x, ¬ Walk (Edge ⟨![[(1, -3), (1, 7)], [(0, 5)], [(0, 1)]]⟩) 0 v x) ∧
          ![0, -3, int32Max] v = int32Max := by
  have hfalse : ((⟨![[(1, -3), (1, 7)], [(0, 5)], [(0, 1)]]⟩ : Graph 3).bellmanFord 0).1 =
      false := by decide
  have hanswer : ((⟨![[(1, -3), (1, 7)], [(0, 5)], [(0, 1)]]⟩ : Graph 3).bellmanFord 0).2 =
      ![0, -3, int32Max] := by decide
  obtain ⟨hiff, hdist⟩ :=
    bellmanFord_distances (⟨![[(1, -3), (1, 7)], [(0, 5)], [(0, 1)]]⟩ : Graph 3) 0 (by decide)
  rw [hfalse] at hiff
  rw [hanswer] at hdist
  exact ⟨fun hcycle => Bool.false_ne_true (hiff.2 hcycle), hanswer, hdist hfalse⟩

end CppLearn.Graph

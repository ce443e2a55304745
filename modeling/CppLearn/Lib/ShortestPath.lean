import Mathlib.Algebra.BigOperators.Group.Finset.Basic
import Mathlib.Algebra.Order.BigOperators.Group.Finset
import Mathlib.Algebra.Order.Group.Abs
import Mathlib.Algebra.Order.Ring.Int
import Mathlib.Data.Fintype.Card
import Mathlib.Data.Int.LeastGreatest
import Mathlib.Logic.Relation
import Mathlib.Order.Bounds.Basic

/-!
# Shortest paths by relaxation

Tables of tentative distances in a directed graph with integer weights. `E u v w` says that there
is an edge from `u` to `v` of weight `w`. A vertex that has not been reached has the entry `inf` in
the table. Results about all vertices are for weights that are small, that is, along a path that
visits no vertex twice they add up to less than `inf`, or for weights that are not negative. For
other weights, tables hold the distances of paths that stay below `inf`.

A table is *sound* if its entries are weights of walks, and *settled* if no edge from a vertex that
has been reached can lower an entry. A table that is both holds the distances, and there is no cycle
of negative weight.

## Main definitions

* `Walk`, `SimplePath`, `NegativeCycle`;
* `Trail`: a walk together with the entries that it went through, which decrease whenever a vertex
  is met again;
* `PathBelow`: simple paths that stay below a bound;
* `Small`: the bound on the weights;
* `Sound`, `Settled`, `Reached`: properties of tables;
* `Relaxes`: the steps of an algorithm that lowers entries along edges.

## Main results

* `Settled.not_negativeCycle`, `Settled.eq`: what a sound and settled table says;
* `Walk.exists_simplePath`: without negative cycles, walks can be shortened to simple paths;
* `Trail.negativeCycle`: a trail that is longer than the number of vertices shows a negative cycle;
* `Settled.isLeast_iff`: when a table that has come about by relaxation holds the distances,
  for weights of any size;
* `Settled.eq_min`: without negative weights, a sound and settled table holds the distances also
  where these are not small.
-/

namespace ShortestPath

variable {V : Type*}

section Walks

variable (E : V → V → ℤ → Prop)

/-- Walks and their weights. -/
inductive Walk : V → V → ℤ → Prop
  | refl (u : V) : Walk u u 0
  | snoc {u v x : V} {d w : ℤ} : Walk u v d → E v x w → Walk u x (d + w)

/-- A cycle of negative weight can be reached from `s`. -/
def NegativeCycle (s : V) : Prop := ∃ u d c, Walk E s u d ∧ Walk E u u c ∧ c < 0

/-- Paths from `s` that visit each vertex of a set once, with their end and their weight. -/
inductive SimplePath [DecidableEq V] (s : V) : Finset V → V → ℤ → Prop
  | refl : SimplePath s {s} s 0
  | snoc {S : Finset V} {u v : V} {d w : ℤ} : SimplePath s S u d → E u v w → v ∉ S →
      SimplePath s (insert v S) v (d + w)

/-- Simple paths that reach each of their vertices with a weight below `inf`. -/
inductive PathBelow [DecidableEq V] (inf : ℤ) (s : V) : Finset V → V → ℤ → Prop
  | refl : PathBelow inf s {s} s 0
  | snoc {S : Finset V} {u v : V} {d w : ℤ} : PathBelow inf s S u d → E u v w → v ∉ S →
      d + w < inf → PathBelow inf s (insert v S) v (d + w)

/-- A walk from `s` in reverse order. Each vertex is listed with the weight of the walk up to it,
which is smaller than all weights listed for the same vertex before. -/
inductive Trail (s : V) : List (V × ℤ) → Prop
  | start : Trail s [(s, 0)]
  | step {u v : V} {d w : ℤ} {t : List (V × ℤ)} : Trail s ((u, d) :: t) → E u v w →
      (∀ e, (v, e) ∈ (u, d) :: t → d + w < e) → Trail s ((v, d + w) :: (u, d) :: t)

end Walks

variable {E : V → V → ℤ → Prop} {s u v : V} {d : ℤ}

/-- One walk after another. -/
theorem Walk.trans {x : V} {d' : ℤ} (h : Walk E u v d) (h' : Walk E v x d') :
    Walk E u x (d + d') := by
  induction h' with
  | refl => rwa [add_zero]
  | snoc _ hedge ih =>
    rw [← add_assoc]
    exact ih.snoc hedge

/-- A potential whose differences are at most the weights of the edges bounds the weights of walks
from below. -/
theorem Walk.potential_le {pot : V → ℤ} (hpot : ∀ u v w, E u v w → pot v - pot u ≤ w)
    (h : Walk E u v d) : pot v - pot u ≤ d := by
  induction h with
  | refl => rw [sub_self]
  | snoc _ hedge ih =>
    have := hpot _ _ _ hedge
    omega

/-- Weights that are at least the differences of a potential leave no negative cycles. -/
theorem not_negativeCycle_of_potential {pot : V → ℤ}
    (hpot : ∀ u v w, E u v w → pot v - pot u ≤ w) : ¬ NegativeCycle E s := by
  rintro ⟨u, d, c, -, hcycle, hneg⟩
  have := hcycle.potential_le hpot
  omega

/-! ## Simple paths -/

section SimplePaths

variable [DecidableEq V] {S : Finset V}

/-- Simple paths are walks, -/
theorem SimplePath.walk (h : SimplePath E s S v d) : Walk E s v d := by
  induction h with
  | refl => exact .refl s
  | snoc _ hedge _ ih => exact ih.snoc hedge

/-- whose end is one of their vertices. -/
theorem SimplePath.mem (h : SimplePath E s S v d) : v ∈ S := by
  cases h with
  | refl => exact Finset.mem_singleton_self s
  | snoc => exact Finset.mem_insert_self _ _

/-- A simple path passes through each of its vertices. -/
theorem SimplePath.split (h : SimplePath E s S u d) (hv : v ∈ S) :
    ∃ S' d', SimplePath E s S' v d' ∧ Walk E v u (d - d') := by
  induction h with
  | refl =>
    rw [Finset.mem_singleton] at hv
    subst hv
    exact ⟨{v}, 0, .refl, by simpa using Walk.refl v⟩
  | @snoc S x y d w hpath hedge hy ih =>
    rcases Finset.mem_insert.1 hv with rfl | hmem
    · exact ⟨_, _, .snoc hpath hedge hy, by simpa using Walk.refl v⟩
    · -- the last edge belongs to the second part
      obtain ⟨S', d', hpath', hwalk⟩ := ih hmem
      refine ⟨S', d', hpath', ?_⟩
      have hsnoc := hwalk.snoc hedge
      rwa [sub_add_eq_add_sub] at hsnoc

/-- Without negative cycles, there is a simple path that is not longer than a walk. -/
theorem Walk.exists_simplePath (h : Walk E s v d) (hcycle : ¬ NegativeCycle E s) :
    ∃ S d', SimplePath E s S v d' ∧ d' ≤ d := by
  induction h with
  | refl => exact ⟨{s}, 0, .refl, le_rfl⟩
  | @snoc u v d w _ hedge ih =>
    -- the path for the walk without its last edge may already pass through the end of it
    obtain ⟨S, d₁, hpath, hle⟩ := ih
    by_cases hv : v ∈ S
    · -- the part of the path behind `v` and the new edge make a cycle
      obtain ⟨S', d₂, hpath', hwalk⟩ := hpath.split hv
      refine ⟨S', d₂, hpath', ?_⟩
      by_contra hlt
      exact hcycle ⟨v, d₂, d₁ - d₂ + w, hpath'.walk, hwalk.snoc hedge, by omega⟩
    · exact ⟨_, _, .snoc hpath hedge hv, by omega⟩

/-- Whatever can be reached, can be reached by a simple path. -/
theorem Walk.exists_simplePath' (h : Walk E s v d) : ∃ S d', SimplePath E s S v d' := by
  induction h with
  | refl => exact ⟨{s}, 0, .refl⟩
  | @snoc u v d w _ hedge ih =>
    obtain ⟨S, d₁, hpath⟩ := ih
    by_cases hv : v ∈ S
    · obtain ⟨S', d₂, hpath', -⟩ := hpath.split hv
      exact ⟨S', d₂, hpath'⟩
    · exact ⟨_, _, .snoc hpath hedge hv⟩

end SimplePaths

/-! ## Paths below a bound -/

section PathsBelow

variable [DecidableEq V] {S : Finset V} {inf : ℤ}

/-- Paths below the bound are simple, -/
theorem PathBelow.simplePath (h : PathBelow E inf s S v d) : SimplePath E s S v d := by
  induction h with
  | refl => exact .refl
  | snoc _ hedge hv _ ih => exact ih.snoc hedge hv

/-- and their weight is below the bound. -/
theorem PathBelow.weight_lt (h : PathBelow E inf s S v d) (hinf : 0 < inf) : d < inf := by
  cases h with
  | refl => exact hinf
  | snoc _ _ _ hlt => exact hlt

/-- The beginnings of a path below a bound are below the bound. -/
theorem PathBelow.split (h : PathBelow E inf s S u d) (hv : v ∈ S) :
    ∃ S' d', PathBelow E inf s S' v d' ∧ Walk E v u (d - d') := by
  induction h with
  | refl =>
    rw [Finset.mem_singleton] at hv
    subst hv
    exact ⟨{v}, 0, .refl, by simpa using Walk.refl v⟩
  | @snoc S x y d w hpath hedge hy hlt ih =>
    rcases Finset.mem_insert.1 hv with rfl | hmem
    · exact ⟨_, _, .snoc hpath hedge hy hlt, by simpa using Walk.refl v⟩
    · obtain ⟨S', d', hpath', hwalk⟩ := ih hmem
      refine ⟨S', d', hpath', ?_⟩
      have hsnoc := hwalk.snoc hedge
      rwa [sub_add_eq_add_sub] at hsnoc

/-- Without negative cycles, a path below a bound can be extended by an edge that stays below it;
where the path has been at the target before, it is cut off there. -/
theorem PathBelow.extend {w : ℤ} (h : PathBelow E inf s S u d) (hcycle : ¬ NegativeCycle E s)
    (hedge : E u v w) (hlt : d + w < inf) :
    ∃ S' d', PathBelow E inf s S' v d' ∧ d' ≤ d + w := by
  by_cases hv : v ∈ S
  -- the part that is cut off and the new edge make a cycle, which is not negative
  · obtain ⟨S', d', hpath, hwalk⟩ := h.split hv
    refine ⟨S', d', hpath, ?_⟩
    by_contra hneg
    exact hcycle ⟨v, d', d - d' + w, hpath.simplePath.walk, hwalk.snoc hedge, by omega⟩
  · exact ⟨_, _, h.snoc hedge hv hlt, le_rfl⟩

end PathsBelow

/-! ## Trails -/

/-- The entries of a trail are weights of walks. -/
theorem Trail.walk_start {t : List (V × ℤ)} (h : Trail E s t) {x : V} {e : ℤ} (hx : (x, e) ∈ t) :
    Walk E s x e := by
  induction h generalizing x e with
  | start =>
    obtain ⟨rfl, rfl⟩ := Prod.mk.inj (List.mem_singleton.1 hx)
    exact .refl x
  | step _ hedge _ ih =>
    rcases List.mem_cons.1 hx with hhead | htail
    · obtain ⟨rfl, rfl⟩ := Prod.mk.inj hhead
      exact (ih List.mem_cons_self).snoc hedge
    · exact ih htail

/-- The last vertex of a trail can be reached from all its entries. -/
theorem Trail.walk_last {t : List (V × ℤ)} (h : Trail E s t) {x : V} {e : ℤ} (hx : (x, e) ∈ t)
    (hu : t.head? = some (u, d)) : Walk E x u (d - e) := by
  induction h generalizing u d x e with
  | start =>
    obtain ⟨rfl, rfl⟩ := Prod.mk.inj (Option.some.inj hu)
    obtain ⟨rfl, rfl⟩ := Prod.mk.inj (List.mem_singleton.1 hx)
    simpa using Walk.refl x
  | @step u' v' d' w' t' _ hedge _ ih =>
    obtain ⟨rfl, rfl⟩ := Prod.mk.inj (Option.some.inj hu)
    rcases List.mem_cons.1 hx with hhead | htail
    · obtain ⟨rfl, rfl⟩ := Prod.mk.inj hhead
      simpa using Walk.refl x
    · -- from an earlier entry the walk goes on with the last edge
      have hsnoc := (ih htail rfl).snoc hedge
      rwa [sub_add_eq_add_sub] at hsnoc

/-- A trail that meets a vertex again has gone round a negative cycle. -/
theorem Trail.negativeCycle_of_not_nodup {t : List (V × ℤ)} (h : Trail E s t)
    (hdup : ¬ (t.map Prod.fst).Nodup) : NegativeCycle E s := by
  induction h with
  | start => simp at hdup
  | @step u v d w t hprev hedge hlt ih =>
    by_cases hnodup : (((u, d) :: t).map Prod.fst).Nodup
    · -- the vertex that is met again is the last one
      have hmem : v ∈ ((u, d) :: t).map Prod.fst := by
        by_contra hnotMem
        exact hdup (List.nodup_cons.2 ⟨hnotMem, hnodup⟩)
      obtain ⟨⟨x, e⟩, hxe, hx⟩ := List.mem_map.1 hmem
      simp only at hx
      subst hx
      have hcycle := (hprev.walk_last hxe rfl).snoc hedge
      exact ⟨x, e, d - e + w, hprev.walk_start hxe, hcycle, by have := hlt e hxe; omega⟩
    · exact ih hnodup

/-- A trail with more entries than vertices has gone round a negative cycle. -/
theorem Trail.negativeCycle [Fintype V] {t : List (V × ℤ)} (h : Trail E s t)
    (hlen : Fintype.card V < t.length) : NegativeCycle E s := by
  refine h.negativeCycle_of_not_nodup fun hnodup => ?_
  have := hnodup.length_le_card
  rw [List.length_map] at this
  omega

/-! ## Tables -/

/-- The weights of the edges from `u` are at most `out u`, and these bounds add up to less than
`inf`. -/
structure Small [Fintype V] (E : V → V → ℤ → Prop) (out : V → ℤ) (inf : ℤ) : Prop where
  nonneg : ∀ u, 0 ≤ out u
  abs_le : ∀ u v w, E u v w → |w| ≤ out u
  sum_lt : ∑ u, out u < inf

/-- The weight of a simple path is bounded by what leaves its vertices. -/
theorem SimplePath.weight_le [DecidableEq V] {high : V → ℤ} {S : Finset V}
    (hhigh : ∀ u v w, E u v w → w ≤ high u) (h : SimplePath E s S v d) :
    d + high v ≤ ∑ u ∈ S, high u := by
  induction h with
  | refl => simp
  | @snoc S u v d w _ hedge hv ih =>
    have hw := hhigh u v w hedge
    rw [Finset.sum_insert hv]
    omega

/-- With small weights this is so for all simple paths. -/
theorem SimplePath.weight_lt [DecidableEq V] [Fintype V] {out : V → ℤ} {inf : ℤ} {S : Finset V}
    (hsmall : Small E out inf) (h : SimplePath E s S v d) : d < inf := by
  have hle := h.weight_le fun u v w hedge => (le_abs_self w).trans (hsmall.abs_le u v w hedge)
  have hsum : ∑ u ∈ S, out u ≤ ∑ u, out u :=
    Finset.sum_le_univ_sum_of_nonneg hsmall.nonneg
  have hlt := hsmall.sum_lt
  have hnonneg := hsmall.nonneg v
  omega

/-- The weight of a simple path is bounded from below by what leaves its vertices. -/
theorem SimplePath.weight_ge [DecidableEq V] {low : V → ℤ} {S : Finset V}
    (hlow : ∀ u v w, E u v w → -low u ≤ w) (h : SimplePath E s S v d) :
    low v - ∑ u ∈ S, low u ≤ d := by
  induction h with
  | refl => simp
  | @snoc S u v d w _ hedge hv ih =>
    have hw := hlow u v w hedge
    rw [Finset.sum_insert hv]
    omega

/-- Without negative cycles, the weights of walks are bounded from below. -/
theorem Walk.weight_ge [Fintype V] {low : V → ℤ} (hnonneg : ∀ u, 0 ≤ low u)
    (hlow : ∀ u v w, E u v w → -low u ≤ w) (hcycle : ¬ NegativeCycle E s) (h : Walk E s v d) :
    -∑ u, low u ≤ d := by
  classical
  -- only simple paths have a bound on their weights, and the walk is not shorter than one
  obtain ⟨S, d', hpath, hle⟩ := h.exists_simplePath hcycle
  have hge := hpath.weight_ge hlow
  have hsum : ∑ u ∈ S, low u ≤ ∑ u, low u := Finset.sum_le_univ_sum_of_nonneg hnonneg
  have := hnonneg v
  omega

/-- Without negative cycles, there is a shortest walk to every vertex that can be reached. -/
theorem Walk.exists_isLeast_of_not_negativeCycle [Fintype V] {low : V → ℤ}
    (hnonneg : ∀ u, 0 ≤ low u) (hlow : ∀ u v w, E u v w → -low u ≤ w)
    (hcycle : ¬ NegativeCycle E s) (h : Walk E s v d) : ∃ x, IsLeast {x | Walk E s v x} x := by
  obtain ⟨x, hx, hle⟩ := Int.exists_least_of_bdd (P := Walk E s v)
    ⟨_, fun _ hx => hx.weight_ge hnonneg hlow hcycle⟩ ⟨d, h⟩
  exact ⟨x, hx, hle⟩

/-- The entries are weights of walks from `s`, or `inf`. -/
structure Sound (E : V → V → ℤ → Prop) (s : V) (inf : ℤ) (dist : V → ℤ) : Prop where
  start_le : dist s ≤ 0
  le_inf : ∀ v, dist v ≤ inf
  walk : ∀ v, dist v ≠ inf → Walk E s v (dist v)

/-- No edge from a vertex that has been reached can lower an entry. -/
def Settled (E : V → V → ℤ → Prop) (inf : ℤ) (dist : V → ℤ) : Prop :=
  ∀ u v w, E u v w → dist u ≠ inf → dist v ≤ dist u + w

variable {inf : ℤ} {dist dist' : V → ℤ}

/-- Lowering an entry along an edge keeps a table sound. -/
theorem Sound.relax [DecidableEq V] {w : ℤ} (h : Sound E s inf dist) (hu : dist u ≠ inf)
    (hedge : E u v w) (hlt : dist u + w < dist v) :
    Sound E s inf (Function.update dist v (dist u + w)) := by
  have hle : Function.update dist v (dist u + w) ≤ dist := update_le_self_iff.2 hlt.le
  refine ⟨(hle s).trans h.start_le, fun x => (hle x).trans (h.le_inf x), fun x hx => ?_⟩
  by_cases hxv : x = v
  · rw [hxv, Function.update_self]
    exact (h.walk u hu).snoc hedge
  · rw [Function.update_of_ne hxv] at hx ⊢
    exact h.walk x hx

/-! ## Relaxation -/

section Relaxation

variable [DecidableEq V]

/-- One step of an algorithm by relaxation: an edge from a vertex that has been reached lowers the
entry of its target. -/
inductive Relax (E : V → V → ℤ → Prop) (inf : ℤ) (dist : V → ℤ) : (V → ℤ) → Prop
  | edge {u v : V} {w : ℤ} : dist u ≠ inf → E u v w → dist u + w < dist v →
      Relax E inf dist (Function.update dist v (dist u + w))

/-- Any number of steps. -/
abbrev Relaxes (E : V → V → ℤ → Prop) (inf : ℤ) : (V → ℤ) → (V → ℤ) → Prop :=
  Relation.ReflTransGen (Relax E inf)

/-- Entries that are not `inf` are at least the weights of paths below `inf`. -/
def Reached (E : V → V → ℤ → Prop) (s : V) (inf : ℤ) (dist : V → ℤ) : Prop :=
  ∀ v, dist v ≠ inf → ∃ S d, PathBelow E inf s S v d ∧ d ≤ dist v

/-- Relaxing makes no distance larger, -/
theorem Relaxes.le (h : Relaxes E inf dist dist') : dist' ≤ dist := by
  induction h with
  | refl => exact le_rfl
  | tail _ hstep ih =>
    obtain ⟨_, _, hlt⟩ := hstep
    exact (update_le_self_iff.2 hlt.le).trans ih

/-- A vertex that has been reached stays so. -/
theorem Relaxes.ne_inf (h : Relaxes E inf dist dist') (hle : ∀ v, dist v ≤ inf)
    (hu : dist u ≠ inf) : dist' u ≠ inf := by
  have hsink : dist' u ≤ dist u := h.le u
  have := hle u
  omega

/-- keeps distances that belong to walks, -/
theorem Relaxes.sound (h : Relaxes E inf dist dist') (hsound : Sound E s inf dist) :
    Sound E s inf dist' := by
  induction h with
  | refl => exact hsound
  | tail _ hstep ih =>
    obtain ⟨hu, hedge, hlt⟩ := hstep
    exact ih.relax hu hedge hlt

/-- and keeps those that have been reached. -/
theorem Relaxes.reached (h : Relaxes E inf dist dist') (hcycle : ¬ NegativeCycle E s)
    (hle : ∀ v, dist v ≤ inf) (hreached : Reached E s inf dist) : Reached E s inf dist' := by
  induction h with
  | refl => exact hreached
  | @tail dist₁ dist₂ hsteps hstep ih =>
    obtain @⟨u, v, w, hu, hedge, hlt⟩ := hstep
    intro x hx
    by_cases hxv : x = v
    · -- the path to `u`, and the edge
      obtain ⟨S, d, hpath, hd⟩ := ih u hu
      have hinf : dist₁ v ≤ inf := (Relaxes.le hsteps v).trans (hle v)
      obtain ⟨S', d', hpath', hd'⟩ := hpath.extend hcycle hedge (by omega)
      refine ⟨S', d', by rwa [hxv], ?_⟩
      rw [hxv, Function.update_self]
      omega
    · rw [Function.update_of_ne hxv] at hx ⊢
      exact ih x hx

/-- A settled table takes all paths below `inf` into account. -/
theorem Settled.le_of_pathBelow {S : Finset V} (hsettled : Settled E inf dist) (hinf : 0 < inf)
    (hstart : dist s ≤ 0) (h : PathBelow E inf s S v d) : dist v ≤ d := by
  induction h with
  | refl => exact hstart
  | @snoc S u v d w hpath hedge _ _ ih =>
    -- the entry of `u` is at most the weight of a path below `inf`, so `u` has been reached
    have hlt := hpath.weight_lt hinf
    have hle := hsettled u v w hedge (by omega)
    omega

/-- When a settled table has come about by relaxation, it holds the distances of all vertices that
can be reached if and only if no distance is above `inf`, and each one below `inf` is that of a path
which stays below `inf`. -/
theorem Settled.isLeast_iff (hsettled : Settled E inf dist) (hinf : 0 < inf)
    (hsound : Sound E s inf dist) (hreached : Reached E s inf dist)
    (hleast : ∀ v d, Walk E s v d → ∃ x, IsLeast {x | Walk E s v x} x) :
    (∀ v d, Walk E s v d → IsLeast {x | Walk E s v x} (dist v)) ↔
      ∀ v d, IsLeast {x | Walk E s v x} d → d = inf ∨ ∃ S, PathBelow E inf s S v d := by
  constructor
  · intro h v d hd
    have hv : dist v = d := (h v d hd.1).unique hd
    by_cases hne : d = inf
    · exact .inl hne
    · -- the path that the entry comes from cannot be shorter than the distance
      obtain ⟨S, d', hpath, hle⟩ := hreached v (by rwa [hv])
      have hge := hd.2 hpath.simplePath.walk
      obtain rfl : d' = d := by omega
      exact .inr ⟨S, hpath⟩
  · intro h v x hx
    obtain ⟨d, hd⟩ := hleast v x hx
    have hle := hsound.le_inf v
    suffices hv : dist v = d by rwa [hv]
    rcases h v d hd with hdinf | ⟨S, hpath⟩
    · by_contra hne
      have := hd.2 (hsound.walk v (by omega))
      omega
    · have hlt := hpath.weight_lt hinf
      have hupper := hsettled.le_of_pathBelow hinf hsound.start_le hpath
      have hlower := hd.2 (hsound.walk v (by omega))
      omega

end Relaxation

section Complete

variable [Fintype V] {out : V → ℤ}

/-- A settled table has reached everything that can be reached. -/
theorem Settled.le_of_simplePath [DecidableEq V] {S : Finset V} (hsettled : Settled E inf dist)
    (hsmall : Small E out inf) (hstart : dist s ≤ 0) (h : SimplePath E s S v d) : dist v ≤ d := by
  induction h with
  | refl => exact hstart
  | @snoc S u v d w hpath hedge _ ih =>
    have hlt := hpath.weight_lt hsmall
    have hle := hsettled u v w hedge (by omega)
    omega

/-- When no edge can be relaxed, vertices that walks lead to have a distance. -/
theorem Settled.ne_inf (hsettled : Settled E inf dist) (hsmall : Small E out inf)
    (hstart : dist s ≤ 0) (h : Walk E s v d) : dist v ≠ inf := by
  classical
  obtain ⟨S, d', hpath⟩ := h.exists_simplePath'
  have hle := hsettled.le_of_simplePath hsmall hstart hpath
  have hlt := hpath.weight_lt hsmall
  omega

/-- Along a walk, the entries of a settled table grow by at most the weight. -/
theorem Settled.le_walk (hsettled : Settled E inf dist) (hsmall : Small E out inf)
    (hstart : dist s ≤ 0) {c : ℤ} (hreach : Walk E s u d) (h : Walk E u v c) :
    dist v ≤ dist u + c := by
  induction h with
  | refl => rw [add_zero]
  | snoc hwalk hedge ih =>
    have hle := hsettled _ _ _ hedge (hsettled.ne_inf hsmall hstart (hreach.trans hwalk))
    omega

/-- A settled table excludes negative cycles. -/
theorem Settled.not_negativeCycle (hsettled : Settled E inf dist) (hsmall : Small E out inf)
    (hstart : dist s ≤ 0) : ¬ NegativeCycle E s := by
  rintro ⟨u, d, c, hreach, hcycle, hneg⟩
  have := hsettled.le_walk hsmall hstart hreach hcycle
  omega

/-- An entry of a settled table is at most an entry of a sound one. -/
theorem Settled.le_sound (hsettled : Settled E inf dist) (hsmall : Small E out inf)
    (hstart : dist s ≤ 0) (hle : ∀ v, dist v ≤ inf) (hsound : Sound E s inf dist') (v : V) :
    dist v ≤ dist' v := by
  by_cases hv : dist' v = inf
  · rw [hv]
    exact hle v
  · have := hsettled.le_walk hsmall hstart (.refl s) (hsound.walk v hv)
    omega

/-- There is only one table that is sound and settled. -/
theorem Settled.eq (hsettled : Settled E inf dist) (hsettled' : Settled E inf dist')
    (hsmall : Small E out inf) (hsound : Sound E s inf dist) (hsound' : Sound E s inf dist') :
    dist = dist' := by
  funext v
  refine le_antisymm ?_ ?_
  · exact hsettled.le_sound hsmall hsound.start_le hsound.le_inf hsound' v
  · exact hsettled'.le_sound hsmall hsound'.start_le hsound'.le_inf hsound v

end Complete

/-! ## Weights that are not negative -/

section Nonneg

/-- Without negative weights, no walk has one. -/
theorem Walk.nonneg (hE : ∀ u v w, E u v w → 0 ≤ w) (h : Walk E u v d) : 0 ≤ d := by
  induction h with
  | refl => exact le_rfl
  | snoc _ hedge ih => exact add_nonneg ih (hE _ _ _ hedge)

/-- To a vertex that can be reached there is a shortest walk. -/
theorem Walk.exists_isLeast (hE : ∀ u v w, E u v w → 0 ≤ w) (h : Walk E u v d) :
    ∃ x, IsLeast {x | Walk E u v x} x := by
  obtain ⟨x, hx, hle⟩ := Int.exists_least_of_bdd (P := Walk E u v)
    ⟨0, fun _ hz => hz.nonneg hE⟩ ⟨d, h⟩
  exact ⟨x, hx, hle⟩

/-- Entries of a settled table are at most the weights of walks, also where a walk passes through
a vertex with the entry `inf`. -/
theorem Settled.le_weight (hE : ∀ u v w, E u v w → 0 ≤ w) (hsettled : Settled E inf dist)
    (hsound : Sound E s inf dist) (h : Walk E s v d) : dist v ≤ d := by
  induction h with
  | refl => exact hsound.start_le
  | @snoc u v d w _ hedge ih =>
    -- a walk through a vertex with the entry `inf` does not come below `inf` again
    by_cases hu : dist u = inf
    · have hle := hsound.le_inf v
      have hw := hE u v w hedge
      omega
    · have hle := hsettled u v w hedge hu
      omega

/-- Without negative weights, there is only one table that is sound and settled. -/
theorem Settled.eq_of_nonneg (hE : ∀ u v w, E u v w → 0 ≤ w) (hsettled : Settled E inf dist)
    (hsettled' : Settled E inf dist') (hsound : Sound E s inf dist)
    (hsound' : Sound E s inf dist') : dist = dist' := by
  have hle {a b : V → ℤ} (ha : Settled E inf a) (hsa : Sound E s inf a) (hsb : Sound E s inf b)
      (v : V) : a v ≤ b v := by
    by_cases hv : b v = inf
    · rw [hv]
      exact hsa.le_inf v
    · exact ha.le_weight hE hsa (hsb.walk v hv)
  exact funext fun v => le_antisymm (hle hsettled hsound hsound' v) (hle hsettled' hsound' hsound v)

/-- A sound and settled table holds the weights of shortest walks, cut off at `inf`. -/
theorem Settled.eq_min (hE : ∀ u v w, E u v w → 0 ≤ w) (hsettled : Settled E inf dist)
    (hsound : Sound E s inf dist) (v : V) :
    (∃ x, IsLeast {x | Walk E s v x} x ∧ dist v = min inf x) ∨
      (∀ x, ¬ Walk E s v x) ∧ dist v = inf := by
  by_cases hreach : ∃ x, Walk E s v x
  · left
    obtain ⟨x, hx⟩ := hreach.elim fun _ h => h.exists_isLeast hE
    refine ⟨x, hx, le_antisymm (le_min (hsound.le_inf v) (hsettled.le_weight hE hsound hx.1)) ?_⟩
    by_cases hv : dist v = inf
    · exact (min_le_left inf x).trans hv.ge
    · exact (min_le_right inf x).trans (hx.2 (hsound.walk v hv))
  · right
    refine ⟨fun x hx => hreach ⟨x, hx⟩, ?_⟩
    by_contra hv
    exact hreach ⟨_, hsound.walk v hv⟩

end Nonneg

end ShortestPath

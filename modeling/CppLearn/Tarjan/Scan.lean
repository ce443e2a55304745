import CppLearn.Lib.StrongComponents
import CppLearn.Tarjan.State
import Mathlib.Order.Interval.Finset.Nat

/-!
# The loop of `tarjan`

While a call for `u` looks at the edges of `u`, the vertices of the calls that have not returned are
in `s`. The vertices above `u` are those that the call has found, and from which a vertex that is
still in `s` can be reached. `low[u]` is at most the number of each vertex below `u` to which an
edge leads that the call has seen, and it is the number of a vertex of `s` that `u` reaches.

`Invariant` holds between the steps, and bounds the length of `s`, the numbers and the components by
the number of the vertices. `Scanning` holds in the loop: `Invariant.enter` is the state before it,
`Scanning.call`, `Scanning.inStack` and `Scanning.settled` look at one edge. After the loop the
vertices stay in `s` (`Scanning.keep`), or they are a component (`Scanning.split`). Then the call
has returned, which is `Explored`; what it changes is `Extends`.
-/

namespace CppLearn.Tarjan

open StrongComponents Relation

variable {V : Type*} {edges : V → List V} {gray seen new : List V}
  {st st' st₀ st₁ : State V} {u v w : V}

/-- There is an edge from `v` to `w`. -/
def Edge (edges : V → List V) (v w : V) : Prop := w ∈ edges v

/-- `w` can be reached from `v`. -/
abbrev Reaches (edges : V → List V) : V → V → Prop := ReflTransGen (Edge edges)

/-- The vertices that have a component. -/
def State.settled (st : State V) : Set V := {v | st.dfn v ≠ 0 ∧ v ∉ st.s}

/-- What holds between the steps, where `gray` are the vertices whose calls have not returned. -/
structure Invariant (edges : V → List V) (gray : List V) (st : State V) : Prop where
  bound : ∀ v, st.dfn v ≤ st.dfncnt
  used : ∀ k, 1 ≤ k → k ≤ st.dfncnt → ∃ v, st.dfn v = k
  visited : ∀ v ∈ st.s, st.dfn v ≠ 0
  sorted : st.s.Pairwise fun v w => st.dfn w < st.dfn v
  inStack : ∀ v, st.inStack v = true ↔ v ∈ st.s
  mem_s : ∀ v ∈ gray, v ∈ st.s
  black : ∀ v, st.dfn v ≠ 0 → v ∉ gray → ∀ w ∈ edges v, st.dfn w ≠ 0
  forward : ∀ v ∈ st.s, ∀ w ∈ st.s, st.dfn v ≤ st.dfn w → Reaches edges v w
  back : ∀ v ∈ st.s, ∃ w ∈ gray, st.dfn w ≤ st.dfn v ∧ Reaches edges v w
  numbering : Numbering (Edge edges) st.settled st.scc st.sc st.sz

/-- A call for `u` visits vertices that `u` reaches, and puts `new` on top of `s`. -/
structure Extends (edges : V → List V) (u : V) (st st' : State V) (new : List V) : Prop where
  s : st'.s = new ++ st.s
  fresh : ∀ v ∈ new, st.dfn v = 0
  dfn : ∀ v, st.dfn v ≠ 0 → st'.dfn v = st.dfn v
  low : ∀ v, st.dfn v ≠ 0 → st'.low v = st.low v
  dfncnt : st.dfncnt ≤ st'.dfncnt
  later : ∀ v, st.dfn v = 0 → st'.dfn v ≠ 0 → st.dfncnt < st'.dfn v
  reaches : ∀ v, st.dfn v = 0 → st'.dfn v ≠ 0 → Reaches edges u v

/-- The call for `u` has returned. -/
structure Explored (edges : V → List V) (gray : List V) (u : V) (st st' : State V) (new : List V) :
    Prop extends Extends edges u st st' new where
  invariant : Invariant edges gray st'
  visited : st'.dfn u ≠ 0
  attained : ∃ y, st'.dfn y = st'.low u ∧ Reaches edges u y ∧ (y ∈ st'.s ∨ y = u)
  low_le : ∀ x ∈ new, ∀ y ∈ edges x, y ∈ st.s → st'.low u ≤ st.dfn y

/-- The call for `u` has looked at the edges to `seen`, and `new` are the vertices above `u`. -/
structure Scanning (edges : V → List V) (gray : List V) (u : V) (st₀ : State V) (seen : List V)
    (st : State V) (new : List V) : Prop extends Extends edges u st₀ st (new ++ [u]) where
  before : Invariant edges gray st₀
  invariant : Invariant edges (u :: gray) st
  low_le_dfn : st.low u ≤ st.dfn u
  attained : ∃ y ∈ st.s, st.dfn y = st.low u ∧ Reaches edges u y
  seen_visited : ∀ v ∈ seen, st.dfn v ≠ 0
  low_le : ∀ x ∈ new, ∀ y ∈ edges x, y ∈ st₀.s → st.low u ≤ st₀.dfn y
  low_le_seen : ∀ y ∈ seen, y ∈ st₀.s → st.low u ≤ st₀.dfn y

/-- A vertex that has not been visited is not in `s`. -/
theorem Invariant.not_mem (h : Invariant edges gray st) (hu : st.dfn u = 0) : u ∉ st.s :=
  fun hmem => h.visited u hmem hu

/-! ## Bounds -/

section Bounds

variable {U : Finset V}

/-- The numbers tell the vertices of `s` apart. -/
theorem Invariant.nodup (h : Invariant edges gray st) : st.s.Nodup :=
  h.sorted.imp fun hlt => ne_of_apply_ne st.dfn hlt.ne'

/-- The vertices of `s` are different. -/
theorem Invariant.length_lt (h : Invariant edges gray st) (hU : ∀ v, st.dfn v ≠ 0 → v ∈ U)
    (hu : u ∈ U) (hdfn : st.dfn u = 0) : st.s.length < U.card := by
  classical
  rw [← List.toFinset_card_of_nodup h.nodup]
  refine Finset.card_lt_card (Finset.ssubset_iff_of_subset (fun v hv => ?_) |>.2 ⟨u, hu, ?_⟩)
  · exact hU v (h.visited v (List.mem_toFinset.1 hv))
  · exact fun hmem => h.visited u (List.mem_toFinset.1 hmem) hdfn

/-- Each number up to `dfncnt` belongs to a vertex. -/
theorem Invariant.dfncnt_lt (h : Invariant edges gray st) (hU : ∀ v, st.dfn v ≠ 0 → v ∈ U)
    (hu : u ∈ U) (hdfn : st.dfn u = 0) : st.dfncnt < U.card := by
  have hsubset : Finset.range (st.dfncnt + 1) ⊆ U.image st.dfn := fun k hk => by
    rcases Nat.eq_zero_or_pos k with rfl | hpos
    · exact Finset.mem_image.2 ⟨u, hu, hdfn⟩
    · obtain ⟨v, rfl⟩ := h.used k hpos (Nat.le_of_lt_succ (Finset.mem_range.1 hk))
      exact Finset.mem_image_of_mem _ (hU v (Nat.ne_of_gt hpos))
  have hcard := (Finset.card_le_card hsubset).trans Finset.card_image_le
  rwa [Finset.card_range] at hcard

/-- Each component has a vertex. -/
theorem Invariant.sc_le (h : Invariant edges gray st) (hU : ∀ v, st.dfn v ≠ 0 → v ∈ U) :
    st.sc ≤ U.card := by
  have hsubset : Finset.Icc 1 st.sc ⊆ U.image st.scc := fun c hc => by
    obtain ⟨hpos, hle⟩ := Finset.mem_Icc.1 hc
    obtain ⟨v, hv, rfl⟩ := h.numbering.used c hpos hle
    exact Finset.mem_image_of_mem _ (hU v hv.1)
  have hcard := (Finset.card_le_card hsubset).trans Finset.card_image_le
  rwa [Nat.card_Icc, Nat.add_sub_cancel] at hcard

end Bounds

/-! ## The loop -/

/-- Two calls, the second one for a vertex that the first one reaches. -/
theorem Extends.trans {new' : List V} (h : Extends edges u st₀ st new)
    (h' : Extends edges v st st' new') (hv : Reaches edges u v) :
    Extends edges u st₀ st' (new' ++ new) := by
  have hkeep : ∀ x, st₀.dfn x ≠ 0 → st.dfn x ≠ 0 := fun x hx => (h.dfn x hx).trans_ne hx
  refine ⟨?_, fun x hx => ?_, fun x hx => ?_, fun x hx => ?_, h.dfncnt.trans h'.dfncnt,
    fun x hx hx' => ?_, fun x hx hx' => ?_⟩
  · rw [h'.s, h.s, List.append_assoc]
  · rcases List.mem_append.1 hx with hx | hx
    · by_contra hx'
      exact hkeep x hx' (h'.fresh x hx)
    · exact h.fresh x hx
  · rw [h'.dfn x (hkeep x hx), h.dfn x hx]
  · rw [h'.low x (hkeep x hx), h.low x hx]
  · by_cases hmid : st.dfn x = 0
    · exact h.dfncnt.trans_lt (h'.later x hmid hx')
    · rw [h'.dfn x hmid]
      exact h.later x hx hmid
  · by_cases hmid : st.dfn x = 0
    · exact hv.trans (h'.reaches x hmid hx')
    · exact h.reaches x hx hmid

/-- The vertex `u` was not visited before the call, -/
theorem Scanning.unvisited (h : Scanning edges gray u st₀ seen st new) : st₀.dfn u = 0 :=
  h.fresh u (by simp)

/-- but is now in `s`, -/
theorem Scanning.mem_s (h : Scanning edges gray u st₀ seen st new) : u ∈ st.s := by
  rw [h.s]
  simp

/-- and has a number. -/
theorem Scanning.visited (h : Scanning edges gray u st₀ seen st new) : st.dfn u ≠ 0 :=
  h.invariant.visited u h.mem_s

/-- What was in `s` before the call is still there, -/
theorem Scanning.mem_s_of_mem (h : Scanning edges gray u st₀ seen st new) (hv : v ∈ st₀.s) :
    v ∈ st.s := by
  rw [h.s]
  exact List.mem_append_right _ hv

/-- with its number. -/
theorem Scanning.dfn_eq (h : Scanning edges gray u st₀ seen st new) (hv : v ∈ st₀.s) :
    st.dfn v = st₀.dfn v :=
  h.dfn v (h.before.visited v hv)

/-- The numbers of the vertices above and below `u`. -/
theorem Scanning.sorted (h : Scanning edges gray u st₀ seen st new) :
    (∀ v ∈ new, st.dfn u < st.dfn v) ∧ ∀ v ∈ st₀.s, st.dfn v < st.dfn u := by
  have hsorted := h.invariant.sorted
  rw [h.s, List.append_assoc, List.pairwise_append] at hsorted
  obtain ⟨-, hbelow, habove⟩ := hsorted
  exact ⟨fun v hv => habove v hv u List.mem_cons_self, (List.pairwise_cons.1 hbelow).1⟩

/-- Each vertex of `s` with a number that is less than that of `u` reaches one of the other
vertices whose calls have not returned. -/
theorem Scanning.back (h : Scanning edges gray u st₀ seen st new) (hv : v ∈ st.s)
    (hlt : st.dfn v < st.dfn u) :
    ∃ w ∈ gray, st.dfn w ≤ st.dfn v ∧ Reaches edges v w := by
  obtain ⟨w, hw, hle, hreach⟩ := h.invariant.back v hv
  rcases List.mem_cons.1 hw with rfl | hw
  · exact absurd hlt hle.not_gt
  · exact ⟨w, hw, hle, hreach⟩

/-- The vertices that have been visited, apart from those whose calls have not returned, only lead
to such vertices. -/
theorem Scanning.black (h : Scanning edges gray u st₀ (edges u) st new) (hv : st.dfn v ≠ 0)
    (hgray : v ∉ gray) (hw : w ∈ edges v) : st.dfn w ≠ 0 := by
  rcases eq_or_ne v u with rfl | hne
  · exact h.seen_visited w hw
  · exact h.invariant.black v hv (fun hmem => (List.mem_cons.1 hmem).elim hne hgray) w hw

/-- The edge leads to a vertex that has a component. -/
theorem Scanning.settled (h : Scanning edges gray u st₀ seen st new) (hv : st.dfn v ≠ 0)
    (hs : v ∉ st.s) : Scanning edges gray u st₀ (seen ++ [v]) st new := by
  refine ⟨h.toExtends, h.before, h.invariant, h.low_le_dfn, h.attained, fun x hx => ?_, h.low_le,
    fun y hy hmem => ?_⟩
  · rcases List.mem_append.1 hx with hx | hx
    · exact h.seen_visited x hx
    · obtain rfl := List.mem_singleton.1 hx
      exact hv
  · rcases List.mem_append.1 hy with hy | hy
    · exact h.low_le_seen y hy hmem
    · obtain rfl := List.mem_singleton.1 hy
      exact absurd (h.mem_s_of_mem hmem) hs

/-- `u` reaches a vertex that was visited earlier, and stays in `s`. -/
theorem Scanning.keep (h : Scanning edges gray u st₀ (edges u) st new)
    (hne : st.dfn u ≠ st.low u) : Explored edges gray u st₀ st (new ++ [u]) := by
  have hlt : st.low u < st.dfn u := h.low_le_dfn.lt_of_ne hne.symm
  obtain ⟨y, hy, heq, hreach⟩ := h.attained
  refine ⟨h.toExtends, ?_, h.visited, ⟨y, heq, hreach, .inl hy⟩, fun x hx z hz hmem => ?_⟩
  · have hinv := h.invariant
    refine ⟨hinv.bound, hinv.used, hinv.visited, hinv.sorted, hinv.inStack,
      fun v hv => hinv.mem_s v (List.mem_cons_of_mem u hv), fun v hv hgray w => h.black hv hgray,
      hinv.forward, fun v hv => ?_, hinv.numbering⟩
    obtain ⟨w, hw, hle, hreach'⟩ := hinv.back v hv
    rcases List.mem_cons.1 hw with rfl | hw
    · obtain ⟨x, hx, hle', hreach''⟩ := h.back hy (heq.trans_lt hlt)
      exact ⟨x, hx, by omega, hreach'.trans (hreach.trans hreach'')⟩
    · exact ⟨w, hw, hle, hreach'⟩
  · rcases List.mem_append.1 hx with hx | hx
    · exact h.low_le x hx z hz hmem
    · obtain rfl := List.mem_singleton.1 hx
      exact h.low_le_seen z hz hmem

variable [DecidableEq V]

/-! ## Before the loop -/

/-- `u` gets the next number, as `dfn`, -/
theorem enter_dfn_self (st : State V) (u : V) : (st.enter u).dfn u = st.dfncnt + 1 :=
  Function.update_self ..

/-- and as `low`; -/
theorem enter_low_self (st : State V) (u : V) : (st.enter u).low u = st.dfncnt + 1 :=
  Function.update_self ..

/-- the other vertices keep theirs, -/
theorem enter_dfn (st : State V) (hne : v ≠ u) : (st.enter u).dfn v = st.dfn v :=
  Function.update_of_ne hne ..

/-- for both arrays. -/
theorem enter_low (st : State V) (hne : v ≠ u) : (st.enter u).low v = st.low v :=
  Function.update_of_ne hne ..

/-- No vertex gets a component. -/
theorem settled_enter (hu : st.dfn u = 0) :
    (st.enter u).settled = st.settled := by
  ext v
  rcases eq_or_ne v u with rfl | hne
  · exact iff_of_false (fun hv => hv.2 List.mem_cons_self) fun hv => hv.1 hu
  · show (st.enter u).dfn v ≠ 0 ∧ v ∉ u :: st.s ↔ st.dfn v ≠ 0 ∧ v ∉ st.s
    rw [enter_dfn st hne, List.mem_cons, or_iff_right hne]

/-- The invariant, when the call for `u` begins. -/
theorem Invariant.enter_invariant (h : Invariant edges gray st) (hu : st.dfn u = 0)
    (hgray : ∀ v ∈ gray, Reaches edges v u) : Invariant edges (u :: gray) (st.enter u) := by
  have hnot := h.not_mem hu
  have hself := enter_dfn_self st u
  have hold : ∀ v ∈ st.s, (st.enter u).dfn v = st.dfn v := fun v hv =>
    enter_dfn st (ne_of_mem_of_not_mem hv hnot)
  have hs : (st.enter u).s = u :: st.s := rfl
  refine ⟨fun v => ?_, fun k hpos hle => ?_, fun v hv => ?_, ?_, fun v => ?_, fun v hv => ?_,
    fun v hv hgray w hw => ?_, fun v hv w hw hle => ?_, fun v hv => ?_, ?_⟩
  · rcases eq_or_ne v u with rfl | hne
    · exact hself.le
    · rw [enter_dfn st hne]
      exact (h.bound v).trans (Nat.le_succ _)
  · rcases Nat.le_succ_iff.1 hle with hle | rfl
    · obtain ⟨v, rfl⟩ := h.used k hpos hle
      refine ⟨v, enter_dfn st ?_⟩
      rintro rfl
      omega
    · exact ⟨u, hself⟩
  · rcases List.mem_cons.1 hv with rfl | hv
    · rw [hself]
      exact Nat.succ_ne_zero _
    · rw [hold v hv]
      exact h.visited v hv
  · rw [hs]
    refine List.pairwise_cons.2 ⟨fun v hv => ?_, h.sorted.imp_of_mem fun hv hw hlt => ?_⟩
    · rw [hself, hold v hv]
      exact Nat.lt_succ_of_le (h.bound v)
    · rwa [hold _ hv, hold _ hw]
  · show Function.update st.inStack u true v = true ↔ v ∈ u :: st.s
    rcases eq_or_ne v u with rfl | hne
    · rw [Function.update_self]
      exact iff_of_true rfl List.mem_cons_self
    · rw [Function.update_of_ne hne, List.mem_cons, or_iff_right hne]
      exact h.inStack v
  · rcases List.mem_cons.1 hv with rfl | hv
    · exact List.mem_cons_self
    · exact List.mem_cons_of_mem u (h.mem_s v hv)
  · obtain ⟨hne, hv'⟩ := not_or.1 (List.mem_cons.not.1 hgray)
    rw [enter_dfn st hne] at hv
    rcases eq_or_ne w u with rfl | hw'
    · rw [hself]
      exact Nat.succ_ne_zero _
    · rw [enter_dfn st hw']
      exact h.black v hv hv' w hw
  · rw [hs] at hv hw
    rcases List.mem_cons.1 hv with rfl | hv' <;> rcases List.mem_cons.1 hw with rfl | hw'
    · exact .refl
    · rw [hself, hold w hw'] at hle
      exact absurd ((h.bound w).trans_lt hle) (Nat.lt_irrefl _)
    · -- each vertex of `s` reaches one whose call has not returned
      obtain ⟨x, hx, -, hreach⟩ := h.back v hv'
      exact hreach.trans (hgray x hx)
    · rw [hold v hv', hold w hw'] at hle
      exact h.forward v hv' w hw' hle
  · rcases List.mem_cons.1 hv with rfl | hv
    · exact ⟨v, List.mem_cons_self, le_rfl, .refl⟩
    · obtain ⟨x, hx, hle, hreach⟩ := h.back v hv
      refine ⟨x, List.mem_cons_of_mem u hx, ?_, hreach⟩
      rwa [hold v hv, hold x (h.mem_s x hx)]
  · rw [settled_enter hu]
    exact h.numbering

/-- The loop begins with no edge seen, and no vertex above `u`. -/
theorem Invariant.enter (h : Invariant edges gray st) (hu : st.dfn u = 0)
    (hgray : ∀ v ∈ gray, Reaches edges v u) : Scanning edges gray u st [] (st.enter u) [] := by
  have hself := enter_dfn_self st u
  have hne : ∀ v, st.dfn v ≠ 0 → v ≠ u := by
    rintro v hv rfl
    exact hv hu
  have heq : ∀ v, st.dfn v = 0 → (st.enter u).dfn v ≠ 0 → v = u := fun v hv hv' => by
    by_contra hnot
    exact hv' ((enter_dfn st hnot).trans hv)
  refine ⟨⟨rfl, fun v hv => ?_, fun v hv => enter_dfn st (hne v hv),
    fun v hv => enter_low st (hne v hv), Nat.le_succ _, fun v hv hv' => ?_, fun v hv hv' => ?_⟩,
    h, h.enter_invariant hu hgray, ?_, ⟨u, List.mem_cons_self, ?_, .refl⟩, nofun, nofun, nofun⟩
  · obtain rfl := List.mem_singleton.1 hv
    exact hu
  · obtain rfl := heq v hv hv'
    exact (Nat.lt_succ_self _).trans_eq hself.symm
  · obtain rfl := heq v hv hv'
    exact .refl
  · exact (enter_low_self st u).le.trans hself.ge
  · exact hself.trans (enter_low_self st u).symm

/-! ## One edge -/

/-- The invariant says nothing about `low`. -/
theorem Invariant.lower (h : Invariant edges gray st) (u : V) (x : ℕ) :
    Invariant edges gray (st.lower u x) :=
  ⟨h.bound, h.used, h.visited, h.sorted, h.inStack, h.mem_s, h.black, h.forward, h.back,
    h.numbering⟩

/-- The new number of `u`. -/
theorem lower_low_self (st : State V) (u : V) (x : ℕ) :
    (st.lower u x).low u = min (st.low u) x :=
  Function.update_self ..

/-- The vertex `u` was not visited before. -/
theorem Extends.lower {x : ℕ} (h : Extends edges v st st' new) (hu : st.dfn u = 0) :
    Extends edges v st (st'.lower u x) new where
  s := h.s
  fresh := h.fresh
  dfn := h.dfn
  low y hy := by
    have hne : y ≠ u := by
      rintro rfl
      exact hy hu
    exact (Function.update_of_ne hne ..).trans (h.low y hy)
  dfncnt := h.dfncnt
  later := h.later
  reaches := h.reaches

/-- The edge leads to a vertex that is visited in a call. -/
theorem Scanning.call {new' : List V} (h : Scanning edges gray u st₀ seen st new)
    (hedge : v ∈ edges u) (hv : st.dfn v = 0)
    (hcall : Explored edges (u :: gray) v st st' new') :
    Scanning edges gray u st₀ (seen ++ [v]) (st'.lower u (st'.low v)) (new' ++ new) := by
  have hreach : Reaches edges u v := .single hedge
  have hlow : st'.low u = st.low u := hcall.low u h.visited
  have hdfn : st'.dfn u = st.dfn u := hcall.dfn u h.visited
  have hmin : (st'.lower u (st'.low v)).low u = min (st.low u) (st'.low v) := by
    rw [lower_low_self, hlow]
  have hextends := (h.toExtends.trans hcall.toExtends hreach).lower (x := st'.low v) h.unvisited
  rw [← List.append_assoc] at hextends
  refine ⟨hextends, h.before, hcall.invariant.lower u _, ?_, ?_, fun x hx => ?_,
    fun x hx y hy hmem => ?_, fun y hy hmem => ?_⟩
  · rw [hmin]
    exact (min_le_left _ _).trans (h.low_le_dfn.trans_eq hdfn.symm)
  · rcases le_total (st.low u) (st'.low v) with hle | hle
    · obtain ⟨y, hy, heq, hy'⟩ := h.attained
      refine ⟨y, ?_, ?_, hy'⟩
      · show y ∈ st'.s
        rw [hcall.s]
        exact List.mem_append_right _ hy
      · rw [hmin, min_eq_left hle, ← heq]
        exact hcall.dfn y (h.invariant.visited y hy)
    · obtain ⟨y, heq, hy, hmem⟩ := hcall.attained
      refine ⟨y, hmem.resolve_right ?_, ?_, hreach.trans hy⟩
      · -- otherwise `v` has a component, and a number that is larger than that of `u`
        rintro rfl
        have hlater := hcall.later y hv hcall.visited
        have hbound := h.invariant.bound u
        have hle_dfn := h.low_le_dfn
        omega
      · rw [hmin, min_eq_right hle]
        exact heq
  · rcases List.mem_append.1 hx with hx | hx
    · exact (hcall.dfn x (h.seen_visited x hx)).trans_ne (h.seen_visited x hx)
    · obtain rfl := List.mem_singleton.1 hx
      exact hcall.visited
  · rw [hmin]
    rcases List.mem_append.1 hx with hx | hx
    · have hle := hcall.low_le x hx y hy (h.mem_s_of_mem hmem)
      rw [h.dfn_eq hmem] at hle
      exact (min_le_right _ _).trans hle
    · exact (min_le_left _ _).trans (h.low_le x hx y hy hmem)
  · rcases List.mem_append.1 hy with hy | hy
    · rw [hmin]
      exact (min_le_left _ _).trans (h.low_le_seen y hy hmem)
    · obtain rfl := List.mem_singleton.1 hy
      exact absurd hv (h.invariant.visited y (h.mem_s_of_mem hmem))

/-- The edge leads to a vertex of `s`. -/
theorem Scanning.inStack (h : Scanning edges gray u st₀ seen st new) (hedge : v ∈ edges u)
    (hv : v ∈ st.s) : Scanning edges gray u st₀ (seen ++ [v]) (st.lower u (st.dfn v)) new := by
  have hmin := lower_low_self st u (st.dfn v)
  refine ⟨h.toExtends.lower h.unvisited, h.before, h.invariant.lower u _, ?_, ?_, fun x hx => ?_,
    fun x hx y hy hmem => ?_, fun y hy hmem => ?_⟩
  · rw [hmin]
    exact (min_le_left _ _).trans h.low_le_dfn
  · -- `low` is attained by the old value, or by `v` itself
    rcases le_total (st.low u) (st.dfn v) with hle | hle
    · obtain ⟨y, hy, heq, hy'⟩ := h.attained
      refine ⟨y, hy, ?_, hy'⟩
      rw [hmin, min_eq_left hle]
      exact heq
    · refine ⟨v, hv, ?_, .single hedge⟩
      rw [hmin, min_eq_right hle]
      rfl
  · -- `v` has been visited, as it is on the stack
    rcases List.mem_append.1 hx with hx | hx
    · exact h.seen_visited x hx
    · obtain rfl := List.mem_singleton.1 hx
      exact h.invariant.visited x hv
  · rw [hmin]
    exact (min_le_left _ _).trans (h.low_le x hx y hy hmem)
  · -- the new edge leads to `v`
    rw [hmin]
    rcases List.mem_append.1 hy with hy | hy
    · exact (min_le_left _ _).trans (h.low_le_seen y hy hmem)
    · obtain rfl := List.mem_singleton.1 hy
      exact (min_le_right _ _).trans (h.dfn_eq hmem).le

/-! ## After the loop -/

/-- The component is added to the vertices that have one. -/
theorem settled_split {component s : List V} (hs : st.s = component ++ s)
    (hdisjoint : ∀ v ∈ component, v ∉ s) (hvisited : ∀ v ∈ component, st.dfn v ≠ 0) :
    (st.split component s).settled = st.settled ∪ {v | v ∈ component} := by
  ext v
  show st.dfn v ≠ 0 ∧ v ∉ s ↔ (st.dfn v ≠ 0 ∧ v ∉ st.s) ∨ v ∈ component
  rw [hs, List.mem_append]
  by_cases hv : v ∈ component
  · exact iff_of_true ⟨hvisited v hv, hdisjoint v hv⟩ (.inr hv)
  · rw [or_iff_left hv, or_iff_right hv]

/-- The edges from `u` and from the vertices above lead to the same vertices, or to vertices that
have a component. -/
theorem Scanning.edge_mem (h : Scanning edges gray u st₀ (edges u) st new)
    (heq : st.dfn u = st.low u) (hv : v ∈ new ++ [u]) (hw : w ∈ edges v) :
    w ∈ st.settled ∨ w ∈ new ++ [u] := by
  obtain ⟨-, hbelow⟩ := h.sorted
  have hgray : v ∉ gray := fun hmem =>
    h.before.visited v (h.before.mem_s v hmem) (h.fresh v hv)
  have hvs : v ∈ st.s := by
    rw [h.s]
    exact List.mem_append_left _ hv
  have hvisited := h.black (h.invariant.visited v hvs) hgray hw
  by_cases hws : w ∈ st.s
  · rw [h.s, List.mem_append] at hws
    refine .inr (hws.resolve_right fun hmem => ?_)
    -- an edge to a vertex below `u` would make `low[u]` smaller
    have hle : st.low u ≤ st₀.dfn w := by
      rcases List.mem_append.1 hv with hv | hv
      · exact h.low_le v hv w hw hmem
      · obtain rfl := List.mem_singleton.1 hv
        exact h.low_le_seen w hw hmem
    have hlt := hbelow w hmem
    rw [h.dfn_eq hmem] at hlt
    omega
  · exact .inl ⟨hvisited, hws⟩

/-- `u` and the vertices above reach each other. -/
theorem Scanning.strong (h : Scanning edges gray u st₀ (edges u) st new)
    (heq : st.dfn u = st.low u) (hv : v ∈ new ++ [u]) : Strong (Edge edges) u v := by
  obtain ⟨habove, -⟩ := h.sorted
  have hvs : v ∈ st.s := by
    rw [h.s]
    exact List.mem_append_left _ hv
  have hle : st.dfn u ≤ st.dfn v := by
    rcases List.mem_append.1 hv with hv | hv
    · exact (habove v hv).le
    · obtain rfl := List.mem_singleton.1 hv
      exact le_rfl
  refine ⟨h.invariant.forward u h.mem_s v hvs hle, ?_⟩
  obtain ⟨w, hw, -, hreach⟩ := h.invariant.back v hvs
  rcases List.mem_cons.1 hw with rfl | hw
  · exact hreach
  · -- the vertices below `u` cannot be reached
    have hclosed : Closed (Edge edges) (st.settled ∪ {v | v ∈ new ++ [u]}) :=
      h.invariant.numbering.closed.union fun a ha b hedge => h.edge_mem heq ha hedge
    have hws := h.before.mem_s w hw
    rcases hclosed.reaches (.inr hv) hreach with hmem | hmem
    · exact absurd (h.mem_s_of_mem hws) hmem.2
    · exact absurd (h.fresh w hmem) (h.before.visited w hws)

/-- No vertex below `u` can be reached from `u`, so that the component of `u` is split off. -/
theorem Scanning.split (h : Scanning edges gray u st₀ (edges u) st new)
    (heq : st.dfn u = st.low u) :
    Explored edges gray u st₀ (({ st with sc := st.sc + 1 } : State V).split (new ++ [u]) st₀.s)
      [] := by
  obtain ⟨-, hbelow⟩ := h.sorted
  have hinv := h.invariant
  have hvisited : ∀ v ∈ new ++ [u], st.dfn v ≠ 0 := fun v hv =>
    hinv.visited v (h.s ▸ List.mem_append_left _ hv)
  have hdisjoint : ∀ v ∈ new ++ [u], v ∉ st₀.s := fun v hv hmem =>
    h.before.visited v hmem (h.fresh v hv)
  have hnodup : (new ++ [u]).Nodup := by
    have hs := hinv.nodup
    rw [h.s] at hs
    exact (List.nodup_append.1 hs).1
  refine ⟨⟨rfl, nofun, h.dfn, h.low, h.dfncnt, h.later, h.reaches⟩, ?_, h.visited,
    ⟨u, heq, .refl, .inr rfl⟩, nofun⟩
  refine ⟨hinv.bound, hinv.used, fun v hv => hinv.visited v (h.mem_s_of_mem hv), ?_, fun v => ?_,
    h.before.mem_s, fun v hv hgray w => h.black hv hgray, fun v hv w hw =>
      hinv.forward v (h.mem_s_of_mem hv) w (h.mem_s_of_mem hw),
    fun v hv => h.back (h.mem_s_of_mem hv) (hbelow v hv), ?_⟩
  · -- the vertices that are left on the stack are sorted
    have hsorted := hinv.sorted
    rw [h.s] at hsorted
    exact (List.pairwise_append.1 hsorted).2.1
  · show (if v ∈ new ++ [u] then false else st.inStack v) = true ↔ v ∈ st₀.s
    by_cases hv : v ∈ new ++ [u]
    · rw [if_pos hv]
      exact iff_of_false Bool.false_ne_true (hdisjoint v hv)
    · rw [if_neg hv, hinv.inStack, h.s, List.mem_append, or_iff_right hv]
  · -- the popped vertices are a component, and get the next number
    have hsettled : (({ st with sc := st.sc + 1 } : State V).split (new ++ [u]) st₀.s).settled =
        st.settled ∪ {v | v ∈ new ++ [u]} := settled_split h.s hdisjoint hvisited
    rw [hsettled]
    refine hinv.numbering.add (fun v hv hs => ?_) ⟨u, by simp⟩ (fun v hv w => h.edge_mem heq hv)
      (fun v hv w hw => (h.strong heq hv).symm.trans (h.strong heq hw)) (fun v hv => ?_)
      (fun v hv => if_pos hv) ?_
    · exact hs.2 (h.s ▸ List.mem_append_left _ hv)
    · refine if_neg fun hmem => hv.2 ?_
      rw [h.s]
      exact List.mem_append_left _ hmem
    · have hcard : {v | v ∈ new ++ [u]}.ncard = (new ++ [u]).length := by
        rw [← List.toFinset_card_of_nodup hnodup, ← Set.ncard_coe_finset, List.coe_toFinset]
      rw [hcard]
      rfl

end CppLearn.Tarjan

import CppLearn.Tarjan.Represents
import CppLearn.Tarjan.Scan
import Mathlib.Data.Int.Interval

/-!
# Correctness of `tarjan`

Each call visits the vertices that can be reached, and returns. It stays inside the arrays: the
vertices of `s` are different, and each component has a vertex, so that `tp` and `sc` are less than
`N`. The depth of the recursion is at most the number of the vertices.

One call is `tarjan_explored`. When the calls for the vertices of a list have returned, the numbers
of the components say which vertices reach each other (`tarjanAll_scc`), and they are ordered
(`tarjanAll_order`).
-/

namespace CppLearn.Tarjan

open BoundedLoop CheckedVector StrongComponents Relation

variable {N fuel : ℕ} {edges : ℤ → List ℤ} {gray seen new roots : List ℤ} {g g' : Globals}
  {st st' st₀ : State ℤ} {u v : ℤ}

/-! ## The vertices -/

/-- The set of the vertices. -/
def vertices (N : ℕ) : Finset ℤ :=
  ((Finset.range N).filter fun v => 0 < v ∧ v < 2 ^ 31).image Nat.cast

/-- The set is that of the vertices. -/
theorem mem_vertices : v ∈ vertices N ↔ IsVertex N v := by
  simp only [vertices, Finset.mem_image, Finset.mem_filter, Finset.mem_range, IsVertex]
  constructor
  · rintro ⟨n, ⟨hN, hpos, hlt⟩, rfl⟩
    omega
  · rintro ⟨hpos, hN, hlt⟩
    exact ⟨v.toNat, by omega, by omega⟩

theorem card_vertices_le (N : ℕ) : (vertices N).card ≤ N - 1 ∧ (vertices N).card ≤ 2 ^ 31 - 1 := by
  have hle {m : ℕ} (hm : ∀ v ∈ (Finset.range N).filter fun v => 0 < v ∧ v < 2 ^ 31, v < m) :
      (vertices N).card ≤ m - 1 := by
    refine Finset.card_image_le.trans ?_
    rw [← tsub_zero m, ← Nat.card_Ioo]
    refine Finset.card_le_card fun v hv => Finset.mem_Ioo.2 ⟨?_, hm v hv⟩
    exact (Finset.mem_filter.1 hv).2.1
  exact ⟨hle fun v hv => Finset.mem_range.1 (Finset.mem_filter.1 hv).1,
    hle fun v hv => (Finset.mem_filter.1 hv).2.2⟩

/-- Edges lead from vertices to vertices. -/
def EdgesInRange (N : ℕ) (edges : ℤ → List ℤ) : Prop :=
  ∀ u, IsVertex N u → ∀ v ∈ edges u, IsVertex N v

/-- Only vertices are reached from a vertex. -/
theorem EdgesInRange.reaches (h : EdgesInRange N edges) (hu : IsVertex N u)
    (hreach : Reaches edges u v) : IsVertex N v :=
  Closed.reaches (S := {v | IsVertex N v}) h hu hreach

/-- Only vertices have been visited. -/
def OnlyVertices (N : ℕ) (st : State ℤ) : Prop := ∀ v, st.dfn v ≠ 0 → v ∈ vertices N

/-- A call for a vertex visits vertices. -/
theorem OnlyVertices.extends (h : OnlyVertices N st) (hedges : EdgesInRange N edges)
    (hu : IsVertex N u) (hextends : Extends edges u st st' new) : OnlyVertices N st' := by
  intro v hv
  by_cases hold : st.dfn v = 0
  · exact mem_vertices.2 (hedges.reaches hu (hextends.reaches v hold hv))
  · exact h v hold

/-- The number of vertices that have not been visited. -/
def State.unvisited (N : ℕ) (st : State ℤ) : ℕ := ((vertices N).filter fun v => st.dfn v = 0).card

/-- The depth of the recursion that `N - 1` allows. -/
theorem State.unvisited_le (st : State ℤ) : st.unvisited N ≤ N - 1 :=
  (Finset.card_filter_le _ _).trans (card_vertices_le N).1

/-- A call visits at least its own vertex. -/
theorem Extends.unvisited_lt (h : Extends edges u st st' new) (hu : IsVertex N u)
    (hdfn : st.dfn u = 0) (hvisited : st'.dfn u ≠ 0) : st'.unvisited N < st.unvisited N := by
  refine Finset.card_lt_card (Finset.ssubset_iff_of_subset ?_ |>.2 ⟨u, ?_, ?_⟩)
  · intro v hv
    rw [Finset.mem_filter] at hv ⊢
    refine ⟨hv.1, ?_⟩
    by_contra hne
    exact hne ((h.dfn v hne).symm.trans hv.2)
  · exact Finset.mem_filter.2 ⟨mem_vertices.2 hu, hdfn⟩
  · exact fun hmem => hvisited (Finset.mem_filter.1 hmem).2

/-! ## One call -/

/-- The arrays stand for a state that meets the invariant. -/
structure Ready (N : ℕ) (edges : ℤ → List ℤ) (gray : List ℤ) (g : Globals) (st : State ℤ) :
    Prop where
  represents : g.Represents N st
  invariant : Invariant edges gray st
  vertices : OnlyVertices N st

/-- A vertex is an index of the arrays. -/
theorem IsVertex.index (h : IsVertex N v) : 0 ≤ v ∧ v < N := ⟨h.1.le, h.2.1⟩

/-- The vertex gets its number. -/
theorem Ready.enter (h : Ready N edges gray g st) (hu : IsVertex N u) (hdfn : st.dfn u = 0) :
    ∃ g', g.enter u = .ok g' ∧ g'.Represents N (st.enter u) := by
  have hlength := h.invariant.length_lt h.vertices (mem_vertices.2 hu) hdfn
  have hdfncnt := h.invariant.dfncnt_lt h.vertices (mem_vertices.2 hu) hdfn
  obtain ⟨hcard, hcard'⟩ := card_vertices_le N
  exact h.represents.enter hu.index (by omega) (by omega) (by omega)

/-- A component is split off. -/
theorem Scanning.popUntil (h : Scanning edges gray u st₀ (edges u) st new)
    (hrep : g.Represents N st) (hvertices : OnlyVertices N st) (heq : st.dfn u = st.low u) :
    ∃ g', Globals.popUntil { g with sc := Signed.narrow 32 (g.sc + 1) } u = .ok g' ∧
      g'.Represents N (({ st with sc := st.sc + 1 } : State ℤ).split (new ++ [u]) st₀.s) := by
  have hexplored := h.split heq
  -- `u` is on the stack, below the vertices of its component
  have hs : st.s = new ++ u :: st₀.s := by
    rw [h.s, List.append_assoc]
    rfl
  have hnew : u ∉ new := fun hmem => (h.sorted.1 u hmem).ne rfl
  have hmem : ∀ v ∈ st.s, v ∈ vertices N := fun v hv => hvertices v (h.invariant.visited v hv)
  -- there are fewer than `N` vertices, so that no index leaves its array
  have hlength : st.s.length ≤ (vertices N).card := by
    rw [← List.toFinset_card_of_nodup h.invariant.nodup]
    exact Finset.card_le_card fun v hv => hmem v (List.mem_toFinset.1 hv)
  have hsc : st.sc + 1 ≤ (vertices N).card := hexplored.invariant.sc_le hvertices
  have hsz : st.sz (st.sc + 1) = 0 := h.invariant.numbering.size_succ
  obtain ⟨hcard, hcard'⟩ := card_vertices_le N
  have hsc' : Signed.narrow 32 (g.sc + 1) = (st.sc + 1 : ℕ) := by
    rw [hrep.sc, Signed.narrow_eq ⟨by omega, by omega⟩]
    rfl
  have hlen : st.s.length = new.length + (st₀.s.length + 1) := by rw [hs]; simp
  rw [hsc']
  have hrep' : ({ g with sc := (st.sc + 1 : ℕ) } : Globals).Represents N
      { st with sc := st.sc + 1 } := { hrep with sc := rfl }
  refine hrep'.popUntil hs hnew (fun v hv => ?_) (show st.s.length < _ by omega)
    (show st.sc + 1 < N by omega) (show st.sz (st.sc + 1) + _ < _ by omega)
  have hv' : v ∈ st.s := by
    rw [h.s]
    exact List.mem_append_left _ hv
  exact (mem_vertices.1 (hmem v hv')).index

/-- The loop over the edges, if the calls are correct. -/
theorem Scanning.foldlM {call : Globals → ℤ → Except Fault Globals}
    (hcall : ∀ g st v, st.unvisited N ≤ fuel → IsVertex N v → st.dfn v = 0 →
      Ready N edges (u :: gray) g st → (∀ w ∈ u :: gray, Reaches edges w v) →
      ∃ g' st' new, call g v = .ok g' ∧ g'.Represents N st' ∧
        Explored edges (u :: gray) v st st' new)
    (hedges : EdgesInRange N edges) (hu : IsVertex N u) (hfuel : st₀.unvisited N ≤ fuel + 1)
    (hgray : ∀ v ∈ gray, Reaches edges v u) {rest : List ℤ}
    (h : Scanning edges gray u st₀ seen st new) (hrep : g.Represents N st)
    (hvertices : OnlyVertices N st) (hrest : edges u = seen ++ rest) :
    ∃ g' st' new', rest.foldlM (visitEdge call u) g = .ok g' ∧ g'.Represents N st' ∧
      OnlyVertices N st' ∧ Scanning edges gray u st₀ (edges u) st' new' := by
  induction rest generalizing seen g st new with
  | nil =>
    rw [List.append_nil] at hrest
    exact ⟨g, st, new, rfl, hrep, hvertices, hrest ▸ h⟩
  | cons v rest ih =>
    have hedge : v ∈ edges u := hrest ▸ List.mem_append_right _ List.mem_cons_self
    have hv := hedges u hu v hedge
    have hnext : edges u = (seen ++ [v]) ++ rest := by rw [hrest, List.append_assoc]; rfl
    have hdfn := hrep.dfn.read hv.index.1 hv.index.2
    rw [List.foldlM_cons, visitEdge, hdfn, ok_bind]
    by_cases hzero : st.dfn v = 0
    · -- the vertex is visited in a call
      have hlt := h.toExtends.unvisited_lt hu h.unvisited h.visited
      have hreach : ∀ w ∈ u :: gray, Reaches edges w v := fun w hw => by
        rcases List.mem_cons.1 hw with rfl | hw
        · exact .single hedge
        · exact (hgray w hw).tail hedge
      obtain ⟨g₁, st₁, new₁, hrun, hrep₁, hexplored⟩ :=
        hcall g st v (by omega) hv hzero ⟨hrep, h.invariant, hvertices⟩ hreach
      have hvertices₁ := hvertices.extends hedges hv hexplored.toExtends
      obtain ⟨g₂, hlower, hrep₂⟩ := hrep₁.lower hu.index (st₁.low v)
      rw [if_pos (Nat.cast_eq_zero.2 hzero), hrun, ok_bind,
        hrep₁.low.read hv.index.1 hv.index.2, ok_bind, hlower, ok_bind]
      exact ih (h.call hedge hzero hexplored) hrep₂ hvertices₁ hnext
    · rw [if_neg (mt Nat.cast_eq_zero.1 hzero), hrep.inStack.read hv.index.1 hv.index.2, ok_bind]
      by_cases hs : v ∈ st.s
      · obtain ⟨g₁, hlower, hrep₁⟩ := hrep.lower hu.index (st.dfn v)
        rw [(h.invariant.inStack v).2 hs, if_pos (by decide), hlower, ok_bind]
        exact ih (h.inStack hedge hs) hrep₁ hvertices hnext
      · have hout : st.inStack v = false :=
          Bool.eq_false_iff.2 (mt (h.invariant.inStack v).1 hs)
        rw [hout, if_neg (by decide), ok_bind]
        exact ih (h.settled hzero hs) hrep hvertices hnext

/-- A call for a vertex that has not been visited. -/
theorem tarjan_explored (hedges : EdgesInRange N edges) (hfuel : st.unvisited N ≤ fuel)
    (hu : IsVertex N u) (hdfn : st.dfn u = 0) (h : Ready N edges gray g st)
    (hgray : ∀ v ∈ gray, Reaches edges v u) :
    ∃ g' st' new, tarjan edges fuel g u = .ok g' ∧ g'.Represents N st' ∧
      Explored edges gray u st st' new := by
  induction fuel generalizing g st u gray with
  -- an unvisited vertex counts, so that there is fuel for it
  | zero =>
    have hempty := Finset.card_eq_zero.1 (Nat.le_zero.1 hfuel)
    have hmem : u ∈ (vertices N).filter fun v => st.dfn v = 0 :=
      Finset.mem_filter.2 ⟨mem_vertices.2 hu, hdfn⟩
    exact absurd (hempty ▸ hmem) (Finset.notMem_empty u)
  | succ fuel ih =>
    -- `u` is entered, and its edges are scanned
    obtain ⟨g₀, henter, hrep₀⟩ := h.enter hu hdfn
    have hscan₀ := h.invariant.enter hdfn hgray
    obtain ⟨g₁, st₁, new, hloop, hrep₁, hvertices₁, hscan⟩ := hscan₀.foldlM
      (fun g st v hfuel hv hzero h hgray => ih hfuel hv hzero h hgray) hedges hu hfuel hgray hrep₀
      (h.vertices.extends hedges hu hscan₀.toExtends) (List.nil_append _).symm
    rw [tarjan, henter, ok_bind, hloop, ok_bind, hrep₁.dfn.read hu.index.1 hu.index.2, ok_bind,
      hrep₁.low.read hu.index.1 hu.index.2, ok_bind]
    -- `u` is the first vertex of its component, or stays on the stack
    by_cases heq : st₁.dfn u = st₁.low u
    · rw [if_pos (congrArg Nat.cast heq)]
      obtain ⟨g₂, hpop, hrep₂⟩ := hscan.popUntil hrep₁ hvertices₁ heq
      exact ⟨g₂, _, [], hpop, hrep₂, hscan.split heq⟩
    · rw [if_neg (mt Nat.cast_inj.1 heq)]
      exact ⟨g₁, st₁, new ++ [u], rfl, hrep₁, hscan.keep heq⟩

/-! ## All calls -/

/-- Between the calls, `s` is empty, -/
theorem Invariant.s_eq_nil (h : Invariant edges [] st) : st.s = [] :=
  List.eq_nil_iff_forall_not_mem.2 fun v hv => by
    obtain ⟨w, hw, -⟩ := h.back v hv
    exact absurd hw List.not_mem_nil

/-- so that all visited vertices have a component, -/
theorem Invariant.settled_eq (h : Invariant edges [] st) : st.settled = {v | st.dfn v ≠ 0} := by
  ext v
  show st.dfn v ≠ 0 ∧ v ∉ st.s ↔ st.dfn v ≠ 0
  rw [h.s_eq_nil, and_iff_left List.not_mem_nil]

/-- and what they reach has been visited. -/
theorem Invariant.closed (h : Invariant edges [] st) (hu : st.dfn u ≠ 0)
    (hreach : Reaches edges u v) : st.dfn v ≠ 0 := by
  have hclosed := h.numbering.closed
  rw [h.settled_eq] at hclosed
  exact hclosed.reaches hu hreach

/-- `tarjan` has been called for `roots`, and has returned. -/
structure Complete (N : ℕ) (edges : ℤ → List ℤ) (roots : List ℤ) (g : Globals) (st : State ℤ) :
    Prop extends Ready N edges [] g st where
  visited : ∀ v, st.dfn v ≠ 0 ↔ ∃ u ∈ roots, Reaches edges u v

/-- Before the first call. -/
theorem Complete.create (hN : 0 < N) :
    Complete N edges [] (Globals.create N) (State.create ℤ) := by
  refine ⟨⟨Globals.create_represents hN, ?_, fun v hv => absurd rfl hv⟩,
    fun v => iff_of_false (not_not.2 rfl) nofun⟩
  refine ⟨fun _ => le_rfl, fun k hpos hle => absurd (hpos.trans hle) (Nat.not_succ_le_zero 0),
    nofun, .nil, fun _ => iff_of_false nofun nofun, nofun, fun v hv => absurd rfl hv, nofun, nofun,
    ?_⟩
  have hsettled : (State.create ℤ).settled = ∅ := Set.eq_empty_of_forall_notMem fun v hv => hv.1 rfl
  rw [hsettled]
  exact .empty _

/-- The components of what has been visited. -/
theorem Complete.numbering (h : Complete N edges roots g st) :
    Numbering (Edge edges) {v | st.dfn v ≠ 0} st.scc st.sc st.sz :=
  h.invariant.settled_eq ▸ h.invariant.numbering

/-- The vertex has been visited. -/
theorem Complete.skip (h : Complete N edges roots g st) (hu : st.dfn u ≠ 0) :
    Complete N edges (roots ++ [u]) g st := by
  refine ⟨h.toReady, fun v => (h.visited v).trans ⟨?_, ?_⟩⟩
  · rintro ⟨w, hw, hreach⟩
    exact ⟨w, List.mem_append_left _ hw, hreach⟩
  · rintro ⟨w, hw, hreach⟩
    rcases List.mem_append.1 hw with hw | hw
    · exact ⟨w, hw, hreach⟩
    · obtain rfl := List.mem_singleton.1 hw
      exact (h.visited v).1 (h.invariant.closed hu hreach)

/-- One more call. -/
theorem Complete.tarjan (h : Complete N edges roots g st) (hedges : EdgesInRange N edges)
    (hu : IsVertex N u) (hdfn : st.dfn u = 0) :
    ∃ g' st', tarjan edges (N - 1) g u = .ok g' ∧ Complete N edges (roots ++ [u]) g' st' := by
  obtain ⟨g', st', new, hrun, hrep, hexplored⟩ :=
    tarjan_explored hedges st.unvisited_le hu hdfn h.toReady nofun
  refine ⟨g', st', hrun, ⟨hrep, hexplored.invariant,
    h.vertices.extends hedges hu hexplored.toExtends⟩, fun v => ⟨fun hv => ?_, ?_⟩⟩
  · by_cases hold : st.dfn v = 0
    · exact ⟨u, by simp, hexplored.reaches v hold hv⟩
    · obtain ⟨w, hw, hreach⟩ := (h.visited v).1 hold
      exact ⟨w, List.mem_append_left _ hw, hreach⟩
  · rintro ⟨w, hw, hreach⟩
    refine hexplored.invariant.closed ?_ hreach
    rcases List.mem_append.1 hw with hw | hw
    · have hvisited := (h.visited w).2 ⟨w, hw, .refl⟩
      exact (hexplored.dfn w hvisited).trans_ne hvisited
    · obtain rfl := List.mem_singleton.1 hw
      exact hexplored.visited

/-- Calls for the vertices of a list, where visited ones are left out. -/
theorem Complete.tarjanAll (h : Complete N edges roots g st) (hedges : EdgesInRange N edges)
    {rest : List ℤ} (hrest : ∀ u ∈ rest, IsVertex N u) :
    ∃ g' st', tarjanAll edges (N - 1) g rest = .ok g' ∧
      Complete N edges (roots ++ rest) g' st' := by
  induction rest generalizing roots g st with
  | nil => exact ⟨g, st, rfl, by rwa [List.append_nil]⟩
  | cons u rest ih =>
    have hu := hrest u List.mem_cons_self
    have hrest' : ∀ v ∈ rest, IsVertex N v := fun v hv => hrest v (List.mem_cons_of_mem u hv)
    rw [Tarjan.tarjanAll, List.foldlM_cons, List.append_cons,
      h.represents.dfn.read hu.index.1 hu.index.2, ok_bind]
    by_cases hdfn : st.dfn u = 0
    · obtain ⟨g₁, st₁, hrun, h₁⟩ := h.tarjan hedges hu hdfn
      rw [if_pos (Nat.cast_eq_zero.2 hdfn), hrun, ok_bind]
      exact ih h₁ hrest'
    · rw [if_neg (mt Nat.cast_eq_zero.1 hdfn), ok_bind]
      exact ih (h.skip hdfn) hrest'

/-- All calls return. -/
theorem exists_complete (hN : 0 < N) (hedges : EdgesInRange N edges)
    (hroots : ∀ u ∈ roots, IsVertex N u) :
    ∃ g st, tarjanAll edges (N - 1) (.create N) roots = .ok g ∧ Complete N edges roots g st :=
  (Complete.create hN).tarjanAll hedges hroots

/-- The element of an array at an index inside the array. -/
def entry (a : List ℤ) (i : ℤ) : ℤ := a.getD i.toNat 0

/-- The entry of an array that stands for a function. -/
theorem entry_eq {a : List ℤ} {f : ℤ → ℤ} (h : HasValues a N f) (hv : 0 ≤ v ∧ v < N) :
    entry a v = f v := by
  obtain ⟨i, rfl⟩ := Int.eq_ofNat_of_zero_le hv.1
  rw [entry, Int.toNat_natCast, List.getD_eq_getElem?_getD, h.getElem i (by omega),
    Option.getD_some]

/-- What the entries of the arrays say about the vertices. -/
theorem Complete.entries (h : Complete N edges roots g st) (hv : IsVertex N v) :
    (entry g.dfn v ≠ 0 ↔ st.dfn v ≠ 0) ∧ entry g.scc v = st.scc v := by
  rw [entry_eq h.represents.dfn hv.index, entry_eq h.represents.scc hv.index, Nat.cast_ne_zero]
  exact ⟨Iff.rfl, rfl⟩

/-- The calls for the vertices of a list return, and leave none of the arrays. They visit what can
be reached, and the numbers that they give to the components say which vertices reach each other.
The depth of the recursion is at most the number of the vertices. -/
theorem tarjanAll_scc (N : ℕ) (edges : ℤ → List ℤ) (roots : List ℤ) (hN : 0 < N)
    (hedges : EdgesInRange N edges) (hroots : ∀ u ∈ roots, IsVertex N u) :
    ∃ g, tarjanAll edges (N - 1) (.create N) roots = .ok g ∧
      (∀ v, IsVertex N v → (entry g.dfn v ≠ 0 ↔ ∃ u ∈ roots, Reaches edges u v)) ∧
      (∀ v w, IsVertex N v → IsVertex N w → entry g.dfn v ≠ 0 → entry g.dfn w ≠ 0 →
        (entry g.scc v = entry g.scc w ↔ Reaches edges v w ∧ Reaches edges w v)) ∧
      ∀ c, 1 ≤ c ∧ c ≤ g.sc ↔ ∃ v, IsVertex N v ∧ entry g.dfn v ≠ 0 ∧ entry g.scc v = c := by
  obtain ⟨g, st, hrun, hcomplete⟩ := exists_complete hN hedges hroots
  have hnumbering := hcomplete.numbering
  have hsc : g.sc = st.sc := hcomplete.represents.sc
  refine ⟨g, hrun, fun v hv => ?_, fun v w hv hw hvisited hvisited' => ?_, fun c => ⟨?_, ?_⟩⟩
  · rw [(hcomplete.entries hv).1, hcomplete.visited]
  · -- both numbers are those of the numbering
    rw [(hcomplete.entries hv).1] at hvisited
    rw [(hcomplete.entries hw).1] at hvisited'
    rw [(hcomplete.entries hv).2, (hcomplete.entries hw).2, Nat.cast_inj]
    exact hnumbering.same v hvisited w hvisited'
  · -- every number up to `sc` has been given to a vertex
    rintro ⟨hpos, hle⟩
    obtain ⟨c, rfl⟩ := Int.eq_ofNat_of_zero_le (by omega : 0 ≤ c)
    obtain ⟨v, hv, heq⟩ := hnumbering.used c (by omega) (by omega)
    have hvertex := mem_vertices.1 (hcomplete.vertices v hv)
    exact ⟨v, hvertex, (hcomplete.entries hvertex).1.2 hv,
      (hcomplete.entries hvertex).2.trans (congrArg Nat.cast heq)⟩
  · rintro ⟨v, hv, hvisited, rfl⟩
    rw [(hcomplete.entries hv).1] at hvisited
    have hpos := hnumbering.pos v hvisited
    have hle := hnumbering.le v hvisited
    rw [(hcomplete.entries hv).2]
    omega

/-- The vertices `1`, `2` and `3` form a cycle, from which an edge leads to `4`. -/
def cycleAndTail (u : ℤ) : List ℤ :=
  if u = 1 then [2] else if u = 2 then [3, 4] else if u = 3 then [1] else [4]

/-- With `N = 5`, there are four vertices. -/
theorem isVertex_five_iff : IsVertex 5 v ↔ v = 1 ∨ v = 2 ∨ v = 3 ∨ v = 4 := by
  unfold IsVertex
  omega

/-- The edges of the cycle and its tail are in range. -/
theorem cycleAndTail_edges : EdgesInRange 5 cycleAndTail := by
  intro u hu v hv
  rw [isVertex_five_iff] at hu ⊢
  rcases hu with rfl | rfl | rfl | rfl <;> simp [cycleAndTail] at hv <;> omega

/-- The calls that begin in the middle of the cycle. -/
theorem tarjanAll_scc_cycle :
    ∃ g, tarjanAll cycleAndTail 4 (.create 5) [3, 4] = .ok g ∧ g.scc = [0, 2, 2, 2, 1] ∧
      (Reaches cycleAndTail 1 3 ∧ Reaches cycleAndTail 3 1) ∧
      ¬(Reaches cycleAndTail 1 4 ∧ Reaches cycleAndTail 4 1) := by
  have hroots : ∀ u ∈ [(3 : ℤ), 4], IsVertex 5 u := by
    intro u hu
    rw [isVertex_five_iff]
    simp at hu
    omega
  have hrun : tarjanAll cycleAndTail 4 (.create 5) [3, 4] = .ok ⟨[0, 2, 3, 1, 4], [0, 1, 1, 1, 4],
    4, [0, 3, 1, 2, 4], [0, 0, 0, 0, 0], 0, [0, 2, 2, 2, 1], 2, [0, 1, 3, 0, 0]⟩ := by decide
  obtain ⟨g, hg, -, hsame, -⟩ := tarjanAll_scc 5 cycleAndTail [3, 4] (by decide)
    cycleAndTail_edges hroots
  obtain rfl := Except.ok.inj (hrun.symm.trans hg)
  have hone : IsVertex 5 1 := isVertex_five_iff.2 (by decide)
  have hthree : IsVertex 5 3 := isVertex_five_iff.2 (by decide)
  have hfour : IsVertex 5 4 := isVertex_five_iff.2 (by decide)
  refine ⟨_, hrun, rfl, (hsame 1 3 hone hthree (by decide) (by decide)).1 rfl, ?_⟩
  rw [← hsame 1 4 hone hfour (by decide) (by decide)]
  decide

/-- The components are numbered in a reverse topological order, and `sz` is the number of the
vertices of a component. -/
theorem tarjanAll_order (N : ℕ) (edges : ℤ → List ℤ) (roots : List ℤ) (hN : 0 < N)
    (hedges : EdgesInRange N edges) (hroots : ∀ u ∈ roots, IsVertex N u) :
    ∃ g, tarjanAll edges (N - 1) (.create N) roots = .ok g ∧
      (∀ v w, IsVertex N v → entry g.dfn v ≠ 0 → Reaches edges v w →
        entry g.scc w ≤ entry g.scc v) ∧
      ∀ v, IsVertex N v → entry g.dfn v ≠ 0 →
        entry g.sz (entry g.scc v) = {w | Reaches edges v w ∧ Reaches edges w v}.ncard := by
  obtain ⟨g, st, hrun, hcomplete⟩ := exists_complete hN hedges hroots
  have hnumbering := hcomplete.numbering
  refine ⟨g, hrun, fun v w hv hvisited hreach => ?_, fun v hv hvisited => ?_⟩
  · have hw := hedges.reaches hv hreach
    rw [(hcomplete.entries hv).1] at hvisited
    rw [(hcomplete.entries hv).2, (hcomplete.entries hw).2, Nat.cast_le]
    exact hnumbering.number_le hvisited hreach
  · rw [(hcomplete.entries hv).1] at hvisited
    have hle := hnumbering.le v hvisited
    have hsc := hcomplete.invariant.sc_le hcomplete.vertices
    have hcard := (card_vertices_le N).1
    rw [(hcomplete.entries hv).2, entry_eq hcomplete.represents.sz (by omega), Int.toNat_natCast]
    exact congrArg Nat.cast (hnumbering.size_number hvisited)

/-- In the cycle, three vertices reach each other. -/
theorem tarjanAll_order_cycle :
    ∃ g, tarjanAll cycleAndTail 4 (.create 5) [1] = .ok g ∧ g.sz = [0, 1, 3, 0, 0] ∧
      {w | Reaches cycleAndTail 2 w ∧ Reaches cycleAndTail w 2}.ncard = 3 := by
  have hrun : tarjanAll cycleAndTail 4 (.create 5) [1] = .ok ⟨[0, 1, 2, 3, 4], [0, 1, 1, 1, 4],
    4, [0, 1, 2, 3, 4], [0, 0, 0, 0, 0], 0, [0, 2, 2, 2, 1], 2, [0, 1, 3, 0, 0]⟩ := by decide
  obtain ⟨g, hg, -, hsize⟩ := tarjanAll_order 5 cycleAndTail [1] (by decide) cycleAndTail_edges
    (List.forall_mem_singleton.2 (isVertex_five_iff.2 (by decide)))
  obtain rfl := Except.ok.inj (hrun.symm.trans hg)
  have htwo := hsize 2 (isVertex_five_iff.2 (by decide)) (by decide)
  exact ⟨_, hrun, rfl, Nat.cast_inj.1 (htwo.symm.trans rfl)⟩

end CppLearn.Tarjan

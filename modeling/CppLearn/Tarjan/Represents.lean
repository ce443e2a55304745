import CppLearn.Tarjan.Defs
import CppLearn.Tarjan.State
import Mathlib.Data.Nat.Cast.Order.Ring

/-!
# The arrays of `tarjan`

`Globals.Represents` says that the global variables stand for a state whose vertices are integers.
As long as vertices are less than `N`, and `s`, the components and their sizes stay below the bounds
that are named here, each part of `tarjan` does to the arrays what the state says, and leaves none
of them.
-/

namespace CppLearn.Tarjan

open BoundedLoop CheckedVector Signed

namespace Globals

variable {N : ℕ} {g g' : Globals} {st : State ℤ} {u v x : ℤ} {new s : List ℤ}

/-- An entry of `in_stack`. -/
def encode (b : Bool) : ℤ := if b then 1 else 0

/-- The position `0` of `s` is not used, and `tp` is the position of the number put last. -/
structure Represents (N : ℕ) (g : Globals) (st : State ℤ) : Prop where
  dfn : HasValues g.dfn N fun v => st.dfn v
  low : HasValues g.low N fun v => st.low v
  dfncnt : g.dfncnt = st.dfncnt
  s_length : g.s.length = N
  s : ∃ x rest, g.s = x :: st.s.reverse ++ rest
  tp : g.tp = st.s.length
  inStack : HasValues g.inStack N fun v => encode (st.inStack v)
  scc : HasValues g.scc N fun v => st.scc v
  sc : g.sc = st.sc
  sz : HasValues g.sz N fun c => st.sz c.toNat

/-- The variables before the first call. -/
theorem create_represents (hN : 0 < N) : (create N).Represents N (.create ℤ) := by
  obtain ⟨n, rfl⟩ := Nat.exists_eq_succ_of_ne_zero hN.ne'
  exact ⟨hasValues_replicate _ _, hasValues_replicate _ _, rfl, List.length_replicate,
    ⟨0, List.replicate n 0, rfl⟩, rfl, hasValues_replicate _ _, hasValues_replicate _ _, rfl,
    hasValues_replicate _ _⟩

/-- A write to the position above the used part of `s`. -/
theorem Represents.write_s (h : Represents N g st) (hs : st.s.length + 1 < N) (u : ℤ) :
    ∃ s, write g.s ((st.s.length + 1 : ℕ) : ℤ) u = .ok s ∧ s.length = N ∧
      ∃ x rest, s = x :: (u :: st.s).reverse ++ rest := by
  obtain ⟨x, rest, heq⟩ := h.s
  refine ⟨g.s.set (st.s.length + 1) u, write_ok (by rw [h.s_length]; exact hs) u,
    (List.length_set ..).trans h.s_length, x, ?_⟩
  have hlen := h.s_length
  rw [heq] at hlen ⊢
  cases rest with
  | nil =>
    simp only [List.append_nil, List.length_cons, List.length_reverse] at hlen
    omega
  | cons y rest =>
    refine ⟨rest, ?_⟩
    simp

/-- The read of the first vertex of `s`. -/
theorem Represents.read_s (h : Represents N g st) (hs : st.s = v :: s) :
    read g.s g.tp = .ok v := by
  obtain ⟨x, rest, heq⟩ := h.s
  rw [h.tp, heq, hs]
  have hlt : (v :: s).length < (x :: (v :: s).reverse ++ rest).length := by simp
  rw [read_eq hlt]
  simp

theorem Represents.enter (h : Represents N g st) (hu : 0 ≤ u ∧ u < N) (hs : st.s.length + 1 < N)
    (hint : st.s.length + 1 < 2 ^ 31) (hcnt : st.dfncnt + 1 < 2 ^ 31) :
    ∃ g', g.enter u = .ok g' ∧ Represents N g' (st.enter u) := by
  have hnumber : narrow 32 (g.dfncnt + 1) = (st.dfncnt + 1 : ℕ) := by
    rw [h.dfncnt, narrow_eq ⟨by omega, by omega⟩]
    rfl
  have htp : narrow 32 (g.tp + 1) = (st.s.length + 1 : ℕ) := by
    rw [h.tp, narrow_eq ⟨by omega, by omega⟩]
    rfl
  obtain ⟨dfn, hdfn, hdfn'⟩ := h.dfn.write_comp Nat.cast hu.1 hu.2 (st.dfncnt + 1)
  obtain ⟨low, hlow, hlow'⟩ := h.low.write_comp Nat.cast hu.1 hu.2 (st.dfncnt + 1)
  obtain ⟨s, hs', hlen, hprefix⟩ := h.write_s hs u
  obtain ⟨inStack, hin, hin'⟩ := h.inStack.write_comp encode hu.1 hu.2 true
  refine ⟨⟨dfn, low, (st.dfncnt + 1 : ℕ), s, inStack, (st.s.length + 1 : ℕ), g.scc, g.sc, g.sz⟩,
    ?_, hdfn', hlow', rfl, hlen, hprefix, rfl, hin', h.scc, h.sc, h.sz⟩
  rw [Globals.enter, hnumber, htp, hdfn, ok_bind, hlow, ok_bind]
  dsimp only
  rw [hs', ok_bind]
  exact (congrArg (Except.bind · _) hin).trans rfl

theorem Represents.lower (h : Represents N g st) (hu : 0 ≤ u ∧ u < N) (x : ℕ) :
    ∃ g', g.lower u x = .ok g' ∧ Represents N g' (st.lower u x) := by
  obtain ⟨low, hlow, hlow'⟩ := h.low.write_comp Nat.cast hu.1 hu.2 (min (st.low u) x)
  refine ⟨{ g with low }, ?_, { h with low := hlow' }⟩
  rw [Globals.lower, h.low.read hu.1 hu.2, ok_bind, ← Nat.cast_min, hlow]
  rfl

/-- The first vertex of `s` is removed. -/
theorem Represents.pop (h : Represents N g st) (hs : st.s = v :: s) (hv : 0 ≤ v ∧ v < N)
    (hint : st.s.length < 2 ^ 31) (hsc : st.sc < N) (hsz : st.sz st.sc + 1 < 2 ^ 31) :
    ∃ g', g.pop = .ok g' ∧ Represents N g' (st.pop v s) := by
  have hsc' : (0 : ℤ) ≤ st.sc ∧ (st.sc : ℤ) < N := by omega
  have hsize : narrow 32 ((st.sz st.sc : ℤ) + 1) = (st.sz st.sc + 1 : ℕ) := by
    rw [narrow_eq ⟨by omega, by omega⟩]
    rfl
  have hlength : st.s.length = s.length + 1 := by rw [hs, List.length_cons]
  have htp : narrow 32 (g.tp - 1) = s.length := by
    rw [h.tp, narrow_eq ⟨by omega, by omega⟩]
    omega
  -- one entry of each of the three arrays is written
  obtain ⟨scc, hscc, hscc'⟩ := h.scc.write_comp Nat.cast hv.1 hv.2 st.sc
  obtain ⟨sz, hsz, hsz'⟩ := h.sz.write hsc'.1 hsc'.2 ((st.sz st.sc + 1 : ℕ) : ℤ)
  obtain ⟨inStack, hin, hin'⟩ := h.inStack.write_comp encode hv.1 hv.2 false
  have hread : read g.sz st.sc = .ok (st.sz st.sc : ℤ) := h.sz.read hsc'.1 hsc'.2
  obtain ⟨x, rest, heq⟩ := h.s
  refine ⟨⟨g.dfn, g.low, g.dfncnt, g.s, inStack, s.length, scc, g.sc, sz⟩, ?_, h.dfn, h.low,
    h.dfncnt, h.s_length, ⟨x, v :: rest, ?_⟩, rfl, hin', hscc', h.sc, hsz'.congr fun c hc _ => ?_⟩
  · rw [Globals.pop, h.read_s hs, ok_bind, h.sc, hscc, ok_bind, hread, ok_bind, hsize, hsz, ok_bind,
      htp]
    exact (congrArg (Except.bind · _) hin).trans rfl
  · rw [heq, hs]
    simp [State.pop]
  · obtain ⟨c, rfl⟩ := Int.eq_ofNat_of_zero_le hc
    simp [State.pop, Function.update_apply]

theorem Represents.popUntil_loop {fuel : ℕ} (h : Represents N g st) (hs : st.s = new ++ u :: s)
    (hnew : u ∉ new) (hvertex : ∀ v ∈ new ++ [u], 0 ≤ v ∧ v < N) (hint : st.s.length < 2 ^ 31)
    (hsc : st.sc < N) (hsz : st.sz st.sc + (new.length + 1) < 2 ^ 31) (hfuel : new.length < fuel) :
    ∃ g₁ g', whileLoop (fun _ => .diverged) (aboveVertex u) Globals.pop fuel g = .ok g₁ ∧
      g₁.pop = .ok g' ∧ Represents N g' (st.split (new ++ [u]) s) := by
  induction new generalizing g st fuel with
  -- `u` is at the top of the stack
  | nil =>
    obtain ⟨fuel, rfl⟩ := Nat.exists_eq_add_of_le' hfuel
    have hexit : aboveVertex u g = .ok false := by
      rw [aboveVertex, h.read_s hs, ok_bind, decide_eq_false (not_not.2 rfl)]
    obtain ⟨g', hpop, h'⟩ := h.pop hs (hvertex u (by simp)) hint hsc hsz
    refine ⟨g, g', iterate_exit ?_ fuel, hpop, ?_⟩
    · simp only [whileStep, hexit]
    · rwa [State.pop_eq_split] at h'
  -- the vertex at the top is above `u`, and is popped
  | cons v new ih =>
    obtain ⟨hne, hnew⟩ := not_or.1 (List.mem_cons.not.1 hnew)
    have hcond : aboveVertex u g = .ok true := by
      rw [aboveVertex, h.read_s hs, ok_bind, decide_eq_true (Ne.symm hne)]
    rw [List.length_cons] at hsz hfuel
    obtain ⟨g₁, hbody, h₁⟩ := h.pop hs (hvertex v (by simp)) hint hsc (by omega)
    have hsize : (st.pop v (new ++ u :: s)).sz st.sc = st.sz st.sc + 1 := Function.update_self ..
    have hlength : (new ++ u :: s).length < 2 ^ 31 := by
      rw [hs, List.cons_append, List.length_cons] at hint
      omega
    obtain ⟨g₂, g', hloop, hpop, h'⟩ := ih h₁ rfl hnew
      (fun w hw => hvertex w (List.mem_cons_of_mem v hw)) hlength hsc
      (hsize ▸ by omega) (Nat.lt_sub_of_add_lt hfuel)
    rw [State.split_pop] at h'
    refine ⟨g₂, g', ?_, hpop, h'⟩
    rw [whileLoop_of_true hcond (by omega), hbody]
    exact hloop

/-- The vertices of a component are removed, from the first vertex of `s` to `u`. -/
theorem Represents.popUntil (h : Represents N g st) (hs : st.s = new ++ u :: s) (hnew : u ∉ new)
    (hvertex : ∀ v ∈ new ++ [u], 0 ≤ v ∧ v < N) (hint : st.s.length < 2 ^ 31) (hsc : st.sc < N)
    (hsz : st.sz st.sc + (new.length + 1) < 2 ^ 31) :
    ∃ g', g.popUntil u = .ok g' ∧ Represents N g' (st.split (new ++ [u]) s) := by
  have hlen : st.s.length = new.length + (s.length + 1) := by rw [hs]; simp
  have hfuel : new.length < g.tp.toNat + 2 := by
    rw [h.tp]
    omega
  obtain ⟨g₁, g', hloop, hpop, h'⟩ := h.popUntil_loop hs hnew hvertex hint hsc hsz hfuel
  exact ⟨g', by rw [Globals.popUntil, hloop, ok_bind, hpop], h'⟩

end Globals

end CppLearn.Tarjan

import Mathlib.Logic.Function.Basic
import Mathlib.Data.List.Basic

/-!
# An abstract state for `tarjan`

What the global variables stand for. The arrays are functions of the vertices, or of the components,
and the used part of `s` is a list that begins with its last number. The vertices can be of any
type, and there is no limit on their number.
-/

namespace CppLearn.Tarjan

/-- What the global variables stand for. -/
structure State (V : Type*) where
  dfn : V → ℕ
  low : V → ℕ
  dfncnt : ℕ
  s : List V
  inStack : V → Bool
  scc : V → ℕ
  sc : ℕ
  sz : ℕ → ℕ

namespace State

variable {V : Type*} [DecidableEq V]

/-- Before the first call. -/
def create (V : Type*) : State V where
  dfn _ := 0
  low _ := 0
  dfncnt := 0
  s := []
  inStack _ := false
  scc _ := 0
  sc := 0
  sz _ := 0

/-- `u` gets the next number, and is put on `s`. -/
def enter (st : State V) (u : V) : State V :=
  { st with
    dfncnt := st.dfncnt + 1
    dfn := Function.update st.dfn u (st.dfncnt + 1)
    low := Function.update st.low u (st.dfncnt + 1)
    s := u :: st.s
    inStack := Function.update st.inStack u true }

/-- `low` of `u` gets at most `x`. -/
def lower (st : State V) (u : V) (x : ℕ) : State V :=
  { st with low := Function.update st.low u (min (st.low u) x) }

/-- `v`, the first vertex of `s`, is put into the component `sc`. -/
def pop (st : State V) (v : V) (s : List V) : State V :=
  { st with
    s
    scc := Function.update st.scc v st.sc
    sz := Function.update st.sz st.sc (st.sz st.sc + 1)
    inStack := Function.update st.inStack v false }

/-- The vertices of `component` are removed from the top of `s`. -/
def split (st : State V) (component s : List V) : State V :=
  { st with
    s
    scc := fun v => if v ∈ component then st.sc else st.scc v
    sz := Function.update st.sz st.sc (st.sz st.sc + component.length)
    inStack := fun v => if v ∈ component then false else st.inStack v }

theorem pop_eq_split (st : State V) (v : V) (s : List V) : st.pop v s = st.split [v] s := by
  simp only [pop, split, List.mem_singleton, List.length_singleton, mk.injEq, true_and, and_true]
  exact ⟨funext fun x => Function.update_apply .., funext fun x => Function.update_apply ..⟩

/-- To split off a component is to remove its vertices one after the other. -/
theorem split_pop (st : State V) (v : V) (component s s' : List V) :
    (st.pop v s).split component s' = st.split (v :: component) s' := by
  simp only [pop, split, List.mem_cons, List.length_cons, Function.update_self,
    Function.update_idem, mk.injEq, true_and]
  refine ⟨?_, ?_, ?_⟩
  · funext x
    by_cases hx : x ∈ component <;> by_cases hv : x = v <;> simp [hx, hv]
  · funext x
    by_cases hx : x ∈ component <;> by_cases hv : x = v <;> simp [hx, hv]
  · rw [Nat.add_assoc, Nat.add_comm 1]

end State

end CppLearn.Tarjan

import CppLearn.Graph.BellmanFord
import CppLearn.Lib.AllPairs
import CppLearn.Lib.Signed

/-!
# Floyd's algorithm

`Floyd` keeps a matrix of distances. The constructor enters the edges of a graph, `operator()`
admits one vertex after the other as an inner vertex of paths. The matrix is updated in place: while
vertex `k` is admitted, the entries of row `k` and column `k` are read and written. The entries are
of type `int64_t`, and sums of two of them are converted to it.

Every entry is the weight of a walk at all times, and entries only get smaller. Hence it does not
matter for the upper bounds whether an entry is read before or after it is written.

`Floyd.create` and `Floyd.run` are the constructor and `operator()`. A matrix is read as a complete
graph (`Floyd.Complete`), and its entries have to be small enough for the sums (`Floyd.NoOverflow`).
Then it holds the weights of shortest paths after one call, and does not change in another one
(`Floyd.run_shortest`).
-/

namespace CppLearn

open ShortestPath Signed CppLearn.Graph

/-- The field `answer` of a `Floyd`. -/
structure Floyd (n : ℕ) where
  answer : Fin n → Fin n → ℤ

namespace Floyd

variable {n : ℕ}

/-- `answer[u][v] = x`. -/
def set (a : Fin n → Fin n → ℤ) (u v : Fin n) (x : ℤ) : Fin n → Fin n → ℤ :=
  Function.update a u (Function.update (a u) v x)

/-- The constructor. -/
def create (g : Graph n) : Floyd n :=
  let answer : Fin n → Fin n → ℤ := fun _ _ => int32Max
  -- an edge replaces the ones before it between the same vertices
  let answer := (List.finRange n).foldl
    (fun a u => (g.graph u).foldl (fun a p => set a u p.1 p.2) a) answer
  ⟨(List.finRange n).foldl (fun a u => set a u u 0) answer⟩

/-- The body of the innermost loop. -/
def relaxPair (k u : Fin n) (a : Fin n → Fin n → ℤ) (v : Fin n) : Fin n → Fin n → ℤ :=
  set a u v (min (a u v) (narrow 64 (a u k + a k v)))

/-- The loop over `v`. -/
def relaxRow (k : Fin n) (a : Fin n → Fin n → ℤ) (u : Fin n) : Fin n → Fin n → ℤ :=
  (List.finRange n).foldl (relaxPair k u) a

/-- The loop over `u`. -/
def relaxThrough (a : Fin n → Fin n → ℤ) (k : Fin n) : Fin n → Fin n → ℤ :=
  (List.finRange n).foldl (relaxRow k) a

/-- `operator()`. -/
def run (f : Floyd n) : Floyd n := ⟨(List.finRange n).foldl relaxThrough f.answer⟩

/-! ## The complete graph -/

/-- The complete graph whose weights are the entries of a matrix. -/
def Complete (a : Fin n → Fin n → ℤ) (u v : Fin n) (w : ℤ) : Prop := w = a u v

/-- The entries are small enough: sums of two entries are values of an `int64_t`, and the weights of
simple paths are not below the range of the type. -/
structure NoOverflow (a : Fin n → Fin n → ℤ) : Prop where
  pair : ∀ u k v, Fits 64 (a u k + a k v)
  path : ∀ u S v d, SimplePath (Complete a) u S v d → -2 ^ 64 ≤ 2 * d

variable {a₀ a a' : Fin n → Fin n → ℤ} {u v k : Fin n}

/-- The entry that is assigned, -/
theorem set_self (a : Fin n → Fin n → ℤ) (u v : Fin n) (x : ℤ) : set a u v x u v = x := by
  simp [set]

/-- and the other ones. -/
theorem set_of_ne (a : Fin n → Fin n → ℤ) {u v y z : Fin n} (x : ℤ) (h : ¬ (y = u ∧ z = v)) :
    set a u v x y z = a y z := by
  unfold set
  by_cases hy : y = u
  · subst hy
    rw [Function.update_self, Function.update_of_ne fun hz => h ⟨rfl, hz⟩]
  · rw [Function.update_of_ne hy]

/-- Assigning the old value changes nothing. -/
theorem set_eq_self (a : Fin n → Fin n → ℤ) (u v : Fin n) : set a u v (a u v) = a := by
  simp [set]

/-! ## The loops -/

/-- The entries are weights of walks, and not larger than at first. -/
structure Between (a₀ a : Fin n → Fin n → ℤ) : Prop where
  walk : ∀ u v, Walk (Complete a₀) u v (a u v)
  le : ∀ u v, a u v ≤ a₀ u v

/-- The matrix at first. -/
theorem Between.refl (a : Fin n → Fin n → ℤ) : Between a a := by
  refine ⟨fun u v => ?_, fun u v => le_rfl⟩
  simpa using (Walk.refl u).snoc (rfl : Complete a u v (a u v))

/-- The sums that are computed do not overflow. -/
theorem Between.narrow_eq (h : Between a₀ a) (hsums : NoOverflow a₀)
    (hcycle : ∀ u, ¬ NegativeCycle (Complete a₀) u) (u k v : Fin n) :
    narrow 64 (a u k + a k v) = a u k + a k v := by
  refine Signed.narrow_eq ⟨?_, ?_⟩
  · -- a sum is the weight of a walk, and there is a simple path that is not longer
    obtain ⟨S, d, hpath, hle⟩ := ((h.walk u k).trans (h.walk k v)).exists_simplePath (hcycle u)
    have := hsums.path u S v d hpath
    omega
  · have hpair := (hsums.pair u k v).2
    have := h.le u k
    have := h.le k v
    omega

/-- What a part of the loops makes of a matrix. -/
structure Lowers (a₀ a a' : Fin n → Fin n → ℤ) : Prop where
  between : Between a₀ a'
  le : ∀ u v, a' u v ≤ a u v

/-- Two steps that only lower entries. -/
theorem Lowers.trans {a'' : Fin n → Fin n → ℤ} (h : Lowers a₀ a a') (h' : Lowers a₀ a' a'') :
    Lowers a₀ a a'' :=
  ⟨h'.between, fun u v => (h'.le u v).trans (h.le u v)⟩

section Loops

variable (hsums : NoOverflow a₀) (hcycle : ∀ u, ¬ NegativeCycle (Complete a₀) u)
include hsums hcycle

/-- One entry is compared with the way over `k`, -/
theorem relaxPair_spec (h : Between a₀ a) (k u v : Fin n) :
    Lowers a₀ a (relaxPair k u a v) ∧ relaxPair k u a v u v ≤ a u k + a k v := by
  have heq : relaxPair k u a v = set a u v (min (a u v) (a u k + a k v)) := by
    rw [relaxPair, h.narrow_eq hsums hcycle]
  have hle (y z : Fin n) : relaxPair k u a v y z ≤ a y z := by
    rw [heq]
    by_cases hyz : y = u ∧ z = v
    · rw [hyz.1, hyz.2, set_self]
      exact min_le_left _ _
    · rw [set_of_ne _ _ hyz]
  refine ⟨⟨⟨fun y z => ?_, fun y z => (hle y z).trans (h.le y z)⟩, hle⟩, ?_⟩
  · rw [heq]
    by_cases hyz : y = u ∧ z = v
    · rw [hyz.1, hyz.2, set_self]
      -- the entry stays, or becomes the weight of a walk through `k`
      rcases min_choice (a u v) (a u k + a k v) with hmin | hmin
      · rw [hmin]
        exact h.walk u v
      · rw [hmin]
        exact (h.walk u k).trans (h.walk k v)
    · rw [set_of_ne _ _ hyz]
      exact h.walk y z
  · rw [heq, set_self]
    exact min_le_right _ _

/-- then those of a row, -/
theorem foldl_relaxPair_spec (h : Between a₀ a) (k u : Fin n) (vs : List (Fin n)) :
    Lowers a₀ a (vs.foldl (relaxPair k u) a) ∧
      ∀ v ∈ vs, vs.foldl (relaxPair k u) a u v ≤ a u k + a k v := by
  induction vs generalizing a with
  | nil => exact ⟨⟨h, fun _ _ => le_rfl⟩, by simp⟩
  | cons v vs ih =>
    obtain ⟨hfirst, hv⟩ := relaxPair_spec hsums hcycle h k u v
    obtain ⟨hrest, hvs⟩ := ih hfirst.between
    refine ⟨hfirst.trans hrest, fun x hx => ?_⟩
    rw [List.foldl_cons]
    rcases List.mem_cons.1 hx with rfl | hmem
    · exact (hrest.le u x).trans hv
    · exact (hvs x hmem).trans (add_le_add (hfirst.le u k) (hfirst.le k x))

/-- then all of them. -/
theorem foldl_relaxRow_spec (h : Between a₀ a) (k : Fin n) (us : List (Fin n)) :
    Lowers a₀ a (us.foldl (relaxRow k) a) ∧
      ∀ u ∈ us, ∀ v, us.foldl (relaxRow k) a u v ≤ a u k + a k v := by
  induction us generalizing a with
  | nil => exact ⟨⟨h, fun _ _ => le_rfl⟩, by simp⟩
  | cons u us ih =>
    obtain ⟨hfirst, hu⟩ := foldl_relaxPair_spec hsums hcycle h k u (List.finRange n)
    obtain ⟨hrest, hus⟩ := ih hfirst.between
    refine ⟨hfirst.trans hrest, fun x hx v => ?_⟩
    rw [List.foldl_cons]
    rcases List.mem_cons.1 hx with rfl | hmem
    · exact (hrest.le x v).trans (hu v (List.mem_finRange v))
    · exact (hus x hmem v).trans (add_le_add (hfirst.le x k) (hfirst.le k v))

/-- One round: every entry is at most the sum for the paths through `k`, taken before the round. -/
theorem relaxThrough_spec (h : Between a₀ a) (k : Fin n) :
    Lowers a₀ a (relaxThrough a k) ∧ ∀ u v, relaxThrough a k u v ≤ a u k + a k v := by
  obtain ⟨hlow, hall⟩ := foldl_relaxRow_spec hsums hcycle h k (List.finRange n)
  exact ⟨hlow, fun u v => hall u (List.mem_finRange u) v⟩

/-- After the rounds for `ks`, walks with inner vertices from `ks` are taken into account. -/
theorem foldl_relaxThrough_spec (h : Between a₀ a) {K : Set (Fin n)}
    (hK : ∀ u v d, Via (Complete a₀) K u v d → a u v ≤ d) (ks : List (Fin n)) :
    Between a₀ (ks.foldl relaxThrough a) ∧
      ∀ u v d, Via (Complete a₀) (K ∪ {k | k ∈ ks}) u v d → ks.foldl relaxThrough a u v ≤ d := by
  induction ks generalizing a K with
  | nil => simpa using ⟨h, hK⟩
  | cons k ks ih =>
    obtain ⟨hround, hthrough⟩ := relaxThrough_spec hsums hcycle h k
    -- a walk that passes through `k` more than once can be shortened
    have hloop : ∀ c, Walk (Complete a₀) k k c → 0 ≤ c := by
      intro c hc
      by_contra hneg
      exact hcycle k ⟨k, 0, c, .refl k, hc, by omega⟩
    have hnext : ∀ u v d, Via (Complete a₀) (insert k K) u v d → relaxThrough a k u v ≤ d := by
      intro u v d hvia
      rcases hvia.insert_cases hloop with havoid | ⟨d₁, d₂, hto, hfrom, hle⟩
      · exact (hround.le u v).trans (hK u v d havoid)
      · have hsum := add_le_add (hK u k d₁ hto) (hK k v d₂ hfrom)
        exact ((hthrough u v).trans hsum).trans hle
    -- the other rounds admit the other vertices
    obtain ⟨hend, hall⟩ := ih hround.between hnext
    refine ⟨hend, fun u v d hvia => hall u v d ?_⟩
    have hset : insert k K ∪ {x | x ∈ ks} = K ∪ {x | x ∈ k :: ks} := by
      ext x
      simp only [Set.mem_union, Set.mem_insert_iff, Set.mem_ofPred_eq, List.mem_cons]
      tauto
    rwa [hset]

/-- After all rounds, the entries are the weights of shortest walks. -/
theorem run_isLeast (hdiag : ∀ u, a₀ u u = 0) (u v : Fin n) :
    IsLeast {x | Walk (Complete a₀) u v x} ((run ⟨a₀⟩).answer u v) := by
  have hedges : ∀ u v d, Via (Complete a₀) ∅ u v d → a₀ u v ≤ d :=
    fun u v d hvia => hvia.of_empty.ge
  obtain ⟨hbetween, hall⟩ :=
    foldl_relaxThrough_spec hsums hcycle (.refl a₀) hedges (List.finRange n)
  refine ⟨hbetween.walk u v, fun x hx => ?_⟩
  rcases Walk.via hx with ⟨rfl, rfl⟩ | hvia
  · exact (hbetween.le u u).trans (hdiag u).le
  · exact hall u v x (by simpa using hvia)

/-- A matrix of shortest walks is not changed by any part of the loops. -/
theorem relaxPair_eq (hleast : ∀ u v, IsLeast {x | Walk (Complete a₀) u v x} (a u v))
    (k u v : Fin n) : relaxPair k u a v = a := by
  have hbetween : Between a₀ a := by
    refine ⟨fun u v => (hleast u v).1, fun u v => (hleast u v).2 ?_⟩
    simpa using (Walk.refl u).snoc (rfl : Complete a₀ u v (a₀ u v))
  have htriangle : a u v ≤ a u k + a k v :=
    (hleast u v).2 ((hleast u k).1.trans (hleast k v).1)
  rw [relaxPair, hbetween.narrow_eq hsums hcycle, min_eq_left htriangle, set_eq_self]

/-- A matrix of least weights stays as it is. -/
theorem run_eq (hleast : ∀ u v, IsLeast {x | Walk (Complete a₀) u v x} (a u v)) :
    run ⟨a⟩ = ⟨a⟩ := by
  have hpair (k u : Fin n) : relaxPair k u a = fun _ => a :=
    funext fun v => relaxPair_eq hsums hcycle hleast k u v
  have hrow (k u : Fin n) : relaxRow k a u = a := by
    rw [relaxRow]
    exact List.foldlRecOn (motive := fun b => b = a) _ _ rfl fun b hb v _ => by
      rw [hb, hpair]
  have hround (k : Fin n) : relaxThrough a k = a := by
    rw [relaxThrough]
    exact List.foldlRecOn (motive := fun b => b = a) _ _ rfl fun b hb u _ => by
      rw [hb, hrow]
  have hall : (List.finRange n).foldl relaxThrough a = a :=
    List.foldlRecOn (motive := fun b => b = a) _ _ rfl fun b hb k _ => by
      rw [hb, hround]
  rw [run, hall]

end Loops

/-- For a matrix with zeros on the diagonal and without negative cycles, `operator()` computes the
weights of shortest paths in the complete graph of the matrix, and running it again changes
nothing. -/
theorem run_shortest (a : Fin n → Fin n → ℤ) (hdiag : ∀ u, a u u = 0)
    (hcycle : ∀ u c, Walk (Complete a) u u c → 0 ≤ c) (hsums : NoOverflow a) :
    (∀ u v, IsLeast {x | Walk (Complete a) u v x} ((run ⟨a⟩).answer u v)) ∧
      run (run ⟨a⟩) = run ⟨a⟩ := by
  have hneg : ∀ u, ¬ NegativeCycle (Complete a) u := by
    rintro s ⟨u, d, c, -, hc, hlt⟩
    have := hcycle u c hc
    omega
  have hleast := run_isLeast hsums hneg hdiag
  exact ⟨hleast, run_eq hsums hneg hleast⟩

/-- A negative edge, and a detour that is shorter than an edge. -/
theorem run_shortest_three :
    (∀ u v, IsLeast {x | Walk (Complete ![![0, 4, -1], ![3, 0, 2], ![5, 1, 0]]) u v x}
        (![![0, 0, -1], ![3, 0, 2], ![4, 1, 0]] u v)) ∧
      run (run ⟨![![0, 4, -1], ![3, 0, 2], ![5, 1, 0]]⟩) =
        run ⟨![![0, 4, -1], ![3, 0, 2], ![5, 1, 0]]⟩ := by
  have hpot : ∀ u v w, Complete ![![0, 4, -1], ![3, 0, 2], ![5, 1, 0]] u v w →
      ![0, 0, -1] v - ![0, 0, -1] u ≤ w := by
    rintro u v w rfl
    revert u v
    decide
  have hlow : ∀ u v : Fin 3, (-1 : ℤ) ≤ ![0, 0, -1] v - ![0, 0, -1] u := by decide
  have hrun : (run ⟨![![0, 4, -1], ![3, 0, 2], ![5, 1, 0]]⟩).answer =
      ![![0, 0, -1], ![3, 0, 2], ![4, 1, 0]] := by decide +kernel
  have h := run_shortest ![![0, 4, -1], ![3, 0, 2], ![5, 1, 0]] (by decide)
    (fun u c hc => by simpa using hc.potential_le hpot)
    ⟨by decide, fun u S v d hpath => by
      have := hpath.walk.potential_le hpot
      have := hlow u v
      omega⟩
  rwa [hrun] at h

end Floyd

end CppLearn

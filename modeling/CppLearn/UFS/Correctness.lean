import CppLearn.Lib.UnionFind
import CppLearn.UFS.Defs
import Mathlib.Data.Setoid.Partition
import Mathlib.SetTheory.Cardinal.Finite

/-!
# Correctness of the disjoint sets

The vectors of a `UF` describe a forest in the sense of `UnionFind.Forest`, with the size of each
class at its root. `FindAndSet` returns the root and keeps the classes; `FindAndUnit` joins two
classes. Along any sequence of calls the classes are those of the equivalence relation generated by
the pairs that were passed to `FindAndUnit`.

`UF.Represents` says that the vectors describe a forest with its sizes, and `UF.findAndSet_ok` and
`UF.findAndUnit_ok` that the operations keep this. The relation that a sequence of calls generates
is `Connected`, and `UF.run_connected` gives the results of the operations after any sequence of
calls.
-/

namespace CppLearn

open BoundedLoop CheckedVector UnionFind

namespace UF

variable {n : ℕ} {s s' : UF} {father root : Fin n → Fin n} {rank size : Fin n → ℕ}

/-- The vectors describe a forest, with the sizes of its classes and their number. -/
structure Represents (s : UF) (father root : Fin n → Fin n) (rank size : Fin n → ℕ) : Prop where
  father_eq : s.father = List.ofFn fun i => (father i : ℕ)
  size_eq : s.size = List.ofFn size
  count_eq : s.count = (Finset.univ.image root).card
  forest : Forest father root rank
  sized : Sized root rank size

/-! ## Accesses -/

theorem read_ofFn {α : Type} (f : Fin n → α) (i : Fin n) :
    read (List.ofFn f) (i : ℕ) = .ok (f i) := by
  have h : (i : ℕ) < (List.ofFn f).length := by simp
  rw [read_ok h (f i)]
  simp [List.getD_eq_getElem?_getD]

theorem write_ofFn {α : Type} (f : Fin n → α) (i : Fin n) (x : α) :
    write (List.ofFn f) (i : ℕ) x = .ok (List.ofFn (Function.update f i x)) := by
  rw [write_ok (by simp)]
  congr 1
  refine List.ext_getElem (by simp) fun j h _ => ?_
  simp only [List.length_set, List.length_ofFn] at h
  rw [List.getElem_set, List.getElem_ofFn, List.getElem_ofFn]
  by_cases hj : (i : ℕ) = j
  · have hij : i = ⟨j, h⟩ := Fin.ext hj
    rw [if_pos hj, ← hij, Function.update_self]
  · have hij : ⟨j, h⟩ ≠ i := fun heq => hj (by rw [← heq])
    rw [if_neg hj, Function.update_of_ne hij]

/-- Writing an element of `father_`. -/
theorem write_father (f : Fin n → Fin n) (i x : Fin n) :
    write (List.ofFn fun j => (f j : ℕ)) (i : ℕ) (x : ℕ) =
      .ok (List.ofFn fun j => (Function.update f i x j : ℕ)) := by
  rw [write_ofFn]
  congr 2
  funext j
  by_cases hj : j = i
  · rw [hj, Function.update_self, Function.update_self]
  · rw [Function.update_of_ne hj, Function.update_of_ne hj]

/-! ## Finding the root -/

/-- The recursion returns the root, and keeps the classes. -/
theorem findAndSetRec_ok (h : Represents s father root rank size) (v : Fin n) {fuel : ℕ}
    (hfuel : rank (root v) - rank v < fuel) :
    ∃ s' father', findAndSetRec fuel s v = .ok ((root v : ℕ), s') ∧
      Represents s' father' root rank size := by
  induction fuel generalizing v with
  | zero => omega
  | succ fuel ih =>
    have hread : read s.father (v : ℕ) = .ok (father v : ℕ) := by
      rw [h.father_eq, read_ofFn fun i => (father i : ℕ)]
    by_cases hv : father v = v
    · refine ⟨s, father, ?_, h⟩
      simp only [findAndSetRec, hread, bind, Except.bind, hv, if_true,
        h.forest.root_of_fixed v hv]
    · -- the father has a larger rank, and the same root
      have hlt := h.forest.rank_lt v hv
      have hle := h.forest.rank_le (father v)
      have hroot := h.forest.root_father v
      obtain ⟨s₁, father₁, hs₁, h₁⟩ := ih (father v) (by rw [hroot] at hle ⊢; omega)
      refine ⟨{ s₁ with father := List.ofFn fun j => (Function.update father₁ v (root v) j : ℕ) },
        Function.update father₁ v (root v), ?_, rfl, h₁.size_eq, h₁.count_eq,
        h₁.forest.compress v, h₁.sized⟩
      have hne : (father v : ℕ) ≠ v := fun heq => hv (Fin.ext heq)
      have hwrite : write s₁.father (v : ℕ) (root v : ℕ) =
          .ok (List.ofFn fun j => (Function.update father₁ v (root v) j : ℕ)) := by
        rw [h₁.father_eq, write_father]
      simp only [findAndSetRec, hread, bind, Except.bind, if_neg hne, hs₁, hroot, hwrite]

/-- The ranks are smaller than the number of elements. -/
theorem Represents.rank_root_le (h : Represents s father root rank size) (v : Fin n) :
    rank (root v) < n + 1 := by
  have hroot := h.forest.root_root v
  have hpow := h.sized.pow_le _ hroot
  have hsize := h.sized.size_le hroot
  have hlt := Nat.lt_two_pow_self (n := rank (root v))
  rw [Fintype.card_fin] at hsize
  omega

/-- `FindAndSet` returns the root, and keeps the classes. -/
theorem findAndSet_ok (h : Represents s father root rank size) (v : Fin n) :
    ∃ s' father', s.findAndSet v = .ok ((root v : ℕ), s') ∧
      Represents s' father' root rank size := by
  refine findAndSetRec_ok h v ?_
  have := h.rank_root_le v
  rw [h.father_eq, List.length_ofFn]
  omega

/-! ## Joining two classes -/

/-- `Unit` on two roots, the first of them the root of a class that is not smaller. -/
theorem Represents.link (h : Represents s father root rank size) {x y : Fin n}
    (hx : father x = x) (hy : father y = y) (hxy : x ≠ y) (hsize : size y ≤ size x) :
    Represents ⟨s.count - 1, List.ofFn fun j => (Function.update father y x j : ℕ),
        List.ofFn (Function.update size x (size x + size y))⟩
      (Function.update father y x) (link root x y) (linkRank rank x y)
      (Function.update size x (size x + size y)) := by
  have hrx := h.forest.root_of_fixed x hx
  have hry := h.forest.root_of_fixed y hy
  refine ⟨rfl, rfl, ?_, h.forest.link hx hy hxy, h.sized.link hrx hry hxy hsize⟩
  -- there is one root less
  have hcard := card_roots_link hrx hry hxy
  have hcount := h.count_eq
  simp only
  omega

/-- `Unit` on two different roots joins their classes, one way or the other. -/
theorem unit_ok (h : Represents s father root rank size) {x y : Fin n} (hx : father x = x)
    (hy : father y = y) (hxy : x ≠ y) :
    ∃ s' father' root' rank' size', s.unit x y = .ok s' ∧
      Represents s' father' root' rank' size' ∧
      (root' = link root x y ∨ root' = link root y x) := by
  have hreadX : read s.size (x : ℕ) = .ok (size x) := by rw [h.size_eq, read_ofFn]
  have hreadY : read s.size (y : ℕ) = .ok (size y) := by rw [h.size_eq, read_ofFn]
  by_cases hlt : size x < size y
  · -- the arguments are swapped
    refine ⟨_, _, _, _, _, ?_, h.link hy hx hxy.symm hlt.le, .inr rfl⟩
    simp only [unit, hreadX, hreadY, bind, Except.bind, if_pos hlt, h.father_eq, write_father]
    rw [h.size_eq, write_ofFn]
  · refine ⟨_, _, _, _, _, ?_, h.link hx hy hxy (by omega), .inl rfl⟩
    simp only [unit, hreadX, hreadY, bind, Except.bind, if_neg hlt, h.father_eq, write_father]
    rw [h.size_eq, write_ofFn]

/-- `FindAndUnit` tells whether the arguments were in different classes, and then joins these. -/
theorem findAndUnit_ok (h : Represents s father root rank size) (x y : Fin n) :
    ∃ s' father' root' rank' size',
      s.findAndUnit x y = .ok (decide (root x ≠ root y), s') ∧
      Represents s' father' root' rank' size' ∧
      ∀ u v, root' u = root' v ↔ root u = root v ∨
        (root u = root x ∧ root v = root y) ∨ (root u = root y ∧ root v = root x) := by
  -- the two searches change the fathers, but not the classes
  obtain ⟨s₁, father₁, hs₁, h₁⟩ := findAndSet_ok h x
  obtain ⟨s₂, father₂, hs₂, h₂⟩ := findAndSet_ok h₁ y
  by_cases hxy : root x = root y
  · refine ⟨s₂, father₂, root, rank, size, ?_, h₂, fun u v => ?_⟩
    · simp only [findAndUnit, hs₁, hs₂, bind, Except.bind, hxy, ne_eq, not_true_eq_false, if_false,
        decide_false]
    · rw [hxy]
      constructor
      · exact .inl
      · rintro (hr | ⟨hu, hv⟩ | ⟨hu, hv⟩)
        · exact hr
        · rw [hu, hv]
        · rw [hu, hv]
  · have hne : (root x : ℕ) ≠ root y := fun heq => hxy (Fin.ext heq)
    obtain ⟨s₃, father', root', rank', size', hs₃, h₃, hroot'⟩ :=
      unit_ok h₂ (h₂.forest.father_root x) (h₂.forest.father_root y) hxy
    refine ⟨s₃, father', root', rank', size', ?_, h₃, fun u v => ?_⟩
    · simp only [findAndUnit, hs₁, hs₂, bind, Except.bind, if_pos hne, hs₃, ne_eq, hxy,
        not_false_eq_true, decide_true]
    · -- `Unit` hangs the smaller class below the larger one
      rcases hroot' with rfl | rfl
      · rw [link_eq_iff]
      · rw [link_eq_iff, or_comm (a := root u = root y ∧ _)]

end UF

/-! ## Sequences of calls -/

variable {n : ℕ}

/-- The equivalence relation generated by the pairs that were passed to `FindAndUnit`. -/
def classes (calls : List (UFCall n)) : Setoid (Fin n) :=
  Relation.EqvGen.setoid fun x y => .findAndUnit x y ∈ calls

/-- Two elements are connected by the calls. -/
def Connected (calls : List (UFCall n)) (x y : Fin n) : Prop := (classes calls).r x y

theorem connected_mono {calls calls' : List (UFCall n)} (h : calls ⊆ calls') {u v : Fin n}
    (huv : Connected calls u v) : Connected calls' u v :=
  Relation.EqvGen.mono (fun _ _ hmem => h hmem) _ _ huv

/-- A function that agrees on the pairs of the calls agrees on connected elements. -/
theorem Connected.apply_eq {α : Type*} {calls : List (UFCall n)} {f : Fin n → α} {u v : Fin n}
    (huv : Connected calls u v) (hf : ∀ x y, .findAndUnit x y ∈ calls → f x = f y) : f u = f v := by
  induction huv with
  | rel x y hmem => exact hf x y hmem
  | refl => rfl
  | symm _ _ _ ih => exact ih.symm
  | trans _ _ _ _ _ ih ih' => exact ih.trans ih'

namespace UF

variable {s : UF} {calls : List (UFCall n)} {root root' : Fin n → Fin n}

/-- The state represents the classes that the calls generate. -/
def Tracks (s : UF) (calls : List (UFCall n)) : Prop :=
  ∃ father root rank size, Represents s father root rank size ∧
    ∀ u v, root u = root v ↔ Connected calls u v

/-- A join of the classes of `x` and `y` corresponds to one more pair. -/
theorem connected_concat {x y : Fin n} (h : ∀ u v, root u = root v ↔ Connected calls u v)
    (hroot' : ∀ u v, root' u = root' v ↔ root u = root v ∨
      (root u = root x ∧ root v = root y) ∨ (root u = root y ∧ root v = root x)) (u v : Fin n) :
    root' u = root' v ↔ Connected (calls ++ [.findAndUnit x y]) u v := by
  have hold {u v : Fin n} (huv : root u = root v) :
      Connected (calls ++ [.findAndUnit x y]) u v :=
    connected_mono (List.subset_append_left _ _) ((h u v).1 huv)
  have hxy : Connected (calls ++ [.findAndUnit x y]) x y := .rel _ _ (by simp)
  -- the classes of `x` and `y` are joined, and nothing else is
  constructor
  · rw [hroot']
    rintro (huv | ⟨hu, hv⟩ | ⟨hu, hv⟩)
    · exact hold huv
    · exact ((hold hu).trans _ _ _ hxy).trans _ _ _ (hold hv.symm)
    · exact ((hold hu).trans _ _ _ (hxy.symm _ _)).trans _ _ _ (hold hv.symm)
  · refine fun huv => huv.apply_eq fun a b hab => ?_
    rw [hroot']
    rcases List.mem_append.1 hab with hmem | hmem
    · exact .inl ((h a b).2 (.rel _ _ hmem))
    · rw [List.mem_singleton, UFCall.findAndUnit.injEq] at hmem
      rw [hmem.1, hmem.2]
      exact .inr (.inl ⟨rfl, rfl⟩)

/-- A call of `FindAndSet` does not connect anything. -/
theorem connected_concat_findAndSet (calls : List (UFCall n)) (w u v : Fin n) :
    Connected (calls ++ [.findAndSet w]) u v ↔ Connected calls u v := by
  constructor
  · refine fun huv => Relation.EqvGen.mono (fun a b hmem => ?_) _ _ huv
    simpa using hmem
  · exact connected_mono (List.subset_append_left _ _)

theorem create_tracks (n : ℕ) : Tracks (create n) ([] : List (UFCall n)) := by
  refine ⟨fun x => x, fun x => x, fun _ => 0, fun _ => 1, ⟨?_, ?_, ?_, forest_id _, sized_id⟩, ?_⟩
  · simp [create, List.ofFn_eq_map, List.map_coe_finRange_eq_range]
  · simp [create]
  · simp [create]
  · intro u v
    constructor
    · rintro rfl
      exact .refl _
    · exact fun huv => huv.apply_eq (f := id) fun _ _ hmem => absurd hmem List.not_mem_nil

/-- Any sequence of calls returns, and leaves the classes that all calls so far generate. -/
theorem Tracks.run (h : Tracks s calls) (more : List (UFCall n)) :
    ∃ s', s.run more = .ok s' ∧ Tracks s' (calls ++ more) := by
  induction more generalizing s calls with
  | nil => exact ⟨s, rfl, by rwa [List.append_nil]⟩
  | cons c more ih =>
    obtain ⟨father, root, rank, size, hrep, hconn⟩ := h
    rw [List.append_cons]
    cases c with
    | findAndSet w =>
      obtain ⟨s₁, father₁, hs₁, hrep₁⟩ := findAndSet_ok hrep w
      have htracks : Tracks s₁ (calls ++ [.findAndSet w]) := by
        refine ⟨father₁, root, rank, size, hrep₁, fun u v => ?_⟩
        rw [hconn, connected_concat_findAndSet]
      obtain ⟨s', hs', h'⟩ := ih htracks
      exact ⟨s', by simp only [UF.run, hs₁, hs', bind, Except.bind], h'⟩
    | findAndUnit x y =>
      obtain ⟨s₁, father₁, root₁, rank₁, size₁, hs₁, hrep₁, hroot₁⟩ := findAndUnit_ok hrep x y
      have htracks : Tracks s₁ (calls ++ [.findAndUnit x y]) :=
        ⟨father₁, root₁, rank₁, size₁, hrep₁, connected_concat hconn hroot₁⟩
      obtain ⟨s', hs', h'⟩ := ih htracks
      exact ⟨s', by simp only [UF.run, hs₁, hs', bind, Except.bind], h'⟩

/-- The number of roots is the number of classes. -/
theorem card_classes (h : ∀ u v, root u = root v ↔ Connected calls u v) :
    Nat.card (Quotient (classes calls)) = (Finset.univ.image root).card := by
  have hker : classes calls = Setoid.ker root := by
    ext u v
    exact (h u v).symm
  rw [hker, Nat.card_congr (Setoid.quotientKerEquivRange root)]
  refine Nat.subtype_card _ fun r => ?_
  simp

/-- After any sequence of calls: `FindAndSet` returns, and returns the same for two elements exactly
when they are connected; `FindAndUnit` returns whether they were not; `count_` is the number of
classes, and the size at a root is the number of elements of its class. -/
theorem run_connected (n : ℕ) (calls : List (UFCall n)) :
    ∃ s, (create n).run calls = .ok s ∧
      (∀ x y : Fin n, ∃ a s₁ b s₂, s.findAndSet x = .ok (a, s₁) ∧ s₁.findAndSet y = .ok (b, s₂) ∧
        (a = b ↔ Connected calls x y)) ∧
      (∀ x y : Fin n, ∃ joined s', s.findAndUnit x y = .ok (joined, s') ∧
        (joined = true ↔ ¬ Connected calls x y)) ∧
      s.count = Nat.card (Quotient (classes calls)) ∧
      ∀ r : Fin n, read s.father (r : ℕ) = .ok (r : ℕ) →
        read s.size (r : ℕ) = .ok (Nat.card { x // Connected calls x r }) := by
  obtain ⟨s, hs, father, root, rank, size, hrep, hconn⟩ := (create_tracks n).run calls
  rw [List.nil_append] at hconn
  refine ⟨s, hs, fun x y => ?_, fun x y => ?_, ?_, fun r hr => ?_⟩
  · obtain ⟨s₁, father₁, hs₁, hrep₁⟩ := findAndSet_ok hrep x
    obtain ⟨s₂, father₂, hs₂, hrep₂⟩ := findAndSet_ok hrep₁ y
    refine ⟨root x, s₁, root y, s₂, hs₁, hs₂, ?_⟩
    rw [← hconn, Fin.ext_iff]
  · obtain ⟨s', -, -, -, -, hs', -, -⟩ := findAndUnit_ok hrep x y
    refine ⟨_, s', hs', ?_⟩
    rw [decide_eq_true_eq, ne_eq, hconn]
  · rw [hrep.count_eq, card_classes hconn]
  · -- a root is an element that is its own father
    have hfix : father r = r := by
      rw [hrep.father_eq, read_ofFn fun i => (father i : ℕ)] at hr
      exact Fin.ext (Except.ok.inj hr)
    have hroot := hrep.forest.root_of_fixed r hfix
    rw [hrep.size_eq, read_ofFn, hrep.sized.size_eq r hroot]
    refine congrArg _ (Nat.subtype_card _ fun x => ?_).symm
    rw [mem_fiber, ← hconn, hroot]

end UF

end CppLearn

import Mathlib.Data.List.Basic
import Mathlib.Data.Nat.Basic
import Mathlib.Order.Basic
import Mathlib.Order.Bounds.Defs
import Mathlib.Tactic.Common

/-!
# Borders and overlaps of strings

The first `k` elements of a string `s` overlap a text if they are the last elements of the text. The
overlap of `s` with a text is extended by the next element of the text, if it is also the next one
of `s`. The first `k` elements of `s` are a border of its first `n` elements if they overlap them,
and `k < n`. A border of a border is a border, and borders are comparable in this way.

## Main definitions

* `Overlaps`, `LongestOverlap`: the overlaps of a string with a text;
* `Border`, `LongestBorder`: the borders of a beginning of a string.

## Main results

* `overlaps_concat_iff`: overlaps with a text that has one more element;
* `Border.trans`, `Border.of_lt`: borders of borders;
* `overlaps_concat_congr`: the longest overlap determines the next one.
-/

variable {α : Type*} {s t : List α} {x y : α} {i j k n p q : ℕ}

/-- The first `k` elements of `s` are the last ones of `t`. -/
def Overlaps (s t : List α) (k : ℕ) : Prop := k ≤ s.length ∧ s.take k <:+ t

/-- The longest beginning of `s` at the end of `t`. -/
def LongestOverlap (s t : List α) (k : ℕ) : Prop := IsGreatest {k | Overlaps s t k} k

/-- The first `k` elements of `s` are the last ones of the first `n` elements, and not all of
them. -/
def Border (s : List α) (n k : ℕ) : Prop := k < n ∧ s.take k <:+ s.take n

/-- The longest border of the first `n` elements. -/
def LongestBorder (s : List α) (n k : ℕ) : Prop := IsGreatest {k | Border s n k} k

theorem take_succ_suffix_concat_iff (hk : k < s.length) :
    s.take (k + 1) <:+ t ++ [x] ↔ s.take k <:+ t ∧ s[k]? = some x := by
  rw [List.take_succ_eq_append_getElem hk, List.getElem?_eq_getElem hk, Option.some.injEq]
  constructor
  · rintro ⟨u, hu⟩
    rw [← List.append_assoc] at hu
    obtain ⟨hut, hx⟩ := List.append_inj' hu rfl
    exact ⟨⟨u, hut⟩, (List.cons.inj hx).1⟩
  · rintro ⟨hsuffix, rfl⟩
    exact List.suffix_append_self_iff.2 hsuffix

/-! ## Overlaps -/

theorem overlaps_zero (s t : List α) : Overlaps s t 0 :=
  ⟨Nat.zero_le _, by rw [List.take_zero]; exact List.nil_suffix⟩

theorem Overlaps.le_length (h : Overlaps s t k) : k ≤ t.length := by
  have hle := h.2.length_le
  rwa [List.length_take_of_le h.1] at hle

/-- An overlap with a text that has one more element. -/
theorem overlaps_concat_iff :
    Overlaps s (t ++ [x]) (k + 1) ↔ Overlaps s t k ∧ s[k]? = some x := by
  constructor
  · rintro ⟨hle, hsuffix⟩
    have hsplit := (take_succ_suffix_concat_iff hle).1 hsuffix
    exact ⟨⟨Nat.le_of_succ_le hle, hsplit.1⟩, hsplit.2⟩
  · rintro ⟨h, hx⟩
    have hlt : k < s.length := (List.getElem?_eq_some_iff.1 hx).1
    exact ⟨hlt, (take_succ_suffix_concat_iff hlt).2 ⟨h.2, hx⟩⟩

/-- A shorter overlap is one with the longer overlap. -/
theorem Overlaps.of_le (h : Overlaps s t k) (h' : s.take q <:+ t) (hq : q ≤ s.length)
    (hkq : k ≤ q) : Overlaps s (s.take q) k := by
  refine ⟨h.1, List.suffix_of_suffix_length_le h.2 h' ?_⟩
  rw [List.length_take_of_le h.1, List.length_take_of_le hq]
  exact hkq

/-- If all overlaps that `x` extends are at most as long as the overlap `q`, then they are
determined by it. -/
theorem overlaps_concat_congr (h : Overlaps s t q)
    (hmax : ∀ k, Overlaps s t k → s[k]? = some x → k ≤ q) :
    Overlaps s (t ++ [x]) k ↔ Overlaps s (s.take q ++ [x]) k := by
  cases k with
  | zero => exact iff_of_true (overlaps_zero _ _) (overlaps_zero _ _)
  | succ k =>
    rw [overlaps_concat_iff, overlaps_concat_iff, and_congr_left_iff]
    intro hx
    -- two overlaps are ends of the same text, so the shorter one is an end of the longer one
    exact ⟨fun hk => hk.of_le h.2 h.1 (hmax k hk hx), fun hk => ⟨hk.1, hk.2.trans h.2⟩⟩

/-- The overlap after the next element of the text depends on the overlap before it only. -/
theorem LongestOverlap.concat_iff (h : LongestOverlap s t q) :
    LongestOverlap s (t ++ [x]) k ↔ LongestOverlap s (s.take q ++ [x]) k := by
  have hset : {k | Overlaps s (t ++ [x]) k} = {k | Overlaps s (s.take q ++ [x]) k} :=
    Set.ext fun k => overlaps_concat_congr h.1 fun k hk _ => h.2 hk
  rw [LongestOverlap, LongestOverlap, hset]

/-- The next element of the text is the next one of the string. -/
theorem longestOverlap_take_succ (hx : s[n]? = some x) :
    LongestOverlap s (s.take n ++ [x]) (n + 1) := by
  have hlt : n < s.length := (List.getElem?_eq_some_iff.1 hx).1
  refine ⟨overlaps_concat_iff.2 ⟨⟨hlt.le, List.suffix_refl _⟩, hx⟩, fun k hk => ?_⟩
  have hle := hk.le_length
  rwa [List.length_append, List.length_take_of_le hlt.le] at hle

/-- The whole string is the longest overlap if and only if it is at the end of the text. -/
theorem LongestOverlap.eq_length_iff (h : LongestOverlap s t q) : q = s.length ↔ s <:+ t := by
  constructor
  · rintro rfl
    simpa using h.1.2
  · intro hs
    exact le_antisymm h.1.1 (h.2 ⟨le_rfl, by rwa [List.take_length]⟩)

/-! ## Borders -/

theorem border_zero (s : List α) (hn : 0 < n) : Border s n 0 :=
  ⟨hn, by rw [List.take_zero]; exact List.nil_suffix⟩

/-- A border of a border. -/
theorem Border.trans (h : Border s n k) (h' : Border s k j) : Border s n j :=
  ⟨h'.1.trans h.1, h'.2.trans h.2⟩

/-- A shorter border is one of the longer border. -/
theorem Border.of_lt (h : Border s n k) (h' : Border s n j) (hjk : j < k) : Border s k j := by
  refine ⟨hjk, List.suffix_of_suffix_length_le h'.2 h.2 ?_⟩
  rw [List.length_take, List.length_take]
  omega

/-- What follows the first `n` elements does not matter. -/
theorem border_append_iff (hn : n ≤ s.length) : Border (s ++ t) n k ↔ Border s n k := by
  unfold Border
  refine and_congr_right fun hk => ?_
  rw [List.take_append_of_le_length hn, List.take_append_of_le_length (hk.le.trans hn)]

theorem longestBorder_append_iff (hn : n ≤ s.length) :
    LongestBorder (s ++ t) n k ↔ LongestBorder s n k := by
  unfold LongestBorder
  simp only [border_append_iff hn]

/-- A border of one more element. -/
theorem border_succ_iff (hn : n < s.length) :
    Border s (n + 1) (k + 1) ↔ Border s n k ∧ s[k]? = s[n]? := by
  rw [List.getElem?_eq_getElem hn]
  constructor
  · rintro ⟨hlt, hsuffix⟩
    rw [List.take_succ_eq_append_getElem hn] at hsuffix
    have hsplit := (take_succ_suffix_concat_iff (by omega)).1 hsuffix
    exact ⟨⟨Nat.lt_of_succ_lt_succ hlt, hsplit.1⟩, hsplit.2⟩
  · rintro ⟨⟨hlt, hsuffix⟩, hx⟩
    refine ⟨Nat.succ_lt_succ hlt, ?_⟩
    rw [List.take_succ_eq_append_getElem hn]
    exact (take_succ_suffix_concat_iff (by omega)).2 ⟨hsuffix, hx⟩

/-- The next longest border, if all borders of one more element extend a border of length at most
`j`. -/
theorem longestBorder_succ (hn : n < s.length) (h : Border s n j)
    (hmax : ∀ k, Border s n k → s[k]? = s[n]? → k ≤ j) (hx : s[j]? = s[n]?) :
    LongestBorder s (n + 1) (j + 1) := by
  refine ⟨(border_succ_iff hn).2 ⟨h, hx⟩, fun k hk => ?_⟩
  cases k with
  | zero => exact Nat.zero_le _
  | succ k =>
    obtain ⟨hk, hxk⟩ := (border_succ_iff hn).1 hk
    exact Nat.succ_le_succ (hmax k hk hxk)

/-- No border of one more element, if there is none to extend. -/
theorem longestBorder_zero (hn : n < s.length) (hmax : ∀ k, Border s n k → s[k]? ≠ s[n]?) :
    LongestBorder s (n + 1) 0 := by
  refine ⟨border_zero s (Nat.succ_pos n), fun k hk => ?_⟩
  cases k with
  | zero => exact le_rfl
  | succ k =>
    obtain ⟨hk, hxk⟩ := (border_succ_iff hn).1 hk
    exact absurd hxk (hmax k hk)

/-- The overlaps of the first `n` elements with one more element that is not the next one, from the
longest border. -/
theorem LongestBorder.overlaps_iff (h : LongestBorder s n p) (hn : n ≤ s.length)
    (hx : s[n]? ≠ some x) :
    LongestOverlap s (s.take n ++ [x]) k ↔ LongestOverlap s (s.take p ++ [x]) k := by
  -- an overlap that `x` extends is not the whole of the first `n` elements, so it is a border
  have hset : {k | Overlaps s (s.take n ++ [x]) k} = {k | Overlaps s (s.take p ++ [x]) k} := by
    refine Set.ext fun k => overlaps_concat_congr ⟨h.1.1.le.trans hn, h.1.2⟩ fun k hk hxk => ?_
    have hle := hk.le_length
    rw [List.length_take_of_le hn] at hle
    rcases hle.eq_or_lt with rfl | hlt
    · exact absurd hxk hx
    · exact h.2 ⟨hlt, hk.2⟩
  rw [LongestOverlap, LongestOverlap, hset]

/-- Nothing overlaps one element that is not the first one. -/
theorem longestOverlap_singleton (hx : s[0]? ≠ some x) : LongestOverlap s [x] 0 := by
  refine ⟨overlaps_zero s [x], fun k hk => ?_⟩
  cases k with
  | zero => exact le_rfl
  | succ k =>
    obtain ⟨hk, hxk⟩ := (overlaps_concat_iff (t := [])).1 hk
    obtain rfl : k = 0 := Nat.le_zero.1 hk.le_length
    exact absurd hxk hx

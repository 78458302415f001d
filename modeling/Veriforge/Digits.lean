import Mathlib.Data.List.GetD
import Mathlib.Tactic.Common

/-! # Digits by position

A string of digits is read from its last digit on, and one digit fills what it leaves out. -/

namespace Veriforge

variable {α : Type*}

/-- The digit at a position counted from the right. -/
def digitAt (fill : α) (s : List α) (i : Nat) : α := s.reverse.getD i fill

theorem digitAt_of_length_le {fill : α} {s : List α} {i : Nat} (h : s.length ≤ i) : digitAt fill s i = fill := by
  rw [digitAt, List.getD_eq_default _ _ (by rw [List.length_reverse]; exact h)]

theorem digitAt_of_lt {s : List α} {i : Nat} (fill fill' : α) (h : i < s.length) :
    digitAt fill s i = digitAt fill' s i := by
  have hr : i < s.reverse.length := by rw [List.length_reverse]; exact h
  rw [digitAt, digitAt, List.getD_eq_getElem _ _ hr, List.getD_eq_getElem _ _ hr]

theorem digitAt_length (fill c : α) (s : List α) : digitAt fill (c :: s) s.length = c := by
  rw [digitAt, List.reverse_cons, List.getD_append_right _ _ _ _ (Nat.le_of_eq List.length_reverse),
    List.length_reverse, Nat.sub_self, List.getD_cons_zero]

theorem digitAt_append {fill : α} (s t : List α) {i : Nat} (h : i < t.length) :
    digitAt fill (s ++ t) i = digitAt fill t i := by
  rw [digitAt, digitAt, List.reverse_append, List.getD_append _ _ _ _ (by rw [List.length_reverse]; exact h)]

theorem digitAt_fill_cons (c : α) (s : List α) (i : Nat) : digitAt c (c :: s) i = digitAt c s i := by
  rcases Nat.lt_or_ge i s.length with h | h
  · exact digitAt_append [c] s h
  · rw [digitAt_of_length_le h]
    rcases Nat.eq_or_lt_of_le h with rfl | h'
    · exact digitAt_length c c s
    · exact digitAt_of_length_le h'

/-- The filling digit may be left out wherever it leads. -/
theorem digitAt_dropWhile [DecidableEq α] (c : α) (s : List α) (i : Nat) :
    digitAt c (s.dropWhile (· == c)) i = digitAt c s i := by
  induction s with
  | nil => rfl
  | cons d s ih =>
    rw [List.dropWhile_cons]
    by_cases h : (d == c) = true
    · rw [if_pos h, ih, eq_of_beq h, digitAt_fill_cons]
    · rw [if_neg h]

theorem digitAt_of_all {c : α} {s : List α} (h : ∀ d ∈ s, d = c) (i : Nat) : digitAt c s i = c := by
  rcases Nat.lt_or_ge i s.length with hi | hi
  · have hr : i < s.reverse.length := by rw [List.length_reverse]; exact hi
    rw [digitAt, List.getD_eq_getElem _ _ hr]
    exact h _ (List.mem_reverse.mp (List.getElem_mem hr))
  · exact digitAt_of_length_le hi

/-- The digits below a position are those of the last digits. -/
theorem digitAt_drop {fill : α} {s : List α} {w i : Nat} (h : i < w) :
    digitAt fill (s.drop (s.length - w)) i = digitAt fill s i := by
  rcases Nat.lt_or_ge i s.length with hi | hi
  · conv_rhs => rw [← List.take_append_drop (s.length - w) s]
    rw [digitAt_append _ _ (by rw [List.length_drop]; omega)]
  · rw [Nat.sub_eq_zero_of_le (by omega), List.drop_zero]

/-- Strings that do not begin with the filling digit are told apart by the digits they have. -/
theorem eq_of_digitAt {c : α} {s t : List α} {w : Nat} (hs : ∀ d ∈ s.head?, d ≠ c)
    (ht : ∀ d ∈ t.head?, d ≠ c) (hsw : s.length ≤ w) (htw : t.length ≤ w)
    (h : ∀ i < w, digitAt c s i = digitAt c t i) : s = t := by
  -- the leading digit of the longer string meets the filling digit of the shorter one
  have hle : ∀ {s t : List α}, (∀ d ∈ t.head?, d ≠ c) → t.length ≤ w →
      (∀ i < w, digitAt c s i = digitAt c t i) → t.length ≤ s.length := by
    intro s t ht htw h
    cases t with
    | nil => exact Nat.zero_le _
    | cons d t =>
      by_contra hlt
      have hd := h t.length htw
      rw [digitAt_length, digitAt_of_length_le (by rw [List.length_cons] at hlt; omega)] at hd
      exact ht d rfl hd.symm
  have hlen : s.length = t.length :=
    Nat.le_antisymm (hle hs hsw fun i hi => (h i hi).symm) (hle ht htw h)
  refine List.reverse_inj.mp (List.ext_getElem ?_ ?_)
  · rw [List.length_reverse, List.length_reverse, hlen]
  · intro i hi hi'
    have hd := h i (by rw [List.length_reverse] at hi; omega)
    rwa [digitAt, digitAt, List.getD_eq_getElem _ _ hi, List.getD_eq_getElem _ _ hi'] at hd

end Veriforge

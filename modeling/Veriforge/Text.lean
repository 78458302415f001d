import Mathlib.Data.List.DropRight
import Mathlib.Data.List.Basic
import Mathlib.Tactic.Common
import Mathlib.Tactic.IntervalCases

/-! # Lines of text

ASCII text as lists of characters: white space, words, lines, and numbers written in a base up to ten. -/

namespace Veriforge

/-- A line of text. -/
abbrev Line := List Char

/-! ## Characters -/

/-- `\s` -/
def isSpace (c : Char) : Bool :=
  c == ' ' || c == '\t' || c == '\n' || c == '\r' || c == '\x0b' || c == '\x0c' ||
    c == '\x1c' || c == '\x1d' || c == '\x1e' || c == '\x1f'

/-- `\w` -/
def isWord (c : Char) : Bool := c.isAlphanum || c == '_'

theorem not_word_of_space {c : Char} (h : isSpace c = true) : isWord c = false := by
  simp only [isSpace, Bool.or_eq_true, beq_iff_eq] at h
  rcases h with ((((((((rfl | rfl) | rfl) | rfl) | rfl) | rfl) | rfl) | rfl) | rfl) | rfl <;> decide

theorem not_space_of_word {c : Char} (h : isWord c = true) : isSpace c = false := by
  cases hs : isSpace c with
  | false => rfl
  | true => exact absurd (h.symm.trans (not_word_of_space hs)) (by decide)

theorem not_space_of_digit {c : Char} (h : c.isDigit = true) : isSpace c = false := by
  refine not_space_of_word ?_
  rw [isWord, Char.isAlphanum, h, Bool.or_true, Bool.true_or]

/-! ## Stripping -/

/-- `rstrip` -/
def rstrip (s : Line) : Line := s.rdropWhile isSpace

/-- `strip` -/
def strip (s : Line) : Line := rstrip (s.dropWhile isSpace)

theorem dropWhile_append_of_all {p : Char → Bool} {xs : Line} (h : xs.all p = true) (ys : Line) :
    (xs ++ ys).dropWhile p = ys.dropWhile p := by
  induction xs with
  | nil => rfl
  | cons x xs ih =>
    rw [List.all_cons, Bool.and_eq_true] at h
    rw [List.cons_append, List.dropWhile_cons, if_pos h.1, ih h.2]

theorem takeWhile_append_of_all {p : Char → Bool} {xs ys : Line} (h : xs.all p = true)
    (hy : ∀ c ∈ ys.head?, p c = false) : (xs ++ ys).takeWhile p = xs := by
  induction xs with
  | nil =>
    cases ys with
    | nil => rfl
    | cons y ys => rw [List.nil_append, List.takeWhile_cons, hy y rfl, if_neg Bool.false_ne_true]
  | cons x xs ih =>
    rw [List.all_cons, Bool.and_eq_true] at h
    rw [List.cons_append, List.takeWhile_cons, if_pos h.1, ih h.2]

theorem dropWhile_of_head {p : Char → Bool} {ys : Line} (hy : ∀ c ∈ ys.head?, p c = false) : ys.dropWhile p = ys := by
  cases ys with
  | nil => rfl
  | cons y ys => rw [List.dropWhile_cons, hy y rfl, if_neg Bool.false_ne_true]

/-! ## Words -/

/-- A nonempty string without white space. -/
def IsToken (w : Line) : Prop := w ≠ [] ∧ ∀ c ∈ w, isSpace c = false

instance (w : Line) : Decidable (IsToken w) :=
  decidable_of_iff ((!w.isEmpty && w.all fun c => !isSpace c) = true) (by simp [IsToken])

theorem IsToken.cons {c : Char} {w : Line} (hc : isSpace c = false) (h : IsToken w) : IsToken (c :: w) := by
  refine ⟨List.cons_ne_nil _ _, ?_⟩
  intro d hd
  rcases List.mem_cons.mp hd with rfl | hd
  · exact hc
  · exact h.2 d hd

/-- The words of a line, as `split` finds them. -/
def words (s : Line) : List Line := (s.splitOnP isSpace).filter (· ≠ [])

/-- Words put on a line with a blank between them. -/
def unwords : List Line → Line
  | [] => []
  | [w] => w
  | w :: w' :: ws => w ++ ' ' :: unwords (w' :: ws)

theorem words_token {w : Line} (h : IsToken w) : words w = [w] := by
  rw [words, List.splitOnP_eq_singleton h.2, List.filter_cons, if_pos (by simpa using h.1), List.filter_nil]

theorem words_token_cons {w : Line} (h : IsToken w) (rest : Line) : words (w ++ ' ' :: rest) = w :: words rest := by
  rw [words, List.splitOnP_append_cons_of_forall_mem h.2 ' ' (by decide), List.filter_cons,
    if_pos (by simpa using h.1), words]

/-- The words of a line are those it was made of. -/
theorem words_unwords {ws : List Line} (h : ∀ w ∈ ws, IsToken w) : words (unwords ws) = ws := by
  induction ws with
  | nil => rfl
  | cons w ws ih =>
    have hw := h w List.mem_cons_self
    cases ws with
    | nil => exact words_token hw
    | cons w' ws =>
      rw [unwords, words_token_cons hw, ih fun v hv => h v (List.mem_cons_of_mem _ hv)]

/-- A line of words has no white space to strip off. -/
theorem strip_unwords {ws : List Line} (h : ∀ w ∈ ws, IsToken w) : strip (unwords ws) = unwords ws := by
  have hhead : ∀ c ∈ (unwords ws).head?, isSpace c = false := by
    cases ws with
    | nil => rintro c ⟨⟩
    | cons w ws =>
      obtain ⟨hne, hw⟩ := h w List.mem_cons_self
      obtain ⟨c', cs, rfl⟩ := List.exists_cons_of_ne_nil hne
      intro c hc
      refine hw c ?_
      cases ws <;> cases hc <;> exact List.mem_cons_self
  have hlast : ∀ ws : List Line, (∀ w ∈ ws, IsToken w) → ∀ c ∈ (unwords ws).getLast?, isSpace c = false := by
    intro ws h
    induction ws with
    | nil => rintro c ⟨⟩
    | cons w ws ih =>
      obtain ⟨hne, hw⟩ := h w List.mem_cons_self
      cases ws with
      | nil => exact fun c hc => hw c (List.mem_of_getLast? hc)
      | cons w' ws =>
        have hrest : unwords (w' :: ws) ≠ [] := by
          obtain ⟨c, cs, rfl⟩ := List.exists_cons_of_ne_nil (h w' (by simp)).1
          cases ws <;> exact List.cons_ne_nil _ _
        obtain ⟨c', cs, hcs⟩ := List.exists_cons_of_ne_nil hrest
        intro c hc
        rw [unwords, List.getLast?_append_of_ne_nil _ (List.cons_ne_nil _ _), hcs,
          List.getLast?_cons_cons, ← hcs] at hc
        exact ih (fun v hv => h v (List.mem_cons_of_mem _ hv)) c hc
  rw [strip, dropWhile_of_head hhead, rstrip, List.rdropWhile_eq_self_iff]
  intro hne hc
  exact absurd (hlast ws h _ (List.getLast?_eq_some_getLast hne)) (by rw [hc]; decide)

theorem newline_not_mem_unwords {ws : List Line} (h : ∀ w ∈ ws, IsToken w) : '\n' ∉ unwords ws := by
  have htoken : ∀ w, IsToken w → '\n' ∉ w := fun w hw hmem => absurd (hw.2 _ hmem) (by decide)
  induction ws with
  | nil => exact List.not_mem_nil
  | cons w ws ih =>
    have hw := htoken w (h w List.mem_cons_self)
    cases ws with
    | nil => exact hw
    | cons w' ws =>
      rw [unwords, List.mem_append, List.mem_cons]
      rintro (hmem | hmem | hmem)
      · exact hw hmem
      · exact absurd hmem (by decide)
      · exact ih (fun v hv => h v (List.mem_cons_of_mem _ hv)) hmem

/-! ## Lines -/

/-- The lines of a text are those it was written as, and an empty one after the last. -/
theorem splitOn_newline_lines {lines : List Line} (h : ∀ l ∈ lines, '\n' ∉ l) :
    (lines.flatMap fun l => l ++ ['\n']).splitOn '\n' = lines ++ [[]] := by
  induction lines with
  | nil => rfl
  | cons l ls ih =>
    rw [List.flatMap_cons, List.append_assoc, List.singleton_append,
      List.splitOn_append_cons_self_of_not_mem (h l List.mem_cons_self),
      ih fun l' hl => h l' (List.mem_cons_of_mem _ hl), List.cons_append]

/-! ## Numbers -/

theorem isToken_toDigits (n : Nat) : IsToken (Nat.toDigits 10 n) :=
  ⟨Nat.toDigits_ne_nil, fun _ hc =>
    not_space_of_digit (Nat.isDigit_of_mem_toDigits (by decide) le_rfl hc)⟩

theorem all_isDigit_toDigits (n : Nat) : (Nat.toDigits 10 n).all Char.isDigit = true :=
  List.all_eq_true.mpr fun _ hc => Nat.isDigit_of_mem_toDigits (by decide) le_rfl hc

/-- The value of a hexadecimal digit. -/
def hexDigit (c : Char) : Option Nat :=
  if '0' ≤ c ∧ c ≤ '9' then some (c.toNat - '0'.toNat)
  else if 'a' ≤ c ∧ c ≤ 'f' then some (c.toNat - 'a'.toNat + 10)
  else if 'A' ≤ c ∧ c ≤ 'F' then some (c.toNat - 'A'.toNat + 10)
  else none

theorem not_space_of_hexDigit {c : Char} {d : Nat} (h : hexDigit c = some d) : isSpace c = false := by
  cases hs : isSpace c with
  | false => rfl
  | true =>
    simp only [isSpace, Bool.or_eq_true, beq_iff_eq] at hs
    rcases hs with ((((((((rfl | rfl) | rfl) | rfl) | rfl) | rfl) | rfl) | rfl) | rfl) | rfl <;> cases h

end Veriforge

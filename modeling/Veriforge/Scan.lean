import Mathlib.Data.List.Basic
import Mathlib.Data.List.Infix
import Mathlib.Tactic.Common
import Veriforge.Text

/-! # Scanning a text for a pattern

A pattern finds a match at the start of a text. Scanning from left to right cuts the text into matches and the
characters between them; a match is never looked into. -/

namespace Veriforge

/-- A pattern: the match at the start of a text, a nonempty part of it. -/
structure Pattern where
  find : Line → Option Line
  ne_nil : ∀ {s m}, find s = some m → m ≠ []
  isPrefix : ∀ {s m}, find s = some m → m <+: s

/-- A piece of a scanned text: a match, or a character where none starts. -/
inductive Piece
  | char (c : Char)
  | found (m : Line)
  deriving DecidableEq

namespace Piece

def text : Piece → Line
  | char c => [c]
  | found m => m

/-- A match put through a function, a character between two matches kept. -/
def replace (f : Line → Line) : Piece → Line
  | char c => [c]
  | found m => f m

@[simp] theorem text_char (c : Char) : (char c).text = [c] := rfl

@[simp] theorem text_found (m : Line) : (found m).text = m := rfl

end Piece

/-- The text of a list of pieces. -/
def textOf (ps : List Piece) : Line := ps.flatMap Piece.text

@[simp] theorem textOf_nil : textOf [] = [] := rfl

@[simp] theorem textOf_cons (p : Piece) (ps : List Piece) : textOf (p :: ps) = p.text ++ textOf ps := rfl

@[simp] theorem textOf_append (ps qs : List Piece) : textOf (ps ++ qs) = textOf ps ++ textOf qs :=
  List.flatMap_append

/-- Characters between matches are kept. -/
theorem replace_map_char (f : Line → Line) (s : Line) (ps : List Piece) :
    (s.map Piece.char ++ ps).flatMap (Piece.replace f) = s ++ ps.flatMap (Piece.replace f) := by
  induction s with
  | nil => rfl
  | cons c s ih => exact congrArg (c :: ·) ih

namespace Pattern

variable (P : Pattern)

/-- The pieces of a text, its first characters being part of the last match. -/
def cutFrom : Nat → Line → List Piece
  | _, [] => []
  | n + 1, _ :: cs => cutFrom n cs
  | 0, c :: cs =>
      match P.find (c :: cs) with
      | some m => .found m :: cutFrom (m.length - 1) cs
      | none => .char c :: cutFrom 0 cs

/-- The pieces of a text. -/
def cut (s : Line) : List Piece := P.cutFrom 0 s

/-- `re.sub` with a function of the match. -/
def sub (f : Line → Line) (s : Line) : Line := (P.cut s).flatMap (Piece.replace f)

theorem cutFrom_append (m rest : Line) : P.cutFrom m.length (m ++ rest) = P.cut rest := by
  induction m with
  | nil => rfl
  | cons c m ih => exact ih

@[simp] theorem cut_nil : P.cut [] = [] := rfl

variable {P}

theorem cut_char {c : Char} {cs : Line} (h : P.find (c :: cs) = none) : P.cut (c :: cs) = .char c :: P.cut cs := by
  rw [cut, cutFrom, h]
  rfl

theorem cut_found {m rest : Line} (h : P.find (m ++ rest) = some m) : P.cut (m ++ rest) = .found m :: P.cut rest := by
  cases m with
  | nil => exact absurd rfl (P.ne_nil h)
  | cons c m =>
    rw [List.cons_append] at h ⊢
    rw [cut, cutFrom, h]
    exact congrArg _ (P.cutFrom_append m rest)

/-- A text is empty, or starts with a match, or with a character that starts none. -/
theorem scan_cases (P : Pattern) (s : Line) :
    s = [] ∨ (∃ c cs, s = c :: cs ∧ P.find s = none) ∨ ∃ m rest, s = m ++ rest ∧ P.find s = some m := by
  cases s with
  | nil => exact .inl rfl
  | cons c cs =>
    cases h : P.find (c :: cs) with
    | none => exact .inr (.inl ⟨c, cs, rfl, rfl⟩)
    | some m =>
      obtain ⟨rest, hrest⟩ := P.isPrefix h
      exact .inr (.inr ⟨m, rest, hrest.symm, rfl⟩)

/-- Induction along a scan. -/
theorem scan_induction {motive : Line → Prop} (nil : motive [])
    (char : ∀ c cs, P.find (c :: cs) = none → motive cs → motive (c :: cs))
    (found : ∀ m rest, P.find (m ++ rest) = some m → motive rest → motive (m ++ rest)) (s : Line) :
    motive s := by
  generalize hn : s.length = n
  induction n using Nat.strong_induction_on generalizing s with
  | _ n ih =>
    rcases P.scan_cases s with rfl | ⟨c, cs, rfl, h⟩ | ⟨m, rest, rfl, h⟩
    · exact nil
    · refine char c cs h (ih cs.length ?_ cs rfl)
      rw [← hn, List.length_cons]
      omega
    · refine found m rest h (ih rest.length ?_ rest rfl)
      have := List.length_pos_of_ne_nil (P.ne_nil h)
      rw [← hn, List.length_append]
      omega

/-- No character is lost. -/
@[simp] theorem textOf_cut (P : Pattern) (s : Line) : textOf (P.cut s) = s := by
  induction s using P.scan_induction with
  | nil => rfl
  | char c cs h ih => rw [cut_char h, textOf_cons, ih, Piece.text_char, List.singleton_append]
  | found m rest h ih => rw [cut_found h, textOf_cons, ih, Piece.text_found]

/-- Characters that start no match are cut off one by one. -/
theorem cut_chars {s rest : Line} (h : ∀ p q, s = p ++ q → q ≠ [] → P.find (q ++ rest) = none) :
    P.cut (s ++ rest) = s.map Piece.char ++ P.cut rest := by
  induction s with
  | nil => rfl
  | cons c s ih =>
    have hfirst : P.find (c :: (s ++ rest)) = none := h [] (c :: s) rfl (List.cons_ne_nil _ _)
    rw [List.cons_append, cut_char hfirst, List.map_cons, List.cons_append]
    rw [ih fun p q hs hq => h (c :: p) q (by rw [hs, List.cons_append]) hq]

/-- The first place in a text where a match starts. -/
theorem exists_first_match {s rest : Line} (h : ¬ ∀ p q, s = p ++ q → q ≠ [] → P.find (q ++ rest) = none) :
    ∃ p q m, s = p ++ q ∧ q ≠ [] ∧ P.find (q ++ rest) = some m ∧
      P.cut (s ++ rest) = p.map Piece.char ++ P.cut (q ++ rest) := by
  induction s with
  | nil =>
    refine absurd (fun p q hs hq => ?_) h
    exact absurd (List.append_eq_nil_iff.mp hs.symm).2 hq
  | cons c s ih =>
    cases hf : P.find (c :: s ++ rest) with
    | some m => exact ⟨[], c :: s, m, rfl, List.cons_ne_nil _ _, hf, rfl⟩
    | none =>
      obtain ⟨p, q, m, rfl, hq, hm, hcut⟩ := ih fun hall => h fun p q hs hq => by
        cases p with
        | nil => rw [List.nil_append] at hs; rw [← hs]; exact hf
        | cons d p =>
          rw [List.cons_append, List.cons.injEq] at hs
          exact hall p q hs.2 hq
      refine ⟨c :: p, q, m, rfl, hq, hm, ?_⟩
      rw [List.cons_append] at hf ⊢
      rw [cut_char hf, hcut]
      rfl

end Pattern

end Veriforge

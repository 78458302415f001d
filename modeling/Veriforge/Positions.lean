import Mathlib.Data.List.Basic
import Mathlib.Tactic.Common
import Veriforge.Text

/-! # Positions in a text

A position is a line and a character in it. It denotes an offset where the text up to that offset ends on this
line with so many characters, and nothing where the text has no such line or the line is shorter. -/

namespace Veriforge

/-- A position in a text, both parts counted from zero. -/
structure Position where
  line : Nat
  character : Nat
  deriving DecidableEq

namespace Position

/-- Positions in reading order. -/
instance : LE Position := ⟨fun p q => p.line < q.line ∨ p.line = q.line ∧ p.character ≤ q.character⟩

theorem le_def {p q : Position} : p ≤ q ↔ p.line < q.line ∨ p.line = q.line ∧ p.character ≤ q.character :=
  Iff.rfl

instance (p q : Position) : Decidable (p ≤ q) := decidable_of_iff _ le_def.symm

theorem le_refl (p : Position) : p ≤ p := Or.inr ⟨rfl, Nat.le_refl _⟩

theorem le_trans {p q r : Position} (h : p ≤ q) (h' : q ≤ r) : p ≤ r := by
  rw [le_def] at h h' ⊢
  omega

theorem le_total (p q : Position) : p ≤ q ∨ q ≤ p := by
  rw [le_def, le_def]
  omega

theorem le_antisymm {p q : Position} (h : p ≤ q) (h' : q ≤ p) : p = q := by
  rw [le_def] at h h'
  obtain ⟨l, c⟩ := p
  obtain ⟨l', c'⟩ := q
  simp only at h h'
  rw [mk.injEq]
  omega

/-- One more character. -/
def advance (p : Position) (c : Char) : Position :=
  if c = '\n' then ⟨p.line + 1, 0⟩ else ⟨p.line, p.character + 1⟩

theorem not_advance_le (p : Position) (c : Char) : ¬ p.advance c ≤ p := by
  rw [le_def, advance]
  split <;> simp

theorem le_advance (p : Position) (c : Char) : p ≤ p.advance c :=
  (le_total p (p.advance c)).resolve_right (p.not_advance_le c)

end Position

/-- Where a text ends. -/
def endOf (s : Line) : Position := s.foldl Position.advance ⟨0, 0⟩

@[simp] theorem endOf_nil : endOf [] = ⟨0, 0⟩ := rfl

theorem endOf_append_singleton (s : Line) (c : Char) : endOf (s ++ [c]) = (endOf s).advance c := by
  rw [endOf, List.foldl_append]
  rfl

theorem endOf_line (s : Line) : (endOf s).line = s.count '\n' := by
  induction s using List.reverseRecOn with
  | nil => rfl
  | append_singleton s c ih =>
    rw [endOf_append_singleton, Position.advance, List.count_append, List.count_singleton, ← ih]
    by_cases h : c = '\n' <;> simp [h]

theorem endOf_le_append (s t : Line) : endOf s ≤ endOf (s ++ t) := by
  induction t using List.reverseRecOn with
  | nil =>
    rw [List.append_nil]
    exact Position.le_refl _
  | append_singleton t c ih =>
    rw [← List.append_assoc, endOf_append_singleton]
    exact Position.le_trans ih (Position.le_advance _ c)

/-- A longer text ends later. -/
theorem not_endOf_append_le {s t : Line} (h : t ≠ []) : ¬ endOf (s ++ t) ≤ endOf s := by
  obtain ⟨c, t, rfl⟩ := List.exists_cons_of_ne_nil h
  intro hle
  have hstep : endOf (s ++ [c]) ≤ endOf s := by
    refine Position.le_trans (endOf_le_append (s ++ [c]) t) ?_
    rw [List.append_assoc]
    exact hle
  rw [endOf_append_singleton] at hstep
  exact Position.not_advance_le _ _ hstep

/-- The text from one offset to another. -/
def slice (text : Line) (i j : Nat) : Line := (text.take j).drop i

theorem take_append_slice (text : Line) {i j : Nat} (h : i ≤ j) : text.take i ++ slice text i j = text.take j := by
  calc text.take i ++ slice text i j = (text.take j).take i ++ slice text i j := by
        rw [List.take_take, Nat.min_eq_left h]
    _ = text.take j := List.take_append_drop i (text.take j)

theorem length_slice {text : Line} {i j : Nat} (h : j ≤ text.length) : (slice text i j).length = j - i := by
  rw [slice, List.length_drop, List.length_take, Nat.min_eq_left h]

/-- The position denotes the offset. -/
def Denotes (text : Line) (p : Position) (i : Nat) : Prop := i ≤ text.length ∧ endOf (text.take i) = p

instance (text : Line) (p : Position) (i : Nat) : Decidable (Denotes text p i) :=
  inferInstanceAs (Decidable (_ ∧ _))

namespace Denotes

variable {text : Line} {p q : Position} {i j : Nat}

/-- Positions are ordered as their offsets are. -/
theorem le_iff (hp : Denotes text p i) (hq : Denotes text q j) : p ≤ q ↔ i ≤ j := by
  have hmono : ∀ {i j : Nat}, i ≤ j → endOf (text.take i) ≤ endOf (text.take j) := by
    intro i j hij
    rw [← take_append_slice text hij]
    exact endOf_le_append _ _
  rw [← hp.2, ← hq.2]
  constructor
  · intro hle
    by_contra hlt
    have hji : j ≤ i := by omega
    have hne : slice text j i ≠ [] := by
      rw [Ne, ← List.length_eq_zero_iff, length_slice hp.1]
      omega
    rw [← take_append_slice text hji] at hle
    exact not_endOf_append_le hne hle
  · exact hmono

theorem unique (hi : Denotes text p i) (hj : Denotes text p j) : i = j :=
  Nat.le_antisymm ((hi.le_iff hj).mp (Position.le_refl p)) ((hj.le_iff hi).mp (Position.le_refl p))

/-- A position in a part that two texts share denotes the same offset in both. -/
theorem of_take (h : Denotes text p i) {text' : Line} {n : Nat} (hn : i ≤ n) (ht : text'.take n = text.take n) :
    Denotes text' p i := by
  have htake : text'.take i = text.take i := by
    rw [← Nat.min_eq_left hn, ← List.take_take, ht, List.take_take]
  refine ⟨?_, htake ▸ h.2⟩
  have hlen := congrArg List.length htake
  rw [List.length_take, List.length_take] at hlen
  have := h.1
  omega

end Denotes

end Veriforge

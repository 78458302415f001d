import Veriforge.Sim.Reach

/-! # Legal expressions and the width of a value

A select or a replication of legal source text has constant bounds that stand for the numbers they spell,
in the order the language asks for. On such expressions `_expr_self_width` is an upper bound for the
width of a value: `eval` returns at most the requested width or the self-determined one, whichever is
larger. -/

namespace Veriforge

open Value

/-! ## Literals as constants -/

/-- The integer a literal stands for, when its value and its digits agree on it. -/
def Literal.denoted (l : Literal) : Option Int :=
  match l.intValue with
  | some n =>
      if isUnsizedXz l.originalText = false ∧ l.evalLiteral.isDefined = true ∧
          (if l.signed then l.evalLiteral.asSigned else some (l.evalLiteral.val : Int)) = some n
      then some n else none
  | none => none

theorem Literal.denoted_eq_some {l : Literal} {n : Int} (h : l.denoted = some n) :
    l.intValue = some n ∧ isUnsizedXz l.originalText = false ∧ l.evalLiteral.isDefined = true ∧
      (if l.signed then l.evalLiteral.asSigned else some (l.evalLiteral.val : Int)) = some n := by
  unfold denoted at h
  cases hm : l.intValue with
  | none =>
    rw [hm] at h
    cases h
  | some m =>
    rw [hm] at h
    dsimp only at h
    by_cases hc : isUnsizedXz l.originalText = false ∧ l.evalLiteral.isDefined = true ∧
        (if l.signed then l.evalLiteral.asSigned else some (l.evalLiteral.val : Int)) = some m
    · rw [if_pos hc] at h
      cases h
      exact ⟨rfl, hc⟩
    · rw [if_neg hc] at h
      cases h

/-- A value whose two's complement reading is not negative reads the same unsigned. -/
theorem Value.val_of_asSigned {v : Value} {n : Int} (h : v.asSigned = some n) (hn : 0 ≤ n) : (v.val : Int) = n := by
  unfold asSigned at h
  split at h
  · cases h
  split at h
  · have hlt : (v.val : Int) < 2 ^ v.width := by exact_mod_cast v.val_lt
    cases h
    omega
  · cases h
    rfl

theorem Literal.val_of_denoted {l : Literal} {n : Int} (h : l.denoted = some n) (hn : 0 ≤ n) :
    (l.evalLiteral.val : Int) = n := by
  obtain ⟨-, -, -, h⟩ := denoted_eq_some h
  split at h
  · exact Value.val_of_asSigned h hn
  · exact Option.some_inj.mp h

/-! ## Legal nodes -/

/-- The node is legal: an identifier is declared, a concatenation has parts, and constants stand for what
they spell. Streaming concatenations, strings and calls are left out. -/
def legal (T : SignalTable) : Expr → Bool
  | .ident h n => (T.width (identifierName h n)).isSome || T.isMemory (identifierName h n)
  | .concat _ ps => !ps.isEmpty
  | .literal l => l.evalLiteral.width ≤ l.selfWidth
  | .replicate (.literal l) _ => l.denoted.any (0 ≤ ·)
  | .replicate _ _ => false
  | .rangeSelect _ (.literal m) (.literal l) =>
      m.denoted.any fun m => l.denoted.any fun l => l ≤ m
  | .rangeSelect _ _ _ => false
  | .partSelect _ _ (.literal l) _ => l.denoted.any (0 < ·)
  | .partSelect _ _ _ _ => false
  | .string _ | .streaming _ | .streamingBy _ _ | .call _ _ => false
  | _ => true

/-- A literal's value has the literal's self-determined width. -/
def exactLiteral : Expr → Bool
  | .literal l => l.evalLiteral.width == l.selfWidth
  | _ => true

/-- Under a chain of `~ + -` there is no literal, or one whose value has the width it is counted with. -/
def Expr.exactCore : Expr → Bool
  | .unary op e => !op.contextDetermined || e.exactCore
  | .literal l => l.evalLiteral.width == l.selfWidth
  | _ => true

variable {T : SignalTable}

theorem exactCore_of_all {e : Expr} {w : Nat}
    (h : AllAt T (fun e _ => legal T e = true ∧ exactLiteral e = true) e w) : e.exactCore = true := by
  induction e generalizing w with
  | literal l => exact h.self.2
  | unary op e ih =>
    rw [AllAt] at h
    rw [Expr.exactCore, ih h.2, Bool.or_true]
  | _ => rfl

theorem legal_replicate {c v : Expr} (h : legal T (.replicate c v) = true) :
    ∃ l n, c = .literal l ∧ l.denoted = some n ∧ 0 ≤ n := by
  cases c
  case literal l =>
    obtain ⟨n, hn, h0⟩ := (Option.any_eq_true _ _).mp h
    exact ⟨l, n, rfl, hn, of_decide_eq_true h0⟩
  all_goals exact absurd h Bool.false_ne_true

theorem legal_rangeSelect {t m l : Expr} (h : legal T (.rangeSelect t m l) = true) :
    ∃ m' l' mi li, m = .literal m' ∧ l = .literal l' ∧ m'.denoted = some mi ∧ l'.denoted = some li ∧ li ≤ mi := by
  cases m
  case literal m' =>
    cases l
    case literal l' =>
      obtain ⟨mi, hm, h⟩ := (Option.any_eq_true _ _).mp h
      obtain ⟨li, hl, h⟩ := (Option.any_eq_true _ _).mp h
      exact ⟨m', l', mi, li, rfl, rfl, hm, hl, of_decide_eq_true h⟩
    all_goals exact absurd h Bool.false_ne_true
  all_goals exact absurd h Bool.false_ne_true

theorem legal_partSelect {t b w : Expr} {d : Direction} (h : legal T (.partSelect t b w d) = true) :
    ∃ l n, w = .literal l ∧ l.denoted = some n ∧ 0 < n := by
  cases w
  case literal l =>
    obtain ⟨n, hn, h0⟩ := (Option.any_eq_true _ _).mp h
    exact ⟨l, n, rfl, hn, of_decide_eq_true h0⟩
  all_goals exact absurd h Bool.false_ne_true

end Veriforge

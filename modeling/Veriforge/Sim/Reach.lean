import Veriforge.Sim.Eval

/-! # The nodes an evaluation visits

`AllAt T P e w` says that `P` holds of every node visited while `e` is evaluated at width `w`, each
together with the width it is asked for there. The widths follow the evaluator: the operands of an
arithmetic operator are asked for the operator's own target, a concatenated part for its self-determined
width, an index for 0. The memory of a word select is not a node that is evaluated. -/

namespace Veriforge

variable (T : SignalTable)

/-- The widths the two operands of a binary operator are asked for. -/
def operandWidths (op : BinaryOp) (l r : Expr) (w : Nat) : Nat × Nat :=
  if op.isLogical then (0, 0)
  else if op.isComparison then
    (max (selfWidth T l) (selfWidth T r), max (selfWidth T l) (selfWidth T r))
  else if op.isShift || op == .pow then
    (if w ≠ 0 then max w (selfWidth T l) else selfWidth T l, if op == .pow then selfWidth T r else 0)
  else (max w (max (selfWidth T l) (selfWidth T r)), max w (max (selfWidth T l) (selfWidth T r)))

section

variable {T} {op : BinaryOp} (l r : Expr) (w : Nat)

theorem operandWidths_logical (h : op.isLogical = true) : operandWidths T op l r w = (0, 0) := by
  cases op <;> first | rfl | cases h

theorem operandWidths_comparison (h : op.isComparison = true) : operandWidths T op l r w
      = (max (selfWidth T l) (selfWidth T r), max (selfWidth T l) (selfWidth T r)) := by
  cases op <;> first | rfl | cases h

theorem operandWidths_shift (h : (op.isShift || op == .pow) = true) : operandWidths T op l r w
      = (shiftTarget T l w, if op == .pow then selfWidth T r else 0) := by
  cases op <;> first | rfl | cases h

theorem operandWidths_bitwise (h : op.isBitwise = true) :
    operandWidths T op l r w = (operandTarget T l r w, operandTarget T l r w) := by
  cases op <;> first | rfl | cases h

theorem operandWidths_arithmetic (h : op.isArithmetic = true) :
    operandWidths T op l r w = (operandTarget T l r w, operandTarget T l r w) := by
  cases op <;> first | rfl | cases h

end

mutual

/-- `P` holds of every node an evaluation of `e` at width `w` visits. -/
def AllAt (P : Expr → Nat → Prop) : Expr → Nat → Prop
  | .ident h n, w => P (.ident h n) w
  | .literal l, w => P (.literal l) w
  | .string s, w => P (.string s) w
  | .unary op e, w =>
      P (.unary op e) w ∧ AllAt P e (if op.contextDetermined then w else selfWidth T e)
  | .binary op l r, w =>
      P (.binary op l r) w ∧ AllAt P l (operandWidths T op l r w).1 ∧ AllAt P r (operandWidths T op l r w).2
  | .ternary c t f, w =>
      P (.ternary c t f) w ∧ AllAt P c (selfWidth T c) ∧ AllAt P t (max w (max (selfWidth T t) (selfWidth T f))) ∧
        AllAt P f (max w (max (selfWidth T t) (selfWidth T f)))
  | .concat b ps, w => P (.concat b ps) w ∧ AllPartsAt P ps
  | .replicate c v, w => P (.replicate c v) w ∧ AllAt P c 0 ∧ AllAt P v (selfWidth T v)
  | .streaming ps, w => P (.streaming ps) w ∧ AllPartsAt P ps
  | .streamingBy s ps, w => P (.streamingBy s ps) w ∧ AllAt P s 0 ∧ AllPartsAt P ps
  | .bitSelect t i, w =>
      P (.bitSelect t i) w ∧ (memoryTarget? T t = none → AllAt P t 0) ∧ AllAt P i 0 ∧ AllAt P i (selfWidth T i)
  | .rangeSelect t m l, w =>
      P (.rangeSelect t m l) w ∧ AllAt P t 0 ∧ (AllAt P m 0 ∧ AllAt P m (selfWidth T m)) ∧
        AllAt P l 0 ∧ AllAt P l (selfWidth T l)
  | .partSelect t b v d, w =>
      P (.partSelect t b v d) w ∧ AllAt P t 0 ∧ (AllAt P b 0 ∧ AllAt P b (selfWidth T b)) ∧ AllAt P v 0
  | .cast s a, w => P (.cast s a) w ∧ AllAt P a (selfWidth T a)
  | .call f as, w => P (.call f as) w

/-- `AllAt` of every concatenated part, at its self-determined width. -/
def AllPartsAt (P : Expr → Nat → Prop) : List Expr → Prop
  | [] => True
  | e :: es => AllAt P e (selfWidth T e) ∧ AllPartsAt P es

end

variable {T}

section

-- derived here once, not by every proof
attribute [local simp] AllAt AllPartsAt

end

/-- The top node is visited. -/
theorem AllAt.self {P : Expr → Nat → Prop} {e : Expr} {w : Nat} (h : AllAt T P e w) : P e w := by
  cases e <;> rw [AllAt] at h
  case ident | literal | string | call => exact h
  all_goals exact h.1

theorem allPartsAt_iff {P : Expr → Nat → Prop} {es : List Expr} :
    AllPartsAt T P es ↔ ∀ e ∈ es, AllAt T P e (selfWidth T e) := by
  induction es with
  | nil => simp [AllPartsAt]
  | cons e es ih => rw [AllPartsAt, ih, List.forall_mem_cons]

/-- A weaker property holds of the same nodes. -/
theorem AllAt.imp {P Q : Expr → Nat → Prop} (hPQ : ∀ e w, P e w → Q e w) {e : Expr} {w : Nat}
    (h : AllAt T P e w) : AllAt T Q e w := by
  induction e generalizing w with
  | ident | literal | string | call =>
    rw [AllAt] at *
    exact hPQ _ _ h
  | unary op e ih =>
    rw [AllAt] at *
    exact ⟨hPQ _ _ h.1, ih h.2⟩
  | binary op l r ihl ihr =>
    rw [AllAt] at *
    exact ⟨hPQ _ _ h.1, ihl h.2.1, ihr h.2.2⟩
  | ternary c t f ihc iht ihf =>
    rw [AllAt] at *
    exact ⟨hPQ _ _ h.1, ihc h.2.1, iht h.2.2.1, ihf h.2.2.2⟩
  | concat b ps ih =>
    rw [AllAt, allPartsAt_iff] at *
    exact ⟨hPQ _ _ h.1, fun p hp => ih p hp (h.2 p hp)⟩
  | replicate c v ihc ihv =>
    rw [AllAt] at *
    exact ⟨hPQ _ _ h.1, ihc h.2.1, ihv h.2.2⟩
  | streaming ps ih =>
    rw [AllAt, allPartsAt_iff] at *
    exact ⟨hPQ _ _ h.1, fun p hp => ih p hp (h.2 p hp)⟩
  | streamingBy s ps ihs ih =>
    rw [AllAt, allPartsAt_iff] at *
    exact ⟨hPQ _ _ h.1, ihs h.2.1, fun p hp => ih p hp (h.2.2 p hp)⟩
  | bitSelect t i iht ihi =>
    rw [AllAt] at *
    exact ⟨hPQ _ _ h.1, fun hm => iht (h.2.1 hm), ihi h.2.2.1, ihi h.2.2.2⟩
  | rangeSelect t m l iht ihm ihl =>
    rw [AllAt] at *
    exact ⟨hPQ _ _ h.1, iht h.2.1, ⟨ihm h.2.2.1.1, ihm h.2.2.1.2⟩, ihl h.2.2.2.1, ihl h.2.2.2.2⟩
  | partSelect t b v d iht ihb ihv =>
    rw [AllAt] at *
    exact ⟨hPQ _ _ h.1, iht h.2.1, ⟨ihb h.2.2.1.1, ihb h.2.2.1.2⟩, ihv h.2.2.2⟩
  | cast s a ih =>
    rw [AllAt] at *
    exact ⟨hPQ _ _ h.1, ih h.2⟩

/-- A property of the node alone does not depend on the width asked for. -/
theorem AllAt.width {P : Expr → Prop} {e : Expr} {w : Nat} (h : AllAt T (fun e _ => P e) e w)
    (w' : Nat) : AllAt T (fun e _ => P e) e w' := by
  induction e generalizing w w' with
  | unary op e ih =>
    rw [AllAt] at *
    exact ⟨h.1, ih h.2 _⟩
  | binary op l r ihl ihr =>
    rw [AllAt] at *
    exact ⟨h.1, ihl h.2.1 _, ihr h.2.2 _⟩
  | ternary c t f ihc iht ihf =>
    rw [AllAt] at *
    exact ⟨h.1, h.2.1, iht h.2.2.1 _, ihf h.2.2.2 _⟩
  | _ =>
    rw [AllAt] at *
    exact h

/-- At widths up to its own an expression visits the same nodes, and only the operands of `~ + -` are asked
for another width. -/
theorem AllAt.of_le {P : Expr → Nat → Prop} {w w' n : Nat} (hw : w ≤ n) (hw' : w' ≤ n)
    (hP : ∀ e, selfWidth T e = n → P e w → P e w') {e : Expr} (he : selfWidth T e = n)
    (h : AllAt T P e w) : AllAt T P e w' := by
  induction e with
  | unary op e ih =>
    rw [AllAt] at *
    refine ⟨hP _ he h.1, ?_⟩
    cases hc : op.contextDetermined with
    | true =>
      rw [selfWidth, hc, if_pos rfl] at he
      rw [hc, if_pos rfl] at h
      exact ih he h.2
    | false =>
      rw [hc, if_neg Bool.false_ne_true] at h
      exact h.2
  | binary op l r ihl ihr =>
    have hself := he
    rw [selfWidth_binary] at hself
    have htarget : operandWidths T op l r w = operandWidths T op l r w' := by
      rcases op.sizing with hc | hc | hc | hc | hc
      · rw [operandWidths_logical _ _ _ hc, operandWidths_logical _ _ _ hc]
      · rw [operandWidths_comparison _ _ _ hc, operandWidths_comparison _ _ _ hc]
      · rw [resultWidth_shift _ _ hc] at hself
        rw [operandWidths_shift _ _ _ hc, operandWidths_shift _ _ _ hc, shiftTarget, shiftTarget,
          hself, Nat.max_eq_right hw, Nat.max_eq_right hw', ite_self, ite_self]
      · rw [resultWidth_bitwise _ _ hc] at hself
        rw [operandWidths_bitwise _ _ _ hc, operandWidths_bitwise _ _ _ hc, operandTarget,
          operandTarget, hself, Nat.max_eq_right hw, Nat.max_eq_right hw']
      · rw [resultWidth_arithmetic _ _ hc] at hself
        rw [operandWidths_arithmetic _ _ _ hc, operandWidths_arithmetic _ _ _ hc, operandTarget,
          operandTarget, hself, Nat.max_eq_right hw, Nat.max_eq_right hw']
    rw [AllAt] at *
    rw [htarget] at h
    exact ⟨hP _ he h.1, h.2⟩
  | ternary c t f ihc iht ihf =>
    have hself := he
    rw [selfWidth] at hself
    rw [AllAt] at *
    rw [hself, Nat.max_eq_right hw] at h
    rw [hself, Nat.max_eq_right hw']
    exact ⟨hP _ he h.1, h.2⟩
  | ident | literal | string | call =>
    rw [AllAt] at *
    exact hP _ he h
  | _ =>
    rw [AllAt] at *
    exact ⟨hP _ he h.1, h.2⟩

end Veriforge

import Veriforge.Value.Truncate
import Veriforge.Sim.Total

/-! # What the requested width does

A self-determined node is evaluated on its own and extended to the width asked for. A context-determined
one carries the width down to its operands, so that asking for its own width is asking for none; asking for
less truncates the result of a binary operator and leaves every other value as wide as it is. -/

namespace Veriforge

open Value

theorem widen_of_le {s : Bool} {v : Value} {w : Nat} (h : w ≤ v.width) : widen s v w = some v := by
  rw [widen, if_neg (Nat.not_lt.mpr h)]

@[simp] theorem widen_zero (s : Bool) (v : Value) : widen s v 0 = some v :=
  widen_of_le (Nat.zero_le _)

@[simp] theorem fit_zero (s : Bool) (v : Value) : fit s v 0 = some v := by
  rw [fit, if_neg fun h => h.1 rfl]

theorem extendTo_of_width {s : Bool} {v : Value} {w : Nat} (h : v.width = w) : extendTo s v w = some v := by
  cases s with
  | true => exact signExtend_of_width h
  | false => exact congrArg some (resize_of_width h)

theorem extendTo_of_le {s : Bool} {v : Value} {w : Nat} (h : w ≤ v.width) : extendTo s v w = some (v.resize w) := by
  cases s with
  | true => exact signExtend_of_le h
  | false => rfl

theorem fit_of_width {s : Bool} {v : Value} {w : Nat} (h : v.width = w) : fit s v w = some v := by
  rw [fit, if_neg fun hc => hc.2 h]

theorem fit_of_le {s : Bool} {v : Value} {w : Nat} (h0 : 0 < w) (h : w ≤ v.width) :
    fit s v w = some (v.resize w) := by
  rcases h.eq_or_lt with heq | hlt
  · rw [fit_of_width heq.symm, resize_of_width heq.symm]
  · rw [fit, if_pos ⟨by omega, by omega⟩, extendTo_of_le h]

theorem bind_fit_of_width {r : Option Value} {s : Bool} {w : Nat}
    (h : ∀ v, r = some v → w = 0 ∨ v.width = w) : (r.bind fun v => fit s v w) = r := by
  cases r with
  | none => rfl
  | some v =>
    rw [Option.bind_some]
    rcases h v rfl with rfl | hw
    · exact fit_zero s v
    · exact fit_of_width hw

theorem align_of_width {s : Bool} {v : Value} {w : Nat} (h : v.width = w) : align s v w = some v := by
  rw [align, if_neg fun hc => hc h]

/-- A one-bit result is fitted by widening it. -/
theorem fit_of_width_one {s : Bool} {v : Value} {w : Nat} (h : v.width = 1) : fit s v w = widen s v w := by
  unfold fit widen
  by_cases hw : w ≠ 0 ∧ v.width ≠ w
  · rw [if_pos hw, if_pos (by omega)]
  · rw [if_neg hw, if_neg (by omega)]

variable {T : SignalTable} {st : Store T}

/-! ## Signedness -/

section

variable {op : BinaryOp} (l r : Expr)

theorem exprSigned_logical (h : op.isLogical = true) : exprSigned T (.binary op l r) = false := by
  rw [exprSigned]
  cases op <;> first | rfl | cases h

theorem exprSigned_comparison (h : op.isComparison = true) : exprSigned T (.binary op l r) = false := by
  rw [exprSigned]
  cases op <;> first | rfl | cases h

theorem exprSigned_shift (h : (op.isShift || op == .pow) = true) :
    exprSigned T (.binary op l r) = exprSigned T l := by
  rw [exprSigned, if_pos h]

theorem exprSigned_bitwise (h : op.isBitwise = true) :
    exprSigned T (.binary op l r) = (exprSigned T l && exprSigned T r) := by
  rw [exprSigned]
  cases op <;> first | rfl | cases h

theorem exprSigned_arithmetic (h : op.isArithmetic = true) :
    exprSigned T (.binary op l r) = (exprSigned T l && exprSigned T r) := by
  rw [exprSigned]
  cases op <;> first | rfl | cases h

end

theorem exprSigned_bitSelect_memory {t i : Expr} {m : String × Nat × Nat}
    (h : memoryTarget? T t = some m) : exprSigned T (.bitSelect t i) = T.signed m.1 := by
  obtain ⟨⟨hier, n, rfl, hname⟩, hmem⟩ := memoryTarget?_eq_some h
  rw [exprSigned, SignalTable.isMemory, ← hname, hmem]
  rfl

theorem exprSigned_bitSelect {t i : Expr} (h : memoryTarget? T t = none) : exprSigned T (.bitSelect t i) = false := by
  cases t
  case ident hier n =>
    rw [memoryTarget?, Option.map_eq_none_iff] at h
    rw [exprSigned, SignalTable.isMemory, h]
    rfl
  all_goals rfl

/-- Without an override an expression is extended by its own signedness. -/
theorem evalRequest_signed (e : Expr) (w : Nat) :
    evalRequest st e (.context w none) = evalRequest st e (.context w (some (exprSigned T e))) := by
  induction e generalizing w with
  | unary op e ih =>
    cases hc : op.contextDetermined with
    | true =>
      have hs : exprSigned T (.unary op e) = exprSigned T e := by
        rw [exprSigned, hc, Bool.true_and]
      rw [evalRequest_unary_context hc, evalRequest_unary_context hc, hs]
      show (evalRequest st e (.context w none)).bind _ = _
      rw [ih]
      rfl
    | false =>
      have hs : exprSigned T (.unary op e) = false := by
        rw [exprSigned, hc, Bool.false_and]
      rw [evalRequest_unary_self hc, evalRequest_unary_self hc, hs]
      rfl
  | binary op l r ihl ihr =>
    rcases op.sizing with hc | hc | hc | hc | hc
    · rw [evalRequest_logical hc, evalRequest_logical hc, exprSigned_logical _ _ hc]
      rfl
    · rw [evalRequest_comparison hc, evalRequest_comparison hc, exprSigned_comparison _ _ hc]
      rfl
    · rw [evalRequest_shift hc, evalRequest_shift hc, exprSigned_shift _ _ hc]
      rfl
    · rw [evalRequest_bitwise hc, evalRequest_bitwise hc, exprSigned_bitwise _ _ hc]
      rfl
    · rw [evalRequest_arithmetic hc, evalRequest_arithmetic hc, exprSigned_arithmetic _ _ hc]
      rfl
  | bitSelect t i =>
    rw [evalRequest, evalRequest]
    cases hm : memoryTarget? T t with
    | none =>
      rw [exprSigned_bitSelect hm]
      rfl
    | some m =>
      rw [exprSigned_bitSelect_memory hm]
      rfl
  | string | call => rw [evalRequest, evalRequest]
  | _ =>
    rw [evalRequest, evalRequest]
    rfl

theorem evalRequest_getD (e : Expr) (w : Nat) (ov : Option Bool) : evalRequest st e (.context w ov)
      = evalRequest st e (.context w (some (ov.getD (exprSigned T e)))) := by
  cases ov with
  | none => exact evalRequest_signed e w
  | some s => rfl

/-- The width the innermost argument of nested casts is asked for: a cast passes the request on. -/
def innerWidth (T : SignalTable) : Expr → Nat
  | .cast _ _ => 0
  | e => selfWidth T e

theorem innerWidth_eq (T : SignalTable) (e : Expr) : innerWidth T e = 0 ∨ innerWidth T e = selfWidth T e := by
  cases e
  case cast s a => exact Or.inl rfl
  all_goals exact Or.inr rfl

theorem evalRequest_inner (e : Expr) :
    evalRequest st e .inner = evalRequest st e (.context (innerWidth T e) none) := by
  cases e
  case cast s a =>
    rw [evalRequest, evalRequest, innerWidth]
    show _ = (evalRequest st a .inner).bind _
    simp only [widen_zero, Option.bind_fun_some]
  case string | call => rw [evalRequest, evalRequest]
  all_goals
    rw [evalRequest, evalRequest]
    rfl

/-! ## Self-determined nodes -/

/-- The node is evaluated on its own, whatever width it is asked for. -/
def Expr.selfDetermined : Expr → Bool
  | .unary op _ => !op.contextDetermined
  | .binary op _ _ => op.isLogical || op.isComparison
  | .ternary _ _ _ => false
  | .literal l => !Literal.isUnsizedXz l.originalText
  | _ => true

/-- A self-determined node is evaluated at no width and then extended. -/
theorem evalRequest_selfDetermined {e : Expr} (hs : e.selfDetermined = true)
    (hl : legal T e = true) (w : Nat) (ov : Option Bool) :
    evalRequest st e (.context w ov)
      = (evalRequest st e (.context 0 ov)).bind fun v => widen (ov.getD (exprSigned T e)) v w := by
  cases e with
  | ident hier n =>
    rw [evalRequest, evalRequest]
    cases hv : st.signal? (identifierName hier n) with
    | some v => simp [Request.signedOverride]
    | none =>
      cases hm : st.readWholeMemory (identifierName hier n) with
      | some v => simp [Request.signedOverride]
      | none =>
        rw [Store.signal?, Option.map_eq_none_iff] at hv
        rw [legal, SignalTable.isMemory, hv] at hl
        obtain ⟨m, hmem⟩ := Option.isSome_iff_exists.mp hl
        obtain ⟨u, hu, -⟩ := readWholeMemory_eq_some st hmem
        rw [hu] at hm
        cases hm
  | literal l =>
    have hxz : Literal.isUnsizedXz l.originalText = false := by
      rw [Expr.selfDetermined, Bool.not_eq_true'] at hs
      exact hs
    rw [evalRequest, evalRequest]
    simp [Request.signedOverride, hxz, widen, exprSigned]
  | unary op e =>
    have hc : op.contextDetermined = false := by
      rw [Expr.selfDetermined, Bool.not_eq_true'] at hs
      exact hs
    rw [evalRequest_unary_self hc, evalRequest_unary_self hc, exprSigned, hc, Option.bind_assoc]
    simp [Request.signedOverride]
  | binary op l r =>
    rw [Expr.selfDetermined, Bool.or_eq_true] at hs
    rcases hs with hc | hc
    · rw [evalRequest_logical hc, evalRequest_logical hc, exprSigned_logical _ _ hc]
      simp only [Option.bind_assoc, Request.width_context, fit_zero, Option.bind_some, Request.signedOverride]
      refine Option.bind_congr fun a _ => Option.bind_congr fun b _ => Option.bind_congr fun u hu => ?_
      exact fit_of_width_one (by rw [evalBinaryOp_width hu, resultWidth_logical _ _ hc])
    · have hna : ∀ a b : Value, op.isArithmetic = true → b.width ≤ a.width := by
        rw [BinaryOp.not_arithmetic_of_comparison hc]
        exact fun _ _ h => absurd h Bool.false_ne_true
      rw [evalRequest_comparison hc, evalRequest_comparison hc, exprSigned_comparison _ _ hc]
      simp only [Option.bind_assoc, Request.width_context, fit_zero, Option.bind_some, Request.signedOverride]
      refine Option.bind_congr fun a _ => Option.bind_congr fun b _ => Option.bind_congr fun a' _ =>
        Option.bind_congr fun b' _ => Option.bind_congr fun u hu => ?_
      exact fit_of_width_one (by
        rw [evalBinaryResult_width hu (hna _ _), resultWidth_comparison _ _ hc])
  | bitSelect t i =>
    rw [evalRequest, evalRequest]
    cases hm : memoryTarget? T t with
    | none =>
      rw [exprSigned_bitSelect hm]
      simp [Request.signedOverride, Option.bind_assoc]
    | some m =>
      rw [exprSigned_bitSelect_memory hm]
      simp [Request.signedOverride, Option.bind_assoc]
  | concat b ps =>
    have hne : ps.isEmpty = false := by
      rw [legal, Bool.not_eq_true'] at hl
      exact hl
    rw [evalRequest, evalRequest]
    simp [Request.signedOverride, Option.bind_assoc, hne, exprSigned]
  | replicate | rangeSelect | partSelect | cast =>
    rw [evalRequest, evalRequest]
    simp [Request.signedOverride, Option.bind_assoc, exprSigned]
  | ternary => exact absurd hs Bool.false_ne_true
  | string | streaming | streamingBy | call => exact absurd hl Bool.false_ne_true

/-! ## Asking for the own width -/

/-- Asked for at least its own width, an expression gets exactly the width asked for. -/
theorem evalRequest_width_of_le {e : Expr} {w : Nat} {ov : Option Bool} {v : Value}
    (h : evalRequest st e (.context w ov) = some v) (hl : AllAt T (fun e _ => legal T e = true) e w)
    (hw : selfWidth T e ≤ w) : v.width = w := by
  have hb := evalRequest_width h hl
  rw [Request.width_context, Nat.max_eq_left hw] at hb
  exact le_antisymm hb.2 hb.1

theorem evalRequest_width_of_none {e : Expr} {ov : Option Bool} {v : Value}
    (h : evalRequest st e (.context 0 ov) = some v) (hl : AllAt T (fun e _ => legal T e = true) e 0)
    (hx : e.exactCore = true) : v.width = selfWidth T e := evalRequest_width_of_zero rfl h hl hx

theorem fitOperand_of_width {e : Expr} {ov : Option Bool} {w : Nat} {v : Value}
    (h : w = 0 ∨ v.width = w) : fitOperand T e ov w v = some v := by
  rw [fitOperand, if_neg fun hc => h.elim hc.1 hc.2]

/-! Operands asked for at least their own width come back at the width asked for, and need no further
extension. -/

theorem evalRequest_unary_sized {op : UnaryOp} (hc : op.contextDetermined = true) {e : Expr} {w : Nat}
    (ov : Option Bool) (hl : AllAt T (fun e _ => legal T e = true) e w) (hw : w = 0 ∨ selfWidth T e ≤ w) :
    evalRequest st (.unary op e) (.context w ov)
      = (evalRequest st e (.context w ov)).map (evalUnaryOp op) := by
  rw [evalRequest_unary_context hc, Option.map_eq_bind, Request.width_context]
  refine Option.bind_congr fun v hv => ?_
  rw [fitOperand_of_width (hw.imp_right fun h => evalRequest_width_of_le hv hl h)]
  rfl

theorem evalRequest_comparison_sized {op : BinaryOp} (hc : op.isComparison = true) {l r : Expr}
    {w : Nat} (ov : Option Bool) (hl : AllAt T (fun e _ => legal T e = true) (.binary op l r) w) :
    evalRequest st (.binary op l r) (.context w ov)
      = (evalRequest st l (.context (max (selfWidth T l) (selfWidth T r))
          (some (exprSigned T l && exprSigned T r)))).bind fun a =>
        (evalRequest st r (.context (max (selfWidth T l) (selfWidth T r))
          (some (exprSigned T l && exprSigned T r)))).bind fun b =>
        (evalBinaryResult op (exprSigned T l && exprSigned T r) false a b).bind fun u =>
          fit (ov.getD false) u w := by
  rw [AllAt, operandWidths_comparison _ _ _ hc] at hl
  rw [evalRequest_comparison hc]
  refine Option.bind_congr fun a ha => Option.bind_congr fun b hb => ?_
  rw [widen_of_le (evalRequest_width_of_le ha hl.2.1 (le_max_left _ _)).ge, Option.bind_some,
    widen_of_le (evalRequest_width_of_le hb hl.2.2 (le_max_right _ _)).ge, Option.bind_some]
  rfl

theorem selfWidth_le_shiftTarget (l : Expr) (w : Nat) : selfWidth T l ≤ shiftTarget T l w := by
  unfold shiftTarget
  split
  · exact le_max_right _ _
  · exact le_rfl

theorem evalRequest_shift_sized {op : BinaryOp} (hc : (op.isShift || op == .pow) = true) {l r : Expr}
    {w : Nat} (ov : Option Bool) (hl : AllAt T (fun e _ => legal T e = true) (.binary op l r) w) :
    evalRequest st (.binary op l r) (.context w ov)
      = (evalRequest st l (.context (shiftTarget T l w) (some (ov.getD (exprSigned T l))))).bind fun a =>
        (evalRequest st r (.context (if op == .pow then selfWidth T r else 0) none)).bind fun b =>
        (evalBinaryResult op (exprSigned T l && exprSigned T r) (ov.getD (exprSigned T l)) a b).bind
          fun u => fit (ov.getD (exprSigned T l)) u w := by
  rw [AllAt, operandWidths_shift _ _ _ hc] at hl
  rw [evalRequest_shift hc]
  refine Option.bind_congr fun a ha => ?_
  rw [widen_of_le (evalRequest_width_of_le ha hl.2.1 (selfWidth_le_shiftTarget l w)).ge, Option.bind_some]
  rfl

theorem selfWidth_le_operandTarget_left (l r : Expr) (w : Nat) : selfWidth T l ≤ operandTarget T l r w := by
  unfold operandTarget
  omega

theorem selfWidth_le_operandTarget_right (l r : Expr) (w : Nat) : selfWidth T r ≤ operandTarget T l r w := by
  unfold operandTarget
  omega

theorem operandWidths_operands {op : BinaryOp} (hc : op.isBitwise = true ∨ op.isArithmetic = true)
    (l r : Expr) (w : Nat) :
    operandWidths T op l r w = (operandTarget T l r w, operandTarget T l r w) :=
  hc.elim (operandWidths_bitwise l r w) (operandWidths_arithmetic l r w)

theorem evalBinaryResult_bitwise {op : BinaryOp} (hc : op.isBitwise = true) (bs ss : Bool)
    (a b : Value) : evalBinaryResult op bs ss a b = evalBinaryOp op a b := by
  cases op <;> first | rfl | cases hc

theorem evalBinaryResult_logical {op : BinaryOp} (hc : op.isLogical = true) (bs ss : Bool)
    (a b : Value) : evalBinaryResult op bs ss a b = evalBinaryOp op a b := by
  cases op <;> first | rfl | cases hc

theorem evalRequest_operands_sized {op : BinaryOp}
    (hc : op.isBitwise = true ∨ op.isArithmetic = true) {l r : Expr} {w : Nat} (ov : Option Bool)
    (hl : AllAt T (fun e _ => legal T e = true) (.binary op l r) w) :
    evalRequest st (.binary op l r) (.context w ov)
      = (evalRequest st l (.context (operandTarget T l r w)
          (some (ov.getD (exprSigned T l && exprSigned T r))))).bind fun a =>
        (evalRequest st r (.context (operandTarget T l r w)
          (some (ov.getD (exprSigned T l && exprSigned T r))))).bind fun b =>
        (evalBinaryResult op (exprSigned T l && exprSigned T r) false a b).bind fun u =>
          fit (ov.getD (exprSigned T l && exprSigned T r)) u w := by
  rw [AllAt, operandWidths_operands hc] at hl
  have hwa : ∀ {a}, evalRequest st l (.context (operandTarget T l r w)
      (some (ov.getD (exprSigned T l && exprSigned T r)))) = some a →
      a.width = operandTarget T l r w := fun ha =>
    evalRequest_width_of_le ha hl.2.1 (selfWidth_le_operandTarget_left l r w)
  have hwb : ∀ {b}, evalRequest st r (.context (operandTarget T l r w)
      (some (ov.getD (exprSigned T l && exprSigned T r)))) = some b →
      b.width = operandTarget T l r w := fun hb =>
    evalRequest_width_of_le hb hl.2.2 (selfWidth_le_operandTarget_right l r w)
  rcases hc with hc | hc
  · rw [evalRequest_bitwise hc, Request.width_context, Request.signedOverride_context]
    refine Option.bind_congr fun a ha => Option.bind_congr fun b hb => ?_
    rw [align_of_width (hwa ha), Option.bind_some, align_of_width (hwb hb), Option.bind_some,
      evalBinaryResult_bitwise hc]
  · rw [evalRequest_arithmetic hc, Request.width_context, Request.signedOverride_context]
    refine Option.bind_congr fun a ha => Option.bind_congr fun b hb => ?_
    rw [widen_of_le (hwa ha).ge, Option.bind_some, widen_of_le (hwb hb).ge, Option.bind_some]

/-- The result of a bitwise or arithmetic operator on operands of one width. -/
theorem evalBinaryResult_width_of_eq {op : BinaryOp}
    (hc : op.isBitwise = true ∨ op.isArithmetic = true) {bs ss : Bool} {a b u : Value}
    (hw : b.width = a.width) (h : evalBinaryResult op bs ss a b = some u) : u.width = a.width := by
  rw [evalBinaryResult_width h fun _ => hw.le]
  rcases hc with hc | hc
  · rw [resultWidth_bitwise _ _ hc, hw, Nat.max_self]
  · rw [resultWidth_arithmetic _ _ hc, hw, Nat.max_self]

theorem evalBinaryResult_width_of_shift {op : BinaryOp} (hc : (op.isShift || op == .pow) = true)
    {bs ss : Bool} {a b u : Value} (h : evalBinaryResult op bs ss a b = some u) :
    u.width = a.width := by
  rw [evalBinaryResult_width h, resultWidth_shift _ _ hc]
  rw [BinaryOp.not_arithmetic_of_shift hc]
  exact fun h => absurd h Bool.false_ne_true

theorem evalRequest_none_of_selfDetermined {e : Expr} (hs : e.selfDetermined = true)
    (hl : AllAt T (fun e _ => legal T e = true) e 0) (hx : e.exactCore = true) (ov : Option Bool) :
    evalRequest st e (.context 0 ov) = evalRequest st e (.context (selfWidth T e) ov) := by
  have hid : (evalRequest st e (.context 0 ov)).bind some
      = (evalRequest st e (.context 0 ov)).bind fun v =>
          widen (ov.getD (exprSigned T e)) v (selfWidth T e) :=
    Option.bind_congr fun v hv => (widen_of_le (evalRequest_width_of_none hv hl hx).ge).symm
  rw [evalRequest_selfDetermined hs hl.self (selfWidth T e), ← hid, Option.bind_fun_some]

theorem evalRequest_none_of_operands {op : BinaryOp}
    (hc : op.isBitwise = true ∨ op.isArithmetic = true) {l r : Expr}
    (hl : AllAt T (fun e _ => legal T e = true) (.binary op l r) 0) (ov : Option Bool) :
    evalRequest st (.binary op l r) (.context 0 ov)
      = evalRequest st (.binary op l r) (.context (selfWidth T (.binary op l r)) ov) := by
  have hself : selfWidth T (.binary op l r) = operandTarget T l r 0 := by
    rw [selfWidth_binary, operandTarget, Nat.zero_max]
    exact hc.elim (resultWidth_bitwise _ _) (resultWidth_arithmetic _ _)
  have ht : operandTarget T l r (operandTarget T l r 0) = operandTarget T l r 0 := by
    unfold operandTarget
    omega
  rw [evalRequest_operands_sized hc ov hl, hself, evalRequest_operands_sized hc ov (hl.width _), ht]
  refine Option.bind_congr fun a ha => Option.bind_congr fun b hb => Option.bind_congr fun u hu => ?_
  rw [AllAt, operandWidths_operands hc] at hl
  have hwa := evalRequest_width_of_le ha hl.2.1 (selfWidth_le_operandTarget_left l r 0)
  have hwb := evalRequest_width_of_le hb hl.2.2 (selfWidth_le_operandTarget_right l r 0)
  rw [fit_zero, fit_of_width]
  rw [evalBinaryResult_width_of_eq hc (hwb.trans hwa.symm) hu, hwa]

/-- An expression asked for no width is computed at its own. -/
theorem evalRequest_none {e : Expr} (hl : AllAt T (fun e _ => legal T e = true) e 0)
    (hx : e.exactCore = true) (ov : Option Bool) :
    evalRequest st e (.context 0 ov) = evalRequest st e (.context (selfWidth T e) ov) := by
  induction e generalizing ov with
  | literal l =>
    have hex : l.evalLiteral.width = l.selfWidth := beq_iff_eq.mp hx
    rw [evalRequest, evalRequest, Request.width_context, selfWidth, if_neg (Nat.not_lt_zero _),
      Request.width_context, if_neg (by rw [hex]; exact lt_irrefl _)]
  | unary op e ih =>
    cases hc : op.contextDetermined with
    | false =>
      exact evalRequest_none_of_selfDetermined (by rw [Expr.selfDetermined, hc]; rfl) hl hx ov
    | true =>
      rw [AllAt, hc, if_pos rfl] at hl
      rw [Expr.exactCore, hc, Bool.not_true, Bool.false_or] at hx
      have hself : selfWidth T (.unary op e) = selfWidth T e := by rw [selfWidth, hc, if_pos rfl]
      rw [evalRequest_unary_sized hc ov hl.2 (Or.inl rfl), hself,
        evalRequest_unary_sized hc ov (hl.2.width _) (Or.inr le_rfl), ih hl.2 hx ov]
  | binary op l r ihl ihr =>
    have hself := selfWidth_binary T op l r
    have hl' := hl
    rw [AllAt] at hl'
    rcases op.sizing with hc | hc | hc | hc | hc
    · exact evalRequest_none_of_selfDetermined (by rw [Expr.selfDetermined, hc]; rfl) hl rfl ov
    · exact evalRequest_none_of_selfDetermined (by rw [Expr.selfDetermined, hc, Bool.or_true]) hl rfl
        ov
    · rw [resultWidth_shift _ _ hc] at hself
      rw [operandWidths_shift _ _ _ hc] at hl'
      have ht : shiftTarget T l (selfWidth T l) = selfWidth T l := by
        rw [shiftTarget, Nat.max_self, ite_self]
      have ht0 : shiftTarget T l 0 = selfWidth T l := by rw [shiftTarget, if_neg (not_not_intro rfl)]
      rw [evalRequest_shift_sized hc ov hl, hself, evalRequest_shift_sized hc ov (hl.width _), ht, ht0]
      refine Option.bind_congr fun a ha => Option.bind_congr fun b _ => Option.bind_congr fun u hu => ?_
      rw [fit_zero, fit_of_width]
      rw [evalBinaryResult_width_of_shift hc hu]
      exact evalRequest_width_of_le ha (ht0 ▸ hl'.2.1) le_rfl
    · exact evalRequest_none_of_operands (Or.inl hc) hl ov
    · exact evalRequest_none_of_operands (Or.inr hc) hl ov
  | ternary c t f ihc iht ihf =>
    rw [evalRequest, evalRequest, Request.width_context, Request.width_context, selfWidth, Nat.zero_max, Nat.max_self]
    rfl
  | _ => exact evalRequest_none_of_selfDetermined rfl hl rfl ov

end Veriforge

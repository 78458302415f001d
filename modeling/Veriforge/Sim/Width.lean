import Veriforge.Sim.Context

/-! # Static width and signedness

`_expr_self_width` and `_expr_signed` of `sim/evaluator.py`: the self-determined width and the
signedness of an expression, read off its shape and the declarations. -/

namespace Veriforge

variable (T : SignalTable)

/-- The low bound a select's position is adjusted by (`_select_base`). -/
def selectBase : Expr → Int
  | .ident h n => T.signalBase (identifierName h n)
  | .bitSelect (.ident h n) _ =>
      if T.isMemory (identifierName h n) then T.memoryBase (identifierName h n) else 0
  | _ => 0

/-- The name, element width and depth when `target` names a memory. -/
def memoryTarget? : Expr → Option (String × Nat × Nat)
  | .ident h n => (T.memory (identifierName h n)).map fun m => (identifierName h n, m.1, m.2)
  | _ => none

variable {T} in
theorem memoryTarget?_eq_some {t : Expr} {name : String} {ew d : Nat}
    (h : memoryTarget? T t = some (name, ew, d)) :
    (∃ hier n, t = .ident hier n ∧ name = identifierName hier n) ∧ T.memory name = some (ew, d) := by
  cases t
  case ident hier n =>
    obtain ⟨m, hm, heq⟩ := Option.map_eq_some_iff.mp h
    cases heq
    exact ⟨⟨hier, n, rfl, rfl⟩, hm⟩
  all_goals cases h

/-- The width of one element when `target` names a memory. -/
def memoryWidth? (target : Expr) : Option Nat := (memoryTarget? T target).map fun m => m.2.1

/-- `int(msb.value) - int(lsb.value) + 1` for two literal bounds. (Legal bounds descend and are known;
the source raises on an `x` bound.) -/
def literalRangeWidth (m l : Literal) : Nat :=
  match m.intValue, l.intValue with
  | some m, some l => (m - l + 1).toNat
  | _, _ => 1

mutual

/-- `_expr_self_width`. -/
def selfWidth : Expr → Nat
  | .ident h n =>
      let name := identifierName h n
      match T.width name with
      | some w => w
      | none =>
          match T.memory name with
          | some (ew, d) => ew * d
          | none => 32
  | .literal l => l.selfWidth
  | .string s => s.length * 8
  | .unary op e => if op.contextDetermined then selfWidth e else 1
  | .binary op l r =>
      if op.isComparison || op.isLogical then 1
      else if op.isShift || op == .pow then selfWidth l
      else max (selfWidth l) (selfWidth r)
  | .ternary _ t f => max (selfWidth t) (selfWidth f)
  | .concat _ ps => selfWidthSum ps
  | .streaming ps => selfWidthSum ps
  | .streamingBy _ ps => selfWidthSum ps
  | .replicate c v =>
      match c with
      | .literal l => (l.intValue.getD 0).toNat * selfWidth v
      | _ => selfWidth v
  | .bitSelect t _ => (memoryWidth? T t).getD 1
  | .rangeSelect _ m l =>
      match m, l with
      | .literal m, .literal l => literalRangeWidth m l
      | _, _ => 1
  | .partSelect _ _ w _ =>
      match w with
      | .literal l => (l.intValue.getD 0).toNat
      | _ => 1
  | .cast _ a => selfWidth a
  | .call _ _ => 32

/-- The sum of the self-determined widths of concatenated parts. -/
def selfWidthSum : List Expr → Nat
  | [] => 0
  | e :: es => selfWidth e + selfWidthSum es

end

/-- `_expr_signed`. -/
def exprSigned : Expr → Bool
  | .ident h n => T.signed (identifierName h n)
  | .literal l => l.signed
  | .bitSelect t _ =>
      match t with
      | .ident h n => T.isMemory (identifierName h n) && T.signed (identifierName h n)
      | _ => false
  | .unary op e => op.contextDetermined && exprSigned e
  | .binary op l r =>
      if op.isShift || op == .pow then exprSigned l
      else if op.isComparison || op.isLogical then false
      else exprSigned l && exprSigned r
  | .ternary _ t f => exprSigned t && exprSigned f
  | .cast s _ => s
  | .string _ | .concat _ _ | .streaming _ | .streamingBy _ _ | .replicate _ _ => false
  | .rangeSelect _ _ _ | .partSelect _ _ _ _ | .call _ _ => false

/-- The argument of nested casts: `$unsigned($signed(e))` is `e`. -/
def stripCasts : Expr → Expr
  | .cast _ a => stripCasts a
  | e => e

@[simp] theorem selfWidth_stripCasts (e : Expr) : selfWidth T (stripCasts e) = selfWidth T e := by
  induction e using stripCasts.induct with
  | case1 s a ih => rw [stripCasts, ih, selfWidth]
  | case2 e h =>
    rw [stripCasts]
    exact h

theorem selfWidth_binary (op : BinaryOp) (l r : Expr) :
    selfWidth T (.binary op l r) = resultWidth op (selfWidth T l) (selfWidth T r) := by
  rw [selfWidth, resultWidth]

theorem selfWidthSum_cons (e : Expr) (es : List Expr) :
    selfWidthSum T (e :: es) = selfWidth T e + selfWidthSum T es := by
  rw [selfWidthSum]

end Veriforge

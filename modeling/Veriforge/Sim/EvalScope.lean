import Veriforge.Sim.Eval
import Veriforge.Sim.Scope

/-! # The reference evaluator with names in scope

`ExpressionEvaluator.eval` (`sim/evaluator.py`) in a scope: struct fields, `$clog2`, `$bits` and calls of
user functions, which may write the state they are called in. -/

namespace Veriforge

open Value Exec

/-- A computation of the evaluator. -/
abbrev EvalM (T : SignalTable) := Exec Unit (Store T)

/-- `(n - 1).bit_length()`, 0 for `n` 0. -/
def clog2 (n : Nat) : Nat := if n = 0 then 0 else Literal.bitLength (n - 1)

/-- `_eval_function_call` of a system function. -/
def evalSystem (f : SystemFunction) (args : List Value) : Value :=
  match f, args with
  | .clog2, v :: _ => if v.isDefined then ofInt (clog2 v.val) 32 else x 32
  | .bits, v :: _ => ofInt v.width 32
  | _, [] => x 32

namespace Scope

variable {T : SignalTable} (S : Scope T)

/-- The value of an operation, or its exception. -/
def value (o : Option Value) : EvalM T Value := ofOption () o

/-- The requested width. -/
def requestWidth (e : Expr) : Request → Nat
  | .context w _ => w
  | .inner => S.selfWidth e

/-- An identifier: a signal, a whole memory, a struct field, else `x`. -/
def identValue (name : String) (effSigned : Bool) (width : Nat) (st : Store T) : Option Value :=
  match st.signal? name with
  | some v => widen effSigned v width
  | none =>
      match st.readWholeMemory name with
      | some whole => widen effSigned whole width
      | none =>
          match S.field name with
          | some access => some (access.read st)
          | none => some (x 1)

/-- The operand of `~ + -` brought to the context's width, or its own when that is larger. -/
def fitOperand (e : Expr) (signedOverride : Option Bool) (width : Nat) (operand : Value) : Option Value :=
  if width ≠ 0 ∧ operand.width ≠ width then
    extendTo (signedOverride.getD (S.exprSigned e)) operand (max width (S.selfWidth e))
  else some operand

/-- `_index_int`; `again` evaluates the index at its own width. -/
def indexInt (index : Expr) (v : Value) (again : EvalM T Value) : EvalM T Int :=
  if !S.exprSigned index then pure v.val
  else if v.width < S.selfWidth index then do
    let v ← again
    ofOption () v.asSigned
  else ofOption () v.asSigned

/-- The base of a part select. -/
def partBase (base : Expr) (v : Value) : Option Int :=
  if S.exprSigned base then
    if v.width = 0 then none
    else if v.val >>> (v.width - 1) ≠ 0 then some ((v.val : Int) - 2 ^ v.width) else some v.val
  else some v.val

/-- A bit of an evaluated target. -/
def selectBit (t : Expr) (target : Value) (i : Expr) (index : Value) (again : EvalM T Value) : EvalM T Value :=
  if index.isDefined then do
    let idx ← S.indexInt i index again
    return target.getBit (idx - selectBase T t)
  else pure (x 1)

/-- A word of a memory. -/
def selectWord (name : String) (ew depth : Nat) (i : Expr) (index : Value) (again : EvalM T Value) : EvalM T Value :=
  if index.isDefined then do
    let idx ← S.indexInt i index again
    read fun st => st.readWord name ew depth idx
  else pure (x ew)

/-- A constant range of an evaluated target. -/
def selectRange (t : Expr) (target : Value) (m : Expr) (msb : Value) (msbAgain : EvalM T Value)
    (l : Expr) (lsb : Value) (lsbAgain : EvalM T Value) : EvalM T Value :=
  if msb.isDefined ∧ lsb.isDefined then do
    let mi ← S.indexInt m msb msbAgain
    let li ← S.indexInt l lsb lsbAgain
    return target.getRange (mi - selectBase T t) (li - selectBase T t)
  else pure (x 1)

/-- An indexed part of an evaluated target. -/
def selectPart (t : Expr) (target : Value) (b : Expr) (base partW : Value) (d : Direction) : Option Value :=
  if base.isDefined ∧ partW.isDefined then do
    let bi ← S.partBase b base
    return getPart target (bi - selectBase T t) partW.val d
  else some (x (if partW.isDefined ∧ 0 < partW.val then partW.val else 1))

/-- The right operand of `&&` or `||`: not evaluated once the left one decides. -/
def shortCircuit (op : BinaryOp) (left : Value) (right : EvalM T Value) : EvalM T Value :=
  if (if op == .logOr then !left.knownOne else (left.val ||| left.mask) != 0) then right
  else pure (ofInt 0 1)

mutual

/-- `eval`. -/
def eval : Expr → Request → EvalM T Value
  | .ident h n, q => do
      let width := S.requestWidth (.ident h n) q
      let effSigned := q.signedOverride.getD (S.exprSigned (.ident h n))
      value (← read (S.identValue (identifierName h n) effSigned width))
  | .literal l, q => do
      let width := S.requestWidth (.literal l) q
      let v := l.evalLiteral
      if v.width < width then
        if Literal.isUnsizedXz l.originalText then
          pure (init v.val width (v.mask ||| (maskForWidth width ^^^ maskForWidth v.width)))
        else value (extendTo (q.signedOverride.getD l.signed) v width)
      else pure v
  | .string s, _ =>
      pure (ofInt (s.toList.foldl (fun v c => (v <<< 8) ||| c.toNat) 0 : Nat) (s.length * 8))
  | .unary op e, q => do
      let width := S.requestWidth (.unary op e) q
      if op.contextDetermined then
        let operand ← eval e (.context width q.signedOverride)
        let operand ← value (S.fitOperand e q.signedOverride width operand)
        return evalUnaryOp op operand
      else
        let operand ← eval e (.context (S.selfWidth e) none)
        value (widen (q.signedOverride.getD false) (evalUnaryOp op operand) width)
  | .binary op l r, q => do
      let width := S.requestWidth (.binary op l r) q
      let bothSigned := S.exprSigned l && S.exprSigned r
      let effSigned := q.signedOverride.getD bothSigned
      let shiftSigned := q.signedOverride.getD (S.exprSigned l)
      let resultSigned := q.signedOverride.getD (S.exprSigned (.binary op l r))
      if op.isLogical then
        let left ← eval l (.context 0 none)
        let right ← shortCircuit op left (eval r (.context 0 none))
        let result ← value (evalBinaryResult op bothSigned shiftSigned left right)
        value (fit resultSigned result width)
      else if op.isComparison then
        let target := max (S.selfWidth l) (S.selfWidth r)
        let left ← eval l (.context target (some bothSigned))
        let right ← eval r (.context target (some bothSigned))
        let left ← value (widen bothSigned left target)
        let right ← value (widen bothSigned right target)
        let result ← value (evalBinaryResult op bothSigned shiftSigned left right)
        value (fit resultSigned result width)
      else if op.isShift || op == .pow then
        let target := if width ≠ 0 then max width (S.selfWidth l) else S.selfWidth l
        let left ← eval l (.context target (some shiftSigned))
        let left ← value (widen shiftSigned left target)
        let right ← eval r (.context (if op == .pow then S.selfWidth r else 0) none)
        let result ← value (evalBinaryResult op bothSigned shiftSigned left right)
        value (fit resultSigned result width)
      else if op.isBitwise then
        let opWidth := max (max (S.selfWidth l) (S.selfWidth r)) width
        let left ← eval l (.context opWidth (some effSigned))
        let right ← eval r (.context opWidth (some effSigned))
        let left ← value (align effSigned left opWidth)
        let right ← value (align effSigned right opWidth)
        let result ← value (evalBinaryOp op left right)
        value (fit effSigned result width)
      else
        let target := max width (max (S.selfWidth l) (S.selfWidth r))
        let left ← eval l (.context target (some effSigned))
        let right ← eval r (.context target (some effSigned))
        let left ← value (widen effSigned left target)
        let right ← value (widen effSigned right target)
        let result ← value (evalBinaryResult op bothSigned shiftSigned left right)
        value (fit resultSigned result width)
  | .ternary c t f, q => do
      let width := S.requestWidth (.ternary c t f) q
      let ownSigned := q.signedOverride.getD (S.exprSigned (.ternary c t f))
      let cond ← eval c (.context (S.selfWidth c) none)
      let ownWidth := max width (max (S.selfWidth t) (S.selfWidth f))
      if cond.reduceOr.isDefined then
        if cond.reduceOr.val ≠ 0 then eval t (.context ownWidth (some ownSigned))
        else eval f (.context ownWidth (some ownSigned))
      else
        let t ← eval t (.context ownWidth (some ownSigned))
        let f ← eval f (.context ownWidth (some ownSigned))
        return mergeXz t f
  | .concat b ps, q => do
      let parts ← evalParts ps
      if ps.isEmpty then return ofInt 0 0
      else
        value (widen (q.signedOverride.getD false) (concatValues parts)
          (S.requestWidth (.concat b ps) q))
  | .streaming ps, q => do
      let parts ← evalParts ps
      if ps.isEmpty then return ofInt 0 0
      else
        let result ← value (streamReverse (concatValues parts) 1)
        value (widen (q.signedOverride.getD false) result (S.requestWidth (.streaming ps) q))
  | .streamingBy s ps, q => do
      let parts ← evalParts ps
      if ps.isEmpty then return ofInt 0 0
      else
        let slice ← eval s (.context 0 none)
        if slice.isDefined then
          let result ← value (streamReverse (concatValues parts) slice.val)
          value (widen (q.signedOverride.getD false) result (S.requestWidth (.streamingBy s ps) q))
        else raise ()
  | .replicate c v, q => do
      let count ← eval c (.context 0 none)
      let inner ← eval v (.context (S.selfWidth v) none)
      let result := if count.isDefined then inner.replicate count.val else x inner.width
      value (widen (q.signedOverride.getD false) result (S.requestWidth (.replicate c v) q))
  | .bitSelect t i, q => do
      let width := S.requestWidth (.bitSelect t i) q
      match memoryTarget? T t with
      | some (name, ew, depth) =>
          let index ← eval i (.context 0 none)
          let result ← S.selectWord name ew depth i index (eval i (.context (S.selfWidth i) (some true)))
          value (widen (q.signedOverride.getD (T.signed name)) result width)
      | none =>
          let target ← eval t (.context 0 none)
          let index ← eval i (.context 0 none)
          let result ← S.selectBit t target i index (eval i (.context (S.selfWidth i) (some true)))
          value (widen (q.signedOverride.getD false) result width)
  | .rangeSelect t m l, q => do
      let target ← eval t (.context 0 none)
      let msb ← eval m (.context 0 none)
      let lsb ← eval l (.context 0 none)
      let result ← S.selectRange t target m msb (eval m (.context (S.selfWidth m) (some true)))
        l lsb (eval l (.context (S.selfWidth l) (some true)))
      value (widen (q.signedOverride.getD false) result (S.requestWidth (.rangeSelect t m l) q))
  | .partSelect t b w d, q => do
      let target ← eval t (.context 0 none)
      let base ← eval b (.context 0 none)
      let partW ← eval w (.context 0 none)
      let result ← value (S.selectPart t target b base partW d)
      value (widen (q.signedOverride.getD false) result (S.requestWidth (.partSelect t b w d) q))
  | .cast s a, q =>
      match q with
      | .inner => eval a .inner
      | .context width signedOverride => do
          let result ← eval a .inner
          value (widen (signedOverride.getD s) result width)
  | .call f as, q => do
      let args ← evalArgs as
      match systemFunction f with
      | some g => return evalSystem g args
      | none =>
          match S.function f with
          | none => return x 32
          | some g =>
              let ports ← evalPorts as g.portWidths
              let locals ← g.run ports
              value (widen (q.signedOverride.getD g.signed) (locals.signal g.returnVar)
                (S.requestWidth (.call f as) q))

/-- The self-determined values of concatenated parts. -/
def evalParts : List Expr → EvalM T (List Value)
  | [] => pure []
  | e :: es => do
      let v ← eval e (.context (S.selfWidth e) none)
      let vs ← evalParts es
      return v :: vs

/-- The arguments of a call, asked for no width. -/
def evalArgs : List Expr → EvalM T (List Value)
  | [] => pure []
  | e :: es => do
      let v ← eval e (.context 0 none)
      let vs ← evalArgs es
      return v :: vs

/-- The arguments of a call bound to the ports of a function. -/
def evalPorts : List Expr → List Nat → EvalM T (List Value)
  | [], widths => pure (widths.map fun _ => x 1)
  | _ :: _, [] => pure []
  | e :: es, width :: widths => do
      let v ← eval e (.context width none)
      let v ← value (align (S.exprSigned e) v width)
      let vs ← evalPorts es widths
      return v :: vs

end

section

-- derived here once, not by every proof
attribute [local simp] eval

end

/-! ## One equation for each way of sizing operands -/

variable {S}

theorem eval_logical {op : BinaryOp} (hc : op.isLogical = true) (l r : Expr) (q : Request) :
    S.eval (.binary op l r) q = (do
      let left ← S.eval l (.context 0 none)
      let right ← shortCircuit op left (S.eval r (.context 0 none))
      let result ← value (evalBinaryOp op left right)
      value (fit (q.signedOverride.getD false) result (S.requestWidth (.binary op l r) q))) := by
  rw [eval]
  cases op <;> first | rfl | cases hc

theorem eval_comparison {op : BinaryOp} (hc : op.isComparison = true) (l r : Expr) (q : Request) :
    S.eval (.binary op l r) q = (do
      let target := max (S.selfWidth l) (S.selfWidth r)
      let both := S.exprSigned l && S.exprSigned r
      let left ← S.eval l (.context target (some both))
      let right ← S.eval r (.context target (some both))
      let left ← value (widen both left target)
      let right ← value (widen both right target)
      let result ← value (evalBinaryResult op both false left right)
      value (fit (q.signedOverride.getD false) result (S.requestWidth (.binary op l r) q))) := by
  rw [eval]
  cases op <;> first | rfl | cases hc

/-- The width the left operand of a shift or power is evaluated at. -/
def shiftTarget (l : Expr) (width : Nat) : Nat :=
  if width ≠ 0 then max width (S.selfWidth l) else S.selfWidth l

variable (S) in
theorem shiftTarget_eq (l : Expr) (width : Nat) : S.shiftTarget l width = max width (S.selfWidth l) := by
  rw [shiftTarget]
  split <;> omega

theorem eval_shift {op : BinaryOp} (hc : (op.isShift || op == .pow) = true) (l r : Expr) (q : Request) :
    S.eval (.binary op l r) q = (do
      let target := S.shiftTarget l (S.requestWidth (.binary op l r) q)
      let shiftSigned := q.signedOverride.getD (S.exprSigned l)
      let left ← S.eval l (.context target (some shiftSigned))
      let left ← value (widen shiftSigned left target)
      let right ← S.eval r (.context (if op == .pow then S.selfWidth r else 0) none)
      let result ← value
        (evalBinaryResult op (S.exprSigned l && S.exprSigned r) shiftSigned left right)
      value (fit shiftSigned result (S.requestWidth (.binary op l r) q))) := by
  rw [eval]
  cases op <;> first | rfl | cases hc

/-- The width both operands are evaluated at. -/
def operandTarget (l r : Expr) (width : Nat) : Nat := max width (max (S.selfWidth l) (S.selfWidth r))

theorem eval_bitwise {op : BinaryOp} (hc : op.isBitwise = true) (l r : Expr) (q : Request) :
    S.eval (.binary op l r) q = (do
      let target := S.operandTarget l r (S.requestWidth (.binary op l r) q)
      let effSigned := q.signedOverride.getD (S.exprSigned l && S.exprSigned r)
      let left ← S.eval l (.context target (some effSigned))
      let right ← S.eval r (.context target (some effSigned))
      let left ← value (align effSigned left target)
      let right ← value (align effSigned right target)
      let result ← value (evalBinaryOp op left right)
      value (fit effSigned result (S.requestWidth (.binary op l r) q))) := by
  rw [eval, operandTarget, max_comm (S.requestWidth (.binary op l r) q) (max (S.selfWidth l) (S.selfWidth r))]
  cases op <;> first | rfl | cases hc

theorem eval_arithmetic {op : BinaryOp} (hc : op.isArithmetic = true) (l r : Expr) (q : Request) :
    S.eval (.binary op l r) q = (do
      let target := S.operandTarget l r (S.requestWidth (.binary op l r) q)
      let effSigned := q.signedOverride.getD (S.exprSigned l && S.exprSigned r)
      let left ← S.eval l (.context target (some effSigned))
      let right ← S.eval r (.context target (some effSigned))
      let left ← value (widen effSigned left target)
      let right ← value (widen effSigned right target)
      let result ← value (evalBinaryResult op (S.exprSigned l && S.exprSigned r) false left right)
      value (fit effSigned result (S.requestWidth (.binary op l r) q))) := by
  rw [eval]
  cases op <;> first | rfl | cases hc

end Scope

end Veriforge

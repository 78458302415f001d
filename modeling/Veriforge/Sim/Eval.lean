import Veriforge.Sim.TrueDiv
import Veriforge.Sim.Width

/-! # The reference evaluator

`ExpressionEvaluator.eval` (`sim/evaluator.py`). `width` is the width the context asks for (0 when the
expression is self-determined) and `signedOverride` the signedness propagated from the context.
Operations that raise return `none`; so does a call other than `$signed` and `$unsigned`, which is not
modelled. -/

namespace Veriforge

open Value

/-! ## Operator dispatch -/

/-- `v.sign_extend(width)` or `v.resize(width)`. -/
def extendTo (signed : Bool) (v : Value) (width : Nat) : Option Value :=
  if signed then v.signExtend width else some (v.resize width)

/-- Extend a result narrower than `width`. -/
def widen (signed : Bool) (v : Value) (width : Nat) : Option Value :=
  if v.width < width then extendTo signed v width else some v

/-- Extend or truncate a result to `width`, unless nothing is asked for. -/
def fit (signed : Bool) (v : Value) (width : Nat) : Option Value :=
  if width ≠ 0 ∧ v.width ≠ width then extendTo signed v width else some v

/-- Extend or truncate an operand to `width`. -/
def align (signed : Bool) (v : Value) (width : Nat) : Option Value :=
  if v.width ≠ width then extendTo signed v width else some v

/-- `>>>` on a signed operand: the sign bit, known or not, is shifted in. -/
def ashr (a b : Value) : Option Value :=
  if b.mask ≠ 0 then some (x a.width)
  else if a.width = 0 then some (ofInt 0 0)
  else if b.val ≥ a.width then
    if (a.mask >>> (a.width - 1)) &&& 1 ≠ 0 then some (x a.width)
    else if (a.val >>> (a.width - 1)) &&& 1 ≠ 0 then some (ofInt (2 ^ a.width - 1) a.width)
    else some (ofInt 0 a.width)
  else do
    let extended ← a.signExtend (a.width + b.val)
    return (extended.rshift b).resize a.width

/-- `_eval_binary_op`. -/
def evalBinaryOp (op : BinaryOp) (a b : Value) : Option Value :=
  match op with
  | .add => some (a.add b)
  | .sub => some (a.sub b)
  | .mul => some (a.mul b)
  | .div => some (a.floordiv b)
  | .mod => some (a.mod b)
  | .pow => some (a.pow b)
  | .bitAnd => some (a.and b)
  | .bitOr => some (a.or b)
  | .bitXor => some (a.xor b)
  | .bitXnor | .bitXnor' => some (a.xor b).invert
  | .shl | .ashl => some (a.lshift b)
  | .shr => some (a.rshift b)
  | .ashr => ashr a b
  | .eq => some (a.eq b)
  | .ne => some (a.ne b)
  | .lt => some (cmp (fun p q => decide (p < q)) a b)
  | .le => some (cmp (fun p q => decide (p ≤ q)) a b)
  | .gt => some (cmp (fun p q => decide (p > q)) a b)
  | .ge => some (cmp (fun p q => decide (p ≥ q)) a b)
  | .caseEq => some (a.caseEq b)
  | .caseNe => some (a.caseNe b)
  | .logAnd => some (a.logicalAnd b)
  | .logOr => some (a.logicalOr b)

/-- `_eval_unary_op`. -/
def evalUnaryOp (op : UnaryOp) (a : Value) : Value :=
  match op with
  | .bitNot => a.invert
  | .logNot => a.logicalNot
  | .minus => a.neg
  | .plus => a
  | .redAnd => a.reduceAnd
  | .redOr => a.reduceOr
  | .redXor => a.reduceXor
  | .redNand => a.reduceNand
  | .redNor => a.reduceNor
  | .redXnor | .redXnor' => a.reduceXnor

/-- The relation of an ordering operator. -/
def signedRel (op : BinaryOp) (a b : Int) : Bool :=
  match op with
  | .lt => a < b
  | .le => a ≤ b
  | .gt => a > b
  | _ => a ≥ b

/-- `_eval_signed_cmp`. -/
def evalSignedCmp (op : BinaryOp) (l r : Value) : Option Value :=
  if l.mask ≠ 0 ∨ r.mask ≠ 0 then some (x 1)
  else do
    let a ← l.asSigned
    let b ← r.asSigned
    return ofBool (signedRel op a b)

/-- `_eval_signed_divmod`. -/
def evalSignedDivmod (op : BinaryOp) (l r : Value) : Option Value :=
  if l.mask ≠ 0 ∨ r.mask ≠ 0 then some (x l.width)
  else if r.val = 0 then some (x l.width)
  else do
    let a ← l.asSigned
    let b ← r.asSigned
    let w := max l.width r.width
    let q ← TrueDiv.intTrueDiv a b
    if op == .div then return ofInt q w
    else return ofInt (a - b * q) w

/-- `_eval_signed_pow`. -/
def evalSignedPow (l r : Value) : Option Value :=
  let w := l.width
  if l.mask ≠ 0 ∨ r.mask ≠ 0 then some (x w)
  else do
    let a ← l.asSigned
    let b ← r.asSigned
    return ofPow (verilogPow a b w) w

/-- `_merge_xz`: the bits two branches agree on. -/
def mergeXz (a b : Value) : Value :=
  let w := max a.width b.width
  let bothKnown := lnot w a.mask &&& lnot w b.mask &&& maskForWidth w
  let sameValue := lnot w (a.val ^^^ b.val) &&& maskForWidth w
  let agree := bothKnown &&& sameValue
  let newMask := lnot w agree &&& maskForWidth w
  let newVal := a.val &&& b.val &&& lnot w newMask
  init newVal w newMask

/-- Concatenate parts, most significant first. -/
def concatValues : List Value → Value
  | [] => ofInt 0 0
  | p :: ps => ps.foldl Value.concat p

/-- The chunks of `stream_reverse`, from the least significant end. -/
def streamChunks (v : Value) (sliceSize : Nat) : Nat → List Value → List Value
  | 0, acc => acc
  | pos + 1, acc =>
      if sliceSize = 0 then acc
      else
        let lo := pos + 1 - sliceSize
        streamChunks v sliceSize lo (v.getRange pos lo :: acc)
  termination_by pos => pos
  decreasing_by omega

/-- `stream_reverse`; raises on a slice size of 0. -/
def streamReverse (v : Value) (sliceSize : Nat) : Option Value :=
  if sliceSize = 0 then none else some (concatValues (streamChunks v sliceSize v.width []))

section

variable (T : SignalTable)

/-- Which of the binary operators' result computations applies (the dispatch after the operands). -/
def evalBinaryResult (op : BinaryOp) (bothSigned shiftSigned : Bool) (l r : Value) : Option Value :=
  if op.isOrdering ∧ bothSigned then evalSignedCmp op l r
  else if op.isDivmod ∧ bothSigned then evalSignedDivmod op l r
  else if op = .pow ∧ bothSigned then evalSignedPow l r
  else if op = .ashr ∧ ¬ shiftSigned then evalBinaryOp .shr l r
  else evalBinaryOp op l r

/-- The right operand of `&&` or `||`: not evaluated once the left one decides. -/
def shortCircuit (op : BinaryOp) (left : Value) (right : Option Value) : Option Value :=
  if (if op == .logOr then !left.knownOne else (left.val ||| left.mask) != 0) then right
  else some (ofInt 0 1)

/-- The operand of `~ + -` brought to the context's width, or its own when that is larger. -/
def fitOperand (e : Expr) (signedOverride : Option Bool) (width : Nat) (operand : Value) : Option Value :=
  if width ≠ 0 ∧ operand.width ≠ width then
    extendTo (signedOverride.getD (exprSigned T e)) operand (max width (selfWidth T e))
  else some operand

/-- What a caller asks of an expression: a width and a signedness, or the self-determined value of the
innermost argument of nested casts. -/
inductive Request
  | context (width : Nat) (signedOverride : Option Bool)
  | inner

/-- The requested width. -/
def Request.width (e : Expr) : Request → Nat
  | .context w _ => w
  | .inner => selfWidth T e

/-- The requested signedness. -/
def Request.signedOverride : Request → Option Bool
  | .context _ s => s
  | .inner => none

@[simp] theorem Request.width_context (e : Expr) (w : Nat) (ov : Option Bool) :
    (Request.context w ov).width T e = w := rfl

@[simp] theorem Request.signedOverride_context (w : Nat) (ov : Option Bool) :
    (Request.context w ov).signedOverride = ov := rfl

@[simp] theorem Request.width_inner (e : Expr) : Request.inner.width T e = selfWidth T e := rfl

/-- `_index_int` of a defined index: its two's complement reading when its expression is signed, taken
at no less than the expression's own width (`again` re-evaluates it there). -/
def indexInt (index : Expr) (v : Value) (again : Option Value) : Option Int :=
  if !exprSigned T index then some v.val
  else if v.width < selfWidth T index then again.bind asSigned
  else v.asSigned

/-- The base of a part select: negative when its expression is signed and its sign bit set. -/
def partBase (base : Expr) (v : Value) : Option Int :=
  if exprSigned T base then
    if v.width = 0 then none
    else if v.val >>> (v.width - 1) ≠ 0 then some ((v.val : Int) - 2 ^ v.width) else some v.val
  else some v.val

/-- A bit of an evaluated target. -/
def selectBit (t : Expr) (target : Value) (i : Expr) (index : Value) (again : Option Value) : Option Value :=
  if index.isDefined then do
    let idx ← indexInt T i index again
    return target.getBit (idx - selectBase T t)
  else some (x 1)

/-- A word of a memory. -/
def selectWord (st : Store T) (name : String) (ew depth : Nat) (i : Expr) (index : Value)
    (again : Option Value) : Option Value :=
  if index.isDefined then do
    let idx ← indexInt T i index again
    return st.readWord name ew depth idx
  else some (x ew)

/-- A constant range of an evaluated target. -/
def selectRange (t : Expr) (target : Value) (m : Expr) (msb : Value) (msbAgain : Option Value)
    (l : Expr) (lsb : Value) (lsbAgain : Option Value) : Option Value :=
  if msb.isDefined ∧ lsb.isDefined then do
    let mi ← indexInt T m msb msbAgain
    let li ← indexInt T l lsb lsbAgain
    return target.getRange (mi - selectBase T t) (li - selectBase T t)
  else some (x 1)

/-- `width` bits from `base`, upwards or downwards. -/
def getPart (target : Value) (base : Int) (width : Nat) (d : Direction) : Value :=
  match d with
  | .up => target.getRange (base + width - 1) base
  | .down => target.getRange base (base - width + 1)

/-- An indexed part of an evaluated target. -/
def selectPart (t : Expr) (target : Value) (b : Expr) (base partW : Value) (d : Direction) : Option Value :=
  if base.isDefined ∧ partW.isDefined then do
    let bi ← partBase T b base
    return getPart target (bi - selectBase T t) partW.val d
  else some (x (if partW.isDefined ∧ 0 < partW.val then partW.val else 1))

variable {T} (st : Store T)

mutual

/-- `eval`, for either kind of request. -/
def evalRequest : Expr → Request → Option Value
  | .ident h n, q =>
      let width := q.width T (.ident h n)
      let name := identifierName h n
      let effSigned := q.signedOverride.getD (exprSigned T (.ident h n))
      match st.signal? name with
      | some v => widen effSigned v width
      | none =>
          match st.readWholeMemory name with
          | some whole => widen effSigned whole width
          | none => some (x 1)
  | .literal l, q =>
      let width := q.width T (.literal l)
      let v := l.evalLiteral
      if v.width < width then
        if Literal.isUnsizedXz l.originalText then
          some (init v.val width (v.mask ||| (maskForWidth width ^^^ maskForWidth v.width)))
        else extendTo (q.signedOverride.getD l.signed) v width
      else some v
  | .string s, _ =>
      some (ofInt (s.toList.foldl (fun v c => (v <<< 8) ||| c.toNat) 0 : Nat) (s.length * 8))
  | .unary op e, q =>
      let width := q.width T (.unary op e)
      if op.contextDetermined then do
        let operand ← evalRequest e (.context width q.signedOverride)
        let operand ← fitOperand T e q.signedOverride width operand
        return evalUnaryOp op operand
      else do
        let operand ← evalRequest e (.context (selfWidth T e) none)
        widen (q.signedOverride.getD false) (evalUnaryOp op operand) width
  | .binary op l r, q =>
      let width := q.width T (.binary op l r)
      let bothSigned := exprSigned T l && exprSigned T r
      let effSigned := q.signedOverride.getD bothSigned
      let shiftSigned := q.signedOverride.getD (exprSigned T l)
      let resultSigned := q.signedOverride.getD (exprSigned T (.binary op l r))
      if op.isLogical then do
        let left ← evalRequest l (.context 0 none)
        let right ← shortCircuit op left (evalRequest r (.context 0 none))
        let result ← evalBinaryResult op bothSigned shiftSigned left right
        fit resultSigned result width
      else if op.isComparison then do
        let target := max (selfWidth T l) (selfWidth T r)
        let left ← evalRequest l (.context target (some bothSigned))
        let right ← evalRequest r (.context target (some bothSigned))
        let left ← widen bothSigned left target
        let right ← widen bothSigned right target
        let result ← evalBinaryResult op bothSigned shiftSigned left right
        fit resultSigned result width
      else if op.isShift || op == .pow then do
        let target := if width ≠ 0 then max width (selfWidth T l) else selfWidth T l
        let left ← evalRequest l (.context target (some shiftSigned))
        let left ← widen shiftSigned left target
        let right ← evalRequest r (.context (if op == .pow then selfWidth T r else 0) none)
        let result ← evalBinaryResult op bothSigned shiftSigned left right
        fit resultSigned result width
      else if op.isBitwise then do
        let opWidth := max (max (selfWidth T l) (selfWidth T r)) width
        let left ← evalRequest l (.context opWidth (some effSigned))
        let right ← evalRequest r (.context opWidth (some effSigned))
        let left ← align effSigned left opWidth
        let right ← align effSigned right opWidth
        let result ← evalBinaryOp op left right
        fit effSigned result width
      else do
        let target := max width (max (selfWidth T l) (selfWidth T r))
        let left ← evalRequest l (.context target (some effSigned))
        let right ← evalRequest r (.context target (some effSigned))
        let left ← widen effSigned left target
        let right ← widen effSigned right target
        let result ← evalBinaryResult op bothSigned shiftSigned left right
        fit resultSigned result width
  | .ternary c t f, q => do
      let width := q.width T (.ternary c t f)
      let ownSigned := q.signedOverride.getD (exprSigned T (.ternary c t f))
      let cond ← evalRequest c (.context (selfWidth T c) none)
      let cond := cond.reduceOr
      let ownWidth := max width (max (selfWidth T t) (selfWidth T f))
      if cond.isDefined then
        if cond.val ≠ 0 then evalRequest t (.context ownWidth (some ownSigned))
        else evalRequest f (.context ownWidth (some ownSigned))
      else do
        let t ← evalRequest t (.context ownWidth (some ownSigned))
        let f ← evalRequest f (.context ownWidth (some ownSigned))
        return mergeXz t f
  | .concat b ps, q => do
      let parts ← evalParts ps
      if ps.isEmpty then return ofInt 0 0
      else widen (q.signedOverride.getD false) (concatValues parts) (q.width T (.concat b ps))
  | .streaming ps, q => do
      let parts ← evalParts ps
      if ps.isEmpty then return ofInt 0 0
      else do
        let result ← streamReverse (concatValues parts) 1
        widen (q.signedOverride.getD false) result (q.width T (.streaming ps))
  | .streamingBy s ps, q => do
      let parts ← evalParts ps
      if ps.isEmpty then return ofInt 0 0
      else do
        let slice ← evalRequest s (.context 0 none)
        if slice.isDefined then do
          let result ← streamReverse (concatValues parts) slice.val
          widen (q.signedOverride.getD false) result (q.width T (.streamingBy s ps))
        else none
  | .replicate c v, q => do
      let count ← evalRequest c (.context 0 none)
      let inner ← evalRequest v (.context (selfWidth T v) none)
      let result := if count.isDefined then inner.replicate count.val else x inner.width
      widen (q.signedOverride.getD false) result (q.width T (.replicate c v))
  | .bitSelect t i, q => do
      let width := q.width T (.bitSelect t i)
      let again := evalRequest i (.context (selfWidth T i) (some true))
      match memoryTarget? T t with
      | some (name, ew, depth) =>
          let index ← evalRequest i (.context 0 none)
          let result ← selectWord T st name ew depth i index again
          widen (q.signedOverride.getD (T.signed name)) result width
      | none =>
          let target ← evalRequest t (.context 0 none)
          let index ← evalRequest i (.context 0 none)
          let result ← selectBit T t target i index again
          widen (q.signedOverride.getD false) result width
  | .rangeSelect t m l, q => do
      let target ← evalRequest t (.context 0 none)
      let msb ← evalRequest m (.context 0 none)
      let lsb ← evalRequest l (.context 0 none)
      let result ← selectRange T t target m msb (evalRequest m (.context (selfWidth T m) (some true)))
        l lsb (evalRequest l (.context (selfWidth T l) (some true)))
      widen (q.signedOverride.getD false) result (q.width T (.rangeSelect t m l))
  | .partSelect t b w d, q => do
      let target ← evalRequest t (.context 0 none)
      let base ← evalRequest b (.context 0 none)
      let partW ← evalRequest w (.context 0 none)
      let result ← selectPart T t target b base partW d
      widen (q.signedOverride.getD false) result (q.width T (.partSelect t b w d))
  | .cast s a, q =>
      match q with
      | .inner => evalRequest a .inner
      | .context width signedOverride => do
          let result ← evalRequest a .inner
          widen (signedOverride.getD s) result width
  | .call _ _, _ => none

/-- The self-determined values of concatenated parts. -/
def evalParts : List Expr → Option (List Value)
  | [] => some []
  | e :: es => do
      let v ← evalRequest e (.context (selfWidth T e) none)
      let vs ← evalParts es
      return v :: vs

end

section

-- derived here once, not by every proof
attribute [local simp] evalRequest

end

/-- `ExpressionEvaluator.eval`. -/
def eval (e : Expr) (width : Nat) (signedOverride : Option Bool) : Option Value :=
  evalRequest st e (.context width signedOverride)

/-! ## One equation for each way of sizing operands -/

variable {st}

theorem evalRequest_unary_context {op : UnaryOp} (hc : op.contextDetermined = true) (e : Expr)
    (q : Request) :
    evalRequest st (.unary op e) q
      = (evalRequest st e (.context (q.width T (.unary op e)) q.signedOverride)).bind fun operand =>
          (fitOperand T e q.signedOverride (q.width T (.unary op e)) operand).map (evalUnaryOp op) := by
  rw [evalRequest, if_pos hc]
  simp only [Option.map_eq_bind]
  rfl

theorem evalRequest_unary_self {op : UnaryOp} (hc : op.contextDetermined = false) (e : Expr)
    (q : Request) :
    evalRequest st (.unary op e) q
      = (evalRequest st e (.context (selfWidth T e) none)).bind fun operand =>
          widen (q.signedOverride.getD false) (evalUnaryOp op operand)
            (q.width T (.unary op e)) := by
  rw [evalRequest, if_neg (by rw [hc]; exact Bool.false_ne_true)]
  rfl

theorem evalRequest_logical {op : BinaryOp} (hc : op.isLogical = true) (l r : Expr) (q : Request) :
    evalRequest st (.binary op l r) q
      = (evalRequest st l (.context 0 none)).bind fun left =>
          (shortCircuit op left (evalRequest st r (.context 0 none))).bind fun right =>
            (evalBinaryOp op left right).bind fun result =>
              fit (q.signedOverride.getD false) result (q.width T (.binary op l r)) := by
  rw [evalRequest, if_pos hc]
  cases op <;> first | rfl | cases hc

theorem evalRequest_comparison {op : BinaryOp} (hc : op.isComparison = true) (l r : Expr)
    (q : Request) :
    evalRequest st (.binary op l r) q
      = (evalRequest st l (.context (max (selfWidth T l) (selfWidth T r))
          (some (exprSigned T l && exprSigned T r)))).bind fun left =>
        (evalRequest st r (.context (max (selfWidth T l) (selfWidth T r))
          (some (exprSigned T l && exprSigned T r)))).bind fun right =>
        (widen (exprSigned T l && exprSigned T r) left (max (selfWidth T l) (selfWidth T r))).bind
          fun left =>
        (widen (exprSigned T l && exprSigned T r) right (max (selfWidth T l) (selfWidth T r))).bind
          fun right =>
        (evalBinaryResult op (exprSigned T l && exprSigned T r) false left right).bind fun result =>
          fit (q.signedOverride.getD false) result (q.width T (.binary op l r)) := by
  rw [evalRequest]
  cases op <;> first | rfl | cases hc

/-- The width the left operand of a shift or power is evaluated at. -/
def shiftTarget (T : SignalTable) (l : Expr) (width : Nat) : Nat :=
  if width ≠ 0 then max width (selfWidth T l) else selfWidth T l

theorem evalRequest_shift {op : BinaryOp} (hc : (op.isShift || op == .pow) = true) (l r : Expr)
    (q : Request) :
    evalRequest st (.binary op l r) q
      = (evalRequest st l (.context (shiftTarget T l (q.width T (.binary op l r)))
          (some (q.signedOverride.getD (exprSigned T l))))).bind fun left =>
        (widen (q.signedOverride.getD (exprSigned T l)) left
          (shiftTarget T l (q.width T (.binary op l r)))).bind fun left =>
        (evalRequest st r (.context (if op == .pow then selfWidth T r else 0) none)).bind fun right =>
        (evalBinaryResult op (exprSigned T l && exprSigned T r)
          (q.signedOverride.getD (exprSigned T l)) left right).bind fun result =>
          fit (q.signedOverride.getD (exprSigned T l)) result (q.width T (.binary op l r)) := by
  rw [evalRequest]
  cases op <;> first | rfl | cases hc

/-- The width both operands of an arithmetic or bitwise operator are evaluated at. -/
def operandTarget (T : SignalTable) (l r : Expr) (width : Nat) : Nat :=
  max width (max (selfWidth T l) (selfWidth T r))

theorem evalRequest_bitwise {op : BinaryOp} (hc : op.isBitwise = true) (l r : Expr) (q : Request) :
    evalRequest st (.binary op l r) q
      = (evalRequest st l (.context (operandTarget T l r (q.width T (.binary op l r)))
          (some (q.signedOverride.getD (exprSigned T l && exprSigned T r))))).bind fun left =>
        (evalRequest st r (.context (operandTarget T l r (q.width T (.binary op l r)))
          (some (q.signedOverride.getD (exprSigned T l && exprSigned T r))))).bind fun right =>
        (align (q.signedOverride.getD (exprSigned T l && exprSigned T r)) left
          (operandTarget T l r (q.width T (.binary op l r)))).bind fun left =>
        (align (q.signedOverride.getD (exprSigned T l && exprSigned T r)) right
          (operandTarget T l r (q.width T (.binary op l r)))).bind fun right =>
        (evalBinaryOp op left right).bind fun result =>
          fit (q.signedOverride.getD (exprSigned T l && exprSigned T r)) result
            (q.width T (.binary op l r)) := by
  rw [evalRequest, operandTarget, Nat.max_comm _ (max (selfWidth T l) (selfWidth T r))]
  cases op <;> first | rfl | cases hc

theorem evalRequest_arithmetic {op : BinaryOp} (hc : op.isArithmetic = true) (l r : Expr)
    (q : Request) :
    evalRequest st (.binary op l r) q
      = (evalRequest st l (.context (operandTarget T l r (q.width T (.binary op l r)))
          (some (q.signedOverride.getD (exprSigned T l && exprSigned T r))))).bind fun left =>
        (evalRequest st r (.context (operandTarget T l r (q.width T (.binary op l r)))
          (some (q.signedOverride.getD (exprSigned T l && exprSigned T r))))).bind fun right =>
        (widen (q.signedOverride.getD (exprSigned T l && exprSigned T r)) left
          (operandTarget T l r (q.width T (.binary op l r)))).bind fun left =>
        (widen (q.signedOverride.getD (exprSigned T l && exprSigned T r)) right
          (operandTarget T l r (q.width T (.binary op l r)))).bind fun right =>
        (evalBinaryResult op (exprSigned T l && exprSigned T r) false left right).bind fun result =>
          fit (q.signedOverride.getD (exprSigned T l && exprSigned T r)) result
            (q.width T (.binary op l r)) := by
  rw [evalRequest]
  cases op <;> first | rfl | cases hc

end

end Veriforge

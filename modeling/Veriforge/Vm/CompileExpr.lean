import Veriforge.Sim.Reach
import Veriforge.Vm.Machine

/-! # Compiling expressions

`Compiler._compile_expr` (`sim/vm/compiler.py`): children first, with the widths fixed at compile time and
`RESIZE` or `SIGN_EXT` where a value may not have the width asked for. The order of instructions is the
source's. Where the source registers an unknown identifier as a new one-bit signal, the code here loads a
signal that does not exist. -/

namespace Veriforge.Vm

open Value

section

variable (T : SignalTable)

/-- The compiler's own `_expr_signed`. It has no case for a whole memory. -/
def exprSigned : Expr → Bool
  | .ident h n => (T.width (identifierName h n)).isSome && T.signed (identifierName h n)
  | .literal l => l.signed
  | .bitSelect t _ =>
      match t with
      | .ident h n => T.isMemory (identifierName h n) && T.signed (identifierName h n)
      | _ => false
  | .unary op e => op.contextDetermined && exprSigned e
  | .binary op l r =>
      if op.isShift || op == .pow then exprSigned l
      else if op.isComparison || op.isLogical then false
      else exprSigned l && exprSigned r
  | .ternary _ t f => exprSigned t && exprSigned f
  | .cast s _ => s
  | .string _ | .concat _ _ | .streaming _ | .streamingBy _ _ | .replicate _ _ => false
  | .rangeSelect _ _ _ | .partSelect _ _ _ _ | .call _ _ => false

/-- `SIGN_EXT` or `RESIZE`. -/
def extOp (signed : Bool) (width : Nat) : Op := if signed then .signExt width else .resize width

/-- `extOp`, where something is to be done. -/
def extIf (c : Bool) (signed : Bool) (width : Nat) : List Op := if c then [extOp signed width] else []

/-- `_BINARY_OP_MAP`. -/
def binaryOpcode : BinaryOp → Op
  | .add => .add | .sub => .sub | .mul => .mul | .div => .div | .mod => .mod | .pow => .pow
  | .bitAnd => .bitAnd | .bitOr => .bitOr | .bitXor => .bitXor | .bitXnor | .bitXnor' => .bitXnor
  | .shl => .shl | .shr => .shr | .ashl => .ashl | .ashr => .ashr
  | .eq => .cmpEq | .ne => .cmpNe | .lt => .cmpLt | .le => .cmpLe | .gt => .cmpGt | .ge => .cmpGe
  | .caseEq => .cmpCaseEq | .caseNe => .cmpCaseNe
  | .logAnd => .logAnd | .logOr => .logOr

/-- `_SIGNED_CMP_MAP`. -/
def signedCmpOpcode : BinaryOp → Op
  | .lt => .cmpSlt
  | .le => .cmpSle
  | .gt => .cmpSgt
  | _ => .cmpSge

/-- `_UNARY_OP_MAP`. -/
def unaryOpcode : UnaryOp → Op
  | .bitNot => .bitNot | .logNot => .logNot | .minus => .neg | .plus => .uplus
  | .redAnd => .redAnd | .redOr => .redOr | .redXor => .redXor
  | .redNand => .redNand | .redNor => .redNor | .redXnor | .redXnor' => .redXnor

/-- The opcode of a binary operator. -/
def resultOpcode (op : BinaryOp) (bothSigned shiftSigned : Bool) : Op :=
  if op.isOrdering && bothSigned then signedCmpOpcode op
  else if op.isDivmod && bothSigned then (if op == .div then .sdiv else .smod)
  else if op == .pow && bothSigned then .spow
  else if op == .ashr && !shiftSigned then .shr
  else binaryOpcode op

/-- `_append_base_adjust`. -/
def baseAdjust (base : Int) : List Op :=
  if base = 0 then [] else [.loadConst (ofInt base 32), .sub]

/-- The words of a memory, last one first. -/
def compileWords (name : String) (ew : Nat) : Nat → List Op
  | 0 => []
  | i + 1 =>
      [.loadConst (ofInt i 32), .loadMem name, extOp (T.signed name) ew] ++ compileWords name ew i

/-- `_compile_expr` of an identifier. -/
def compileIdent (name : String) (width : Nat) (signed : Bool) : List Op :=
  match T.width name with
  | some w => [.loadSig name] ++ extIf (width != 0 && w < width) signed width
  | none =>
      match T.memory name with
      | some (ew, d) =>
          compileWords T name ew d ++ [.concat d] ++ extIf (width != 0 && d * ew < width) signed width
      | none => [.loadSig name]

/-- `_compile_expr` of a literal. -/
def compileLiteral (l : Literal) (width : Nat) (signed : Bool) : List Op :=
  let v := l.compileLiteral
  let v :=
    if (width ≠ 0 ∧ v.width < width) ∧ Literal.isUnsizedXz l.originalText then
      init v.val width (v.mask ||| (maskForWidth width ^^^ maskForWidth v.width))
    else v
  [.loadConst v] ++ extIf (width != 0 && v.width < width) signed width

/-- The slice size of a streaming concatenation, a literal. -/
def constSliceSize : Expr → Nat
  | .literal l => (l.intValue.getD 0).toNat
  | _ => 0

mutual

/-- `_compile_expr`, for either kind of request. -/
def compileRequest : Expr → Request → List Op
  | .ident h n, q =>
      compileIdent T (identifierName h n) (q.width T (.ident h n))
        (q.signedOverride.getD (exprSigned T (.ident h n)))
  | .literal l, q => compileLiteral l (q.width T (.literal l)) (q.signedOverride.getD l.signed)
  | .string s, _ =>
      [.loadConst (ofInt (s.toList.foldl (fun v c => (v <<< 8) ||| c.toNat) 0 : Nat) (s.length * 8))]
  | .unary op e, q =>
      let width := q.width T (.unary op e)
      if op.contextDetermined then
        let target := if width ≠ 0 then max width (selfWidth T e) else width
        compileRequest e (.context target q.signedOverride) ++
          extIf (width != 0) (q.signedOverride.getD (exprSigned T e)) target ++ [unaryOpcode op]
      else
        compileRequest e (.context (selfWidth T e) none) ++ [unaryOpcode op] ++
          extIf (width != 0 && 1 < width) (q.signedOverride.getD (exprSigned T (.unary op e))) width
  | .binary op l r, q =>
      let width := q.width T (.binary op l r)
      let bothSigned := exprSigned T l && exprSigned T r
      let opcode := resultOpcode op bothSigned (q.signedOverride.getD (exprSigned T l))
      let resultSigned := q.signedOverride.getD (exprSigned T (.binary op l r))
      if op.isLogical then
        compileRequest l (.context 0 none) ++ compileRequest r (.context 0 none) ++ [opcode] ++
          extIf (width != 0 && 1 != width) resultSigned width
      else if op.isComparison then
        let target := max (selfWidth T l) (selfWidth T r)
        compileRequest l (.context target (some bothSigned)) ++
          compileRequest r (.context target (some bothSigned)) ++ [opcode] ++
          extIf (width != 0 && 1 != width) resultSigned width
      else if op.isShift || op == .pow then
        let target := if width ≠ 0 then max width (selfWidth T l) else 0
        compileRequest l (.context target q.signedOverride) ++
          extIf (width != 0) (q.signedOverride.getD (exprSigned T l)) target ++
          compileRequest r (.context (if op == .pow then selfWidth T r else 0) none) ++ [opcode] ++
          extIf (width != 0 && target != width) resultSigned width
      else if op.isBitwise then
        let opWidth := max (max (selfWidth T l) (selfWidth T r)) width
        let effSigned := q.signedOverride.getD bothSigned
        compileRequest l (.context opWidth (some effSigned)) ++ [extOp effSigned opWidth] ++
          compileRequest r (.context opWidth (some effSigned)) ++ [extOp effSigned opWidth] ++
          [binaryOpcode op] ++ extIf (width != 0 && width != opWidth) effSigned width
      else
        let target := max width (max (selfWidth T l) (selfWidth T r))
        let effSigned := q.signedOverride.getD bothSigned
        compileRequest l (.context target (some effSigned)) ++
          compileRequest r (.context target (some effSigned)) ++ [opcode] ++
          extIf (width != 0 && target != width) resultSigned width
  | .ternary c t f, q =>
      let ownSigned := q.signedOverride.getD (exprSigned T (.ternary c t f))
      let ownWidth := max (q.width T (.ternary c t f)) (max (selfWidth T t) (selfWidth T f))
      compileRequest c (.context (selfWidth T c) none) ++ compileRequest t (.context ownWidth (some ownSigned)) ++
        compileRequest f (.context ownWidth (some ownSigned)) ++ [.ternary]
  | .concat b ps, q =>
      let width := q.width T (.concat b ps)
      compileParts ps ++ [.concat ps.length] ++ extIf (width != 0) (q.signedOverride.getD false) width
  | .replicate c v, q =>
      let width := q.width T (.replicate c v)
      compileRequest c (.context 0 none) ++ compileRequest v (.context (selfWidth T v) none) ++
        [.replicate] ++ extIf (width != 0) (q.signedOverride.getD false) width
  | .streaming ps, q =>
      let width := q.width T (.streaming ps)
      compileParts ps ++ [.concat ps.length, .streamReverse 1] ++
        extIf (width != 0) (q.signedOverride.getD false) width
  | .streamingBy s ps, q =>
      let width := q.width T (.streamingBy s ps)
      compileParts ps ++ [.concat ps.length, .streamReverse (constSliceSize s)] ++
        extIf (width != 0) (q.signedOverride.getD false) width
  | .bitSelect t i, q =>
      let width := q.width T (.bitSelect t i)
      match memoryTarget? T t with
      | some (name, _, _) =>
          compileRequest i (.context 0 none) ++ [.loadMem name] ++
            extIf (width != 0) (q.signedOverride.getD (exprSigned T (.bitSelect t i))) width
      | none =>
          compileRequest t (.context 0 none) ++ compileRequest i (.context 0 none) ++
            baseAdjust (selectBase T t) ++ [.bitSelect] ++
            extIf (width != 0) (q.signedOverride.getD false) width
  | .rangeSelect t m l, q =>
      let width := q.width T (.rangeSelect t m l)
      compileRequest t (.context 0 none) ++ compileRequest m (.context 0 none) ++ baseAdjust (selectBase T t) ++
        compileRequest l (.context 0 none) ++ baseAdjust (selectBase T t) ++ [.rangeSelect] ++
        extIf (width != 0) (q.signedOverride.getD false) width
  | .partSelect t b w d, q =>
      let width := q.width T (.partSelect t b w d)
      compileRequest t (.context 0 none) ++
        -- `_compile_select_base`
        compileRequest b (.context (selfWidth T b) none) ++ [extOp (exprSigned T b) 64] ++
        baseAdjust (selectBase T t) ++ [.resize 64] ++ compileRequest w (.context 0 none) ++
        [if d == .up then .partSelUp else .partSelDown] ++
        extIf (width != 0) (q.signedOverride.getD false) width
  | .cast s a, q =>
      match q with
      | .inner => compileRequest a .inner
      | .context width signedOverride =>
          compileRequest a .inner ++ extIf (width != 0 && selfWidth T a != width) (signedOverride.getD s) width
  | .call _ _, _ => []

/-- Concatenated parts, each at its self-determined width. -/
def compileParts : List Expr → List Op
  | [] => []
  | e :: es => compileRequest e (.context (selfWidth T e) none) ++ compileParts es

end

section

-- derived here once, not by every proof
attribute [local simp] compileRequest

end

/-- `Compiler._compile_expr`. -/
def compileExpr (e : Expr) (width : Nat) (signedOverride : Option Bool) : List Op :=
  compileRequest T e (.context width signedOverride)

/-! ## One equation for each way of sizing operands -/

variable {T}

theorem compileRequest_unary_context {op : UnaryOp} (hc : op.contextDetermined = true) (e : Expr)
    (w : Nat) (ov : Option Bool) :
    compileRequest T (.unary op e) (.context w ov)
      = compileRequest T e (.context (if w ≠ 0 then max w (selfWidth T e) else w) ov) ++
          extIf (w != 0) (ov.getD (exprSigned T e)) (if w ≠ 0 then max w (selfWidth T e) else w) ++
          [unaryOpcode op] := by
  rw [compileRequest, if_pos hc]
  rfl

theorem compileRequest_unary_self {op : UnaryOp} (hc : op.contextDetermined = false) (e : Expr)
    (w : Nat) (ov : Option Bool) :
    compileRequest T (.unary op e) (.context w ov)
      = compileRequest T e (.context (selfWidth T e) none) ++ [unaryOpcode op] ++
          extIf (w != 0 && decide (1 < w)) (ov.getD (exprSigned T (.unary op e))) w := by
  rw [compileRequest, hc]
  rfl

theorem compileRequest_logical {op : BinaryOp} (hc : op.isLogical = true) (l r : Expr) (w : Nat)
    (ov : Option Bool) :
    compileRequest T (.binary op l r) (.context w ov)
      = compileRequest T l (.context 0 none) ++ compileRequest T r (.context 0 none) ++
          [resultOpcode op (exprSigned T l && exprSigned T r) (ov.getD (exprSigned T l))] ++
          extIf (w != 0 && 1 != w) (ov.getD (exprSigned T (.binary op l r))) w := by
  rw [compileRequest, if_pos hc]
  rfl

theorem compileRequest_comparison {op : BinaryOp} (hc : op.isComparison = true) (l r : Expr) (w : Nat)
    (ov : Option Bool) :
    compileRequest T (.binary op l r) (.context w ov)
      = compileRequest T l (.context (max (selfWidth T l) (selfWidth T r))
            (some (exprSigned T l && exprSigned T r))) ++
          compileRequest T r (.context (max (selfWidth T l) (selfWidth T r))
            (some (exprSigned T l && exprSigned T r))) ++
          [resultOpcode op (exprSigned T l && exprSigned T r) (ov.getD (exprSigned T l))] ++
          extIf (w != 0 && 1 != w) (ov.getD (exprSigned T (.binary op l r))) w := by
  have hnl : ¬ op.isLogical = true := by cases op <;> first | exact Bool.false_ne_true | cases hc
  rw [compileRequest, if_neg hnl, if_pos hc]
  rfl

theorem compileRequest_shift {op : BinaryOp} (hc : (op.isShift || op == .pow) = true) (l r : Expr)
    (w : Nat) (ov : Option Bool) :
    compileRequest T (.binary op l r) (.context w ov)
      = compileRequest T l (.context (if w ≠ 0 then max w (selfWidth T l) else 0) ov) ++
          extIf (w != 0) (ov.getD (exprSigned T l)) (if w ≠ 0 then max w (selfWidth T l) else 0) ++
          compileRequest T r (.context (if op == .pow then selfWidth T r else 0) none) ++
          [resultOpcode op (exprSigned T l && exprSigned T r) (ov.getD (exprSigned T l))] ++
          extIf (w != 0 && (if w ≠ 0 then max w (selfWidth T l) else 0) != w)
            (ov.getD (exprSigned T (.binary op l r))) w := by
  have hnl : ¬ op.isLogical = true := by cases op <;> first | exact Bool.false_ne_true | cases hc
  have hnc : ¬ op.isComparison = true := by cases op <;> first | exact Bool.false_ne_true | cases hc
  rw [compileRequest, if_neg hnl, if_neg hnc, if_pos hc]
  rfl

theorem compileRequest_bitwise {op : BinaryOp} (hc : op.isBitwise = true) (l r : Expr) (w : Nat)
    (ov : Option Bool) :
    compileRequest T (.binary op l r) (.context w ov)
      = compileRequest T l (.context (operandTarget T l r w)
            (some (ov.getD (exprSigned T l && exprSigned T r)))) ++
          [extOp (ov.getD (exprSigned T l && exprSigned T r)) (operandTarget T l r w)] ++
          compileRequest T r (.context (operandTarget T l r w)
            (some (ov.getD (exprSigned T l && exprSigned T r)))) ++
          [extOp (ov.getD (exprSigned T l && exprSigned T r)) (operandTarget T l r w)] ++
          [binaryOpcode op] ++
          extIf (w != 0 && w != operandTarget T l r w)
            (ov.getD (exprSigned T l && exprSigned T r)) w := by
  have hnl : ¬ op.isLogical = true := by cases op <;> first | exact Bool.false_ne_true | cases hc
  have hnc : ¬ op.isComparison = true := by cases op <;> first | exact Bool.false_ne_true | cases hc
  have hns : ¬ (op.isShift || op == .pow) = true := by
    cases op <;> first | exact Bool.false_ne_true | cases hc
  rw [compileRequest, if_neg hnl, if_neg hnc, if_neg hns, if_pos hc, operandTarget, Nat.max_comm w]
  rfl

theorem compileRequest_arithmetic {op : BinaryOp} (hc : op.isArithmetic = true) (l r : Expr) (w : Nat)
    (ov : Option Bool) :
    compileRequest T (.binary op l r) (.context w ov)
      = compileRequest T l (.context (operandTarget T l r w)
            (some (ov.getD (exprSigned T l && exprSigned T r)))) ++
          compileRequest T r (.context (operandTarget T l r w)
            (some (ov.getD (exprSigned T l && exprSigned T r)))) ++
          [resultOpcode op (exprSigned T l && exprSigned T r) (ov.getD (exprSigned T l))] ++
          extIf (w != 0 && operandTarget T l r w != w) (ov.getD (exprSigned T (.binary op l r))) w := by
  have hnl : ¬ op.isLogical = true := by cases op <;> first | exact Bool.false_ne_true | cases hc
  have hnc : ¬ op.isComparison = true := by cases op <;> first | exact Bool.false_ne_true | cases hc
  have hns : ¬ (op.isShift || op == .pow) = true := by
    cases op <;> first | exact Bool.false_ne_true | cases hc
  have hnb : ¬ op.isBitwise = true := by cases op <;> first | exact Bool.false_ne_true | cases hc
  rw [compileRequest, if_neg hnl, if_neg hnc, if_neg hns, if_neg hnb]
  rfl

end

end Veriforge.Vm

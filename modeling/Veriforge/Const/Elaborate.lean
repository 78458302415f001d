import Mathlib.Data.String.Basic
import Veriforge.Const.Fold

/-! # Constant expressions of elaboration

`_eval_const_expr` (`sim/elaborate.py`): parameters, ranges and generate conditions are folded by a recursion of its
own, on integers and on strings. What raises is `none`. -/

namespace Veriforge.Const

/-- `int | str`. -/
inductive ConstVal
  | int (n : Int)
  | str (s : String)
  deriving DecidableEq

namespace ConstVal

/-- `bool(v)` -/
def truthy : ConstVal → Bool
  | .int n => n ≠ 0
  | .str s => s ≠ ""

/-- `isinstance(v, int)` -/
def int? : ConstVal → Option Int
  | .int n => some n
  | .str _ => none

/-- `int(c)` of a condition. -/
def bool (c : Prop) [Decidable c] : ConstVal := .int (Const.ofProp c)

/-- `s * n` -/
def repeated (s : String) (n : Int) : ConstVal := .str (String.join (List.replicate n.toNat s))

end ConstVal

open ConstVal

/-! ## Operators -/

/-- `n & 0xFFFFFFFF` -/
def low32 (n : Int) : Int := n % 2 ^ 32

/-- `v == (1 << v.bit_length()) - 1` -/
def allOnes (v : Nat) : Bool := v = 2 ^ Literal.bitLength v - 1

/-- `_UNARY_OPS` on an integer. -/
def elabUnaryInt (op : UnaryOp) (v : Int) : Int :=
  match op with
  | .bitNot => low32 (Int.lnot v)
  | .logNot => ofProp (v = 0)
  | .minus => -v
  | .plus => v
  | .redOr => ofProp (v ≠ 0)
  | .redAnd => if 0 ≤ v then ofProp (allOnes v.toNat = true) else 1
  | .redXor => parity (low32 v).toNat
  | .redNor => ofProp (v = 0)
  | .redNand => if 0 ≤ v then ofProp (allOnes v.toNat = false) else 0
  | .redXnor | .redXnor' => ofProp (parity (low32 v).toNat = 0)

/-- `_UNARY_OPS`. -/
def elabUnary (op : UnaryOp) : ConstVal → Option ConstVal
  | .int v => some (.int (elabUnaryInt op v))
  | .str s =>
      match op with
      | .logNot => some (ConstVal.bool (s = ""))
      | .plus => some (.str s)
      | .redOr => some (.int 1)
      | .redNor => some (.int 0)
      | _ => none

/-- `_BINARY_OPS` on integers. -/
def elabBinaryInt (op : BinaryOp) (a b : Int) : Option Int :=
  match op with
  | .add => some (a + b)
  | .sub => some (a - b)
  | .mul => some (a * b)
  | .div => if b = 0 then some 0 else constDiv a b
  | .mod => if b = 0 then some 0 else constMod a b
  | .eq => some (ofProp (a = b))
  | .ne => some (ofProp (a ≠ b))
  | .lt => some (ofProp (a < b))
  | .gt => some (ofProp (a > b))
  | .le => some (ofProp (a ≤ b))
  | .ge => some (ofProp (a ≥ b))
  | .logAnd => some (ofProp (a ≠ 0 ∧ b ≠ 0))
  | .logOr => some (ofProp (a ≠ 0 ∨ b ≠ 0))
  | .shl => constShl a b
  | .shr => constShr a b
  | .bitAnd => some (a.land b)
  | .bitOr => some (a.lor b)
  | .bitXor => some (a.xor b)
  | .bitXnor | .bitXnor' => some (low32 (Int.lnot (a.xor b)))
  | .pow => constPow a b
  | .ashl | .ashr | .caseEq | .caseNe => none

/-- `_BINARY_OPS` on strings. -/
def elabBinaryStr (op : BinaryOp) (a b : String) : Option ConstVal :=
  match op with
  | .add => some (.str (a ++ b))
  | .div | .mod => if b = "" then some (.int 0) else none
  | .eq => some (ConstVal.bool (a = b))
  | .ne => some (ConstVal.bool (a ≠ b))
  | .lt => some (ConstVal.bool (a < b))
  | .gt => some (ConstVal.bool (b < a))
  | .le => some (ConstVal.bool (¬ b < a))
  | .ge => some (ConstVal.bool (¬ a < b))
  | .logAnd => some (ConstVal.bool (a ≠ "" ∧ b ≠ ""))
  | .logOr => some (ConstVal.bool (a ≠ "" ∨ b ≠ ""))
  | _ => none

/-- `_BINARY_OPS`. Where one operand is a string, a divisor may be empty, and a shift or a power may not look at it. -/
def elabBinary (op : BinaryOp) : ConstVal → ConstVal → Option ConstVal
  | .int a, .int b => (elabBinaryInt op a b).map .int
  | .str a, .str b => elabBinaryStr op a b
  | .str a, .int b =>
      match op with
      | .mul => some (repeated a b)
      | .div | .mod => if b = 0 then some (.int 0) else none
      | .eq => some (.int 0)
      | .ne => some (.int 1)
      | .logAnd => some (ConstVal.bool (a ≠ "" ∧ b ≠ 0))
      | .logOr => some (ConstVal.bool (a ≠ "" ∨ b ≠ 0))
      | .shl => if (foldBits : Int) ≤ b then some (.int 0) else none
      | .pow => if b < 0 then some (.int 0) else none
      | _ => none
  | .int a, .str b =>
      match op with
      | .mul => some (repeated b a)
      | .div | .mod => if b = "" then some (.int 0) else none
      | .eq => some (.int 0)
      | .ne => some (.int 1)
      | .logAnd => some (ConstVal.bool (a ≠ 0 ∧ b ≠ ""))
      | .logOr => some (ConstVal.bool (a ≠ 0 ∨ b ≠ ""))
      | _ => none

/-! ## Expressions -/

/-- What the recursion is built on: the characters of digits that are no number, and `env["__functions__"]`, the
value of a call in an environment and the width that a function returns. -/
structure Elab where
  spelled : List Digit → String
  call : (String → Option ConstVal) → String → List ConstVal → Option ConstVal
  returnWidth : (String → Option ConstVal) → String → Option Nat

/-- A literal. -/
def elabLiteral (X : Elab) (l : Literal) : ConstVal :=
  match l.value with
  | .int n => .int n
  | .text digits => (Literal.decimalInt digits).elim (.str (X.spelled digits)) fun n => .int n

/-- `part.width` of a literal. -/
def literalWidth : Expr → Option Nat
  | .literal l => l.width
  | _ => none

/-- The width of a part of a concatenation. -/
def elabPartWidth (X : Elab) (env : String → Option ConstVal) : Expr → Option Nat
  | .literal l => l.width
  | .call f _ => X.returnWidth env f
  | _ => none

/-- `sum(part_widths)` of the parts of a replicated concatenation. -/
def literalWidths : List Expr → Option Nat
  | [] => some 0
  | p :: ps => do return (← literalWidth p) + (← literalWidths ps)

/-- The width of a replicated value. -/
def elabValueWidth : Expr → Option Nat
  | .literal l => l.width
  | .concat _ ps => literalWidths ps
  | _ => none

/-- The system functions. -/
def elabSystem (env : String → Option ConstVal) (f : String) (args : List Expr) (values : Option (List ConstVal)) :
    Option ConstVal :=
  if f = "$clog2" then
    match values with
    | some [.int v] => some (.int (if 0 < v then Literal.bitLength (v - 1).toNat else 0))
    | some [.str _] => some (.int 0)
    | _ => none
  else if f = "$bits" then
    match args with
    | [.ident _ n] => env ("$bits:" ++ n)
    | _ => none
  else none

section

variable (X : Elab)

mutual

/-- `_eval_const_expr`. -/
def evalConstExpr (env : String → Option ConstVal) : Expr → Option ConstVal
  | .ident _ n => env n
  | .literal l => some (elabLiteral X l)
  | .string s => some (.str s)
  | .unary op e => do elabUnary op (← evalConstExpr env e)
  | .binary op l r => do
      let left ← evalConstExpr env l
      let right ← evalConstExpr env r
      elabBinary op left right
  | .ternary c t f => do
      let cond ← evalConstExpr env c
      if cond.truthy then evalConstExpr env t else evalConstExpr env f
  | .concat _ ps => if ps.length = 1 then evalConstExprHead env ps else evalConstExprParts env ps 0
  | .replicate c v => do
      let count ← (← evalConstExpr env c).int?
      let value ← (← evalConstExpr env v).int?
      let w ← elabValueWidth v
      return .int (constReplicate (value % 2 ^ w).toNat w count.toNat 0 : Nat)
  | .streaming _ | .streamingBy _ _ => none
  | .bitSelect t i => do
      let target ← (← evalConstExpr env t).int?
      let index ← (← evalConstExpr env i).int?
      if 0 ≤ index then some (.int (target >>> index.toNat % 2)) else none
  | .rangeSelect t m l => do
      let base ← (← evalConstExpr env t).int?
      let msb ← (← evalConstExpr env m).int?
      let lsb ← (← evalConstExpr env l).int?
      (constSlice base lsb (msb - lsb + 1)).map .int
  | .partSelect t b w d => do
      let target ← (← evalConstExpr env t).int?
      let base ← (← evalConstExpr env b).int?
      let width ← (← evalConstExpr env w).int?
      match d with
      | .up => (constSlice target base width).map .int
      | .down => (constSlice target (base - width + 1) width).map .int
  | .cast _ _ => none
  | .call f as =>
      if f.toList.head? = some '$' then elabSystem env f as (evalConstExprArgs env as)
      else do X.call env f (← evalConstExprArgs env as)

/-- The value of the only part. -/
def evalConstExprHead (env : String → Option ConstVal) : List Expr → Option ConstVal
  | [] => none
  | p :: _ => evalConstExpr env p

/-- The loop over the parts of a concatenation. -/
def evalConstExprParts (env : String → Option ConstVal) : List Expr → Nat → Option ConstVal
  | [], result => some (.int result)
  | p :: ps, result => do
      let value ← (← evalConstExpr env p).int?
      let w ← elabPartWidth X env p
      evalConstExprParts env ps ((result <<< w) ||| (value % 2 ^ w).toNat)

/-- The values of the arguments. -/
def evalConstExprArgs (env : String → Option ConstVal) : List Expr → Option (List ConstVal)
  | [] => some []
  | a :: as => do return (← evalConstExpr env a) :: (← evalConstExprArgs env as)

end

end

section

-- derived here once, not by every proof
attribute [local simp] evalConstExpr evalConstExprParts

end

end Veriforge.Const

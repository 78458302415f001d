import Mathlib.Data.Int.Bitwise
import Veriforge.Sim.EvalScope

/-! # Constant folding

`_eval_const` (`semantics.py`): a constant expression on unbounded integers, before any width is known.
`env` holds the parameters and genvars; what raises is `none`, as `const_int` returns it. -/

namespace Veriforge.Const

/-! ## Operators on integers -/

/-- `_FOLD_BITS`. -/
def foldBits : Nat := 1 <<< 16

/-- `bin(v).count("1") % 2`. -/
def parity (v : Nat) : Nat := Value.countOnes v (Literal.bitLength v) % 2

/-- `_UNARY_CONST_OPS`. -/
def constUnary (op : UnaryOp) (v : Int) : Option Int :=
  match op with
  | .plus => some v
  | .minus => some (-v)
  | .bitNot => some (Int.lnot v)
  | .logNot => some (if v = 0 then 1 else 0)
  | .redOr => some (if v ≠ 0 then 1 else 0)
  | .redNor => some (if v = 0 then 1 else 0)
  | .redXor => if 0 ≤ v then some (parity v.toNat) else none
  | .redAnd | .redNand | .redXnor | .redXnor' => none

/-- `const_pow`. -/
def constPow (a b : Int) : Option Int :=
  if b < 0 then
    if a = 0 then none
    else if a = 1 then some 1
    else if a = -1 then some (if b % 2 ≠ 0 then -1 else 1)
    else some 0
  else if 1 < a.natAbs ∧ (foldBits : Int) < b * Literal.bitLength a.natAbs then
    some (a ^ b.toNat % 2 ^ foldBits)
  else some (a ^ b.toNat)

/-- `const_div`. -/
def constDiv (a b : Int) : Option Int :=
  if b = 0 then none
  else
    let q := a.natAbs / b.natAbs
    some (if decide (a < 0) = decide (b < 0) then q else -q)

/-- `const_mod`. -/
def constMod (a b : Int) : Option Int := (constDiv a b).map fun q => a - b * q

/-- `const_shl`. -/
def constShl (a b : Int) : Option Int :=
  if b < 0 then none
  else if (foldBits : Int) ≤ b then some 0
  else some (a <<< b.toNat)

/-- `a >> b if b >= 0 else None`. -/
def constShr (a b : Int) : Option Int := if 0 ≤ b then some (a >>> b.toNat) else none

/-- `1 if c else 0`. -/
def ofProp (c : Prop) [Decidable c] : Int := if c then 1 else 0

/-- `_BINARY_CONST_OPS`. -/
def constBinary (op : BinaryOp) (a b : Int) : Option Int :=
  match op with
  | .add => some (a + b)
  | .sub => some (a - b)
  | .mul => some (a * b)
  | .div => constDiv a b
  | .mod => constMod a b
  | .pow => constPow a b
  | .bitAnd => some (a.land b)
  | .bitOr => some (a.lor b)
  | .bitXor => some (a.xor b)
  | .bitXnor | .bitXnor' => some (Int.lnot (a.xor b))
  | .shl | .ashl => constShl a b
  | .shr | .ashr => constShr a b
  | .eq | .caseEq => some (ofProp (a = b))
  | .ne | .caseNe => some (ofProp (a ≠ b))
  | .lt => some (ofProp (a < b))
  | .le => some (ofProp (a ≤ b))
  | .gt => some (ofProp (a > b))
  | .ge => some (ofProp (a ≥ b))
  | .logAnd => some (ofProp (a ≠ 0 ∧ b ≠ 0))
  | .logOr => some (ofProp (a ≠ 0 ∨ b ≠ 0))

/-! ## Expressions -/

/-- `_eval_const` of a literal. Only an integer is read with the literal's sign, not digits kept as text. -/
def constLiteral (l : Literal) : Option Int :=
  match l.value with
  | .text digits => (Literal.decimalInt digits).map Int.ofNat
  | .int n =>
      match l.width with
      | some w => some (if l.signed ∧ w ≠ 0 ∧ 0 ≤ n ∧ n >>> (w - 1) ≠ 0 then n - 2 ^ w else n)
      | none => some n

mutual

/-- `_const_part_width`. -/
def constPartWidth : Expr → Option Nat
  | .literal l => l.width
  | .concat _ ps => constPartWidths ps
  | _ => none

/-- The sum of the parts' widths. -/
def constPartWidths : List Expr → Option Nat
  | [] => some 0
  | p :: ps => do return (← constPartWidth p) + (← constPartWidths ps)

end

/-- The loop over the count of a replication. -/
def constReplicate (value w : Nat) : Nat → Nat → Nat
  | 0, acc => acc
  | count + 1, acc => constReplicate value w count ((acc <<< w) ||| value)

/-- `(target >> lsb) & ((1 << width) - 1)`. -/
def constSlice (target lsb width : Int) : Option Int :=
  if lsb < 0 ∨ width < 0 then none else some (target >>> lsb.toNat % 2 ^ width.toNat)

/-- `_eval_const_func` of the functions of integers. -/
def constFunc (f : String) (args : List Int) : Option Int :=
  match args with
  | [v] => if f = "$clog2" then some (if 0 < v then Literal.bitLength (v - 1).toNat else 0) else none
  | [base, exp] => if f = "$pow" ∧ 0 ≤ exp then some (base ^ exp.toNat) else none
  | _ => none

/-- `_eval_const_func` of `$bits`. -/
def constBits (env : String → Option Int) : List Expr → Option Int
  | [.ident _ n] => env ("$bits:" ++ n)
  | _ => none

mutual

/-- `_eval_const`. -/
def evalConst (env : String → Option Int) : Expr → Option Int
  | .ident h n => (env (identifierName h n)).orElse fun _ => env n
  | .literal l => constLiteral l
  | .string _ => none
  | .unary op e => do constUnary op (← evalConst env e)
  | .binary op l r => do
      let left ← evalConst env l
      let right ← evalConst env r
      constBinary op left right
  | .ternary c t f => do
      let cond ← evalConst env c
      if cond ≠ 0 then evalConst env t else evalConst env f
  | .concat _ ps => if ps.length = 1 then evalConstHead env ps else evalConstParts env ps 0
  | .replicate c v => do
      let count ← evalConst env c
      let value ← evalConst env v
      let w ← constPartWidth v
      return (constReplicate (value % 2 ^ w).toNat w count.toNat 0 : Nat)
  | .streaming _ | .streamingBy _ _ => none
  | .bitSelect _ _ => none
  | .rangeSelect t m l => do
      let base ← evalConst env t
      let msb ← evalConst env m
      let lsb ← evalConst env l
      constSlice base (min msb lsb) (|msb - lsb| + 1)
  | .partSelect t b w d => do
      let target ← evalConst env t
      let base ← evalConst env b
      let width ← evalConst env w
      match d with
      | .up => constSlice target base width
      | .down => constSlice target (base - width + 1) width
  | .cast _ a => evalConst env a
  | .call f as =>
      if f = "$bits" then constBits env as
      else do constFunc f (← evalConstArgs env as)

/-- The value of the only part. -/
def evalConstHead (env : String → Option Int) : List Expr → Option Int
  | [] => none
  | p :: _ => evalConst env p

/-- The loop over the parts of a concatenation. -/
def evalConstParts (env : String → Option Int) : List Expr → Nat → Option Int
  | [], result => some result
  | p :: ps, result => do
      let value ← evalConst env p
      let w ← constPartWidth p
      evalConstParts env ps ((result <<< w) ||| (value % 2 ^ w).toNat)

/-- The values of a function's arguments. -/
def evalConstArgs (env : String → Option Int) : List Expr → Option (List Int)
  | [] => some []
  | a :: as => do return (← evalConst env a) :: (← evalConstArgs env as)

end

section

-- derived here once, not by every proof
attribute [local simp] evalConst evalConstParts

end

end Veriforge.Const

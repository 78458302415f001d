import Veriforge.Emit.Operand

/-! # What the lowering passes know of widths

`_declarations` (`sim/sv_functions.py`) and `expr_width` (`semantics.py`): the packed width and the dimensions of every
declared name, and the width of an expression read off them. `env` holds the parameters of the module. -/

namespace Veriforge

namespace Lower

open Emit

/-- An entry of `_declarations`: the bounds of every dimension, the unpacked ones first, and the packed width. -/
structure Declared where
  pairs : List (Int × Int)
  unpacked : Nat
  packed : Nat

/-- `{**INTEGER_ATOM_WIDTHS, "time": 64}`. -/
def atomWidths : List (String × Nat) := integerAtomWidths ++ [("time", 64)]

section

variable (env : String → Option Int)

/-- The bounds of a range. -/
def bounds (r : Expr × Expr) : Option (Int × Int) := do
  let left ← Const.evalConst env r.1
  let right ← Const.evalConst env r.2
  return (left, right)

/-- The bounds of the packed element: an atom type has its own, a scalar `[0:0]`. -/
def elementBounds (d : Declaration) : Option (Int × Int) :=
  match d.width with
  | some r => bounds env r
  | none =>
      match d.kind.bind (atomWidths.lookup ·) with
      | some w => some (w - 1, 0)
      | none => some (0, 0)

/-- `_declarations`, of one declaration. -/
def declared (d : Declaration) : Option Declared := do
  let unpacked ← (d.dimensions.drop d.packedDimCount).mapM (bounds env)
  let packed ← (d.dimensions.take d.packedDimCount).mapM (bounds env)
  let element ← elementBounds env d
  let packed := packed ++ [element]
  return ⟨unpacked ++ packed, unpacked.length, (packed.map fun p => (p.1 - p.2).natAbs + 1).prod⟩

/-- `_declarations`: the first declaration of a name counts. -/
def declarations (decls : List (String × Declaration)) (name : String) : Option Declared :=
  (decls.filterMap fun d => (declared env d.2).map fun entry => (d.1, entry)).lookup name

variable (widthOf : String → Int)

mutual

/-- `expr_width`. -/
def exprWidth : Expr → Int
  | .literal l =>
      match l.width, l.signed, l.value with
      | none, true, .int n => if 0 < n then max 32 (Literal.bitLength n.toNat + 1 : Nat) else 32
      | some w, _, _ => w
      | _, _, _ => 32
  | .string s => 8 * s.length
  | .ident h n => widthOf (identifierName h n)
  | .unary op e => if op.contextDetermined then exprWidth e else 1
  | .binary op l r =>
      if op.isComparison || op.isLogical then 1
      else if op.isShift || op == .pow then exprWidth l
      else max (exprWidth l) (exprWidth r)
  | .ternary _ t f => max (exprWidth t) (exprWidth f)
  | .concat _ ps => exprWidths ps
  | .replicate c v => (Const.evalConst env c).getD 1 * exprWidth v
  | .bitSelect _ _ => 1
  | .rangeSelect _ m l =>
      match Const.evalConst env m, Const.evalConst env l with
      | some m, some l => (m - l).natAbs + 1
      | _, _ => 1
  | .partSelect _ _ w _ => (Const.evalConst env w).getD 1
  | .cast _ a => exprWidth a
  | .call f as =>
      match as with
      | a :: _ =>
          if f.toLower = "$__2state" then exprWidth a
          else if f.toLower = "$__vf_real" then (if isComparisonCode a then 1 else 64)
          else 32
      | [] => 32
  | .streaming _ | .streamingBy _ _ => 32

/-- The sum of the widths of concatenated parts. -/
def exprWidths : List Expr → Int
  | [] => 0
  | e :: es => exprWidth e + exprWidths es

end

section

-- derived here once, not by every proof
attribute [local simp] exprWidth exprWidths

end

end

variable (env : String → Option Int) (decls : String → Option Declared)

/-- `width_of`. -/
def widthOf (name : String) : Int := (decls name).elim 1 fun d => d.packed

/-- The name under a chain of bit selects and the length of the chain. -/
def selectChain : Expr → Option (List String × String) × Nat
  | .bitSelect t _ => ((selectChain t).1, (selectChain t).2 + 1)
  | .ident h n => (some (h, n), 0)
  | _ => (none, 0)

/-- `operand_width`: a memory element is a word, not a bit select. -/
def operandWidth (e : Expr) : Int :=
  let word := do
    let (_, name) ← (selectChain e).1
    let d ← decls name
    if d.unpacked ≠ 0 ∧ (selectChain e).2 = d.unpacked then some (d.packed : Int) else none
  word.getD (exprWidth env (widthOf decls) e)

end Lower

end Veriforge

import Veriforge.Const.Fold
import Veriforge.Sim.Signedness

/-! # What the emitter knows of an operand

The declarations of the module being emitted (`_Scope`), and the width and signedness of an expression read off
them: `_decl_width`, `_operand_width` (`codegen/verilog_emitter.py`), `expr_width` (`semantics.py`). -/

namespace Veriforge.Emit

/-- `_int`: `const_int` without parameters. -/
def constInt (e : Expr) : Option Int := Const.evalConst (fun _ => none) e

/-- A port, net or variable declaration: the bounds are those of `[msb:lsb]`. -/
structure Declaration where
  width : Option (Expr × Expr)
  dimensions : List (Expr × Expr)
  packedDimCount : Nat
  packedOnly : Bool
  /-- The value of `kind`, or `data_type`. -/
  kind : Option String
  typeName : Option String
  signed : Bool
  /-- The extra packed ranges stand first among the dimensions. -/
  count_le : packedDimCount ≤ dimensions.length

/-- `INTEGER_ATOM_WIDTHS`. -/
def integerAtomWidths : List (String × Nat) :=
  [("byte", 8), ("shortint", 16), ("int", 32), ("longint", 64), ("integer", 32)]

namespace Declaration

/-- The packed dimensions of `split_dimensions`. -/
def packedDimensions (d : Declaration) : List (Expr × Expr) :=
  if d.packedOnly then d.dimensions else d.dimensions.take d.packedDimCount

/-- The size of a constant range. -/
def rangeSize (r : Expr × Expr) : Option Nat := do
  let left ← constInt r.1
  let right ← constInt r.2
  return (left - right).natAbs + 1

/-- `_decl_width`. -/
def declWidth (d : Declaration) : Option Nat :=
  match d.width with
  | none =>
      match d.kind.bind (integerAtomWidths.lookup ·) with
      | some w => some w
      | none => if d.typeName.any (· ≠ "") then none else some 1
  | some r => do
      let total ← rangeSize r
      let sizes ← d.packedDimensions.mapM rangeSize
      return sizes.foldl (· * ·) total

end Declaration

/-- `_Scope`: the array names and every declaration by name. A declaration with dimensions or of a named type counts
as an array. -/
structure DeclScope where
  arrays : String → Bool
  decls : String → Option Declaration
  arrays_of_decls : ∀ n d, decls n = some d → d.dimensions ≠ [] ∨ d.typeName.any (· ≠ "") = true → arrays n = true

/-- `_select_root`, as a name. -/
def selectRoot : Expr → Option String
  | .ident _ n => some n
  | .bitSelect t _ | .rangeSelect t _ _ | .partSelect t _ _ _ => selectRoot t
  | _ => none

/-- The first argument of `$__vf_real` names a comparison. -/
def isComparisonCode : Expr → Bool
  | .literal l => l.value == .int 7 || l.value == .int 8 || l.value == .int 9
  | _ => false

namespace DeclScope

variable (D : DeclScope)

mutual

/-- Some node of the tree is a bit select rooted in an array. -/
def readsWord : Expr → Bool
  | .ident _ _ | .literal _ | .string _ => false
  | .unary _ e => readsWord e
  | .binary _ l r => readsWord l || readsWord r
  | .ternary c t f => readsWord c || readsWord t || readsWord f
  | .concat _ ps | .streaming ps => readsWords ps
  | .streamingBy s ps => readsWords ps || readsWord s
  | .replicate c v => readsWord c || readsWord v
  | .bitSelect t i => (selectRoot t).any D.arrays || readsWord t || readsWord i
  | .rangeSelect t m l => readsWord t || readsWord m || readsWord l
  | .partSelect t b w _ => readsWord t || readsWord b || readsWord w
  | .cast _ a => readsWord a
  | .call _ as => readsWords as

/-- `readsWord` of some part. -/
def readsWords : List Expr → Bool
  | [] => false
  | e :: es => readsWord e || readsWords es

end

/-- The width callback of `_operand_width`. -/
def widthOf (name : String) : Option Nat := (D.decls name).bind Declaration.declWidth

mutual

/-- `expr_width` with the emitter's callback; `none` when it asks for a name of unknown width. -/
def exprWidth : Expr → Option Int
  | .literal l =>
      match l.width, l.signed, l.value with
      | none, true, .int n => some (if 0 < n then max 32 (Literal.bitLength n.toNat + 1 : Nat) else 32)
      | some w, _, _ => some w
      | _, _, _ => some 32
  | .string s => some (8 * s.length)
  | .ident h n => (D.widthOf (identifierName h n)).map Int.ofNat
  | .unary op e => if op.contextDetermined then exprWidth e else some 1
  | .binary op l r =>
      if op.isComparison || op.isLogical then some 1
      else if op.isShift || op == .pow then exprWidth l
      else do return max (← exprWidth l) (← exprWidth r)
  | .ternary _ t f => do return max (← exprWidth t) (← exprWidth f)
  | .concat _ ps => exprWidths ps
  | .replicate c v => do return (constInt c).getD 1 * (← exprWidth v)
  | .bitSelect _ _ => some 1
  | .rangeSelect _ m l =>
      match constInt m, constInt l with
      | some m, some l => some ((m - l).natAbs + 1)
      | _, _ => some 1
  | .partSelect _ _ w _ => some ((constInt w).getD 1)
  | .cast _ a => exprWidth a
  | .call f as =>
      match as with
      | a :: _ =>
          if f.toLower = "$__2state" then exprWidth a
          else if f.toLower = "$__vf_real" then some (if isComparisonCode a then 1 else 64)
          else some 32
      | [] => some 32
  | .streaming _ | .streamingBy _ _ => some 32

/-- The sum of the widths of concatenated parts. -/
def exprWidths : List Expr → Option Int
  | [] => some 0
  | e :: es => do return (← exprWidth e) + (← exprWidths es)

end

/-- `_operand_width`. -/
def operandWidth (e : Expr) : Option Int := if D.readsWord e then none else D.exprWidth e

/-- The signedness `_cast_2005` reads off the declarations. -/
def operandSigned (e : Expr) : Bool := semanticsSigned (fun n => (D.decls n).any Declaration.signed) none [] e

end DeclScope

end Veriforge.Emit

import Veriforge.Exec.Basic
import Veriforge.Sim.Width

/-! # Scopes

What an expression's names and calls stand for besides the signals of a table: fields of packed structs
and user functions. `_expr_self_width` and `_expr_signed` are read off the declarations in scope. -/

namespace Veriforge

open Exec

/-- A resolved struct field: a slice of a signal or of a memory word. -/
structure FieldAccess (T : SignalTable) where
  width : Nat
  read : Store T → Value
  read_width : ∀ st, (read st).width = width

/-- `FunctionDecl`, as a call sees it: the widths of the ports, and the run of the body from the values of
the ports. The run may write the caller's signals and memories, and leaves a local store whose table
declares the return variable with the return width. -/
structure UserFunction (T : SignalTable) where
  returnWidth : Nat
  signed : Bool
  portWidths : List Nat
  locals : SignalTable
  returnVar : String
  returns : locals.width returnVar = some returnWidth
  run : List Value → Exec Unit (Store T) (Store locals)

/-- The system functions that are evaluated. -/
inductive SystemFunction
  | clog2 | bits
  deriving DecidableEq, Repr

/-- The system function of a call, whatever the case of its name. -/
def systemFunction (name : String) : Option SystemFunction :=
  if name.toLower = "$clog2" then some .clog2
  else if name.toLower = "$bits" then some .bits
  else none

/-- The names in scope. A field of a memory word is in scope when its index is a number inside the
memory. -/
structure Scope (T : SignalTable) where
  /-- `_resolve_struct_field_value`. -/
  field : String → Option (FieldAccess T)
  /-- `lookup_function` and `ctx._functions.get`. -/
  function : String → Option (UserFunction T)
  /-- A memory is no struct field. -/
  field_memory : ∀ n, T.memory n ≠ none → field n = none
  /-- No user function is named like a system function. -/
  function_system : ∀ f, systemFunction f ≠ none → function f = none

/-- A scope without structs and functions. -/
def Scope.plain (T : SignalTable) : Scope T := ⟨fun _ => none, fun _ => none, fun _ _ => rfl, fun _ _ => rfl⟩

namespace Scope

variable {T : SignalTable} (S : Scope T)

mutual

/-- `_expr_self_width`. -/
def selfWidth : Expr → Nat
  | .ident h n =>
      let name := identifierName h n
      match T.width name with
      | some w => w
      | none =>
          match S.field name with
          | some access => access.width
          | none =>
              match T.memory name with
              | some (ew, d) => ew * d
              | none => 32
  | .literal l => l.selfWidth
  | .string s => s.length * 8
  | .unary op e => if op.contextDetermined then selfWidth e else 1
  | .binary op l r =>
      if op.isComparison || op.isLogical then 1
      else if op.isShift || op == .pow then selfWidth l
      else max (selfWidth l) (selfWidth r)
  | .ternary _ t f => max (selfWidth t) (selfWidth f)
  | .concat _ ps => selfWidthSum ps
  | .streaming ps => selfWidthSum ps
  | .streamingBy _ ps => selfWidthSum ps
  | .replicate c v =>
      match c with
      | .literal l => (l.intValue.getD 0).toNat * selfWidth v
      | _ => selfWidth v
  | .bitSelect t _ => (memoryWidth? T t).getD 1
  | .rangeSelect _ m l =>
      match m, l with
      | .literal m, .literal l => literalRangeWidth m l
      | _, _ => 1
  | .partSelect _ _ w _ =>
      match w with
      | .literal l => (l.intValue.getD 0).toNat
      | _ => 1
  | .cast _ a => selfWidth a
  | .call f _ =>
      match S.function f with
      | some g => g.returnWidth
      | none => 32

/-- The sum of the self-determined widths of concatenated parts. -/
def selfWidthSum : List Expr → Nat
  | [] => 0
  | e :: es => selfWidth e + selfWidthSum es

end

/-- `_expr_signed`. -/
def exprSigned : Expr → Bool
  | .ident h n => T.signed (identifierName h n)
  | .literal l => l.signed
  | .bitSelect t _ =>
      match t with
      | .ident h n => T.isMemory (identifierName h n) && T.signed (identifierName h n)
      | _ => false
  | .unary op e => op.contextDetermined && exprSigned e
  | .binary op l r =>
      if op.isShift || op == .pow then exprSigned l
      else if op.isComparison || op.isLogical then false
      else exprSigned l && exprSigned r
  | .ternary _ t f => exprSigned t && exprSigned f
  | .cast s _ => s
  | .string _ | .concat _ _ | .streaming _ | .streamingBy _ _ | .replicate _ _ => false
  | .rangeSelect _ _ _ | .partSelect _ _ _ _ => false
  | .call f _ => (S.function f).any UserFunction.signed

theorem selfWidth_binary (op : BinaryOp) (l r : Expr) :
    S.selfWidth (.binary op l r) = resultWidth op (S.selfWidth l) (S.selfWidth r) := by
  rw [selfWidth, resultWidth]

theorem selfWidthSum_eq (es : List Expr) : S.selfWidthSum es = (es.map S.selfWidth).sum := by
  induction es with
  | nil => rfl
  | cons e es ih => rw [selfWidthSum, ih, List.map_cons, List.sum_cons]

end Scope

end Veriforge

import Veriforge.Sim.Eval

/-! # The type of an inferred wire

`dsl/_driver_type.py`: the width and the signedness of `x = m.wire(expr)`, read off its driver. Where the source raises
`NeedWidth` the result is `none`. -/

namespace Veriforge.Driver

/-- What a lookup tells of a signal; the width is `none` when it is no plain integer. -/
structure Declared where
  width : Option Nat
  signed : Bool
  isMemory : Bool

/-- A lookup raises for a name that is no signal of the module. -/
abbrev Lookup := String → Option Declared

/-- `_const` -/
def const : Expr → Option Int
  | .literal l =>
      match l.value with
      | .int n => if l.isX || l.isZ then none else some n
      | .text _ => none
  | _ => none

/-- `a and b`, which leaves `b` alone where `a` is false. -/
def both (a b : Option Bool) : Option Bool := a.bind fun a => if a then b else some false

section

variable (lookup : Lookup)

/-- `_signed` -/
def driverSigned : Expr → Option Bool
  | .ident _ n => (lookup n).map Declared.signed
  | .literal l => some l.signed
  | .unary op e => if op.contextDetermined then driverSigned e else some false
  | .binary op l r =>
      if op.isComparison || op.isLogical then some false
      else if op.isShift then driverSigned l
      else both (driverSigned l) (driverSigned r)
  | .ternary _ t f => both (driverSigned t) (driverSigned f)
  | .concat _ _ | .replicate _ _ | .rangeSelect _ _ _ | .partSelect _ _ _ _ => some false
  | .bitSelect t _ =>
      match t with
      | .ident _ n => (lookup n).map fun d => d.isMemory && d.signed
      | _ => some false
  | .cast s _ => some s
  | .string _ | .streaming _ | .streamingBy _ _ | .call _ _ => none

/-- `_all_bare_ints` -/
def allBareInts : Expr → Bool
  | .literal l => l.width.isNone
  | .binary op l r => op.isBitwise && allBareInts l && allBareInts r
  | .ternary _ t f => allBareInts t && allBareInts f
  | .unary op e => (op == .bitNot || op == .plus) && allBareInts e
  | _ => false

/-- `isinstance(p, Literal) and p.width is None` -/
def unsized : Expr → Bool
  | .literal l => l.width.isNone
  | _ => false

/-- The bits that the value of a literal without a width needs. -/
def neededBits (signed : Bool) (value : Int) : Nat :=
  max 1 (Literal.bitLength (if 0 ≤ value then value else -value - 1).toNat + signed.toNat)

mutual

/-- `_width`: the bits of an expression that stands in one of the given signedness. -/
def driverWidth (signed : Bool) : Expr → Option Int
  | .ident _ n => (lookup n).bind fun d => d.width.map Int.ofNat
  | .literal l =>
      match l.width with
      | some w => some w
      | none =>
          (const (.literal l)).bind fun value =>
            if value < 0 ∧ !signed then none else some (neededBits signed value)
  | .unary op e =>
      if !op.contextDetermined then some 1
      else if op == .minus then none
      else driverWidth signed e
  | .binary op l r =>
      if op.isComparison || op.isLogical then some 1
      else if op.isBitwise then
        if allBareInts (.binary op l r) then none
        else (driverWidth signed l).bind fun wl => (driverWidth signed r).map (max wl)
      else if op == .shr || op == .ashr then driverWidth signed l
      else none
  | .ternary _ t f =>
      if allBareInts t && allBareInts f then none
      else (driverWidth signed t).bind fun wt => (driverWidth signed f).map (max wt)
  | .concat _ ps => if ps.any unsized then none else driverWidths ps
  | .replicate c v =>
      (const c).bind fun n => (driverSigned lookup v).bind fun s => (driverWidth s v).map (n * ·)
  | .bitSelect t _ =>
      match t with
      | .ident _ n =>
          (lookup n).bind fun d => if d.isMemory then d.width.map Int.ofNat else some 1
      | _ => some 1
  | .rangeSelect _ m l => (const m).bind fun m => (const l).map fun l => ((m - l).natAbs : Int) + 1
  | .partSelect _ _ w _ => const w
  | .cast s a => driverWidth s a
  | .string _ | .streaming _ | .streamingBy _ _ | .call _ _ => none

/-- The widths of concatenated parts, each in its own signedness. -/
def driverWidths : List Expr → Option Int
  | [] => some 0
  | p :: ps =>
      (driverSigned lookup p).bind fun s => (driverWidth s p).bind fun w => (driverWidths ps).map (w + ·)

end

/-- `driver_width` and `driver_signed`: the width and signedness of a wire. -/
def driverType (e : Expr) : Option (Int × Bool) :=
  (driverSigned lookup e).bind fun s => (driverWidth lookup s e).map fun w => (w, s)

end

/-- What a lookup tells agrees with the declarations of the simulator. -/
structure Lookup.Describes (lookup : Lookup) (T : SignalTable) : Prop where
  signed : ∀ {n d}, lookup n = some d → T.signed n = d.signed
  isMemory : ∀ {n d}, lookup n = some d → T.isMemory n = d.isMemory

section

variable {T : SignalTable} (st : Store T) (e : Expr)

/-- What a target of a width holds after the assignment of an expression. -/
def assigned (width : Nat) : Option Value := (eval st e width none).map fun v => v.resize width

/-- A wire of the type holds all that a wider target would: extended to its width, it is the same. -/
def LosesNothing (width : Nat) (signed : Bool) : Prop :=
  ∀ wider, width ≤ wider → assigned st e wider = (assigned st e width).bind fun v => extendTo signed v wider

end

end Veriforge.Driver

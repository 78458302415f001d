import Mathlib.Data.Nat.Log
import Veriforge.Value.Basic

/-! # Operators on 4-state values

The operator methods of `Value` (`sim/value.py`), under the source's names. Arithmetic is all or
nothing: one `x` bit anywhere in an operand makes every bit of the result `x`. The bitwise operators,
the reductions and `==` are precise: an operand bit that decides a result bit decides it. -/

namespace Veriforge.Value

/-! ## Arithmetic -/

/-- `__add__`. -/
def add (a b : Value) : Value :=
  let w := max a.width b.width
  if a.mask ≠ 0 ∨ b.mask ≠ 0 then x w else ofInt (a.val + b.val) w

/-- `__sub__`. -/
def sub (a b : Value) : Value :=
  let w := max a.width b.width
  if a.mask ≠ 0 ∨ b.mask ≠ 0 then x w else ofInt ((a.val : Int) - b.val) w

/-- `__mul__`. -/
def mul (a b : Value) : Value :=
  let w := max a.width b.width
  if a.mask ≠ 0 ∨ b.mask ≠ 0 then x w else ofInt (a.val * b.val) w

/-- `__mod__`. -/
def mod (a b : Value) : Value :=
  let w := max a.width b.width
  if a.mask ≠ 0 ∨ b.mask ≠ 0 then x w
  else if b.val = 0 then x w
  else ofInt (a.val % b.val : Nat) w

/-- `__floordiv__`. -/
def floordiv (a b : Value) : Value :=
  let w := max a.width b.width
  if a.mask ≠ 0 ∨ b.mask ≠ 0 then x w
  else if b.val = 0 then x w
  else ofInt (a.val / b.val : Nat) w

/-- `__neg__`. -/
def neg (a : Value) : Value :=
  if a.mask ≠ 0 then x a.width else ofInt (-(a.val : Int)) a.width

/-- `_verilog_pow` with a width: the power modulo `2 ^ width`, and for a negative exponent the
special cases of the power operator's table (`none` is its all-`x` cell). -/
def verilogPow (base exp : Int) (width : Nat) : Option Int :=
  if exp = 0 then some 1
  else if 0 < exp then some (base ^ exp.toNat % 2 ^ width)
  else if base = 0 then none
  else if base = 1 then some 1
  else if base = -1 then some (if exp % 2 ≠ 0 then -1 else 1)
  else some 0

/-- The value of a `_verilog_pow` result. -/
def ofPow (r : Option Int) (w : Nat) : Value :=
  match r with
  | none => x w
  | some n => ofInt n w

/-- `__pow__`: the result has the base's width. -/
def pow (a b : Value) : Value :=
  let w := a.width
  if a.mask ≠ 0 ∨ b.mask ≠ 0 then x w else ofPow (verilogPow a.val b.val w) w

/-! ## Bitwise operators -/

/-- `__and__`. -/
def and (a b : Value) : Value :=
  let w := max a.width b.width
  if a.mask = 0 ∧ b.mask = 0 then ofInt (a.val &&& b.val : Nat) w
  else
    let definiteZero := (lnot w a.val &&& lnot w a.mask) ||| (lnot w b.val &&& lnot w b.mask)
    let newMask := (a.mask ||| b.mask) &&& lnot w definiteZero &&& maskForWidth w
    let newVal := a.val &&& b.val &&& lnot w newMask
    init newVal w newMask

/-- `__or__`. -/
def or (a b : Value) : Value :=
  let w := max a.width b.width
  if a.mask = 0 ∧ b.mask = 0 then ofInt (a.val ||| b.val : Nat) w
  else
    let definiteOne := (a.val &&& lnot w a.mask) ||| (b.val &&& lnot w b.mask)
    let newMask := (a.mask ||| b.mask) &&& lnot w definiteOne &&& maskForWidth w
    let newVal := (a.val ||| b.val ||| definiteOne) &&& lnot w newMask
    init newVal w newMask

/-- `__xor__`. -/
def xor (a b : Value) : Value :=
  let w := max a.width b.width
  if a.mask ≠ 0 ∨ b.mask ≠ 0 then
    let newMask := (a.mask ||| b.mask) &&& maskForWidth w
    let newVal := (a.val ^^^ b.val) &&& lnot w newMask
    init newVal w newMask
  else ofInt (a.val ^^^ b.val : Nat) w

/-- `__invert__`. -/
def invert (a : Value) : Value :=
  if a.mask ≠ 0 then init (lnot a.width a.val &&& lnot a.width a.mask : Nat) a.width a.mask
  else ofInt (lnot a.width a.val) a.width

/-! ## Shifts -/

/-- `__lshift__`. -/
def lshift (a b : Value) : Value :=
  if b.mask ≠ 0 then x a.width
  else if b.val ≥ a.width then ofInt 0 a.width
  else init (a.val <<< b.val : Nat) a.width (a.mask <<< b.val)

/-- `__rshift__`. -/
def rshift (a b : Value) : Value :=
  if b.mask ≠ 0 then x a.width
  else if b.val ≥ a.width then ofInt 0 a.width
  else init (a.val >>> b.val : Nat) a.width (a.mask >>> b.val)

/-! ## Comparisons -/

/-- A comparison's one-bit result. -/
def ofBool (b : Bool) : Value := ofInt (if b then 1 else 0) 1

/-- Whether some bit known in both operands differs. -/
def knownDiff (a b : Value) : Bool :=
  let w := max a.width b.width
  ((a.val ^^^ b.val) &&& lnot w a.mask &&& lnot w b.mask) != 0

/-- `_cmp` with `==`. -/
def eq (a b : Value) : Value :=
  if knownDiff a b then ofBool false
  else if a.mask ≠ 0 ∨ b.mask ≠ 0 then x 1
  else ofBool (a.val = b.val)

/-- `_cmp` with `!=`. -/
def ne (a b : Value) : Value :=
  if knownDiff a b then ofBool true
  else if a.mask ≠ 0 ∨ b.mask ≠ 0 then x 1
  else ofBool (a.val ≠ b.val)

/-- `_cmp` with an ordering operator, which needs both operands defined. -/
def cmp (op : Nat → Nat → Bool) (a b : Value) : Value :=
  if a.mask ≠ 0 ∨ b.mask ≠ 0 then x 1 else ofBool (op a.val b.val)

/-- `case_eq`: `===`. -/
def caseEq (a b : Value) : Value := ofBool (a.val = b.val ∧ a.mask = b.mask)

/-- `case_ne`: `!==`. -/
def caseNe (a b : Value) : Value := ofBool (a.val ≠ b.val ∨ a.mask ≠ b.mask)

/-! ## Reductions -/

/-- `reduce_and`. -/
def reduceAnd (a : Value) : Value :=
  if a.mask ≠ 0 then
    let knownMask := maskForWidth a.width &&& lnot a.width a.mask
    if a.val &&& knownMask ≠ knownMask then ofBool false else x 1
  else ofBool (a.val &&& maskForWidth a.width = maskForWidth a.width)

/-- `reduce_or`. -/
def reduceOr (a : Value) : Value :=
  if a.mask ≠ 0 then
    if a.val &&& lnot a.width a.mask ≠ 0 then ofBool true else x 1
  else ofBool (a.val ≠ 0)

/-- `bin(n).count("1")` over the low `w` bits. -/
def countOnes (n : Nat) : Nat → Nat
  | 0 => 0
  | w + 1 => countOnes n w + (n.testBit w).toNat

/-- `reduce_xor`. -/
def reduceXor (a : Value) : Value :=
  if a.mask ≠ 0 then x 1 else ofInt (countOnes a.val a.width &&& 1 : Nat) 1

/-- `reduce_nand`. -/
def reduceNand (a : Value) : Value := a.reduceAnd.invert

/-- `reduce_nor`. -/
def reduceNor (a : Value) : Value := a.reduceOr.invert

/-- `reduce_xnor`. -/
def reduceXnor (a : Value) : Value := a.reduceXor.invert

/-! ## Logical operators -/

/-- Some bit is known to be 1. -/
def knownOne (a : Value) : Bool := (a.val &&& lnot a.width a.mask) != 0

/-- Every bit is known to be 0. -/
def knownZero (a : Value) : Bool := a.mask == 0 && a.val == 0

/-- `logical_and`. -/
def logicalAnd (a b : Value) : Value :=
  if a.knownZero || b.knownZero then ofBool false
  else if a.knownOne && b.knownOne then ofBool true
  else x 1

/-- `logical_or`. -/
def logicalOr (a b : Value) : Value :=
  if a.knownOne || b.knownOne then ofBool true
  else if a.mask = 0 ∧ b.mask = 0 then ofBool false
  else x 1

/-- `logical_not`. -/
def logicalNot (a : Value) : Value :=
  if a.knownOne then ofBool false
  else if a.mask ≠ 0 then x 1
  else ofBool true

/-! ## Concatenation -/

/-- `concat` of two values, `a` the most significant. -/
def concat (a b : Value) : Value :=
  init ((a.val <<< b.width) ||| b.val : Nat) (a.width + b.width) ((a.mask <<< b.width) ||| b.mask)

/-- The loop of `replicate`, from the integers built so far. -/
def replicateLoop (a : Value) : Nat → Nat → Nat → Nat × Nat
  | 0, resultVal, resultMask => (resultVal, resultMask)
  | count + 1, resultVal, resultMask =>
      replicateLoop a count ((resultVal <<< a.width) ||| a.val) ((resultMask <<< a.width) ||| a.mask)

/-- `replicate`. -/
def replicate (a : Value) (count : Nat) : Value :=
  let r := replicateLoop a count 0 0
  init r.1 (a.width * count) r.2

/-! ## Selects -/

/-- `__getitem__` with an integer: one bit, `x` out of range. -/
def getBit (a : Value) (index : Int) : Value :=
  if index < 0 ∨ index ≥ a.width then x 1
  else init ((a.val >>> index.toNat) &&& 1 : Nat) 1 ((a.mask >>> index.toNat) &&& 1)

/-- `__getitem__` with a slice `msb:lsb` (swapped when reversed): the positions outside the value
read `x`. -/
def getRange (a : Value) (msb lsb : Int) : Value :=
  let (msb, lsb) := if msb < lsb then (lsb, msb) else (msb, lsb)
  let w := (msb - lsb + 1).toNat
  let v := if 0 ≤ lsb then a.val >>> lsb.toNat else a.val <<< (-lsb).toNat
  let m := if 0 ≤ lsb then a.mask >>> lsb.toNat else a.mask <<< (-lsb).toNat
  let high := if lsb + w > a.width then lnot w (maskForWidth (a.width - lsb).toNat) else 0
  let low := if lsb < 0 then maskForWidth (min w (-lsb).toNat) else 0
  let oor := high ||| low
  init (v &&& lnot w oor : Nat) w (m ||| oor)

/-- `set_bit`; raises when the index is out of range. -/
def setBit (a : Value) (index : Int) (bitVal bitMask : Nat) : Option Value :=
  if index < 0 ∨ index ≥ a.width then none
  else
    let i := index.toNat
    let newMask := (a.mask &&& lnot a.width (1 <<< i)) ||| ((bitMask &&& 1) <<< i)
    let bitVal := if bitMask &&& 1 ≠ 0 then 0 else bitVal
    let newVal := if bitVal ≠ 0 then a.val ||| (1 <<< i) else a.val &&& lnot a.width (1 <<< i)
    some (init newVal a.width newMask)

/-- `set_range`: bits `msb:lsb` replaced by `part`, the bits within the value only. -/
def setRange (a : Value) (msb lsb : Int) (part : Value) : Value :=
  let part' :=
    if lsb < 0 then
      init (part.val >>> (-lsb).toNat : Nat) (max (part.width + lsb) 1).toNat
        (part.mask >>> (-lsb).toNat)
    else part
  let lsb' := if lsb < 0 then 0 else lsb
  if msb < lsb' then a
  else
    let w := (msb - lsb' + 1).toNat
    let l := lsb'.toNat
    let rangeMask := maskForWidth w <<< l
    let clear := lnot (max a.width (w + l)) rangeMask
    let newVal := (a.val &&& clear) ||| ((part'.val &&& maskForWidth w) <<< l)
    let newMask := (a.mask &&& clear) ||| ((part'.mask &&& maskForWidth w) <<< l)
    init newVal a.width newMask

end Veriforge.Value

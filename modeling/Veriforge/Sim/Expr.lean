import Veriforge.Value.Ops

/-! # Expression trees

The expression nodes of the design model (`model/expressions.py`) that the simulator evaluates, with
the literals the parser builds. A call of `$signed` or `$unsigned` with an argument is the node `cast`;
every other call is a `call`. -/

namespace Veriforge

/-- The base letter of a based literal. -/
inductive Base
  | bin | oct | dec | hex
  deriving DecidableEq, Repr

/-- There are 16 digits. -/
instance neZeroSixteen : NeZero 16 := ⟨by decide⟩

/-- A digit of a literal's text. -/
inductive Digit
  | num (d : Fin 16)
  | x | z | question
  deriving DecidableEq, Repr

/-- The digit is `x`, `z` or `?`. -/
def Digit.isXz : Digit → Bool
  | .num _ => false
  | _ => true

/-- The text of a literal (`original_text`), split as `from_verilog` splits it. -/
inductive LiteralText
  /-- No text. -/
  | none
  /-- A plain integer. -/
  | decimal (n : Int)
  /-- `<size>'[s]<base><digits>`. -/
  | based (size : Option Nat) (signed : Bool) (base : Base) (digits : List Digit)
  /-- Any other text (`'0`, `'1`, `'x`, `'z`). -/
  | other
  deriving DecidableEq, Repr

/-- A literal's `value`: an integer, or digits kept as text. -/
inductive LiteralValue
  | int (n : Int)
  | text (digits : List Digit)
  deriving DecidableEq, Repr

/-- A number literal. -/
structure Literal where
  value : LiteralValue
  width : Option Nat
  signed : Bool
  isX : Bool
  isZ : Bool
  originalText : LiteralText
  deriving DecidableEq, Repr

/-- Unary operators; `~^` and `^~` are two spellings of one reduction. -/
inductive UnaryOp
  | plus | minus | bitNot | logNot
  | redAnd | redOr | redXor | redNand | redNor | redXnor | redXnor'
  deriving DecidableEq, Repr

/-- Binary operators; `~^` and `^~` are two spellings of one operator. -/
inductive BinaryOp
  | add | sub | mul | div | mod | pow
  | shl | shr | ashl | ashr
  | lt | le | gt | ge
  | eq | ne | caseEq | caseNe
  | bitAnd | bitOr | bitXor | bitXnor | bitXnor'
  | logAnd | logOr
  deriving DecidableEq, Repr

/-- `~ + -`: the operators whose operand is context-determined. -/
def UnaryOp.contextDetermined : UnaryOp → Bool
  | .plus | .minus | .bitNot => true
  | _ => false

/-- `&& ||`. -/
def BinaryOp.isLogical : BinaryOp → Bool
  | .logAnd | .logOr => true
  | _ => false

/-- `== != === !== < <= > >=`. -/
def BinaryOp.isComparison : BinaryOp → Bool
  | .eq | .ne | .caseEq | .caseNe | .lt | .le | .gt | .ge => true
  | _ => false

/-- `< <= > >=`. -/
def BinaryOp.isOrdering : BinaryOp → Bool
  | .lt | .le | .gt | .ge => true
  | _ => false

/-- `<< >> <<< >>>`. -/
def BinaryOp.isShift : BinaryOp → Bool
  | .shl | .shr | .ashl | .ashr => true
  | _ => false

/-- `& | ^ ~^ ^~`. -/
def BinaryOp.isBitwise : BinaryOp → Bool
  | .bitAnd | .bitOr | .bitXor | .bitXnor | .bitXnor' => true
  | _ => false

/-- `/ %`. -/
def BinaryOp.isDivmod : BinaryOp → Bool
  | .div | .mod => true
  | _ => false

/-- `+ - * / %`. -/
def BinaryOp.isArithmetic : BinaryOp → Bool
  | .add | .sub | .mul | .div | .mod => true
  | _ => false

/-- The five ways operands are sized. -/
theorem BinaryOp.sizing (op : BinaryOp) :
    op.isLogical = true ∨ op.isComparison = true ∨ (op.isShift || op == .pow) = true ∨
      op.isBitwise = true ∨ op.isArithmetic = true := by
  cases op <;> decide

/-- The width of an operator's result, from its operands'. -/
def resultWidth (op : BinaryOp) (l r : Nat) : Nat :=
  if op.isComparison || op.isLogical then 1
  else if op.isShift || op == .pow then l
  else max l r

section

variable {op : BinaryOp} (l r : Nat)

theorem resultWidth_logical (h : op.isLogical = true) : resultWidth op l r = 1 := by
  cases op <;> first | rfl | cases h

theorem resultWidth_comparison (h : op.isComparison = true) : resultWidth op l r = 1 := by
  cases op <;> first | rfl | cases h

theorem resultWidth_shift (h : (op.isShift || op == .pow) = true) : resultWidth op l r = l := by
  cases op <;> first | rfl | cases h

theorem resultWidth_bitwise (h : op.isBitwise = true) : resultWidth op l r = max l r := by
  cases op <;> first | rfl | cases h

theorem resultWidth_arithmetic (h : op.isArithmetic = true) : resultWidth op l r = max l r := by
  cases op <;> first | rfl | cases h

end

theorem BinaryOp.not_arithmetic_of_comparison {op : BinaryOp} (h : op.isComparison = true) :
    op.isArithmetic = false := by
  cases op <;> first | rfl | cases h

theorem BinaryOp.not_arithmetic_of_shift {op : BinaryOp} (h : (op.isShift || op == .pow) = true) :
    op.isArithmetic = false := by
  cases op <;> first | rfl | cases h

theorem BinaryOp.not_divmod_of_logical {op : BinaryOp} (h : op.isLogical = true) : op.isDivmod = false := by
  cases op <;> first | rfl | cases h

theorem BinaryOp.not_divmod_of_comparison {op : BinaryOp} (h : op.isComparison = true) : op.isDivmod = false := by
  cases op <;> first | rfl | cases h

theorem BinaryOp.not_divmod_of_shift {op : BinaryOp} (h : (op.isShift || op == .pow) = true) :
    op.isDivmod = false := by
  cases op <;> first | rfl | cases h

/-- The direction of a part select. -/
inductive Direction
  | up | down
  deriving DecidableEq, Repr

/-- Expressions. -/
inductive Expr
  | ident (hierarchy : List String) (name : String)
  | literal (l : Literal)
  | string (value : String)
  | unary (op : UnaryOp) (operand : Expr)
  | binary (op : BinaryOp) (left right : Expr)
  | ternary (condition trueExpr falseExpr : Expr)
  | concat (fromStreaming : Bool) (parts : List Expr)
  | replicate (count value : Expr)
  /-- `{<<{parts}}`. -/
  | streaming (parts : List Expr)
  /-- `{<<sliceSize{parts}}`. -/
  | streamingBy (sliceSize : Expr) (parts : List Expr)
  | bitSelect (target index : Expr)
  | rangeSelect (target msb lsb : Expr)
  | partSelect (target base width : Expr) (direction : Direction)
  /-- `$signed(arg)` or `$unsigned(arg)`. -/
  | cast (signed : Bool) (arg : Expr)
  | call (name : String) (arguments : List Expr)

/-- Induction over expressions, a list of parts giving a hypothesis for each of its members. -/
@[induction_eliminator]
theorem Expr.induct {motive : Expr → Prop}
    (ident : ∀ h n, motive (.ident h n))
    (literal : ∀ l, motive (.literal l))
    (string : ∀ s, motive (.string s))
    (unary : ∀ op e, motive e → motive (.unary op e))
    (binary : ∀ op l r, motive l → motive r → motive (.binary op l r))
    (ternary : ∀ c t f, motive c → motive t → motive f → motive (.ternary c t f))
    (concat : ∀ b ps, (∀ p ∈ ps, motive p) → motive (.concat b ps))
    (replicate : ∀ c v, motive c → motive v → motive (.replicate c v))
    (streaming : ∀ ps, (∀ p ∈ ps, motive p) → motive (.streaming ps))
    (streamingBy : ∀ s ps, motive s → (∀ p ∈ ps, motive p) → motive (.streamingBy s ps))
    (bitSelect : ∀ t i, motive t → motive i → motive (.bitSelect t i))
    (rangeSelect : ∀ t m l, motive t → motive m → motive l → motive (.rangeSelect t m l))
    (partSelect : ∀ t b w d, motive t → motive b → motive w → motive (.partSelect t b w d))
    (cast : ∀ s a, motive a → motive (.cast s a))
    (call : ∀ f as, (∀ a ∈ as, motive a) → motive (.call f as))
    (e : Expr) : motive e :=
  Expr.rec (motive_1 := motive) (motive_2 := fun es => ∀ e ∈ es, motive e) ident literal string unary
    binary ternary concat replicate streaming streamingBy bitSelect rangeSelect partSelect cast call
    (fun _ h => nomatch h)
    (fun _ _ he hes _ hm => (List.mem_cons.mp hm).elim (fun h => h ▸ he) (hes _)) e

/-- `_identifier_name`: the dotted name of an identifier. -/
def identifierName (hierarchy : List String) (name : String) : String :=
  match hierarchy with
  | [] => name
  | hierarchy => ".".intercalate hierarchy ++ "." ++ name

/-! ## Literals -/

namespace Literal

/-- `n.bit_length()` of a natural number. -/
def bitLength (n : Nat) : Nat := if n = 0 then 0 else Nat.log2 n + 1

theorem lt_two_pow_bitLength (n : Nat) : n < 2 ^ bitLength n := by
  rw [bitLength]
  split
  · next h0 => rw [h0]; exact Nat.one_pos
  · exact Nat.lt_log2_self

/-- `signed_literal_width`: at least 32 bits, and one more than the magnitude needs. -/
def signedLiteralWidth (n : Int) : Nat :=
  if 0 < n then max 32 (bitLength n.toNat + 1)
  else if n < 0 then max 32 (bitLength (-n - 1).toNat + 1)
  else 32

/-- One round of `_parse_binary`, `_parse_octal` or `_parse_hex`: shift in a digit of `k` bits. -/
def pushDigit (k : Nat) (acc : Nat × Nat) : Digit → Nat × Nat
  | .num d => ((acc.1 <<< k) ||| d.val, acc.2 <<< k)
  | _ => (acc.1 <<< k, (acc.2 <<< k) ||| (2 ^ k - 1))

/-- `_parse_binary`, `_parse_octal`, `_parse_hex`: `k` bits a digit. -/
def parseDigits (k : Nat) (digits : List Digit) (width : Nat) : Value :=
  let acc := digits.foldl (pushDigit k) (0, 0)
  Value.init acc.1 width acc.2

/-- `_xz_extend`: a leading `x` or `z` digit fills the bits above the digits. -/
def xzExtend (v : Value) (digits : List Digit) (k : Nat) : Value :=
  let nBits := digits.length * k
  match digits with
  | d :: _ =>
      if !d.isXz || v.width ≤ nBits then v
      else Value.init v.val v.width (v.mask ||| (maskForWidth v.width ^^^ maskForWidth nBits))
  | [] => v

/-- `int(digits)` of decimal digits; raises on an `x` or `z` digit. -/
def decimalInt (digits : List Digit) : Option Nat :=
  digits.foldl (fun acc d => match acc, d with
    | some n, .num k => some (10 * n + k.val)
    | _, _ => none) (some 0)

/-- `int(lit.value)`. -/
def intValue (l : Literal) : Option Int :=
  match l.value with
  | .int n => some n
  | .text digits => (decimalInt digits).map Int.ofNat

/-- `Value.from_verilog` on a literal's text; `none` where it raises. -/
def fromVerilog : LiteralText → Option Value
  | .decimal n => some (Value.ofInt n (signedLiteralWidth n))
  | .based size _ base digits =>
      let width := size.getD 32
      match base with
      | .bin => some (xzExtend (parseDigits 1 digits width) digits 1)
      | .oct => some (xzExtend (parseDigits 3 digits width) digits 3)
      | .hex => some (xzExtend (parseDigits 4 digits width) digits 4)
      | .dec =>
          if digits.any Digit.isXz then some (Value.x width)
          else (decimalInt digits).map fun n => Value.ofInt n width
  | .none | .other => none

/-- `is_unsized_xz_literal`: an unsized based literal whose first digit is `x`, `z` or `?`. -/
def isUnsizedXz : LiteralText → Bool
  | .based none _ _ (d :: _) => d.isXz
  | _ => false

/-- `lit.width or 32`. -/
def widthOr32 (l : Literal) : Nat :=
  match l.width with
  | some w => if w = 0 then 32 else w
  | none => 32

/-- `_eval_literal`: the reference evaluator's value of a literal. -/
def evalLiteral (l : Literal) : Value :=
  match fromVerilog l.originalText with
  | some v => v
  | none =>
      if l.isX || l.isZ then Value.x l.widthOr32
      else match l.value with
        | .int n =>
            Value.ofInt n (if l.width = none ∧ l.signed then signedLiteralWidth n else l.widthOr32)
        | .text digits =>
            match decimalInt digits with
            | some n => Value.ofInt n l.widthOr32
            | none => Value.x l.widthOr32

/-- `_compile_literal`: the bytecode compiler's value of a literal. -/
def compileLiteral (l : Literal) : Value :=
  match fromVerilog l.originalText with
  | some v => v
  | none =>
      if l.isX || l.isZ then Value.x l.widthOr32
      else match l.value with
        | .int n => Value.ofInt n l.widthOr32
        | .text digits =>
            match decimalInt digits with
            | some n => Value.ofInt n l.widthOr32
            | none => Value.x l.widthOr32

/-- `_expr_self_width` of a literal. -/
def selfWidth (l : Literal) : Nat :=
  match l.width, l.signed, l.value with
  | none, true, .int n => signedLiteralWidth n
  | _, _, _ => l.widthOr32

/-- The literal `_build_decimal_number` makes of the plain decimal `n`. -/
def decimal (n : Nat) : Literal :=
  ⟨.int n, none, true, false, false, .decimal n⟩

/-- The value of binary, octal or hexadecimal digits. -/
def digitsInt (k : Nat) (digits : List Digit) : Nat :=
  digits.foldl (fun n d => match d with | .num c => 2 ^ k * n + c.val | _ => n) 0

/-- The literal `_build_sized_number` makes of a based number. -/
def sized (size : Option Nat) (signed : Bool) (base : Base) (digits : List Digit) : Literal :=
  let isX := digits.any (· == .x)
  let isZ := digits.any (fun d => d == .z || d == .question)
  let value :=
    if isX || isZ then LiteralValue.text digits
    else match base with
      | .bin => .int (digitsInt 1 digits)
      | .oct => .int (digitsInt 3 digits)
      | .hex => .int (digitsInt 4 digits)
      | .dec => .text digits
  ⟨value, size, signed, isX, isZ, .based size signed base digits⟩

end Literal

end Veriforge

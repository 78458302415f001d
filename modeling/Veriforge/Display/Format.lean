import Veriforge.Text
import Veriforge.Value.Basic

/-! # The printed form of values

`sim/display_format.py` and `_apply_format` of `sim/executor.py`: a format string is read from left to right,
and its specifiers take the arguments one after another. -/

namespace Veriforge

/-- `SIGNED_FLAG` -/
def signedFlag : Char := '\x1d'

/-- `REAL_FLAG` -/
def realFlag : Char := '\x1e'

/-- `REAL_ALT_FLAG` -/
def realAltFlag : Char := '\x1f'

/-- `CONSUMING` -/
def consuming : List Char := ['d', 'h', 'x', 'o', 'b', 'c', 's', 't', 'e', 'f', 'g']

/-! ## Values -/

/-- `str` of an integer -/
def intText : Int → Line
  | .ofNat n => Nat.toDigits 10 n
  | .negSucc n => '-' :: Nat.toDigits 10 (n + 1)

/-- `rjust` -/
def rjust (n : Nat) (c : Char) (s : Line) : Line := List.replicate (n - s.length) c ++ s

/-- `decimal_width` -/
def decimalWidth (width : Nat) (signed : Bool) : Nat :=
  if width ≤ 1 then 1
  else if signed then (intText (-(2 ^ (width - 1) : Nat))).length
  else (Nat.toDigits 10 (2 ^ width - 1)).length

/-- `_RADIX_BITS` -/
def radixBits : Char → Nat
  | 'o' => 3
  | 'b' => 1
  | _ => 4

/-- One digit of the text in a base: `x` where all its bits are unknown, `X` where some are. -/
def radixDigit (v : Value) (width bits d : Nat) : Char :=
  let group := maskForWidth (min bits (width - d * bits))
  let m := (v.mask >>> (d * bits)) &&& group
  if m = 0 then ((v.val >>> (d * bits)) &&& group).digitChar else if m = group then 'x' else 'X'

/-- `format_value` -/
def formatValue (v : Value) (spec : Char) (fieldWidth : Nat) (zeroPad signed : Bool) : Line :=
  let width := max v.width 1
  let full := maskForWidth width
  let mask := v.mask &&& full
  let val := v.val &&& full
  if spec = 'd' then
    let s : Line :=
      if mask ≠ 0 then (if mask = full then ['x'] else ['X'])
      else intText (if signed && val >>> (width - 1) != 0 then (val : Int) - 2 ^ width else val)
    if fieldWidth ≠ 0 then rjust fieldWidth (if zeroPad then '0' else ' ') s
    else if zeroPad then s
    else rjust (decimalWidth width signed) ' ' s
  else
    let bits := radixBits spec
    let s := ((List.range ((width + bits - 1) / bits)).reverse).map (radixDigit v width bits)
    if fieldWidth ≠ 0 then rjust fieldWidth (if zeroPad then '0' else ' ') s
    else if zeroPad then
      if s.dropWhile (· == '0') = [] then ['0'] else s.dropWhile (· == '0')
    else s

/-- One byte of the text of a value. -/
def byteChar (v : Value) (k : Nat) : Char :=
  let b := (v.val >>> (8 * k)) &&& 0xff
  if b = 0 ∨ (v.mask >>> (8 * k)) &&& 0xff ≠ 0 then ' ' else Char.ofNat b

/-- `format_string` -/
def formatString (v : Value) (fieldWidth : Nat) (sized : Bool) : Line :=
  let text := ((List.range ((max v.width 1 + 7) / 8)).reverse).map (byteChar v)
  if sized then rjust fieldWidth ' ' (text.dropWhile (· == ' ')) else text

/-- `left_justify` -/
def leftJustify (text : Line) : Line :=
  let content := text.dropWhile (· == ' ')
  content ++ List.replicate (text.length - content.length) ' '

/-! ## Specifiers -/

/-- What is read behind a `%`. -/
structure Specifier where
  signed : Bool
  real : Nat
  left : Bool
  zeroPad : Bool
  width : Nat
  precision : Option Nat
  spec : Char

/-- A flag at the start of a text: whether it is there, and what follows it. -/
def takeFlag (c : Char) : Line → Bool × Line
  | [] => (false, [])
  | d :: s => if d = c then (true, s) else (false, d :: s)

/-- `{REAL_FLAG: 1, REAL_ALT_FLAG: 2}.get` -/
def takeReal : Line → Nat × Line
  | [] => (0, [])
  | d :: s => if d = realFlag then (1, s) else if d = realAltFlag then (2, s) else (0, d :: s)

/-- The number at the start of a text. -/
def takeNumber (s : Line) : Nat × Line :=
  (Nat.ofDigitChars 10 (s.takeWhile Char.isDigit) 0, s.dropWhile Char.isDigit)

/-- `.<p>` -/
def takePrecision : Line → Option Nat × Line
  | [] => (none, [])
  | d :: s => if d = '.' then (some (takeNumber s).1, (takeNumber s).2) else (none, d :: s)

/-- The specifier behind a `%`; none where the text ends inside it. -/
def readSpecifier (s : Line) : Option (Specifier × Line) :=
  let signed := takeFlag signedFlag s
  let real := takeReal signed.2
  let left := takeFlag '-' real.2
  let zero := takeFlag '0' left.2
  let width := takeNumber zero.2
  let precision := takePrecision width.2
  match precision.2 with
  | [] => none
  | c :: rest =>
      -- `%-05d` pads with spaces
      some (⟨signed.1, real.1, left.1, zero.1 && !(left.1 && width.1 != 0), width.1, precision.1, c.toLower⟩, rest)

section

/-! ## `_apply_format`

A real is printed by the host's floating point. -/

variable (formatReal : Value → Char → Nat → Option Nat → Bool → Bool → Nat → Line) (time : Nat)

/-- What a specifier prints of an argument. -/
def formatArgument (sp : Specifier) (v : Value) : Line :=
  if sp.spec ∈ ['d', 'h', 'x', 'o', 'b'] then formatValue v sp.spec sp.width sp.zeroPad sp.signed
  else if sp.spec ∈ ['e', 'f', 'g'] then
    formatReal v sp.spec sp.width sp.precision sp.zeroPad sp.signed sp.real
  else if sp.spec = 'c' then [if v.mask = 0 then Char.ofNat (v.val &&& 0xff) else '?']
  else formatString v sp.width (sp.width != 0 || sp.zeroPad)

/-- `%t`: the argument as a time, or the current one. -/
def formatTime (sp : Specifier) (v : Option Value) : Line :=
  rjust (if sp.width ≠ 0 ∨ sp.zeroPad = true then sp.width else 20) ' '
    (match v with
    | some v => if v.mask = 0 then Nat.toDigits 10 v.val else ['x']
    | none => Nat.toDigits 10 time)

/-- The text of a specifier before it is justified, and the arguments it leaves. -/
def printField (sp : Specifier) (args : List Value) : Line × List Value :=
  if sp.spec = '%' then (['%'], args)
  else if sp.spec = 't' then (formatTime time sp args.head?, args.tail)
  else if sp.spec = 'm' then ("<module>".toList, args)
  else
    match args.head? with
    | some v =>
        if sp.spec ∈ consuming then (formatArgument formatReal sp v, args.tail)
        else (['%', sp.spec], args)
    | none => (['%', sp.spec], args)

/-- The text of a specifier. A field of `%-` is justified once it is printed, before the next character is
read. -/
def printSpecifier (sp : Specifier) (args : List Value) : Line × List Value :=
  let field := printField formatReal time sp args
  (if sp.left then leftJustify field.1 else field.1, field.2)

/-- The text of an escaped character. -/
def escapeText (esc : Char) : Line :=
  if esc = 'n' then ['\n'] else if esc = 't' then ['\t'] else if esc = '\\' then ['\\'] else ['\\', esc]

/-- The loop of `_apply_format`: the text, and the arguments that are left. -/
def formatLoop : Nat → Line → List Value → Line × List Value
  | 0, _, args => ([], args)
  | _ + 1, [], args => ([], args)
  | n + 1, c :: s, args =>
      if c = '%' then
        match readSpecifier s with
        | none => ([], args)
        | some (sp, rest) =>
            let field := printSpecifier formatReal time sp args
            let after := formatLoop n rest field.2
            (field.1 ++ after.1, after.2)
      else if c = '\\' then
        match s.head? with
        | none => ([], args)
        | some esc =>
            let after := formatLoop n s.tail args
            (escapeText esc ++ after.1, after.2)
      else
        let after := formatLoop n s args
        (c :: after.1, after.2)

/-- `_apply_format` -/
def applyFormat (fmt : Line) (args : List Value) : Line := (formatLoop formatReal time fmt.length fmt args).1

end

end Veriforge

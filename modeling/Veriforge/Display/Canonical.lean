import Veriforge.Display.Format

/-! # Display calls in canonical form

`_canonical` of `sim/display_format.py` puts the arguments of a display call into one format string and the
data that its specifiers take. -/

namespace Veriforge

/-- An argument of a display call. -/
inductive DisplayArg (E : Type)
  /-- `StringLiteral` -/
  | string (value : Line)
  /-- A marked real: the call `$__vf_rdisp` with its argument. -/
  | real (inner : E)
  | expr (e : E)

section

variable {E : Type} (rounded : E → E) (signedOf : DisplayArg E → Bool)

/-- `fmt[k].isdigit() or fmt[k] in ".-"` -/
def isSizing (c : Char) : Bool := c.isDigit || c == '.' || c == '-'

/-- What is scanned behind a `%`: the text up to the specifier's letter, the letter, and the rest. -/
def scanSpecifier (s : Line) : Option (Line × Char × Line) :=
  let flag : Line := if (takeFlag signedFlag s).1 then [signedFlag] else []
  let s := (takeFlag signedFlag s).2
  match s.dropWhile isSizing with
  | [] => none
  | spec :: rest => some (flag ++ s.takeWhile isSizing, spec, rest)

/-- The piece for a specifier with the argument it consumes. -/
def consumedPiece (body : Line) (spec : Char) : DisplayArg E → Line × DisplayArg E
  | .real inner =>
      let plain := (body ++ [spec]).filter (· != signedFlag)
      if spec.toLower ∈ ['e', 'f', 'g'] then ('%' :: realFlag :: plain, .expr inner)
      else
        let flag : Line := if spec.toLower = 'd' then [signedFlag] else []
        let sized := plain.dropLast.any Char.isDigit || spec.toLower ∉ ['d', 'h', 'x', 'o', 'b']
        ('%' :: (flag ++ (if sized then plain else '0' :: plain)), .expr (rounded inner))
  | arg =>
      if spec.toLower ∈ ['d', 'e', 'f', 'g'] ∧ signedFlag ∉ body ++ [spec] ∧ signedOf arg = true then
        ('%' :: signedFlag :: (body ++ [spec]), arg)
      else ('%' :: (body ++ [spec]), arg)

/-- The loop over one format string: its text, the data it consumes, and the arguments that are left. -/
def canonicalString : Nat → Line → List (DisplayArg E) → Line × List (DisplayArg E) × List (DisplayArg E)
  | 0, _, args => ([], [], args)
  | _ + 1, [], args => ([], [], args)
  | n + 1, c :: s, args =>
      if c = '\\' ∧ s ≠ [] then
        let after := canonicalString n s.tail args
        (c :: (s.take 1 ++ after.1), after.2)
      else if c ≠ '%' then
        let after := canonicalString n s args
        (c :: after.1, after.2)
      else
        match scanSpecifier s with
        | none => (c :: s, [], args)
        | some (body, spec, rest) =>
            match args.head? with
            | some arg =>
                if spec.toLower ∈ consuming then
                  let piece := consumedPiece rounded signedOf body spec arg
                  let after := canonicalString n rest args.tail
                  (piece.1 ++ after.1, piece.2 :: after.2.1, after.2.2)
                else
                  let after := canonicalString n rest args
                  (c :: (body ++ [spec]) ++ after.1, after.2)
            | none =>
                let after := canonicalString n rest args
                (c :: (body ++ [spec]) ++ after.1, after.2)

/-- The loop over the arguments. -/
def canonicalLoop (defaultSpec : Char) : Nat → List (DisplayArg E) → Line × List (DisplayArg E)
  | 0, _ => ([], [])
  | _ + 1, [] => ([], [])
  | n + 1, .string fmt :: args =>
      let one := canonicalString rounded signedOf fmt.length fmt args
      let after := canonicalLoop defaultSpec n one.2.2
      (one.1 ++ after.1, one.2.1 ++ after.2)
  | n + 1, .real inner :: args =>
      let after := canonicalLoop defaultSpec n args
      if defaultSpec = 'd' then ('%' :: realAltFlag :: 'g' :: after.1, .expr inner :: after.2)
      else ('%' :: '0' :: defaultSpec :: after.1, .expr (rounded inner) :: after.2)
  | n + 1, .expr e :: args =>
      let after := canonicalLoop defaultSpec n args
      let flag : Line := if defaultSpec = 'd' ∧ signedOf (.expr e) = true then [signedFlag] else []
      ('%' :: (flag ++ defaultSpec :: after.1), .expr e :: after.2)

/-- `_canonical` -/
def canonical (args : List (DisplayArg E)) (defaultSpec : Char) : Line × List (DisplayArg E) :=
  canonicalLoop rounded signedOf defaultSpec args.length args

end

end Veriforge

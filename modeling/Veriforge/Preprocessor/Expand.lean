import Veriforge.Preprocessor.Process
import Veriforge.Scan

/-! # Macro expansion

`_expand_macros` of `preprocessor.py`: a pass over a line puts the text of a macro in the place of each use, and
passes are repeated while they change the line. How a call of a macro with parameters is expanded is a parameter of
the pass. -/

namespace Veriforge

/-- The pattern of a text itself. -/
def Pattern.literal (p : Line) (hp : p ≠ []) : Pattern where
  find s := if p.isPrefixOf s then some p else none
  ne_nil {s m} h := by
    by_cases hs : p.isPrefixOf s = true
    · rw [if_pos hs] at h
      cases h
      exact hp
    · rw [if_neg hs] at h
      cases h
  isPrefix {s m} h := by
    by_cases hs : p.isPrefixOf s = true
    · rw [if_pos hs] at h
      cases h
      exact List.isPrefixOf_iff_prefix.mp hs
    · rw [if_neg hs] at h
      cases h

/-- `str.replace` -/
def replaceAll (p a s : Line) : Line :=
  if hp : p = [] then a ++ s.flatMap fun c => c :: a else (Pattern.literal p hp).sub (fun _ => a) s

namespace Preprocessor

/-! ## Arguments -/

/-- `_parse_macro_args` behind the opening parenthesis: the arguments and the text behind the closing one. -/
def parseArgs (inString : Bool) (prev : Char) (depth braces brackets : Nat) (current : Line) : Line → List Line × Line
  | [] => ([strip current], [])
  | c :: cs =>
      if c = '"' ∧ prev ≠ '\\' then parseArgs (!inString) c depth braces brackets (current ++ [c]) cs
      else if inString then parseArgs inString c depth braces brackets (current ++ [c]) cs
      else if c = '(' then parseArgs inString c (depth + 1) braces brackets (current ++ [c]) cs
      else if c = ')' ∧ 0 < depth then parseArgs inString c (depth - 1) braces brackets (current ++ [c]) cs
      else if c = ')' ∧ depth = 0 ∧ braces = 0 ∧ brackets = 0 then ([strip current], cs)
      else if c = '{' then parseArgs inString c depth (braces + 1) brackets (current ++ [c]) cs
      else if c = '}' then parseArgs inString c depth (braces - 1) brackets (current ++ [c]) cs
      else if c = '[' then parseArgs inString c depth braces (brackets + 1) (current ++ [c]) cs
      else if c = ']' then parseArgs inString c depth braces (brackets - 1) (current ++ [c]) cs
      else if c = ',' ∧ depth = 0 ∧ braces = 0 ∧ brackets = 0 then
        let after := parseArgs inString c depth braces brackets [] cs
        (strip current :: after.1, after.2)
      else parseArgs inString c depth braces brackets (current ++ [c]) cs

/-- `_parse_macro_args` -/
def parseMacroArgs (inner : Line) : List Line × Line := parseArgs false '(' 0 0 0 [] inner

/-- The loop that puts the arguments into the text of a macro. -/
def replaceParams (params args : List Line) (body : Line) : Line :=
  (params.zip args).foldl (fun text pa => replaceAll pa.1 pa.2 text) body

/-- The expansion of a call from its opening parenthesis on. -/
def expandCall (params : List Line) (body inner : Line) : Option (Line × Line) :=
  some (replaceParams params (parseMacroArgs inner).1 body, (parseMacroArgs inner).2)

/-! ## A pass -/

/-- A piece of a line and what a pass makes of it: text that is kept, the use of a macro without parameters, or a
call. -/
inductive MacroPiece
  | text (s : Line)
  | object (body : Line)
  | call (params : List Line) (body inner out : Line)
  deriving DecidableEq

/-- What the pass writes. -/
def MacroPiece.out : MacroPiece → Line
  | text s => s
  | object body => body
  | call _ _ _ out => out

/-- A character that a name begins with. -/
def startsName (s : Line) : Bool := s.head?.any fun c => c.isAlpha || c == '_'

section

variable (call : List Line → Line → Line → Option (Line × Line)) (D : Defines)

/-- One round of the loop of `_expand_macros_once`: the piece at a character, and the text behind it. -/
def macroStep (c : Char) (s : Line) : MacroPiece × Line :=
  if c = '`' ∧ startsName s = true then
    let name := s.takeWhile isWord
    let rest := s.dropWhile isWord
    if (keywords.lookup name).isSome then (.text (c :: name), rest)
    else
      match D name with
      | none => (.text (c :: name), rest)
      | some ⟨none, body⟩ => (.object body, rest)
      | some ⟨some params, body⟩ =>
          -- without arguments the use is left as it is
          if rest.head? = some '(' then
            match call params body rest.tail with
            | some (out, after) => (.call params body rest.tail out, after)
            | none => (.call params body rest.tail (c :: name), rest)
          else (.text (c :: name), rest)
  else (.text [c], s)

/-- The pieces of a line. -/
def macroPieces : Nat → Line → List MacroPiece
  | 0, _ => []
  | _ + 1, [] => []
  | n + 1, c :: s => (macroStep call D c s).1 :: macroPieces n (macroStep call D c s).2

/-- One pass. -/
def expandPass (line : Line) : Line := (macroPieces call D line.length line).flatMap MacroPiece.out

end

/-- `_expand_macros_once` -/
def expandMacrosOnce (D : Defines) (line : Line) : Line := expandPass expandCall D line

/-- The loop of `_expand_macros` -/
def expandLoop (D : Defines) : Nat → Line → Line
  | 0, line => line
  | n + 1, line =>
      if expandMacrosOnce D line = line then line else expandLoop D n (expandMacrosOnce D line)

/-- `_expand_macros` -/
def expandMacros (D : Defines) (line : Line) : Line := if '`' ∉ line then line else expandLoop D 64 line

end Preprocessor

end Veriforge

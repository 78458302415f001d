import Mathlib.Logic.Function.Basic
import Veriforge.Text

/-! # The line loop of the preprocessor

`_process_source` of `preprocessor.py` on the lines of an ASCII source. What a macro expands to and what an
`` `include `` brings in are parameters; every run that raises returns the error. -/

namespace Veriforge.Preprocessor

/-! ## Directives -/

/-- The directives `_process_source` tells apart. -/
inductive Keyword
  | endif | else | elsif | ifdef | ifndef | define | undef | include
  /-- `timescale` and the like, which are blanked. -/
  | stripped
  deriving DecidableEq

/-- `_HANDLED_DIRECTIVES`. -/
def keywords : List (Line × Keyword) :=
  [("define".toList, .define), ("undef".toList, .undef), ("ifdef".toList, .ifdef),
    ("ifndef".toList, .ifndef), ("else".toList, .else), ("elsif".toList, .elsif),
    ("endif".toList, .endif), ("include".toList, .include), ("timescale".toList, .stripped),
    ("resetall".toList, .stripped), ("default_nettype".toList, .stripped),
    ("pragma".toList, .stripped), ("line".toList, .stripped), ("celldefine".toList, .stripped),
    ("endcelldefine".toList, .stripped), ("unconnected_drive".toList, .stripped),
    ("nounconnected_drive".toList, .stripped)]

/-- `_parse_directive`: a known directive at the start of a line, and the rest of it. -/
def parseDirective (line : Line) : Option (Keyword × Line) :=
  match line.dropWhile isSpace with
  | '`' :: cs => (keywords.lookup (cs.takeWhile isWord)).map fun k => (k, cs.dropWhile isWord)
  | _ => none

/-! ## Macros -/

/-- The definition of a macro: its parameters, if it has a parameter list, and its text. -/
structure Macro where
  params : Option (List Line)
  text : Line

/-- `ctx.defines`. -/
abbrev Defines := Line → Option Macro

/-- `macro_name in ctx.defines`. -/
def Defines.has (D : Defines) (name : Line) : Bool := (D name).isSome

/-- The errors `_process_source` raises. -/
inductive PreprocessorError
  | endifWithoutIfdef | elseWithoutIfdef | duplicateElse | elsifWithoutIfdef | elsifAfterElse
  | missingName (keyword : Keyword)
  | invalidDefine
  | include
  | unterminated
  deriving DecidableEq

/-- `_strip_define_comment`, with the character before and whether a string is open. -/
def stripDefineComment (inString : Bool) (prev : Option Char) : Line → Line
  | [] => []
  | c :: cs =>
      if c = '"' ∧ prev ≠ some '\\' then c :: stripDefineComment (!inString) (some c) cs
      else if inString = false ∧ c = '/' ∧ cs.head? = some '/' then []
      else c :: stripDefineComment inString (some c) cs

/-- `value.replace("\\\n", " ")` -/
def joinContinuations : Line → Line
  | [] => []
  | [c] => [c]
  | '\\' :: '\n' :: cs => ' ' :: joinContinuations cs
  | c :: c' :: cs => c :: joinContinuations (c' :: cs)

/-- The text of a macro, as `_handle_define` stores it. -/
def macroText (value : Line) : Line :=
  let value := strip (joinContinuations value)
  let stripped := stripDefineComment false none value
  if stripped.length = value.length then value else rstrip stripped

/-- The names in a parameter list. -/
def paramNames (list : Line) : List Line :=
  ((list.splitOn ',').map strip).filter (· ≠ [])

/-- The parameter list and the value that follow the name in `_DEFINE_RE`. -/
def defineTail (rest : Line) : Option (Option Line × Line) :=
  let (params, rest) := match rest with
    | '(' :: inner =>
        if ')' ∈ inner then
          (some (inner.takeWhile (· ≠ ')')), (inner.dropWhile (· ≠ ')')).tail)
        else (none, rest)
    | _ => (none, rest)
  match rest with
  | [] => some (params, [])
  | c :: cs => if isSpace c then some (params, cs.dropWhile isSpace) else none

/-- The macro that `_handle_define` stores. -/
def macroOf (params : Option Line) (value : Line) : Macro := ⟨params.map paramNames, macroText value⟩

/-- `_handle_define`. -/
def handleDefine (args : Line) (D : Defines) : Except PreprocessorError Defines :=
  let cs := args.dropWhile isSpace
  if cs.takeWhile isWord = [] then .error .invalidDefine
  else
    match defineTail (cs.dropWhile isWord) with
    | none => .error .invalidDefine
    | some (params, value) =>
        .ok (Function.update D (cs.takeWhile isWord) (some (macroOf params value)))

/-- `_has_unbalanced_macro_parens` from an opening parenthesis on: it is not closed on the line. -/
def leavesOpen (inString : Bool) (prev : Char) (depth : Nat) : Line → Bool
  | [] => 0 < depth
  | c :: cs =>
      if c = '"' ∧ prev ≠ '\\' then leavesOpen (!inString) c depth cs
      else if inString = false ∧ c = '(' then leavesOpen inString c (depth + 1) cs
      else if inString = false ∧ c = ')' then
        if depth = 1 then false else leavesOpen inString c (depth - 1) cs
      else leavesOpen inString c depth cs

/-- `_has_unbalanced_macro_parens`: a macro call on the line is not closed. -/
def unbalanced : Line → Bool
  | [] => false
  | c :: cs =>
      (c == '`' && (cs.head?.any fun c => c.isAlpha || c == '_') && match cs.dropWhile isWord with
        | '(' :: rest => leavesOpen false '(' 1 rest
        | _ => false) || unbalanced cs

/-! ## Lines that belong together -/

/-- The line ends in a backslash. -/
def continues (line : Line) : Bool := (rstrip line).getLast? == some '\\'

/-- A line and those it continues on, and the lines left. -/
def joinContinued (line : Line) : List Line → Line × List Line
  | [] => (line, [])
  | next :: rest =>
      if continues line then joinContinued ((rstrip line).dropLast ++ '\n' :: next) rest
      else (line, next :: rest)

theorem length_joinContinued (line : Line) (rest : List Line) : (joinContinued line rest).2.length ≤ rest.length := by
  induction rest generalizing line with
  | nil => exact le_rfl
  | cons next rest ih =>
    rw [joinContinued]
    split
    · exact (ih _).trans (Nat.le_succ _)
    · exact le_rfl

/-- `_join_multiline_macro`: a line and those its macro calls go on to, how many, and the lines left. -/
def joinMacro (line : Line) : List Line → Line × Nat × List Line
  | [] => (line, 0, [])
  | next :: rest =>
      if unbalanced line then
        let (joined, extra, rest) := joinMacro (line ++ '\n' :: next) rest
        (joined, extra + 1, rest)
      else (line, 0, next :: rest)

theorem length_joinMacro (line : Line) (rest : List Line) : (joinMacro line rest).2.2.length ≤ rest.length := by
  induction rest generalizing line with
  | nil => exact le_rfl
  | cons next rest ih =>
    rw [joinMacro]
    split
    · exact (ih _).trans (Nat.le_succ _)
    · exact le_rfl

/-! ## The loop -/

/-- A level of the stack of conditionals. -/
structure Level where
  active : Bool
  seenTrue : Bool
  inElse : Bool
  deriving DecidableEq

/-- `_all_active`. -/
def allActive (stack : List Level) : Bool := stack.all (·.active)

/-- What is not modelled of the preprocessor. -/
structure Context where
  /-- `_expand_macros` -/
  expand : Defines → Line → Line
  /-- `_handle_include`: the lines brought in and the definitions after them. -/
  handleInclude : Line → Defines → Except PreprocessorError (List Line × Defines)

/-- What a directive does to the stack, the top level first, and to the definitions; and the lines it is
replaced by. -/
def runDirective (ctx : Context) (k : Keyword) (args : Line) (stack : List Level) (D : Defines) :
    Except PreprocessorError (List Level × Defines × List Line) :=
  match k with
  | .endif =>
      match stack with
      | [] => .error .endifWithoutIfdef
      | _ :: levels => .ok (levels, D, [[]])
  | .else =>
      match stack with
      | [] => .error .elseWithoutIfdef
      | top :: levels =>
          if top.inElse then .error .duplicateElse
          else
            let newActive := allActive levels && !top.seenTrue
            .ok (⟨newActive, top.seenTrue || newActive, true⟩ :: levels, D, [[]])
  | .elsif =>
      match stack with
      | [] => .error .elsifWithoutIfdef
      | top :: levels =>
          if top.inElse then .error .elsifAfterElse
          else if strip args = [] then .error (.missingName .elsif)
          else
            let newActive := allActive levels && !top.seenTrue && D.has (strip args)
            .ok (⟨newActive, top.seenTrue || newActive, false⟩ :: levels, D, [[]])
  | .ifdef =>
      if strip args = [] then .error (.missingName .ifdef)
      else
        let active := allActive stack && D.has (strip args)
        .ok (⟨active, active, false⟩ :: stack, D, [[]])
  | .ifndef =>
      if strip args = [] then .error (.missingName .ifndef)
      else
        let active := allActive stack && !D.has (strip args)
        .ok (⟨active, active, false⟩ :: stack, D, [[]])
  | .define =>
      if !allActive stack then .ok (stack, D, [[]])
      else (handleDefine args D).map fun D => (stack, D, [[]])
  | .undef =>
      if !allActive stack then .ok (stack, D, [[]])
      else if strip args = [] then .error (.missingName .undef)
      else .ok (stack, Function.update D (strip args) none, [[]])
  | .include =>
      if !allActive stack then .ok (stack, D, [[]])
      else (ctx.handleInclude args D).map fun r => (stack, r.2, r.1)
  | .stripped => .ok (stack, D, [[]])

/-- `_process_source` from a stack and definitions on: the lines of the output and the definitions left. -/
def processLines (ctx : Context) (stack : List Level) (D : Defines) :
    List Line → Except PreprocessorError (List Line × Defines)
  | [] => if stack = [] then .ok ([], D) else .error .unterminated
  | line :: lines =>
      let joined := joinContinued line lines
      match parseDirective joined.1 with
      | some (k, args) => do
          let (stack, D, out) ← runDirective ctx k args stack D
          let (rest, D) ← processLines ctx stack D joined.2
          return (out ++ rest, D)
      | none =>
          if allActive stack then
            let call := joinMacro joined.1 joined.2
            do
              let (rest, D') ← processLines ctx stack D call.2.2
              return (List.replicate call.2.1 [] ++ ctx.expand D call.1 :: rest, D')
          else do
            let (rest, D) ← processLines ctx stack D joined.2
            return ([] :: rest, D)
termination_by lines => lines.length
decreasing_by
  all_goals
    have hc := length_joinContinued line lines
    simp only [List.length_cons]
    first
      | omega
      | exact Nat.lt_succ_of_le ((length_joinMacro _ _).trans hc)

/-- `_process_source`. -/
def processSource (ctx : Context) (D : Defines) (lines : List Line) :
    Except PreprocessorError (List Line × Defines) :=
  processLines ctx [] D lines

end Veriforge.Preprocessor

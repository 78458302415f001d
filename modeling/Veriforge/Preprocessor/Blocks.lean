import Veriforge.Preprocessor.Process

/-! # Conditional compilation as a tree

A source whose conditionals are well nested is a tree: between an `` `ifdef `` and its `` `endif `` lie the
branches, each with a source of its own. On the tree it is plain which lines are selected. The line loop of
the preprocessor, with its stack, selects the same ones, and it raises on every other source. -/

namespace Veriforge.Preprocessor

/-! ## Source lines -/

/-- The name a directive is given, with the white space around it and what follows on the line. -/
structure Named where
  indent : Line
  gap : Line
  name : Line
  trailing : Line

/-- A directive without a name. -/
structure Bare where
  indent : Line
  trailing : Line

/-- A line that opens or closes no conditional. -/
inductive Plain
  /-- A text, and the lines its open macro calls go on to. -/
  | text (text : Line) (more : List Line)
  | define (head : Named)
  | undef (head : Named)

/-- A line of the source. -/
inductive SrcLine
  | plain (line : Plain)
  | ifdef (negated : Bool) (head : Named)
  | elsif (head : Named)
  | else (head : Bare)
  | endif (head : Bare)

/-- The spelling of a directive that is given a name. -/
def Named.render (keyword : Line) (h : Named) : Line :=
  h.indent ++ '`' :: (keyword ++ (h.gap ++ (h.name ++ h.trailing)))

/-- The spelling of a directive without one. -/
def Bare.render (keyword : Line) (h : Bare) : Line := h.indent ++ '`' :: (keyword ++ h.trailing)

/-- The text of a line. -/
def SrcLine.render : SrcLine → Line
  | .plain (.text t _) => t
  | .plain (.define h) => h.render "define".toList
  | .plain (.undef h) => h.render "undef".toList
  | .ifdef false h => h.render "ifdef".toList
  | .ifdef true h => h.render "ifndef".toList
  | .elsif h => h.render "elsif".toList
  | .else h => h.render "else".toList
  | .endif h => h.render "endif".toList

/-- A character an identifier can go on with. -/
def isNameChar (c : Char) : Bool := isWord c || c == '$'

/-- An identifier. -/
def isName : Line → Bool
  | [] => false
  | c :: cs => (c.isAlpha || c == '_') && cs.all isNameChar

/-- The layout of a directive and its name. -/
structure Named.Valid (h : Named) : Prop where
  indent : h.indent.all isSpace = true
  gap : h.gap.all isSpace = true
  gap_ne : h.gap ≠ []
  name : isName h.name = true
  trailing : ∀ c ∈ h.trailing.head?, isNameChar c = false

/-- The layout of a directive without a name: the keyword ends where it should. -/
structure Bare.Valid (h : Bare) : Prop where
  indent : h.indent.all isSpace = true
  trailing : ∀ c ∈ h.trailing.head?, isWord c = false

/-- The line is what its constructor says; the lines a macro call goes on to are texts. -/
def SrcLine.Valid : SrcLine → Prop
  | .plain (.text t more) =>
      parseDirective t = none ∧ ∀ m ∈ more, parseDirective m = none ∧ continues m = false
  | .plain (.define h) | .plain (.undef h) | .ifdef _ h | .elsif h => h.Valid
  | .else h | .endif h => h.Valid

/-- A text and the lines it goes on to. -/
def joinText (text : Line) : List Line → Line
  | [] => text
  | m :: more => joinText (text ++ '\n' :: m) more

/-- Of the lines after it, the line takes those before `rest`. -/
def SrcLine.GoesOn : SrcLine → List Line → List Line → Prop
  | .plain (.text t more), lines, rest =>
      lines = more ++ rest ∧ joinMacro t lines = (joinText t more, more.length, rest)
  | _, lines, rest => lines = rest

/-- The lines of a file are those of a source, each with the lines it is continued on. -/
inductive Written : List Line → List SrcLine → Prop
  | nil : Written [] []
  | cons {line lines lines' rest} {l : SrcLine} {ls : List SrcLine} : l.Valid →
      joinContinued line lines = (l.render, lines') → l.GoesOn lines' rest → Written rest ls →
      Written (line :: lines) (l :: ls)

/-! ## Trees -/

mutual

/-- A source with well nested conditionals. -/
inductive Source
  | nil
  | line (line : Plain) (rest : Source)
  | cond (negated : Bool) (head : Named) (body : Source) (tail : Tail) (rest : Source)

/-- The rest of a conditional after a branch. -/
inductive Tail
  | endif (head : Bare)
  | else (head : Bare) (body : Source) (close : Bare)
  | elsif (head : Named) (body : Source) (tail : Tail)

end

mutual

/-- The lines of a source. -/
def Source.lines : Source → List SrcLine
  | .nil => []
  | .line l rest => .plain l :: rest.lines
  | .cond negated head body tail rest =>
      .ifdef negated head :: (body.lines ++ (tail.lines ++ rest.lines))

/-- The lines of the rest of a conditional. -/
def Tail.lines : Tail → List SrcLine
  | .endif head => [.endif head]
  | .else head body close => .else head :: (body.lines ++ [.endif close])
  | .elsif head body tail => .elsif head :: (body.lines ++ tail.lines)

end

/-! ## Which lines are selected -/

/-- The macro a definition stores; a comment right after the name makes it empty. -/
def Named.macro (h : Named) : Macro :=
  match defineTail h.trailing with
  | some (params, value) => macroOf params value
  | none => macroOf none []

/-- A line that is selected, or not: the lines put in its place, and the definitions after it. -/
def Plain.select (ctx : Context) (selected : Bool) (D : Defines) : Plain → List Line × Defines
  | .text t more =>
      (List.replicate more.length [] ++ [if selected then ctx.expand D (joinText t more) else []], D)
  | .define h => ([[]], if selected then Function.update D h.name (some h.macro) else D)
  | .undef h => ([[]], if selected then Function.update D h.name none else D)

mutual

/-- The lines put in place of those of a source, and the definitions after it. A line is selected if it lies,
in every conditional around it, in the first branch whose condition holds. -/
def Source.select (ctx : Context) (selected : Bool) (D : Defines) : Source → List Line × Defines
  | .nil => ([], D)
  | .line l rest =>
      let (out, D) := l.select ctx selected D
      let (outs, D) := rest.select ctx selected D
      (out ++ outs, D)
  | .cond negated head body tail rest =>
      let taken := selected && (D.has head.name != negated)
      let (outs, D) := body.select ctx taken D
      let (outs', D) := tail.select ctx selected taken D
      let (outs'', D) := rest.select ctx selected D
      ([] :: (outs ++ (outs' ++ outs'')), D)

/-- The same for the rest of a conditional, one of whose branches may have been taken. -/
def Tail.select (ctx : Context) (selected seen : Bool) (D : Defines) : Tail → List Line × Defines
  | .endif _ => ([[]], D)
  | .else _ body _ =>
      let (outs, D) := body.select ctx (selected && !seen) D
      ([] :: (outs ++ [[]]), D)
  | .elsif head body tail =>
      let taken := selected && !seen && D.has head.name
      let (outs, D) := body.select ctx taken D
      let (outs', D) := tail.select ctx selected (seen || taken) D
      ([] :: (outs ++ outs'), D)

end

/-! ## Names the preprocessor takes as they are -/

/-- The rest of the line, a comment included, is defined just if the name is. -/
def Named.SameMacro (h : Named) (D : Defines) : Prop :=
  D.has (strip (h.name ++ h.trailing)) = D.has h.name

/-- A selected definition has a name of `\w` characters that ends where `_DEFINE_RE` looks for the end, and a
selected `` `undef `` removes its macro. -/
def Plain.Careful (selected : Bool) (D : Defines) : Plain → Prop
  | .text _ _ => True
  | .define h => selected = true → h.name.all isWord = true ∧ (defineTail h.trailing).isSome = true
  | .undef h => selected = true →
      Function.update D (strip (h.name ++ h.trailing)) none = Function.update D h.name none

mutual

/-- Every condition that is evaluated, and every definition that takes effect, is read as it is meant. -/
def Source.Careful (ctx : Context) (selected : Bool) (D : Defines) : Source → Prop
  | .nil => True
  | .line l rest => l.Careful selected D ∧ rest.Careful ctx selected (l.select ctx selected D).2
  | .cond negated head body tail rest =>
      let taken := selected && (D.has head.name != negated)
      (selected = true → head.SameMacro D) ∧ body.Careful ctx taken D ∧
        tail.Careful ctx selected taken (body.select ctx taken D).2 ∧
        rest.Careful ctx selected (tail.select ctx selected taken (body.select ctx taken D).2).2

/-- The same for the rest of a conditional. -/
def Tail.Careful (ctx : Context) (selected seen : Bool) (D : Defines) : Tail → Prop
  | .endif _ => True
  | .else _ body _ => body.Careful ctx (selected && !seen) D
  | .elsif head body tail =>
      let taken := selected && !seen && D.has head.name
      ((selected && !seen) = true → head.SameMacro D) ∧ body.Careful ctx taken D ∧
        tail.Careful ctx selected (seen || taken) (body.select ctx taken D).2

end

end Veriforge.Preprocessor

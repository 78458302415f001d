import Mathlib.Logic.Function.Basic
import Veriforge.Text

/-! # Reading value change dumps

`parse_vcd` of `sim/vcd_compare.py`. A regular expression of the source goes through the words of a line, so
it is a match on them here. -/

namespace Veriforge.Vcd

/-- `VcdSignal` -/
structure VcdSignal where
  name : Line
  width : Nat
  ident : Line
  scope : Line

/-- `VcdData`: the signals by identifier, the changes by name. -/
structure VcdData where
  signals : Line → Option VcdSignal
  changes : Line → List (Nat × Line)
  timescale : Line

/-- `values_at`: the loop over the changes stops at the first later one. -/
def lastUpTo (time : Nat) : List (Nat × Line) → Option Line
  | [] => none
  | (t, value) :: rest => if t ≤ time then (lastUpTo time rest).or (some value) else none

/-- `VcdData.values_at` -/
def VcdData.valuesAt (data : VcdData) (name : Line) (time : Nat) : Option Line :=
  lastUpTo time (data.changes name)

/-- The variables of the loop of `parse_vcd`. -/
structure ParserState where
  data : VcdData
  scope : List Line
  time : Nat

/-- Before the first line. -/
def ParserState.init : ParserState := ⟨⟨fun _ => none, fun _ => [], "1ns".toList⟩, [], 0⟩

/-- `"$end" in line` -/
def hasEnd (line : Line) : Bool := line.tails.any ("$end".toList.isPrefixOf ·)

/-- `\$timescale\s+(\S+)\s+\$end` -/
def matchTimescale (line : Line) : Option Line :=
  match words line with
  | keyword :: scale :: close :: _ =>
      if keyword = "$timescale".toList ∧ "$end".toList.isPrefixOf close = true then some scale else none
  | _ => none

/-- `\$scope\s+\w+\s+(\S+)\s+\$end` -/
def matchScope (line : Line) : Option Line :=
  match words line with
  | keyword :: kind :: segment :: close :: _ =>
      if keyword = "$scope".toList ∧ kind.all isWord = true ∧ "$end".toList.isPrefixOf close = true then
        some segment
      else none
  | _ => none

/-- `\[.*?\]\s+\$end` from inside the bracket on: a word ends in `]` and the next one begins with `$end`. -/
def closesRange : List Line → Bool
  | word :: close :: rest =>
      (word.getLast? == some ']' && "$end".toList.isPrefixOf close) || closesRange (close :: rest)
  | _ => false

/-- `(?:\s+\[.*?\])?\s+\$end` -/
def closesVar (rest : List Line) : Bool :=
  match rest with
  | [] => false
  | word :: _ => "$end".toList.isPrefixOf word || (['['].isPrefixOf word && closesRange rest)

/-- `\$var\s+\w+\s+(\d+)\s+(\S+)\s+(\S+)(?:\s+\[.*?\])?\s+\$end` -/
def matchVar (line : Line) : Option (Nat × Line × Line) :=
  match words line with
  | keyword :: kind :: width :: ident :: name :: rest =>
      if keyword = "$var".toList ∧ kind.all isWord = true ∧ width.all Char.isDigit = true ∧ closesVar rest = true then
        some (Nat.ofDigitChars 10 width 0, ident, name)
      else none
  | _ => none

/-- `#(\d+)` -/
def matchTime (line : Line) : Option Nat :=
  let digits := line.tail.takeWhile Char.isDigit
  if digits = [] then none else some (Nat.ofDigitChars 10 digits 0)

/-- `[01xXzZ]` -/
def isBit (c : Char) : Bool := c ∈ ['0', '1', 'x', 'X', 'z', 'Z']

/-- The three forms of a value change: the identifier and the value. A real is spelled again by `floatRepr`,
which fails where `float` raises. -/
def matchChange (floatRepr : Line → Option Line) (line : Line) : Option (Line × Line) :=
  match words line with
  | [c :: ident] => if isBit c = true ∧ ident ≠ [] then some (ident, [c.toLower]) else none
  | [c :: text, ident] =>
      if (c = 'b' ∨ c = 'B') ∧ text ≠ [] ∧ text.all isBit = true then
        some (ident, text.map Char.toLower)
      else if (c = 'r' ∨ c = 'R') ∧ text ≠ [] then
        some (ident, 'r' :: (floatRepr text).getD (text.map Char.toLower))
      else none
  | _ => none

/-- The signal that a `$var` line declares in a scope. -/
def declared (stripHierarchy : Bool) (scope : List Line) (width : Nat) (ident name : Line) : VcdSignal :=
  let path := if scope = [] then "top".toList else ['.'].intercalate scope
  ⟨if stripHierarchy then name else path ++ '.' :: name, width, ident, path⟩

/-- A declaration. -/
def ParserState.declare (st : ParserState) (s : VcdSignal) : ParserState :=
  { st with data.signals := Function.update st.data.signals s.ident (some s) }

/-- A value change at the current time. -/
def ParserState.change (st : ParserState) (ident value : Line) : ParserState :=
  match st.data.signals ident with
  | none => st
  | some s =>
      { st with
        data.changes := Function.update st.data.changes s.name
          (st.data.changes s.name ++ [(st.time, value)]) }

/-! ## The loop -/

/-- A `$scope` line. -/
def ParserState.enter (st : ParserState) : Option Line → ParserState
  | some segment => { st with scope := st.scope ++ [segment] }
  | none => st

/-- A `$var` line. -/
def ParserState.declareVar (stripHierarchy : Bool) (st : ParserState) : Option (Nat × Line × Line) → ParserState
  | some (width, ident, name) => st.declare (declared stripHierarchy st.scope width ident name)
  | none => st

/-- A `#` line. -/
def ParserState.goTo (st : ParserState) : Option Nat → ParserState
  | some time => { st with time := time }
  | none => st

/-- A line that may be a value change. -/
def ParserState.changeAny (st : ParserState) : Option (Line × Line) → ParserState
  | some (ident, value) => st.change ident value
  | none => st

/-- A `$timescale` line: the state, and whether the rest of the section is skipped. -/
def ParserState.scale (st : ParserState) (line : Line) : Option Line → ParserState × Bool
  | some scale => ({ st with data.timescale := scale }, false)
  | none => (st, !hasEnd line)

section

variable (floatRepr : Line → Option Line) (stripHierarchy : Bool)

/-- One line, stripped: the state after it, and whether it begins a section that is skipped up to its end. -/
def ParserState.read (st : ParserState) (line : Line) : ParserState × Bool :=
  if line = [] then (st, false)
  else if "$date".toList.isPrefixOf line then (st, !hasEnd line)
  else if "$version".toList.isPrefixOf line then (st, !hasEnd line)
  else if "$timescale".toList.isPrefixOf line then st.scale line (matchTimescale line)
  else if "$scope".toList.isPrefixOf line then (st.enter (matchScope line), false)
  else if "$upscope".toList.isPrefixOf line then ({ st with scope := st.scope.dropLast }, false)
  else if "$var".toList.isPrefixOf line then (st.declareVar stripHierarchy (matchVar line), false)
  else if "$enddefinitions".toList.isPrefixOf line then (st, false)
  else if "$dumpvars".toList.isPrefixOf line then (st, false)
  else if line = "$end".toList then (st, false)
  else if ['#'].isPrefixOf line then (st.goTo (matchTime line), false)
  else (st.changeAny (matchChange floatRepr line), false)

/-- The loop of `parse_vcd`, with `_skip_section` in the same pass: the flag says whether the end of a section
is looked for. -/
def readLines : Bool → ParserState → List Line → VcdData
  | _, st, [] => st.data
  | true, st, line :: rest => readLines (!hasEnd line) st rest
  | false, st, line :: rest =>
      readLines (st.read floatRepr stripHierarchy (strip line)).2
        (st.read floatRepr stripHierarchy (strip line)).1 rest

/-- `parse_vcd` -/
def parseVcd (text : Line) : VcdData :=
  readLines floatRepr stripHierarchy false .init (text.splitOn '\n')

end

end Veriforge.Vcd

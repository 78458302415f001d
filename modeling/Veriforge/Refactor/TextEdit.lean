import Mathlib.Data.List.Sort
import Mathlib.Logic.Function.Basic
import Veriforge.Dict
import Veriforge.Positions

/-! # Text edits of the refactorings

`refactor/_refactor_utils.py`: the edit plans of a preview, and how they are written to the source files. The
model is the POSIX one, where `write_text` leaves the line endings alone. `none` stands for an `OSError`. -/

namespace Veriforge.Refactor

/-- `TextEditPlan`, with the two ends of its range. -/
structure TextEditPlan where
  file : String
  start : Position
  stop : Position
  replacement : Line
  original : Line
  deriving DecidableEq

/-- `RefactorDiagnostic` -/
structure RefactorDiagnostic where
  code : String
  message : String
  severity : String
  deriving DecidableEq

/-! ## Files -/

/-- A piece of a file: a character in UTF-8, or bytes that are none. -/
inductive Piece where
  | char (c : Char)
  | invalid (bytes : List UInt8)
  deriving DecidableEq

/-- `errors="replace"` -/
def Piece.decode : Piece → Char
  | char c => c
  | invalid _ => '\ufffd'

/-- A text with `\n` as its only line ending; `afterCr` is set right after a `\r`. -/
def normalizeFrom (afterCr : Bool) : Line → Line
  | [] => []
  | c :: cs =>
      if c = '\r' then '\n' :: normalizeFrom true cs
      else if c = '\n' ∧ afterCr = true then normalizeFrom false cs
      else c :: normalizeFrom false cs

/-- `.replace("\r\n", "\n").replace("\r", "\n")` -/
def normalize (text : Line) : Line := normalizeFrom false text

/-- What a path leads to. -/
inductive Entry where
  | missing
  | file (contents : List Piece)
  | directory
  deriving DecidableEq

/-- The files, and which of them can be written. -/
structure FileSystem where
  entry : String → Entry
  writable : String → Bool

/-- `read_text(encoding="utf-8", errors="replace")` -/
def readText (contents : List Piece) : Line := normalize (contents.map Piece.decode)

/-- `write_text` -/
def FileSystem.writeText (fs : FileSystem) (file : String) (text : Line) : Option FileSystem :=
  if fs.writable file then
    some { fs with entry := Function.update fs.entry file (.file (text.map .char)) }
  else none

/-! ## Offsets -/

/-- The offsets after the newlines of a text that starts at `i`. -/
def newlineEnds (i : Nat) : Line → List Nat
  | [] => []
  | c :: cs => if c = '\n' then (i + 1) :: newlineEnds (i + 1) cs else newlineEnds (i + 1) cs

/-- `_line_offsets` -/
def lineOffsets (text : Line) : List Nat := 0 :: newlineEnds 0 text

/-- `_lsp_position_to_offset` -/
def lspPositionToOffset (text : Line) (p : Position) : Nat :=
  let offsets := lineOffsets text
  let clampedLine := min p.line (offsets.length - 1)
  let lineStart := offsets.getD clampedLine 0
  let lineEnd :=
    if clampedLine + 1 < offsets.length then max lineStart (offsets.getD (clampedLine + 1) 0 - 1) else text.length
  max lineStart (min (lineStart + p.character) lineEnd)

/-- `_is_empty_file_edit` -/
def isEmptyFileEdit (edit : TextEditPlan) : Bool := edit.start == ⟨0, 0⟩ && edit.stop == ⟨0, 0⟩

/-- `_current_text_for_edit` -/
def currentTextForEdit (text : Line) (edit : TextEditPlan) : Line :=
  let normalized := normalize text
  slice normalized (lspPositionToOffset normalized edit.start) (lspPositionToOffset normalized edit.stop)

/-! ## Several edits of a file -/

/-- The order of the sorting key of `_apply_edit_plans`. -/
def keyLe (a b : TextEditPlan) : Prop := if a.start = b.start then a.stop ≤ b.stop else a.start ≤ b.start

instance (a b : TextEditPlan) : Decidable (keyLe a b) := by
  unfold keyLe
  infer_instance

/-- One turn of the loop. -/
def applyEdit (text : Line) (edit : TextEditPlan) : Line :=
  text.take (lspPositionToOffset text edit.start) ++ edit.replacement ++
    text.drop (lspPositionToOffset text edit.stop)

/-- `_apply_edit_plans`: the last edit of the text comes first. -/
def applyEditPlans (text : Line) (edits : List TextEditPlan) : Line :=
  (edits.insertionSort fun a b => keyLe b a).foldl applyEdit (normalize text)

/-- `_group_edits_by_file` -/
def groupEditsByFile (edits : List TextEditPlan) : List (String × List TextEditPlan) :=
  edits.foldl (fun grouped edit => dictSet edit.file ((dictGet edit.file grouped).getD [] ++ [edit]) grouped) []

/-- The edit plan names no file. -/
def noFile : RefactorDiagnostic := ⟨"missing-edit-file", "Edit plan does not identify a source file.", "error"⟩

/-- The file is not there. -/
def missingFile (file : String) : RefactorDiagnostic :=
  ⟨"missing-edit-file", "Source file does not exist: " ++ file, "error"⟩

/-- The file is not what it was at the preview. -/
def stalePreview (file : String) : RefactorDiagnostic :=
  ⟨"stale-preview", "Source file changed after preview was computed: " ++ file, "error"⟩

/-- What `_apply_text_edits` writes to the file, or the diagnostic it returns instead. -/
def updatedText (entry : Entry) (file : String) (edits : List TextEditPlan) :
    Option (Except RefactorDiagnostic Line) :=
  if file = "" then some (.error noFile)
  else
    match entry with
    | .missing =>
        match edits with
        | [edit] =>
            if edit.original = [] ∧ isEmptyFileEdit edit = true then some (.ok edit.replacement)
            else some (.error (missingFile file))
        | _ => some (.error (missingFile file))
    | .directory => none
    | .file contents =>
        let current := readText contents
        if edits.all fun edit => currentTextForEdit current edit == normalize edit.original then
          some (.ok (applyEditPlans current edits))
        else some (.error (stalePreview file))

/-! ## A single edit by lines -/

/-- The line breaks of `str.splitlines`. -/
def isLineBreak (c : Char) : Bool :=
  c == '\n' || c == '\r' || c == '\x0b' || c == '\x0c' || c == '\x1c' || c == '\x1d' || c == '\x1e' ||
    c == '\u0085' || c == '\u2028' || c == '\u2029'

/-- `splitlines(keepends=True)` -/
def splitlines : Line → List Line
  | [] => []
  | c :: cs =>
      if isLineBreak c && !(c == '\r' && cs.head? == some '\n') then [c] :: splitlines cs
      else
        match splitlines cs with
        | [] => [[c]]
        | l :: ls => (c :: l) :: ls

/-- What `_apply_text_edit` writes to the file, or the diagnostic it returns instead. -/
def updatedLines (entry : Entry) (edit : TextEditPlan) : Option (Except RefactorDiagnostic Line) :=
  if edit.file = "" then some (.error noFile)
  else
    match entry with
    | .file contents =>
        let lines := splitlines (readText contents)
        if ((lines.take (edit.stop.line + 1)).drop edit.start.line).flatten = edit.original then
          some (.ok ((lines.take edit.start.line).flatten ++ (splitlines edit.replacement).flatten ++
            (lines.drop (edit.stop.line + 1)).flatten))
        else some (.error (stalePreview edit.file))
    | _ => some (.error (missingFile edit.file))

/-! ## Writing -/

/-- A call of `_apply_text_edits` or `_apply_text_edit`: the file, and what becomes of it. -/
structure Job where
  file : String
  text : Entry → Option (Except RefactorDiagnostic Line)

/-- `_apply_text_edits` -/
def applyTextEdits (file : String) (edits : List TextEditPlan) : Job := ⟨file, fun e => updatedText e file edits⟩

/-- `_apply_text_edit` -/
def applyTextEdit (edit : TextEditPlan) : Job := ⟨edit.file, fun e => updatedLines e edit⟩

/-- The call: a diagnostic, or the files after the write. -/
def Job.run (job : Job) (fs : FileSystem) : Option (Except RefactorDiagnostic FileSystem) :=
  match job.text (fs.entry job.file) with
  | none => none
  | some (.error diagnostic) => some (.error diagnostic)
  | some (.ok text) => (fs.writeText job.file text).map .ok

end Veriforge.Refactor

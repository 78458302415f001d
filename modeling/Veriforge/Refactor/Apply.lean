import Veriforge.Refactor.Splice

/-! # Applying a preview

`apply_extract_preview` (`refactor/hierarchy_extract.py`), `apply_collapse_preview`
(`refactor/hierarchy_collapse.py`) and `apply_hierarchy_boundary_move_preview`
(`refactor/hierarchy_boundary.py`): the edits are checked and written file by file. -/

namespace Veriforge.Refactor

/-! ## Previews -/

/-- `ExtractPreview` -/
structure ExtractPreview where
  diagnostics : List RefactorDiagnostic
  edits : List TextEditPlan

/-- `CollapsePreview`, which `preview_collapse_hierarchy` builds with one edit or none. -/
structure CollapsePreview where
  diagnostics : List RefactorDiagnostic
  edits : List TextEditPlan
  single : edits.length ≤ 1

/-- `engine_kind` with `engine_preview`. -/
inductive Engine where
  | boundary
  | extract (preview : Option ExtractPreview)
  | collapse (preview : Option CollapsePreview)

/-- `BoundaryMovePreview` -/
structure BoundaryMovePreview where
  diagnostics : List RefactorDiagnostic
  edits : List TextEditPlan
  engine : Engine

/-- `ok` of the extract and collapse previews, `apply_ready` of a boundary move. -/
def ready (diagnostics : List RefactorDiagnostic) (edits : List TextEditPlan) : Bool :=
  !(diagnostics.any fun d => d.severity == "error") && !edits.isEmpty

/-- `ExtractApplyResult`, `CollapseApplyResult` and `BoundaryMoveApplyResult`. -/
structure ApplyResult where
  applied : Bool
  diagnostics : List RefactorDiagnostic
  writtenFiles : List String
  createdFiles : List String

/-- A preview that must not be written. -/
def notApplicable (message : String) (diagnostics : List RefactorDiagnostic) : ApplyResult :=
  ⟨false, ⟨"preview-not-applicable", message, "error"⟩ :: diagnostics, [], []⟩

/-- The loop over the files. -/
def applyJobs (written : List String) (fs : FileSystem) : List Job → Option (ApplyResult × FileSystem)
  | [] => some (⟨true, [], written, []⟩, fs)
  | job :: jobs =>
      match job.run fs with
      | none => none
      | some (.error diagnostic) => some (⟨false, [diagnostic], written, []⟩, fs)
      | some (.ok fs') => applyJobs (written ++ [job.file]) fs' jobs

/-- The calls for the edits of a preview, file by file. -/
def fileJobs (edits : List TextEditPlan) : List Job :=
  (groupEditsByFile edits).map fun g => applyTextEdits g.1 g.2

/-- `apply_extract_preview` -/
def applyExtractPreview (preview : ExtractPreview) (fs : FileSystem) : Option (ApplyResult × FileSystem) :=
  if ready preview.diagnostics preview.edits then applyJobs [] fs (fileJobs preview.edits)
  else
    some (notApplicable "Extract preview has blocking diagnostics and cannot be applied." preview.diagnostics, fs)

/-- `apply_collapse_preview` -/
def applyCollapsePreview (preview : CollapsePreview) (fs : FileSystem) : Option (ApplyResult × FileSystem) :=
  if ready preview.diagnostics preview.edits then applyJobs [] fs (preview.edits.map applyTextEdit)
  else
    some (notApplicable "Collapse preview has blocking diagnostics and cannot be applied." preview.diagnostics, fs)

/-- `_apply_boundary_native` -/
def applyBoundaryNative (preview : BoundaryMovePreview) (fs : FileSystem) : Option (ApplyResult × FileSystem) :=
  if ready preview.diagnostics preview.edits then applyJobs [] fs (fileJobs preview.edits)
  else
    some (notApplicable "Hierarchy boundary preview is not apply-ready and cannot be written." preview.diagnostics, fs)

/-- The files of an extract preview that are not there yet, each once. -/
def filesToCreate (fs : FileSystem) (edits : List TextEditPlan) : List String :=
  ((edits.map (·.file)).filter fun f => f != "" && fs.entry f == .missing).eraseDups

/-- `_apply_extract_via_unified` -/
def applyExtractViaUnified (preview : Option ExtractPreview) (fs : FileSystem) : Option (ApplyResult × FileSystem) :=
  match preview with
  | none =>
      some (⟨false, [⟨"engine-preview-missing",
        "Extract-engine boundary preview is missing its underlying ExtractPreview.", "error"⟩], [], []⟩, fs)
  | some p =>
      (applyExtractPreview p fs).map fun r =>
        (if r.1.applied then { r.1 with createdFiles := filesToCreate fs p.edits } else r.1, r.2)

/-- `_apply_collapse_via_unified` -/
def applyCollapseViaUnified (preview : Option CollapsePreview) (fs : FileSystem) :
    Option (ApplyResult × FileSystem) :=
  match preview with
  | none =>
      some (⟨false, [⟨"engine-preview-missing",
        "Collapse-engine boundary preview is missing its underlying CollapsePreview.", "error"⟩], [], []⟩, fs)
  | some p => applyCollapsePreview p fs

/-- `apply_hierarchy_boundary_move_preview` -/
def applyHierarchyBoundaryMovePreview (preview : BoundaryMovePreview) (fs : FileSystem) :
    Option (ApplyResult × FileSystem) :=
  match preview.engine with
  | .extract p => applyExtractViaUnified p fs
  | .collapse p => applyCollapseViaUnified p fs
  | .boundary => applyBoundaryNative preview fs

end Veriforge.Refactor

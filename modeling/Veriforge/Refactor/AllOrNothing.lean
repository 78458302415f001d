import Veriforge.Refactor.Apply
import Veriforge.Refactor.Lines

/-! # When a preview is applied all or nothing

The edits of a file are either all in it or the file is as it was; this holds for every file by itself. Over
several files it can fail, because a file is written before the next one is checked. -/

namespace Veriforge.Refactor

/-! ## What is promised -/

/-- The text of a file, which is empty where there is none. -/
def FileSystem.text (fs : FileSystem) (file : String) : Line :=
  match fs.entry file with
  | .file contents => readText contents
  | _ => []

/-- Each edit of the file stood on its original text, and the file now has the text with all of them. -/
def Rewritten (fs fs' : FileSystem) (file : String) (edits : List TextEditPlan) : Prop :=
  ∃ out contents, Edited (fs.text file) edits out ∧ fs'.entry file = .file contents ∧
    readText contents = normalize out

/-- Applying is all or nothing. -/
structure AllOrNothing (fs fs' : FileSystem) (edits : List TextEditPlan) (applied : Bool) : Prop where
  nothing : applied = false → fs' = fs
  all : applied = true → ∀ e ∈ edits, Rewritten fs fs' e.file (edits.filter fun e' => e'.file = e.file)
  others : applied = true → ∀ file ∉ edits.map (·.file), fs'.entry file = fs.entry file

/-! ## Previews of every kind -/

/-- A preview of one of the three engines. -/
inductive Preview where
  | extract (preview : ExtractPreview)
  | collapse (preview : CollapsePreview)
  | boundary (preview : BoundaryMovePreview)

namespace Preview

/-- The function of the source for this kind of preview. -/
def apply (fs : FileSystem) : Preview → Option (ApplyResult × FileSystem)
  | extract p => applyExtractPreview p fs
  | collapse p => applyCollapsePreview p fs
  | boundary p => applyHierarchyBoundaryMovePreview p fs

/-- The edits it applies. -/
def edits : Preview → List TextEditPlan
  | extract p => p.edits
  | collapse p => p.edits
  | boundary p =>
      match p.engine with
      | .extract (some q) => q.edits
      | .collapse (some q) => q.edits
      | _ => p.edits

/-- Its edits replace whole lines. -/
def byLines : Preview → Bool
  | extract _ => false
  | collapse _ => true
  | boundary p =>
      match p.engine with
      | .collapse (some _) => true
      | _ => false

/-- The edits are looked at: the preview has no error and its engine is there. -/
def runs : Preview → Bool
  | extract p => ready p.diagnostics p.edits
  | collapse p => ready p.diagnostics p.edits
  | boundary p =>
      match p.engine with
      | .extract (some q) => ready q.diagnostics q.edits
      | .collapse (some q) => ready q.diagnostics q.edits
      | .boundary => ready p.diagnostics p.edits
      | _ => false

/-- The calls of the loop over its files. -/
def jobs (preview : Preview) : List Job :=
  if preview.byLines then preview.edits.map applyTextEdit else fileJobs preview.edits

/-- A preview that is not looked at leaves the files; otherwise the loop runs. -/
theorem apply_cases {preview : Preview} {fs fs' : FileSystem} {r : ApplyResult}
    (h : preview.apply fs = some (r, fs')) :
    (preview.runs = false ∧ r.applied = false ∧ fs' = fs) ∨
      (preview.runs = true ∧ ∃ r', applyJobs [] fs preview.jobs = some (r', fs') ∧ r'.applied = r.applied) := by
  have hloop : ∀ {ds : List RefactorDiagnostic} {es : List TextEditPlan} {js : List Job} {m : String}
      {r : ApplyResult},
      (if ready ds es then applyJobs [] fs js else some (notApplicable m ds, fs)) = some (r, fs') →
        (ready ds es = false ∧ r.applied = false ∧ fs' = fs) ∨
          (ready ds es = true ∧ ∃ r', applyJobs [] fs js = some (r', fs') ∧ r'.applied = r.applied) := by
    intro ds es js m r h
    cases hr : ready ds es with
    | true =>
      rw [hr, if_pos rfl] at h
      exact Or.inr ⟨rfl, r, h, rfl⟩
    | false =>
      rw [hr, if_neg Bool.false_ne_true] at h
      obtain ⟨rfl, rfl⟩ := Prod.mk.inj (Option.some.inj h)
      exact Or.inl ⟨rfl, rfl, rfl⟩
  cases preview with
  | extract p => exact hloop h
  | collapse p => exact hloop h
  | boundary p =>
    obtain ⟨ds, es, engine⟩ := p
    cases engine with
    | boundary => exact hloop h
    | extract q =>
      cases q with
      | none =>
        obtain ⟨rfl, rfl⟩ := Prod.mk.inj (Option.some.inj h)
        exact Or.inl ⟨rfl, rfl, rfl⟩
      | some q =>
        change (applyExtractPreview q fs).map _ = some (r, fs') at h
        obtain ⟨⟨r', fs''⟩, hq, hr⟩ := Option.map_eq_some_iff.mp h
        obtain ⟨hres, rfl⟩ := Prod.mk.inj hr
        have happ : r'.applied = r.applied := by
          refine Eq.trans ?_ (congrArg ApplyResult.applied hres)
          split <;> rfl
        rw [← happ]
        exact hloop hq
    | collapse q =>
      cases q with
      | none =>
        obtain ⟨rfl, rfl⟩ := Prod.mk.inj (Option.some.inj h)
        exact Or.inl ⟨rfl, rfl, rfl⟩
      | some q => exact hloop h

end Preview

/-! ## The loop over the files -/

namespace Job

/-- The file is written. -/
def Accepted (job : Job) (fs : FileSystem) : Prop := ∃ text, job.text (fs.entry job.file) = some (.ok text)

/-- The file is not what the preview expects. -/
def Refused (job : Job) (fs : FileSystem) : Prop :=
  ∃ diagnostic, job.text (fs.entry job.file) = some (.error diagnostic)

/-- What is written is there already. -/
def Idle (job : Job) (fs : FileSystem) : Prop :=
  ∃ text, job.text (fs.entry job.file) = some (.ok text) ∧ fs.entry job.file = .file (text.map .char)

theorem Accepted.not_refused {job : Job} {fs : FileSystem} (h : job.Accepted fs) : ¬ job.Refused fs := by
  obtain ⟨text, h⟩ := h
  rintro ⟨diagnostic, h'⟩
  have heq : (Except.ok text : Except RefactorDiagnostic Line) = .error diagnostic :=
    Option.some.inj (h.symm.trans h')
  cases heq

/-- A call that is refused. -/
theorem refused_of_run {job : Job} {fs : FileSystem} {diagnostic : RefactorDiagnostic}
    (h : job.run fs = some (.error diagnostic)) : job.Refused fs := by
  unfold run at h
  split at h
  · exact absurd h.symm (Option.some_ne_none _)
  · next d hd => exact ⟨d, hd⟩
  · obtain ⟨_, -, h⟩ := Option.map_eq_some_iff.mp h
    cases h

/-- A call that writes touches its file only. -/
theorem run_ok {job : Job} {fs fs' : FileSystem} (h : job.run fs = some (.ok fs')) :
    ∃ text, job.text (fs.entry job.file) = some (.ok text) ∧ fs'.entry job.file = .file (text.map .char) ∧
      (∀ file, file ≠ job.file → fs'.entry file = fs.entry file) ∧ fs'.writable = fs.writable := by
  unfold run at h
  split at h
  · exact absurd h.symm (Option.some_ne_none _)
  · cases h
  · next text htext =>
    obtain ⟨fs₁, hwrite, hfs₁⟩ := Option.map_eq_some_iff.mp h
    rw [FileSystem.writeText] at hwrite
    split at hwrite
    swap
    · exact absurd hwrite.symm (Option.some_ne_none _)
    obtain rfl : fs₁ = fs' := Except.ok.inj hfs₁
    rw [← Option.some.inj hwrite]
    exact ⟨text, htext, Function.update_self _ _ _, fun file hne => Function.update_of_ne hne _ _, rfl⟩

end Job

/-- The files after the jobs have written theirs. -/
structure Wrote (fs fs' : FileSystem) (jobs : List Job) : Prop where
  each : ∀ job ∈ jobs, ∃ text, job.text (fs.entry job.file) = some (.ok text) ∧
    fs'.entry job.file = .file (text.map .char)
  others : ∀ file ∉ jobs.map (·.file), fs'.entry file = fs.entry file
  writable : fs'.writable = fs.writable

theorem Wrote.nil (fs : FileSystem) : Wrote fs fs [] :=
  ⟨fun _ hjob => absurd hjob List.not_mem_nil, fun _ _ => rfl, rfl⟩

/-- One job, and the others on the files it leaves. -/
theorem Wrote.cons {fs fs₁ fs' : FileSystem} {job : Job} {jobs : List Job} (hrun : job.run fs = some (.ok fs₁))
    (hnew : job.file ∉ jobs.map (·.file)) (hsame : ∀ j ∈ jobs, fs₁.entry j.file = fs.entry j.file)
    (h : Wrote fs₁ fs' jobs) : Wrote fs fs' (job :: jobs) := by
  obtain ⟨text, htext, hself, hother, hwritable⟩ := Job.run_ok hrun
  refine ⟨?_, ?_, h.writable.trans hwritable⟩
  · intro j hj
    rcases List.mem_cons.mp hj with rfl | hj
    · exact ⟨text, htext, (h.others _ hnew).trans hself⟩
    · rw [← hsame j hj]
      exact h.each j hj
  · intro file hfile
    rw [List.map_cons, List.mem_cons, not_or] at hfile
    rw [h.others file hfile.2, hother file hfile.1]

/-- Files that are written as they were are unchanged. -/
theorem Wrote.eq_iff {fs fs' : FileSystem} {jobs : List Job} (h : Wrote fs fs' jobs) :
    fs' = fs ↔ ∀ job ∈ jobs, job.Idle fs := by
  constructor
  · rintro rfl job hjob
    exact h.each job hjob
  · intro hidle
    have hentry : fs'.entry = fs.entry := by
      funext file
      by_cases hfile : file ∈ jobs.map (·.file)
      · obtain ⟨job, hjob, rfl⟩ := List.mem_map.mp hfile
        obtain ⟨text, htext, hnew⟩ := h.each job hjob
        obtain ⟨text', htext', hold⟩ := hidle job hjob
        have heq : text = text' := Except.ok.inj (Option.some.inj (htext.symm.trans htext'))
        rw [hnew, hold, heq]
      · exact h.others file hfile
    obtain ⟨entry, writable⟩ := fs
    obtain ⟨entry', writable'⟩ := fs'
    rw [FileSystem.mk.injEq]
    exact ⟨hentry, h.writable⟩

/-- How the loop ends: all files are written, or those before the first that is refused. -/
theorem applyJobs_cases {jobs : List Job} {written : List String} {fs fs' : FileSystem} {r : ApplyResult}
    (hfiles : (jobs.map (·.file)).Nodup) (h : applyJobs written fs jobs = some (r, fs')) :
    (r.applied = true ∧ Wrote fs fs' jobs) ∨
      (r.applied = false ∧ ∃ pre job post, jobs = pre ++ job :: post ∧ job.Refused fs ∧ Wrote fs fs' pre) := by
  induction jobs generalizing written fs with
  | nil =>
    obtain ⟨rfl, rfl⟩ := Prod.mk.inj (Option.some.inj h)
    exact Or.inl ⟨rfl, Wrote.nil fs⟩
  | cons job jobs ih =>
    obtain ⟨hnew, hfiles⟩ := List.nodup_cons.mp hfiles
    rw [applyJobs] at h
    split at h
    · exact absurd h.symm (Option.some_ne_none _)
    · next diagnostic hrun =>
      obtain ⟨rfl, rfl⟩ := Prod.mk.inj (Option.some.inj h)
      exact Or.inr ⟨rfl, [], job, jobs, rfl, Job.refused_of_run hrun, Wrote.nil fs⟩
    · next fs₁ hrun =>
      -- the jobs that follow see their files as they were
      have hsame : ∀ j ∈ jobs, fs₁.entry j.file = fs.entry j.file := by
        obtain ⟨-, -, -, hother, -⟩ := Job.run_ok hrun
        exact fun j hj => hother _ fun heq => hnew (List.mem_map.mpr ⟨j, hj, heq⟩)
      rcases ih hfiles h with ⟨happ, hw⟩ | ⟨happ, pre, j, post, rfl, ⟨diagnostic, hj⟩, hw⟩
      · exact Or.inl ⟨happ, Wrote.cons hrun hnew hsame hw⟩
      · have hpre : ∀ k ∈ pre, k ∈ pre ++ j :: post := fun _ hk => List.mem_append_left _ hk
        refine Or.inr ⟨happ, job :: pre, j, post, rfl, ⟨diagnostic, ?_⟩,
          Wrote.cons hrun (fun hmem => hnew ?_) (fun k hk => hsame k (hpre k hk)) hw⟩
        · rw [← hsame j (List.mem_append_right _ List.mem_cons_self)]
          exact hj
        · obtain ⟨k, hk, heq⟩ := List.mem_map.mp hmem
          exact List.mem_map.mpr ⟨k, hpre k hk, heq⟩

/-! ## Edits grouped by file -/

/-- The edits of a file, in the order of the preview. -/
def editsOf (file : String) (edits : List TextEditPlan) : List TextEditPlan := edits.filter fun e => e.file = file

theorem dictGet_groupEditsByFile (file : String) (edits : List TextEditPlan) :
    dictGet file (groupEditsByFile edits) = if editsOf file edits = [] then none else some (editsOf file edits) := by
  induction edits using List.reverseRecOn with
  | nil => rfl
  | append_singleton edits e ih =>
    rw [groupEditsByFile, List.foldl_append]
    change dictGet file (dictSet e.file ((dictGet e.file (groupEditsByFile edits)).getD [] ++ [e])
      (groupEditsByFile edits)) = _
    rw [dictGet_dictSet]
    by_cases hfile : e.file = file
    · subst hfile
      rw [if_pos rfl, ih, editsOf, editsOf, List.filter_append]
      by_cases hnil : (edits.filter fun e' => e'.file = e.file) = [] <;> simp [hnil]
    · rw [if_neg hfile, ih, editsOf, editsOf, List.filter_append]
      simp [hfile]

theorem distinctKeys_groupEditsByFile (edits : List TextEditPlan) : DistinctKeys (groupEditsByFile edits) := by
  induction edits using List.reverseRecOn with
  | nil => exact List.nodup_nil
  | append_singleton edits e ih =>
    rw [groupEditsByFile, List.foldl_append]
    exact ih.set _ _

theorem mem_groupEditsByFile {file : String} {edits es : List TextEditPlan} :
    (file, es) ∈ groupEditsByFile edits ↔ es = editsOf file edits ∧ editsOf file edits ≠ [] := by
  rw [(distinctKeys_groupEditsByFile edits).mem_iff, dictGet_groupEditsByFile]
  split
  · next h => simp [h]
  · next h => exact ⟨fun heq => ⟨(Option.some.inj heq).symm, h⟩, fun heq => congrArg some heq.1.symm⟩

theorem editsOf_ne_nil {edits : List TextEditPlan} {e : TextEditPlan} (he : e ∈ edits) : editsOf e.file edits ≠ [] :=
  List.ne_nil_of_mem (List.mem_filter.mpr ⟨he, decide_eq_true rfl⟩)

/-- Every job is that of an edit's file. -/
theorem mem_fileJobs {edits : List TextEditPlan} {job : Job} :
    job ∈ fileJobs edits ↔ ∃ e ∈ edits, job = applyTextEdits e.file (editsOf e.file edits) := by
  rw [fileJobs, List.mem_map]
  constructor
  · rintro ⟨⟨file, es⟩, hmem, rfl⟩
    obtain ⟨rfl, hne⟩ := mem_groupEditsByFile.mp hmem
    obtain ⟨e, he⟩ := List.exists_mem_of_ne_nil _ hne
    obtain ⟨he, hfile⟩ := List.mem_filter.mp he
    exact ⟨e, he, by rw [of_decide_eq_true hfile]⟩
  · rintro ⟨e, he, rfl⟩
    exact ⟨(e.file, editsOf e.file edits), mem_groupEditsByFile.mpr ⟨rfl, editsOf_ne_nil he⟩, rfl⟩

theorem fileJobs_nodup (edits : List TextEditPlan) : ((fileJobs edits).map (·.file)).Nodup := by
  rw [fileJobs, List.map_map]
  exact distinctKeys_groupEditsByFile edits

/-- What is written where the edits of a file fit. -/
theorem edited_of_updatedText {fs : FileSystem} {file : String} {edits : List TextEditPlan} {text : Line}
    (h : updatedText (fs.entry file) file edits = some (.ok text)) (hfits : Fits (fs.text file) edits) :
    Edited (fs.text file) edits text := by
  unfold updatedText at h
  split at h
  · cases h
  unfold FileSystem.text at hfits ⊢
  split at h
  · next hentry =>
    rw [hentry] at hfits ⊢
    split at h
    · next edit =>
      split at h
      · -- the file is created from the text of its only edit
        next hempty =>
          obtain ⟨horig, hrange⟩ := hempty
          obtain ⟨hstart, hstop⟩ := Bool.and_eq_true_iff.mp hrange
          have hzero : Denotes [] ⟨0, 0⟩ 0 := ⟨Nat.le_refl _, rfl⟩
          rw [← Except.ok.inj (Option.some.inj h)]
          refine ⟨[edit], List.Perm.refl _, 0, 0, [], ?_, ?_, Nat.le_refl _, Nat.le_refl _, ?_, rfl, ?_⟩
          · rw [eq_of_beq hstart]
            exact hzero
          · rw [eq_of_beq hstop]
            exact hzero
          · rw [horig]
            rfl
          · rw [List.append_nil]
            rfl
      · cases h
    · cases h
  · cases h
  · next contents hentry =>
    rw [hentry] at hfits ⊢
    simp only at h
    split at h
    · next hcurrent =>
      rw [← Except.ok.inj (Option.some.inj h)]
      refine edited_applyEditPlans (normalize_readText contents) hfits fun e he => ?_
      exact eq_of_beq (List.all_eq_true.mp hcurrent e he)
    · cases h

/-! ## Edits by lines -/

/-- The lines that are replaced, and what they are replaced by. -/
theorem updatedLines_ok {fs : FileSystem} {edit : TextEditPlan} {text : Line}
    (h : updatedLines (fs.entry edit.file) edit = some (.ok text)) :
    normalize (fs.text edit.file) = fs.text edit.file ∧
      (((splitlines (fs.text edit.file)).take (edit.stop.line + 1)).drop edit.start.line).flatten = edit.original ∧
      text = (fs.text edit.file).take (linesLength (fs.text edit.file) edit.start.line) ++ edit.replacement ++
        (fs.text edit.file).drop (linesLength (fs.text edit.file) (edit.stop.line + 1)) := by
  unfold updatedLines at h
  split at h
  · cases h
  split at h
  · next contents hentry =>
    have htext : fs.text edit.file = readText contents := by rw [FileSystem.text, hentry]
    simp only at h
    split at h
    · next horig =>
      rw [htext]
      refine ⟨normalize_readText contents, horig, ?_⟩
      rw [← (take_linesLength _ _).1, ← (take_linesLength _ _).2]
      rw [← Except.ok.inj (Option.some.inj h), flatten_splitlines]
    · cases h
  · cases h

theorem edited_of_updatedLines {fs : FileSystem} {edit : TextEditPlan} {text : Line}
    (h : updatedLines (fs.entry edit.file) edit = some (.ok text)) (hlines : WholeLines (fs.text edit.file) edit) :
    Edited (fs.text edit.file) [edit] text := by
  obtain ⟨hnorm, horig, rfl⟩ := updatedLines_ok h
  obtain ⟨hstart, hstop, hforward⟩ := hlines
  have hslice := slice_linesLength (fs.text edit.file) (a := edit.start.line) (b := edit.stop.line + 1)
    (by rw [Position.le_def] at hforward; omega)
  refine ⟨[edit], List.Perm.refl _, _, _, _, hstart, hstop, Nat.zero_le _, (hstart.le_iff hstop).mp hforward, ?_,
    rfl, ?_⟩
  · rw [← hslice, horig, normalize_of_notMem]
    intro hcr
    rw [← horig, hslice] at hcr
    refine notMem_normalize (fs.text edit.file) ?_
    rw [hnorm]
    exact List.mem_of_mem_take (List.mem_of_mem_drop hcr)
  · rfl

/-- In a text without other line breaks an edit that is applied is one of whole lines. -/
theorem wholeLines_of_edited {fs : FileSystem} {edit : TextEditPlan} {text out : Line}
    (hplain : Plain (fs.text edit.file)) (h : updatedLines (fs.entry edit.file) edit = some (.ok text))
    (hedited : Edited (fs.text edit.file) [edit] out) : WholeLines (fs.text edit.file) edit := by
  obtain ⟨hnorm, horig, -⟩ := updatedLines_ok h
  obtain ⟨es, hperm, hspliced⟩ := hedited
  obtain rfl := List.perm_singleton.mp hperm
  obtain ⟨i, j, -, hi, hj, -, hij, hslice, -⟩ := hspliced
  have hforward : edit.start ≤ edit.stop := (hi.le_iff hj).mpr hij
  have hlines := slice_linesLength (fs.text edit.file) (a := edit.start.line) (b := edit.stop.line + 1)
    (by rw [Position.le_def] at hforward; omega)
  have hcr : normalize edit.original = edit.original := by
    refine normalize_of_notMem fun hmem => notMem_normalize (fs.text edit.file) ?_
    rw [← horig, hlines] at hmem
    rw [hnorm]
    exact List.mem_of_mem_take (List.mem_of_mem_drop hmem)
  -- the range is as long as the lines, and lies in them
  have hlen := congrArg List.length (hslice.trans (hcr.trans (horig.symm.trans hlines)))
  rw [length_slice hj.1, length_slice (linesLength_le _ _)] at hlen
  have hlow := (linesLength_of_denotes hplain hi).1
  have hhigh := (linesLength_of_denotes hplain hj).2
  have hmono := linesLength_mono (fs.text edit.file) (a := edit.start.line) (b := edit.stop.line + 1)
    (by rw [Position.le_def] at hforward; omega)
  have hstart : i = linesLength (fs.text edit.file) edit.start.line := by omega
  have hstop : j = linesLength (fs.text edit.file) (edit.stop.line + 1) := by omega
  exact ⟨hstart ▸ hi, hstop ▸ hj, hforward⟩

/-! ## All or nothing -/

namespace Preview

/-- The condition, for a preview whose edits are looked at. Where a file is refused, the files before the first
such file have been written as they were (there is none, or their edits change nothing). Where none is refused,
the ranges of a file's edits lie in it and apart, and one that is replaced by lines consists of whole lines. -/
structure HoldsWhen (preview : Preview) (fs : FileSystem) : Prop where
  quiet : ∀ pre job post, preview.jobs = pre ++ job :: post → (∀ k ∈ pre, k.Accepted fs) → job.Refused fs →
    ∀ k ∈ pre, k.Idle fs
  fits : preview.byLines = false → (∀ job ∈ preview.jobs, job.Accepted fs) →
    ∀ e ∈ preview.edits, Fits (fs.text e.file) (editsOf e.file preview.edits)
  lines : preview.byLines = true → (∀ job ∈ preview.jobs, job.Accepted fs) →
    ∀ e ∈ preview.edits, WholeLines (fs.text e.file) e

/-- The files of a preview that replaces lines have no other line breaks than `\n`. -/
def PlainFiles (preview : Preview) (fs : FileSystem) : Prop :=
  preview.byLines = true → ∀ e ∈ preview.edits, Plain (fs.text e.file)

theorem length_edits_of_byLines {preview : Preview} (h : preview.byLines = true) : preview.edits.length ≤ 1 := by
  cases preview with
  | extract p => cases h
  | collapse p => exact p.single
  | boundary p =>
    obtain ⟨ds, es, engine⟩ := p
    cases engine with
    | boundary => cases h
    | extract q => cases h
    | collapse q =>
      cases q with
      | none => cases h
      | some q => exact q.single

/-- A preview by lines has one edit and one job, or none. -/
theorem edits_of_byLines {preview : Preview} (h : preview.byLines = true) {e : TextEditPlan}
    (he : e ∈ preview.edits) : preview.edits = [e] ∧ preview.jobs = [applyTextEdit e] := by
  have hlen := length_edits_of_byLines h
  have hedits : preview.edits = [e] := by
    cases hes : preview.edits with
    | nil => exact absurd (hes ▸ he) List.not_mem_nil
    | cons e' es =>
      rw [hes, List.length_cons] at hlen
      obtain rfl : es = [] := List.length_eq_zero_iff.mp (by omega)
      rw [hes] at he
      rw [List.mem_singleton.mp he]
  exact ⟨hedits, by rw [jobs, if_pos h, hedits, List.map_singleton]⟩

theorem jobs_nodup (preview : Preview) : (preview.jobs.map (·.file)).Nodup := by
  rw [jobs]
  split
  · next h =>
    have hlen := length_edits_of_byLines h
    cases hes : preview.edits with
    | nil => exact List.nodup_nil
    | cons e es =>
      rw [hes, List.length_cons] at hlen
      obtain rfl : es = [] := List.length_eq_zero_iff.mp (by omega)
      exact List.nodup_singleton _
  · exact fileJobs_nodup _

theorem files_jobs (preview : Preview) (file : String) :
    file ∈ preview.jobs.map (·.file) ↔ file ∈ preview.edits.map (·.file) := by
  rw [jobs]
  split
  · rw [List.map_map]
    rfl
  · rw [List.mem_map, List.mem_map]
    constructor
    · rintro ⟨job, hjob, rfl⟩
      obtain ⟨e, he, rfl⟩ := mem_fileJobs.mp hjob
      exact ⟨e, he, rfl⟩
    · rintro ⟨e, he, rfl⟩
      exact ⟨_, mem_fileJobs.mpr ⟨e, he, rfl⟩, rfl⟩

/-- The job of an edit's file, and what it writes. -/
theorem job_of_edit {preview : Preview} (fs : FileSystem) {e : TextEditPlan} (he : e ∈ preview.edits) :
    ∃ job ∈ preview.jobs, job.file = e.file ∧ ∀ text, job.text (fs.entry job.file) = some (.ok text) →
        (preview.byLines = false → Fits (fs.text e.file) (editsOf e.file preview.edits) →
          Edited (fs.text e.file) (editsOf e.file preview.edits) text) ∧
        (preview.byLines = true → WholeLines (fs.text e.file) e →
          Edited (fs.text e.file) (editsOf e.file preview.edits) text) ∧
        (preview.byLines = true → Plain (fs.text e.file) → ∀ out,
          Edited (fs.text e.file) (editsOf e.file preview.edits) out → WholeLines (fs.text e.file) e) := by
  cases hlines : preview.byLines with
  | true =>
    obtain ⟨hedits, hjobs⟩ := edits_of_byLines hlines he
    have hof : editsOf e.file preview.edits = [e] := by
      rw [hedits, editsOf]
      simp
    rw [hof]
    refine ⟨applyTextEdit e, hjobs ▸ List.mem_singleton_self _, rfl, fun text htext => ⟨?_, ?_, ?_⟩⟩
    · exact fun h => Bool.noConfusion h
    · exact fun _ hwhole => edited_of_updatedLines htext hwhole
    · exact fun _ hplain out hedited => wholeLines_of_edited hplain htext hedited
  | false =>
    refine ⟨applyTextEdits e.file (editsOf e.file preview.edits), ?_, rfl, fun text htext => ⟨?_, ?_, ?_⟩⟩
    · rw [jobs, hlines, if_neg Bool.false_ne_true]
      exact mem_fileJobs.mpr ⟨e, he, rfl⟩
    · exact fun _ hfits => edited_of_updatedText htext hfits
    · exact fun h => Bool.noConfusion h
    · exact fun h => Bool.noConfusion h

/-- All files written: the promise is that each edit's text is there. -/
theorem rewritten_of_wrote {preview : Preview} {fs fs' : FileSystem} (h : Wrote fs fs' preview.jobs)
    {e : TextEditPlan} (he : e ∈ preview.edits)
    (hfits : preview.byLines = false → Fits (fs.text e.file) (editsOf e.file preview.edits))
    (hlines : preview.byLines = true → WholeLines (fs.text e.file) e) :
    Rewritten fs fs' e.file (editsOf e.file preview.edits) := by
  obtain ⟨job, hjob, hfile, hspec⟩ := job_of_edit fs he
  obtain ⟨text, htext, hnew⟩ := h.each job hjob
  obtain ⟨hchars, hwhole, -⟩ := hspec text htext
  refine ⟨text, text.map .char, ?_, hfile ▸ hnew, readText_map_char text⟩
  cases hb : preview.byLines with
  | true => exact hwhole hb (hlines hb)
  | false => exact hchars hb (hfits hb)

end Preview

/-- The part of a list before its first element without the property. -/
theorem prefix_unique {α : Type} {P : α → Prop} {xs ys us vs : List α} {x y : α} (h : xs ++ x :: us = ys ++ y :: vs)
    (hxs : ∀ z ∈ xs, P z) (hx : ¬ P x) (hys : ∀ z ∈ ys, P z) (hy : ¬ P y) : xs = ys := by
  induction xs generalizing ys with
  | nil =>
    cases ys with
    | nil => rfl
    | cons z ys =>
      obtain ⟨rfl, -⟩ := List.cons.inj h
      exact absurd (hys x List.mem_cons_self) hx
  | cons z xs ih =>
    cases ys with
    | nil =>
      obtain ⟨rfl, -⟩ := List.cons.inj h
      exact absurd (hxs z List.mem_cons_self) hy
    | cons z' ys =>
      obtain ⟨rfl, hrest⟩ := List.cons.inj h
      rw [ih hrest (fun z hz => hxs z (List.mem_cons_of_mem _ hz)) fun z hz => hys z (List.mem_cons_of_mem _ hz)]

/-- The condition is enough, and where no file of a preview by lines has other line breaks than `\n` nothing less
is. -/
theorem apply_allOrNothing {preview : Preview} {fs fs' : FileSystem} {r : ApplyResult}
    (h : preview.apply fs = some (r, fs')) :
    ((preview.runs = true → preview.HoldsWhen fs) → AllOrNothing fs fs' preview.edits r.applied) ∧
      (preview.PlainFiles fs → AllOrNothing fs fs' preview.edits r.applied →
        preview.runs = true → preview.HoldsWhen fs) := by
  rcases Preview.apply_cases h with ⟨hruns, happ, rfl⟩ | ⟨hruns, r', hloop, happ⟩
  · -- nothing is looked at
    rw [happ]
    refine ⟨fun _ => ⟨fun _ => rfl, fun h => Bool.noConfusion h, fun h => Bool.noConfusion h⟩, fun _ _ h => ?_⟩
    exact Bool.noConfusion (hruns.symm.trans h)
  · rw [← happ]
    rcases applyJobs_cases preview.jobs_nodup hloop with ⟨happ, hw⟩ | ⟨happ, pre, job, post, hjobs, hrefused, hw⟩
    · -- every file is written
      have haccepted : ∀ job ∈ preview.jobs, job.Accepted fs := by
        intro job hjob
        obtain ⟨text, htext, -⟩ := hw.each job hjob
        exact ⟨text, htext⟩
      rw [happ]
      constructor
      · intro hwhen
        refine ⟨fun h => Bool.noConfusion h, fun _ e he => ?_, fun _ file hfile => ?_⟩
        · exact Preview.rewritten_of_wrote hw he (fun hb => (hwhen hruns).fits hb haccepted e he)
            fun hb => (hwhen hruns).lines hb haccepted e he
        · exact hw.others file (mt (preview.files_jobs file).mp hfile)
      · intro hplain hall _
        refine ⟨?_, fun _ _ e he => ?_, fun hb _ e he => ?_⟩
        · intro pre job post hjobs _ hrefused
          exact absurd hrefused (haccepted job (hjobs ▸ List.mem_append_right _ List.mem_cons_self)).not_refused
        · obtain ⟨out, -, hedited, -⟩ := hall.all rfl e he
          exact hedited.fits
        · obtain ⟨out, -, hedited, -⟩ := hall.all rfl e he
          obtain ⟨job, hjob, -, hspec⟩ := Preview.job_of_edit fs he
          obtain ⟨text, htext⟩ := haccepted job hjob
          exact (hspec text htext).2.2 hb (hplain hb e he) out hedited
    · -- some file is refused, after those before it have been written
      have hpre : ∀ k ∈ pre, k.Accepted fs := by
        intro k hk
        obtain ⟨text, htext, -⟩ := hw.each k hk
        exact ⟨text, htext⟩
      have hsome : ¬ ∀ job ∈ preview.jobs, job.Accepted fs := fun hall =>
        (hall job (hjobs ▸ List.mem_append_right _ List.mem_cons_self)).not_refused hrefused
      rw [happ]
      constructor
      · intro hwhen
        refine ⟨fun _ => hw.eq_iff.mpr ?_, fun h => Bool.noConfusion h, fun h => Bool.noConfusion h⟩
        exact (hwhen hruns).quiet pre job post hjobs hpre hrefused
      · intro _ hall _
        refine ⟨?_, fun _ haccepted => absurd haccepted hsome, fun _ haccepted => absurd haccepted hsome⟩
        intro pre' job' post' hjobs' hpre' hrefused'
        obtain rfl : pre' = pre := prefix_unique (hjobs'.symm.trans hjobs) hpre' (fun ha => ha.not_refused hrefused')
          hpre fun ha => ha.not_refused hrefused
        exact hw.eq_iff.mp (hall.nothing rfl)

/-- One letter is replaced. -/
def letterEdit (file : String) (new old : Char) : TextEditPlan := ⟨file, ⟨0, 0⟩, ⟨0, 1⟩, [new], [old]⟩

/-- A boundary move over one file or several. -/
def movePreview (edits : List TextEditPlan) : Preview := .boundary ⟨[], edits, .boundary⟩

/-- Two files of one letter each. -/
def twoFiles : FileSystem :=
  ⟨fun f => if f = "a.v" then .file [.char 'a'] else if f = "b.v" then .file [.char 'c'] else .missing, fun _ => true⟩

/-- The condition holds of an edit of one file that stands on its text. -/
theorem apply_allOrNothing_letterEdit :
    ∃ r fs', (movePreview [letterEdit "a.v" 'x' 'a']).apply twoFiles = some (r, fs') ∧
      AllOrNothing twoFiles fs' [letterEdit "a.v" 'x' 'a'] r.applied := by
  have hrun : (movePreview [letterEdit "a.v" 'x' 'a']).apply twoFiles = some (_, _) := rfl
  refine ⟨_, _, hrun, (apply_allOrNothing hrun).1 fun _ => ?_⟩
  have hstart : Denotes ['a'] ⟨0, 0⟩ 0 := by decide
  have hstop : Denotes ['a'] ⟨0, 1⟩ 1 := by decide
  refine ⟨?_, fun _ _ e he => ?_, fun h => Bool.noConfusion h⟩
  · intro pre job post hjobs _ _ k hk
    have hlen := congrArg List.length hjobs
    rw [List.length_append, List.length_cons] at hlen
    change 1 = _ at hlen
    obtain rfl : pre = [] := List.length_eq_zero_iff.mp (by omega)
    exact absurd hk List.not_mem_nil
  · obtain rfl := List.mem_singleton.mp he
    refine ⟨fun e he => ⟨0, ?_⟩, fun e he => ⟨1, ?_⟩, fun e he => ?_, List.pairwise_singleton _ _⟩
    · obtain rfl := List.mem_singleton.mp he
      exact hstart
    · obtain rfl := List.mem_singleton.mp he
      exact hstop
    · obtain rfl := List.mem_singleton.mp he
      decide

/-- The second file is not what the preview expects, and the first one has been written. -/
theorem apply_not_allOrNothing :
    ¬ ∀ (preview : Preview) (fs fs' : FileSystem) (r : ApplyResult), preview.apply fs = some (r, fs') →
      AllOrNothing fs fs' preview.edits r.applied := by
  intro h
  have hall := h (movePreview [letterEdit "a.v" 'x' 'a', letterEdit "b.v" 'y' 'b']) twoFiles _ _ rfl
  have hentry := congrArg (fun fs => fs.entry "a.v") (hall.nothing rfl)
  exact absurd hentry (by decide)

end Veriforge.Refactor

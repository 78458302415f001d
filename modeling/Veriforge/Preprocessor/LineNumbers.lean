import Mathlib.Algebra.GroupWithZero.Nat
import Veriforge.Except
import Veriforge.Preprocessor.Select

/-! # Line numbers through the preprocessor

Each round of the line loop consumes some source lines and appends some entries to `output_lines`. The blank lines it
appends stand for a directive and for the lines a macro call goes on to; the lines that a trailing backslash joins to
a directive, or to a text that is left out, have none. -/

namespace Veriforge.Preprocessor

/-! ## Lines of a text -/

/-- The number of lines of a text. -/
def lineCount (text : Line) : Nat := (text.splitOn '\n').length

theorem lineCount_pos (text : Line) : 0 < lineCount text :=
  List.length_pos_of_ne_nil (List.splitOn_ne_nil _ _)

/-- `"\n".join(output_lines)`: the lines of the text are those of the entries. -/
theorem splitOn_intercalate {entries : List Line} (h : entries ≠ []) :
    (['\n'].intercalate entries).splitOn '\n' = entries.flatMap fun e => e.splitOn '\n' := by
  induction entries with
  | nil => exact absurd rfl h
  | cons e es ih =>
    cases es with
    | nil => simp
    | cons e' es =>
      have hjoin : ['\n'].intercalate (e :: e' :: es) = e ++ '\n' :: ['\n'].intercalate (e' :: es) := by
        simp [List.intercalate_cons_cons]
      rw [hjoin, List.splitOn_append_cons_self, ih (List.cons_ne_nil _ _)]
      rfl

/-- The lines the loop joins to a line are the next ones. -/
theorem joinContinued_suffix (line : Line) (lines : List Line) : (joinContinued line lines).2 <:+ lines := by
  induction lines generalizing line with
  | nil => exact List.suffix_refl _
  | cons next rest ih =>
    rw [joinContinued]
    split
    · exact (ih _).trans (List.suffix_cons _ _)
    · exact List.suffix_refl _

theorem joinMacro_suffix (line : Line) (lines : List Line) : (joinMacro line lines).2.2 <:+ lines := by
  induction lines generalizing line with
  | nil => exact List.suffix_refl _
  | cons next rest ih =>
    rw [joinMacro]
    split
    · exact (ih _).trans (List.suffix_cons _ _)
    · exact List.suffix_refl _

/-- `number_of_extra_lines_consumed` is what it says. -/
theorem joinMacro_called (line : Line) (lines : List Line) :
    (joinMacro line lines).2.1 + (joinMacro line lines).2.2.length = lines.length := by
  induction lines generalizing line with
  | nil => rfl
  | cons next rest ih =>
    rw [joinMacro]
    split
    · have hnext := ih (line ++ '\n' :: next)
      generalize joinMacro (line ++ '\n' :: next) rest = r at hnext
      show r.2.1 + 1 + r.2.2.length = rest.length + 1
      omega
    · simp

/-! ## Rounds of the loop -/

/-- A round of the loop, with the source lines it consumes. -/
inductive Round
  /-- A directive, and the entries it is replaced by. -/
  | directive (k : Keyword) (source output : List Line)
  /-- Text where not all is active. -/
  | hidden (source : List Line)
  /-- Active text: how many lines its macro calls go on to, and its expansion. -/
  | text (source : List Line) (called : Nat) (expansion : Line)

namespace Round

/-- The source lines of a round. -/
def source : Round → List Line
  | directive _ source _ | hidden source | text source _ _ => source

/-- The entries appended to `output_lines`. -/
def output : Round → List Line
  | directive _ _ output => output
  | hidden _ => [[]]
  | text _ called expansion => List.replicate called [] ++ [expansion]

/-- The lines of the text these entries make. -/
def lines (r : Round) : List Line := r.output.flatMap fun e => e.splitOn '\n'

/-- How many lines the macro calls of a text go on to. -/
def called : Round → Nat
  | text _ called _ => called
  | _ => 0

/-- How many lines are joined for a trailing backslash. -/
def continued (r : Round) : Nat := r.source.length - 1 - r.called

/-- How many line breaks the expansion has. -/
def breaks : Round → Nat
  | text _ _ expansion => lineCount expansion - 1
  | _ => 0

def isText : Round → Bool
  | text _ _ _ => true
  | _ => false

def isInclude : Round → Bool
  | directive .include _ _ => true
  | _ => false

end Round

/-- The rounds of `_process_source` on some lines, where it does not raise, and the definitions left. -/
inductive Rounds (ctx : Context) : List Level → Defines → List Line → List Round → Defines → Prop
  | nil {D : Defines} : Rounds ctx [] D [] [] D
  | directive {stack stack' : List Level} {D D' E : Defines} {line joined args : Line} {k : Keyword}
      {lines rest source output : List Line} {rs : List Round} (hj : joinContinued line lines = (joined, rest))
      (hp : parseDirective joined = some (k, args)) (hr : runDirective ctx k args stack D = .ok (stack', D', output))
      (hs : line :: lines = source ++ rest) (h : Rounds ctx stack' D' rest rs E) :
      Rounds ctx stack D (line :: lines) (.directive k source output :: rs) E
  | hidden {stack : List Level} {D E : Defines} {line joined : Line} {lines rest source : List Line}
      {rs : List Round} (ha : allActive stack = false) (hj : joinContinued line lines = (joined, rest))
      (hp : parseDirective joined = none) (hs : line :: lines = source ++ rest) (h : Rounds ctx stack D rest rs E) :
      Rounds ctx stack D (line :: lines) (.hidden source :: rs) E
  | text {stack : List Level} {D E : Defines} {line joined whole : Line} {called : Nat}
      {lines rest rest' source : List Line} {rs : List Round} (ha : allActive stack = true)
      (hj : joinContinued line lines = (joined, rest)) (hp : parseDirective joined = none)
      (hm : joinMacro joined rest = (whole, called, rest')) (hs : line :: lines = source ++ rest')
      (h : Rounds ctx stack D rest' rs E) :
      Rounds ctx stack D (line :: lines) (.text source called (ctx.expand D whole) :: rs) E

variable {ctx : Context} {stack : List Level} {D E : Defines} {lines : List Line} {rs : List Round}

/-- The rounds consume the source line by line. -/
theorem Rounds.source_eq (h : Rounds ctx stack D lines rs E) : rs.flatMap Round.source = lines := by
  induction h with
  | nil => rfl
  | directive hj hp hr hs h ih => rw [List.flatMap_cons, ih, hs]; rfl
  | hidden ha hj hp hs h ih => rw [List.flatMap_cons, ih, hs]; rfl
  | text ha hj hp hm hs h ih => rw [List.flatMap_cons, ih, hs]; rfl

/-- What the rounds append is the output of the loop. -/
theorem Rounds.processLines_eq (h : Rounds ctx stack D lines rs E) :
    processLines ctx stack D lines = .ok (rs.flatMap Round.output, E) := by
  induction h with
  | nil =>
    rw [processLines]
    rfl
  | directive hj hp hr hs h ih =>
    rw [processLines_directive hj hp, hr]
    show Except.map _ (processLines _ _ _ _) = _
    rw [ih]
    rfl
  | hidden ha hj hp hs h ih =>
    rw [processLines_blank ha hj hp, ih]
    rfl
  | text ha hj hp hm hs h ih =>
    rw [processLines_text ha hj hp hm, ih]
    rfl

/-- A loop that does not raise goes through rounds. -/
theorem exists_rounds {out : List Line} (h : processLines ctx stack D lines = .ok (out, E)) :
    ∃ rs, Rounds ctx stack D lines rs E := by
  induction hn : lines.length using Nat.strong_induction_on generalizing lines stack D out with
  | h n ih =>
    cases lines with
    | nil =>
      rw [processLines] at h
      split at h
      · next hstack =>
        cases h
        exact ⟨[], hstack ▸ .nil⟩
      · cases h
    | cons line lines =>
      rw [List.length_cons] at hn
      rcases hj : joinContinued line lines with ⟨joined, rest⟩
      have hrest : rest <:+ line :: lines := by
        have hsuffix := joinContinued_suffix line lines
        rw [hj] at hsuffix
        exact hsuffix.trans (List.suffix_cons _ _)
      have hlt : rest.length < n := by
        have hle := length_joinContinued line lines
        rw [hj] at hle
        exact hn ▸ Nat.lt_succ_of_le hle
      cases hp : parseDirective joined with
      | some d =>
        rw [processLines_directive hj hp] at h
        obtain ⟨r, hr, h⟩ := ok_of_bind h
        obtain ⟨out', h'⟩ := ok_of_map h
        rw [h'] at h
        cases h
        obtain ⟨rs, hrs⟩ := ih _ hlt h' rfl
        obtain ⟨source, hs⟩ := hrest
        exact ⟨_, .directive hj hp hr hs.symm hrs⟩
      | none =>
        cases ha : allActive stack with
        | false =>
          rw [processLines_blank ha hj hp] at h
          obtain ⟨out', h'⟩ := ok_of_map h
          rw [h'] at h
          cases h
          obtain ⟨rs, hrs⟩ := ih _ hlt h' rfl
          obtain ⟨source, hs⟩ := hrest
          exact ⟨_, .hidden ha hj hp hs.symm hrs⟩
        | true =>
          rcases hm : joinMacro joined rest with ⟨whole, called, rest'⟩
          have hrest' : rest' <:+ rest := by
            have hsuffix := joinMacro_suffix joined rest
            rwa [hm] at hsuffix
          rw [processLines_text ha hj hp hm] at h
          obtain ⟨out', h'⟩ := ok_of_map h
          rw [h'] at h
          cases h
          obtain ⟨rs, hrs⟩ := ih _ (lt_of_le_of_lt hrest'.length_le hlt) h' rfl
          obtain ⟨source, hs⟩ := hrest'.trans hrest
          exact ⟨_, .text ha hj hp hm hs.symm hrs⟩

/-! ## What a round does to the line numbers -/

/-- Every directive but an `` `include `` is replaced by one blank line. -/
theorem runDirective_output {stack' : List Level} {k : Keyword} {args : Line} {output : List Line}
    (h : runDirective ctx k args stack D = .ok (stack', E, output)) (hk : k ≠ .include) : output = [[]] := by
  cases k with
  | «include» => exact absurd rfl hk
  | define =>
    rw [runDirective] at h
    split at h
    · cases h
      rfl
    · obtain ⟨D', hD⟩ := ok_of_map h
      rw [hD] at h
      cases h
      rfl
  | _ =>
    simp only [runDirective] at h
    grind

namespace Round

/-- The round prints a line for each line it consumes, less those joined for a backslash, and more by the line breaks
of its expansion; it prints one at least. -/
def Counted (r : Round) : Prop :=
  0 < r.lines.length ∧ r.lines.length + r.continued = r.source.length + r.breaks

theorem counted_blank {k : Keyword} {source : List Line} (h : 0 < source.length) :
    (directive k source [[]]).Counted := by
  show 0 < 1 ∧ 1 + (source.length - 1 - 0) = source.length + 0
  omega

theorem length_lines_text (source : List Line) (n : Nat) (e : Line) :
    (text source n e).lines.length = n + lineCount e := by
  have hblank : ((List.replicate n ([] : Line)).flatMap fun e => e.splitOn '\n').length = n := by
    induction n with
    | zero => rfl
    | succ n ih =>
      rw [List.replicate_succ, List.flatMap_cons, List.length_append, ih]
      exact Nat.add_comm _ _
  rw [lines, output, List.flatMap_append, List.length_append, hblank]
  simp [lineCount]

theorem counted_text {source : List Line} {n : Nat} (e : Line) (h : n < source.length) :
    (text source n e).Counted := by
  rw [Counted, length_lines_text]
  have hpos := lineCount_pos e
  show 0 < n + lineCount e ∧ n + lineCount e + (source.length - 1 - n) = source.length + (lineCount e - 1)
  omega

end Round

/-- A directive consumes its line at least, a text also the lines its macro calls go on to. -/
theorem Rounds.counted (h : Rounds ctx stack D lines rs E) : ∀ r ∈ rs, r.isInclude = false → r.Counted := by
  induction h with
  | nil => exact fun r hr => nomatch hr
  | @directive stack stack' D D' E line joined args k lines rest source output rs hj hp hr hs h ih =>
    intro r hmem hinc
    rcases List.mem_cons.mp hmem with rfl | hmem
    · have hk : k ≠ .include := by
        rintro rfl
        cases hinc
      have hlen := length_joinContinued line lines
      have hsum := congrArg List.length hs
      rw [hj] at hlen
      dsimp only at hlen
      rw [List.length_cons, List.length_append] at hsum
      rw [runDirective_output hr hk]
      exact Round.counted_blank (by omega)
    · exact ih r hmem hinc
  | @hidden stack D E line joined lines rest source rs ha hj hp hs h ih =>
    intro r hmem hinc
    rcases List.mem_cons.mp hmem with rfl | hmem
    · have hlen := length_joinContinued line lines
      have hsum := congrArg List.length hs
      rw [hj] at hlen
      dsimp only at hlen
      rw [List.length_cons, List.length_append] at hsum
      exact @Round.counted_blank .stripped source (by omega)
    · exact ih r hmem hinc
  | @text stack D E line joined whole called lines rest rest' source rs ha hj hp hm hs h ih =>
    intro r hmem hinc
    rcases List.mem_cons.mp hmem with rfl | hmem
    · have hlen := length_joinContinued line lines
      have hcalled := joinMacro_called joined rest
      have hsum := congrArg List.length hs
      rw [hj] at hlen
      rw [hm] at hcalled
      rw [List.length_cons, List.length_append] at hsum
      dsimp only at hlen hcalled
      exact Round.counted_text _ (by omega)
    · exact ih r hmem hinc

/-! ## Sources that keep their line numbers -/

/-- `preprocess`: the text of the output and the definitions left. -/
def preprocess (ctx : Context) (D : Defines) (source : Line) : Except PreprocessorError (Line × Defines) :=
  (processSource ctx D (source.splitOn '\n')).map fun r => (['\n'].intercalate r.1, r.2)

/-- The output has as many lines as the source. Where no macro call goes on to another line, every active text
stands at the line number it has in the source. -/
structure KeepsLines (source out : Line) (rs : List Round) : Prop where
  count : lineCount out = lineCount source
  place : (∀ r ∈ rs, r.called = 0) → ∀ before r after, rs = before ++ r :: after → r.isText = true →
    (before.flatMap Round.lines).length = (before.flatMap Round.source).length

/-- As many lines are joined for a backslash as the expansions have line breaks: in all, and where no macro call goes
on to another line, before every active text. -/
structure Balanced (rs : List Round) : Prop where
  all : (rs.map Round.continued).sum = (rs.map Round.breaks).sum
  before : (∀ r ∈ rs, r.called = 0) → ∀ before r after, rs = before ++ r :: after → r.isText = true →
    (before.map Round.continued).sum = (before.map Round.breaks).sum

/-- The lines printed and consumed by some rounds. -/
theorem length_lines_add {rs : List Round} (h : ∀ r ∈ rs, r.Counted) :
    (rs.flatMap Round.lines).length + (rs.map Round.continued).sum =
      (rs.flatMap Round.source).length + (rs.map Round.breaks).sum := by
  induction rs with
  | nil => rfl
  | cons r rs ih =>
    have hr := (h r List.mem_cons_self).2
    have hrs := ih fun r' hr' => h r' (List.mem_cons_of_mem _ hr')
    rw [List.flatMap_cons, List.flatMap_cons, List.length_append, List.length_append, List.map_cons, List.map_cons,
      List.sum_cons, List.sum_cons]
    omega

theorem length_lines_eq_iff {rs : List Round} (h : ∀ r ∈ rs, r.Counted) :
    (rs.flatMap Round.lines).length = (rs.flatMap Round.source).length ↔
      (rs.map Round.continued).sum = (rs.map Round.breaks).sum := by
  have := length_lines_add h
  omega

/-- Expansions that only break where their text was continued leave the backslashes elsewhere. -/
theorem balanced_iff_of_breaks {rs : List Round} (h : ∀ r ∈ rs, r.isText = true → r.breaks = r.continued) :
    Balanced rs ↔ ∀ r ∈ rs, r.isText = false → r.continued = 0 := by
  have hsum : ∀ rs' : List Round, rs' ⊆ rs → ((∀ r ∈ rs', r.isText = false → r.continued = 0) ↔
      (rs'.map Round.continued).sum = (rs'.map Round.breaks).sum) ∧
      (rs'.map Round.breaks).sum ≤ (rs'.map Round.continued).sum := by
    intro rs' hsub
    induction rs' with
    | nil => simp
    | cons r rs' ih =>
      obtain ⟨hiff, hle⟩ := ih fun x hx => hsub (List.mem_cons_of_mem _ hx)
      have hr := h r (hsub List.mem_cons_self)
      have hbreaks : r.isText = false → r.breaks = 0 := by
        intro ht
        cases r <;> first | rfl | cases ht
      rw [List.forall_mem_cons, hiff, List.map_cons, List.map_cons, List.sum_cons, List.sum_cons]
      cases ht : r.isText with
      | false =>
        have := hbreaks ht
        constructor
        · constructor
          · rintro ⟨hc, hs⟩
            have := hc rfl
            omega
          · exact fun hs => ⟨fun _ => by omega, by omega⟩
        · omega
      | true =>
        have := hr ht
        constructor
        · constructor
          · rintro ⟨-, hs⟩
            omega
          · exact fun hs => ⟨fun hf => absurd hf.symm Bool.false_ne_true, by omega⟩
        · omega
  constructor
  · exact fun hb => (hsum rs (List.Subset.refl _)).1.mpr hb.all
  · refine fun hc => ⟨(hsum rs (List.Subset.refl _)).1.mp hc, fun _ before r after hrs _ => ?_⟩
    have hsub : before ⊆ rs := by
      rw [hrs]
      exact List.subset_append_left _ _
    exact (hsum before hsub).1.mp fun r' hr' => hc r' (hsub hr')

/-- A definition on one line, and a text behind it. -/
def defineLine : Line := "`define A 1\nx".toList

/-- The same definition on two lines. -/
def defineLines : Line := "`define A \\\n1\nx".toList

theorem rounds_defineLine : Rounds plainContext [] (fun _ => none) (defineLine.splitOn '\n')
      [.directive .define ["`define A 1".toList] [[]], .text ["x".toList] 0 "x".toList]
      (Function.update (fun _ => none) "A".toList (some ⟨none, "1".toList⟩)) := by
  have hlines : defineLine.splitOn '\n' = ["`define A 1".toList, "x".toList] := by decide
  rw [hlines]
  exact .directive rfl (show parseDirective _ = some (.define, " A 1".toList) by decide) rfl rfl
    (.text rfl rfl (by decide) rfl rfl .nil)

theorem rounds_defineLines : Rounds plainContext [] (fun _ => none) (defineLines.splitOn '\n')
      [.directive .define ["`define A \\".toList, "1".toList] [[]], .text ["x".toList] 0 "x".toList]
      (Function.update (fun _ => none) "A".toList (some ⟨none, "1".toList⟩)) := by
  have hlines : defineLines.splitOn '\n' = ["`define A \\".toList, "1".toList, "x".toList] := by decide
  rw [hlines]
  exact .directive rfl (show parseDirective _ = some (.define, " A \n1".toList) by decide) rfl rfl
    (.text rfl rfl (by decide) rfl rfl .nil)

theorem preprocess_defineLine : preprocess plainContext (fun _ => none) defineLine =
      .ok ("\nx".toList, Function.update (fun _ => none) "A".toList (some ⟨none, "1".toList⟩)) := by
  rw [preprocess, processSource, rounds_defineLine.processLines_eq]
  rfl

end Veriforge.Preprocessor

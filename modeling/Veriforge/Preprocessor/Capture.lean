import Mathlib.Logic.Function.Iterate
import Veriforge.Preprocessor.Arguments
import Veriforge.Preprocessor.Substitution

/-! # Expansion without capture

The expansion that is meant puts the arguments of a call in the place of whole identifiers, all at once, and repeats
that until no use of a macro is left. -/

namespace Veriforge.Preprocessor

/-! ## The expansion that is meant -/

/-- A call with its arguments substituted, where it is closed and has an argument for every parameter. -/
def substituteCall (params : List Line) (body inner : Line) : Option (Line × Line) :=
  (splitArgs none [] [] inner).bind fun r =>
    if r.1.length = params.length ∨ (params = [] ∧ r.1 = [[]]) then some (substitute params r.1 body, r.2)
    else none

/-- One pass of substitutions. -/
def substitutePass (D : Defines) (line : Line) : Line := expandPass substituteCall D line

/-- No use of a macro is left in a line. -/
def IsExpanded (D : Defines) (line : Line) : Prop :=
  ∀ piece ∈ macroPieces substituteCall D line.length line, ∃ s, piece = .text s

/-- A line expands to another: passes lead there, and no use is left. -/
def Expands (D : Defines) (line out : Line) : Prop :=
  ∃ n, (substitutePass D)^[n] line = out ∧ IsExpanded D out

/-! ## Calls without capture -/

/-- A call that is closed and has an argument for every parameter, whose quotes are plain, and whose parameters are
found at identifiers of the body only. -/
def CleanCall (params : List Line) (body inner : Line) : Prop :=
  ∃ args rest, splitArgs none [] [] inner = some (args, rest) ∧
    (args.length = params.length ∨ (params = [] ∧ args = [[]])) ∧
    plainQuotes none '(' (inner.take (inner.length - rest.length)) = true ∧
    CaptureFree (identifiers body) [] (params.zip args)

/-- All calls on a line are so. -/
def CleanLine (D : Defines) (line : Line) : Prop :=
  ∀ params body inner out, .call params body inner out ∈ macroPieces substituteCall D line.length line →
    CleanCall params body inner

/-- The source expands such a call as it is meant. -/
theorem expandCall_eq {params : List Line} {body inner : Line} (h : CleanCall params body inner) :
    expandCall params body inner = substituteCall params body inner := by
  obtain ⟨args, rest, hsplit, hcount, hquotes, hfree⟩ := h
  have hparse : parseMacroArgs inner = (args, rest) :=
    parseArgs_eq hsplit hquotes (by rintro ⟨⟩) (by rintro o ⟨⟩)
  rw [expandCall, hparse, replaceParams_eq hfree, substituteCall, hsplit]
  exact (if_pos hcount).symm

section

variable {D : Defines}

theorem macroStep_congr {call call' : List Line → Line → Line → Option (Line × Line)} {c : Char} {s : Line}
    (h : ∀ params body inner out, (macroStep call' D c s).1 = .call params body inner out →
      call params body inner = call' params body inner) :
    macroStep call D c s = macroStep call' D c s := by
  rw [macroStep] at h ⊢
  rw [macroStep]
  by_cases hc : c = '`' ∧ startsName s = true
  · rw [if_pos hc] at h ⊢
    rw [if_pos hc]
    by_cases hk : (keywords.lookup (s.takeWhile isWord)).isSome = true
    · simp only [if_pos hk]
    · simp only [if_neg hk] at h ⊢
      cases hD : D (s.takeWhile isWord) with
      | none => rfl
      | some m =>
        obtain ⟨params, body⟩ := m
        cases params with
        | none => rfl
        | some params =>
          rw [hD] at h
          simp only at h ⊢
          by_cases hp : (s.dropWhile isWord).head? = some '('
          · rw [if_pos hp] at h ⊢
            rw [if_pos hp]
            have hcall : call params body (s.dropWhile isWord).tail
                = call' params body (s.dropWhile isWord).tail := by
              cases hr : call' params body (s.dropWhile isWord).tail with
              | none =>
                rw [hr] at h
                rw [h _ _ _ _ rfl, hr]
              | some r =>
                rw [hr] at h
                rw [h _ _ _ _ rfl, hr]
            rw [hcall]
          · rw [if_neg hp, if_neg hp]
  · rw [if_neg hc, if_neg hc]

theorem macroPieces_congr {call call' : List Line → Line → Line → Option (Line × Line)} {n : Nat} {line : Line}
    (h : ∀ params body inner out, .call params body inner out ∈ macroPieces call' D n line →
      call params body inner = call' params body inner) :
    macroPieces call D n line = macroPieces call' D n line := by
  induction n generalizing line with
  | zero => rfl
  | succ n ih =>
    cases line with
    | nil => rfl
    | cons c s =>
      rw [macroPieces] at h
      have hstep : macroStep call D c s = macroStep call' D c s := macroStep_congr fun params body inner out he =>
        h params body inner out (by rw [he]; exact List.mem_cons_self)
      rw [macroPieces, macroPieces, hstep,
        ih fun params body inner out hm => h params body inner out (List.mem_cons_of_mem _ hm)]

/-- On lines of such calls a pass of the source is a pass of substitutions. -/
theorem expandMacrosOnce_eq {line : Line} (h : CleanLine D line) :
    expandMacrosOnce D line = substitutePass D line := by
  rw [expandMacrosOnce, substitutePass, expandPass, expandPass,
    macroPieces_congr fun params body inner out hm => expandCall_eq (h params body inner out hm)]

/-! ## Lines that are expanded -/

variable {call : List Line → Line → Line → Option (Line × Line)}

/-- Text that a step keeps is a part of the line. -/
theorem macroStep_text {c : Char} {s t : Line} (h : (macroStep call D c s).1 = .text t) :
    t ≠ [] ∧ t ++ (macroStep call D c s).2 = c :: s := by
  have hkept : c :: s.takeWhile isWord ≠ [] ∧ c :: s.takeWhile isWord ++ s.dropWhile isWord = c :: s := by
    rw [List.cons_append, List.takeWhile_append_dropWhile]
    exact ⟨List.cons_ne_nil _ _, rfl⟩
  rw [macroStep] at h ⊢
  by_cases hc : c = '`' ∧ startsName s = true
  · rw [if_pos hc] at h ⊢
    by_cases hk : (keywords.lookup (s.takeWhile isWord)).isSome = true
    · simp only [if_pos hk] at h ⊢
      cases h
      exact hkept
    · simp only [if_neg hk] at h ⊢
      cases hD : D (s.takeWhile isWord) with
      | none =>
        rw [hD] at h
        cases h
        exact hkept
      | some m =>
        obtain ⟨params, body⟩ := m
        rw [hD] at h
        cases params with
        | none => cases h
        | some params =>
          simp only at h ⊢
          by_cases hp : (s.dropWhile isWord).head? = some '('
          · rw [if_pos hp] at h
            cases hr : call params body (s.dropWhile isWord).tail with
            | none => rw [hr] at h; cases h
            | some r => rw [hr] at h; cases h
          · rw [if_neg hp] at h ⊢
            cases h
            exact hkept
  · rw [if_neg hc] at h ⊢
    cases h
    exact ⟨List.cons_ne_nil _ _, rfl⟩

theorem flatMap_out_of_text {n : Nat} {line : Line} (hn : line.length ≤ n)
    (h : ∀ piece ∈ macroPieces call D n line, ∃ s, piece = .text s) :
    (macroPieces call D n line).flatMap MacroPiece.out = line := by
  induction n generalizing line with
  | zero => rw [List.length_eq_zero_iff.mp (Nat.le_zero.mp hn)]; rfl
  | succ n ih =>
    cases line with
    | nil => rfl
    | cons c s =>
      rw [macroPieces] at h ⊢
      obtain ⟨t, ht⟩ := h _ List.mem_cons_self
      obtain ⟨hne, hline⟩ := macroStep_text ht
      have hlen : (macroStep call D c s).2.length ≤ n := by
        have hl := congrArg List.length hline
        have hpos := List.length_pos_iff.mpr hne
        rw [List.length_append, List.length_cons] at hl
        rw [List.length_cons] at hn
        omega
      rw [List.flatMap_cons, ih hlen fun piece hp => h piece (List.mem_cons_of_mem _ hp), ht]
      exact hline

/-- A line without uses is left as it is. -/
theorem substitutePass_of_expanded {line : Line} (h : IsExpanded D line) : substitutePass D line = line :=
  flatMap_out_of_text le_rfl h

/-- A line without a backtick has no uses. -/
theorem isExpanded_of_not_mem {line : Line} (h : '`' ∉ line) : IsExpanded D line := by
  have hgen : ∀ n (line : Line), '`' ∉ line → ∀ piece ∈ macroPieces substituteCall D n line, ∃ s, piece = .text s := by
    intro n
    induction n with
    | zero => rintro line - piece ⟨⟩
    | succ n ih =>
      intro line hl piece hp
      cases line with
      | nil => cases hp
      | cons c s =>
        have hstep : macroStep substituteCall D c s = (.text [c], s) :=
          if_neg fun hc : c = '`' ∧ startsName s = true => hl (hc.1 ▸ List.mem_cons_self)
        rw [macroPieces, hstep] at hp
        rcases List.mem_cons.mp hp with rfl | hp
        · exact ⟨[c], rfl⟩
        · exact ih s (fun hm => hl (List.mem_cons_of_mem _ hm)) piece hp
  exact hgen _ line h

/-! ## Passes -/

/-- Stopping where a pass changes nothing is no different from going on. -/
theorem expandLoop_eq (n : Nat) (line : Line) : expandLoop D n line = (expandMacrosOnce D)^[n] line := by
  induction n generalizing line with
  | zero => rfl
  | succ n ih =>
    rw [expandLoop, Function.iterate_succ_apply]
    by_cases h : expandMacrosOnce D line = line
    · rw [if_pos h, h, Function.iterate_fixed h]
    · rw [if_neg h, ih]

theorem iterate_eq {n : Nat} {line : Line} (h : ∀ k < n, CleanLine D ((substitutePass D)^[k] line)) :
    (expandMacrosOnce D)^[n] line = (substitutePass D)^[n] line := by
  induction n with
  | zero => rfl
  | succ n ih =>
    rw [Function.iterate_succ_apply', Function.iterate_succ_apply',
      ih fun k hk => h k (Nat.lt_succ_of_lt hk), expandMacrosOnce_eq (h n (Nat.lt_succ_self n))]

/-- What `_expand_macros` returns on lines of such calls. -/
theorem expandMacros_eq {line : Line} (h : ∀ k < 64, CleanLine D ((substitutePass D)^[k] line)) :
    expandMacros D line = (substitutePass D)^[64] line := by
  rw [expandMacros]
  by_cases hb : '`' ∉ line
  · rw [if_pos hb, Function.iterate_fixed (substitutePass_of_expanded (isExpanded_of_not_mem hb))]
  · rw [if_neg hb, expandLoop_eq, iterate_eq h]

theorem iterate_succ_of_expanded {line out : Line} (h : substitutePass D line = out) (hout : IsExpanded D out)
    (k : Nat) : (substitutePass D)^[k + 1] line = out := by
  rw [Function.iterate_succ_apply, h, Function.iterate_fixed (substitutePass_of_expanded hout)]

end

/-! ## Instances -/

/-- A table of one macro `F` with the parameter `a`. -/
def oneMacro (body : Line) : Defines := fun name => if name = ['F'] then some ⟨some [['a']], body⟩ else none

end Veriforge.Preprocessor

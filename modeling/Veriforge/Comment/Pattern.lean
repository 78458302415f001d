import Veriforge.Scan

/-! # Comments and string literals

The pattern `//[^\n]*|/\*[\s\S]*?\*/` that every reader of source text cuts comments with, and the lexical
analysis in which string literals are tokens beside the comments. -/

namespace Veriforge

/-! ## Comments -/

/-- A text up to its first `*/`. -/
def closeBlock : Line → Option Line
  | [] => none
  | [_] => none
  | c :: c' :: cs =>
      if c = '*' ∧ c' = '/' then some [c, c'] else (closeBlock (c' :: cs)).map (c :: ·)

/-- A line comment ends before the newline, a block comment with the first `*/`. -/
def findComment : Line → Option Line
  | [] => none
  | [_] => none
  | c :: c' :: cs =>
      if c = '/' ∧ c' = '/' then some (c :: c' :: cs.takeWhile (· ≠ '\n'))
      else if c = '/' ∧ c' = '*' then (closeBlock cs).map fun m => c :: c' :: m
      else none

theorem closeBlock_isPrefix {s m : Line} (h : closeBlock s = some m) : m <+: s := by
  induction s generalizing m with
  | nil => cases h
  | cons c s ih =>
    cases s with
    | nil => cases h
    | cons c' s =>
      rw [closeBlock] at h
      split at h
      · cases h
        exact ⟨s, rfl⟩
      · obtain ⟨m', hm', rfl⟩ := Option.map_eq_some_iff.mp h
        exact List.cons_prefix_cons.mpr ⟨rfl, ih hm'⟩

/-- A block is closed where its text holds a `*/`. -/
theorem closeBlock_eq_none_iff {s : Line} : closeBlock s = none ↔ ¬ ['*', '/'] <:+: s := by
  induction s with
  | nil => simp [closeBlock]
  | cons c s ih =>
    cases s with
    | nil => simp [closeBlock, List.infix_cons_iff]
    | cons c' s =>
      rw [closeBlock, List.infix_cons_iff, not_or, List.cons_prefix_cons, List.cons_prefix_cons]
      split
      · next hc => simp [hc.1, hc.2]
      · next hc =>
        rw [Option.map_eq_none_iff, ih]
        refine ⟨fun hs => ⟨fun hp => hc ⟨hp.1.symm, hp.2.1.symm⟩, hs⟩, And.right⟩

theorem findComment_cases {s m : Line} (h : findComment s = some m) :
    (∃ cs, s = '/' :: '/' :: cs ∧ m = '/' :: '/' :: cs.takeWhile (· ≠ '\n')) ∨
      ∃ cs body, s = '/' :: '*' :: cs ∧ closeBlock cs = some body ∧ m = '/' :: '*' :: body := by
  match s with
  | [] => cases h
  | [_] => cases h
  | c :: c' :: cs =>
    rw [findComment] at h
    split at h
    · next hc =>
      cases h
      exact .inl ⟨cs, by rw [hc.1, hc.2], by rw [hc.1, hc.2]⟩
    · split at h
      · next hc =>
        obtain ⟨body, hbody, rfl⟩ := Option.map_eq_some_iff.mp h
        exact .inr ⟨cs, body, by rw [hc.1, hc.2], hbody, by rw [hc.1, hc.2]⟩
      · cases h

/-- No comment starts where the text shows no `//`, and no `/*` that a `*/` follows. -/
theorem findComment_eq_none_iff {s : Line} : findComment s = none ↔
      ¬ ['/', '/'] <+: s ∧ (['/', '*'] <+: s → ¬ ['*', '/'] <:+: s.drop 2) := by
  match s with
  | [] => simp [findComment]
  | [_] => simp [findComment]
  | c :: c' :: cs =>
    simp only [findComment, List.cons_prefix_cons, List.nil_prefix, and_true, List.drop_succ_cons, List.drop_zero,
      ← closeBlock_eq_none_iff]
    by_cases hline : c = '/' ∧ c' = '/'
    · rw [if_pos hline]
      simp [hline.1, hline.2]
    · rw [if_neg hline]
      by_cases hblock : c = '/' ∧ c' = '*'
      · rw [if_pos hblock, Option.map_eq_none_iff]
        simp [hblock.1, hblock.2]
      · rw [if_neg hblock]
        refine ⟨fun _ => ⟨fun h => hline ⟨h.1.symm, h.2.symm⟩, fun h => ?_⟩, fun _ => rfl⟩
        exact absurd ⟨h.1.symm, h.2.symm⟩ hblock

/-- `_COMMENT_RE`. -/
def comment : Pattern where
  find := findComment
  ne_nil := by
    intro s m h
    obtain ⟨cs, -, rfl⟩ | ⟨cs, body, -, -, rfl⟩ := findComment_cases h <;> exact List.cons_ne_nil _ _
  isPrefix := by
    intro s m h
    obtain ⟨cs, rfl, rfl⟩ | ⟨cs, body, rfl, hbody, rfl⟩ := findComment_cases h
    · rw [List.cons_prefix_cons, List.cons_prefix_cons]
      exact ⟨rfl, rfl, List.takeWhile_prefix _⟩
    · rw [List.cons_prefix_cons, List.cons_prefix_cons]
      exact ⟨rfl, rfl, closeBlock_isPrefix hbody⟩

theorem head_of_findComment {s m : Line} (h : findComment s = some m) : m.head? = some '/' := by
  obtain ⟨cs, -, rfl⟩ | ⟨cs, body, -, -, rfl⟩ := findComment_cases h <;> rfl

/-! ## String literals -/

/-- A string on one line, from behind its opening quote to its closing one; a backslash escapes the next
character. -/
def closeString : Line → Option Line
  | [] => none
  | [c] => if c = '"' then some [c] else none
  | c :: c' :: cs =>
      if c = '"' then some [c]
      else if c = '\n' then none
      else if c = '\\' then
        if c' = '\n' then none else (closeString cs).map fun m => c :: c' :: m
      else (closeString (c' :: cs)).map (c :: ·)

/-- A string literal. -/
def findString : Line → Option Line
  | c :: cs => if c = '"' then (closeString cs).map (c :: ·) else none
  | [] => none

theorem closeString_isPrefix {s m : Line} (h : closeString s = some m) : m <+: s ∧ m.getLast? = some '"' := by
  induction s using closeString.induct generalizing m with
  | case1 => cases h
  | case2 => cases h; decide
  | case3 c hc => rw [closeString, if_neg hc] at h; cases h
  | case4 c' cs => cases h; exact ⟨⟨_, rfl⟩, rfl⟩
  | case5 c' cs h1 => rw [closeString, if_neg h1, if_pos rfl] at h; cases h
  | case6 cs h1 h2 => rw [closeString, if_neg h1, if_neg h2, if_pos rfl, if_pos rfl] at h; cases h
  | case7 c' cs h1 h2 h3 ih =>
    rw [closeString, if_neg h1, if_neg h2, if_pos rfl, if_neg h3] at h
    obtain ⟨m', hm', rfl⟩ := Option.map_eq_some_iff.mp h
    obtain ⟨hp, hl⟩ := ih hm'
    refine ⟨List.cons_prefix_cons.mpr ⟨rfl, List.cons_prefix_cons.mpr ⟨rfl, hp⟩⟩, ?_⟩
    rw [List.getLast?_cons, List.getLast?_cons, hl]
    rfl
  | case8 c c' cs h1 h2 h3 ih =>
    rw [closeString, if_neg h1, if_neg h2, if_neg h3] at h
    obtain ⟨m', hm', rfl⟩ := Option.map_eq_some_iff.mp h
    obtain ⟨hp, hl⟩ := ih hm'
    refine ⟨List.cons_prefix_cons.mpr ⟨rfl, hp⟩, ?_⟩
    rw [List.getLast?_cons, hl]
    rfl

theorem findString_cases {s m : Line} (h : findString s = some m) :
    ∃ cs body, s = '"' :: cs ∧ closeString cs = some body ∧ m = '"' :: body := by
  match s with
  | [] => cases h
  | c :: cs =>
    rw [findString] at h
    split at h
    · next hc =>
      obtain ⟨body, hbody, rfl⟩ := Option.map_eq_some_iff.mp h
      exact ⟨cs, body, by rw [hc], hbody, by rw [hc]⟩
    · cases h

/-- A string literal starts and ends with a quote. -/
theorem quotes_of_findString {s m : Line} (h : findString s = some m) :
    m.head? = some '"' ∧ m.getLast? = some '"' := by
  obtain ⟨cs, body, -, hbody, rfl⟩ := findString_cases h
  refine ⟨rfl, ?_⟩
  rw [List.getLast?_cons, (closeString_isPrefix hbody).2]
  rfl

/-! ## Tokens -/

/-- A string literal or a comment, whichever starts here. -/
def lexeme : Pattern where
  find s := (findString s).or (findComment s)
  ne_nil := by
    intro s m h
    rcases Option.or_eq_some_iff.mp h with h | ⟨-, h⟩
    · obtain ⟨cs, body, -, -, rfl⟩ := findString_cases h
      exact List.cons_ne_nil _ _
    · exact comment.ne_nil h
  isPrefix := by
    intro s m h
    rcases Option.or_eq_some_iff.mp h with h | ⟨-, h⟩
    · obtain ⟨cs, body, rfl, hbody, rfl⟩ := findString_cases h
      exact List.cons_prefix_cons.mpr ⟨rfl, (closeString_isPrefix hbody).1⟩
    · exact comment.isPrefix h

end Veriforge

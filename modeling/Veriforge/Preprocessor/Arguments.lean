import Veriforge.Preprocessor.Expand

/-! # The arguments of a macro call

Arguments are separated by the commas outside all brackets and string literals. The source counts brackets of each
kind and looks one character back at a quote; on nested brackets and plain quotes that is the same. -/

namespace Veriforge.Preprocessor

/-- A bracket that opens. -/
def opens (c : Char) : Bool := c == '(' || c == '[' || c == '{'

/-- The bracket that a closing one closes. -/
def closes (c : Char) : Option Char :=
  if c = ')' then some '(' else if c = ']' then some '[' else if c = '}' then some '{' else none

/-- The arguments behind an opening parenthesis, and the text behind the one that closes it; none where the brackets
do not nest or the call is not closed. The open brackets are on a stack, and `quoted` says whether a string literal
is open and whether the character before escapes the next. -/
def splitArgs (quoted : Option Bool) (stack : List Char) (current : Line) : Line → Option (List Line × Line)
  | [] => none
  | c :: cs =>
      if quoted = some true then splitArgs (some false) stack (current ++ [c]) cs
      else if quoted = some false then
        splitArgs (if c = '\\' then some true else if c = '"' then none else some false) stack (current ++ [c]) cs
      else if c = '"' then splitArgs (some false) stack (current ++ [c]) cs
      else if opens c then splitArgs none (c :: stack) (current ++ [c]) cs
      else if (closes c).isSome then
        if stack = [] then if c = ')' then some ([strip current], cs) else none
        else if stack.head? = closes c then splitArgs none stack.tail (current ++ [c]) cs
        else none
      else if c = ',' ∧ stack = [] then (splitArgs none [] [] cs).map fun r => (strip current :: r.1, r.2)
      else splitArgs none stack (current ++ [c]) cs

/-- No quote that opens or closes a string literal follows a backslash. -/
def plainQuotes (quoted : Option Bool) (prev : Char) : Line → Bool
  | [] => true
  | c :: cs =>
      if quoted = some true then plainQuotes (some false) c cs
      else if quoted = some false then
        (c != '"' || prev != '\\') &&
          plainQuotes (if c = '\\' then some true else if c = '"' then none else some false) c cs
      else (c != '"' || prev != '\\') && plainQuotes (if c = '"' then some false else none) c cs

/-- What one character can be. -/
theorem splitArgs_cases {quoted : Option Bool} {stack : List Char} {current cs rest : Line} {c : Char}
    {args : List Line} (h : splitArgs quoted stack current (c :: cs) = some (args, rest)) :
    (quoted = some true ∧ splitArgs (some false) stack (current ++ [c]) cs = some (args, rest)) ∨
      (quoted = some false ∧
        splitArgs (if c = '\\' then some true else if c = '"' then none else some false) stack (current ++ [c]) cs
          = some (args, rest)) ∨
      (quoted = none ∧ c = '"' ∧ splitArgs (some false) stack (current ++ [c]) cs = some (args, rest)) ∨
      (quoted = none ∧ opens c = true ∧ splitArgs none (c :: stack) (current ++ [c]) cs = some (args, rest)) ∨
      (quoted = none ∧ c = ')' ∧ stack = [] ∧ args = [strip current] ∧ rest = cs) ∨
      (quoted = none ∧ ∃ o stack', closes c = some o ∧ stack = o :: stack' ∧
        splitArgs none stack' (current ++ [c]) cs = some (args, rest)) ∨
      (quoted = none ∧ c = ',' ∧ stack = [] ∧ ∃ args', args = strip current :: args' ∧
        splitArgs none [] [] cs = some (args', rest)) ∨
      (quoted = none ∧ c ≠ '"' ∧ opens c = false ∧ closes c = none ∧ ¬(c = ',' ∧ stack = []) ∧
        splitArgs none stack (current ++ [c]) cs = some (args, rest)) := by
  rw [splitArgs] at h
  by_cases h1 : quoted = some true
  · rw [if_pos h1] at h
    exact .inl ⟨h1, h⟩
  rw [if_neg h1] at h
  by_cases h2 : quoted = some false
  · rw [if_pos h2] at h
    exact .inr (.inl ⟨h2, h⟩)
  rw [if_neg h2] at h
  have hnone : quoted = none := by
    cases quoted with
    | none => rfl
    | some b => cases b <;> contradiction
  refine .inr (.inr ?_)
  by_cases h3 : c = '"'
  · rw [if_pos h3] at h
    exact .inl ⟨hnone, h3, h⟩
  rw [if_neg h3] at h
  by_cases h4 : opens c = true
  · rw [if_pos h4] at h
    exact .inr (.inl ⟨hnone, h4, h⟩)
  rw [if_neg h4] at h
  refine .inr (.inr ?_)
  by_cases h5 : (closes c).isSome = true
  · rw [if_pos h5] at h
    by_cases h6 : stack = []
    · rw [if_pos h6] at h
      by_cases h7 : c = ')'
      · rw [if_pos h7] at h
        cases h
        exact .inl ⟨hnone, h7, h6, rfl, rfl⟩
      · rw [if_neg h7] at h
        cases h
    · rw [if_neg h6] at h
      by_cases h7 : stack.head? = closes c
      · rw [if_pos h7] at h
        obtain ⟨o, stack', rfl⟩ := List.exists_cons_of_ne_nil h6
        exact .inr (.inl ⟨hnone, o, stack', h7.symm, rfl, h⟩)
      · rw [if_neg h7] at h
        cases h
  rw [if_neg h5] at h
  refine .inr (.inr ?_)
  by_cases h6 : c = ',' ∧ stack = []
  · rw [if_pos h6] at h
    obtain ⟨⟨args', rest'⟩, hr, hargs⟩ := Option.map_eq_some_iff.mp h
    cases hargs
    exact .inl ⟨hnone, h6.1, h6.2, args', rfl, hr⟩
  · rw [if_neg h6] at h
    exact .inr ⟨hnone, h3, Bool.eq_false_iff.mpr h4, Option.not_isSome_iff_eq_none.mp h5, h6, h⟩

theorem splitArgs_length {quoted : Option Bool} {stack : List Char} {current s rest : Line} {args : List Line}
    (h : splitArgs quoted stack current s = some (args, rest)) : rest.length < s.length := by
  induction s generalizing quoted stack current args with
  | nil => cases h
  | cons c cs ih =>
    rw [List.length_cons]
    rcases splitArgs_cases h with ⟨-, h⟩ | ⟨-, h⟩ | ⟨-, -, h⟩ | ⟨-, -, h⟩ | ⟨-, -, -, -, rfl⟩ |
      ⟨-, o, stack', -, -, h⟩ | ⟨-, -, -, args', -, h⟩ | ⟨-, -, -, -, -, h⟩
    · exact Nat.lt_succ_of_lt (ih h)
    · exact Nat.lt_succ_of_lt (ih h)
    · exact Nat.lt_succ_of_lt (ih h)
    · exact Nat.lt_succ_of_lt (ih h)
    · exact Nat.lt_succ_self _
    · exact Nat.lt_succ_of_lt (ih h)
    · exact Nat.lt_succ_of_lt (ih h)
    · exact Nat.lt_succ_of_lt (ih h)

theorem closes_eq_some {c o : Char} (h : closes c = some o) :
    (c = ')' ∧ o = '(') ∨ (c = ']' ∧ o = '[') ∨ (c = '}' ∧ o = '{') := by
  rw [closes] at h
  by_cases h1 : c = ')'
  · rw [if_pos h1] at h
    cases h
    exact .inl ⟨h1, rfl⟩
  rw [if_neg h1] at h
  by_cases h2 : c = ']'
  · rw [if_pos h2] at h
    cases h
    exact .inr (.inl ⟨h2, rfl⟩)
  rw [if_neg h2] at h
  by_cases h3 : c = '}'
  · rw [if_pos h3] at h
    cases h
    exact .inr (.inr ⟨h3, rfl⟩)
  · rw [if_neg h3] at h
    cases h

section

variable {inString : Bool} {prev c : Char} {depth braces brackets : Nat} {current cs : Line}

theorem parseArgs_quote (h : prev ≠ '\\') : parseArgs inString prev depth braces brackets current ('"' :: cs)
      = parseArgs (!inString) '"' depth braces brackets (current ++ ['"']) cs := by
  rw [parseArgs, if_pos ⟨rfl, h⟩]

theorem parseArgs_string (h : c = '"' → prev = '\\') : parseArgs true prev depth braces brackets current (c :: cs)
      = parseArgs true c depth braces brackets (current ++ [c]) cs := by
  rw [parseArgs, if_neg fun hc => hc.2 (h hc.1)]
  exact if_pos rfl

end

theorem eq_nil_of_counts {stack : List Char} (h : ∀ o ∈ stack, opens o = true)
    (hc : stack.count '(' = 0 ∧ stack.count '{' = 0 ∧ stack.count '[' = 0) : stack = [] := by
  cases stack with
  | nil => rfl
  | cons o stack =>
    have ho := h o List.mem_cons_self
    simp only [opens, Bool.or_eq_true, beq_iff_eq] at ho
    rcases ho with (rfl | rfl) | rfl <;> simp at hc

/-- The counters of the source are the numbers of open brackets of each kind. -/
theorem parseArgs_eq {quoted : Option Bool} {stack : List Char} {prev : Char} {current s rest : Line}
    {args : List Line} (h : splitArgs quoted stack current s = some (args, rest))
    (hquotes : plainQuotes quoted prev (s.take (s.length - rest.length)) = true)
    (hprev : quoted = some true → prev = '\\') (hstack : ∀ o ∈ stack, opens o = true) :
    parseArgs quoted.isSome prev (stack.count '(') (stack.count '{') (stack.count '[') current s
      = (args, rest) := by
  induction s generalizing quoted stack prev current args with
  | nil => cases h
  | cons c cs ih =>
    have htake : ∀ {args' : List Line} {q st cur}, splitArgs q st cur cs = some (args', rest) →
        (c :: cs).take ((c :: cs).length - rest.length) = c :: cs.take (cs.length - rest.length) := by
      intro args' q st cur hr
      have hl := splitArgs_length hr
      rw [List.length_cons, Nat.succ_sub (by omega), List.take_succ_cons]
    rcases splitArgs_cases h with ⟨rfl, hs⟩ | ⟨rfl, hs⟩ | ⟨rfl, rfl, hs⟩ | ⟨rfl, hopen, hs⟩ |
      ⟨rfl, rfl, rfl, rfl, rfl⟩ | ⟨rfl, o, stack', hclose, rfl, hs⟩ | ⟨rfl, rfl, rfl, args', rfl, hs⟩ |
      ⟨rfl, hq, hopen, hclose, hcomma, hs⟩
    · rw [htake hs, plainQuotes, if_pos rfl] at hquotes
      exact (parseArgs_string fun _ => hprev rfl).trans (ih hs hquotes (by rintro ⟨⟩) hstack)
    · rw [htake hs, plainQuotes, if_neg (by decide), if_pos rfl, Bool.and_eq_true] at hquotes
      by_cases hq : c = '"'
      · subst hq
        have hne : prev ≠ '\\' := by simpa using hquotes.1
        exact (parseArgs_quote hne).trans (ih hs hquotes.2 (by rintro ⟨⟩) hstack)
      · have hrest := ih hs hquotes.2
        rw [if_neg hq] at hrest
        by_cases hb : c = '\\'
        · rw [if_pos hb] at hrest
          exact (parseArgs_string fun he => absurd he hq).trans (hrest (fun _ => hb) hstack)
        · rw [if_neg hb] at hrest
          exact (parseArgs_string fun he => absurd he hq).trans (hrest (by rintro ⟨⟩) hstack)
    · rw [htake hs, plainQuotes, if_neg (by decide), if_neg (by decide), Bool.and_eq_true, if_pos rfl] at hquotes
      have hne : prev ≠ '\\' := by simpa using hquotes.1
      exact (parseArgs_quote hne).trans (ih hs hquotes.2 (by rintro ⟨⟩) hstack)
    · have hq : c ≠ '"' := by
        rintro rfl
        cases hopen
      rw [htake hs, plainQuotes, if_neg (by decide), if_neg (by decide), Bool.and_eq_true, if_neg hq] at hquotes
      have hrest := ih hs hquotes.2 (by rintro ⟨⟩) (List.forall_mem_cons.mpr ⟨hopen, hstack⟩)
      simp only [opens, Bool.or_eq_true, beq_iff_eq] at hopen
      rcases hopen with (rfl | rfl) | rfl <;> simpa [parseArgs] using hrest
    · simp [parseArgs]
    · have hq : c ≠ '"' := by
        rintro rfl
        cases hclose
      rw [htake hs, plainQuotes, if_neg (by decide), if_neg (by decide), Bool.and_eq_true, if_neg hq] at hquotes
      have hrest := ih hs hquotes.2 (by rintro ⟨⟩) fun o ho => hstack o (List.mem_cons_of_mem _ ho)
      rcases closes_eq_some hclose with ⟨rfl, rfl⟩ | ⟨rfl, rfl⟩ | ⟨rfl, rfl⟩ <;>
        simpa [parseArgs] using hrest
    · rw [htake hs, plainQuotes, if_neg (by decide), if_neg (by decide), Bool.and_eq_true, if_neg (by decide)]
        at hquotes
      have hrest : parseArgs false ',' 0 0 0 [] cs = (args', rest) := ih hs hquotes.2 (by rintro ⟨⟩) hstack
      simp [parseArgs, hrest]
    · rw [htake hs, plainQuotes, if_neg (by decide), if_neg (by decide), Bool.and_eq_true, if_neg hq] at hquotes
      have hrest := ih hs hquotes.2 (by rintro ⟨⟩) hstack
      have hkeep : ¬(c = ',' ∧ stack.count '(' = 0 ∧ stack.count '{' = 0 ∧ stack.count '[' = 0) := fun hc =>
        hcomma ⟨hc.1, eq_nil_of_counts hstack hc.2⟩
      simp only [opens, Bool.or_eq_false_iff, beq_eq_false_iff_ne] at hopen
      have hc1 : c ≠ ')' := by rintro rfl; cases hclose
      have hc2 : c ≠ ']' := by rintro rfl; cases hclose
      have hc3 : c ≠ '}' := by rintro rfl; cases hclose
      rw [parseArgs, if_neg fun h => hq h.1, if_neg (by decide), if_neg hopen.1.1, if_neg fun h => hc1 h.1,
        if_neg fun h => hc1 h.1, if_neg hopen.2, if_neg hc3, if_neg hopen.1.2, if_neg hc2, if_neg hkeep]
      exact hrest

end Veriforge.Preprocessor

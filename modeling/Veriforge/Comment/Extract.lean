import Veriforge.Positions
import Veriforge.Comment.Pattern

/-! # Extraction of comments

`extract_comments` and `_strip_comments` blank what the comment pattern matches. The pattern knows no string
literals: the texts where that makes no difference are those whose literals hold no comment opener. -/

namespace Veriforge

/-! ## What is extracted -/

/-- `//` or `/* */`. -/
inductive CommentKind
  | line | block
  deriving DecidableEq

/-- A captured comment, with its location. -/
structure Comment where
  text : Line
  kind : CommentKind
  line : Nat
  column : Nat
  endLine : Nat
  endColumn : Nat
  deriving DecidableEq

/-- `prefix.rfind("\n")` -/
def lastNewline : Line → Option Nat
  | [] => none
  | c :: cs =>
      match lastNewline cs with
      | some k => some (k + 1)
      | none => if c = '\n' then some 0 else none

/-- The column behind a text. -/
def columnAfter (s : Line) : Nat :=
  match lastNewline s with
  | some k => s.length - k
  | none => s.length + 1

/-- The comment whose text `raw` starts at an offset. -/
def captureComment (source : Line) (start : Nat) (raw : Line) : Comment where
  text := strip (if ['/', '/'].isPrefixOf raw then raw.drop 2 else (raw.drop 2).take (raw.length - 4))
  kind := if ['/', '/'].isPrefixOf raw then .line else .block
  line := (source.take start).count '\n' + 1
  column := columnAfter (source.take start)
  endLine := (source.take (start + raw.length)).count '\n' + 1
  endColumn := columnAfter (source.take (start + raw.length))

/-- `re.sub(r"[^\n]", " ", raw)` -/
def blank (raw : Line) : Line := raw.map fun c => if c = '\n' then c else ' '

/-- The comments among pieces that start at an offset. -/
def captureFrom (source : Line) : Nat → List Piece → List Comment
  | _, [] => []
  | n, .char _ :: ps => captureFrom source (n + 1) ps
  | n, .found raw :: ps => captureComment source n raw :: captureFrom source (n + raw.length) ps

/-- `extract_comments` -/
def extractComments (source : Line) : Line × List Comment :=
  (comment.sub blank source, captureFrom source 0 (comment.cut source))

/-- `_strip_comments` -/
def stripComments (source : Line) : Line := comment.sub blank source

/-! ## What the comments of a text are -/

/-- A token that is a comment. -/
def Piece.isComment : Piece → Bool
  | .char _ => false
  | .found m => m.head? == some '/'

/-- For every character, whether it belongs to a comment. -/
def inComment (ps : List Piece) : List Bool := ps.flatMap fun p => p.text.map fun _ => p.isComment

/-- The comment that stands behind a text. -/
def commentBehind (before raw : Line) : Comment where
  text := strip (if ['/', '/'].isPrefixOf raw then raw.drop 2 else (raw.drop 2).take (raw.length - 4))
  kind := if ['/', '/'].isPrefixOf raw then .line else .block
  line := (endOf before).line + 1
  column := (endOf before).character + 1
  endLine := (endOf (before ++ raw)).line + 1
  endColumn := (endOf (before ++ raw)).character + 1

/-- The comments among the tokens behind a text. -/
def commentsBehind : Line → List Piece → List Comment
  | _, [] => []
  | before, p :: ps =>
      if p.isComment then commentBehind before p.text :: commentsBehind (before ++ p.text) ps
      else commentsBehind (before ++ p.text) ps

/-- `out` and `comments` are the text with its comments taken out, and exactly these comments. -/
structure Extracted (source out : Line) (comments : List Comment) : Prop where
  length : out.length = source.length
  newlines : ∀ i : Nat, out[i]? = some '\n' ↔ source[i]? = some '\n'
  outside : ∀ i : Nat, (inComment (lexeme.cut source))[i]? = some false → out[i]? = source[i]?
  inside : ∀ (i : Nat) c, (inComment (lexeme.cut source))[i]? = some true → source[i]? = some c → c ≠ '\n' →
    out[i]? = some ' '
  comments : comments = commentsBehind [] (lexeme.cut source)

/-! ## String literals without a comment opener -/

/-- No `//` in a string literal, and no `/*` with a `*/` anywhere behind it. -/
def Clear (literal rest : Line) : Prop :=
  ∀ p q, literal = p ++ q → ¬ ['/', '/'] <+: q ∧ (['/', '*'] <+: q → ¬ ['*', '/'] <:+: q.drop 2 ++ rest)

/-- The string literals among the tokens of a text open no comment. -/
def StringsClear : List Piece → Prop
  | [] => True
  | .char _ :: ps => StringsClear ps
  | .found m :: ps => (m.head? = some '"' → Clear m (textOf ps)) ∧ StringsClear ps

/-! ## Locations -/

theorem lastNewline_append_singleton (s : Line) (c : Char) :
    lastNewline (s ++ [c]) = if c = '\n' then some s.length else lastNewline s := by
  induction s with
  | nil => rfl
  | cons d s ih =>
    rw [List.cons_append, lastNewline, ih]
    split
    · next h =>
      split at h
      · next hc => rw [if_pos hc, List.length_cons, ← Option.some.inj h]
      · next hc => rw [if_neg hc, lastNewline, h]
    · next h =>
      split at h
      · cases h
      · next hc => rw [if_neg hc, lastNewline, h]

theorem lastNewline_lt {s : Line} {k : Nat} (h : lastNewline s = some k) : k < s.length := by
  induction s using List.reverseRecOn with
  | nil => cases h
  | append_singleton s c ih =>
    rw [lastNewline_append_singleton] at h
    rw [List.length_append, List.length_singleton]
    split at h
    · cases h
      omega
    · have := ih h
      omega

/-- The column is one more than the characters behind the last newline. -/
theorem columnAfter_eq (s : Line) : columnAfter s = (endOf s).character + 1 := by
  induction s using List.reverseRecOn with
  | nil => rfl
  | append_singleton s c ih =>
    rw [columnAfter, lastNewline_append_singleton, endOf_append_singleton, Position.advance, List.length_append,
      List.length_singleton]
    by_cases hc : c = '\n'
    · rw [if_pos hc, if_pos hc]
      exact Nat.add_sub_cancel_left _ _
    · rw [if_neg hc, if_neg hc]
      show _ = (endOf s).character + 1 + 1
      rw [← ih, columnAfter]
      cases h : lastNewline s with
      | none => rfl
      | some k =>
        have := lastNewline_lt h
        show s.length + 1 - k = s.length - k + 1
        omega

theorem captureComment_eq {source before raw rest : Line} (h : source = before ++ raw ++ rest) :
    captureComment source before.length raw = commentBehind before raw := by
  have hstart : source.take before.length = before := by
    rw [h, List.append_assoc, List.take_left']
    rfl
  have hend : source.take (before.length + raw.length) = before ++ raw := by
    rw [h, ← List.length_append, List.take_left']
    rfl
  rw [captureComment, commentBehind, hstart, hend]
  simp only [columnAfter_eq, endOf_line]

/-! ## The two scans compared -/

/-- The pieces that remain when string literals are taken character by character. -/
def withoutStrings : List Piece → List Piece
  | [] => []
  | .char c :: ps => .char c :: withoutStrings ps
  | .found m :: ps =>
      if m.head? = some '/' then .found m :: withoutStrings ps else m.map .char ++ withoutStrings ps

theorem not_comment_of_lexeme {s : Line} (h : lexeme.find s = none) : comment.find s = none :=
  (Option.or_eq_none_iff.mp h).2

/-- A token is a string literal or a comment. -/
theorem lexeme_cases {s m : Line} (h : lexeme.find s = some m) :
    (m.head? = some '"' ∧ m.getLast? = some '"') ∨ (m.head? = some '/' ∧ comment.find s = some m) := by
  rcases Option.or_eq_some_iff.mp h with h | ⟨-, h⟩
  · exact .inl (quotes_of_findString h)
  · exact .inr ⟨head_of_findComment h, h⟩

/-- A literal is clear when the pattern finds nothing from any of its characters on. -/
theorem clear_iff {m rest : Line} (hm : m.getLast? = some '"') :
    Clear m rest ↔ ∀ p q, m = p ++ q → q ≠ [] → comment.find (q ++ rest) = none := by
  have hq : ∀ p q, m = p ++ q → q ≠ [] → (comment.find (q ++ rest) = none ↔
      ¬ ['/', '/'] <+: q ∧ (['/', '*'] <+: q → ¬ ['*', '/'] <:+: q.drop 2 ++ rest)) := by
    intro p q hpq hne
    rw [hpq, List.getLast?_append_of_ne_nil _ hne] at hm
    rw [show comment.find (q ++ rest) = none ↔ _ from findComment_eq_none_iff]
    match q with
    | [] => exact absurd rfl hne
    | [c] =>
      obtain rfl : c = '"' := by simpa using hm
      have hslash : ¬ '/' = '"' := by decide
      simp [hslash]
    | c :: c' :: q => simp
  constructor
  · exact fun h p q hpq hne => (hq p q hpq hne).mpr (h p q hpq)
  · intro h p q hpq
    cases q with
    | nil => simp
    | cons c q => exact (hq p (c :: q) hpq (List.cons_ne_nil _ _)).mp (h p (c :: q) hpq (List.cons_ne_nil _ _))

/-- Where the literals are clear the pattern finds the comments. -/
theorem cut_eq_withoutStrings {s : Line} (h : StringsClear (lexeme.cut s)) :
    comment.cut s = withoutStrings (lexeme.cut s) := by
  induction s using lexeme.scan_induction with
  | nil => rfl
  | char c cs hf ih =>
    rw [Pattern.cut_char hf] at h ⊢
    rw [Pattern.cut_char (not_comment_of_lexeme hf), withoutStrings, ih h]
  | found m rest hf ih =>
    rw [Pattern.cut_found hf] at h ⊢
    rw [withoutStrings, ← ih h.2]
    rcases lexeme_cases hf with ⟨hhead, hlast⟩ | ⟨hhead, hc⟩
    · have hclear := h.1 hhead
      rw [Pattern.textOf_cut] at hclear
      rw [if_neg (by rw [hhead]; decide), Pattern.cut_chars ((clear_iff hlast).mp hclear)]
    · rw [if_pos hhead, Pattern.cut_found hc]

/-! ## The text that is left -/

/-- A character of a comment is blanked, any other is kept. -/
def overlay (c : Char) (hidden : Bool) : Char := if hidden = true ∧ c ≠ '\n' then ' ' else c

theorem length_inComment (ps : List Piece) : (inComment ps).length = (textOf ps).length := by
  induction ps with
  | nil => rfl
  | cons p ps ih =>
    rw [inComment, List.flatMap_cons, List.length_append, List.length_map, textOf_cons, List.length_append, ← ih]
    rfl

theorem inComment_cons (p : Piece) (ps : List Piece) :
    inComment (p :: ps) = (p.text.map fun _ => p.isComment) ++ inComment ps := rfl

theorem overlay_false (s : Line) : List.zipWith overlay s (s.map fun _ => false) = s := by
  induction s with
  | nil => rfl
  | cons c s ih => rw [List.map_cons, List.zipWith_cons_cons, ih]; rfl

theorem overlay_true (s : Line) : List.zipWith overlay s (s.map fun _ => true) = blank s := by
  induction s with
  | nil => rfl
  | cons c s ih =>
    rw [List.map_cons, List.zipWith_cons_cons, ih, blank, blank, List.map_cons, overlay]
    by_cases hc : c = '\n' <;> simp [hc]

/-- The blanked text, character by character. -/
theorem blank_withoutStrings (ps : List Piece) :
    (withoutStrings ps).flatMap (Piece.replace blank) = List.zipWith overlay (textOf ps) (inComment ps) := by
  induction ps with
  | nil => rfl
  | cons p ps ih =>
    rw [textOf_cons, inComment_cons, List.zipWith_append (by rw [List.length_map]), ← ih]
    cases p with
    | char c => exact congrArg (· ++ _) (overlay_false [c]).symm
    | found m =>
      rw [withoutStrings]
      by_cases hm : m.head? = some '/'
      · rw [if_pos hm, List.flatMap_cons, show (Piece.found m).isComment = true from beq_iff_eq.mpr hm,
          Piece.text_found, overlay_true]
        rfl
      · rw [if_neg hm, replace_map_char, show (Piece.found m).isComment = false from beq_eq_false_iff_ne.mpr hm,
          Piece.text_found, overlay_false]

theorem captureFrom_map_char (source : Line) (s : Line) (n : Nat) (ps : List Piece) :
    captureFrom source n (s.map Piece.char ++ ps) = captureFrom source (n + s.length) ps := by
  induction s generalizing n with
  | nil => rfl
  | cons c s ih =>
    rw [List.map_cons, List.cons_append, captureFrom, ih, List.length_cons, Nat.add_assoc, Nat.add_comm 1]

/-- The captured comments are those among the tokens. -/
theorem captureFrom_withoutStrings {source before : Line} {ps : List Piece} (h : source = before ++ textOf ps) :
    captureFrom source before.length (withoutStrings ps) = commentsBehind before ps := by
  induction ps generalizing before with
  | nil => rfl
  | cons p ps ih =>
    rw [textOf_cons, ← List.append_assoc] at h
    have ih := ih h
    rw [List.length_append] at ih
    cases p with
    | char c => exact ih
    | found m =>
      rw [withoutStrings, commentsBehind]
      by_cases hm : m.head? = some '/'
      · rw [if_pos hm, if_pos (show (Piece.found m).isComment = true from beq_iff_eq.mpr hm), captureFrom,
          show captureComment source before.length m = commentBehind before m from captureComment_eq h]
        exact congrArg _ ih
      · rw [if_neg hm, if_neg (by rw [Piece.isComment, beq_eq_false_iff_ne.mpr hm]; decide), captureFrom_map_char]
        exact ih

/-- Where a literal is not clear the pattern blanks a slash in it. -/
theorem exists_blanked {s : Line} (h : ¬ StringsClear (lexeme.cut s)) :
    ∃ i : Nat, (inComment (lexeme.cut s))[i]? = some false ∧ s[i]? = some '/' ∧ (stripComments s)[i]? = some ' ' := by
  induction s using lexeme.scan_induction with
  | nil => exact absurd trivial h
  | char c cs hf ih =>
    rw [Pattern.cut_char hf] at h ⊢
    obtain ⟨i, hflag, hs, hout⟩ := ih h
    refine ⟨i + 1, hflag, hs, ?_⟩
    rw [stripComments, Pattern.sub, Pattern.cut_char (not_comment_of_lexeme hf)]
    exact hout
  | found m rest hf ih =>
    rw [Pattern.cut_found hf] at h ⊢
    have hlater : ∀ n : Nat, n = m.length → (∃ out, stripComments (m ++ rest) = out ++ stripComments rest ∧
        out.length = n) → ¬ StringsClear (lexeme.cut rest) → ∃ i : Nat,
        (inComment (.found m :: lexeme.cut rest))[i]? = some false ∧ (m ++ rest)[i]? = some '/' ∧
          (stripComments (m ++ rest))[i]? = some ' ' := by
      rintro n rfl ⟨out, hout, hlen⟩ hrest
      obtain ⟨i, hflag, hs, hblank⟩ := ih hrest
      refine ⟨m.length + i, ?_, ?_, ?_⟩
      · rw [inComment_cons, List.getElem?_append_right (by rw [List.length_map]; exact Nat.le_add_right _ _),
          List.length_map, Piece.text_found, Nat.add_sub_cancel_left, hflag]
      · rw [List.getElem?_append_right (Nat.le_add_right _ _), Nat.add_sub_cancel_left, hs]
      · rw [hout, List.getElem?_append_right (by omega), hlen, Nat.add_sub_cancel_left, hblank]
    rcases lexeme_cases hf with ⟨hhead, hlast⟩ | ⟨hhead, hc⟩
    · by_cases hclear : Clear m rest
      · refine hlater m.length rfl ⟨m, ?_, rfl⟩ fun hrest => h ⟨fun _ => ?_, hrest⟩
        · rw [stripComments, Pattern.sub, Pattern.cut_chars ((clear_iff hlast).mp hclear), replace_map_char]
          rfl
        · rw [Pattern.textOf_cut]
          exact hclear
      · rw [clear_iff hlast] at hclear
        obtain ⟨p, q, raw, rfl, hq, hfound, hcut⟩ := Pattern.exists_first_match hclear
        -- the first character of the comment found is the slash that is blanked
        obtain ⟨c, q, rfl⟩ := List.exists_cons_of_ne_nil hq
        obtain ⟨raw', hraw⟩ := comment.isPrefix hfound
        obtain ⟨d, ds, rfl⟩ := List.exists_cons_of_ne_nil (comment.ne_nil hfound)
        obtain rfl : d = '/' := Option.some.inj (head_of_findComment hfound)
        rw [List.cons_append, List.cons_append, List.cons.injEq] at hraw
        obtain rfl := hraw.1
        refine ⟨p.length, ?_, ?_, ?_⟩
        · rw [inComment_cons, List.getElem?_append_left (by simp), List.getElem?_map, Piece.text_found,
            List.getElem?_append_right le_rfl, Nat.sub_self, Piece.isComment, hhead]
          rfl
        · rw [List.append_assoc, List.getElem?_append_right le_rfl, Nat.sub_self]
          rfl
        · have hrest : '/' :: q ++ rest = '/' :: ds ++ raw' := by
            rw [List.cons_append, List.cons_append, hraw.2]
          rw [stripComments, Pattern.sub, hcut, replace_map_char, List.getElem?_append_right le_rfl, Nat.sub_self,
            hrest, Pattern.cut_found (by rw [← hrest]; exact hfound)]
          rfl
    · refine hlater m.length rfl ⟨blank m, ?_, List.length_map _⟩ fun hrest => h ⟨fun hquote => ?_, hrest⟩
      · rw [stripComments, Pattern.sub, Pattern.cut_found hc]
        rfl
      · rw [hhead] at hquote
        exact absurd hquote (by decide)

/-! ## When the extraction is right -/

theorem getElem?_overlay {s : Line} {flags : List Bool} {i : Nat} {hidden : Bool} (h : flags[i]? = some hidden) :
    (List.zipWith overlay s flags)[i]? = s[i]?.map fun c => overlay c hidden := by
  rw [List.getElem?_zipWith, h]
  cases s[i]? <;> rfl

theorem overlay_eq_newline {c : Char} {hidden : Bool} : overlay c hidden = '\n' ↔ c = '\n' := by
  rw [overlay]
  split
  · next h => simp [h.2]
  · rfl

theorem extracted_of_clear {source : Line} (h : StringsClear (lexeme.cut source)) :
    Extracted source (extractComments source).1 (extractComments source).2 := by
  have hlen : (inComment (lexeme.cut source)).length = source.length := by
    rw [length_inComment, Pattern.textOf_cut]
  have hout : (extractComments source).1 = List.zipWith overlay source (inComment (lexeme.cut source)) := by
    have hblank := blank_withoutStrings (lexeme.cut source)
    rw [← cut_eq_withoutStrings h, Pattern.textOf_cut] at hblank
    exact hblank
  have hcomments : (extractComments source).2 = commentsBehind [] (lexeme.cut source) := by
    rw [extractComments, cut_eq_withoutStrings h]
    show captureFrom source ([] : Line).length (withoutStrings (lexeme.cut source)) = _
    refine captureFrom_withoutStrings ?_
    rw [Pattern.textOf_cut, List.nil_append]
  rw [hout]
  refine ⟨?_, fun i => ?_, fun i hi => ?_, fun i c hi hc hne => ?_, hcomments⟩
  · rw [List.length_zipWith, hlen, Nat.min_self]
  · cases hi : (inComment (lexeme.cut source))[i]? with
    | none =>
      have hle := hlen ▸ List.getElem?_eq_none_iff.mp hi
      rw [List.getElem?_eq_none (by rw [List.length_zipWith, hlen, Nat.min_self]; exact hle),
        List.getElem?_eq_none hle]
    | some hidden =>
      rw [getElem?_overlay hi, Option.map_eq_some_iff]
      constructor
      · rintro ⟨c, hc, hn⟩
        rw [hc, overlay_eq_newline.mp hn]
      · exact fun hc => ⟨'\n', hc, overlay_eq_newline.mpr rfl⟩
  · rw [getElem?_overlay hi]
    cases source[i]? <;> rfl
  · rw [getElem?_overlay hi, hc, Option.map_some, overlay, if_pos ⟨rfl, hne⟩]

/-- Comments are extracted exactly, and stripped alike, from the texts whose string literals open none. -/
theorem extractComments_iff (source : Line) :
    Extracted source (extractComments source).1 (extractComments source).2 ∧
        stripComments source = (extractComments source).1 ↔
      StringsClear (lexeme.cut source) := by
  constructor
  · rintro ⟨hex, -⟩
    by_contra hclear
    obtain ⟨i, hflag, hs, hblank⟩ := exists_blanked hclear
    have hkept := hex.outside i hflag
    rw [hs] at hkept
    exact absurd (hblank.symm.trans hkept) (by decide)
  · exact fun h => ⟨extracted_of_clear h, rfl⟩

/-- A text whose string literal holds two slashes. -/
def urlText : Line := "a=\"http://b\";".toList

/-- The rest of the literal and the semicolon behind it are blanked. -/
theorem extractComments_urlText :
    ¬ Extracted urlText (extractComments urlText).1 (extractComments urlText).2 ∧
      (extractComments urlText).1 = "a=\"http:     ".toList := by
  refine ⟨fun h => ?_, by decide⟩
  exact absurd (h.outside 8 (by decide)) (by decide)

end Veriforge

import Veriforge.Display.Canonical

/-! # Format strings as items

A format string that is complete is spelled by characters, escapes and specifiers. Both scanners read it item by
item: what the formatter prints and what the canonicaliser writes is the concatenation over the items. -/

namespace Veriforge

/-- A specifier as it is spelled, without `%`: an optional `-`, a width, a precision, and a letter. -/
structure SpecifierText where
  signed : Bool
  left : Bool
  width : Line
  precision : Option Line
  spec : Char
  width_digits : width.all Char.isDigit = true
  precision_digits : ∀ p ∈ precision, p.all Char.isDigit = true
  spec_sizing : isSizing spec = false
  spec_marker : spec ∉ [signedFlag, realFlag, realAltFlag]

/-- A part of a format string. -/
inductive FormatItem
  | char (c : Char) (h : c ≠ '%' ∧ c ≠ '\\')
  | escape (c : Char)
  | specifier (sp : SpecifierText)

namespace SpecifierText

variable (sp : SpecifierText)

/-- The optional `-`, the width and the precision. -/
def sizing : Line :=
  (if sp.left then ['-'] else []) ++ (sp.width ++ (sp.precision.elim [] ('.' :: ·)))

/-- The text behind the `%`, up to the letter. -/
def body : Line := (if sp.signed then [signedFlag] else []) ++ sp.sizing

/-- What the formatter reads. -/
def read : Specifier where
  signed := sp.signed
  real := 0
  left := sp.left
  zeroPad := (takeFlag '0' sp.width).1 && !(sp.left && (takeNumber (takeFlag '0' sp.width).2).1 != 0)
  width := (takeNumber (takeFlag '0' sp.width).2).1
  precision := sp.precision.map fun p => Nat.ofDigitChars 10 p 0
  spec := sp.spec.toLower

theorem spec_not_digit : sp.spec.isDigit = false := by
  have h := sp.spec_sizing
  rw [isSizing, Bool.or_eq_false_iff, Bool.or_eq_false_iff] at h
  exact h.1.1

theorem spec_ne {c : Char} (h : isSizing c = true ∨ c ∈ [signedFlag, realFlag, realAltFlag]) : sp.spec ≠ c := by
  rintro rfl
  rcases h with h | h
  · exact Bool.noConfusion (sp.spec_sizing.symm.trans h)
  · exact sp.spec_marker h

end SpecifierText

theorem isSizing_of_digit {c : Char} (h : c.isDigit = true) : isSizing c = true := by
  rw [isSizing, h, Bool.true_or, Bool.true_or]

/-! ## Reading a specifier -/

theorem takeFlag_of_head {c : Char} {s : Line} (h : ∀ d ∈ s.head?, d ≠ c) : takeFlag c s = (false, s) := by
  cases s with
  | nil => rfl
  | cons d s => exact if_neg (h d rfl)

/-- An optional flag in front of a text that does not begin with it. -/
theorem takeFlag_append {c : Char} (b : Bool) {s : Line} (h : ∀ d ∈ s.head?, d ≠ c) :
    takeFlag c ((if b then [c] else []) ++ s) = (b, s) := by
  cases b with
  | false => exact takeFlag_of_head h
  | true => exact if_pos rfl

theorem takeReal_of_head {s : Line} (h : ∀ d ∈ s.head?, d ≠ realFlag ∧ d ≠ realAltFlag) : takeReal s = (0, s) := by
  cases s with
  | nil => rfl
  | cons d s =>
    obtain ⟨h1, h2⟩ := h d rfl
    rw [takeReal, if_neg h1, if_neg h2]

theorem takeNumber_append {digits s : Line} (h : digits.all Char.isDigit = true)
    (hs : ∀ d ∈ s.head?, d.isDigit = false) :
    takeNumber (digits ++ s) = (Nat.ofDigitChars 10 digits 0, s) := by
  rw [takeNumber, takeWhile_append_of_all h hs, dropWhile_append_of_all h, dropWhile_of_head hs]

/-- The zero flag is the first digit of the width. -/
theorem takeZero_append (digits : Line) {s : Line} (hs : ∀ d ∈ s.head?, d ≠ '0') :
    takeFlag '0' (digits ++ s) = ((takeFlag '0' digits).1, (takeFlag '0' digits).2 ++ s) := by
  cases digits with
  | nil => exact takeFlag_of_head hs
  | cons d digits =>
    rw [List.cons_append, takeFlag, takeFlag]
    by_cases hd : d = '0'
    · rw [if_pos hd, if_pos hd]
    · rw [if_neg hd, if_neg hd]
      rfl

theorem all_takeFlag {c : Char} {digits : Line} (h : digits.all Char.isDigit = true) :
    (takeFlag c digits).2.all Char.isDigit = true := by
  cases digits with
  | nil => rfl
  | cons d digits =>
    rw [takeFlag]
    by_cases hd : d = c
    · rw [if_pos hd]
      exact (Bool.and_eq_true _ _ ▸ h : _ ∧ _).2
    · rw [if_neg hd]
      exact h

namespace SpecifierText

variable (sp : SpecifierText)

/-- What stands behind the width begins with a point or is the letter. -/
theorem head_precision (rest : Line) (d : Char)
    (hd : d ∈ (sp.precision.elim [] ('.' :: ·) ++ sp.spec :: rest).head?) : d = '.' ∨ d = sp.spec := by
  cases hp : sp.precision with
  | none =>
    rw [hp] at hd
    cases hd
    exact Or.inr rfl
  | some p =>
    rw [hp] at hd
    cases hd
    exact Or.inl rfl

/-- What stands behind the width is no digit. -/
theorem head_precision_digit (rest : Line) (d : Char)
    (hd : d ∈ (sp.precision.elim [] ('.' :: ·) ++ sp.spec :: rest).head?) : d.isDigit = false := by
  rcases sp.head_precision rest d hd with rfl | rfl
  · decide
  · exact sp.spec_not_digit

/-- What stands behind the flags is a digit, a point or the letter. -/
theorem head_width (rest : Line) (d : Char)
    (hd : d ∈ (sp.width ++ (sp.precision.elim [] ('.' :: ·) ++ sp.spec :: rest)).head?) :
    d.isDigit = true ∨ d = '.' ∨ d = sp.spec := by
  cases hw : sp.width with
  | nil =>
    rw [hw, List.nil_append] at hd
    exact Or.inr (sp.head_precision rest d hd)
  | cons c w =>
    rw [hw] at hd
    cases hd
    have hc := sp.width_digits
    rw [hw, List.all_cons, Bool.and_eq_true] at hc
    exact Or.inl hc.1

theorem takePrecision_append (rest : Line) : takePrecision (sp.precision.elim [] ('.' :: ·) ++ sp.spec :: rest)
      = (sp.precision.map fun p => Nat.ofDigitChars 10 p 0, sp.spec :: rest) := by
  have hspec : ∀ d ∈ (sp.spec :: rest).head?, d.isDigit = false := by
    rintro d ⟨⟩
    exact sp.spec_not_digit
  cases hp : sp.precision with
  | none => exact if_neg (sp.spec_ne (Or.inl (by decide)))
  | some p =>
    show takePrecision ('.' :: (p ++ sp.spec :: rest)) = _
    rw [takePrecision, if_pos rfl, takeNumber_append (sp.precision_digits p hp) hspec]
    rfl

/-- A marker is not what the sizing of a specifier begins with. -/
theorem head_sizing (rest : Line) {c : Char} (hc : c ∈ [signedFlag, realFlag, realAltFlag]) (d : Char)
    (hd : d ∈ (sp.sizing ++ sp.spec :: rest).head?) : d ≠ c := by
  have hno : isSizing c = false := by
    simp only [List.mem_cons, List.not_mem_nil, or_false] at hc
    rcases hc with rfl | rfl | rfl <;> decide
  rw [sizing, List.append_assoc, List.append_assoc] at hd
  rintro rfl
  cases hl : sp.left with
  | true =>
    rw [hl] at hd
    cases hd
    exact Bool.noConfusion hno
  | false =>
    rw [hl] at hd
    rcases sp.head_width rest d hd with h | rfl | rfl
    · exact Bool.noConfusion (hno.symm.trans (isSizing_of_digit h))
    · exact Bool.noConfusion hno
    · exact sp.spec_marker hc

/-- The formatter reads a specifier to its end. -/
theorem readSpecifier_body (rest : Line) : readSpecifier (sp.body ++ sp.spec :: rest) = some (sp.read, rest) := by
  have hleft : ∀ d ∈ (sp.width ++ (sp.precision.elim [] ('.' :: ·) ++ sp.spec :: rest)).head?, d ≠ '-' := by
    rintro d hd rfl
    rcases sp.head_width rest _ hd with h | h | h
    · exact Bool.noConfusion h
    · cases h
    · exact sp.spec_ne (Or.inl (by decide)) h.symm
  have hzero : ∀ d ∈ (sp.precision.elim [] ('.' :: ·) ++ sp.spec :: rest).head?, d ≠ '0' := by
    rintro d hd rfl
    exact Bool.noConfusion (sp.head_precision_digit rest _ hd)
  have h1 : takeFlag signedFlag (sp.body ++ sp.spec :: rest) = (sp.signed, sp.sizing ++ sp.spec :: rest) := by
    rw [body, List.append_assoc]
    exact takeFlag_append _ (sp.head_sizing rest (by decide))
  have h2 : takeReal (sp.sizing ++ sp.spec :: rest) = (0, sp.sizing ++ sp.spec :: rest) :=
    takeReal_of_head fun d hd =>
      ⟨sp.head_sizing rest (by decide) d hd, sp.head_sizing rest (by decide) d hd⟩
  have h3 : takeFlag '-' (sp.sizing ++ sp.spec :: rest)
      = (sp.left, sp.width ++ (sp.precision.elim [] ('.' :: ·) ++ sp.spec :: rest)) := by
    rw [sizing, List.append_assoc, List.append_assoc]
    exact takeFlag_append _ hleft
  have h5 := takeNumber_append (all_takeFlag (c := '0') sp.width_digits) (sp.head_precision_digit rest)
  have hnum : takeNumber (takeFlag '0' sp.width).2
      = (Nat.ofDigitChars 10 (takeFlag '0' sp.width).2 0, []) := by
    have h := takeNumber_append (s := []) (all_takeFlag (c := '0') sp.width_digits) (by rintro d ⟨⟩)
    rwa [List.append_nil] at h
  rw [readSpecifier, h1, h2, h3, takeZero_append _ hzero, h5, sp.takePrecision_append, read, hnum]

theorem all_sizing : sp.sizing.all isSizing = true := by
  have hdigits : ∀ {s : Line}, s.all Char.isDigit = true → s.all isSizing = true := fun h =>
    List.all_eq_true.mpr fun c hc => isSizing_of_digit (List.all_eq_true.mp h c hc)
  rw [sizing, List.all_append, List.all_append, hdigits sp.width_digits]
  cases hp : sp.precision with
  | none => cases sp.left <;> rfl
  | some p =>
    show (_ && (true && (isSizing '.' && p.all isSizing))) = true
    rw [hdigits (sp.precision_digits p hp)]
    cases sp.left <;> rfl

/-- The canonicaliser scans a specifier to its end. -/
theorem scanSpecifier_body (rest : Line) :
    scanSpecifier (sp.body ++ sp.spec :: rest) = some (sp.body, sp.spec, rest) := by
  have hspec : ∀ d ∈ (sp.spec :: rest).head?, isSizing d = false := by
    rintro d ⟨⟩
    exact sp.spec_sizing
  have h1 : takeFlag signedFlag (sp.body ++ sp.spec :: rest) = (sp.signed, sp.sizing ++ sp.spec :: rest) := by
    rw [body, List.append_assoc]
    exact takeFlag_append _ (sp.head_sizing rest (by decide))
  have h2 : (sp.sizing ++ sp.spec :: rest).dropWhile isSizing = sp.spec :: rest := by
    rw [dropWhile_append_of_all sp.all_sizing, dropWhile_of_head hspec]
  simp only [scanSpecifier, h1, h2, takeWhile_append_of_all sp.all_sizing hspec]
  rw [body]

end SpecifierText

end Veriforge

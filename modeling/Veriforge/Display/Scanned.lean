import Veriforge.Display.Items

/-! # Items printed and rewritten

Both scanners go through a format string item by item: what the formatter prints and what the canonicaliser writes
is put together from the items. -/

namespace Veriforge

/-! ## Items -/

namespace FormatItem

/-- The item as it is spelled. -/
def text : FormatItem → Line
  | char c _ => [c]
  | escape c => ['\\', c]
  | specifier sp => '%' :: (sp.body ++ [sp.spec])

/-- Whether the item takes an argument. -/
def consumes : FormatItem → Bool
  | specifier sp => sp.spec.toLower ∈ consuming
  | _ => false

/-- The sign flag is set where the argument is signed and the item prints it as a number. -/
def flag (signed : Bool) : FormatItem → FormatItem
  | specifier sp =>
      specifier { sp with signed := sp.signed || (sp.spec.toLower ∈ ['d', 'e', 'f', 'g'] && signed) }
  | item => item

end FormatItem

/-- The format string of a list of items. -/
def formatText (items : List FormatItem) : Line := items.flatMap FormatItem.text

/-- The number of arguments that items take. -/
def consumed (items : List FormatItem) : Nat := items.countP FormatItem.consumes

/-- The items with the signs of the arguments they take. -/
def flagItems : List FormatItem → List Bool → List FormatItem
  | [], _ => []
  | item :: items, signs =>
      if item.consumes then signs.head?.elim item item.flag :: flagItems items signs.tail
      else item :: flagItems items signs

@[simp] theorem formatText_nil : formatText [] = [] := rfl

@[simp] theorem formatText_cons (item : FormatItem) (items : List FormatItem) :
    formatText (item :: items) = item.text ++ formatText items := rfl

@[simp] theorem consumes_flag (item : FormatItem) (signed : Bool) : (item.flag signed).consumes = item.consumes := by
  cases item <;> rfl

theorem consumed_cons (item : FormatItem) (items : List FormatItem) :
    consumed (item :: items) = consumed items + if item.consumes then 1 else 0 := by
  rw [consumed, List.countP_cons]
  rfl

theorem consumed_flagItems (items : List FormatItem) (signs : List Bool) :
    consumed (flagItems items signs) = consumed items := by
  induction items generalizing signs with
  | nil => rfl
  | cons item items ih =>
    rw [flagItems]
    by_cases h : item.consumes = true
    · rw [if_pos h, consumed_cons, consumed_cons, ih]
      cases signs with
      | nil => rfl
      | cons sign rest => exact congrArg (fun b => _ + if b = true then 1 else 0) (consumes_flag item sign)
    · rw [if_neg h, consumed_cons, consumed_cons, ih]

/-- Signs beyond the arguments that are taken do not matter. -/
theorem flagItems_append {items : List FormatItem} {signs : List Bool} (more : List Bool)
    (h : signs.length = consumed items) : flagItems items (signs ++ more) = flagItems items signs := by
  induction items generalizing signs with
  | nil => rfl
  | cons item items ih =>
    rw [consumed_cons] at h
    rw [flagItems, flagItems]
    by_cases hc : item.consumes = true
    · rw [if_pos hc] at h ⊢
      rw [if_pos hc]
      cases signs with
      | nil => exact absurd h (Nat.succ_ne_zero _).symm
      | cons sign rest => exact congrArg _ (ih (Nat.succ.inj h))
    · rw [if_neg hc] at h ⊢
      rw [if_neg hc, ih h]

/-! ## The formatter -/

section

variable (formatReal : Value → Char → Nat → Option Nat → Bool → Bool → Nat → Line) (time : Nat)

/-- The text of an item and the arguments it leaves. -/
def printItem (args : List Value) : FormatItem → Line × List Value
  | .char c _ => ([c], args)
  | .escape c => (escapeText c, args)
  | .specifier sp => printSpecifier formatReal time sp.read args

/-- The text of items and the arguments they leave. -/
def printItems : List FormatItem → List Value → Line × List Value
  | [], args => ([], args)
  | item :: items, args =>
      let one := printItem formatReal time args item
      let after := printItems items one.2
      (one.1 ++ after.1, after.2)

theorem takeFlag_length (c : Char) (s : Line) : (takeFlag c s).2.length ≤ s.length := by
  cases s with
  | nil => exact le_rfl
  | cons d s =>
    rw [takeFlag]
    by_cases hd : d = c
    · rw [if_pos hd]; exact Nat.le_succ _
    · rw [if_neg hd]

theorem specifier_text (sp : SpecifierText) (rest : Line) :
    (FormatItem.specifier sp).text ++ rest = '%' :: (sp.body ++ sp.spec :: rest) := by
  rw [FormatItem.text, List.cons_append, List.append_assoc, List.singleton_append]

/-- An item takes a character at least. -/
theorem length_lt_text (item : FormatItem) (rest : Line) : rest.length < (item.text ++ rest).length := by
  rw [List.length_append, Nat.lt_add_left_iff_pos]
  cases item <;> exact Nat.succ_pos _

theorem readSpecifier_length {s rest : Line} {sp : Specifier} (h : readSpecifier s = some (sp, rest)) :
    rest.length < s.length := by
  have hreal : ∀ s : Line, (takeReal s).2.length ≤ s.length := by
    intro s
    cases s with
    | nil => exact le_rfl
    | cons d s =>
      rw [takeReal]
      by_cases h1 : d = realFlag
      · rw [if_pos h1]; exact Nat.le_succ _
      · rw [if_neg h1]
        by_cases h2 : d = realAltFlag
        · rw [if_pos h2]; exact Nat.le_succ _
        · rw [if_neg h2]
  have hnum : ∀ s : Line, (takeNumber s).2.length ≤ s.length := fun s => (List.dropWhile_sublist _).length_le
  have hprec : ∀ s : Line, (takePrecision s).2.length ≤ s.length := by
    intro s
    cases s with
    | nil => exact le_rfl
    | cons d s =>
      rw [takePrecision]
      by_cases hd : d = '.'
      · rw [if_pos hd]; exact Nat.le_succ_of_le (hnum s)
      · rw [if_neg hd]
  have htotal := (hprec _).trans ((hnum _).trans ((takeFlag_length '0' _).trans ((takeFlag_length '-' _).trans
    ((hreal _).trans (takeFlag_length signedFlag s)))))
  rw [readSpecifier] at h
  revert h htotal
  generalize takePrecision _ = p
  obtain ⟨p, left⟩ := p
  intro h htotal
  cases left with
  | nil => cases h
  | cons c left =>
    cases h
    exact htotal

/-- More fuel than the length of the text changes nothing. -/
theorem formatLoop_of_le {n m : Nat} {s : Line} {args : List Value} (hn : s.length ≤ n) (hm : s.length ≤ m) :
    formatLoop formatReal time n s args = formatLoop formatReal time m s args := by
  induction n generalizing m s args with
  | zero =>
    obtain rfl := List.length_eq_zero_iff.mp (Nat.le_zero.mp hn)
    cases m <;> rfl
  | succ n ih =>
    cases s with
    | nil => cases m <;> rfl
    | cons c s =>
      obtain ⟨m, rfl⟩ : ∃ m', m = m' + 1 := Nat.exists_eq_succ_of_ne_zero (by rintro rfl; cases hm)
      rw [List.length_cons, Nat.add_le_add_iff_right] at hn hm
      rw [formatLoop, formatLoop]
      by_cases hc : c = '%'
      · rw [if_pos hc, if_pos hc]
        cases hr : readSpecifier s with
        | none => rfl
        | some found =>
          have hl : found.2.length < s.length := readSpecifier_length (by rw [hr])
          simp only [ih (m := m) (s := found.2) (by omega) (by omega)]
      · rw [if_neg hc, if_neg hc]
        by_cases hb : c = '\\'
        · rw [if_pos hb, if_pos hb]
          cases s with
          | nil => rfl
          | cons esc rest =>
            rw [List.length_cons] at hn hm
            simp only [List.head?_cons, List.tail_cons, ih (m := m) (s := rest) (by omega) (by omega)]
        · rw [if_neg hb, if_neg hb, ih hn hm]

/-- A text is printed item by item. -/
theorem formatLoop_item (item : FormatItem) {rest : Line} {args : List Value} {n : Nat}
    (hn : (item.text ++ rest).length ≤ n) :
    formatLoop formatReal time n (item.text ++ rest) args = ((printItem formatReal time args item).1 ++
          (formatLoop formatReal time n rest (printItem formatReal time args item).2).1,
        (formatLoop formatReal time n rest (printItem formatReal time args item).2).2) := by
  have hlt := Nat.lt_of_lt_of_le (length_lt_text item rest) hn
  obtain ⟨n, rfl⟩ : ∃ m, n = m + 1 := Nat.exists_eq_succ_of_ne_zero (Nat.ne_zero_of_lt hlt)
  have hlen : rest.length ≤ n := Nat.le_of_lt_succ hlt
  have hfuel : ∀ args, formatLoop formatReal time n rest args = formatLoop formatReal time (n + 1) rest args :=
    fun args => formatLoop_of_le formatReal time hlen (Nat.le_succ_of_le hlen)
  cases item with
  | char c h =>
    rw [FormatItem.text, List.singleton_append, formatLoop, if_neg h.1, if_neg h.2, hfuel]
    rfl
  | escape c =>
    rw [FormatItem.text, List.cons_append, List.cons_append, formatLoop, if_neg (by decide), if_pos rfl]
    simp only [List.head?_cons, List.tail_cons, List.nil_append, hfuel]
    rfl
  | specifier sp =>
    rw [specifier_text, formatLoop, if_pos rfl, sp.readSpecifier_body]
    simp only [hfuel]
    rfl

theorem formatLoop_items (items : List FormatItem) {rest : Line} {args : List Value} {n : Nat}
    (hn : (formatText items ++ rest).length ≤ n) :
    formatLoop formatReal time n (formatText items ++ rest) args = ((printItems formatReal time items args).1 ++
          (formatLoop formatReal time n rest (printItems formatReal time items args).2).1,
        (formatLoop formatReal time n rest (printItems formatReal time items args).2).2) := by
  induction items generalizing args with
  | nil => rfl
  | cons item items ih =>
    rw [formatText_cons, List.append_assoc] at hn ⊢
    rw [formatLoop_item formatReal time item hn, ih (by rw [List.length_append] at hn; omega)]
    simp only [printItems, List.append_assoc]

/-- The loop of `_apply_format` with enough fuel. -/
def formatAll (fmt : Line) (args : List Value) : Line × List Value :=
  formatLoop formatReal time fmt.length fmt args

theorem formatAll_items (items : List FormatItem) (rest : Line) (args : List Value) :
    formatAll formatReal time (formatText items ++ rest) args = ((printItems formatReal time items args).1 ++
          (formatAll formatReal time rest (printItems formatReal time items args).2).1,
        (formatAll formatReal time rest (printItems formatReal time items args).2).2) := by
  have hl : rest.length ≤ (formatText items ++ rest).length := by rw [List.length_append]; omega
  rw [formatAll, formatLoop_items formatReal time items le_rfl, formatAll,
    formatLoop_of_le formatReal time (s := rest) hl le_rfl]

/-- What an item prints depends on the argument it takes only. -/
theorem printItem_append {item : FormatItem} {args : List Value} (more : List Value)
    (h : args.length = if item.consumes then 1 else 0) :
    printItem formatReal time (args ++ more) item = ((printItem formatReal time args item).1, more) := by
  cases item with
  | char c hc =>
    obtain rfl := List.length_eq_zero_iff.mp h
    rfl
  | escape c =>
    obtain rfl := List.length_eq_zero_iff.mp h
    rfl
  | specifier sp =>
    have hfield : printField formatReal time sp.read (args ++ more)
        = ((printField formatReal time sp.read args).1, more) := by
      by_cases hc : sp.read.spec ∈ consuming
      · have hcons : (FormatItem.specifier sp).consumes = true := decide_eq_true hc
        rw [hcons, if_pos rfl] at h
        obtain ⟨v, rfl⟩ := List.length_eq_one_iff.mp h
        have hp : sp.read.spec ≠ '%' := by
          intro hp
          rw [hp] at hc
          exact absurd hc (by decide)
        have hm : sp.read.spec ≠ 'm' := by
          intro hm
          rw [hm] at hc
          exact absurd hc (by decide)
        rw [printField, printField, if_neg hp, if_neg hp, List.singleton_append]
        by_cases ht : sp.read.spec = 't'
        · rw [if_pos ht, if_pos ht]
          rfl
        · rw [if_neg ht, if_neg ht, if_neg hm, if_neg hm]
          simp only [List.head?_cons, List.tail_cons, if_pos hc]
      · have hcons : (FormatItem.specifier sp).consumes = false := decide_eq_false hc
        rw [hcons, if_neg Bool.false_ne_true] at h
        obtain rfl := List.length_eq_zero_iff.mp h
        have ht : sp.read.spec ≠ 't' := by
          intro ht
          rw [ht] at hc
          exact hc (by decide)
        rw [List.nil_append, printField, printField, if_neg ht, if_neg ht]
        by_cases hp : sp.read.spec = '%'
        · rw [if_pos hp, if_pos hp]
        · rw [if_neg hp, if_neg hp]
          by_cases hm : sp.read.spec = 'm'
          · rw [if_pos hm, if_pos hm]
          · rw [if_neg hm, if_neg hm]
            cases more with
            | nil => rfl
            | cons v more => simp only [List.head?_cons, List.head?_nil, if_neg hc]
    rw [printItem, printItem, printSpecifier, printSpecifier, hfield]

theorem printItems_append {items : List FormatItem} {args : List Value} (more : List Value)
    (h : args.length = consumed items) :
    printItems formatReal time items (args ++ more)
      = ((printItems formatReal time items args).1, more) := by
  induction items generalizing args with
  | nil =>
    obtain rfl := List.length_eq_zero_iff.mp h
    rfl
  | cons item items ih =>
    rw [consumed_cons] at h
    obtain ⟨taken, rest, rfl, ht⟩ : ∃ taken rest, args = taken ++ rest ∧
        taken.length = if item.consumes then 1 else 0 := by
      refine ⟨args.take (if item.consumes then 1 else 0), args.drop (if item.consumes then 1 else 0),
        (List.take_append_drop _ _).symm, ?_⟩
      rw [List.length_take, h]
      omega
    rw [List.length_append, ht] at h
    have hitem := printItem_append formatReal time rest ht
    rw [printItems, printItems, List.append_assoc, printItem_append formatReal time (rest ++ more) ht, hitem]
    simp only [@ih rest (by omega)]

theorem printField_left (sp : Specifier) (args : List Value) :
    (printField formatReal time sp args).2 = args.drop (if sp.spec ∈ consuming then 1 else 0) := by
  rw [printField]
  by_cases hp : sp.spec = '%'
  · rw [if_pos hp, hp]
    rfl
  · rw [if_neg hp]
    by_cases ht : sp.spec = 't'
    · rw [if_pos ht, ht, if_pos (by decide), List.drop_one]
    · rw [if_neg ht]
      by_cases hm : sp.spec = 'm'
      · rw [if_pos hm, hm]
        rfl
      · rw [if_neg hm]
        cases args with
        | nil => rw [List.drop_nil]; rfl
        | cons v args =>
          simp only [List.head?_cons, List.tail_cons]
          by_cases hc : sp.spec ∈ consuming
          · rw [if_pos hc, if_pos hc]
            rfl
          · rw [if_neg hc, if_neg hc]
            rfl

/-- Items leave the arguments behind those they take. -/
theorem printItems_left (items : List FormatItem) (args : List Value) :
    (printItems formatReal time items args).2 = args.drop (consumed items) := by
  induction items generalizing args with
  | nil => rfl
  | cons item items ih =>
    have hitem : (printItem formatReal time args item).2 = args.drop (if item.consumes then 1 else 0) := by
      cases item with
      | char c h => rfl
      | escape c => rfl
      | specifier sp =>
        rw [printItem, printSpecifier, printField_left, FormatItem.consumes, SpecifierText.read]
        simp only [decide_eq_true_eq]
    rw [printItems, consumed_cons]
    simp only [ih, hitem, List.drop_drop]
    rw [Nat.add_comm]

/-- Where there is no argument none is left. -/
theorem formatLoop_nil_left (n : Nat) (s : Line) : (formatLoop formatReal time n s []).2 = [] := by
  induction n generalizing s with
  | zero => rfl
  | succ n ih =>
    cases s with
    | nil => rfl
    | cons c s =>
      rw [formatLoop]
      by_cases hc : c = '%'
      · rw [if_pos hc]
        cases readSpecifier s with
        | none => rfl
        | some found =>
          simp only [printSpecifier, printField_left, List.drop_nil]
          exact ih _
      · rw [if_neg hc]
        by_cases hb : c = '\\'
        · rw [if_pos hb]
          cases s with
          | nil => rfl
          | cons esc rest => exact ih rest
        · rw [if_neg hb]
          exact ih s

end

/-! ## The canonicaliser -/

namespace DisplayArg

variable {E : Type}

/-- No marked real. -/
def isReal : DisplayArg E → Bool
  | real _ => true
  | _ => false

end DisplayArg

section

variable {E : Type} (rounded : E → E) (signedOf : DisplayArg E → Bool)

theorem scanSpecifier_length {s body rest : Line} {c : Char} (h : scanSpecifier s = some (body, c, rest)) :
    rest.length < s.length := by
  have hflag := takeFlag_length signedFlag s
  have hdrop : ((takeFlag signedFlag s).2.dropWhile isSizing).length ≤ (takeFlag signedFlag s).2.length :=
    (List.dropWhile_sublist _).length_le
  rw [scanSpecifier] at h
  generalize (takeFlag signedFlag s).2.dropWhile isSizing = left at h hdrop
  cases left with
  | nil => cases h
  | cons d left =>
    cases h
    rw [List.length_cons] at hdrop
    omega

theorem canonicalString_of_le {n m : Nat} {s : Line} {args : List (DisplayArg E)} (hn : s.length ≤ n)
    (hm : s.length ≤ m) :
    canonicalString rounded signedOf n s args = canonicalString rounded signedOf m s args := by
  induction n generalizing m s args with
  | zero =>
    obtain rfl := List.length_eq_zero_iff.mp (Nat.le_zero.mp hn)
    cases m <;> rfl
  | succ n ih =>
    cases s with
    | nil => cases m <;> rfl
    | cons c s =>
      obtain ⟨m, rfl⟩ : ∃ m', m = m' + 1 := Nat.exists_eq_succ_of_ne_zero (by rintro rfl; cases hm)
      rw [List.length_cons, Nat.add_le_add_iff_right] at hn hm
      have htail : s.tail.length ≤ s.length := by rw [List.length_tail]; omega
      rw [canonicalString, canonicalString]
      by_cases hb : c = '\\' ∧ s ≠ []
      · simp only [if_pos hb, ih (m := m) (s := s.tail) (by omega) (by omega)]
      · rw [if_neg hb, if_neg hb]
        by_cases hc : c ≠ '%'
        · simp only [if_pos hc, ih (m := m) hn hm]
        · rw [if_neg hc, if_neg hc]
          cases hr : scanSpecifier s with
          | none => rfl
          | some found =>
            have hl : found.2.2.length < s.length := scanSpecifier_length (by rw [hr])
            simp only [ih (m := m) (s := found.2.2) (by omega) (by omega)]

theorem signedFlag_not_mem_body {sp : SpecifierText} (h : sp.signed = false) : signedFlag ∉ sp.body ++ [sp.spec] := by
  have hbody : sp.body = sp.sizing := by rw [SpecifierText.body, h]; rfl
  rw [hbody, List.mem_append, List.mem_singleton]
  rintro (hc | hc)
  · exact absurd (List.all_eq_true.mp sp.all_sizing _ hc) (by decide)
  · exact sp.spec_ne (Or.inr (by decide)) hc.symm

/-- The piece of a specifier is the flagged item. -/
theorem consumedPiece_eq (sp : SpecifierText) {arg : DisplayArg E} (h : arg.isReal = false) :
    consumedPiece rounded signedOf sp.body sp.spec arg
      = (((FormatItem.specifier sp).flag (signedOf arg)).text, arg) := by
  have hmain : (if sp.spec.toLower ∈ ['d', 'e', 'f', 'g'] ∧ signedFlag ∉ sp.body ++ [sp.spec] ∧
        signedOf arg = true then ('%' :: signedFlag :: (sp.body ++ [sp.spec]), arg)
      else ('%' :: (sp.body ++ [sp.spec]), arg))
      = (((FormatItem.specifier sp).flag (signedOf arg)).text, arg) := by
    cases hs : sp.signed with
    | true =>
      have hmem : signedFlag ∈ sp.body ++ [sp.spec] := by
        rw [SpecifierText.body, hs]
        exact List.mem_cons_self
      rw [if_neg fun hc => hc.2.1 hmem, FormatItem.flag, FormatItem.text, SpecifierText.body, SpecifierText.body, hs]
      rfl
    | false =>
      have hmem := signedFlag_not_mem_body hs
      by_cases hc : sp.spec.toLower ∈ ['d', 'e', 'f', 'g'] ∧ signedOf arg = true
      · rw [if_pos ⟨hc.1, hmem, hc.2⟩, FormatItem.flag, FormatItem.text, SpecifierText.body,
          SpecifierText.body, hs, decide_eq_true hc.1, hc.2]
        rfl
      · rw [if_neg fun hf => hc ⟨hf.1, hf.2.2⟩, FormatItem.flag, FormatItem.text, SpecifierText.body,
          SpecifierText.body, hs]
        have hflag : (decide (sp.spec.toLower ∈ ['d', 'e', 'f', 'g']) && signedOf arg) = false := by
          rw [Bool.eq_false_iff, Ne, Bool.and_eq_true, decide_eq_true_eq]
          exact hc
        rw [hflag]
        rfl
  cases arg with
  | string value => exact hmain
  | real inner => cases h
  | expr e => exact hmain

/-- A format string is rewritten item by item. -/
theorem canonicalString_item (item : FormatItem) {rest : Line} {args : List (DisplayArg E)} {n : Nat}
    (hreal : ∀ a ∈ args, a.isReal = false) (hn : (item.text ++ rest).length ≤ n) :
    canonicalString rounded signedOf n (item.text ++ rest) args = if item.consumes then
        let after := canonicalString rounded signedOf n rest args.tail
        ((args.head?.elim item fun arg => item.flag (signedOf arg)).text ++ after.1,
          args.head?.toList ++ after.2.1, after.2.2)
      else
        let after := canonicalString rounded signedOf n rest args
        (item.text ++ after.1, after.2) := by
  have hlt := Nat.lt_of_lt_of_le (length_lt_text item rest) hn
  obtain ⟨n, rfl⟩ : ∃ m, n = m + 1 := Nat.exists_eq_succ_of_ne_zero (Nat.ne_zero_of_lt hlt)
  have hlen : rest.length ≤ n := Nat.le_of_lt_succ hlt
  have hfuel : ∀ args, canonicalString rounded signedOf n rest args
      = canonicalString rounded signedOf (n + 1) rest args := fun args =>
    canonicalString_of_le rounded signedOf hlen (Nat.le_succ_of_le hlen)
  cases item with
  | char c h =>
    rw [FormatItem.text, List.singleton_append, canonicalString, if_neg fun hc => h.2 hc.1, if_pos h.1, hfuel]
    rfl
  | escape c =>
    rw [FormatItem.text, List.cons_append, List.cons_append, canonicalString, if_pos ⟨rfl, List.cons_ne_nil _ _⟩]
    simp only [List.tail_cons, List.nil_append, hfuel]
    rfl
  | specifier sp =>
    rw [specifier_text, canonicalString, if_neg fun hc => absurd hc.1 (by decide), if_neg (by decide),
      sp.scanSpecifier_body]
    by_cases hc : sp.spec.toLower ∈ consuming
    · have hcons : (FormatItem.specifier sp).consumes = true := decide_eq_true hc
      rw [hcons, if_pos rfl]
      cases args with
      | nil =>
        simp only [List.head?_nil, hfuel]
        rfl
      | cons arg args =>
        have hpiece := consumedPiece_eq rounded signedOf sp (hreal arg List.mem_cons_self)
        simp only [List.head?_cons, List.tail_cons, if_pos hc, hfuel, hpiece]
        rfl
    · have hcons : (FormatItem.specifier sp).consumes = false := decide_eq_false hc
      rw [hcons, if_neg Bool.false_ne_true]
      cases args with
      | nil =>
        simp only [List.head?_nil, hfuel]
        rfl
      | cons arg args =>
        simp only [List.head?_cons, if_neg hc, hfuel]
        rfl

theorem canonicalString_items (items : List FormatItem) {rest : Line} {args : List (DisplayArg E)} {n : Nat}
    (hreal : ∀ a ∈ args, a.isReal = false) (hn : (formatText items ++ rest).length ≤ n) :
    canonicalString rounded signedOf n (formatText items ++ rest) args =
      let after := canonicalString rounded signedOf n rest (args.drop (consumed items))
      (formatText (flagItems items (args.map signedOf)) ++ after.1,
        args.take (consumed items) ++ after.2.1, after.2.2) := by
  induction items generalizing args with
  | nil => rfl
  | cons item items ih =>
    rw [formatText_cons, List.append_assoc] at hn ⊢
    have hrest : (formatText items ++ rest).length ≤ n := by
      rw [List.length_append] at hn
      omega
    rw [canonicalString_item rounded signedOf item hreal hn, consumed_cons, flagItems]
    by_cases hc : item.consumes = true
    · rw [if_pos hc, if_pos hc, if_pos hc]
      cases args with
      | nil =>
        simp only [List.tail_nil, @ih [] hreal hrest]
        simp [List.append_assoc]
      | cons arg args =>
        simp only [List.tail_cons, ih (fun a ha => hreal a (List.mem_cons_of_mem _ ha)) hrest]
        simp [List.append_assoc]
    · rw [if_neg hc, if_neg hc, if_neg hc]
      simp only [ih hreal hrest]
      simp [List.append_assoc]

end

end Veriforge

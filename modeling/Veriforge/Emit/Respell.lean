import Mathlib
import Veriforge.Sim.FromVerilog

/-! # Literals spelled in another way

`_respell_literal` (`codegen/verilog_emitter.py`): a sized literal written with another base, in upper case or with a
separator between its digits, as a random generator has it. Whatever the base, the digits of a number are read as that
number, and only the number and the unknown digits reach the value. -/

namespace Veriforge

/-- `random.Random`: whether `random()` is below so many percent, and `randrange`. Each draw leaves the generator in
its next state. -/
structure Rng (ρ : Type) where
  below : Nat → ρ → Bool × ρ
  randrange : Nat → ρ → Nat × ρ
  randrange_lt : ∀ {n : Nat} (s : ρ), 0 < n → (randrange n s).1 < n

/-- The number of digits that a base has (`_BASE_DIGITS`). -/
def Base.radix : Base → Nat
  | .bin => 2
  | .oct => 8
  | .dec => 10
  | .hex => 16

namespace Emit

open Literal

/-! ## The text of a sized literal -/

/-- `[0-9a-fA-FxXzZ?_]` -/
def isSizedDigit (c : Char) : Bool := isLiteralDigit c || c == '_'

/-- The groups of `_SIZED_LITERAL`. -/
structure SizedLiteral where
  size : Line
  sign : Line
  baseChar : Char
  digits : Line
  size_isDecimal : isDecimal size = true
  sign_eq : sign = [] ∨ sign = ['s'] ∨ sign = ['S']
  baseOf_isSome : (baseOf baseChar).isSome = true
  digits_all : digits.all isSizedDigit = true

namespace SizedLiteral

/-- The base of the digits. -/
def base (m : SizedLiteral) : Base := (baseOf m.baseChar).get m.baseOf_isSome

/-- `digits.replace("_", "")` -/
def clean (m : SizedLiteral) : Line := m.digits.filter (· ≠ '_')

/-- The text with these groups. -/
def text (m : SizedLiteral) : Line := m.size ++ '\'' :: (m.sign ++ m.baseChar :: m.digits)

end SizedLiteral

/-- `([sS]?)` -/
def takeSign : Line → Line × Line
  | c :: rest => if c = 's' ∨ c = 'S' then ([c], rest) else ([], c :: rest)
  | [] => ([], [])

theorem takeSign_eq (rest : Line) :
    (takeSign rest).1 = [] ∨ (takeSign rest).1 = ['s'] ∨ (takeSign rest).1 = ['S'] := by
  cases rest with
  | nil => exact Or.inl rfl
  | cons c rest =>
    rw [takeSign]
    split
    · next h =>
      rcases h with rfl | rfl
      · exact Or.inr (Or.inl rfl)
      · exact Or.inr (Or.inr rfl)
    · exact Or.inl rfl

/-- What `$` leaves out is a newline at the end. -/
def beforeEnd (text : Line) : Line := if text.getLast? = some '\n' then text.dropLast else text

/-- The groups, from what follows the quote. -/
def matchBased (size rest : Line) : Option SizedLiteral :=
  match (takeSign rest).2 with
  | [] => none
  | c :: digits =>
      if h : isDecimal size = true ∧ (baseOf c).isSome = true ∧
          beforeEnd digits ≠ [] ∧ (beforeEnd digits).all isSizedDigit = true then
        some ⟨size, (takeSign rest).1, c, beforeEnd digits, h.1, takeSign_eq rest, h.2.1, h.2.2.2⟩
      else none

/-- `_SIZED_LITERAL.match` -/
def matchSizedLiteral (text : Line) : Option SizedLiteral :=
  match text.dropWhile Char.isDigit with
  | c :: rest => if c = '\'' then matchBased (text.takeWhile Char.isDigit) rest else none
  | [] => none

/-! ## Spelling it -/

/-- A digit of the radix. -/
def radixDigit (radix : Nat) (c : Char) : Option Nat := (hexDigit c).filter (· < radix)

/-- A digit of the radix behind a number. -/
def pushRadix (radix n : Nat) (c : Char) : Option Nat := (radixDigit radix c).map (radix * n + ·)

/-- `int(text, radix)` of a text of digits; `none` where it raises. -/
def intOf (radix : Nat) (text : Line) : Option Nat :=
  if text = [] then none else text.foldlM (pushRadix radix) 0

/-- `"bodh"[i]` -/
def baseAt (i : Nat) : Base :=
  match i with
  | 0 => .bin
  | 1 => .oct
  | 2 => .dec
  | _ => .hex

theorem all_isLiteralDigit_toDigits (base : Base) (n : Nat) :
    (Nat.toDigits base.radix n).all isLiteralDigit = true := by
  have hradix : 1 < base.radix ∧ base.radix ≤ 16 := by cases base <;> decide
  have hdigit : ∀ d < 16, isLiteralDigit d.digitChar = true := by
    intro d hd
    interval_cases d <;> rfl
  induction n using Nat.strong_induction_on with
  | _ n ih =>
    rw [Nat.toDigits_eq_if hradix.1]
    split
    · next h =>
      rw [List.all_cons, hdigit _ (by omega)]
      rfl
    · next h =>
      have hmod : n % base.radix < base.radix := Nat.mod_lt _ (by omega)
      rw [List.all_append, ih _ (Nat.div_lt_self (by omega) hradix.1), List.all_cons, hdigit _ (by omega)]
      rfl

theorem all_isSizedDigit_toDigits (base : Base) (n : Nat) : (Nat.toDigits base.radix n).all isSizedDigit = true := by
  refine List.all_eq_true.mpr fun c hc => ?_
  rw [isSizedDigit, List.all_eq_true.mp (all_isLiteralDigit_toDigits base n) c hc]
  rfl

theorem all_isSizedDigit_clean (m : SizedLiteral) : m.clean.all isSizedDigit = true :=
  List.all_eq_true.mpr fun c hc => List.all_eq_true.mp m.digits_all c (List.mem_of_mem_filter hc)

theorem upper_cases (c : Char) : c.toUpper = c ∨ ∃ n : Nat, 97 ≤ n ∧ n ≤ 122 ∧ c = Char.ofNat n := by
  by_cases h : 'a'.val ≤ c.val ∧ c.val ≤ 'z'.val
  · exact Or.inr ⟨c.toNat, h.1, h.2, (Char.ofNat_toNat c).symm⟩
  · exact Or.inl (by rw [Char.toUpper, dif_neg h])

theorem hexDigit_toUpper (c : Char) : hexDigit c.toUpper = hexDigit c := by
  rcases upper_cases c with h | ⟨n, hlo, hhi, rfl⟩
  · rw [h]
  · interval_cases n <;> rfl

theorem isUnknownChar_toUpper (c : Char) : isUnknownChar c.toUpper = isUnknownChar c := by
  rcases upper_cases c with h | ⟨n, hlo, hhi, rfl⟩
  · rw [h]
  · interval_cases n <;> rfl

theorem baseOf_toUpper (c : Char) : baseOf c.toUpper = baseOf c := by
  rcases upper_cases c with h | ⟨n, hlo, hhi, rfl⟩
  · rw [h]
  · interval_cases n <;> rfl

theorem underscore_toUpper (c : Char) : (c.toUpper == '_') = (c == '_') := by
  rcases upper_cases c with h | ⟨n, hlo, hhi, rfl⟩
  · rw [h]
  · interval_cases n <;> rfl

theorem isSizedDigit_toUpper (c : Char) : isSizedDigit c.toUpper = isSizedDigit c := by
  rw [isSizedDigit, isLiteralDigit, hexDigit_toUpper, isUnknownChar_toUpper, underscore_toUpper]
  rfl

theorem all_isSizedDigit_map_toUpper {text : Line} (h : text.all isSizedDigit = true) :
    (text.map Char.toUpper).all isSizedDigit = true := by
  rw [List.all_map]
  simpa only [Function.comp_def, isSizedDigit_toUpper] using h

theorem all_isSizedDigit_separated {text : Line} (h : text.all isSizedDigit = true) (cut : Nat) :
    (text.take cut ++ '_' :: text.drop cut).all isSizedDigit = true := by
  rw [← List.take_append_drop cut text, List.all_append, Bool.and_eq_true] at h
  rw [List.all_append, h.1, List.all_cons, h.2]
  rfl

section

variable {ρ : Type} (rng : Rng ρ)

/-- The digits without separators, most numbers in a base chosen at random; `none` where `int` raises. -/
def changeBase (m : SizedLiteral) (s : ρ) : Option (SizedLiteral × ρ) :=
  let cleaned : SizedLiteral := { m with digits := m.clean, digits_all := all_isSizedDigit_clean m }
  if m.clean.any isUnknownChar then some (cleaned, s)
  else
    let (change, s) := rng.below 60 s
    if change then
      (intOf m.base.radix m.clean).map fun value =>
        if value < 1 <<< Nat.ofDigitChars 10 m.size 0 then
          let (i, s) := rng.randrange 4 s
          let base := baseAt i
          ({ m with
              baseChar := base.letter, digits := Nat.toDigits base.radix value,
              baseOf_isSome := by cases base <;> rfl, digits_all := all_isSizedDigit_toDigits base value }, s)
        else (cleaned, s)
    else some (cleaned, s)

/-- The base and the digits in upper case, at random. -/
def changeCase (m : SizedLiteral) (s : ρ) : SizedLiteral × ρ :=
  let (change, s) := rng.below 50 s
  if change then
    ({ m with
        baseChar := m.baseChar.toUpper, digits := m.digits.map Char.toUpper,
        baseOf_isSome := by rw [baseOf_toUpper]; exact m.baseOf_isSome,
        digits_all := all_isSizedDigit_map_toUpper m.digits_all }, s)
  else (m, s)

/-- A separator between two digits, at random. -/
def separate (m : SizedLiteral) (s : ρ) : SizedLiteral × ρ :=
  if 2 < m.digits.length then
    let (change, s) := rng.below 50 s
    if change then
      let (i, s) := rng.randrange (m.digits.length - 1) s
      let cut := 1 + i
      ({ m with
          digits := m.digits.take cut ++ '_' :: m.digits.drop cut,
          digits_all := all_isSizedDigit_separated m.digits_all cut }, s)
    else (m, s)
  else (m, s)

/-- `_respell_literal`; `none` where it raises. -/
def respellLiteral (text : Line) (s : ρ) : Option (Line × ρ) :=
  match matchSizedLiteral text with
  | none => some (text, s)
  | some m =>
      (changeBase rng m s).map fun (m, s) =>
        let (m, s) := changeCase rng m s
        let (m, s) := separate rng m s
        (m.text, s)

end

/-! ## What a text with these groups is read as -/

namespace SizedLiteral

/-- The number of bits. -/
def width (m : SizedLiteral) : Nat := Nat.ofDigitChars 10 m.size 0

/-- The signedness marker. -/
def signed (m : SizedLiteral) : Bool := !m.sign.isEmpty

theorem baseOf_baseChar (m : SizedLiteral) : baseOf m.baseChar = some m.base := (Option.some_get _).symm

theorem mem_of_baseOf {c : Char} (h : (baseOf c).isSome = true) : c ∈ ['b', 'B', 'o', 'O', 'd', 'D', 'h', 'H'] := by
  rw [baseOf] at h
  split at h
  · next hc => rcases hc with rfl | rfl <;> decide
  split at h
  · next hc => rcases hc with rfl | rfl <;> decide
  split at h
  · next hc => rcases hc with rfl | rfl <;> decide
  split at h
  · next hc => rcases hc with rfl | rfl <;> decide
  · exact absurd h (by decide)

/-- The letter of a base is neither white space, nor a separator, nor a sign. -/
theorem plain_of_baseOf {c : Char} (h : (baseOf c).isSome = true) :
    isSpace c = false ∧ c ≠ '_' ∧ ¬(some c = some 's' ∨ some c = some 'S') := by
  have hmem := mem_of_baseOf h
  simp only [List.mem_cons, List.not_mem_nil, or_false] at hmem
  rcases hmem with rfl | rfl | rfl | rfl | rfl | rfl | rfl | rfl <;> decide

theorem not_space_of_isSizedDigit {c : Char} (h : isSizedDigit c = true) : isSpace c = false := by
  rw [isSizedDigit, isLiteralDigit, Bool.or_eq_true, Bool.or_eq_true] at h
  rcases h with (h | h) | h
  · obtain ⟨d, hd⟩ := Option.isSome_iff_exists.mp h
    exact not_space_of_hexDigit hd
  · rw [isUnknownChar, decide_eq_true_eq] at h
    simp only [List.mem_cons, List.not_mem_nil, or_false] at h
    rcases h with rfl | rfl | rfl | rfl | rfl <;> rfl
  · rw [eq_of_beq h]
    rfl

theorem not_space (m : SizedLiteral) : ∀ c ∈ m.sign ++ m.baseChar :: m.digits, isSpace c = false := by
  intro c hc
  rcases List.mem_append.mp hc with hc | hc
  · rcases m.sign_eq with h | h | h
    · rw [h] at hc
      cases hc
    · rw [h, List.mem_singleton] at hc
      rw [hc]
      rfl
    · rw [h, List.mem_singleton] at hc
      rw [hc]
      rfl
  · rcases List.mem_cons.mp hc with rfl | hc
    · exact (plain_of_baseOf m.baseOf_isSome).1
    · exact not_space_of_isSizedDigit (List.all_eq_true.mp m.digits_all c hc)

theorem all_isLiteralDigit_clean (m : SizedLiteral) : m.clean.all isLiteralDigit = true := by
  refine List.all_eq_true.mpr fun c hc => ?_
  obtain ⟨hmem, hne⟩ := List.mem_filter.mp hc
  have hdigit := List.all_eq_true.mp m.digits_all c hmem
  rw [isSizedDigit, Bool.or_eq_true] at hdigit
  exact hdigit.resolve_right fun h => (of_decide_eq_true hne) (eq_of_beq h)

/-- The text is read as its size, its sign, its base and its digits without separators. -/
theorem literalText_text (m : SizedLiteral) : literalText m.text = if m.clean = [] then none
      else (digitsOf m.base m.clean).map (.based (some m.width) m.signed m.base) := by
  obtain ⟨-, hunderscore, hsign⟩ := plain_of_baseOf m.baseOf_isSome
  have hsize : m.size.isEmpty = false := by
    have h := m.size_isDecimal
    rw [isDecimal, Bool.and_eq_true, Bool.not_eq_true'] at h
    exact h.1
  have hrest : (m.baseChar :: m.digits).filter (· ≠ '_') = m.baseChar :: m.clean := by
    rw [List.filter_cons, if_pos (decide_eq_true hunderscore), clean]
  have hbased : (baseOf m.baseChar).bind (fun base =>
      if (!m.clean.isEmpty && m.clean.all isLiteralDigit) = true then
        (digitsOf base m.clean).map fun ds =>
          LiteralText.based (if m.size.isEmpty = true then none else some (Nat.ofDigitChars 10 m.size 0))
            m.signed base ds
      else none) = if m.clean = [] then none
        else (digitsOf m.base m.clean).map (LiteralText.based (some m.width) m.signed m.base) := by
    rw [baseOf_baseChar, Option.bind_some, all_isLiteralDigit_clean, hsize, Bool.and_true]
    by_cases h : m.clean = []
    · rw [if_pos h, h]
      rfl
    · rw [if_neg h, if_pos (by rw [Bool.not_eq_true', List.isEmpty_eq_false_iff]; exact h)]
      rfl
  rw [text, literalText_quoted m.size_isDecimal m.not_space, List.filter_append, hrest, ← hbased, signed]
  rcases m.sign_eq with h | h | h
  · rw [h, basedText, List.filter_nil, List.nil_append, List.head?_cons, if_neg hsign]
    rfl
  · rw [h]
    rfl
  · rw [h]
    rfl

end SizedLiteral

theorem takeSign_append (rest : Line) : (takeSign rest).1 ++ (takeSign rest).2 = rest := by
  cases rest with
  | nil => rfl
  | cons c rest =>
    rw [takeSign]
    split <;> rfl

theorem beforeEnd_append (text : Line) : text = beforeEnd text ∨ text = beforeEnd text ++ ['\n'] := by
  rw [beforeEnd]
  split
  · next h =>
    obtain ⟨text', rfl⟩ := List.getLast?_eq_some_iff.mp h
    rw [List.dropLast_concat]
    exact Or.inr rfl
  · exact Or.inl rfl

/-- A text that matches is the text of its groups, up to a newline at the end. -/
theorem text_of_match {text : Line} {m : SizedLiteral} (h : matchSizedLiteral text = some m) :
    text = m.text ∨ text = m.text ++ ['\n'] := by
  have hsplit := List.takeWhile_append_dropWhile (p := Char.isDigit) (l := text)
  rw [matchSizedLiteral] at h
  cases hrest : text.dropWhile Char.isDigit with
  | nil =>
    rw [hrest] at h
    cases h
  | cons c rest =>
    rw [hrest] at h hsplit
    dsimp only at h
    split at h
    · next hc =>
      have hsign := takeSign_append rest
      rw [matchBased] at h
      cases hdigits : (takeSign rest).2 with
      | nil =>
        rw [hdigits] at h
        cases h
      | cons b digits =>
        rw [hdigits] at h hsign
        dsimp only at h
        split at h
        · obtain rfl := Option.some.inj h
          show text = text.takeWhile Char.isDigit ++ '\'' :: ((takeSign rest).1 ++ b :: beforeEnd digits) ∨
            text = (text.takeWhile Char.isDigit ++ '\'' :: ((takeSign rest).1 ++ b :: beforeEnd digits)) ++ ['\n']
          generalize text.takeWhile Char.isDigit = size at hsplit ⊢
          generalize (takeSign rest).1 = sign at hsign ⊢
          rw [← hsplit, ← hsign, hc]
          rcases beforeEnd_append digits with hd | hd
          · exact Or.inl (by rw [← hd])
          · refine Or.inr ?_
            conv_lhs => rw [hd]
            simp only [List.append_assoc, List.cons_append]
        · cases h
    · cases h

/-- A newline at the end is stripped off. -/
theorem literalText_newline (m : SizedLiteral) : literalText (m.text ++ ['\n']) = literalText m.text := by
  have hstrip : strip (m.text ++ ['\n']) = strip m.text := by
    have hhead : ∀ t : Line, (m.text ++ t).dropWhile isSpace = m.text ++ t := by
      intro t
      refine dropWhile_of_head fun c hc => ?_
      have hsize := m.size_isDecimal
      rw [isDecimal, Bool.and_eq_true, Bool.not_eq_true', List.isEmpty_eq_false_iff] at hsize
      obtain ⟨d, ds, hd⟩ := List.exists_cons_of_ne_nil hsize.1
      rw [SizedLiteral.text, hd] at hc
      cases hc
      exact not_space_of_digit (List.all_eq_true.mp hsize.2 c (by rw [hd]; exact List.mem_cons_self))
    have hnil := hhead []
    rw [List.append_nil] at hnil
    rw [strip, strip, hhead, hnil, rstrip, rstrip, List.rdropWhile_concat_pos _ _ _ rfl]
  rw [literalText, literalText, hstrip]

/-! ## The number that digits denote -/

theorem radixDigit_eq_some {radix : Nat} {c : Char} {d : Nat} (h : radixDigit radix c = some d) :
    hexDigit c = some d ∧ d < radix := by
  obtain ⟨hd, hlt⟩ := Option.filter_eq_some_iff.mp h
  exact ⟨hd, of_decide_eq_true hlt⟩

theorem isUnknownChar_of_hexDigit {c : Char} {d : Nat} (h : hexDigit c = some d) : isUnknownChar c = false := by
  refine decide_eq_false fun hmem => ?_
  simp only [List.mem_cons, List.not_mem_nil, or_false] at hmem
  rcases hmem with rfl | rfl | rfl | rfl | rfl <;> cases h

/-- A digit of the radix is read as its number. -/
theorem digitOf_of_radixDigit {base : Base} {c : Char} {d : Nat} (h : radixDigit base.radix c = some d) :
    digitOf base c = some (.num (Fin.ofNat 16 d)) := by
  obtain ⟨hd, hlt⟩ := radixDigit_eq_some h
  have hknown := isUnknownChar_of_hexDigit hd
  rw [isUnknownChar, decide_eq_false_iff_not] at hknown
  simp only [List.mem_cons, List.not_mem_nil, or_false, not_or] at hknown
  obtain ⟨hx, hX, hz, hZ, hq⟩ := hknown
  rw [digitOf.eq_def, if_neg (not_or.mpr ⟨hx, hX⟩), if_neg (not_or.mpr ⟨hz, hZ⟩), if_neg hq]
  cases base with
  | bin =>
    have hlt2 : d < 2 := hlt
    rw [eq_digitChar hd (by omega)]
    interval_cases d <;> rfl
  | oct =>
    show (hexDigit c).bind _ = _
    rw [hd, Option.bind_some]
    exact if_pos hlt
  | dec =>
    show (hexDigit c).bind _ = _
    rw [hd, Option.bind_some]
    exact if_pos hlt
  | hex =>
    show (hexDigit c).map _ = _
    rw [hd]
    rfl

/-- The digits of a number, read one by one. -/
theorem digits_of_foldlM {base : Base} {text : Line} {a v : Nat}
    (h : text.foldlM (pushRadix base.radix) a = some v) :
    text.any isUnknownChar = false ∧ ∃ ks : List (Fin 16), text.mapM (digitOf base) = some (ks.map .num) ∧
      (∀ k ∈ ks, k.val < base.radix) ∧ ks.foldl (fun n k => base.radix * n + k.val) a = v := by
  induction text generalizing a with
  | nil =>
    cases h
    exact ⟨rfl, [], rfl, fun k hk => absurd hk List.not_mem_nil, rfl⟩
  | cons c text ih =>
    rw [List.foldlM_cons] at h
    obtain ⟨n, hn, h⟩ := Option.bind_eq_some_iff.mp h
    rw [pushRadix] at hn
    obtain ⟨d, hd, rfl⟩ := Option.map_eq_some_iff.mp hn
    obtain ⟨hhex, hlt⟩ := radixDigit_eq_some hd
    obtain ⟨hany, ks, hks, hlts, hfold⟩ := ih h
    have h16 : (Fin.ofNat 16 d).val = d := Nat.mod_eq_of_lt (lt_of_lt_of_le hlt (by cases base <;> decide))
    refine ⟨?_, Fin.ofNat 16 d :: ks, ?_, ?_, ?_⟩
    · rw [List.any_cons, isUnknownChar_of_hexDigit hhex, hany]
      rfl
    · rw [List.mapM_cons, digitOf_of_radixDigit hd, hks]
      rfl
    · intro k hk
      rcases List.mem_cons.mp hk with rfl | hk
      · rw [h16]
        exact hlt
      · exact hlts k hk
    · rw [List.foldl_cons, h16]
      exact hfold

theorem decimalInt_map_num (ks : List (Fin 16)) :
    decimalInt (ks.map .num) = some (ks.foldl (fun n k => 10 * n + k.val) 0) := by
  rw [decimalInt, List.foldl_map]
  generalize 0 = a
  induction ks generalizing a with
  | nil => rfl
  | cons k ks ih => exact ih _

theorem digitsInt_map_num (j : Nat) (ks : List (Fin 16)) :
    digitsInt j (ks.map .num) = ks.foldl (fun n k => 2 ^ j * n + k.val) 0 := by
  rw [digitsInt, List.foldl_map]

theorem any_isXz_map_num (ks : List (Fin 16)) : (ks.map Digit.num).any Digit.isXz = false := by
  rw [List.any_map]
  exact List.any_eq_false.mpr fun k _ => Bool.false_ne_true

/-- A text that `int` takes is read as its number, whatever the base. -/
theorem fromVerilog_of_intOf {base : Base} {text : Line} {v : Nat} (h : intOf base.radix text = some v) :
    text ≠ [] ∧ ∃ ds, digitsOf base text = some ds ∧
      ∀ n signed, Literal.fromVerilog (.based (some n) signed base ds) = some (Value.ofInt v n) := by
  rw [intOf] at h
  split at h
  · cases h
  next hne =>
  obtain ⟨hany, ks, hks, hlt, hfold⟩ := digits_of_foldlM h
  refine ⟨hne, ks.map .num, ?_, fun n signed => ?_⟩
  · rw [digitsOf, hany, if_neg (by simp), hks]
  · by_cases hbase : base = .dec
    · subst hbase
      exact fromVerilog_dec (by rw [decimalInt_map_num]; exact congrArg some hfold)
    · have hpow : base.radix = 2 ^ base.bits := by
        cases base with
        | dec => exact absurd rfl hbase
        | bin | oct | hex => rfl
      have hbelow : ∀ d ∈ ks.map Digit.num, d.below base := by
        intro d hd
        obtain ⟨k, hk, rfl⟩ := List.mem_map.mp hd
        exact Or.inr (hpow ▸ hlt k hk)
      rw [fromVerilog_based (any_isXz_map_num ks) hbelow hbase, digitsInt_map_num, ← hpow, hfold]

theorem hexDigit_digitChar {d : Nat} (h : d < 16) : hexDigit d.digitChar = some d := by
  interval_cases d <;> rfl

theorem pushRadix_digitChar {radix n d : Nat} (hd : d < radix) (hradix : radix ≤ 16) :
    pushRadix radix n d.digitChar = some (radix * n + d) := by
  rw [pushRadix, radixDigit, hexDigit_digitChar (by omega), Option.filter_some, if_pos (decide_eq_true hd)]
  rfl

/-- `int` takes back what a number was printed as. -/
theorem intOf_toDigits (base : Base) (n : Nat) : intOf base.radix (Nat.toDigits base.radix n) = some n := by
  have hradix : 1 < base.radix ∧ base.radix ≤ 16 := by cases base <;> decide
  rw [intOf, if_neg Nat.toDigits_ne_nil]
  induction n using Nat.strong_induction_on with
  | _ n ih =>
    rw [Nat.toDigits_eq_if hradix.1]
    split
    · next h =>
      rw [List.foldlM_cons, pushRadix_digitChar h hradix.2, Nat.mul_zero, Nat.zero_add]
      rfl
    · next h =>
      have hmod : n % base.radix < base.radix := Nat.mod_lt _ (by omega)
      rw [List.foldlM_append, ih _ (Nat.div_lt_self (by omega) hradix.1)]
      show (some (n / base.radix)).bind _ = _
      rw [Option.bind_some, List.foldlM_cons, pushRadix_digitChar hmod hradix.2, Nat.div_add_mod]
      rfl

/-! ## Spelling keeps the reading -/

/-- The signedness marker that a text is read with. -/
def signMarker (text : Line) : Option Bool :=
  (literalText text).map fun t =>
    match t with
    | .based _ signed _ _ => signed
    | _ => false

section

variable {ρ : Type} {rng : Rng ρ}

theorem literalText_congr {m m' : SizedLiteral} (hwidth : m'.size = m.size) (hsign : m'.sign = m.sign)
    (hbase : m'.base = m.base) (hclean : m'.clean = [] ↔ m.clean = [])
    (hdigits : digitsOf m'.base m'.clean = digitsOf m.base m.clean) : literalText m'.text = literalText m.text := by
  rw [SizedLiteral.literalText_text, SizedLiteral.literalText_text, hdigits, hbase, SizedLiteral.width,
    SizedLiteral.signed, hwidth, hsign, SizedLiteral.width, SizedLiteral.signed]
  by_cases h : m.clean = []
  · rw [if_pos h, if_pos (hclean.mpr h)]
  · rw [if_neg h, if_neg fun h' => h (hclean.mp h')]

theorem filter_map_toUpper (text : Line) :
    (text.map Char.toUpper).filter (· ≠ '_') = (text.filter (· ≠ '_')).map Char.toUpper := by
  rw [List.filter_map]
  refine congrArg _ (List.filter_congr fun c _ => ?_)
  rw [Function.comp_apply, Bool.eq_iff_iff, decide_eq_true_eq, decide_eq_true_eq, not_iff_not, ← beq_iff_eq,
    underscore_toUpper, beq_iff_eq]

theorem digitOf_toUpper (base : Base) (c : Char) : digitOf base c.toUpper = digitOf base c := by
  rcases upper_cases c with h | ⟨n, hlo, hhi, rfl⟩
  · rw [h]
  · interval_cases n <;> cases base <;> rfl

theorem digitsOf_map_toUpper (base : Base) (text : Line) :
    digitsOf base (text.map Char.toUpper) = digitsOf base text := by
  have hmap : (text.map Char.toUpper).mapM (digitOf base) = text.mapM (digitOf base) := by
    induction text with
    | nil => rfl
    | cons c text ih => rw [List.map_cons, List.mapM_cons, List.mapM_cons, digitOf_toUpper, ih]
  have hany : (text.map Char.toUpper).any isUnknownChar = text.any isUnknownChar := by
    rw [List.any_map]
    simp only [Function.comp_def, isUnknownChar_toUpper]
  rw [digitsOf, digitsOf, hmap, hany]

/-- Upper case is read as lower case is. -/
theorem literalText_changeCase (m : SizedLiteral) (s : ρ) :
    literalText (changeCase rng m s).1.text = literalText m.text := by
  rw [changeCase]
  dsimp only
  split
  · refine literalText_congr rfl rfl ?_ ?_ ?_
    · exact Option.get_congr (baseOf_toUpper m.baseChar)
    · show (m.digits.map Char.toUpper).filter _ = [] ↔ _
      rw [filter_map_toUpper, List.map_eq_nil_iff]
      rfl
    · show digitsOf (Option.get (baseOf m.baseChar.toUpper) _) ((m.digits.map Char.toUpper).filter _) = _
      rw [filter_map_toUpper, digitsOf_map_toUpper]
      exact congrArg (fun base => digitsOf base m.clean) (Option.get_congr (baseOf_toUpper m.baseChar))
  · rfl

/-- A separator is not read. -/
theorem literalText_separate (m : SizedLiteral) (s : ρ) :
    literalText (separate rng m s).1.text = literalText m.text := by
  have hclean : ∀ cut, (m.digits.take cut ++ '_' :: m.digits.drop cut).filter (· ≠ '_') = m.clean := by
    intro cut
    rw [List.filter_append, List.filter_cons, if_neg (by decide), ← List.filter_append, List.take_append_drop,
      SizedLiteral.clean]
  rw [separate]
  split
  · dsimp only
    split
    · refine literalText_congr rfl rfl rfl ?_ ?_
      · show List.filter _ _ = [] ↔ _
        rw [hclean]
      · show digitsOf m.base (List.filter _ _) = _
        rw [hclean]
    · rfl
  · rfl

theorem clean_clean (m : SizedLiteral) : m.clean.filter (· ≠ '_') = m.clean := by
  rw [SizedLiteral.clean, List.filter_filter]
  simp

theorem literalText_cleaned (m : SizedLiteral) :
    literalText (SizedLiteral.text { m with digits := m.clean, digits_all := all_isSizedDigit_clean m }) =
      literalText m.text := by
  refine literalText_congr rfl rfl rfl ?_ ?_
  · show m.clean.filter _ = [] ↔ _
    rw [clean_clean]
  · show digitsOf m.base (m.clean.filter _) = _
    rw [clean_clean]

/-- A number is read alike in every base. -/
theorem changeBase_reads {m m' : SizedLiteral} {s s' : ρ} (h : changeBase rng m s = some (m', s')) :
    Value.fromVerilog m'.text = Value.fromVerilog m.text ∧ signMarker m'.text = signMarker m.text := by
  have hcleaned := literalText_cleaned m
  rw [changeBase] at h
  dsimp only at h
  split at h
  · cases h
    rw [Value.fromVerilog, signMarker, hcleaned]
    exact ⟨rfl, rfl⟩
  split at h
  · obtain ⟨value, hvalue, h⟩ := Option.map_eq_some_iff.mp h
    split at h
    · obtain rfl := (Prod.mk.inj h).1
      generalize (rng.randrange 4 (rng.below 60 s).2).1 = i
      have hbase : baseOf (baseAt i).letter = some (baseAt i) := by cases baseAt i <;> rfl
      have hplain : (Nat.toDigits (baseAt i).radix value).filter (· ≠ '_') = Nat.toDigits (baseAt i).radix value := by
        refine List.filter_eq_self.mpr fun c hc => decide_eq_true ?_
        rintro rfl
        exact absurd (List.all_eq_true.mp (all_isLiteralDigit_toDigits _ _) _ hc) (by decide)
      obtain ⟨hne, ds, hds, hread⟩ := fromVerilog_of_intOf hvalue
      obtain ⟨hne', ds', hds', hread'⟩ := fromVerilog_of_intOf (intOf_toDigits (baseAt i) value)
      have hold : literalText m.text = some (.based (some m.width) m.signed m.base ds) := by
        rw [SizedLiteral.literalText_text, if_neg hne, hds]
        rfl
      have hnew : literalText (SizedLiteral.text { m with
          baseChar := (baseAt i).letter, digits := Nat.toDigits (baseAt i).radix value,
          baseOf_isSome := by rw [hbase]; rfl, digits_all := all_isSizedDigit_toDigits (baseAt i) value }) =
            some (.based (some m.width) m.signed (baseAt i) ds') := by
        rw [SizedLiteral.literalText_text, SizedLiteral.clean, hplain, if_neg hne']
        show (digitsOf (Option.get (baseOf (baseAt i).letter) _) _).map
          (LiteralText.based _ _ (Option.get (baseOf (baseAt i).letter) _)) = _
        rw [Option.get_of_eq_some _ hbase, hds']
        rfl
      rw [Value.fromVerilog, Value.fromVerilog, signMarker, signMarker, hold, hnew, Option.bind_some,
        Option.bind_some, hread, hread']
      exact ⟨rfl, rfl⟩
    · obtain rfl := (Prod.mk.inj h).1
      rw [Value.fromVerilog, signMarker, hcleaned]
      exact ⟨rfl, rfl⟩
  · cases h
    rw [Value.fromVerilog, signMarker, hcleaned]
    exact ⟨rfl, rfl⟩

/-- The text written is read as the one given. -/
theorem respellLiteral_reads {text text' : Line} {s s' : ρ} (h : respellLiteral rng text s = some (text', s')) :
    Value.fromVerilog text' = Value.fromVerilog text ∧ signMarker text' = signMarker text := by
  rw [respellLiteral] at h
  cases hmatch : matchSizedLiteral text with
  | none =>
    rw [hmatch] at h
    cases h
    exact ⟨rfl, rfl⟩
  | some m =>
    rw [hmatch] at h
    obtain ⟨⟨m', s''⟩, hchange, h⟩ := Option.map_eq_some_iff.mp h
    obtain ⟨hread, hsign⟩ := changeBase_reads hchange
    have htext : literalText text = literalText m.text := by
      rcases text_of_match hmatch with h | h
      · rw [h]
      · rw [h, literalText_newline]
    have htext' : text' = (separate rng (changeCase rng m' s'').1 (changeCase rng m' s'').2).1.text :=
      (congrArg Prod.fst h).symm
    have hlast : literalText (separate rng (changeCase rng m' s'').1 (changeCase rng m' s'').2).1.text =
        literalText m'.text :=
      (literalText_separate (changeCase rng m' s'').1 (changeCase rng m' s'').2).trans
        (literalText_changeCase m' s'')
    rw [Value.fromVerilog, signMarker, htext', hlast, Value.fromVerilog, signMarker, htext]
    exact ⟨hread, hsign⟩

end

/-! ## Digits of the base -/

/-- The digits are some, and each is unknown or one of the base. -/
def SizedLiteral.Proper (m : SizedLiteral) : Prop :=
  m.clean ≠ [] ∧ ∀ c ∈ m.clean, isUnknownChar c = true ∨ (radixDigit m.base.radix c).isSome = true

theorem foldlM_isSome {radix : Nat} {text : Line} (h : ∀ c ∈ text, (radixDigit radix c).isSome = true) (a : Nat) :
    (text.foldlM (pushRadix radix) a).isSome = true := by
  induction text generalizing a with
  | nil => rfl
  | cons c text ih =>
    obtain ⟨d, hd⟩ := Option.isSome_iff_exists.mp (h c List.mem_cons_self)
    rw [List.foldlM_cons, pushRadix, hd]
    exact ih (fun c hc => h c (List.mem_cons_of_mem _ hc)) _

/-- A literal with digits of its base is spelled, whatever is drawn. -/
theorem respellLiteral_isSome {ρ : Type} (rng : Rng ρ) {text : Line}
    (h : ∀ m, matchSizedLiteral text = some m → m.Proper) (s : ρ) :
    (respellLiteral rng text s).isSome = true := by
  rw [respellLiteral]
  cases hmatch : matchSizedLiteral text with
  | none => rfl
  | some m =>
    obtain ⟨hne, hdigits⟩ := h m hmatch
    show (Option.map _ (changeBase rng m s)).isSome = true
    rw [Option.isSome_map, changeBase]
    dsimp only
    split
    · rfl
    next hany =>
    split
    · have hradix : ∀ c ∈ m.clean, (radixDigit m.base.radix c).isSome = true := by
        intro c hc
        exact (hdigits c hc).resolve_left fun hx => hany (List.any_eq_true.mpr ⟨c, hc, hx⟩)
      rw [Option.isSome_map, intOf, if_neg hne]
      exact foldlM_isSome hradix 0
    · rfl

end Emit

end Veriforge

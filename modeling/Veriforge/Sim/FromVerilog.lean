import Veriforge.Const.Number
import Veriforge.Text

/-! # Literals as text

`Value.from_verilog` on ASCII text, and the texts that `str` and `to_hex` make of a value. -/

namespace Veriforge

namespace Literal

/-! ## Reading a text -/

/-- A digit of the text: `_parse_binary` takes any digit but `1` and the unknown ones for a zero, `int` raises on one
that the base does not have. -/
def digitOf (base : Base) (c : Char) : Option Digit :=
  if c = 'x' ∨ c = 'X' then some .x
  else if c = 'z' ∨ c = 'Z' then some .z
  else if c = '?' then some .question
  else
    match base with
    | .bin => some (if c = '1' then .num 1 else .num 0)
    | .oct => (hexDigit c).bind fun d => if d < 8 then some (.num (Fin.ofNat 16 d)) else none
    | .dec => (hexDigit c).bind fun d => if d < 10 then some (.num (Fin.ofNat 16 d)) else none
    | .hex => (hexDigit c).map fun d => .num (Fin.ofNat 16 d)

/-- `[xXzZ?]` -/
def isUnknownChar (c : Char) : Bool := c ∈ ['x', 'X', 'z', 'Z', '?']

/-- `[0-9a-fA-FxXzZ?]` -/
def isLiteralDigit (c : Char) : Bool := (hexDigit c).isSome || isUnknownChar c

/-- `[bBoOdDhH]` -/
def baseOf (c : Char) : Option Base :=
  if c = 'b' ∨ c = 'B' then some .bin
  else if c = 'o' ∨ c = 'O' then some .oct
  else if c = 'd' ∨ c = 'D' then some .dec
  else if c = 'h' ∨ c = 'H' then some .hex
  else none

/-- The digits of a based literal; a decimal one with an unknown digit is unknown as a whole. -/
def digitsOf (base : Base) (text : Line) : Option (List Digit) :=
  if base = .dec ∧ text.any isUnknownChar then some [.x] else text.mapM (digitOf base)

/-- `str.isdigit` -/
def isDecimal (text : Line) : Bool := !text.isEmpty && text.all Char.isDigit

/-- What follows the quote of a based literal. -/
def basedText (size : Line) (text : Line) : Option LiteralText :=
  let (signed, text) := if text.head? = some 's' ∨ text.head? = some 'S' then (true, text.tail) else (false, text)
  match text with
  | [] => none
  | c :: digits =>
      (baseOf c).bind fun base =>
        if !digits.isEmpty && digits.all isLiteralDigit then
          (digitsOf base digits).map fun ds =>
            .based (if size.isEmpty then none else some (Nat.ofDigitChars 10 size 0)) signed base ds
        else none

/-- The literal that a text is; `none` where `from_verilog` raises. -/
def literalText (text : Line) : Option LiteralText :=
  let text := (strip text).filter (· ≠ '_')
  if isDecimal text then some (.decimal (Nat.ofDigitChars 10 text 0))
  else if text.head? = some '-' ∧ isDecimal text.tail then
    some (.decimal (-(Nat.ofDigitChars 10 text.tail 0 : Int)))
  else
    match text.dropWhile Char.isDigit with
    | c :: rest => if c = '\'' then basedText (text.takeWhile Char.isDigit) rest else none
    | [] => none

end Literal

namespace Value

/-- `Value.from_verilog` -/
def fromVerilog (text : Line) : Option Value := (Literal.literalText text).bind Literal.fromVerilog

/-- A binary digit of `str`. -/
def bitChar (v : Value) (i : Nat) : Char :=
  if v.mask.testBit i then 'x' else if v.val.testBit i then '1' else '0'

/-- `Value.__str__` -/
def str (v : Value) : Line :=
  Nat.toDigits 10 v.width ++ '\'' :: 'b' :: (List.range v.width).reverse.map v.bitChar

/-- `Value.to_hex` -/
def toHex (v : Value) : Line :=
  if v.mask = 0 then
    Nat.toDigits 10 v.width ++ '\'' :: 'h' :: (Nat.toDigits 16 v.val).leftpad ((v.width + 3) / 4) '0'
  else v.str

end Value

/-! ## What digits denote -/

/-- A bit of a digit, unknown in an `x`, `z` or `?`. -/
def Digit.bit (j : Nat) : Digit → Option Bool
  | .num d => some (d.val.testBit j)
  | _ => none

/-- Bit `i` of digits of `k` bits each: that of its digit, and beyond the leftmost digit unknown if that digit is,
zero otherwise. -/
def digitsBit (k : Nat) (digits : List Digit) (i : Nat) : Option Bool :=
  (digits.reverse[i / k]?).elim (if digits.head?.any Digit.isXz then none else some false) (Digit.bit (i % k))

/-- The value of `n` bits that the digits denote. -/
def DigitsDenote (n k : Nat) (digits : List Digit) (v : Value) : Prop :=
  v.width = n ∧ ∀ i < n, v.bit i = digitsBit k digits i

/-- A digit of the base, as the standard has it. -/
def Base.digit? (base : Base) (c : Char) : Option Digit :=
  if c = 'x' ∨ c = 'X' then some .x
  else if c = 'z' ∨ c = 'Z' then some .z
  else if c = '?' then some .question
  else (hexDigit c).bind fun d => if d < 2 ^ base.bits then some (.num (Fin.ofNat 16 d)) else none

/-- The letter of a base. -/
def Base.letter : Base → Char
  | .bin => 'b'
  | .oct => 'o'
  | .dec => 'd'
  | .hex => 'h'

namespace Literal

/-! ## The bits of digits -/

theorem reverse_append_singleton_getElem? {k : Nat} (hk : 0 < k) (digits : List Digit) (d : Digit) (i : Nat) :
    (digits ++ [d]).reverse[i / k]? = if i < k then some d else digits.reverse[(i - k) / k]? := by
  rw [List.reverse_append, List.reverse_singleton, List.singleton_append]
  split
  · next h => rw [Nat.div_eq_of_lt h]; rfl
  · next h =>
    obtain ⟨j, rfl⟩ : ∃ j, i = j + k := ⟨i - k, by omega⟩
    rw [Nat.add_div_right _ hk, Nat.add_sub_cancel]
    rfl

/-- The bits that digits are shifted in to. -/
theorem testBit_foldl_pushDigit {k : Nat} (hk : 0 < k) {digits : List Digit}
    (hlt : ∀ d ∈ digits, ∀ c, d = .num c → c.val < 2 ^ k) (i : Nat) :
    (if (digits.foldl (pushDigit k) (0, 0)).2.testBit i then none
      else some ((digits.foldl (pushDigit k) (0, 0)).1.testBit i)) =
      (digits.reverse[i / k]?).elim (some false) (Digit.bit (i % k)) := by
  induction digits using List.reverseRecOn generalizing i with
  | nil => simp
  | append_singleton digits d ih =>
    have ih := ih fun d' hd' => hlt d' (List.mem_append_left _ hd')
    have hd := hlt d (List.mem_append_right _ List.mem_cons_self)
    rw [List.foldl_append, List.foldl_cons, List.foldl_nil, reverse_append_singleton_getElem? hk]
    generalize digits.foldl (pushDigit k) (0, 0) = acc at ih ⊢
    by_cases hi : i < k
    · -- a bit of the last digit
      rw [if_pos hi, Option.elim_some, Nat.mod_eq_of_lt hi]
      have hki : ¬ k ≤ i := by omega
      cases d <;> simp [pushDigit, Digit.bit, Nat.testBit_shiftLeft, Nat.testBit_two_pow_sub_one, hi, hki]
    · have hki : k ≤ i := Nat.le_of_not_lt hi
      rw [if_neg hi, Nat.mod_eq_sub_mod hki, ← ih (i - k)]
      cases d with
      | num c =>
        have hc : c.val.testBit i = false :=
          Nat.testBit_lt_two_pow (lt_of_lt_of_le (hd c rfl) (Nat.pow_le_pow_right Nat.two_pos hki))
        simp [pushDigit, Nat.testBit_shiftLeft, hki, hc]
      | x | z | question => simp [pushDigit, Nat.testBit_shiftLeft, Nat.testBit_two_pow_sub_one, hki, hi]

theorem bit_parseDigits {k : Nat} (hk : 0 < k) {digits : List Digit}
    (hlt : ∀ d ∈ digits, ∀ c, d = .num c → c.val < 2 ^ k) {w i : Nat} (hi : i < w) :
    (parseDigits k digits w).bit i = (digits.reverse[i / k]?).elim (some false) (Digit.bit (i % k)) := by
  rw [parseDigits, Value.bit_init, if_pos hi, testBit_foldl_pushDigit hk hlt]

/-- Digits are parsed to the value that they denote. -/
theorem denote_xzExtend {k : Nat} (hk : 0 < k) {digits : List Digit}
    (hlt : ∀ d ∈ digits, ∀ c, d = .num c → c.val < 2 ^ k) (w : Nat) :
    DigitsDenote w k digits (xzExtend (parseDigits k digits w) digits k) := by
  refine ⟨xzExtend_width _ _ _, fun i hi => ?_⟩
  have hbit := bit_parseDigits hk hlt hi
  have hbeyond : ¬ i / k < digits.length ↔ digits.length * k ≤ i := by
    rw [Nat.not_lt, Nat.le_div_iff_mul_le hk]
  cases digits with
  | nil => rw [xzExtend, hbit, digitsBit]; rfl
  | cons d ds =>
    have hwidth : (parseDigits k (d :: ds) w).width = w := rfl
    rw [digitsBit, List.head?_cons, Option.any_some, xzExtend]
    by_cases hxz : d.isXz = true
    · rw [if_pos hxz]
      by_cases hlen : i / k < (d :: ds).length
      · -- a bit of the digits
        have hi' : i < (d :: ds).length * k := by
          by_contra h
          exact hbeyond.mpr (Nat.le_of_not_lt h) hlen
        have hget : ∃ d', (d :: ds).reverse[i / k]? = some d' :=
          ⟨_, List.getElem?_eq_getElem (by rwa [List.length_reverse])⟩
        obtain ⟨d', hd'⟩ := hget
        rw [hd'] at hbit ⊢
        split
        · exact hbit
        · rw [Value.bit_init, hwidth, if_pos hi, Nat.testBit_or, Nat.testBit_xor, testBit_maskForWidth,
            testBit_maskForWidth, decide_eq_true hi, decide_eq_true hi', Bool.xor_self, Bool.or_false]
          exact hbit
      · have hi' := hbeyond.mp hlen
        rw [List.getElem?_eq_none (by rw [List.length_reverse]; omega), Option.elim_none]
        have hw : ¬ (!d.isXz || decide ((parseDigits k (d :: ds) w).width ≤ (d :: ds).length * k)) = true := by
          rw [hwidth, hxz]
          simpa using lt_of_le_of_lt hi' hi
        rw [if_neg hw, Value.bit_init, hwidth, if_pos hi, Nat.testBit_or, Nat.testBit_xor, testBit_maskForWidth,
          testBit_maskForWidth, decide_eq_true hi, decide_eq_false (Nat.not_lt.mpr hi'), Bool.xor_false,
          Bool.or_true]
        rfl
    · rw [if_pos (by simp [hxz]), if_neg hxz, hbit]

/-! ## The text of a based literal -/

theorem eq_digitChar {c : Char} {d : Nat} (h : hexDigit c = some d) (hd : d < 10) : c = Nat.digitChar d := by
  rw [hexDigit] at h
  split at h
  · next hc =>
    obtain rfl := Option.some.inj h
    have hlo : 48 ≤ c.toNat := hc.1
    have hhi : c.toNat ≤ 57 := hc.2
    rw [← Char.ofNat_toNat c]
    generalize c.toNat = n at hlo hhi
    interval_cases n <;> rfl
  · split at h
    · cases h; omega
    · split at h
      · cases h; omega
      · cases h

/-- A digit of the base is read as such. -/
theorem digitOf_of_digit? {base : Base} (hbase : base ≠ .dec) {c : Char} {d : Digit} (h : base.digit? c = some d) :
    digitOf base c = some d ∧ isLiteralDigit c = true ∧ isSpace c = false := by
  rw [Base.digit?] at h
  rw [digitOf.eq_def]
  split at h
  · next hc => rw [if_pos hc]; rcases hc with rfl | rfl <;> exact ⟨h, rfl, rfl⟩
  rw [if_neg ‹_›]
  split at h
  · next hc => rw [if_pos hc]; rcases hc with rfl | rfl <;> exact ⟨h, rfl, rfl⟩
  rw [if_neg ‹_›]
  split at h
  · next hc => rw [if_pos hc, hc]; exact ⟨h, rfl, rfl⟩
  rw [if_neg ‹_›]
  obtain ⟨n, hn, hd⟩ := Option.bind_eq_some_iff.mp h
  refine ⟨?_, by rw [isLiteralDigit, hn]; rfl, not_space_of_hexDigit hn⟩
  split at hd
  · next hlt =>
    cases base with
    | bin =>
      have hn2 : n < 2 := hlt
      rw [eq_digitChar hn (by omega)]
      interval_cases n <;> exact hd
    | oct =>
      show (hexDigit c).bind _ = _
      rw [hn, Option.bind_some, ← hd]
      exact if_pos hlt
    | hex =>
      show (hexDigit c).map _ = _
      rw [hn, ← hd]
      rfl
    | dec => exact absurd rfl hbase
  · cases hd

theorem mapM_digitOf {base : Base} (hbase : base ≠ .dec) {cs : Line} {ds : List Digit}
    (h : cs.mapM base.digit? = some ds) : digitsOf base cs = some ds ∧ cs.all isLiteralDigit = true := by
  rw [digitsOf, if_neg fun hb => hbase hb.1]
  induction cs generalizing ds with
  | nil => cases h; exact ⟨rfl, rfl⟩
  | cons c cs ih =>
    rw [List.mapM_cons] at h ⊢
    obtain ⟨d, hd, h⟩ := Option.bind_eq_some_iff.mp h
    obtain ⟨ds', hds, h⟩ := Option.bind_eq_some_iff.mp h
    obtain ⟨hdigit, hlit, -⟩ := digitOf_of_digit? hbase hd
    obtain ⟨hds', hall⟩ := ih hds
    rw [hdigit, List.all_cons, hlit, hall]
    refine ⟨?_, rfl⟩
    show (cs.mapM (digitOf base)).bind _ = _
    rw [hds']
    exact h

theorem mem_digit {base : Base} {cs : Line} {ds : List Digit} (h : cs.mapM base.digit? = some ds) {c : Char}
    (hc : c ∈ cs) : ∃ d, base.digit? c = some d := by
  induction cs generalizing ds with
  | nil => cases hc
  | cons c' cs ih =>
    rw [List.mapM_cons] at h
    obtain ⟨d, hd, h⟩ := Option.bind_eq_some_iff.mp h
    obtain ⟨ds', hds, h⟩ := Option.bind_eq_some_iff.mp h
    rcases List.mem_cons.mp hc with rfl | hc
    · exact ⟨d, hd⟩
    · exact ih hds hc

/-- The text of a based literal. -/
def basedLiteral (n : Nat) (base : Base) (s : Line) : Line := Nat.toDigits 10 n ++ '\'' :: base.letter :: s

/-- A size, a quote and what follows it are read apart, with the separators left out. -/
theorem literalText_quoted {size rest : Line} (hsize : isDecimal size = true)
    (hrest : ∀ c ∈ rest, isSpace c = false) :
    literalText (size ++ '\'' :: rest) = basedText size (rest.filter (· ≠ '_')) := by
  rw [isDecimal, Bool.and_eq_true, Bool.not_eq_true', List.isEmpty_eq_false_iff] at hsize
  obtain ⟨hne, hall⟩ := hsize
  have hdigit := List.all_eq_true.mp hall
  have htoken : IsToken (size ++ '\'' :: rest) := by
    refine ⟨List.append_ne_nil_of_left_ne_nil hne _, fun c hc => ?_⟩
    rcases List.mem_append.mp hc with hc | hc
    · exact not_space_of_digit (hdigit c hc)
    · rcases List.mem_cons.mp hc with rfl | hc
      · rfl
      · exact hrest c hc
  have hstrip : strip (size ++ '\'' :: rest) = size ++ '\'' :: rest :=
    @strip_unwords [_] fun w hw => by rw [List.mem_singleton.mp hw]; exact htoken
  have hsizeFilter : size.filter (· ≠ '_') = size :=
    List.filter_eq_self.mpr fun c hc => by
      refine decide_eq_true ?_
      rintro rfl
      exact absurd (hdigit _ hc) (by decide)
  have hfilter : (size ++ '\'' :: rest).filter (· ≠ '_') = size ++ '\'' :: rest.filter (· ≠ '_') := by
    rw [List.filter_append, hsizeFilter, List.filter_cons, if_pos (by decide)]
  have hquote : ('\'').isDigit = false := rfl
  generalize rest.filter (· ≠ '_') = cs at hfilter ⊢
  have hdrop : (size ++ '\'' :: cs).dropWhile Char.isDigit = '\'' :: cs := by
    rw [dropWhile_append_of_all hall]
    rfl
  have htake : (size ++ '\'' :: cs).takeWhile Char.isDigit = size :=
    takeWhile_append_of_all hall fun c hc => by cases hc; rfl
  have hplain : isDecimal (size ++ '\'' :: cs) = false := by
    rw [isDecimal, List.all_append, List.all_cons, hquote, Bool.false_and, Bool.and_false, Bool.and_false]
  have hminus : ¬ ((size ++ '\'' :: cs).head? = some '-' ∧ isDecimal (size ++ '\'' :: cs).tail = true) := by
    rintro ⟨hhead, -⟩
    obtain ⟨c, size', rfl⟩ := List.exists_cons_of_ne_nil hne
    cases hhead
    exact absurd (hdigit _ List.mem_cons_self) (by decide)
  rw [literalText, hstrip, hfilter]
  show (if _ then _ else if _ then _ else _) = _
  rw [if_neg (by rw [hplain]; decide), if_neg hminus, hdrop, htake]
  exact if_pos rfl

/-- The text is read as its size, its base and its digits. -/
theorem literalText_basedLiteral {n : Nat} {base : Base} (hbase : base ≠ .dec) {s : Line} {ds : List Digit}
    (h : (s.filter (· ≠ '_')).mapM base.digit? = some ds) (hne : ds ≠ []) :
    literalText (basedLiteral n base s) = some (.based (some n) false base ds) := by
  have hspace : ∀ c ∈ base.letter :: s, isSpace c = false := by
    intro c hc
    rcases List.mem_cons.mp hc with rfl | hc
    · cases base <;> rfl
    by_cases hu : c = '_'
    · rw [hu]; rfl
    · obtain ⟨d, hd⟩ := mem_digit h (List.mem_filter.mpr ⟨hc, by simpa using hu⟩)
      exact (digitOf_of_digit? hbase hd).2.2
  have hsize : isDecimal (Nat.toDigits 10 n) = true := by
    rw [isDecimal, all_isDigit_toDigits, Bool.and_true, Bool.not_eq_true', List.isEmpty_eq_false_iff]
    exact Nat.toDigits_ne_nil
  have hletter : base.letter ≠ '_' := by cases base <;> decide
  obtain ⟨hds, hall⟩ := mapM_digitOf hbase h
  rw [basedLiteral, literalText_quoted hsize hspace, List.filter_cons, if_pos (decide_eq_true hletter)]
  generalize s.filter (· ≠ '_') = cs at hds hall h
  have hcs : cs ≠ [] := by
    rintro rfl
    cases h
    exact hne rfl
  have hsigned : ¬ (some base.letter = some 's' ∨ some base.letter = some 'S') := by cases base <;> decide
  have hbaseOf : baseOf base.letter = some base := by cases base <;> rfl
  have hempty : (Nat.toDigits 10 n).isEmpty = false := by
    rw [List.isEmpty_eq_false_iff]
    exact Nat.toDigits_ne_nil
  have hsome : cs.isEmpty = false := by rwa [List.isEmpty_eq_false_iff]
  rw [basedText, List.head?_cons, if_neg hsigned]
  show (baseOf base.letter).bind _ = _
  rw [hbaseOf, Option.bind_some, hsome, hall, hds, hempty, Nat.ofDigitChars_ten_toDigits]
  rfl

theorem digit_lt {base : Base} {cs : Line} {ds : List Digit} (h : cs.mapM base.digit? = some ds) :
    ∀ d ∈ ds, ∀ c, d = .num c → c.val < 2 ^ base.bits := by
  induction cs generalizing ds with
  | nil => cases h; exact fun d hd => nomatch hd
  | cons c cs ih =>
    rw [List.mapM_cons] at h
    obtain ⟨d, hd, h⟩ := Option.bind_eq_some_iff.mp h
    obtain ⟨ds', hds, h⟩ := Option.bind_eq_some_iff.mp h
    cases h
    rintro d' hd' k rfl
    rcases List.mem_cons.mp hd' with rfl | hd'
    · rw [Base.digit?] at hd
      split at hd
      · cases hd
      split at hd
      · cases hd
      split at hd
      · cases hd
      obtain ⟨n, hn, hd⟩ := Option.bind_eq_some_iff.mp hd
      split at hd
      · cases hd
        exact lt_of_le_of_lt (Nat.mod_le n 16) ‹_›
      · cases hd
    · exact ih hds _ hd' k rfl

end Literal

namespace Value

open Literal

/-- A based literal is read as the value that its digits denote. -/
theorem fromVerilog_basedLiteral {n : Nat} {base : Base} (hbase : base ≠ .dec) {s : Line} {ds : List Digit}
    (h : (s.filter (· ≠ '_')).mapM base.digit? = some ds) (hne : ds ≠ []) :
    ∃ v, fromVerilog (basedLiteral n base s) = some v ∧ DigitsDenote n base.bits ds v ∧
      v = xzExtend (parseDigits base.bits ds n) ds base.bits := by
  have hbits : 0 < base.bits := by cases base <;> first | exact absurd rfl hbase | decide
  refine ⟨_, ?_, denote_xzExtend hbits (digit_lt h) n, rfl⟩
  rw [fromVerilog, literalText_basedLiteral hbase h hne]
  cases base with
  | dec => exact absurd rfl hbase
  | bin | oct | hex => rfl

/-! ## Printing -/

/-- The digit that a bit is printed as. -/
def bitDigit (v : Value) (i : Nat) : Digit :=
  if v.mask.testBit i then .x else if v.val.testBit i then .num 1 else .num 0

theorem digit?_bitChar (v : Value) (i : Nat) : Base.bin.digit? (v.bitChar i) = some (v.bitDigit i) := by
  rw [bitChar, bitDigit]
  split
  · rfl
  · split <;> rfl

theorem bit_bitDigit (v : Value) (i : Nat) : (v.bitDigit i).bit 0 = v.bit i := by
  rw [bitDigit, bit]
  split
  · rfl
  · split
    · next h => rw [h]; rfl
    · next h => rw [Bool.not_eq_true] at h; rw [h]; rfl

theorem mapM_map {A B C : Type} {f : A → B} {g : B → Option C} {h : A → C} (hg : ∀ a, g (f a) = some (h a))
    (as : List A) : (as.map f).mapM g = some (as.map h) := by
  induction as with
  | nil => rfl
  | cons a as ih =>
    rw [List.map_cons, List.mapM_cons, hg, ih]
    rfl

/-- `str` is undone by reading. -/
theorem fromVerilog_str {v : Value} (h : 0 < v.width) : fromVerilog v.str = some v := by
  have hfilter : ((List.range v.width).reverse.map v.bitChar).filter (· ≠ '_') =
      (List.range v.width).reverse.map v.bitChar := by
    refine List.filter_eq_self.mpr fun c hc => ?_
    obtain ⟨i, -, rfl⟩ := List.mem_map.mp hc
    rw [bitChar]
    split
    · decide
    · split <;> decide
  have hdigits := mapM_map v.digit?_bitChar (List.range v.width).reverse
  rw [← hfilter] at hdigits
  obtain ⟨u, hu, ⟨hwidth, hbit⟩, -⟩ := fromVerilog_basedLiteral (n := v.width) (by decide) hdigits
    (by simpa using h.ne')
  show fromVerilog (basedLiteral v.width .bin _) = some v
  rw [hu, Option.some.injEq]
  refine ext_bit_lt hwidth fun i hi => ?_
  rw [hwidth] at hi
  rw [hbit i hi, digitsBit, ← List.map_reverse, List.reverse_reverse, List.getElem?_map, show Base.bin.bits = 1 from rfl,
    Nat.div_one, List.getElem?_range hi, Nat.mod_one]
  exact v.bit_bitDigit i

theorem digit?_digitChar {d : Nat} (h : d < 16) : Base.hex.digit? d.digitChar = some (.num (Fin.ofNat 16 d)) := by
  interval_cases d <;> rfl

/-- Hexadecimal digits are read as the number they are printed from. -/
theorem mapM_toDigits (n : Nat) : ∃ ds, (Nat.toDigits 16 n).mapM Base.hex.digit? = some ds ∧
    ds.any Digit.isXz = false ∧ digitsInt 4 ds = n := by
  induction n using Nat.strong_induction_on with
  | _ n ih =>
    rw [Nat.toDigits_eq_if (by decide)]
    split
    · next h =>
      refine ⟨[.num (Fin.ofNat 16 n)], ?_, rfl, ?_⟩
      · rw [List.mapM_cons, digit?_digitChar h]
        rfl
      · show 2 ^ 4 * 0 + n % 16 = n
        omega
    · next h =>
      obtain ⟨ds, hds, hxz, hint⟩ := ih (n / 16) (by omega)
      refine ⟨ds ++ [.num (Fin.ofNat 16 (n % 16))], ?_, ?_, ?_⟩
      · rw [List.mapM_append, hds, List.mapM_cons, digit?_digitChar (Nat.mod_lt _ (by decide))]
        rfl
      · rw [List.any_append, hxz]
        rfl
      · rw [digitsInt] at hint
        rw [digitsInt, List.foldl_append, hint]
        show 2 ^ 4 * (n / 16) + n % 16 % 16 = n
        omega

/-- Leading zeros do not change a number. -/
theorem mapM_leftpad (k n : Nat) : ∃ ds, ((Nat.toDigits 16 n).leftpad k '0').mapM Base.hex.digit? = some ds ∧
    ds ≠ [] ∧ ds.any Digit.isXz = false ∧ digitsInt 4 ds = n := by
  obtain ⟨ds, hds, hxz, hint⟩ := mapM_toDigits n
  have hne : ds ≠ [] := by
    rintro rfl
    obtain ⟨c, cs, hc⟩ := List.exists_cons_of_ne_nil (Nat.toDigits_ne_nil (n := n) (b := 16))
    rw [hc, List.mapM_cons] at hds
    obtain ⟨d, -, hds⟩ := Option.bind_eq_some_iff.mp hds
    obtain ⟨ds', -, hds⟩ := Option.bind_eq_some_iff.mp hds
    cases hds
  rw [List.leftpad]
  generalize k - (Nat.toDigits 16 n).length = m
  induction m with
  | zero => exact ⟨ds, hds, hne, hxz, hint⟩
  | succ m ih =>
    obtain ⟨ds', hds', -, hxz', hint'⟩ := ih
    refine ⟨.num 0 :: ds', ?_, List.cons_ne_nil _ _, hxz', hint'⟩
    rw [List.replicate_succ, List.cons_append, List.mapM_cons, hds']
    rfl

/-- `to_hex` is undone by reading. -/
theorem fromVerilog_toHex {v : Value} (h : 0 < v.width) : fromVerilog v.toHex = some v := by
  rw [toHex]
  split
  · next hmask =>
    obtain ⟨ds, hds, hne, hxz, hint⟩ := mapM_leftpad ((v.width + 3) / 4) v.val
    have hfilter : ((Nat.toDigits 16 v.val).leftpad ((v.width + 3) / 4) '0').filter (· ≠ '_') =
        (Nat.toDigits 16 v.val).leftpad ((v.width + 3) / 4) '0' := by
      refine List.filter_eq_self.mpr fun c hc => decide_eq_true ?_
      rintro rfl
      obtain ⟨d, hd⟩ := mem_digit hds hc
      cases hd
    have hdigits := hds
    rw [← hfilter] at hdigits
    obtain ⟨u, hu, -, hval⟩ := fromVerilog_basedLiteral (n := v.width) (by decide) hdigits hne
    show fromVerilog (basedLiteral v.width .hex _) = some v
    rw [hu, hval, parseDigits_of_known hxz (digit_lt hds), show Base.hex.bits = 4 from rfl, hint, Option.some.injEq]
    refine ext_bit_lt rfl fun i hi => ?_
    rw [bit_ofInt, decide_eq_true (show i < v.width from hi), Bool.true_and, bit_of_mask_eq_zero hmask]
  · exact fromVerilog_str h

/-- Based literals of one digit or more denote their digits, and reading undoes both ways of printing. -/
theorem fromVerilog_literals :
    (∀ (n : Nat) (base : Base) (s : Line) (ds : List Digit), 1 ≤ n → base ≠ .dec →
        (s.filter (· ≠ '_')).mapM base.digit? = some ds → ds ≠ [] →
        ∃ v, fromVerilog (basedLiteral n base s) = some v ∧ DigitsDenote n base.bits ds v) ∧
      ∀ v : Value, 1 ≤ v.width → fromVerilog v.str = some v ∧ fromVerilog v.toHex = some v := by
  refine ⟨fun n base s ds _ hbase h hne => ?_, fun v hv => ⟨fromVerilog_str hv, fromVerilog_toHex hv⟩⟩
  obtain ⟨v, hv, hdenote, -⟩ := fromVerilog_basedLiteral hbase h hne
  exact ⟨v, hv, hdenote⟩

/-- `5'hx_1` has its upper bit filled, and is printed in binary. -/
theorem fromVerilog_literals_fill :
    (∃ v, fromVerilog (basedLiteral 5 .hex "x_1".toList) = some v ∧ DigitsDenote 5 4 [.x, .num 1] v) ∧
      fromVerilog (Value.x 3).str = some (Value.x 3) ∧ fromVerilog (Value.x 3).toHex = some (Value.x 3) :=
  ⟨fromVerilog_literals.1 5 .hex "x_1".toList _ (by decide) (by decide) (by decide) (by decide),
    fromVerilog_literals.2 (Value.x 3) (by decide)⟩

/-- Underscores alone are no digits: `4'b_` is refused. -/
theorem fromVerilog_underscore :
    ¬ ∀ (n : Nat) (base : Base) (s : Line), 1 ≤ n → base ≠ .dec → s ≠ [] →
      (∀ c ∈ s, c = '_' ∨ base.digit? c ≠ none) → ∃ v, fromVerilog (basedLiteral n base s) = some v := by
  intro h
  have hchars : ∀ c ∈ ['_'], c = '_' ∨ Base.bin.digit? c ≠ none := by
    intro c hc
    exact Or.inl (List.mem_singleton.mp hc)
  obtain ⟨v, hv⟩ := h 4 .bin ['_'] (by decide) (by decide) (by decide) hchars
  have hnone : fromVerilog (basedLiteral 4 .bin ['_']) = none := by decide
  rw [hnone] at hv
  cases hv

end Value

end Veriforge

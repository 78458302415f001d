import Veriforge.Const.Fold
import Veriforge.Value.Encode

/-! # The literals of constant expressions

A literal of a closed expression evaluates to the encoding of the integer it folds to, on the width it is
counted with. -/

namespace Veriforge

open Value

/-- The bits of a digit; a decimal literal is not read digit by digit. -/
def Base.bits : Base → Nat
  | .bin => 1
  | .oct => 3
  | .hex => 4
  | .dec => 0

/-- The digit is one of the base. -/
def Digit.below (b : Base) : Digit → Prop
  | .num d => b = .dec ∨ d.val < 2 ^ b.bits
  | _ => True

/-- The literals of constant expressions: a plain decimal, a based number with its size, or a number built
without text. -/
inductive Literal.Number : Literal → Prop
  | decimal (n : Nat) : Number (.decimal n)
  | sized {size : Nat} {signed : Bool} {base : Base} {digits : List Digit} (hsize : 0 < size)
      (hdigits : ∀ d ∈ digits, d.below base) : Number (.sized (some size) signed base digits)
  | built {n : Int} {width : Option Nat} {signed : Bool} (hwidth : width ≠ some 0) :
      Number ⟨.int n, width, signed, false, false, .none⟩

namespace Literal

/-! ## Digits -/

/-- A fold that gives a number has done no step that does not give one. -/
theorem foldl_eq_some {step : Option Nat → Digit → Option Nat}
    (hstep : ∀ acc d, step acc d ≠ none → d.isXz = false ∧ acc ≠ none) (digits : List Digit) :
    ∀ (acc : Option Nat) {n : Nat}, digits.foldl step acc = some n → digits.any Digit.isXz = false ∧ acc ≠ none := by
  induction digits with
  | nil =>
    intro acc n h
    rw [List.foldl_nil] at h
    exact ⟨rfl, by rw [h]; exact Option.some_ne_none n⟩
  | cons d digits ih =>
    intro acc n h
    obtain ⟨hds, hne⟩ := ih (step acc d) h
    obtain ⟨hd, hacc⟩ := hstep acc d hne
    exact ⟨by rw [List.any_cons, hd, hds, Bool.or_false], hacc⟩

/-- Digits that read as a decimal number are no `x` or `z`. -/
theorem any_isXz_of_decimalInt {digits : List Digit} {n : Nat} (h : decimalInt digits = some n) :
    digits.any Digit.isXz = false := by
  refine (foldl_eq_some (fun acc d hne => ?_) digits (some 0) h).1
  cases acc with
  | none => exact absurd rfl hne
  | some m =>
    cases d with
    | num k => exact ⟨rfl, Option.some_ne_none m⟩
    | _ => exact absurd rfl hne

theorem or_eq_add {n d k : Nat} (hd : d < 2 ^ k) : (n <<< k) ||| d = 2 ^ k * n + d := by
  rw [Nat.shiftLeft_eq, Nat.mul_comm]
  exact (Nat.two_pow_add_eq_or_of_lt hd n).symm

/-- Known digits build their integer and no mask. -/
theorem foldl_pushDigit {k : Nat} {digits : List Digit} (hxz : digits.any Digit.isXz = false)
    (hlt : ∀ d ∈ digits, ∀ c, d = .num c → c.val < 2 ^ k) :
    digits.foldl (pushDigit k) (0, 0) = (digitsInt k digits, 0) := by
  have hfold : ∀ (ds : List Digit) (n : Nat), ds.any Digit.isXz = false →
      (∀ d ∈ ds, ∀ c, d = .num c → c.val < 2 ^ k) → ds.foldl (pushDigit k) (n, 0)
        = (ds.foldl (fun n d => match d with | .num c => 2 ^ k * n + c.val | _ => n) n, 0) := by
    intro ds
    induction ds with
    | nil => exact fun _ _ _ => rfl
    | cons d ds ih =>
      intro n hxz hlt
      rw [List.any_cons, Bool.or_eq_false_iff] at hxz
      cases d with
      | num c =>
        have hc := hlt _ List.mem_cons_self c rfl
        rw [List.foldl_cons, List.foldl_cons, pushDigit, or_eq_add hc, Nat.zero_shiftLeft]
        exact ih _ hxz.2 fun d hd => hlt d (List.mem_cons_of_mem _ hd)
      | _ => exact absurd hxz.1 Bool.noConfusion
  exact hfold digits 0 hxz hlt

theorem xzExtend_of_known {v : Value} {digits : List Digit} {k : Nat} (hxz : digits.any Digit.isXz = false) :
    xzExtend v digits k = v := by
  cases digits with
  | nil => rfl
  | cons d ds =>
    rw [List.any_cons, Bool.or_eq_false_iff] at hxz
    rw [xzExtend, hxz.1, if_pos (by simp)]

theorem parseDigits_of_known {k : Nat} {digits : List Digit} {w : Nat} (hxz : digits.any Digit.isXz = false)
    (hlt : ∀ d ∈ digits, ∀ c, d = .num c → c.val < 2 ^ k) :
    xzExtend (parseDigits k digits w) digits k = ofInt (digitsInt k digits) w := by
  rw [xzExtend_of_known hxz, parseDigits, foldl_pushDigit hxz hlt]

theorem any_x_or_z (digits : List Digit) :
    (digits.any (· == .x) || digits.any fun d => d == .z || d == .question) = digits.any Digit.isXz := by
  induction digits with
  | nil => rfl
  | cons d ds ih =>
    rw [List.any_cons, List.any_cons, List.any_cons, ← ih]
    cases d with
    | num c => rfl
    | x => rfl
    | z => exact Bool.or_true _
    | question => exact Bool.or_true _

/-! ## The value of a number -/

/-- The sign of a literal moves its integer by the modulus. -/
theorem emod_signed (c : Prop) [Decidable c] (n : Int) (w : Nat) :
    (if c then n - 2 ^ w else n) % 2 ^ w = n % 2 ^ w := by
  split
  · rw [← Int.add_emod_right, sub_add_cancel]
  · rfl

theorem signedLiteralWidth_pos (n : Int) : 0 < signedLiteralWidth n := by
  unfold signedLiteralWidth
  split
  · exact lt_of_lt_of_le (by decide) (le_max_left _ _)
  split
  · exact lt_of_lt_of_le (by decide) (le_max_left _ _)
  · decide

theorem widthOr32_pos (l : Literal) : 0 < l.widthOr32 := by
  unfold widthOr32
  split
  · split
    · decide
    · next h => exact Nat.pos_of_ne_zero h
  · decide

theorem selfWidth_pos (l : Literal) : 0 < l.selfWidth := by
  unfold selfWidth
  split
  · exact signedLiteralWidth_pos _
  · exact l.widthOr32_pos

theorem selfWidth_of_width {l : Literal} {w : Nat} (h : l.width = some w) (h0 : 0 < w) : l.selfWidth = w := by
  rw [selfWidth, widthOr32, h]
  dsimp only
  rw [if_neg h0.ne']

section

variable {size : Nat} {signed : Bool} {base : Base} {digits : List Digit}

theorem sized_value : (sized (some size) signed base digits).value
      = if digits.any Digit.isXz = true ∨ base = .dec then .text digits
        else .int (digitsInt base.bits digits) := by
  show (if (digits.any (· == .x) || digits.any fun d => d == .z || d == .question) = true then _ else _) = _
  rw [any_x_or_z]
  cases digits.any Digit.isXz <;> cases base <;> rfl

theorem fromVerilog_based (hxz : digits.any Digit.isXz = false) (hdigits : ∀ d ∈ digits, d.below base)
    (hbase : base ≠ .dec) :
    fromVerilog (.based (some size) signed base digits) = some (ofInt (digitsInt base.bits digits) size) := by
  have hlt : ∀ d ∈ digits, ∀ c, d = .num c → c.val < 2 ^ base.bits := by
    rintro d hd c rfl
    exact (hdigits _ hd).resolve_left hbase
  have hparse := parseDigits_of_known (w := size) hxz hlt
  cases base
  case dec => exact absurd rfl hbase
  all_goals exact congrArg some hparse

theorem fromVerilog_dec {n : Nat} (h : decimalInt digits = some n) :
    fromVerilog (.based (some size) signed .dec digits) = some (ofInt n size) := by
  rw [fromVerilog, any_isXz_of_decimalInt h, if_neg Bool.false_ne_true, h]
  rfl

theorem sized_evalLiteral {v : Int} (hdigits : ∀ d ∈ digits, d.below base)
    (h : Const.constLiteral (.sized (some size) signed base digits) = some v) :
    (sized (some size) signed base digits).evalLiteral = ofInt v size := by
  have htext : (sized (some size) signed base digits).originalText = .based (some size) signed base digits := rfl
  have hwidth : (sized (some size) signed base digits).width = some size := rfl
  rw [Const.constLiteral, sized_value] at h
  rw [evalLiteral, htext]
  by_cases hxz : digits.any Digit.isXz = true ∨ base = .dec
  · rw [if_pos hxz] at h
    obtain ⟨n, hn, rfl⟩ := Option.map_eq_some_iff.mp h
    obtain rfl : base = .dec := hxz.resolve_left (by rw [any_isXz_of_decimalInt hn]; exact Bool.false_ne_true)
    rw [fromVerilog_dec hn]
    rfl
  · rw [not_or, Bool.not_eq_true] at hxz
    rw [if_neg (by rw [hxz.1]; exact not_or.mpr ⟨Bool.false_ne_true, hxz.2⟩), hwidth] at h
    rw [fromVerilog_based hxz.1 hdigits hxz.2]
    cases h
    exact ofInt_congr (emod_signed _ _ _).symm

theorem xzExtend_width (v : Value) (digits : List Digit) (k : Nat) : (xzExtend v digits k).width = v.width := by
  cases digits with
  | nil => rfl
  | cons d ds =>
    rw [xzExtend]
    split <;> rfl

theorem fromVerilog_width {v : Value} (h : fromVerilog (.based (some size) signed base digits) = some v) :
    v.width = size := by
  cases base with
  | bin | oct | hex =>
    cases h
    exact xzExtend_width _ _ _
  | dec =>
    rw [fromVerilog] at h
    split at h
    · cases h
      rfl
    · obtain ⟨n, -, rfl⟩ := Option.map_eq_some_iff.mp h
      rfl

theorem sized_evalLiteral_width (hsize : 0 < size) :
    (sized (some size) signed base digits).evalLiteral.width = size := by
  have hw : (sized (some size) signed base digits).widthOr32 = size := by
    show (if size = 0 then 32 else size) = size
    rw [if_neg hsize.ne']
  have htext : (sized (some size) signed base digits).originalText = .based (some size) signed base digits := rfl
  rw [evalLiteral, htext]
  cases hf : fromVerilog (.based (some size) signed base digits) with
  | some v => exact fromVerilog_width hf
  | none =>
    dsimp only
    split
    · exact hw
    split
    · rw [if_neg (by rintro ⟨h, -⟩; cases h)]
      exact hw
    · split <;> exact hw

end

theorem Number.evalLiteral_width {l : Literal} (hl : l.Number) : l.evalLiteral.width = l.selfWidth := by
  cases hl with
  | decimal n => rfl
  | sized hsize hdigits => rw [selfWidth_of_width rfl hsize, sized_evalLiteral_width hsize]
  | @built n width signed hwidth =>
    cases width with
    | none => cases signed <;> rfl
    | some w => rfl

theorem Number.selfWidth_eq {l : Literal} (hl : l.Number) {w : Nat} (hw : l.width = some w) : l.selfWidth = w := by
  cases hl with
  | decimal n => cases hw
  | sized hsize hdigits =>
    cases hw
    exact selfWidth_of_width rfl hsize
  | built hwidth =>
    cases hw
    exact selfWidth_of_width rfl (Nat.pos_of_ne_zero fun h0 => hwidth (by rw [h0]))

theorem Number.isUnsizedXz {l : Literal} (hl : l.Number) : isUnsizedXz l.originalText = false := by
  cases hl <;> rfl

/-- A number evaluates to the encoding of the integer it folds to. -/
theorem Number.evalLiteral {l : Literal} {v : Int} (hl : l.Number) (h : Const.constLiteral l = some v) :
    l.evalLiteral = ofInt v l.selfWidth := by
  cases hl with
  | decimal n =>
    cases h
    rfl
  | sized hsize hdigits => rw [selfWidth_of_width rfl hsize, sized_evalLiteral hdigits h]
  | @built n width signed hwidth =>
    cases width with
    | none =>
      cases h
      cases signed <;> rfl
    | some w =>
      have h0 : 0 < w := Nat.pos_of_ne_zero fun h0 => hwidth (by rw [h0])
      cases h
      rw [selfWidth_of_width rfl h0]
      show ofInt n (if _ then _ else widthOr32 _) = _
      rw [if_neg (by simp), widthOr32]
      dsimp only
      rw [if_neg h0.ne']
      exact ofInt_congr (emod_signed _ _ _).symm

end Literal

end Veriforge

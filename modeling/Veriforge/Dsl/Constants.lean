import Veriforge.Const.Operators
import Veriforge.Emit.Bits
import Veriforge.Emit.Respell

/-! # Integers of the DSL

The literal that `_to_expr_node` (`dsl/builder.py`) makes of a Python integer, and what its text is read back as. In an
operand that the context sizes, both denote the integer, but for one case: a negative literal is extended from its own
width, as an unsigned number where the context is unsigned, and a unary minus is not. -/

namespace Veriforge.Dsl

open Literal Value

/-- `str(v)` -/
def intText (v : Int) : Line := if v < 0 then '-' :: Nat.toDigits 10 v.natAbs else Nat.toDigits 10 v.natAbs

/-- `-(1 << 31) <= v < (1 << 31)` -/
def isShort (v : Int) : Bool := decide (-2 ^ 31 ≤ v ∧ v < 2 ^ 31)

/-- `abs(v).bit_length() + 1` -/
def sizedWidth (v : Int) : Nat := bitLength v.natAbs + 1

/-- `f"{width}'sd{abs(v)}"` -/
def sizedText (v : Int) : Line :=
  Nat.toDigits 10 (sizedWidth v) ++ '\'' :: 's' :: 'd' :: Nat.toDigits 10 v.natAbs

/-- The `original_text` of the literal, which the emitter prints as it is. -/
def exprText (v : Int) : Line :=
  if isShort v then intText v else if v < 0 then '-' :: sizedText v else sizedText v

/-- `_to_expr_node` of an integer. -/
def toExprNode (v : Int) : Literal where
  value := .int v
  width := if isShort v then none else some (sizedWidth v)
  signed := true
  isX := false
  isZ := false
  originalText := (literalText (exprText v)).getD .other

/-! ## Reading the text back -/

/-- The literal that the parser makes of a number without a sign. -/
def readNumber (text : Line) : Option Expr :=
  match literalText text with
  | some (.decimal n) => if 0 ≤ n then some (.literal (decimal n.toNat)) else none
  | some (.based size signed base digits) => some (.literal (sized size signed base digits))
  | _ => none

/-- A number, behind the unary minus where there is one. -/
def readBack : Line → Option Expr
  | '-' :: rest => (readNumber rest).map (.unary .minus)
  | text => readNumber text

/-! ## The texts -/

theorem isDecimal_toDigits (n : Nat) : isDecimal (Nat.toDigits 10 n) = true := by
  rw [isDecimal, all_isDigit_toDigits, Bool.and_true, Bool.not_eq_true', List.isEmpty_eq_false_iff]
  exact Nat.toDigits_ne_nil

/-- Nothing is taken out of a text without white space and separators. -/
theorem filter_strip {text : Line} (hne : text ≠ []) (h : ∀ c ∈ text, isSpace c = false ∧ c ≠ '_') :
    (strip text).filter (· ≠ '_') = text := by
  have htoken : IsToken text := ⟨hne, fun c hc => (h c hc).1⟩
  have hstrip : strip text = text := @strip_unwords [_] fun w hw => by rw [List.mem_singleton.mp hw]; exact htoken
  rw [hstrip]
  exact List.filter_eq_self.mpr fun c hc => decide_eq_true (h c hc).2

theorem plain_of_digit {c : Char} (h : c.isDigit = true) : isSpace c = false ∧ c ≠ '_' := by
  refine ⟨not_space_of_digit h, ?_⟩
  rintro rfl
  exact absurd h (by decide)

theorem plain_toDigits (n : Nat) : ∀ c ∈ Nat.toDigits 10 n, isSpace c = false ∧ c ≠ '_' := fun _ hc =>
  plain_of_digit (List.all_eq_true.mp (all_isDigit_toDigits n) _ hc)

theorem literalText_toDigits (n : Nat) : literalText (Nat.toDigits 10 n) = some (.decimal n) := by
  rw [literalText, filter_strip Nat.toDigits_ne_nil (plain_toDigits n)]
  show (if _ then _ else _) = _
  rw [if_pos (isDecimal_toDigits n), Nat.ofDigitChars_ten_toDigits]

theorem literalText_minus (n : Nat) : literalText ('-' :: Nat.toDigits 10 n) = some (.decimal (-n)) := by
  have hplain : ∀ c ∈ '-' :: Nat.toDigits 10 n, isSpace c = false ∧ c ≠ '_' := by
    intro c hc
    rcases List.mem_cons.mp hc with rfl | hc
    · exact ⟨rfl, by decide⟩
    · exact plain_toDigits n c hc
  rw [literalText, filter_strip (List.cons_ne_nil _ _) hplain]
  show (if isDecimal ('-' :: Nat.toDigits 10 n) = true then _ else if _ then _ else _) = _
  rw [show isDecimal ('-' :: Nat.toDigits 10 n) = false from rfl, if_neg Bool.false_ne_true,
    if_pos ⟨rfl, isDecimal_toDigits n⟩, List.tail_cons, Nat.ofDigitChars_ten_toDigits]

/-- The groups of the text of a sized literal. -/
def sizedGroups (v : Int) : Emit.SizedLiteral where
  size := Nat.toDigits 10 (sizedWidth v)
  sign := ['s']
  baseChar := 'd'
  digits := Nat.toDigits 10 v.natAbs
  size_isDecimal := isDecimal_toDigits _
  sign_eq := Or.inr (Or.inl rfl)
  baseOf_isSome := rfl
  digits_all := Emit.all_isSizedDigit_toDigits .dec _

theorem text_sizedGroups (v : Int) : (sizedGroups v).text = sizedText v := rfl

/-- A sized text is read as its size and its digits. -/
theorem literalText_sizedText (v : Int) :
    ∃ ds, literalText (sizedText v) = some (.based (some (sizedWidth v)) true .dec ds) ∧
      Literal.fromVerilog (.based (some (sizedWidth v)) true .dec ds) = some (ofInt v.natAbs (sizedWidth v)) := by
  obtain ⟨hne, ds, hds, hvalue⟩ := Emit.fromVerilog_of_intOf (Emit.intOf_toDigits .dec v.natAbs)
  have hclean : (sizedGroups v).clean = Nat.toDigits 10 v.natAbs :=
    List.filter_eq_self.mpr fun c hc => decide_eq_true (plain_toDigits _ c hc).2
  have hwidth : (sizedGroups v).width = sizedWidth v := Nat.ofDigitChars_ten_toDigits
  refine ⟨ds, ?_, hvalue _ _⟩
  rw [← text_sizedGroups, Emit.SizedLiteral.literalText_text, hclean, if_neg Nat.toDigits_ne_nil, hwidth]
  exact congrArg (Option.map _) hds

/-- A sized text behind a minus is none that `from_verilog` takes. -/
theorem literalText_minus_sizedText (v : Int) : literalText ('-' :: sizedText v) = none := by
  have hplain : ∀ c ∈ '-' :: sizedText v, isSpace c = false ∧ c ≠ '_' := by
    intro c hc
    rcases List.mem_cons.mp hc with rfl | hc
    · exact ⟨rfl, by decide⟩
    rcases List.mem_append.mp hc with hc | hc
    · exact plain_toDigits _ c hc
    rcases List.mem_cons.mp hc with rfl | hc
    · exact ⟨rfl, by decide⟩
    rcases List.mem_cons.mp hc with rfl | hc
    · exact ⟨rfl, by decide⟩
    rcases List.mem_cons.mp hc with rfl | hc
    · exact ⟨rfl, by decide⟩
    · exact plain_toDigits _ c hc
  have hquote : isDecimal (sizedText v) = false := by
    rw [isDecimal, sizedText, List.all_append, List.all_cons, show ('\'').isDigit = false from rfl, Bool.false_and,
      Bool.and_false, Bool.and_false]
  rw [literalText, filter_strip (List.cons_ne_nil _ _) hplain]
  show (if isDecimal ('-' :: sizedText v) = true then _ else if _ then _ else _) = _
  have hminus : ¬(('-' :: sizedText v).head? = some '-' ∧ isDecimal ('-' :: sizedText v).tail = true) := by
    rintro ⟨-, htail⟩
    exact absurd (hquote.symm.trans htail) Bool.false_ne_true
  rw [show isDecimal ('-' :: sizedText v) = false from rfl, if_neg Bool.false_ne_true, if_neg hminus]
  rfl

/-! ## Widths -/

/-- The width of the literal's own value. -/
def nodeWidth (v : Int) : Nat := if isShort v then 32 else sizedWidth v

theorem isShort_iff {v : Int} : isShort v = true ↔ -2 ^ 31 ≤ v ∧ v < 2 ^ 31 := decide_eq_true_iff

/-- A sized literal has one bit more than the magnitude. -/
theorem natAbs_lt_sizedWidth (v : Int) : 2 * (v.natAbs : Int) < 2 ^ sizedWidth v := by
  have hlt : (v.natAbs : Int) < 2 ^ bitLength v.natAbs := by exact_mod_cast Literal.lt_two_pow_bitLength v.natAbs
  rw [sizedWidth, pow_succ]
  omega

/-- The literal's width holds its integer. -/
theorem fits_nodeWidth (v : Int) : Fits true (nodeWidth v) v := by
  rw [fits_true, nodeWidth]
  split
  · next h =>
    rw [isShort_iff] at h
    omega
  · have hlt := natAbs_lt_sizedWidth v
    omega

theorem nodeWidth_pos (v : Int) : 0 < nodeWidth v := by
  unfold nodeWidth sizedWidth
  split
  · decide
  · exact Nat.succ_pos _

/-- A magnitude below `2 ^ 31` has no more than 31 bits. -/
theorem bitLength_le {n : Nat} (h : n < 2 ^ 31) : bitLength n ≤ 31 := by
  unfold bitLength
  split
  · decide
  · next h0 => exact (Nat.log2_lt h0).mpr h

theorem signedLiteralWidth_of_isShort {v : Int} (h : isShort v = true) : signedLiteralWidth v = 32 := by
  rw [isShort_iff] at h
  unfold signedLiteralWidth
  split
  · have hle := bitLength_le (n := v.toNat) (by omega)
    omega
  · split
    · have hle := bitLength_le (n := (-v - 1).toNat) (by omega)
      omega
    · rfl

/-! ## Literals that hold an integer -/

/-- A signed literal of so many bits that hold its integer. -/
structure Holds (l : Literal) (z : Int) (w : Nat) : Prop where
  evalLiteral : l.evalLiteral = ofInt z w
  selfWidth : l.selfWidth = w
  signed : l.signed = true
  known : isUnsizedXz l.originalText = false
  pos : 0 < w
  fits : Fits true w z

theorem holds_decimal (n : Nat) : Holds (decimal n) n (signedLiteralWidth n) where
  evalLiteral := rfl
  selfWidth := rfl
  signed := rfl
  known := rfl
  pos := signedLiteralWidth_pos _
  fits := by
    have hlt : (2 * (n : Int)) < 2 ^ signedLiteralWidth n := by exact_mod_cast Emit.lt_signedLiteralWidth n
    rw [fits_true]
    omega

/-- A number of the digits, sized and signed. -/
theorem holds_sized {v : Int} {ds : List Digit}
    (h : Literal.fromVerilog (.based (some (sizedWidth v)) true .dec ds) = some (ofInt v.natAbs (sizedWidth v))) :
    Holds (sized (some (sizedWidth v)) true .dec ds) v.natAbs (sizedWidth v) where
  evalLiteral := by
    have htext : Literal.fromVerilog (sized (some (sizedWidth v)) true .dec ds).originalText = some _ := h
    rw [Literal.evalLiteral, htext]
  selfWidth := selfWidth_of_width rfl (Nat.succ_pos _)
  signed := rfl
  known := rfl
  pos := Nat.succ_pos _
  fits := by
    have hlt := natAbs_lt_sizedWidth v
    rw [fits_true]
    omega

theorem literalText_intText (v : Int) : literalText (intText v) = some (.decimal v) := by
  unfold intText
  split
  · rw [literalText_minus]
    congr 2
    omega
  · rw [literalText_toDigits]
    congr 2
    omega

theorem originalText_toExprNode (v : Int) :
    (toExprNode v).originalText = (literalText (exprText v)).getD .other := rfl

theorem holds_toExprNode_of_isShort {v : Int} (h : isShort v = true) : Holds (toExprNode v) v 32 := by
  have htext : (toExprNode v).originalText = .decimal v := by
    rw [originalText_toExprNode, exprText, if_pos h, literalText_intText]
    rfl
  have hwidth : (toExprNode v).width = none := if_pos h
  refine ⟨?_, ?_, rfl, ?_, by decide, ?_⟩
  · rw [evalLiteral, htext, Literal.fromVerilog, signedLiteralWidth_of_isShort h]
  · rw [Literal.selfWidth, hwidth]
    exact signedLiteralWidth_of_isShort h
  · rw [htext]
    rfl
  · have hfits := fits_nodeWidth v
    rwa [nodeWidth, if_pos h] at hfits

theorem holds_toExprNode_of_not_isShort {v : Int} (h : isShort v = false) :
    Holds (toExprNode v) v (sizedWidth v) := by
  have hnot : ¬isShort v = true := by rw [h]; exact Bool.false_ne_true
  have hwidth : (toExprNode v).width = some (sizedWidth v) := if_neg hnot
  have hor : (toExprNode v).widthOr32 = sizedWidth v := by
    rw [widthOr32, hwidth]
    exact if_neg (Nat.succ_ne_zero _)
  have hfits := fits_nodeWidth v
  rw [nodeWidth, if_neg hnot] at hfits
  have hself : (toExprNode v).selfWidth = sizedWidth v := selfWidth_of_width hwidth (Nat.succ_pos _)
  by_cases hneg : v < 0
  · -- no text that `from_verilog` takes, so the value is what counts
    have htext : (toExprNode v).originalText = .other := by
      rw [originalText_toExprNode, exprText, if_neg hnot, if_pos hneg, literalText_minus_sizedText]
      rfl
    refine ⟨?_, hself, rfl, by rw [htext]; rfl, Nat.succ_pos _, hfits⟩
    rw [evalLiteral, htext]
    show ofInt v (if (toExprNode v).width = none ∧ true = true then _ else (toExprNode v).widthOr32) = _
    rw [hwidth, if_neg (by simp), hor]
  · obtain ⟨ds, hds, hvalue⟩ := literalText_sizedText v
    have htext : (toExprNode v).originalText = .based (some (sizedWidth v)) true .dec ds := by
      rw [originalText_toExprNode, exprText, if_neg hnot, if_neg hneg, hds]
      rfl
    refine ⟨?_, hself, rfl, by rw [htext]; rfl, Nat.succ_pos _, hfits⟩
    rw [evalLiteral, htext, hvalue]
    show ofInt _ _ = _
    congr 1
    omega

/-- The literal that is built. -/
theorem holds_toExprNode (v : Int) : Holds (toExprNode v) v (nodeWidth v) := by
  unfold nodeWidth
  split
  · next h => exact holds_toExprNode_of_isShort h
  · next h => exact holds_toExprNode_of_not_isShort (Bool.eq_false_iff.mpr h)

/-! ## What is read back -/

theorem readNumber_toDigits (n : Nat) : readNumber (Nat.toDigits 10 n) = some (.literal (decimal n)) := by
  rw [readNumber, literalText_toDigits]
  exact if_pos (Int.natCast_nonneg n)

/-- The magnitude of an integer, as its text has it, is read as a literal that holds it. -/
theorem exists_readNumber (v : Int) :
    ∃ l w, readNumber (if isShort v then Nat.toDigits 10 v.natAbs else sizedText v) = some (.literal l) ∧
      Holds l v.natAbs w := by
  split
  · exact ⟨_, _, readNumber_toDigits _, holds_decimal _⟩
  · obtain ⟨ds, hds, hvalue⟩ := literalText_sizedText v
    refine ⟨_, _, ?_, holds_sized hvalue⟩
    rw [readNumber, hds]

theorem exprText_of_neg {v : Int} (h : v < 0) :
    exprText v = '-' :: if isShort v then Nat.toDigits 10 v.natAbs else sizedText v := by
  unfold exprText intText
  rw [if_pos h, if_pos h]
  split
  · rfl
  · rfl

theorem exprText_of_nonneg {v : Int} (h : ¬v < 0) :
    exprText v = if isShort v then Nat.toDigits 10 v.natAbs else sizedText v := by
  unfold exprText intText
  rw [if_neg h, if_neg h]

/-- The text of a number starts with a digit. -/
theorem head?_number (v : Int) (n : Nat) :
    (if isShort v then Nat.toDigits 10 n else sizedText v).head? ≠ some '-' := by
  have hdigits : ∀ n rest, (Nat.toDigits 10 n ++ rest).head? ≠ some '-' := by
    intro n rest
    obtain ⟨c, cs, hcs⟩ := List.exists_cons_of_ne_nil (Nat.toDigits_ne_nil (n := n) (b := 10))
    have hc := List.all_eq_true.mp (all_isDigit_toDigits n) c (by rw [hcs]; exact List.mem_cons_self)
    rw [hcs, List.cons_append, List.head?_cons]
    rintro heq
    obtain rfl := Option.some.inj heq
    exact absurd hc (by decide)
  split
  · have hplain := hdigits n []
    rwa [List.append_nil] at hplain
  · exact hdigits _ _

theorem readBack_of_head {text : Line} (h : text.head? ≠ some '-') : readBack text = readNumber text := by
  unfold readBack
  split
  · exact absurd rfl h
  · rfl

/-! ## What they contribute -/

section Contribute

variable {T : SignalTable} (st : Store T)

/-- In a context of `width` bits the expression has no unknown bit, and its lower bits are those of the integer. -/
def Contributes (e : Expr) (width : Nat) (signedOverride : Option Bool) (z : Int) : Prop :=
  ∃ v, eval st e width signedOverride = some v ∧ v.mask = 0 ∧ (v.val : Int) % 2 ^ width = z % 2 ^ width

variable {st} {l : Literal} {z : Int} {w : Nat}

theorem eval_literal (h : Holds l z w) (width : Nat) (ov : Option Bool) : eval st (.literal l) width ov =
      some (if w < width ∧ ov.getD true = false then (ofInt z w).resize width else ofInt z (max w width)) := by
  rw [eval, evalRequest]
  simp only [Request.width_context, Request.signedOverride_context, h.evalLiteral, h.signed, h.known, init_width]
  by_cases hlt : w < width
  · rw [if_pos hlt, if_neg Bool.false_ne_true, max_eq_right hlt.le, extendTo]
    cases ov.getD true with
    | false => rw [if_neg Bool.false_ne_true, if_pos ⟨hlt, rfl⟩]
    | true => rw [if_pos rfl, signExtend_ofInt h.pos h.fits, if_neg (by simp)]
  · rw [if_neg hlt, if_neg (fun hc => hlt hc.1), max_eq_left (not_lt.mp hlt)]

theorem contributes_of_le {e : Expr} {width u : Nat} {ov : Option Bool} (h : eval st e width ov = some (ofInt z u))
    (hle : width ≤ u) : Contributes st e width ov z := by
  refine ⟨_, h, ofInt_mask _ _, ?_⟩
  rw [ofInt_val_cast, Int.emod_emod_of_dvd _ (pow_dvd_pow 2 hle)]

/-- A literal contributes its integer, unless it is negative and extended as an unsigned number. -/
theorem contributes_literal_iff (h : Holds l z w) (width : Nat) (ov : Option Bool) :
    Contributes st (.literal l) width ov z ↔ 0 ≤ z ∨ ov.getD true = true ∨ width ≤ w := by
  have heval : eval st (.literal l) width ov = _ := eval_literal h width ov
  by_cases hunsigned : w < width ∧ ov.getD true = false
  · rw [if_pos hunsigned] at heval
    obtain ⟨hlt, hov⟩ := hunsigned
    have hnot : ¬(ov.getD true = true ∨ width ≤ w) := by
      rw [hov]
      exact not_or.mpr ⟨Bool.false_ne_true, not_le.mpr hlt⟩
    rw [or_iff_left hnot]
    constructor
    · -- the residue of a negative integer is another one on more bits
      rintro ⟨v, hv, -, hval⟩
      obtain rfl := Option.some.inj (heval.symm.trans hv)
      by_contra! hneg
      have hresidue : ofInt z w = ofInt (z % 2 ^ w) w := ofInt_congr (Int.emod_emod_of_dvd z (dvd_refl _)).symm
      have hfits : Fits false w (z % 2 ^ w) :=
        fits_false.mpr ⟨Int.emod_nonneg _ (by positivity), Int.emod_lt_of_pos _ (by positivity)⟩
      have hpow : (2 : Int) ^ w < 2 ^ width := pow_lt_pow_right₀ (by norm_num) hlt
      rw [hresidue, resize_ofInt hfits, ofInt_val_cast, Int.emod_emod_of_dvd _ (dvd_refl _),
        emod_of_neg h.fits hneg] at hval
      have heq := eq_of_emod_eq hval (by
        rw [add_sub_cancel_left, abs_of_pos (by positivity)]
        exact hpow)
      have hpos : (0 : Int) < 2 ^ w := by positivity
      omega
    · intro hz
      have hfits := h.fits
      rw [fits_true] at hfits
      rw [resize_ofInt (fits_false.mpr ⟨hz, by omega⟩)] at heval
      exact contributes_of_le heval le_rfl
  · rw [if_neg hunsigned] at heval
    refine iff_of_true (contributes_of_le heval (le_max_right _ _)) ?_
    rw [not_and, Bool.not_eq_false] at hunsigned
    by_cases hlt : w < width
    · exact Or.inr (Or.inl (hunsigned hlt))
    · exact Or.inr (Or.inr (not_lt.mp hlt))

/-- A unary minus contributes the negated integer, whatever the context. -/
theorem contributes_minus (h : Holds l z w) (hz : 0 ≤ z) (width : Nat) (ov : Option Bool) :
    Contributes st (.unary .minus (.literal l)) width ov (-z) := by
  have hfits := h.fits
  rw [fits_true] at hfits
  have hoperand : eval st (.literal l) width ov = some (ofInt z (max w width)) := by
    rw [eval_literal h]
    split
    · next hunsigned => rw [resize_ofInt (fits_false.mpr ⟨hz, by omega⟩), max_eq_right hunsigned.1.le]
    · rfl
  have hself : selfWidth T (.literal l) = w := h.selfWidth
  have hfit : fitOperand T (.literal l) ov width (ofInt z (max w width)) = some (ofInt z (max w width)) := by
    unfold fitOperand
    rw [hself, max_comm width w]
    split
    · exact extendTo_of_width rfl
    · rfl
  refine contributes_of_le (u := max w width) ?_ (le_max_right _ _)
  rw [eval, evalRequest_unary_context rfl]
  show (eval st (.literal l) width ov).bind _ = _
  rw [hoperand, Option.bind_some]
  show (fitOperand T (.literal l) ov width (ofInt z (max w width))).map _ = _
  rw [hfit, Option.map_some, evalUnaryOp, neg_ofInt]

/-- What the text of the literal is read back as contributes the integer in every context. -/
theorem readBack_contributes (v : Int) (width : Nat) (ov : Option Bool) :
    ∃ e, readBack (exprText v) = some e ∧ Contributes st e width ov v := by
  obtain ⟨l, w, hread, hholds⟩ := exists_readNumber v
  by_cases hneg : v < 0
  · have hminus : Contributes st _ width ov _ := contributes_minus hholds (Int.natCast_nonneg _) width ov
    rw [show -(v.natAbs : Int) = v by omega] at hminus
    refine ⟨_, ?_, hminus⟩
    rw [exprText_of_neg hneg, readBack, hread]
    rfl
  · have hliteral : Contributes st _ width ov _ :=
      (contributes_literal_iff hholds width ov).mpr (Or.inl (Int.natCast_nonneg _))
    rw [show (v.natAbs : Int) = v by omega] at hliteral
    refine ⟨_, ?_, hliteral⟩
    rw [exprText_of_nonneg hneg, readBack_of_head (head?_number v _), hread]

/-- The integer in a context of any width and signedness. The text always denotes it, with a leading minus as the unary
operator; the literal does unless it is negative, the context is unsigned and wider than the literal. -/
theorem denotes_iff (v : Int) (width : Nat) (ov : Option Bool) :
    ((∃ e, readBack (exprText v) = some e ∧ Contributes st e width ov v) ∧
      Contributes st (.literal (toExprNode v)) width ov v) ↔
    0 ≤ v ∨ ov.getD true = true ∨ width ≤ nodeWidth v :=
  (and_iff_right (readBack_contributes v width ov)).trans (contributes_literal_iff (holds_toExprNode v) width ov)

end Contribute

/-- A design without signals. -/
def noSignals : Store (.vectors []) where
  signal _ := ofInt 0 0
  word _ _ := ofInt 0 0
  signal_width _ _ h := nomatch h
  word_width _ _ _ _ h := nomatch h

/-- `-1` among unsigned operands of 64 bits: the literal that is built has ones in its lower 32 bits only. -/
theorem minus_one_unsigned : ¬Contributes noSignals (.literal (toExprNode (-1))) 64 (some false) (-1) := by
  rw [contributes_literal_iff (holds_toExprNode (-1))]
  decide

end Veriforge.Dsl

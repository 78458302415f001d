import Veriforge.Const.Fold
import Veriforge.Sim.SignedDivmod

/-! # Operators on constants and on their encodings

An operator of the evaluator on the encodings of two integers gives the encoding of what the folder computes
from the integers, wherever the operator only looks at residues or the encodings hold the integers. -/

namespace Veriforge.Const

open Value

variable {a b v : Int} {w u : Nat}

/-! ## The folder's operators -/

theorem constDiv_eq (h0 : b ≠ 0) : constDiv a b = some (a.tdiv b) := by
  rw [constDiv, if_neg h0, TrueDiv.tdiv_eq_signedQuotient, TrueDiv.signedQuotient]
  simp only [decide_eq_decide, eq_iff_iff]

theorem constMod_eq (h0 : b ≠ 0) : constMod a b = some (a - b * a.tdiv b) := by
  rw [constMod, constDiv_eq h0]
  rfl

/-- What the operator stands for, without the reduction to `_FOLD_BITS` bits. -/
def exactBinary (op : BinaryOp) (a b : Int) : Option Int :=
  match op with
  | .pow => if b < 0 then constPow a b else some (a ^ b.toNat)
  | .shl | .ashl => if b < 0 then none else some (a <<< b.toNat)
  | op => constBinary op a b

theorem two_pow_lt_foldBits : 62 < foldBits := by decide

/-- A power that 32 bits hold is not reduced. -/
theorem constPow_of_fits (hb : ¬ b < 0) (h : Fits true 32 (a ^ b.toNat)) : constPow a b = some (a ^ b.toNat) := by
  rw [constPow, if_neg hb, if_neg]
  rintro ⟨ha, hlong⟩
  have h0 : a.natAbs ≠ 0 := by omega
  have hlog : 1 ≤ Nat.log2 a.natAbs := (Nat.le_log2 h0).mpr ha
  have hpow : (2 ^ Nat.log2 a.natAbs) ^ b.toNat ≤ a.natAbs ^ b.toNat := Nat.pow_le_pow_left (Nat.log2_self_le h0) _
  have hle : a.natAbs ^ b.toNat ≤ 2 ^ 31 := by
    rw [← Int.natAbs_pow]
    rw [fits_true] at h
    omega
  rw [← Nat.pow_mul] at hpow
  have hbits : Nat.log2 a.natAbs * b.toNat ≤ 31 := (Nat.pow_le_pow_iff_right (by decide)).mp (hpow.trans hle)
  have hfold := two_pow_lt_foldBits
  rw [Literal.bitLength, if_neg h0] at hlong
  have hb' : b = (b.toNat : Int) := by omega
  rw [hb'] at hlong
  have hlong' : foldBits < b.toNat * (Nat.log2 a.natAbs + 1) := by exact_mod_cast hlong
  have hmul : b.toNat * (Nat.log2 a.natAbs + 1) ≤ 2 * (Nat.log2 a.natAbs * b.toNat) := by nlinarith
  omega

/-- Nor is a shifted value. -/
theorem constShl_of_fits (hb : ¬ b < 0) (h : Fits true 32 (a <<< b.toNat)) : constShl a b = some (a <<< b.toNat) := by
  rw [constShl, if_neg hb]
  split
  · next hlong =>
    have hfold := two_pow_lt_foldBits
    have hbig : (2 : Int) ^ 32 ≤ 2 ^ b.toNat := pow_le_pow_right₀ (by norm_num) (by omega)
    rw [Int.shiftLeft_eq, fits_true] at h
    have h0 : a = 0 := by
      rcases lt_trichotomy a 0 with hneg | h0 | hpos
      · nlinarith
      · exact h0
      · nlinarith
    rw [h0, Int.shiftLeft_eq, zero_mul]
  · rfl

theorem exactBinary_eq {op : BinaryOp} (hv : constBinary op a b = some v)
    (hr : ∀ n ∈ exactBinary op a b, Fits true 32 n) : exactBinary op a b = some v := by
  cases op
  case pow =>
    rw [constBinary] at hv
    rw [exactBinary] at hr ⊢
    by_cases hb : b < 0
    · rw [if_pos hb]
      exact hv
    · rw [if_neg hb] at hr ⊢
      rw [← hv, constPow_of_fits hb (hr _ rfl)]
  case shl | ashl =>
    rw [constBinary] at hv
    rw [exactBinary] at hr ⊢
    by_cases hb : b < 0
    · rw [constShl, if_pos hb] at hv
      cases hv
    · rw [if_neg hb] at hr ⊢
      rw [← hv, constShl_of_fits hb (hr _ rfl)]
  all_goals exact hv

/-! ## The evaluator's operators -/

/-- What an operator needs of the widths and the signedness its operands are evaluated at: those that only
look at residues need nothing. -/
def OperandsFit (op : BinaryOp) (both shiftSigned : Bool) (wl wr : Nat) (a b : Int) : Prop :=
  match op with
  | .add | .sub | .mul | .bitAnd | .bitOr | .bitXor | .bitXnor | .bitXnor' => True
  | .div | .mod | .lt | .le | .gt | .ge => Fits both wl a ∧ Fits both wr b
  | .pow => Fits both wr b ∧ (b < 0 → Fits both wl a)
  | .shl | .ashl => Fits false wr b
  | .shr => Fits false wl a ∧ Fits false wr b
  | .ashr => Fits shiftSigned wl a ∧ Fits false wr b
  | .eq | .ne | .caseEq | .caseNe => |a - b| < 2 ^ wl
  | .logAnd => |a| < 2 ^ wl ∧ (a ≠ 0 → |b| < 2 ^ wr)
  | .logOr => |a| < 2 ^ wl ∧ (a = 0 → |b| < 2 ^ wr)

theorem ofBool_decide (c : Prop) [Decidable c] : ofBool (decide c) = ofInt (ofProp c) 1 := by
  by_cases h : c <;> simp [ofBool, ofProp, h]

theorem extendTo_ofInt {s : Bool} {n : Int} (hw : 0 < w) (h : Fits s w n) :
    extendTo s (ofInt n w) u = some (ofInt n u) := by
  cases s with
  | true => exact signExtend_ofInt hw h
  | false =>
    show some ((ofInt n w).resize u) = _
    rw [resize_ofInt h]

theorem evalSignedCmp_ofInt {op : BinaryOp} (hw : 0 < w) (ha : Fits true w a) (hb : Fits true w b) :
    evalSignedCmp op (ofInt a w) (ofInt b w) = some (ofBool (signedRel op a b)) := by
  rw [evalSignedCmp, if_neg (by simp), asSigned_ofInt hw ha, asSigned_ofInt hw hb]
  rfl

theorem evalBinaryOp_ordering {op : BinaryOp} (hop : op.isOrdering = true) (ha : Fits false w a)
    (hb : Fits false w b) : evalBinaryOp op (ofInt a w) (ofInt b w) = some (ofBool (signedRel op a b)) := by
  cases op <;> first | exact congrArg some (cmp_ofInt (signedRel _) (by simp [signedRel]) ha hb) | cases hop

theorem constBinary_ordering {op : BinaryOp} (hop : op.isOrdering = true) (a b : Int) :
    constBinary op a b = some (ofProp (signedRel op a b = true)) := by
  cases op <;> first | (simp [constBinary, signedRel]; done) | cases hop

theorem evalBinaryResult_ordering {op : BinaryOp} (hop : op.isOrdering = true) {both : Bool} (hw : 0 < w)
    (ha : Fits both w a) (hb : Fits both w b) :
    evalBinaryResult op both false (ofInt a w) (ofInt b w) = some (ofBool (signedRel op a b)) := by
  cases both with
  | true =>
    rw [evalBinaryResult, if_pos ⟨hop, rfl⟩]
    exact evalSignedCmp_ofInt hw ha hb
  | false =>
    rw [← evalBinaryOp_ordering hop ha hb]
    cases op <;> first | rfl | cases hop

theorem evalBinaryResult_comparison {op : BinaryOp} (hc : op.isComparison = true) {both ss : Bool}
    (hw : 0 < w) (hfit : OperandsFit op both ss w w a b) (hv : constBinary op a b = some v) :
    evalBinaryResult op both false (ofInt a w) (ofInt b w) = some (ofInt v 1) := by
  have hordering : op.isOrdering = true → Fits both w a ∧ Fits both w b →
      evalBinaryResult op both false (ofInt a w) (ofInt b w) = some (ofInt v 1) := by
    rintro hop ⟨ha, hb⟩
    rw [constBinary_ordering hop] at hv
    cases hv
    rw [evalBinaryResult_ordering hop hw ha hb, ← ofBool_decide, Bool.decide_eq_true]
  cases op
  case eq =>
    cases hv
    exact congrArg some ((eq_ofInt hfit).trans (ofBool_decide _))
  case ne =>
    cases hv
    exact congrArg some ((ne_ofInt hfit).trans (ofBool_decide _))
  case caseEq =>
    cases hv
    exact congrArg some ((caseEq_ofInt hfit).trans (ofBool_decide _))
  case caseNe =>
    cases hv
    exact congrArg some ((caseNe_ofInt hfit).trans (ofBool_decide _))
  case lt | le | gt | ge => exact hordering rfl hfit
  all_goals cases hc

/-! ### Bitwise operators and arithmetic -/

theorem evalBinaryOp_bitwise {op : BinaryOp} (hc : op.isBitwise = true) (hv : constBinary op a b = some v) :
    evalBinaryOp op (ofInt a w) (ofInt b w) = some (ofInt v w) := by
  have hxnor : ((ofInt a w).xor (ofInt b w)).invert = ofInt (a.xor b).lnot w := by
    rw [xor_ofInt, invert_ofInt]
  cases op
  case bitAnd =>
    cases hv
    exact congrArg some (and_ofInt a b w)
  case bitOr =>
    cases hv
    exact congrArg some (or_ofInt a b w)
  case bitXor =>
    cases hv
    exact congrArg some (xor_ofInt a b w)
  case bitXnor | bitXnor' =>
    cases hv
    exact congrArg some hxnor
  all_goals cases hc

/-- Integers of 32 bits are divided exactly. -/
theorem exact_of_fits (h0 : b ≠ 0) (ha : Fits true 32 a) : TrueDiv.Exact a.natAbs b.natAbs := by
  rw [fits_true] at ha
  exact TrueDiv.exact_of_lt (Int.natAbs_pos.mpr h0) (by omega)

theorem tdiv_of_nonneg (ha : 0 ≤ a) (hb : 0 ≤ b) : a.tdiv b = a / b := Int.tdiv_eq_ediv_of_nonneg ha

theorem evalBinaryResult_arithmetic {op : BinaryOp} (hc : op.isArithmetic = true) {both ss : Bool}
    (hw : 0 < w) (ha32 : Fits true 32 a) (hfit : OperandsFit op both ss w w a b)
    (hv : constBinary op a b = some v) :
    evalBinaryResult op both false (ofInt a w) (ofInt b w) = some (ofInt v w) := by
  cases op
  case add =>
    cases hv
    exact congrArg some (add_ofInt a b w)
  case sub =>
    cases hv
    exact congrArg some (sub_ofInt a b w)
  case mul =>
    cases hv
    exact congrArg some (mul_ofInt a b w)
  case div =>
    have h0 : b ≠ 0 := by
      rintro rfl
      cases hv
    rw [constBinary, constDiv_eq h0] at hv
    cases hv
    cases both with
    | true =>
      show evalSignedDivmod .div (ofInt a w) (ofInt b w) = _
      have ha := asSigned_ofInt hw hfit.1
      have hb := asSigned_ofInt hw hfit.2
      exact (evalSignedDivmod_div_iff (init_width a w 0) (init_width b w 0) ha hb h0).mpr (exact_of_fits h0 ha32)
    | false =>
      rw [tdiv_of_nonneg (fits_false.mp hfit.1).1 (fits_false.mp hfit.2).1]
      exact congrArg some (floordiv_ofInt hfit.1 hfit.2 h0)
  case mod =>
    have h0 : b ≠ 0 := by
      rintro rfl
      cases hv
    rw [constBinary, constMod_eq h0] at hv
    cases hv
    cases both with
    | true =>
      show evalSignedDivmod .mod (ofInt a w) (ofInt b w) = _
      have ha := asSigned_ofInt hw hfit.1
      have hb := asSigned_ofInt hw hfit.2
      exact (evalSignedDivmod_mod_iff (init_width a w 0) (init_width b w 0) ha hb h0).mpr (exact_of_fits h0 ha32)
    | false =>
      rw [tdiv_of_nonneg (fits_false.mp hfit.1).1 (fits_false.mp hfit.2).1, ← Int.emod_def]
      exact congrArg some (mod_ofInt hfit.1 hfit.2 h0)
  all_goals cases hc

/-! ### Shifts and powers -/

/-- The bits of a floored shift are the integer's own, further up. -/
theorem testBit_shiftRight (n : Int) (k i : Nat) : (n >>> k).testBit i = n.testBit (i + k) := by
  cases n with
  | ofNat m =>
    show (m >>> k).testBit i = m.testBit (i + k)
    rw [Nat.testBit_shiftRight, Nat.add_comm]
  | negSucc m =>
    show (!(m >>> k).testBit i) = !m.testBit (i + k)
    rw [Nat.testBit_shiftRight, Nat.add_comm]

theorem ashr_ofInt (hw : 0 < w) (ha : Fits true w a) (hb : Fits false u b) :
    ashr (ofInt a w) (ofInt b u) = some (ofInt (a >>> b.toNat) w) := by
  have hval : (ofInt b u).val = b.toNat := by
    have := ofInt_val_of_fits hb
    omega
  rw [ashr, if_neg (by simp), init_width, if_neg hw.ne', hval]
  split
  · next hle =>
    -- the sign fills every bit
    rw [ofInt_mask, if_neg (by simp)]
    split
    · next hs =>
      have hneg := (signBit_ofInt hw ha).mp hs
      congr 1
      refine (ofInt_congr (m := -1) ?_).trans (ofInt_eq_of_testBit fun i hi => ?_)
      · rw [show (2 : Int) ^ w - 1 = -1 + 2 ^ w by ring, Int.add_emod_right]
      · rw [testBit_shiftRight, testBit_of_fits ha (by omega), decide_eq_true hneg]
        show (!Nat.testBit 0 i) = true
        rw [Nat.zero_testBit, Bool.not_false]
    · next hs =>
      have hneg := (signBit_ofInt hw ha).not.mp hs
      congr 1
      refine ofInt_eq_of_testBit fun i hi => ?_
      rw [testBit_shiftRight, testBit_of_fits ha (by omega), decide_eq_false hneg]
      exact Nat.zero_testBit i
  · rw [signExtend_ofInt hw ha]
    show some (((ofInt a (w + b.toNat)).rshift (ofInt b u)).resize w) = _
    congr 1
    refine ext_bit_lt rfl fun i hi => ?_
    rw [resize_width] at hi
    rw [bit_resize, if_pos hi, bit_rshift (ofInt_mask b u), hval, bit_ofInt_int, bit_ofInt_int,
      testBit_shiftRight, decide_eq_true (by omega), decide_eq_true hi]

theorem emod_of_asSigned {r : Value} {n : Int} (h : r.asSigned = some n) : n % 2 ^ r.width = (r.val : Int) % 2 ^ r.width := by
  rw [asSigned] at h
  split at h
  · cases h
  split at h
  · cases h
    rw [← Int.add_emod_right, sub_add_cancel]
  · cases h
    rfl

/-- A negative exponent leaves the special cases of the power. -/
theorem ofPow_of_neg (hb : b < 0) (hv : constPow a b = some v) : ofPow (verilogPow a b w) w = ofInt v w := by
  rw [constPow, if_pos hb] at hv
  rw [verilogPow, if_neg (by omega), if_neg (by omega)]
  by_cases h0 : a = 0
  · rw [if_pos h0] at hv
    cases hv
  rw [if_neg h0] at hv ⊢
  by_cases h1 : a = 1
  · rw [if_pos h1] at hv ⊢
    cases hv
    rfl
  rw [if_neg h1] at hv ⊢
  by_cases h2 : a = -1
  · rw [if_pos h2] at hv ⊢
    cases hv
    rfl
  rw [if_neg h2] at hv ⊢
  cases hv
  rfl

theorem evalSignedPow_ofInt (hw : 0 < w) (hu : 0 < u) (hb : Fits true u b) (ha : b < 0 → Fits true w a)
    (hv : exactBinary .pow a b = some v) : evalSignedPow (ofInt a w) (ofInt b u) = some (ofInt v w) := by
  obtain ⟨n, hn⟩ := exists_asSigned (v := ofInt a w) hw (ofInt_mask a w)
  have hmod : n % 2 ^ w = a % 2 ^ w := by
    have := emod_of_asSigned hn
    rwa [init_width, ofInt_val_cast, Int.emod_emod_of_dvd _ dvd_rfl] at this
  rw [evalSignedPow, if_neg (by simp), hn, asSigned_ofInt hu hb]
  show some (ofPow (verilogPow n b w) w) = _
  rw [exactBinary] at hv
  by_cases hneg : b < 0
  · rw [if_pos hneg] at hv
    rw [asSigned_ofInt hw (ha hneg)] at hn
    cases hn
    rw [ofPow_of_neg hneg hv]
  · rw [if_neg hneg] at hv
    cases hv
    rw [ofPow_of_emod_eq hmod (by omega)]

theorem evalBinaryResult_shift {op : BinaryOp} (hc : (op.isShift || op == .pow) = true) {both ss : Bool}
    (hw : 0 < w) (hu : 0 < u) (hfit : OperandsFit op both ss w u a b) (hv : exactBinary op a b = some v) :
    evalBinaryResult op both ss (ofInt a w) (ofInt b u) = some (ofInt v w) := by
  have hleft : Fits false u b → (if b < 0 then none else some (a <<< b.toNat)) = some v →
      some ((ofInt a w).lshift (ofInt b u)) = some (ofInt v w) := by
    intro hb hv
    rw [if_neg (by have := (fits_false.mp hb).1; omega)] at hv
    cases hv
    rw [lshift_ofInt hb]
  have hright : Fits false u b → constShr a b = some v → a >>> b.toNat = v := by
    intro hb hv
    rw [constShr, if_pos (fits_false.mp hb).1] at hv
    exact Option.some_inj.mp hv
  cases op
  case shl | ashl => exact hleft hfit hv
  case shr =>
    rw [← hright hfit.2 hv]
    exact congrArg some (rshift_ofInt hfit.1 hfit.2)
  case ashr =>
    rw [← hright hfit.2 hv]
    cases ss with
    | true => exact ashr_ofInt hw hfit.1 hfit.2
    | false => exact congrArg some (rshift_ofInt hfit.1 hfit.2)
  case pow =>
    cases both with
    | true => exact evalSignedPow_ofInt hw hu hfit.1 hfit.2 hv
    | false =>
      have hb := (fits_false.mp hfit.1).1
      rw [exactBinary, if_neg (by omega)] at hv
      cases hv
      exact congrArg some (pow_ofInt hfit.1)
  all_goals cases hc

/-! ### Logical operators -/

/-- The left operand decides `&&` or `||`. -/
def Decides (op : BinaryOp) (a : Int) : Prop := if op = .logOr then a ≠ 0 else a = 0

instance (op : BinaryOp) (a : Int) : Decidable (Decides op a) := by
  unfold Decides
  infer_instance

/-- A decided operator does not look at its right operand. -/
theorem evalBinaryOp_decided {op : BinaryOp} (hc : op.isLogical = true) (hd : Decides op a) (ha : |a| < 2 ^ w)
    (hv : constBinary op a b = some v) (r : Value) : evalBinaryOp op (ofInt a w) r = some (ofInt v 1) := by
  have htruth := truth_ofInt ha
  cases op
  case logAnd =>
    obtain rfl : a = 0 := hd
    cases hv
    show some ((ofInt 0 w).logicalAnd r) = _
    rw [logicalAnd_eq, htruth]
    simp [Kleene.and, ofTruth, ofBool, ofProp]
  case logOr =>
    have h0 : a ≠ 0 := hd
    cases hv
    show some ((ofInt a w).logicalOr r) = _
    rw [logicalOr_eq, htruth]
    simp [Kleene.or, ofTruth, ofBool, ofProp, h0]
  all_goals cases hc

theorem evalBinaryOp_undecided {op : BinaryOp} (hc : op.isLogical = true) (ha : |a| < 2 ^ w) (hb : |b| < 2 ^ u)
    (hv : constBinary op a b = some v) : evalBinaryOp op (ofInt a w) (ofInt b u) = some (ofInt v 1) := by
  cases op
  case logAnd =>
    cases hv
    exact congrArg some ((logicalAnd_ofInt ha hb).trans (ofBool_decide _))
  case logOr =>
    cases hv
    exact congrArg some ((logicalOr_ofInt ha hb).trans (ofBool_decide _))
  all_goals cases hc

/-! ### Unary operators -/

theorem evalUnaryOp_context {op : UnaryOp} (hc : op.contextDetermined = true) (hv : constUnary op a = some v) :
    evalUnaryOp op (ofInt a w) = ofInt v w := by
  cases op
  case plus =>
    cases hv
    rfl
  case minus =>
    cases hv
    exact neg_ofInt a w
  case bitNot =>
    cases hv
    exact invert_ofInt a w
  all_goals cases hc

/-- What a reduction needs of its operand. -/
def OperandFits (op : UnaryOp) (w : Nat) (a : Int) : Prop :=
  match op with
  | .plus | .minus | .bitNot => True
  | .redXor => Fits false w a
  | _ => |a| < 2 ^ w

theorem reduceXor_ofInt (h : Fits false w a) : (ofInt a w).reduceXor = ofInt (parity a.toNat : Nat) 1 := by
  have hval : (ofInt a w).val = a.toNat := by
    have := ofInt_val_of_fits h
    omega
  have hlt : a.toNat < 2 ^ w := by
    rw [← hval]
    exact (ofInt a w).val_lt
  have hcount : Value.countOnes a.toNat w = Value.countOnes a.toNat (Literal.bitLength a.toNat) := by
    rw [← countOnes_of_lt hlt (le_max_left w (Literal.bitLength a.toNat)),
      countOnes_of_lt (Literal.lt_two_pow_bitLength a.toNat) (le_max_right _ _)]
  rw [reduceXor, if_neg (by simp), hval, init_width, hcount, Nat.and_one_is_mod, parity]

theorem evalUnaryOp_reduction {op : UnaryOp} (hc : op.contextDetermined = false) (hfit : OperandFits op w a)
    (hv : constUnary op a = some v) : evalUnaryOp op (ofInt a w) = ofInt v 1 := by
  cases op
  case logNot =>
    cases hv
    exact (logicalNot_ofInt hfit).trans (ofBool_decide _)
  case redOr =>
    cases hv
    exact (reduceOr_ofInt hfit).trans (ofBool_decide _)
  case redNor =>
    cases hv
    show (ofInt a w).reduceOr.invert = _
    rw [reduceOr_ofInt hfit, invert_ofBool]
    by_cases h0 : a = 0 <;> simp [h0, ofBool]
  case redXor =>
    rw [constUnary, if_pos (fits_false.mp hfit).1] at hv
    cases hv
    exact reduceXor_ofInt hfit
  case redAnd | redNand | redXnor | redXnor' => cases hv
  all_goals cases hc

end Veriforge.Const

import Veriforge.Sim.Legal

/-! # The width of an evaluated value

`_expr_self_width` bounds widths from above: a legal expression evaluates to at most the requested width
or its self-determined one, whichever is larger. The bound is what makes the operands of an arithmetic
operator meet at exactly the operator's target width. -/

namespace Veriforge

open Value

/-! ## Widths of the pieces -/

theorem extendTo_width {s : Bool} {v r : Value} {w : Nat} (h : extendTo s v w = some r) : r.width = w := by
  cases s with
  | true => exact (signExtend_eq_some h).1
  | false =>
    cases h
    rfl

theorem widen_width {s : Bool} {v r : Value} {w : Nat} (h : widen s v w = some r) : r.width = max v.width w := by
  unfold widen at h
  split at h
  · rw [extendTo_width h]
    omega
  · cases h
    omega

theorem fit_width {s : Bool} {v r : Value} {w : Nat} (h : fit s v w = some r) :
    r.width = if w ≠ 0 then w else v.width := by
  unfold fit at h
  split at h
  · next hc => rw [extendTo_width h, if_pos hc.1]
  · next hc =>
    cases h
    split
    · next h0 =>
      by_contra hne
      exact hc ⟨h0, hne⟩
    · rfl

theorem align_width {s : Bool} {v r : Value} {w : Nat} (h : align s v w = some r) : r.width = w := by
  unfold align at h
  split at h
  · exact extendTo_width h
  · next hc =>
    cases h
    exact not_not.mp hc

theorem fitOperand_width {T : SignalTable} {e : Expr} {ov : Option Bool} {w : Nat} {v r : Value}
    (h : fitOperand T e ov w v = some r) :
    r.width = if w ≠ 0 ∧ v.width ≠ w then max w (selfWidth T e) else v.width := by
  unfold fitOperand at h
  by_cases hc : w ≠ 0 ∧ v.width ≠ w
  · rw [if_pos hc] at h ⊢
    exact extendTo_width h
  · rw [if_neg hc] at h ⊢
    cases h
    rfl

theorem ashr_width {a b r : Value} (h : ashr a b = some r) : r.width = a.width := by
  unfold ashr at h
  split at h
  · cases h
    rfl
  split at h
  · next h0 =>
    cases h
    exact h0.symm
  split at h
  · split at h
    · cases h
      rfl
    split at h <;> (cases h; rfl)
  · simp only [Option.bind_eq_bind, Option.bind_eq_some_iff] at h
    obtain ⟨e, -, h⟩ := h
    cases h
    rfl

@[simp] theorem eq_width (a b : Value) : (a.eq b).width = 1 := by
  unfold Value.eq
  split
  · rfl
  split <;> rfl

@[simp] theorem ne_width (a b : Value) : (a.ne b).width = 1 := by
  unfold Value.ne
  split
  · rfl
  split <;> rfl

@[simp] theorem ofTruth_width (t : Option Bool) : (ofTruth t).width = 1 := by
  cases t <;> rfl

@[simp] theorem reduceAnd_width (a : Value) : a.reduceAnd.width = 1 := by
  rcases reduceAnd_eq a with ⟨-, h⟩ | ⟨-, h⟩ <;> rw [h]
  · rfl
  · split <;> rfl

@[simp] theorem reduceOr_width (a : Value) : a.reduceOr.width = 1 := by
  rw [reduceOr_eq]
  split
  · rfl
  split <;> rfl

theorem evalBinaryOp_width {op : BinaryOp} {a b r : Value} (h : evalBinaryOp op a b = some r) :
    r.width = resultWidth op a.width b.width := by
  cases op
  case ashr => exact ashr_width h
  all_goals
    cases h
    first
    | rfl
    | simp [resultWidth, BinaryOp.isComparison, BinaryOp.isLogical, BinaryOp.isShift, logicalAnd_eq, logicalOr_eq]

theorem evalUnaryOp_width (op : UnaryOp) (a : Value) :
    (evalUnaryOp op a).width = if op.contextDetermined then a.width else 1 := by
  cases op <;>
    simp [evalUnaryOp, UnaryOp.contextDetermined, logicalNot_eq, reduceNand, reduceNor, reduceXnor]

theorem evalSignedCmp_width {op : BinaryOp} {a b r : Value} (h : evalSignedCmp op a b = some r) : r.width = 1 := by
  unfold evalSignedCmp at h
  split at h
  · cases h
    rfl
  · simp only [Option.bind_eq_bind, Option.bind_eq_some_iff] at h
    obtain ⟨_, _, _, _, h⟩ := h
    cases h
    rfl

theorem evalSignedDivmod_width {op : BinaryOp} {a b r : Value}
    (h : evalSignedDivmod op a b = some r) (hw : b.width ≤ a.width) : r.width = a.width := by
  unfold evalSignedDivmod at h
  split at h
  · cases h
    rfl
  split at h
  · cases h
    rfl
  · simp only [Option.bind_eq_bind, Option.bind_eq_some_iff] at h
    obtain ⟨_, _, _, _, _, _, h⟩ := h
    split at h <;>
    · cases h
      exact max_eq_left hw

theorem evalSignedPow_width {a b r : Value} (h : evalSignedPow a b = some r) : r.width = a.width := by
  unfold evalSignedPow at h
  dsimp only at h
  split at h
  · cases h
    rfl
  · simp only [Option.bind_eq_bind, Option.bind_eq_some_iff] at h
    obtain ⟨_, _, _, _, h⟩ := h
    cases h
    exact ofPow_width _ _

theorem evalBinaryResult_width {op : BinaryOp} {bs ss : Bool} {a b r : Value}
    (h : evalBinaryResult op bs ss a b = some r) (hw : op.isArithmetic = true → b.width ≤ a.width) :
    r.width = resultWidth op a.width b.width := by
  unfold evalBinaryResult at h
  split at h
  · next hc =>
    rw [evalSignedCmp_width h]
    cases op <;> first | rfl | exact absurd hc.1 Bool.false_ne_true
  split at h
  · next hc =>
    have harith : op.isArithmetic = true := by
      cases op <;> first | rfl | exact absurd hc.1 Bool.false_ne_true
    rw [evalSignedDivmod_width h (hw harith), resultWidth]
    cases op <;> first | exact (max_eq_left (hw rfl)).symm | exact absurd hc.1 Bool.false_ne_true
  split at h
  · next hc =>
    rw [evalSignedPow_width h, hc.1]
    rfl
  split at h
  · next hc =>
    rw [evalBinaryOp_width h, hc.1]
    rfl
  · exact evalBinaryOp_width h

@[simp] theorem mergeXz_width (a b : Value) : (mergeXz a b).width = max a.width b.width := rfl

theorem readWholeMemoryFrom_width {T : SignalTable} {st : Store T} {n : String} {ew d : Nat}
    (h : T.memory n = some (ew, d)) (k : Nat) (acc : Value) :
    (st.readWholeMemoryFrom n acc k).width = acc.width + ew * k := by
  induction k generalizing acc with
  | zero => rfl
  | succ k ih =>
    rw [Store.readWholeMemoryFrom, ih, concat_width, st.word_width n ew d k h, Nat.mul_succ]
    omega

theorem readWholeMemory_eq_some {T : SignalTable} (st : Store T) {n : String} {ew d : Nat}
    (h : T.memory n = some (ew, d)) :
    ∃ v, st.readWholeMemory n = some v ∧ v.width = ew * d := by
  unfold Store.readWholeMemory
  rw [h]
  cases d with
  | zero => exact ⟨_, rfl, rfl⟩
  | succ d =>
    refine ⟨_, rfl, ?_⟩
    rw [readWholeMemoryFrom_width h, st.word_width n ew _ d h, Nat.mul_succ]
    omega

theorem foldl_concat_width (vs : List Value) (v : Value) :
    (vs.foldl Value.concat v).width = v.width + (vs.map Value.width).sum := by
  induction vs generalizing v with
  | nil => rfl
  | cons u us ih =>
    rw [List.foldl_cons, ih, concat_width, List.map_cons, List.sum_cons]
    omega

theorem concatValues_width (vs : List Value) : (concatValues vs).width = (vs.map Value.width).sum := by
  cases vs with
  | nil => rfl
  | cons v vs => rw [concatValues, foldl_concat_width, List.map_cons, List.sum_cons]

theorem getPart_width (target : Value) (base : Int) {width : Nat} (hw : 0 < width) (d : Direction) :
    (getPart target base width d).width = width := by
  cases d <;>
  · rw [getPart, getRange_width, orderBounds_of_le (by omega)]
    dsimp only
    omega

variable {T : SignalTable}

theorem selectBit_width {t i : Expr} {target index r : Value} {again : Option Value}
    (h : selectBit T t target i index again = some r) : r.width = 1 := by
  unfold selectBit at h
  split at h
  · simp only [Option.bind_eq_bind, Option.bind_eq_some_iff] at h
    obtain ⟨_, _, h⟩ := h
    cases h
    exact getBit_width _ _
  · cases h
    rfl

theorem selectWord_width {st : Store T} {n : String} {ew d : Nat} {i : Expr} {index r : Value}
    {again : Option Value} (hm : T.memory n = some (ew, d))
    (h : selectWord T st n ew d i index again = some r) : r.width = ew := by
  unfold selectWord at h
  split at h
  · simp only [Option.bind_eq_bind, Option.bind_eq_some_iff] at h
    obtain ⟨_, _, h⟩ := h
    cases h
    exact Store.readWord_width hm _
  · cases h
    rfl

theorem selectPart_width {t b : Expr} {target base partW r : Value} {d : Direction}
    (hd : partW.isDefined = true) (hw : 0 < partW.val)
    (h : selectPart T t target b base partW d = some r) : r.width = partW.val := by
  unfold selectPart at h
  split at h
  · simp only [Option.bind_eq_bind, Option.bind_eq_some_iff] at h
    obtain ⟨_, _, h⟩ := h
    cases h
    exact getPart_width _ _ hw _
  · rw [if_pos ⟨hd, hw⟩] at h
    cases h
    rfl

/-! ## Constants -/

/-- The sign bits above `v` are a block of ones. -/
theorem or_signBits {v w n : Nat} (hv : v < 2 ^ n) (hw : n ≤ w) :
    v ||| (maskForWidth w &&& lnot w (maskForWidth n)) = v + (2 ^ w - 2 ^ n) := by
  have hext : maskForWidth w &&& lnot w (maskForWidth n) = maskForWidth (w - n) <<< n := by
    refine Nat.eq_of_testBit_eq fun i => ?_
    rw [Nat.testBit_and, testBit_maskForWidth, testBit_lnot, testBit_maskForWidth,
      Nat.testBit_shiftLeft, testBit_maskForWidth]
    by_cases h1 : i < n
    · simp [h1, Nat.not_le.mpr h1]
    · by_cases h2 : i < w
      · simp [h1, h2, Nat.le_of_not_lt h1, show i - n < w - n by omega]
      · simp [h2, show ¬ i - n < w - n by omega]
  have hsplit : (2 : Nat) ^ w = 2 ^ (w - n) * 2 ^ n := by
    rw [← Nat.pow_add, Nat.sub_add_cancel hw]
  rw [hext, Nat.or_comm, ← Nat.shiftLeft_add_eq_or_of_lt hv, Nat.shiftLeft_eq, maskForWidth,
    Nat.sub_mul, Nat.one_mul, hsplit, Nat.add_comm]

/-- Widening keeps the two's complement reading. -/
theorem asSigned_signExtend {v r : Value} {w : Nat} {n : Int} (h : v.asSigned = some n)
    (hw : v.width ≤ w) (hr : v.signExtend w = some r) : r.asSigned = some n := by
  rcases hw.eq_or_lt with heq | hlt
  · rw [signExtend_of_width heq] at hr
    cases hr
    exact h
  unfold asSigned at h
  split at h
  · cases h
  next hm =>
  rw [not_or, not_not] at hm
  have hpow : (2 : Nat) ^ v.width < 2 ^ w := Nat.pow_lt_pow_right (by norm_num) hlt
  unfold signExtend at hr
  rw [if_neg (by omega), if_neg hm.2, hm.1] at hr
  dsimp only at hr
  rw [Nat.zero_shiftRight, Nat.zero_and, if_neg (by simp)] at hr
  split at h
  · next hs =>
    rw [if_pos hs, or_signBits v.val_lt hw] at hr
    cases hr
    cases h
    have hval : (ofInt ((v.val + (2 ^ w - 2 ^ v.width) : Nat) : Int) w).val
        = v.val + (2 ^ w - 2 ^ v.width) := by
      rw [ofInt_natCast_val, Nat.mod_eq_of_lt]
      have := v.val_lt
      omega
    -- the new sign bit lies in the block of ones
    have hmsb : ((v.val + (2 ^ w - 2 ^ v.width)) >>> (w - 1)) &&& 1 ≠ 0 := by
      rw [shiftRight_and_one_ne_zero, ← or_signBits v.val_lt hw, Nat.testBit_or, Nat.testBit_and,
        testBit_maskForWidth, testBit_lnot, testBit_maskForWidth]
      simp [show w - 1 < w by omega, show ¬ w - 1 < v.width by omega]
    unfold asSigned
    rw [if_neg (by rw [ofInt_mask, init_width]; omega), hval, init_width, if_pos hmsb]
    push_cast [hpow.le]
    congr 1
    omega
  · next hs =>
    rw [if_neg hs] at hr
    cases hr
    cases h
    have hval : (ofInt (v.val : Int) w).val = v.val := by
      rw [ofInt_natCast_val, Nat.mod_eq_of_lt (lt_trans v.val_lt hpow)]
    have hmsb : ¬ (v.val >>> (w - 1)) &&& 1 ≠ 0 := by
      rw [shiftRight_and_one_ne_zero, Nat.testBit_lt_two_pow]
      · simp
      · exact lt_of_lt_of_le v.val_lt (Nat.pow_le_pow_right (by norm_num) (by omega))
    unfold asSigned
    rw [if_neg (by rw [ofInt_mask, init_width]; omega), hval, init_width, if_neg hmsb]

variable {st : Store T}

theorem evalRequest_literal_zero (l : Literal) (ov : Option Bool) :
    evalRequest st (.literal l) (.context 0 ov) = some l.evalLiteral := by
  rw [evalRequest]
  rfl

/-- A constant index reads as the integer the literal stands for. -/
theorem indexInt_literal {l : Literal} {n : Int} (h : l.denoted = some n) : indexInt T (.literal l) l.evalLiteral
      (evalRequest st (.literal l) (.context (selfWidth T (.literal l)) (some true))) = some n := by
  obtain ⟨-, hxz, -, hr⟩ := Literal.denoted_eq_some h
  unfold indexInt
  rw [exprSigned]
  cases hs : l.signed with
  | false =>
    rw [hs] at hr
    exact hr
  | true =>
    rw [hs, if_pos rfl] at hr
    rw [Bool.not_true, if_neg Bool.false_ne_true]
    split
    · next hlt =>
      have hpos : 0 < l.evalLiteral.width := by
        refine Nat.pos_of_ne_zero fun h0 => ?_
        unfold asSigned at hr
        rw [if_pos (Or.inr h0)] at hr
        cases hr
      obtain ⟨r, hext⟩ := exists_signExtend hpos (selfWidth T (.literal l))
      rw [evalRequest]
      simp only [Request.width, Request.signedOverride, if_pos hlt, hxz, Bool.false_eq_true, if_false]
      rw [Option.getD_some, extendTo, if_pos rfl, hext]
      exact asSigned_signExtend hr hlt.le hext
    · exact hr

theorem selectRange_width {t : Expr} {m l : Literal} {mi li : Int} {target r : Value}
    (hm : m.denoted = some mi) (hl : l.denoted = some li) (hle : li ≤ mi)
    (h : selectRange T t target (.literal m) m.evalLiteral
        (evalRequest st (.literal m) (.context (selfWidth T (.literal m)) (some true))) (.literal l)
        l.evalLiteral
        (evalRequest st (.literal l) (.context (selfWidth T (.literal l)) (some true))) = some r) :
    r.width = (mi - li + 1).toNat := by
  unfold selectRange at h
  rw [if_pos ⟨(Literal.denoted_eq_some hm).2.2.1, (Literal.denoted_eq_some hl).2.2.1⟩,
    indexInt_literal hm, indexInt_literal hl] at h
  cases h
  rw [getRange_width, orderBounds_of_le (by omega)]
  dsimp only
  congr 1
  omega

/-! ## The bound -/

/-- Each part within its bound keeps the concatenation within its own. -/
theorem sum_width_le {es : List Expr} {vs : List Value} (h : evalParts st es = some vs)
    (hb : ∀ e ∈ es, ∀ v, evalRequest st e (.context (selfWidth T e) none) = some v → v.width ≤ selfWidth T e) :
    (vs.map Value.width).sum ≤ selfWidthSum T es := by
  induction es generalizing vs with
  | nil =>
    cases h
    exact Nat.zero_le _
  | cons e es ih =>
    rw [evalParts] at h
    simp only [Option.bind_eq_bind, Option.bind_eq_some_iff] at h
    obtain ⟨v, hv, us, hus, h⟩ := h
    cases h
    rw [List.forall_mem_cons] at hb
    rw [List.map_cons, List.sum_cons, selfWidthSum]
    exact Nat.add_le_add (hb.1 v hv) (ih hus hb.2)

mutual

/-- The nodes that the width of a value rests on are legal. -/
def widthLegal (T : SignalTable) : Expr → Bool
  | .unary op e => !op.contextDetermined || widthLegal T e
  | .binary op l r =>
      if op.isShift || op == .pow then widthLegal T l
      else if op.isArithmetic then widthLegal T l && widthLegal T r
      else true
  | .ternary _ t f => widthLegal T t && widthLegal T f
  | .concat b ps => legal T (.concat b ps) && widthLegalAll T ps
  | .replicate c v => legal T (.replicate c v) && widthLegal T v
  | .cast _ a => widthLegal T a
  | .ident h n => legal T (.ident h n)
  | .literal l => legal T (.literal l)
  | .rangeSelect t m l => legal T (.rangeSelect t m l)
  | .partSelect t b w d => legal T (.partSelect t b w d)
  | .bitSelect _ _ => true
  | .string _ | .streaming _ | .streamingBy _ _ | .call _ _ => false

def widthLegalAll (T : SignalTable) : List Expr → Bool
  | [] => true
  | e :: es => widthLegal T e && widthLegalAll T es

end

theorem widthLegalAll_iff {es : List Expr} : widthLegalAll T es = true ↔ ∀ e ∈ es, widthLegal T e = true := by
  induction es with
  | nil => simp [widthLegalAll]
  | cons e es ih => rw [widthLegalAll, Bool.and_eq_true, ih, List.forall_mem_cons]

theorem widthLegal_of_all {e : Expr} {w : Nat} (hl : AllAt T (fun e _ => legal T e = true) e w) :
    widthLegal T e = true := by
  induction e generalizing w with
  | unary op e ih =>
    rw [AllAt] at hl
    rw [widthLegal, ih hl.2, Bool.or_true]
  | binary op l r ihl ihr =>
    rw [AllAt] at hl
    rw [widthLegal, ihl hl.2.1, ihr hl.2.2]
    split
    · rfl
    · split <;> rfl
  | ternary c t f ihc iht ihf =>
    rw [AllAt] at hl
    rw [widthLegal, iht hl.2.2.1, ihf hl.2.2.2, Bool.and_self]
  | concat b ps ih =>
    rw [AllAt, allPartsAt_iff] at hl
    rw [widthLegal, hl.1, Bool.true_and, widthLegalAll_iff]
    exact fun p hp => ih p hp (hl.2 p hp)
  | replicate c v ihc ihv =>
    rw [AllAt] at hl
    rw [widthLegal, hl.1, ihv hl.2.2, Bool.and_self]
  | cast s a ih =>
    rw [AllAt] at hl
    rw [widthLegal, ih hl.2]
  | _ => exact hl.self

/-! ### Names and selects

They are widened from their own widths. -/

theorem ident_width {hier : List String} {n : String} {q : Request} {v : Value}
    (h : evalRequest st (.ident hier n) q = some v) (hl : legal T (.ident hier n) = true) :
    v.width = max (selfWidth T (.ident hier n)) (q.width T (.ident hier n)) := by
  rw [evalRequest] at h
  rw [selfWidth]
  cases hw : T.width (identifierName hier n) with
  | some w =>
    rw [Store.signal?_eq_some hw] at h
    rw [widen_width h, st.signal_width _ _ hw]
  | none =>
    rw [Store.signal?, hw] at h
    cases hmem : T.memory (identifierName hier n) with
    | none =>
      rw [legal, SignalTable.isMemory, hw, hmem] at hl
      cases hl
    | some m =>
      obtain ⟨whole, hr, hwid⟩ := readWholeMemory_eq_some st hmem
      rw [hr] at h
      dsimp only [Option.map_none] at h
      rw [widen_width h, hwid]

theorem bitSelect_width {t i : Expr} {q : Request} {v : Value} (h : evalRequest st (.bitSelect t i) q = some v) :
    v.width = max (selfWidth T (.bitSelect t i)) (q.width T (.bitSelect t i)) := by
  rw [evalRequest] at h
  rw [selfWidth, memoryWidth?]
  cases hm : memoryTarget? T t with
  | some m =>
    obtain ⟨name, ew, d⟩ := m
    rw [hm] at h
    simp only [Option.bind_eq_bind, Option.bind_eq_some_iff] at h
    obtain ⟨i', hi', r, hr, h⟩ := h
    rw [widen_width h, selectWord_width (memoryTarget?_eq_some hm).2 hr]
    rfl
  | none =>
    rw [hm] at h
    simp only [Option.bind_eq_bind, Option.bind_eq_some_iff] at h
    obtain ⟨t', ht', i', hi', r, hr, h⟩ := h
    rw [widen_width h, selectBit_width hr]
    rfl

theorem rangeSelect_width {t m l : Expr} {q : Request} {v : Value} (h : evalRequest st (.rangeSelect t m l) q = some v)
    (hl : legal T (.rangeSelect t m l) = true) :
    v.width = max (selfWidth T (.rangeSelect t m l)) (q.width T (.rangeSelect t m l)) := by
  obtain ⟨m', l', mi, li, rfl, rfl, hm, hl', hle⟩ := legal_rangeSelect hl
  rw [evalRequest] at h
  simp only [Option.bind_eq_bind, Option.bind_eq_some_iff] at h
  obtain ⟨t', ht', m'', hm', l'', hl'', r, hr, h⟩ := h
  rw [evalRequest_literal_zero] at hm' hl''
  cases hm'
  cases hl''
  rw [widen_width h, selectRange_width hm hl' hle hr, selfWidth, literalRangeWidth,
    (Literal.denoted_eq_some hm).1, (Literal.denoted_eq_some hl').1]

theorem partSelect_width {t b w : Expr} {d : Direction} {q : Request} {v : Value}
    (h : evalRequest st (.partSelect t b w d) q = some v) (hl : legal T (.partSelect t b w d) = true) :
    v.width = max (selfWidth T (.partSelect t b w d)) (q.width T (.partSelect t b w d)) := by
  obtain ⟨l, n, rfl, hd, hn⟩ := legal_partSelect hl
  have hval := Literal.val_of_denoted hd hn.le
  rw [evalRequest] at h
  simp only [Option.bind_eq_bind, Option.bind_eq_some_iff] at h
  obtain ⟨t', ht', b', hb', w', hw', r, hr, h⟩ := h
  rw [evalRequest_literal_zero] at hw'
  cases hw'
  rw [widen_width h, selectPart_width (Literal.denoted_eq_some hd).2.2.1 (by omega) hr, selfWidth,
    (Literal.denoted_eq_some hd).1, Option.getD_some, ← hval, Int.toNat_natCast]

/-- Such an expression evaluates to at least the requested width, and to no more than that or its
self-determined one. -/
theorem evalRequest_width_of_widthLegal {e : Expr} {q : Request} {v : Value} (h : evalRequest st e q = some v)
    (hl : widthLegal T e = true) :
    q.width T e ≤ v.width ∧ v.width ≤ max (q.width T e) (selfWidth T e) := by
  induction e generalizing q v with
  | ident hier n =>
    rw [ident_width h hl]
    exact ⟨le_max_right _ _, (max_comm _ _).le⟩
  | literal l =>
    have hfit : l.evalLiteral.width ≤ selfWidth T (.literal l) := by
      rw [selfWidth]
      simpa [widthLegal, legal] using hl
    rw [evalRequest] at h
    split at h
    · split at h
      · cases h
        exact ⟨le_rfl, le_max_left _ _⟩
      · rw [extendTo_width h]
        exact ⟨le_rfl, le_max_left _ _⟩
    · next hlt =>
      cases h
      exact ⟨Nat.le_of_not_lt hlt, le_max_of_le_right hfit⟩
  | string s => exact absurd hl Bool.false_ne_true
  | unary op e ih =>
    rw [widthLegal] at hl
    cases hc : op.contextDetermined with
    | true =>
      rw [evalRequest_unary_context hc] at h
      simp only [Option.bind_eq_some_iff, Option.map_eq_some_iff] at h
      obtain ⟨o, ho, o', ho', rfl⟩ := h
      rw [hc, Bool.not_true, Bool.false_or] at hl
      have hle := ih ho hl
      rw [evalUnaryOp_width, hc, if_pos rfl, selfWidth, hc, if_pos rfl, fitOperand_width ho']
      rw [Request.width_context] at hle
      split <;> omega
    | false =>
      rw [evalRequest_unary_self hc] at h
      simp only [Option.bind_eq_some_iff] at h
      obtain ⟨o, ho, h⟩ := h
      rw [widen_width h, evalUnaryOp_width, hc, if_neg Bool.false_ne_true, selfWidth, hc]
      exact ⟨le_max_right _ _, (max_comm _ _).le⟩
  | binary op l r ihl ihr =>
    rw [widthLegal] at hl
    rcases op.sizing with hc | hc | hc | hc | hc
    · rw [evalRequest_logical hc] at h
      simp only [Option.bind_eq_some_iff] at h
      obtain ⟨l', hl', r', hr', v', hv', h⟩ := h
      rw [fit_width h, evalBinaryOp_width hv', resultWidth_logical _ _ hc, selfWidth_binary,
        resultWidth_logical _ _ hc]
      split <;> omega
    · rw [evalRequest_comparison hc] at h
      simp only [Option.bind_eq_some_iff] at h
      obtain ⟨l', -, r', -, l'', -, r'', -, v', hv', h⟩ := h
      rw [fit_width h, evalBinaryResult_width hv' (by
          rw [BinaryOp.not_arithmetic_of_comparison hc]; exact fun h => absurd h Bool.false_ne_true),
        resultWidth_comparison _ _ hc, selfWidth_binary, resultWidth_comparison _ _ hc]
      split <;> omega
    · rw [evalRequest_shift hc] at h
      simp only [Option.bind_eq_some_iff] at h
      obtain ⟨l', hl', l'', hl'', r', -, v', hv', h⟩ := h
      rw [if_pos hc] at hl
      have hle := ihl hl' hl
      rw [Request.width_context] at hle
      rw [fit_width h, evalBinaryResult_width hv' (by
          rw [BinaryOp.not_arithmetic_of_shift hc]; exact fun h => absurd h Bool.false_ne_true),
        resultWidth_shift _ _ hc, widen_width hl'', selfWidth_binary, resultWidth_shift _ _ hc]
      unfold shiftTarget at hle ⊢
      split at hle <;> split <;> omega
    · rw [evalRequest_bitwise hc] at h
      simp only [Option.bind_eq_some_iff] at h
      obtain ⟨l', -, r', -, l'', hl'', r'', hr'', v', hv', h⟩ := h
      rw [fit_width h, evalBinaryOp_width hv', resultWidth_bitwise _ _ hc, align_width hl'',
        align_width hr'', selfWidth_binary, resultWidth_bitwise _ _ hc, operandTarget]
      split <;> omega
    · rw [if_neg (by cases op <;> first | decide | cases hc), if_pos hc, Bool.and_eq_true] at hl
      rw [evalRequest_arithmetic hc] at h
      simp only [Option.bind_eq_some_iff] at h
      obtain ⟨l', hl', r', hr', l'', hl'', r'', hr'', v', hv', h⟩ := h
      have h1 := ihl hl' hl.1
      have h2 := ihr hr' hl.2
      rw [Request.width_context] at h1 h2
      have hw1 := widen_width hl''
      have hw2 := widen_width hr''
      unfold operandTarget at h1 h2 hw1 hw2
      rw [fit_width h, evalBinaryResult_width hv' (fun _ => by omega), resultWidth_arithmetic _ _ hc,
        selfWidth_binary, resultWidth_arithmetic _ _ hc]
      split <;> omega
  | ternary c t f ihc iht ihf =>
    rw [widthLegal, Bool.and_eq_true] at hl
    rw [evalRequest] at h
    simp only [Option.bind_eq_bind, Option.bind_eq_some_iff] at h
    obtain ⟨c', hc', h⟩ := h
    rw [selfWidth]
    split at h
    · split at h
      · have := iht h hl.1
        rw [Request.width_context] at this
        omega
      · have := ihf h hl.2
        rw [Request.width_context] at this
        omega
    · simp only [Option.bind_eq_some_iff] at h
      obtain ⟨t', ht', f', hf', h⟩ := h
      cases h
      have h1 := iht ht' hl.1
      have h2 := ihf hf' hl.2
      rw [Request.width_context] at h1 h2
      rw [mergeXz_width]
      omega
  | concat b ps ih =>
    rw [widthLegal, Bool.and_eq_true, widthLegalAll_iff] at hl
    rw [evalRequest] at h
    simp only [Option.bind_eq_bind, Option.bind_eq_some_iff] at h
    obtain ⟨vs, hvs, h⟩ := h
    split at h
    · next hnil =>
      have := hl.1
      rw [legal, hnil] at this
      cases this
    · have hsum := sum_width_le hvs fun p hp v hv => by
        have := ih p hp hv (hl.2 p hp)
        rw [Request.width_context, max_self] at this
        exact this.2
      rw [widen_width h, concatValues_width, selfWidth]
      omega
  | replicate c v ihc ihv =>
    rw [widthLegal, Bool.and_eq_true] at hl
    obtain ⟨l, n, rfl, hd, hn⟩ := legal_replicate hl.1
    rw [evalRequest] at h
    simp only [Option.bind_eq_bind, Option.bind_eq_some_iff] at h
    obtain ⟨c', hc', v', hv', h⟩ := h
    rw [evalRequest_literal_zero] at hc'
    cases hc'
    rw [if_pos (Literal.denoted_eq_some hd).2.2.1] at h
    have hle := ihv hv' hl.2
    have hval := Literal.val_of_denoted hd hn
    rw [widen_width h, replicate_width, selfWidth, (Literal.denoted_eq_some hd).1]
    rw [Request.width_context, max_self] at hle
    replace hle := hle.2
    rw [Option.getD_some, ← hval, Int.toNat_natCast, Nat.mul_comm v'.width]
    have := Nat.mul_le_mul_left l.evalLiteral.val hle
    omega
  | streaming ps ih => exact absurd hl Bool.false_ne_true
  | streamingBy s ps ihs ih => exact absurd hl Bool.false_ne_true
  | bitSelect t i iht ihi =>
    rw [bitSelect_width h]
    exact ⟨le_max_right _ _, (max_comm _ _).le⟩
  | rangeSelect t m l iht ihm ihl =>
    rw [rangeSelect_width h hl]
    exact ⟨le_max_right _ _, (max_comm _ _).le⟩
  | partSelect t b w d iht ihb ihw =>
    rw [partSelect_width h hl]
    exact ⟨le_max_right _ _, (max_comm _ _).le⟩
  | cast s a ih =>
    rw [widthLegal] at hl
    cases q with
    | inner =>
      rw [evalRequest] at h
      rw [selfWidth]
      exact ih h hl
    | context w ov =>
      rw [evalRequest] at h
      simp only [Option.bind_eq_bind, Option.bind_eq_some_iff] at h
      obtain ⟨r, hr, h⟩ := h
      have := ih hr hl
      rw [Request.width_inner, max_self] at this
      rw [widen_width h, selfWidth, Request.width_context]
      omega
  | call f as ih => exact absurd hl Bool.false_ne_true

/-- A legal expression evaluates to at least the requested width, and to no more than that or its
self-determined one. -/
theorem evalRequest_width {e : Expr} {q : Request} {v : Value}
    (h : evalRequest st e q = some v) (hl : AllAt T (fun e _ => legal T e = true) e (q.width T e)) :
    q.width T e ≤ v.width ∧ v.width ≤ max (q.width T e) (selfWidth T e) :=
  evalRequest_width_of_widthLegal h (widthLegal_of_all hl)

/-- A part at least as wide as it should be each time makes the concatenation at least as wide. -/
theorem le_sum_width {es : List Expr} {vs : List Value} (h : evalParts st es = some vs)
    (hb : ∀ e ∈ es, ∀ v, evalRequest st e (.context (selfWidth T e) none) = some v → selfWidth T e ≤ v.width) :
    selfWidthSum T es ≤ (vs.map Value.width).sum := by
  induction es generalizing vs with
  | nil => exact Nat.zero_le _
  | cons e es ih =>
    rw [evalParts] at h
    simp only [Option.bind_eq_bind, Option.bind_eq_some_iff] at h
    obtain ⟨v, hv, us, hus, h⟩ := h
    cases h
    rw [List.forall_mem_cons] at hb
    rw [List.map_cons, List.sum_cons, selfWidthSum]
    exact Nat.add_le_add (hb.1 v hv) (ih hus hb.2)

/-- Asked for no width, a legal expression evaluates to its self-determined width. -/
theorem evalRequest_width_of_zero {e : Expr} {q : Request} {v : Value} (hq : q.width T e = 0)
    (h : evalRequest st e q = some v) (hl : AllAt T (fun e _ => legal T e = true) e (q.width T e))
    (hx : e.exactCore = true) : v.width = selfWidth T e := by
  have hup := (evalRequest_width h hl).2
  rw [hq, Nat.zero_max] at hup
  refine le_antisymm hup ?_
  clear hup
  induction e generalizing q v with
  | ident hier n =>
    rw [ident_width h hl.self]
    exact le_max_left _ _
  | literal l =>
    have hex : l.evalLiteral.width = l.selfWidth := beq_iff_eq.mp hx
    rw [evalRequest] at h
    rw [hq, if_neg (Nat.not_lt_zero _)] at h
    cases h
    rw [selfWidth, hex]
  | string s => exact absurd hl.self Bool.false_ne_true
  | unary op e ih =>
    rw [AllAt] at hl
    cases hc : op.contextDetermined with
    | true =>
      rw [evalRequest_unary_context hc, hq] at h
      simp only [Option.bind_eq_some_iff, Option.map_eq_some_iff] at h
      obtain ⟨o, ho, o', ho', rfl⟩ := h
      rw [hc, if_pos rfl, hq] at hl
      rw [Expr.exactCore, hc, Bool.not_true, Bool.false_or] at hx
      have hle := ih rfl ho hl.2 hx
      rw [evalUnaryOp_width, hc, if_pos rfl, selfWidth, hc, if_pos rfl, fitOperand_width ho',
        if_neg fun hc => hc.1 rfl]
      exact hle
    | false =>
      rw [evalRequest_unary_self hc] at h
      simp only [Option.bind_eq_some_iff] at h
      obtain ⟨o, ho, h⟩ := h
      rw [widen_width h, evalUnaryOp_width, hc, if_neg Bool.false_ne_true, selfWidth, hc]
      exact le_max_left _ _
  | binary op l r ihl ihr =>
    rw [AllAt, hq] at hl
    rcases op.sizing with hc | hc | hc | hc | hc
    · rw [evalRequest_logical hc] at h
      simp only [Option.bind_eq_some_iff] at h
      obtain ⟨l', -, r', -, v', hv', h⟩ := h
      rw [fit_width h, hq, if_neg (by simp), evalBinaryOp_width hv', resultWidth_logical _ _ hc,
        selfWidth_binary, resultWidth_logical _ _ hc]
    · rw [evalRequest_comparison hc] at h
      simp only [Option.bind_eq_some_iff] at h
      obtain ⟨l', -, r', -, l'', -, r'', -, v', hv', h⟩ := h
      rw [fit_width h, hq, if_neg (by simp), evalBinaryResult_width hv' (by
          rw [BinaryOp.not_arithmetic_of_comparison hc]; exact fun h => absurd h Bool.false_ne_true),
        resultWidth_comparison _ _ hc, selfWidth_binary, resultWidth_comparison _ _ hc]
    · rw [evalRequest_shift hc] at h
      simp only [Option.bind_eq_some_iff] at h
      obtain ⟨l', -, l'', hl'', r', -, v', hv', h⟩ := h
      rw [fit_width h, hq, if_neg (by simp), evalBinaryResult_width hv' (by
          rw [BinaryOp.not_arithmetic_of_shift hc]; exact fun h => absurd h Bool.false_ne_true),
        resultWidth_shift _ _ hc, widen_width hl'', selfWidth_binary, resultWidth_shift _ _ hc,
        shiftTarget, hq, if_neg (by simp)]
      exact le_max_right _ _
    · rw [evalRequest_bitwise hc] at h
      simp only [Option.bind_eq_some_iff] at h
      obtain ⟨l', -, r', -, l'', hl'', r'', hr'', v', hv', h⟩ := h
      rw [fit_width h, hq, if_neg (by simp), evalBinaryOp_width hv', resultWidth_bitwise _ _ hc,
        align_width hl'', align_width hr'', selfWidth_binary, resultWidth_bitwise _ _ hc,
        operandTarget, hq]
      omega
    · rw [evalRequest_arithmetic hc] at h
      simp only [Option.bind_eq_some_iff] at h
      obtain ⟨l', hl', r', hr', l'', hl'', r'', hr'', v', hv', h⟩ := h
      rw [operandWidths_arithmetic _ _ _ hc] at hl
      rw [hq] at hl' hr' hl'' hr''
      have h1 := evalRequest_width hl' hl.2.1
      have h2 := evalRequest_width hr' hl.2.2
      rw [Request.width_context] at h1 h2
      have hw1 := widen_width hl''
      have hw2 := widen_width hr''
      unfold operandTarget at h1 h2 hw1 hw2
      rw [fit_width h, hq, if_neg (by simp), evalBinaryResult_width hv' (fun _ => by omega),
        resultWidth_arithmetic _ _ hc, selfWidth_binary, resultWidth_arithmetic _ _ hc]
      omega
  | ternary c t f ihc iht ihf =>
    rw [AllAt] at hl
    rw [evalRequest] at h
    simp only [Option.bind_eq_bind, Option.bind_eq_some_iff] at h
    obtain ⟨c', hc', h⟩ := h
    rw [selfWidth]
    split at h
    · split at h
      · have := (evalRequest_width h hl.2.2.1).1
        rw [Request.width_context] at this
        omega
      · have := (evalRequest_width h hl.2.2.2).1
        rw [Request.width_context] at this
        omega
    · simp only [Option.bind_eq_some_iff] at h
      obtain ⟨t', ht', f', hf', h⟩ := h
      cases h
      have h1 := (evalRequest_width ht' hl.2.2.1).1
      rw [Request.width_context] at h1
      rw [mergeXz_width]
      omega
  | concat b ps ih =>
    rw [AllAt, allPartsAt_iff] at hl
    rw [evalRequest] at h
    simp only [Option.bind_eq_bind, Option.bind_eq_some_iff] at h
    obtain ⟨vs, hvs, h⟩ := h
    split at h
    · next hnil =>
      have := hl.1
      rw [legal, hnil] at this
      cases this
    · have hsum := le_sum_width hvs fun p hp v hv => by
        have := (evalRequest_width hv (hl.2 p hp)).1
        rwa [Request.width_context] at this
      rw [widen_width h, concatValues_width, selfWidth]
      omega
  | replicate c v ihc ihv =>
    obtain ⟨l, n, rfl, hd, hn⟩ := legal_replicate hl.self
    rw [AllAt] at hl
    rw [evalRequest] at h
    simp only [Option.bind_eq_bind, Option.bind_eq_some_iff] at h
    obtain ⟨c', hc', v', hv', h⟩ := h
    rw [evalRequest_literal_zero] at hc'
    cases hc'
    rw [if_pos (Literal.denoted_eq_some hd).2.2.1] at h
    have hle := (evalRequest_width hv' hl.2.2).1
    rw [Request.width_context] at hle
    have hval := Literal.val_of_denoted hd hn
    rw [widen_width h, replicate_width, selfWidth, (Literal.denoted_eq_some hd).1, Option.getD_some,
      ← hval, Int.toNat_natCast, Nat.mul_comm v'.width]
    exact le_max_of_le_left (Nat.mul_le_mul_left _ hle)
  | streaming ps ih => exact absurd hl.self Bool.false_ne_true
  | streamingBy s ps ihs ih => exact absurd hl.self Bool.false_ne_true
  | bitSelect t i iht ihi =>
    rw [bitSelect_width h]
    exact le_max_left _ _
  | rangeSelect t m l iht ihm ihl =>
    rw [rangeSelect_width h hl.self]
    exact le_max_left _ _
  | partSelect t b w d iht ihb ihw =>
    rw [partSelect_width h hl.self]
    exact le_max_left _ _
  | cast s a ih =>
    rw [AllAt] at hl
    cases q with
    | inner =>
      rw [evalRequest] at h
      have := (evalRequest_width h hl.2).1
      rw [selfWidth]
      exact this
    | context w ov =>
      rw [evalRequest] at h
      simp only [Option.bind_eq_bind, Option.bind_eq_some_iff] at h
      obtain ⟨r, hr, h⟩ := h
      have := (evalRequest_width hr hl.2).1
      rw [Request.width_inner] at this
      rw [widen_width h, selfWidth]
      exact le_max_of_le_left this
  | call f as ih => exact absurd hl.self Bool.false_ne_true

end Veriforge

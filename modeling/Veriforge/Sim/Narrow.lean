import Veriforge.Sim.Sizing

/-! # Narrow evaluation

An expression asked for less than its own width, as by an assignment to a narrower target, is computed at
its own width and truncated, or not even truncated. One operator can tell the difference: a negation is
unknown as a whole when any bit of its operand is, so cutting an unknown bit off first makes it known. -/

namespace Veriforge

open Value

variable {T : SignalTable} {st : Store T}

/-- Evaluated at less than its own width, the expression is cut to that width and may have been unknown
in some of its bits only. -/
def Expr.cutsUnknown : Expr → Bool
  | .unary .bitNot e | .unary .plus e => e.cutsUnknown
  | .binary op _ _ => op.isShift || op.isBitwise
  | .literal l => l.evalLiteral.width != l.selfWidth && !l.evalLiteral.isDefined
  | _ => false

/-- The node negates an operand some of whose unknown bits may have been cut off. -/
def negatesCut (T : SignalTable) (e : Expr) (w : Nat) : Bool :=
  match e with
  | .unary .minus e => decide (0 < w) && decide (w < selfWidth T e) && e.cutsUnknown
  | _ => false

theorem evalUnaryOp_resize {op : UnaryOp} (hc : op.contextDetermined = true) {v : Value} {w : Nat}
    (hw : w ≤ v.width) (hu : op = .minus → v.Uniform) :
    evalUnaryOp op (v.resize w) = (evalUnaryOp op v).resize w := by
  cases op with
  | plus => rfl
  | minus => exact neg_resize (hu rfl) hw
  | bitNot => exact invert_resize hw
  | _ => exact absurd hc Bool.false_ne_true

theorem uniform_evalUnaryOp {op : UnaryOp} (hc : op.contextDetermined = true) {v : Value}
    (h : op = .minus ∨ v.Uniform) : (evalUnaryOp op v).Uniform := by
  cases op with
  | plus => exact h.resolve_left (by decide)
  | minus => exact uniform_neg v
  | bitNot => exact (h.resolve_left (by decide)).invert
  | _ => exact absurd hc Bool.false_ne_true

theorem evalSignedDivmod_uniform {op : BinaryOp} {a b r : Value} (h : evalSignedDivmod op a b = some r) :
    r.Uniform := by
  unfold evalSignedDivmod at h
  split at h
  · cases h
    exact uniform_x _
  split at h
  · cases h
    exact uniform_x _
  · simp only [Option.bind_eq_bind, Option.bind_eq_some_iff] at h
    obtain ⟨m, -, n, -, q, -, h⟩ := h
    split at h <;> cases h <;> exact uniform_ofInt _ _

theorem evalSignedPow_uniform {a b r : Value} (h : evalSignedPow a b = some r) : r.Uniform := by
  unfold evalSignedPow at h
  dsimp only at h
  split at h
  · cases h
    exact uniform_x _
  · simp only [Option.bind_eq_bind, Option.bind_eq_some_iff] at h
    obtain ⟨m, -, n, -, h⟩ := h
    cases h
    exact uniform_ofPow _ _

/-- Arithmetic is all or nothing. -/
theorem evalBinaryResult_uniform {op : BinaryOp} (hc : op.isArithmetic = true ∨ op = .pow)
    {bs ss : Bool} {a b r : Value} (h : evalBinaryResult op bs ss a b = some r) : r.Uniform := by
  have hno : op.isOrdering = false := by
    rcases hc with hc | rfl
    · cases op <;> first | rfl | cases hc
    · rfl
  unfold evalBinaryResult at h
  rw [hno, if_neg fun h => Bool.false_ne_true h.1] at h
  split at h
  · exact evalSignedDivmod_uniform h
  split at h
  · exact evalSignedPow_uniform h
  split at h
  · next hsh =>
    rw [hsh.1] at hc
    exact absurd hc (by decide)
  cases op with
  | add =>
    cases h
    exact uniform_add _ _
  | sub =>
    cases h
    exact uniform_sub _ _
  | mul =>
    cases h
    exact uniform_mul _ _
  | div =>
    cases h
    exact uniform_floordiv _ _
  | mod =>
    cases h
    exact uniform_mod _ _
  | pow =>
    cases h
    exact uniform_pow _ _
  | _ => exact absurd hc (by decide)

theorem evalRequest_narrow_of_selfDetermined {e : Expr} {w : Nat} (hs : e.selfDetermined = true)
    (hw : w ≤ selfWidth T e) (hl : AllAt T (fun e _ => legal T e = true) e 0) (hx : e.exactCore = true)
    (ov : Option Bool) :
    evalRequest st e (.context w ov) = evalRequest st e (.context (selfWidth T e) ov) := by
  have hid : (evalRequest st e (.context 0 ov)).bind some
      = (evalRequest st e (.context 0 ov)).bind fun v => widen (ov.getD (exprSigned T e)) v w :=
    Option.bind_congr fun v hv =>
      (widen_of_le (by rw [evalRequest_width_of_none hv hl hx]; exact hw)).symm
  rw [evalRequest_selfDetermined hs hl.self w, ← hid, Option.bind_fun_some, evalRequest_none hl hx]

theorem evalRequest_narrow_of_operands {op : BinaryOp}
    (hc : op.isBitwise = true ∨ op.isArithmetic = true) {l r : Expr} {w : Nat} (h0 : 0 < w)
    (hw : w < selfWidth T (.binary op l r)) (hl : AllAt T (fun e _ => legal T e = true) (.binary op l r) w)
    (ov : Option Bool) :
    evalRequest st (.binary op l r) (.context w ov)
        = (evalRequest st (.binary op l r) (.context (selfWidth T (.binary op l r)) ov)).map
            (·.resize w) ∧
      ((Expr.binary op l r).cutsUnknown = false → ∀ v,
        evalRequest st (.binary op l r) (.context (selfWidth T (.binary op l r)) ov) = some v → v.Uniform) := by
  have hself : selfWidth T (.binary op l r) = max (selfWidth T l) (selfWidth T r) := by
    rw [selfWidth_binary]
    exact hc.elim (resultWidth_bitwise _ _) (resultWidth_arithmetic _ _)
  rw [hself] at hw ⊢
  have ht : operandTarget T l r w = max (selfWidth T l) (selfWidth T r) := Nat.max_eq_right hw.le
  have ht' : operandTarget T l r (max (selfWidth T l) (selfWidth T r))
      = max (selfWidth T l) (selfWidth T r) := Nat.max_self _
  rw [evalRequest_operands_sized hc ov hl, evalRequest_operands_sized hc ov (hl.width _), ht, ht']
  rw [AllAt, operandWidths_operands hc, ht] at hl
  have hwu : ∀ {a b u}, evalRequest st l (.context (max (selfWidth T l) (selfWidth T r))
      (some (ov.getD (exprSigned T l && exprSigned T r)))) = some a →
      evalRequest st r (.context (max (selfWidth T l) (selfWidth T r))
        (some (ov.getD (exprSigned T l && exprSigned T r)))) = some b →
      evalBinaryResult op (exprSigned T l && exprSigned T r) false a b = some u →
      u.width = max (selfWidth T l) (selfWidth T r) := fun ha hb hu => by
    have hwa := evalRequest_width_of_le ha hl.2.1 (le_max_left _ _)
    have hwb := evalRequest_width_of_le hb hl.2.2 (le_max_right _ _)
    rw [evalBinaryResult_width_of_eq hc (hwb.trans hwa.symm) hu, hwa]
  constructor
  · simp only [Option.map_eq_bind, Option.bind_assoc]
    refine Option.bind_congr fun a ha => Option.bind_congr fun b hb => Option.bind_congr fun u hu => ?_
    rw [fit_of_le h0 (by rw [hwu ha hb hu]; exact hw.le), fit_of_width (hwu ha hb hu)]
    rfl
  · intro hcut v hv
    simp only [Option.bind_eq_some_iff] at hv
    obtain ⟨a, ha, b, hb, u, hu, hv⟩ := hv
    rw [fit_of_width (hwu ha hb hu)] at hv
    cases hv
    refine evalBinaryResult_uniform (Or.inl (hc.resolve_left fun hb => ?_)) hu
    rw [Expr.cutsUnknown, hb, Bool.or_true] at hcut
    cases hcut

/-! ## Literals counted as wider than they are -/

/-- Extending and truncating is extending less far. -/
theorem extendTo_resize {s : Bool} {v u : Value} {n w : Nat} (h : extendTo s v n = some u)
    (hw : w ≤ n) : extendTo s v w = some (u.resize w) := by
  cases s with
  | false =>
    cases h
    exact congrArg some (resize_resize_of_le v hw).symm
  | true =>
    change v.signExtend n = some u at h
    show v.signExtend w = some (u.resize w)
    have hn := signExtend_eq_some h
    by_cases hle : w ≤ v.width
    · rw [signExtend_of_le hle]
      refine congrArg some (ext_bit_lt rfl fun i hi => ?_)
      rw [resize_width] at hi
      rw [bit_resize, bit_resize, if_pos hi, if_pos hi, hn.2 i (by omega), if_pos (by omega)]
    · have h0 : 0 < v.width := by
        by_contra h0
        rw [signExtend, if_neg (by omega), if_pos (by omega)] at h
        cases h
      obtain ⟨r, hr⟩ := exists_signExtend h0 w
      have hrs := signExtend_eq_some hr
      rw [hr]
      refine congrArg some (ext_bit_lt hrs.1 fun i hi => ?_)
      rw [hrs.1] at hi
      rw [bit_resize, if_pos hi, hn.2 i (by omega), hrs.2 i hi]

theorem extendTo_mask {s : Bool} {v u : Value} {n : Nat} (h : extendTo s v n = some u)
    (hv : v.mask = 0) : u.mask = 0 := by
  rw [mask_eq_zero_iff] at hv ⊢
  intro i
  cases s with
  | false =>
    cases h
    rw [bit_resize]
    split
    · exact hv i
    · exact Option.some_ne_none _
  | true =>
    have hu := signExtend_eq_some h
    rcases lt_or_ge i n with hi | hi
    · rw [hu.2 i hi]
      split
      · exact hv i
      · exact hv _
    · rw [bit_of_width_le (by rw [hu.1]; exact hi)]
      exact Option.some_ne_none _

theorem extendTo_map_resize (s : Bool) (v : Value) {n w : Nat} (h0 : 0 < w) (hw : w ≤ n) :
    (extendTo s v n).map (·.resize w) = extendTo s v w := by
  cases h : extendTo s v n with
  | some u => exact (extendTo_resize h hw).symm
  | none =>
    cases s with
    | false => cases h
    | true =>
      change v.signExtend n = none at h
      show none = v.signExtend w
      have hv : v.width = 0 := by
        by_contra hv
        obtain ⟨r, hr⟩ := exists_signExtend (Nat.pos_of_ne_zero hv) n
        rw [hr] at h
        cases h
      rw [signExtend, if_neg (by omega), if_pos hv]

/-- An unsized `x` or `z` literal has the width it is counted with. -/
def exactFill : Expr → Bool
  | .literal l => !Literal.isUnsizedXz l.originalText || l.evalLiteral.width == l.selfWidth
  | _ => true

/-- At an operand of `~ + -`, what is asked for less than its own width is extended again. -/
theorem bind_fitOperand {e : Expr} {w : Nat} (hl : AllAt T (fun e _ => legal T e = true) e w)
    (hw : w ≤ selfWidth T e) (ov : Option Bool) :
    (evalRequest st e (.context (selfWidth T e) ov)).bind (fitOperand T e ov w)
      = evalRequest st e (.context (selfWidth T e) ov) := by
  have hid : (evalRequest st e (.context (selfWidth T e) ov)).bind some
      = (evalRequest st e (.context (selfWidth T e) ov)).bind (fitOperand T e ov w) :=
    Option.bind_congr fun v hv => by
      have hwv := evalRequest_width_of_le hv (hl.width _) le_rfl
      rw [fitOperand]
      split
      · rw [Nat.max_eq_right hw, extendTo_of_width hwv]
      · rfl
  rw [← hid, Option.bind_fun_some]

theorem evalRequest_literal_narrow {l : Literal} {w : Nat} (h0 : 0 < w) (hw : w < l.selfWidth)
    (hx : l.evalLiteral.width < l.selfWidth) (hxz : Literal.isUnsizedXz l.originalText = false)
    (ov : Option Bool) :
    (evalRequest st (.literal l) (.context w ov)).bind (fitOperand T (.literal l) ov w)
        = evalRequest st (.literal l) (.context l.selfWidth ov) ∧ w < l.evalLiteral.width ∨
      evalRequest st (.literal l) (.context w ov)
        = (evalRequest st (.literal l) (.context l.selfWidth ov)).map (·.resize w) := by
  rw [evalRequest, evalRequest, Request.width_context, Request.width_context, if_pos hx, hxz]
  rcases lt_or_ge w l.evalLiteral.width with hlt | hge
  · left
    rw [if_neg (by omega), if_neg Bool.false_ne_true]
    refine ⟨?_, hlt⟩
    show fitOperand T (.literal l) ov w l.evalLiteral = _
    rw [fitOperand, if_pos ⟨h0.ne', hlt.ne'⟩, exprSigned, selfWidth, Nat.max_eq_right hw.le]
    rfl
  · right
    rw [if_neg Bool.false_ne_true, if_neg Bool.false_ne_true, extendTo_map_resize _ _ h0 hw.le]
    split
    · rfl
    · rw [extendTo_of_width (by omega)]

/-- Asked for less than its own width, an expression either keeps its own or is truncated; truncation is
all it suffers unless a partly unknown operand was cut before it was negated. -/
theorem evalRequest_narrow {e : Expr} {w : Nat} (h0 : 0 < w) (hw : w < selfWidth T e)
    (hl : AllAt T (fun e w => legal T e = true ∧ exactFill e = true ∧ negatesCut T e w = false) e w)
    (ov : Option Bool) :
    ((evalRequest st e (.context w ov)).bind (fitOperand T e ov w)
          = evalRequest st e (.context (selfWidth T e) ov) ∧
        (e.exactCore = true → evalRequest st e (.context w ov) = evalRequest st e (.context (selfWidth T e) ov))) ∨
      (evalRequest st e (.context w ov)
          = (evalRequest st e (.context (selfWidth T e) ov)).map (·.resize w) ∧
        (e.cutsUnknown = false → ∀ v, evalRequest st e (.context (selfWidth T e) ov) = some v → v.Uniform)) := by
  have hlegal : ∀ {e : Expr} {w : Nat},
      AllAt T (fun e w => legal T e = true ∧ exactFill e = true ∧ negatesCut T e w = false) e w →
        AllAt T (fun e _ => legal T e = true) e w := AllAt.imp fun _ _ h => h.1
  have hkeeps : ∀ {e : Expr} {w : Nat}, w < selfWidth T e → AllAt T (fun e _ => legal T e = true) e w →
      evalRequest st e (.context w ov) = evalRequest st e (.context (selfWidth T e) ov) →
        (evalRequest st e (.context w ov)).bind (fitOperand T e ov w)
            = evalRequest st e (.context (selfWidth T e) ov) ∧
          (e.exactCore = true → evalRequest st e (.context w ov) = evalRequest st e (.context (selfWidth T e) ov)) :=
    fun hw hl h => ⟨by rw [h, bind_fitOperand hl hw.le], fun _ => h⟩
  induction e generalizing w with
  | literal l =>
    by_cases hex : l.evalLiteral.width = l.selfWidth
    · refine Or.inl (hkeeps hw (hlegal hl) ?_)
      rw [selfWidth] at hw
      rw [evalRequest, evalRequest, Request.width_context, Request.width_context, selfWidth,
        if_neg (by omega), if_neg (by omega)]
    · have hfill := hl.self.2.1
      have hle : l.evalLiteral.width ≤ l.selfWidth := of_decide_eq_true hl.self.1
      have hlt : l.evalLiteral.width < l.selfWidth := by omega
      rw [exactFill, beq_eq_false_iff_ne.mpr hex, Bool.or_false, Bool.not_eq_true'] at hfill
      rcases evalRequest_literal_narrow h0 hw hlt hfill ov with ⟨h, -⟩ | h
      · refine Or.inl ⟨h, fun hcore => absurd (beq_iff_eq.mp hcore) hex⟩
      · refine Or.inr ⟨h, fun hcut v hv => ?_⟩
        rw [Expr.cutsUnknown, bne_iff_ne.mpr hex, Bool.true_and, Bool.not_eq_false'] at hcut
        rw [evalRequest, Request.width_context, selfWidth, if_pos hlt, hfill, if_neg Bool.false_ne_true] at hv
        exact Or.inl (extendTo_mask hv (isDefined_iff.mp hcut))
  | unary op e ih =>
    cases hc : op.contextDetermined with
    | false =>
      exact Or.inl (hkeeps hw (hlegal hl) (evalRequest_narrow_of_selfDetermined
        (by rw [Expr.selfDetermined, hc]; rfl) hw.le ((hlegal hl).width 0)
        (by rw [Expr.exactCore, hc]; rfl) ov))
    | true =>
      have hl' := hl
      rw [AllAt, hc, if_pos rfl] at hl
      have hself : selfWidth T (.unary op e) = selfWidth T e := by rw [selfWidth, hc, if_pos rfl]
      rw [hself] at hw ⊢
      have hes := (hlegal hl.2).width (selfWidth T e)
      have hwid : ∀ {v}, evalRequest st e (.context (selfWidth T e) ov) = some v →
          v.width = selfWidth T e := fun hv => evalRequest_width_of_le hv hes le_rfl
      have hcode : evalRequest st (.unary op e) (.context w ov)
          = ((evalRequest st e (.context w ov)).bind (fitOperand T e ov w)).map (evalUnaryOp op) := by
        rw [evalRequest_unary_context hc, Option.map_bind]
        rfl
      rcases ih h0 hw hl.2 with ⟨heq, -⟩ | ⟨heq, hu⟩
      · -- the operand keeps its width
        refine Or.inl (hself ▸ hkeeps (hself.symm ▸ hw) (hlegal hl') ?_)
        rw [hcode, heq, hself, evalRequest_unary_sized hc ov hes (Or.inr le_rfl)]
      · -- the operand was truncated, and the operator commutes with that
        right
        rw [hcode, evalRequest_unary_sized hc ov hes (Or.inr le_rfl), heq]
        constructor
        · rw [Option.map_map, Option.map_bind, Option.bind_map, Option.map_eq_bind]
          refine Option.bind_congr fun v hv => ?_
          simp only [Function.comp]
          rw [fitOperand_of_width (Or.inr (resize_width _ _)), Option.map_some,
            evalUnaryOp_resize hc (by rw [hwid hv]; exact hw.le)]
          rintro rfl
          have hneg := hl.1.2.2
          rw [negatesCut, decide_eq_true h0, decide_eq_true hw, Bool.true_and, Bool.true_and] at hneg
          exact hu hneg v hv
        · intro hcut u hv
          obtain ⟨v, hev, rfl⟩ := Option.map_eq_some_iff.mp hv
          apply uniform_evalUnaryOp hc
          cases op with
          | minus => exact Or.inl rfl
          | plus | bitNot => exact Or.inr (hu hcut v hev)
          | _ => exact absurd hc Bool.false_ne_true
  | binary op l r ihl ihr =>
    have hs := hlegal hl
    have hself := selfWidth_binary T op l r
    rcases op.sizing with hc | hc | hc | hc | hc
    · exact Or.inl (hkeeps hw hs (evalRequest_narrow_of_selfDetermined
        (by rw [Expr.selfDetermined, hc]; rfl) hw.le (hs.width 0) rfl ov))
    · exact Or.inl (hkeeps hw hs (evalRequest_narrow_of_selfDetermined
        (by rw [Expr.selfDetermined, hc, Bool.or_true]) hw.le (hs.width 0) rfl ov))
    · right
      rw [resultWidth_shift _ _ hc] at hself
      rw [hself] at hw ⊢
      have ht : shiftTarget T l w = selfWidth T l := by
        rw [shiftTarget, if_pos h0.ne', Nat.max_eq_right hw.le]
      have ht' : shiftTarget T l (selfWidth T l) = selfWidth T l := by
        rw [shiftTarget, Nat.max_self, ite_self]
      rw [evalRequest_shift_sized hc ov hs, evalRequest_shift_sized hc ov (hs.width _), ht, ht']
      rw [AllAt, operandWidths_shift _ _ _ hc, ht] at hs
      have hwu : ∀ {a b u}, evalRequest st l (.context (selfWidth T l)
          (some (ov.getD (exprSigned T l)))) = some a →
          evalBinaryResult op (exprSigned T l && exprSigned T r) (ov.getD (exprSigned T l)) a b = some u →
          u.width = selfWidth T l := fun ha hu => by
        rw [evalBinaryResult_width_of_shift hc hu, evalRequest_width_of_le ha hs.2.1 le_rfl]
      constructor
      · simp only [Option.map_eq_bind, Option.bind_assoc]
        refine Option.bind_congr fun a ha => Option.bind_congr fun b hb =>
          Option.bind_congr fun u hu => ?_
        rw [fit_of_le h0 (by rw [hwu ha hu]; exact hw.le), fit_of_width (hwu ha hu)]
        rfl
      · intro hcut v hv
        simp only [Option.bind_eq_some_iff] at hv
        obtain ⟨a, ha, b, hb, u, hu, hv⟩ := hv
        rw [fit_of_width (hwu ha hu)] at hv
        cases hv
        rw [Expr.cutsUnknown, Bool.or_eq_false_iff] at hcut
        rw [hcut.1, Bool.false_or] at hc
        exact evalBinaryResult_uniform (Or.inr (beq_iff_eq.mp hc)) hu
    · exact Or.inr (evalRequest_narrow_of_operands (Or.inl hc) h0 hw hs ov)
    · exact Or.inr (evalRequest_narrow_of_operands (Or.inr hc) h0 hw hs ov)
  | ternary c t f ihc iht ihf =>
    refine Or.inl (hkeeps hw (hlegal hl) ?_)
    rw [selfWidth] at hw
    rw [evalRequest, evalRequest, Request.width_context, Request.width_context, selfWidth,
      Nat.max_self, Nat.max_eq_right hw.le]
    rfl
  | _ =>
    exact Or.inl (hkeeps hw (hlegal hl)
      (evalRequest_narrow_of_selfDetermined rfl hw.le ((hlegal hl).width 0) rfl ov))

theorem fitOperand_resize {e : Expr} {ov : Option Bool} {w : Nat} {v : Value} (h0 : 0 < w)
    (hw : w ≤ v.width) : (fitOperand T e ov w v).map (·.resize w) = some (v.resize w) := by
  rw [fitOperand]
  split
  · rw [extendTo_map_resize _ _ h0 (le_max_left _ _), extendTo_of_le hw]
  · rfl

/-- Truncated to the width asked for, the value is that of the expression at its own width. -/
theorem evalRequest_truncate {e : Expr} {w : Nat} (h0 : 0 < w) (hw : w < selfWidth T e)
    (hl : AllAt T (fun e w => legal T e = true ∧ exactFill e = true ∧ negatesCut T e w = false) e w)
    (ov : Option Bool) :
    (evalRequest st e (.context w ov)).map (·.resize w)
      = (evalRequest st e (.context (selfWidth T e) ov)).map (·.resize w) := by
  rcases evalRequest_narrow h0 hw hl ov with ⟨heq, -⟩ | ⟨heq, -⟩
  · rw [← heq, Option.map_bind, Option.map_eq_bind]
    refine Option.bind_congr fun v hv => ?_
    have hwv := (evalRequest_width hv (hl.imp fun _ _ h => h.1)).1
    exact (fitOperand_resize h0 hwv).symm
  · rw [heq, Option.map_map]
    exact congrArg (Option.map · _) (funext fun v => resize_resize_of_le v le_rfl)

end Veriforge

import Veriforge.Const.Exact

/-! # Folding agrees with evaluating

By induction on a closed expression: wherever its operators see operands that fit, evaluating it leaves the
store alone and returns the encoding of the integer it folds to. -/

namespace Veriforge.Const

open Value Exec Scope

variable {env : String → Option Int} {T : SignalTable} {S : Scope T}

/-- Evaluating `e`, with no width asked for or at least its own, gives the encoding of what it folds to. -/
def Agrees (env : String → Option Int) (S : Scope T) (e : Expr) : Prop :=
  ∀ {n : Nat} {ov : Option Bool} {v : Int} (st : Store T), (n = 0 ∨ S.selfWidth e ≤ n) →
    (ov = some true → S.exprSigned e = true) → evalConst env e = some v → InRange env e →
    Exact env S e (max n (S.selfWidth e)) (ov.getD (S.exprSigned e)) →
    ∃ r, S.eval e (.context n ov) st = (.ok r, st) ∧ Denotes v n (S.selfWidth e) r

theorem value_eq {o : Option Value} {r : Value} (h : o = some r) : (value o : EvalM T Value) = pure r := by
  rw [h]
  rfl

/-- An expression asked for its own width. -/
theorem Agrees.own {e : Expr} (h : Agrees env S e) {v : Int} (st : Store T) (hv : evalConst env e = some v)
    (hr : InRange env e) (hx : Exact env S e (S.selfWidth e) (S.exprSigned e)) :
    ∃ r, S.eval e (.context (S.selfWidth e) none) st = (.ok r, st) ∧ Denotes v (S.selfWidth e) (S.selfWidth e) r :=
  h st (.inr le_rfl) (fun h => nomatch h) hv hr (by rwa [max_self])

/-- An expression asked for no width. -/
theorem Agrees.unsized {e : Expr} (h : Agrees env S e) {v : Int} (st : Store T) (hv : evalConst env e = some v)
    (hr : InRange env e) (hx : Exact env S e (S.selfWidth e) (S.exprSigned e)) :
    ∃ r, S.eval e (.context 0 none) st = (.ok r, st) ∧ Denotes v 0 (S.selfWidth e) r :=
  h st (.inl rfl) (fun h => nomatch h) hv hr (by rwa [Nat.zero_max])

/-- An expression asked for a width of its context. -/
theorem Agrees.context {e : Expr} (h : Agrees env S e) {v : Int} (st : Store T) {n : Nat} {s : Bool}
    (hn : S.selfWidth e ≤ n) (hs : s = true → S.exprSigned e = true) (hv : evalConst env e = some v)
    (hr : InRange env e) (hx : Exact env S e n s) :
    ∃ r, S.eval e (.context n (some s)) st = (.ok r, st) ∧ Denotes v n (S.selfWidth e) r :=
  h st (.inr hn) (fun h => hs (Option.some_inj.mp h)) hv hr (by rwa [Nat.max_eq_left hn])

theorem agrees_literal {l : Literal} (hl : l.Number) : Agrees env S (.literal l) := by
  intro n ov v st _ _ hv _ hx
  have hself : S.selfWidth (.literal l) = l.selfWidth := by rw [Scope.selfWidth]
  have hsigned : S.exprSigned (.literal l) = l.signed := by rw [Scope.exprSigned]
  rw [evalConst] at hv
  rw [Exact, hself, hsigned] at hx
  rw [hself, eval_literal, hl.evalLiteral hv, init_width]
  split
  · next hlt =>
    rw [Nat.max_eq_left hlt.le] at hx
    rw [hl.isUnsizedXz, if_neg Bool.false_ne_true, value_eq (extendTo_ofInt l.selfWidth_pos (hx hlt v hv))]
    exact ⟨_, rfl, .of_width (by omega)⟩
  · exact ⟨_, rfl, .of_width (by omega)⟩

/-! ## One-bit results -/

/-- A 0 or 1 widened without its sign. -/
theorem widen_bit {n : Nat} {v : Int} {ov : Option Bool} (hov : ov ≠ some true) (hv : Fits false 1 v) :
    ∃ r, Veriforge.widen (ov.getD false) (ofInt v 1) n = some r ∧ Denotes v n 1 r := by
  have hs : ov.getD false = false := by
    cases ov with
    | none => rfl
    | some s => exact Bool.eq_false_iff.mpr fun h => hov (by rw [← h]; rfl)
  rw [Veriforge.widen, hs, init_width]
  split
  · exact ⟨_, extendTo_ofInt Nat.one_pos hv, .of_width (by omega)⟩
  · exact ⟨_, rfl, .of_width (by omega)⟩

theorem fit_bit {n : Nat} {v : Int} {ov : Option Bool} (hov : ov ≠ some true) (hv : Fits false 1 v) :
    ∃ r, Veriforge.fit (ov.getD false) (ofInt v 1) n = some r ∧ Denotes v n 1 r := by
  have hs : ov.getD false = false := by
    cases ov with
    | none => rfl
    | some s => exact Bool.eq_false_iff.mpr fun h => hov (by rw [← h]; rfl)
  rw [Veriforge.fit, hs, init_width]
  split
  · exact ⟨_, extendTo_ofInt Nat.one_pos hv, .of_width (by omega)⟩
  · exact ⟨_, rfl, .of_width (by omega)⟩

theorem fits_ofProp (c : Prop) [Decidable c] : Fits false 1 (ofProp c) := by
  by_cases h : c <;> simp [ofProp, h, Fits]

theorem fits_reduction {op : UnaryOp} {a v : Int} (hc : op.contextDetermined = false)
    (hv : constUnary op a = some v) : Fits false 1 v := by
  cases op
  case logNot | redOr | redNor =>
    cases hv
    exact fits_ofProp _
  case redXor =>
    rw [constUnary] at hv
    split at hv
    · cases hv
      rw [fits_false, parity]
      omega
    · cases hv
  case redAnd | redNand | redXnor | redXnor' => cases hv
  all_goals cases hc

theorem fits_comparison {op : BinaryOp} {a b v : Int} (hc : op.isComparison = true)
    (hv : constBinary op a b = some v) : Fits false 1 v := by
  cases op
  case eq | ne | caseEq | caseNe | lt | le | gt | ge =>
    cases hv
    exact fits_ofProp _
  all_goals cases hc

theorem fits_logical {op : BinaryOp} {a b v : Int} (hc : op.isLogical = true)
    (hv : constBinary op a b = some v) : Fits false 1 v := by
  cases op
  case logAnd | logOr =>
    cases hv
    exact fits_ofProp _
  all_goals cases hc

/-! ## Unary operators -/

theorem OperandFits.of_denotes {op : UnaryOp} {a : Int} {self : Nat} {r : Value} (hfit : OperandFits op self a)
    (h : Denotes a self self r) (hr : Fits true 32 a) : OperandFits op r.width a := by
  cases op
  case plus | minus | bitNot => trivial
  case redXor => exact h.fits hr le_rfl hfit
  all_goals exact h.abs_lt hr le_rfl hfit

/-- The value of an expression is that of its operands. -/
theorem evalConst_unary {op : UnaryOp} {e : Expr} {v : Int} (hv : evalConst env (.unary op e) = some v) :
    ∃ a, evalConst env e = some a ∧ constUnary op a = some v := by
  rw [evalConst] at hv
  simpa only [Option.bind_eq_bind, Option.bind_eq_some_iff] using hv

theorem agrees_context {op : UnaryOp} (hc : op.contextDetermined = true) {e : Expr} (ih : Agrees env S e) :
    Agrees env S (.unary op e) := by
  intro n ov v st hn hov hv hr hx
  have hself : S.selfWidth (.unary op e) = S.selfWidth e := by rw [Scope.selfWidth, hc, if_pos rfl]
  have hsigned : S.exprSigned (.unary op e) = S.exprSigned e := by rw [Scope.exprSigned, hc, Bool.true_and]
  obtain ⟨a, ha, hv⟩ := evalConst_unary hv
  rw [InRange] at hr
  rw [hself, hsigned, Exact, hc, if_pos rfl] at hx
  rw [hself] at hn ⊢
  rw [hsigned] at hov
  obtain ⟨r, heval, hden⟩ := ih st hn hov ha hr.1 hx
  -- the operand on the width of the context, or as it is when no width is asked for
  obtain ⟨w, hfit, hw⟩ : ∃ w, S.fitOperand e ov n r = some (ofInt a w) ∧
      (w = max n (S.selfWidth e) ∨ w = 32 ∧ 32 < max n (S.selfWidth e) ∧ n = 0) := by
    rw [Scope.fitOperand]
    split
    · next hne =>
      have hle := hn.resolve_left hne.1
      rw [Nat.max_eq_left hle]
      exact ⟨n, hden.extendTo (hr.1.fits ha) (Nat.pos_of_ne_zero hne.1) hle _ hne.2, .inl rfl⟩
    · next hno =>
      refine ⟨r.width, by rw [← hden.1], hden.2.imp_right ?_⟩
      rintro ⟨hw, hbig, -⟩
      exact ⟨hw, hbig, by by_contra h0; omega⟩
  refine ⟨ofInt v w, ?_, rfl, hw.imp_right fun h => ⟨h.1, h.2.1, .inl h.2.2⟩⟩
  rw [Scope.eval, hc, if_pos rfl, requestWidth, Request.signedOverride_context, bind_of_ok heval, value_eq hfit, pure_then,
    evalUnaryOp_context hc hv]
  rfl

theorem agrees_reduction {op : UnaryOp} (hc : op.contextDetermined = false) {e : Expr} (ih : Agrees env S e) :
    Agrees env S (.unary op e) := by
  intro n ov v st hn hov hv hr hx
  have hself : S.selfWidth (.unary op e) = 1 := by rw [Scope.selfWidth, hc, if_neg Bool.false_ne_true]
  obtain ⟨a, ha, hv⟩ := evalConst_unary hv
  rw [InRange] at hr
  rw [Exact, hc, if_neg Bool.false_ne_true] at hx
  rw [Scope.exprSigned, hc, Bool.false_and] at hov
  obtain ⟨r, heval, hden⟩ := ih.own st ha hr.1 hx.1
  have hfit := (hx.2 a ha).of_denotes hden (hr.1.fits ha)
  obtain ⟨r', hr', hden'⟩ := widen_bit (n := n) (fun h => Bool.false_ne_true (hov h)) (fits_reduction hc hv)
  refine ⟨r', ?_, by rwa [hself]⟩
  rw [Scope.eval, hc, if_neg Bool.false_ne_true, bind_of_ok heval, hden.1, evalUnaryOp_reduction hc hfit hv, requestWidth,
    Request.signedOverride_context, value_eq hr']
  rfl

/-! ## Binary operators -/

theorem evalConst_binary {op : BinaryOp} {l r : Expr} {v : Int} (hv : evalConst env (.binary op l r) = some v) :
    ∃ a b, evalConst env l = some a ∧ evalConst env r = some b ∧ constBinary op a b = some v := by
  rw [evalConst] at hv
  simp only [Option.bind_eq_bind, Option.bind_eq_some_iff] at hv
  obtain ⟨a, ha, b, hb, hv⟩ := hv
  exact ⟨a, b, ha, hb, hv⟩

theorem Exact.logical {op : BinaryOp} (hc : op.isLogical = true) {l r : Expr} {n : Nat} {s : Bool}
    (h : Exact env S (.binary op l r) n s) :
    Exact env S l (S.selfWidth l) (S.exprSigned l) ∧ ∀ a ∈ evalConst env l, |a| < 2 ^ S.selfWidth l ∧
        (¬ Decides op a → Exact env S r (S.selfWidth r) (S.exprSigned r) ∧
          ∀ b ∈ evalConst env r, |b| < 2 ^ S.selfWidth r) := by
  rwa [Exact, hc, if_pos rfl] at h

theorem exprSigned_bit {op : BinaryOp} (hc : op.isLogical = true ∨ op.isComparison = true) (l r : Expr) :
    S.exprSigned (.binary op l r) = false := by
  rw [Scope.exprSigned]
  rcases hc with hc | hc <;> cases op <;> first | rfl | cases hc

/-- The right operand is evaluated when the left one does not decide. -/
theorem shortCircuit_ofInt {op : BinaryOp} (hc : op.isLogical = true) {a : Int} {w : Nat} (ha : |a| < 2 ^ w)
    (right : EvalM T Value) :
    Scope.shortCircuit op (ofInt a w) right = if Decides op a then pure (ofInt 0 1) else right := by
  cases op
  case logAnd =>
    have hval := ofInt_val_eq_zero_iff ha
    show (if ((ofInt a w).val ||| (ofInt a w).mask != 0) = true then right else pure (ofInt 0 1)) = _
    rw [ofInt_mask, Nat.or_zero]
    by_cases h0 : a = 0
    · rw [if_pos (show Decides .logAnd a from h0), if_neg (by simp [hval.mpr h0])]
    · rw [if_neg (show ¬ Decides .logAnd a from h0), if_pos (by simp [hval.not.mpr h0])]
  case logOr =>
    show (if (!(ofInt a w).knownOne) = true then right else pure (ofInt 0 1)) = _
    rw [knownOne_ofInt ha]
    by_cases h0 : a = 0
    · rw [if_neg (show ¬ Decides .logOr a from not_not.mpr h0), if_pos (by simp [h0])]
    · rw [if_pos (show Decides .logOr a from h0), if_neg (by simp [h0])]
  all_goals cases hc

theorem agrees_logical {op : BinaryOp} (hc : op.isLogical = true) {l r : Expr} (ihl : Agrees env S l)
    (ihr : Agrees env S r) : Agrees env S (.binary op l r) := by
  intro n ov v st hn hov hv hr hx
  have hself : S.selfWidth (.binary op l r) = 1 := by rw [Scope.selfWidth_binary, resultWidth_logical _ _ hc]
  obtain ⟨a, b, ha, hb, hv⟩ := evalConst_binary hv
  rw [InRange] at hr
  rw [exprSigned_bit (.inl hc)] at hov
  obtain ⟨hxl, hxr⟩ := hx.logical hc
  obtain ⟨ha0, hxr⟩ := hxr a ha
  obtain ⟨x, hevall, hdenl⟩ := ihl.unsized st ha hr.1 hxl
  have hxa := hdenl.abs_lt (hr.1.fits ha) (Nat.zero_le _) ha0
  obtain ⟨res, hres, hden⟩ := fit_bit (n := n) (fun h => Bool.false_ne_true (hov h)) (fits_logical hc hv)
  refine ⟨res, ?_, by rwa [hself]⟩
  rw [eval_logical hc, bind_of_ok hevall, hdenl.1, shortCircuit_ofInt hc hxa]
  by_cases hd : Decides op a
  · rw [if_pos hd, pure_then, value_eq (evalBinaryOp_decided hc hd hxa hv _), pure_then, requestWidth,
      Request.signedOverride_context, value_eq hres]
    rfl
  · obtain ⟨hxr, hb0⟩ := hxr hd
    obtain ⟨y, hevalr, hdenr⟩ := ihr.unsized st hb hr.2.1 hxr
    have hyb := hdenr.abs_lt (hr.2.1.fits hb) (Nat.zero_le _) (hb0 b hb)
    rw [if_neg hd, bind_of_ok hevalr, hdenr.1, value_eq (evalBinaryOp_undecided hc hxa hyb hv), pure_then,
      requestWidth, Request.signedOverride_context, value_eq hres]
    rfl

theorem Exact.comparison {op : BinaryOp} (hc : op.isComparison = true) {l r : Expr} {n : Nat} {s : Bool}
    (h : Exact env S (.binary op l r) n s) :
    Exact env S l (max (S.selfWidth l) (S.selfWidth r)) (S.exprSigned l && S.exprSigned r) ∧
      Exact env S r (max (S.selfWidth l) (S.selfWidth r)) (S.exprSigned l && S.exprSigned r) ∧
      ∀ a ∈ evalConst env l, ∀ b ∈ evalConst env r, OperandsFit op (S.exprSigned l && S.exprSigned r) s
        (max (S.selfWidth l) (S.selfWidth r)) (max (S.selfWidth l) (S.selfWidth r)) a b := by
  have hl : op.isLogical = false := by cases op <;> first | rfl | cases hc
  rwa [Exact, hl, if_neg Bool.false_ne_true, hc, if_pos rfl] at h

theorem agrees_comparison {op : BinaryOp} (hc : op.isComparison = true) {l r : Expr} (hl : Closed l)
    (ihl : Agrees env S l) (ihr : Agrees env S r) : Agrees env S (.binary op l r) := by
  intro n ov v st _ hov hv hr hx
  have hself : S.selfWidth (.binary op l r) = 1 := by rw [Scope.selfWidth_binary, resultWidth_comparison _ _ hc]
  obtain ⟨a, b, ha, hb, hv⟩ := evalConst_binary hv
  rw [InRange] at hr
  rw [exprSigned_bit (.inr hc)] at hov
  obtain ⟨hxl, hxr, hfit⟩ := hx.comparison hc
  have hpos : 0 < max (S.selfWidth l) (S.selfWidth r) := lt_of_lt_of_le (selfWidth_pos hl) (le_max_left _ _)
  obtain ⟨x, hevall, hdenl⟩ := ihl.context st (le_max_left _ _) (fun h => (Bool.and_eq_true _ _ ▸ h).1) ha hr.1 hxl
  obtain ⟨y, hevalr, hdenr⟩ := ihr.context st (le_max_right _ _) (fun h => (Bool.and_eq_true _ _ ▸ h).2) hb hr.2.1 hxr
  have hx' := hdenl.widen (hr.1.fits ha) hpos (le_max_left _ _) (S.exprSigned l && S.exprSigned r)
  have hy' := hdenr.widen (hr.2.1.fits hb) hpos (le_max_right _ _) (S.exprSigned l && S.exprSigned r)
  obtain ⟨res, hres, hden⟩ := fit_bit (n := n) (fun h => Bool.false_ne_true (hov h)) (fits_comparison hc hv)
  refine ⟨res, ?_, by rwa [hself]⟩
  rw [eval_comparison hc]
  dsimp only
  rw [bind_of_ok hevall, bind_of_ok hevalr, value_eq hx', pure_then, value_eq hy', pure_then,
    value_eq (evalBinaryResult_comparison hc hpos (hfit a ha b hb) hv), pure_then, requestWidth,
    Request.signedOverride_context, value_eq hres]
  rfl

theorem Exact.shift {op : BinaryOp} (hc : (op.isShift || op == .pow) = true) {l r : Expr} {n : Nat} {s : Bool}
    (h : Exact env S (.binary op l r) n s) :
    Exact env S l n s ∧ Exact env S r (S.selfWidth r) (S.exprSigned r) ∧ ∀ a ∈ evalConst env l, ∀ b ∈ evalConst env r,
        OperandsFit op (S.exprSigned l && S.exprSigned r) s n (S.selfWidth r) a b := by
  have hl : op.isLogical = false := by cases op <;> first | rfl | cases hc
  have hcmp : op.isComparison = false := by cases op <;> first | rfl | cases hc
  rwa [Exact, hl, if_neg Bool.false_ne_true, hcmp, if_neg Bool.false_ne_true, hc, if_pos rfl] at h

theorem exprSigned_shift {op : BinaryOp} (hc : (op.isShift || op == .pow) = true) (l r : Expr) :
    S.exprSigned (.binary op l r) = S.exprSigned l := by
  rw [Scope.exprSigned, hc, if_pos rfl]

/-- A result on the width of the context is left as it is. -/
theorem fit_context {n self : Nat} (hn : n = 0 ∨ self ≤ n) (s : Bool) (v : Int) :
    Veriforge.fit s (ofInt v (max n self)) n = some (ofInt v (max n self)) := by
  rw [Veriforge.fit, init_width, if_neg]
  omega

theorem agrees_shift {op : BinaryOp} (hc : (op.isShift || op == .pow) = true) {l r : Expr} (hl : Closed l)
    (hr : Closed r) (ihl : Agrees env S l) (ihr : Agrees env S r) : Agrees env S (.binary op l r) := by
  intro n ov v st hn hov hv hrange hx
  have hself : S.selfWidth (.binary op l r) = S.selfWidth l := by
    rw [Scope.selfWidth_binary, resultWidth_shift _ _ hc]
  obtain ⟨a, b, ha, hb, hv⟩ := evalConst_binary hv
  rw [InRange] at hrange
  obtain ⟨hrl, hrr, hrange⟩ := hrange
  have hexact := exactBinary_eq hv (hrange a ha b hb)
  rw [hself] at hn hx ⊢
  rw [exprSigned_shift hc] at hov hx
  obtain ⟨hxl, hxr, hfit⟩ := hx.shift hc
  have hfit := hfit a ha b hb
  have hpos : 0 < max n (S.selfWidth l) := lt_of_lt_of_le (selfWidth_pos hl) (le_max_right _ _)
  have hsigned : ov.getD (S.exprSigned l) = true → S.exprSigned l = true := by
    cases ov with
    | none => exact id
    | some s => exact fun h => hov (by rw [← h]; rfl)
  obtain ⟨x, hevall, hdenl⟩ := ihl.context st (le_max_right n _) hsigned ha hrl hxl
  have hx' := hdenl.widen (hrl.fits ha) hpos (le_max_right _ _) (ov.getD (S.exprSigned l))
  -- the right operand, on its own width or on the 32 bits of a `$clog2`
  obtain ⟨y, hevalr, hy, hypos, hfit'⟩ : ∃ y,
      S.eval r (.context (if op == .pow then S.selfWidth r else 0) none) st = (.ok y, st) ∧
        y = ofInt b y.width ∧ 0 < y.width ∧ OperandsFit op (S.exprSigned l && S.exprSigned r)
          (ov.getD (S.exprSigned l)) (max n (S.selfWidth l)) y.width a b := by
    by_cases hpow : op = .pow
    · subst hpow
      obtain ⟨y, hevalr, hdenr⟩ := ihr.own st hb hrr hxr
      exact ⟨y, hevalr, hdenr.1, hdenr.width_pos (selfWidth_pos hr),
        hdenr.fits_own (hrr.fits hb) (selfWidth_pos hr) hfit.1, hfit.2⟩
    · obtain ⟨y, hevalr, hdenr⟩ := ihr.unsized st hb hrr hxr
      rw [if_neg (by simpa using hpow)]
      refine ⟨y, hevalr, hdenr.1, hdenr.width_pos (selfWidth_pos hr), ?_⟩
      have hy : Fits false (S.selfWidth r) b → Fits false y.width b := hdenr.fits (hrr.fits hb) (Nat.zero_le _)
      cases op
      case shl | ashl => exact hy hfit
      case shr | ashr => exact ⟨hfit.1, hy hfit.2⟩
      case pow => exact absurd rfl hpow
      all_goals cases hc
  refine ⟨ofInt v (max n (S.selfWidth l)), ?_, .of_width rfl⟩
  rw [eval_shift hc]
  dsimp only
  rw [Scope.shiftTarget_eq, requestWidth, Request.signedOverride_context, bind_of_ok hevall, value_eq hx', pure_then,
    bind_of_ok hevalr, hy, value_eq (evalBinaryResult_shift hc hpos hypos hfit' hexact), pure_then,
    value_eq (fit_context hn _ v)]
  rfl

theorem Exact.operands {op : BinaryOp} (hc : op.isBitwise = true ∨ op.isArithmetic = true) {l r : Expr} {n : Nat}
    {s : Bool} (h : Exact env S (.binary op l r) n s) :
    Exact env S l n s ∧ Exact env S r n s ∧
      ∀ a ∈ evalConst env l, ∀ b ∈ evalConst env r, OperandsFit op (S.exprSigned l && S.exprSigned r) s n n a b := by
  have hl : op.isLogical = false := by rcases hc with hc | hc <;> cases op <;> first | rfl | cases hc
  have hcmp : op.isComparison = false := by rcases hc with hc | hc <;> cases op <;> first | rfl | cases hc
  have hs : (op.isShift || op == .pow) = false := by rcases hc with hc | hc <;> cases op <;> first | rfl | cases hc
  rwa [Exact, hl, if_neg Bool.false_ne_true, hcmp, if_neg Bool.false_ne_true, hs, if_neg Bool.false_ne_true] at h

theorem exprSigned_operands {op : BinaryOp} (hc : op.isBitwise = true ∨ op.isArithmetic = true) (l r : Expr) :
    S.exprSigned (.binary op l r) = (S.exprSigned l && S.exprSigned r) := by
  rw [Scope.exprSigned]
  rcases hc with hc | hc <;> cases op <;> first | rfl | cases hc

theorem agrees_operands {op : BinaryOp} (hc : op.isBitwise = true ∨ op.isArithmetic = true) {l r : Expr}
    (hl : Closed l) (ihl : Agrees env S l) (ihr : Agrees env S r) : Agrees env S (.binary op l r) := by
  intro n ov v st hn hov hv hr hx
  have hself : S.selfWidth (.binary op l r) = max (S.selfWidth l) (S.selfWidth r) := by
    rw [Scope.selfWidth_binary]
    rcases hc with hc | hc
    · rw [resultWidth_bitwise _ _ hc]
    · rw [resultWidth_arithmetic _ _ hc]
  obtain ⟨a, b, ha, hb, hv⟩ := evalConst_binary hv
  rw [InRange] at hr
  rw [hself] at hn hx ⊢
  rw [exprSigned_operands hc] at hov hx
  obtain ⟨hxl, hxr, hfit⟩ := hx.operands hc
  have htarget : max n (max (S.selfWidth l) (S.selfWidth r)) = S.operandTarget l r n := rfl
  rw [htarget] at hxl hxr hfit
  have hlel : S.selfWidth l ≤ S.operandTarget l r n := (le_max_left _ _).trans (le_max_right _ _)
  have hler : S.selfWidth r ≤ S.operandTarget l r n := (le_max_right _ _).trans (le_max_right _ _)
  have hpos : 0 < S.operandTarget l r n := lt_of_lt_of_le (selfWidth_pos hl) hlel
  have hsigned : ov.getD (S.exprSigned l && S.exprSigned r) = true → (S.exprSigned l && S.exprSigned r) = true := by
    cases ov with
    | none => exact id
    | some s => exact fun h => hov (by rw [← h]; rfl)
  obtain ⟨x, hevall, hdenl⟩ := ihl.context st hlel (fun h => (Bool.and_eq_true _ _ ▸ hsigned h).1) ha hr.1 hxl
  obtain ⟨y, hevalr, hdenr⟩ := ihr.context st hler (fun h => (Bool.and_eq_true _ _ ▸ hsigned h).2) hb hr.2.1 hxr
  refine ⟨ofInt v (S.operandTarget l r n), ?_, .of_width htarget.symm⟩
  have hfitted (s : Bool) := fit_context hn s v
  rw [htarget] at hfitted
  rcases hc with hc | hc
  · rw [eval_bitwise hc]
    dsimp only
    rw [requestWidth, Request.signedOverride_context, bind_of_ok hevall, bind_of_ok hevalr,
      value_eq (hdenl.align (hr.1.fits ha) hpos hlel _), pure_then,
      value_eq (hdenr.align (hr.2.1.fits hb) hpos hler _), pure_then, value_eq (evalBinaryOp_bitwise hc hv), pure_then,
      value_eq (hfitted _)]
    rfl
  · rw [eval_arithmetic hc]
    dsimp only
    rw [requestWidth, Request.signedOverride_context, bind_of_ok hevall, bind_of_ok hevalr,
      value_eq (hdenl.widen (hr.1.fits ha) hpos hlel _), pure_then,
      value_eq (hdenr.widen (hr.2.1.fits hb) hpos hler _), pure_then,
      value_eq (evalBinaryResult_arithmetic hc hpos (hr.1.fits ha) (hfit a ha b hb) hv), pure_then,
      value_eq (hfitted _)]
    rfl

/-! ## Conditionals -/

/-- The branch taken is evaluated on the width and with the signedness of the whole. -/
theorem Agrees.branch {e : Expr} (h : Agrees env S e) {v : Int} (st : Store T) {n self : Nat} {s : Bool}
    (hpos : 0 < max n self) (hself : S.selfWidth e ≤ self) (hs : s = true → S.exprSigned e = true)
    (hv : evalConst env e = some v) (hr : InRange env e) (hx : Exact env S e (max n self) s) :
    ∃ r, S.eval e (.context (max n self) (some s)) st = (.ok r, st) ∧ Denotes v n self r := by
  obtain ⟨r, heval, heq, hw⟩ := h.context st (hself.trans (le_max_right n self)) hs hv hr hx
  refine ⟨r, heval, heq, ?_⟩
  rw [Nat.max_eq_left (hself.trans (le_max_right n self))] at hw
  exact hw.imp_right fun h => ⟨h.1, h.2.1, .inr (h.2.2.resolve_left hpos.ne')⟩

theorem agrees_ternary {c t f : Expr} (ht : Closed t) (ihc : Agrees env S c) (iht : Agrees env S t)
    (ihf : Agrees env S f) : Agrees env S (.ternary c t f) := by
  intro n ov v st hn hov hv hr hx
  have hself : S.selfWidth (.ternary c t f) = max (S.selfWidth t) (S.selfWidth f) := by rw [Scope.selfWidth]
  have hsigned : S.exprSigned (.ternary c t f) = (S.exprSigned t && S.exprSigned f) := by rw [Scope.exprSigned]
  rw [evalConst] at hv
  simp only [Option.bind_eq_bind, Option.bind_eq_some_iff] at hv
  obtain ⟨x, hcond, hv⟩ := hv
  rw [InRange] at hr
  rw [Exact] at hx
  obtain ⟨hxc, hx⟩ := hx
  obtain ⟨hx0, hx⟩ := hx x hcond
  obtain ⟨y, hevalc, hdenc⟩ := ihc.own st hcond hr.1 hxc
  have htruth := reduceOr_ofInt (hdenc.abs_lt (hr.1.fits hcond) le_rfl hx0)
  rw [← hdenc.1] at htruth
  have hd : y.reduceOr.isDefined = true := by rw [htruth, isDefined_iff, ofBool_mask]
  have hs : ov.getD (S.exprSigned (.ternary c t f)) = true → S.exprSigned t = true ∧ S.exprSigned f = true := by
    rw [← Bool.and_eq_true, ← hsigned]
    cases ov with
    | none => exact id
    | some s => exact fun h => hov (by rw [← h]; rfl)
  rw [eval_ternary_taken hevalc hd, htruth, ofBool_val, requestWidth, Request.signedOverride_context]
  rw [hself] at hx ⊢
  have hpos : 0 < max n (max (S.selfWidth t) (S.selfWidth f)) :=
    lt_of_lt_of_le (selfWidth_pos ht) ((le_max_left _ _).trans (le_max_right _ _))
  by_cases h0 : x ≠ 0
  · rw [if_pos h0] at hv hx
    rw [if_pos (by simp [h0])]
    exact iht.branch st hpos (le_max_left _ _) (fun h => (hs h).1) hv hr.2.1 hx
  · rw [if_neg h0] at hv hx
    rw [if_neg (by simp [h0])]
    exact ihf.branch st hpos (le_max_right _ _) (fun h => (hs h).2) hv hr.2.2 hx

/-! ## Concatenations -/

theorem closed_of_mem {es : List Expr} {e : Expr} (h : AllClosed es) (he : e ∈ es) : Closed e :=
  allClosed_iff.mp h e he

theorem constPartWidths_eq {ps : List Expr} (ih : ∀ p ∈ ps, ∀ w, constPartWidth p = some w → w = S.selfWidth p)
    {w : Nat} (hw : constPartWidths ps = some w) : w = S.selfWidthSum ps := by
  induction ps generalizing w with
  | nil =>
    cases hw
    rw [Scope.selfWidthSum]
  | cons p ps ihps =>
    rw [constPartWidths] at hw
    simp only [Option.bind_eq_bind, Option.bind_eq_some_iff] at hw
    obtain ⟨w₁, h₁, w₂, h₂, hw⟩ := hw
    cases hw
    rw [Scope.selfWidthSum, ih p List.mem_cons_self w₁ h₁, ihps (fun q hq => ih q (List.mem_cons_of_mem _ hq)) h₂]

/-- The width the folder knows a part by is the one the evaluator counts it with. -/
theorem constPartWidth_eq {e : Expr} (h : Closed e) {w : Nat} (hw : constPartWidth e = some w) :
    w = S.selfWidth e := by
  induction e generalizing w with
  | literal l =>
    rw [Closed] at h
    rw [constPartWidth] at hw
    rw [Scope.selfWidth, h.selfWidth_eq hw]
  | concat b ps ih =>
    rw [Closed] at h
    rw [constPartWidth] at hw
    rw [Scope.selfWidth]
    exact constPartWidths_eq (fun p hp w hw => ih p hp (closed_of_mem h.2 hp) hw) hw
  | _ => cases hw

/-- A part whose width the folder knows evaluates on exactly that width. -/
theorem width_of_constPartWidth {e : Expr} (h : Closed e) {w : Nat} (hw : constPartWidth e = some w) {st st' : Store T}
    {r : Value} (heval : S.eval e (.context (S.selfWidth e) none) st = (.ok r, st')) : r.width = S.selfWidth e := by
  refine (width_eq_iff (wellFormed_of_closed h) le_rfl heval).mpr ?_
  rintro ⟨u, -, hb⟩
  cases hb <;> cases hw

theorem evalParts_agrees {ps : List Expr} (hclosed : AllClosed ps) (ih : ∀ p ∈ ps, Agrees env S p) {acc : Nat}
    {v : Int} (st : Store T) (hv : evalConstParts env ps acc = some v) (hr : AllInRange env ps)
    (hx : AllExact env S ps) :
    ∃ vs, S.evalParts ps st = (.ok vs, st) ∧ ∀ w, acc < 2 ^ w →
      vs.foldl Value.concat (ofInt acc w) = ofInt v (w + S.selfWidthSum ps) ∧ Fits false (w + S.selfWidthSum ps) v := by
  induction ps generalizing acc with
  | nil =>
    cases hv
    refine ⟨[], rfl, fun w hacc => ?_⟩
    rw [Scope.selfWidthSum, Nat.add_zero, fits_false]
    exact ⟨rfl, Int.natCast_nonneg acc, by exact_mod_cast hacc⟩
  | cons p ps ihps =>
    rw [AllClosed] at hclosed
    rw [AllInRange] at hr
    rw [AllExact] at hx
    rw [evalConstParts] at hv
    simp only [Option.bind_eq_bind, Option.bind_eq_some_iff] at hv
    obtain ⟨a, ha, w₁, hw₁, hv⟩ := hv
    have hp : Agrees env S p := ih p List.mem_cons_self
    obtain ⟨r, heval, hden⟩ := hp.own st ha hr.1 hx.1
    have hwidth := width_of_constPartWidth hclosed.1 hw₁ heval
    have hr' := hden.eq_of_width hwidth
    obtain rfl := constPartWidth_eq (S := S) hclosed.1 hw₁
    obtain ⟨vs, hvs, hfold⟩ := ihps hclosed.2 (fun q hq => ih q (List.mem_cons_of_mem _ hq)) hv hr.2 hx.2
    refine ⟨r :: vs, ?_, fun w hacc => ?_⟩
    · rw [Scope.evalParts, bind_of_ok heval, bind_of_ok hvs]
      rfl
    · rw [Scope.selfWidthSum, ← Nat.add_assoc, List.foldl_cons, hr', concat_ofInt hacc]
      have hpart : (a % 2 ^ S.selfWidth p).toNat < 2 ^ S.selfWidth p := by
        have := (ofInt a (S.selfWidth p)).val_lt
        rwa [ofInt_val] at this
      refine hfold _ (Nat.or_lt_two_pow (Nat.shiftLeft_lt hacc) (lt_of_lt_of_le hpart ?_))
      exact Nat.pow_le_pow_right (by decide) (Nat.le_add_left _ _)

theorem getD_false {ov : Option Bool} (h : ov ≠ some true) : ov.getD false = false := by
  cases ov with
  | none => rfl
  | some s => exact Bool.eq_false_iff.mpr fun hs => h (by rw [← hs]; rfl)

theorem agrees_concat (b : Bool) {ps : List Expr} (hclosed : Closed (.concat b ps))
    (ih : ∀ p ∈ ps, Agrees env S p) : Agrees env S (.concat b ps) := by
  intro n ov v st hn hov hv hr hx
  have hself : S.selfWidth (.concat b ps) = S.selfWidthSum ps := by rw [Scope.selfWidth]
  have hov' : ov ≠ some true := fun h => by
    have := hov h
    rw [Scope.exprSigned] at this
    cases this
  rw [Closed] at hclosed
  rw [InRange] at hr
  have hv32 := hr.2 v hv
  rw [Exact, hself] at hx
  rw [evalConst] at hv
  rw [hself] at hn ⊢
  have hempty : ps.isEmpty = false := List.isEmpty_eq_false_iff.mpr hclosed.1
  have hpos : 0 < S.selfWidthSum ps := by
    rw [← hself]
    exact selfWidth_pos (show Closed (.concat b ps) by rwa [Closed])
  -- the parts on their widths, or on the 32 bits of a single `$clog2`
  obtain ⟨vs, hvs, hden, hext⟩ : ∃ vs, S.evalParts ps st = (.ok vs, st) ∧
      Denotes v (S.selfWidthSum ps) (S.selfWidthSum ps) (concatValues vs) ∧
      (S.selfWidthSum ps < n → Fits false (S.selfWidthSum ps) v) := by
    by_cases hlen : ps.length = 1
    · obtain ⟨p, rfl⟩ := List.length_eq_one_iff.mp hlen
      have hp : Agrees env S p := ih p List.mem_cons_self
      rw [if_pos hlen] at hv
      rw [AllInRange] at hr
      rw [AllExact] at hx
      have hsum : S.selfWidthSum [p] = S.selfWidth p := by
        rw [Scope.selfWidthSum, Scope.selfWidthSum, Nat.add_zero]
      obtain ⟨r, heval, hden⟩ := hp.own st hv hr.1.1 hx.1.1
      refine ⟨[r], ?_, by rwa [hsum], fun hlt => hx.2 hlen (by omega) v hv⟩
      rw [Scope.evalParts, bind_of_ok heval]
      rfl
    · rw [if_neg hlen] at hv
      obtain ⟨vs, hvs, hfold⟩ := evalParts_agrees hclosed.2 ih st hv hr.1 hx.1
      obtain ⟨hfold, hfit⟩ := hfold 0 Nat.one_pos
      rw [Nat.zero_add] at hfold hfit
      have hconcat : concatValues vs = ofInt v (S.selfWidthSum ps) := by
        cases vs with
        | nil =>
          have hlen0 := length_evalParts hvs
          rw [List.length_nil, eq_comm, List.length_eq_zero_iff] at hlen0
          exact absurd hlen0 hclosed.1
        | cons u us => rwa [List.foldl_cons, Nat.cast_zero, zero_concat] at hfold
      refine ⟨vs, hvs, ?_, fun _ => hfit⟩
      rw [hconcat]
      exact .of_width (max_self _).symm
  obtain ⟨r, hr', hden'⟩ : ∃ r, Veriforge.widen false (concatValues vs) n = some r ∧
      Denotes v n (S.selfWidthSum ps) r := by
    rw [Veriforge.widen]
    split
    · next hlt =>
      have hfit : Fits false (concatValues vs).width v := by
        obtain ⟨-, hw | ⟨hw, -, h0⟩⟩ := id hden
        · rw [hw, max_self] at hlt ⊢
          exact hext hlt
        · rw [hw]
          exact fits_of_nonneg hv32 (h0.resolve_left hpos.ne')
      refine ⟨ofInt v n, ?_, .of_width (by omega)⟩
      rw [hden.1]
      exact extendTo_ofInt (hden.width_pos hpos) hfit
    · next hle =>
      refine ⟨_, rfl, hden.1, ?_⟩
      obtain ⟨-, hw | ⟨hw, hbig, h0⟩⟩ := id hden
      · exact .inl (by omega)
      · exact .inr ⟨hw, by omega, .inr (h0.resolve_left hpos.ne')⟩
  refine ⟨r, ?_, hden'⟩
  rw [Scope.eval, bind_of_ok hvs, hempty, if_neg Bool.false_ne_true, requestWidth, Request.signedOverride_context,
    getD_false hov', value_eq hr']
  rfl

theorem agrees_clog2 {as : List Expr} (hclosed : Closed (.call "$clog2" as)) (ih : ∀ a ∈ as, Agrees env S a) :
    Agrees env S (.call "$clog2" as) := by
  intro n ov v st hn hov hv hr hx
  have hself : S.selfWidth (.call "$clog2" as) = 32 := by rw [Scope.selfWidth, function_clog2]
  rw [Closed] at hclosed
  obtain ⟨a, rfl⟩ := List.length_eq_one_iff.mp hclosed.2.1
  have ha : Agrees env S a := ih a List.mem_cons_self
  rw [InRange, AllInRange] at hr
  have hv32 := hr.2 v hv
  rw [Exact, AllExact, evalConstHead, Scope.selfWidthSum, Scope.selfWidthSum, Nat.add_zero] at hx
  obtain ⟨u, hu, hclog⟩ : ∃ u, evalConst env a = some u ∧ v = clog2 u.toNat := by
    rw [evalConst, if_neg (by decide), evalConstArgs, evalConstArgs] at hv
    simp only [Option.bind_eq_bind, Option.bind_eq_some_iff] at hv
    obtain ⟨-, ⟨u, hu, -, ⟨⟩, ⟨⟩⟩, hv⟩ := hv
    rw [constFunc, if_pos rfl] at hv
    refine ⟨u, hu, ?_⟩
    cases hv
    rw [clog2]
    by_cases h0 : 0 < u
    · rw [if_pos h0, if_neg (by omega), show (u - 1).toNat = u.toNat - 1 by omega]
    · rw [if_neg h0, if_pos (by omega)]
      rfl
  obtain ⟨r, heval, hden⟩ := ha.unsized st hu hr.1.1 hx.1.1
  have hfit := hden.fits (hr.1.1.fits hu) (Nat.zero_le _) (hx.2 u hu)
  have hval : r.val = u.toNat := by
    have hcast := ofInt_val_of_fits hfit
    rw [← hden.1] at hcast
    omega
  have hd : r.isDefined = true := by rw [hden.1, isDefined_iff, ofInt_mask]
  refine ⟨ofInt v 32, ?_, rfl, ?_⟩
  · rw [Scope.eval, Scope.evalArgs, bind_of_ok (show _ = (Except.ok [r], st) by rw [bind_of_ok heval]; rfl),
      systemFunction_clog2]
    show (Except.ok (evalSystem .clog2 [r]), st) = _
    rw [evalSystem, if_pos hd, hval, hclog]
  · rw [init_width, hself]
    by_cases hle : n ≤ 32
    · exact .inl (by omega)
    · exact .inr ⟨rfl, by omega, .inr (by rw [hclog]; exact Int.natCast_nonneg _)⟩

theorem agrees {e : Expr} (h : Closed e) : Agrees env S e := by
  induction e with
  | literal l =>
    rw [Closed] at h
    exact agrees_literal h
  | unary op e ih =>
    rw [Closed] at h
    cases hc : op.contextDetermined with
    | true => exact agrees_context hc (ih h)
    | false => exact agrees_reduction hc (ih h)
  | binary op l r ihl ihr =>
    rw [Closed] at h
    rcases op.sizing with hc | hc | hc | hc | hc
    · exact agrees_logical hc (ihl h.1) (ihr h.2)
    · exact agrees_comparison hc h.1 (ihl h.1) (ihr h.2)
    · exact agrees_shift hc h.1 h.2 (ihl h.1) (ihr h.2)
    · exact agrees_operands (.inl hc) h.1 (ihl h.1) (ihr h.2)
    · exact agrees_operands (.inr hc) h.1 (ihl h.1) (ihr h.2)
  | ternary c t f ihc iht ihf =>
    rw [Closed] at h
    exact agrees_ternary h.2.1 (ihc h.1) (iht h.2.1) (ihf h.2.2)
  | concat b ps ih =>
    refine agrees_concat b h fun p hp => ih p hp ?_
    rw [Closed] at h
    exact closed_of_mem h.2 hp
  | call f as ih =>
    obtain rfl : f = "$clog2" := by
      rw [Closed] at h
      exact h.1
    refine agrees_clog2 h fun a ha => ih a ha ?_
    rw [Closed] at h
    exact closed_of_mem h.2.2 ha
  | _ => exact absurd h (by simp [Closed])

/-- **Folding agrees with evaluating.** A closed expression that folds to `v`, with every exact value in 32 bits,
evaluates to a defined value with the low 32 bits of `v`, asked for no width or at least its own, provided that its
operators and literals see operands that fit; the value read back is on 32 bits or more, or `v` is one that its
width holds. -/
theorem eval_evalConst (env : String → Option Int) (S : Scope T) (st : Store T) {e : Expr} {n : Nat} {v : Int}
    (hclosed : Closed e) (hv : evalConst env e = some v) (hrange : InRange env e) (hn : n = 0 ∨ S.selfWidth e ≤ n)
    (hexact : Exact env S e (max n (S.selfWidth e)) (S.exprSigned e))
    (hresult : 32 ≤ max n (S.selfWidth e) ∨ Fits false (max n (S.selfWidth e)) v) :
    ∃ r, S.eval e (.context n none) st = (.ok r, st) ∧ r.isDefined = true ∧ (r.val : Int) % 2 ^ 32 = v % 2 ^ 32 := by
  have hov : (none : Option Bool) = some true → S.exprSigned e = true := fun h => nomatch h
  obtain ⟨r, heval, heq, hw⟩ := agrees hclosed st hn hov hv hrange hexact
  refine ⟨r, heval, by rw [heq, isDefined_iff, ofInt_mask], ?_⟩
  have hlow : 32 ≤ r.width ∨ Fits false r.width v := by
    obtain hw | ⟨hw, -⟩ := hw
    · rwa [hw]
    · exact .inl hw.ge
  rw [heq]
  obtain hle | hfit := hlow
  · rw [ofInt_val_cast, Int.emod_emod_of_dvd _ (pow_dvd_pow 2 hle)]
  · rw [ofInt_val_of_fits hfit]

/-! ## Negative operands -/

/-- No parameters. -/
def noParameters : String → Option Int := fun _ => none

/-- No signals. -/
def noSignals : SignalTable := .vectors []

/-- The only store. -/
def noStore : Store noSignals := .ofBits _ (fun _ => 0) fun _ => 0

/-- `-n`. -/
def negated (n : Nat) : Expr := .unary .minus (.literal (.decimal n))

/-- `-7 / 2`. -/
def quotient : Expr := .binary .div (negated 7) (.literal (.decimal 2))

/-- `-1 < 4'hf`. -/
def mixedOrder : Expr := .binary .lt (negated 1) (.literal (.sized (some 4) false .hex [.num (Fin.last 15)]))

/-- `-7 / 2` folds to -3 and evaluates to its 32 bits. -/
theorem eval_evalConst_quotient :
    ∃ r, (Scope.plain noSignals).eval quotient (.context 32 none) noStore = (.ok r, noStore) ∧
      r.isDefined = true ∧ (r.val : Int) % 2 ^ 32 = -3 % 2 ^ 32 := by
  refine eval_evalConst noParameters _ _ ?_ rfl ?_ (.inr (by decide)) ?_ (.inl (by decide))
  · exact ⟨Literal.Number.decimal 7, Literal.Number.decimal 2⟩
  · refine ⟨⟨?_, ?_⟩, ?_, ?_⟩
    · rintro v ⟨⟩
      decide
    · rintro v ⟨⟩
      decide
    · rintro v ⟨⟩
      decide
    · rintro a ⟨⟩ b ⟨⟩ v ⟨⟩
      decide
  · refine ⟨?_, ?_, ?_⟩
    · exact fun hlt => absurd hlt (by decide)
    · exact fun hlt => absurd hlt (by decide)
    · rintro a ⟨⟩ b ⟨⟩
      exact ⟨by decide, by decide⟩

/-- `-1 < 4'hf` folds to 1; evaluated, it compares unsigned and is 0. -/
theorem eval_ne_evalConst :
    ¬ ∀ e v, Closed e → evalConst noParameters e = some v → InRange noParameters e →
      ∃ r, (Scope.plain noSignals).eval e (.context 32 none) noStore = (.ok r, noStore) ∧
        r.isDefined = true ∧ (r.val : Int) % 2 ^ 32 = v % 2 ^ 32 := by
  intro hall
  have hclosed : Closed mixedOrder :=
    ⟨Literal.Number.decimal 1, Literal.Number.sized (by decide) fun d hd => by
      cases List.mem_singleton.mp hd
      exact .inr (by decide)⟩
  have hrange : InRange noParameters mixedOrder := by
    refine ⟨⟨?_, ?_⟩, ?_, ?_⟩
    · rintro v ⟨⟩
      decide
    · rintro v ⟨⟩
      decide
    · rintro v ⟨⟩
      decide
    · rintro a ⟨⟩ b ⟨⟩ v ⟨⟩
      decide
  have h : (Scope.plain noSignals).eval mixedOrder (.context 32 none) noStore = (.ok (ofInt 0 32), noStore) :=
    Prod.ext rfl rfl
  obtain ⟨r, heval, -, hval⟩ := hall mixedOrder 1 hclosed rfl hrange
  rw [h] at heval
  cases heval
  exact absurd hval (by decide)

end Veriforge.Const

import Veriforge.Vm.ExprCode
import Veriforge.Vm.Run

/-! # Compiled expressions

Run on the machine, the code of a compilable expression leaves the evaluator's value on the stack and
raises where the evaluator does. The induction runs over the widths at which an expression is not cut (its
own or more, or none asked for); narrower requests truncate the value at some point, and
`evalRequest_narrow` says that the evaluator's result is the same up to truncation. -/

namespace Veriforge.Vm

open Value

variable {T : SignalTable} {st : Store T}

/-! ## Self-determined nodes -/

/-- A self-determined node is compiled as for no width, and then extended if the width asked for may be
larger. -/
theorem compileRequest_selfDetermined {e : Expr} (hs : e.selfDetermined = true) {w : Nat}
    (hl : AllAt T (Compilable T) e w) (ov : Option Bool) :
    ∃ c : Bool, compileRequest T e (.context w ov)
        = compileRequest T e (.context 0 ov) ++ extIf c (ov.getD (Veriforge.exprSigned T e)) w ∧
      (c = true → w ≠ 0) ∧ (c = false → w ≤ selfWidth T e) := by
  have hsigned := exprSigned_eq hl
  cases e with
  | ident hier n =>
    obtain ⟨sw, hw⟩ := Option.isSome_iff_exists.mp hl.self.leaf
    refine ⟨w != 0 && decide (sw < w), ?_, ?_, ?_⟩
    · rw [compileRequest, compileRequest, ← hsigned]
      simp only [compileIdent, hw, Request.width_context, Request.signedOverride_context]
      simp
      rfl
    · simp only [Bool.and_eq_true, bne_iff_ne]
      exact fun h => h.1
    · rw [selfWidth]
      simp only [hw, Bool.and_eq_false_iff, bne_eq_false_iff_eq, decide_eq_false_iff_not]
      omega
  | literal l =>
    have hlit : l.compileLiteral = l.evalLiteral := hl.self.leaf
    have hex : l.evalLiteral.width = l.selfWidth := beq_iff_eq.mp hl.self.exact
    have hxz : Literal.isUnsizedXz l.originalText = false := by
      rw [Expr.selfDetermined, Bool.not_eq_true'] at hs
      exact hs
    refine ⟨w != 0 && decide (l.compileLiteral.width < w), ?_, ?_, ?_⟩
    · rw [compileRequest, compileRequest, Veriforge.exprSigned]
      simp [compileLiteral, hxz]
    · simp only [Bool.and_eq_true, bne_iff_ne]
      exact fun h => h.1
    · rw [selfWidth, ← hex, hlit]
      simp only [Bool.and_eq_false_iff, bne_eq_false_iff_eq, decide_eq_false_iff_not]
      omega
  | unary op e =>
    have hc : op.contextDetermined = false := by
      rw [Expr.selfDetermined, Bool.not_eq_true'] at hs
      exact hs
    refine ⟨w != 0 && decide (1 < w), ?_, ?_, ?_⟩
    · rw [compileRequest, compileRequest, ← hsigned]
      simp [hc]
      rfl
    · simp only [Bool.and_eq_true, bne_iff_ne]
      exact fun h => h.1
    · rw [selfWidth, hc]
      simp only [Bool.and_eq_false_iff, bne_eq_false_iff_eq, decide_eq_false_iff_not, Bool.false_eq_true, if_false]
      omega
  | binary op l r =>
    rw [Expr.selfDetermined, Bool.or_eq_true] at hs
    have hself : selfWidth T (.binary op l r) = 1 := by
      rw [selfWidth_binary]
      exact hs.elim (resultWidth_logical _ _) (resultWidth_comparison _ _)
    refine ⟨w != 0 && 1 != w, ?_, ?_, ?_⟩
    · rw [compileRequest, compileRequest, ← hsigned]
      rcases hs with hc | hc
      · simp [hc]
      · have hnl : op.isLogical = false := by cases op <;> first | rfl | cases hc
        simp [hc, hnl]
    · simp only [Bool.and_eq_true, bne_iff_ne]
      exact fun h => h.1
    · rw [hself]
      simp only [Bool.and_eq_false_iff, bne_eq_false_iff_eq]
      omega
  | bitSelect t i =>
    refine ⟨w != 0, ?_, ?_, ?_⟩
    · rw [compileRequest, compileRequest, ← hsigned]
      cases hm : memoryTarget? T t with
      | some m => simp
      | none =>
        rw [hsigned, exprSigned_bitSelect hm]
        simp
    · exact bne_iff_ne.mp
    · rintro h
      rw [bne_eq_false_iff_eq.mp h]
      exact Nat.zero_le _
  | cast s a =>
    refine ⟨w != 0 && selfWidth T a != w, ?_, ?_, ?_⟩
    · rw [compileRequest, compileRequest, Veriforge.exprSigned]
      simp
    · simp only [Bool.and_eq_true, bne_iff_ne]
      exact fun h => h.1
    · rw [selfWidth]
      simp only [Bool.and_eq_false_iff, bne_eq_false_iff_eq]
      omega
  | concat | replicate | rangeSelect | partSelect =>
    refine ⟨w != 0, ?_, ?_, ?_⟩
    · rw [compileRequest, compileRequest, Veriforge.exprSigned]
      simp
    · exact bne_iff_ne.mp
    · rintro h
      rw [bne_eq_false_iff_eq.mp h]
      exact Nat.zero_le _
  | ternary => exact absurd hs Bool.false_ne_true
  | string | streaming | streamingBy | call => exact absurd hl.self.legal Bool.false_ne_true

/-- A self-determined node compiled for at least its own width, from its code for no width. -/
theorem computes_of_none {e : Expr} (hs : e.selfDetermined = true) {w : Nat}
    (hl : AllAt T (Compilable T) e w) (hw : w = 0 ∨ selfWidth T e ≤ w) {ov : Option Bool}
    (h : Computes st (compileRequest T e (.context 0 ov)) (evalRequest st e (.context 0 ov))) :
    Computes st (compileRequest T e (.context w ov)) (evalRequest st e (.context w ov)) := by
  obtain ⟨c, hcode, hc, hnc⟩ := compileRequest_selfDetermined hs hl ov
  rw [hcode, evalRequest_selfDetermined hs hl.self.legal]
  have hlegal := (Compilable.allLegal hl).width 0
  convert h.extIf c (ov.getD (Veriforge.exprSigned T e)) w using 1
  refine Option.bind_congr fun v hv => ?_
  have hwid := evalRequest_width_of_none hv hlegal (Compilable.exactCore hl)
  cases c with
  | true =>
    rcases hw with h0 | hle
    · exact absurd h0 (hc rfl)
    · rw [if_pos rfl]
      rcases hle.eq_or_lt with heq | hlt
      · rw [widen_of_le (by omega), extendTo_of_width (by omega)]
      · rw [widen, if_pos (by omega)]
  | false =>
    have := hnc rfl
    rw [if_neg Bool.false_ne_true, widen_of_le (by omega)]

theorem evalBinaryResult_shiftSigned {op : BinaryOp} (h : op ≠ .ashr) (bs ss ss' : Bool) (a b : Value) :
    evalBinaryResult op bs ss a b = evalBinaryResult op bs ss' a b := by
  unfold evalBinaryResult
  rw [if_neg (show ¬(op = .ashr ∧ ¬ss = true) from fun hc => h hc.1),
    if_neg (show ¬(op = .ashr ∧ ¬ss' = true) from fun hc => h hc.1)]

theorem compileRequest_inner (e : Expr) :
    compileRequest T e .inner = compileRequest T e (.context (innerWidth T e) none) := by
  cases e
  case cast s a =>
    rw [compileRequest, compileRequest, innerWidth]
    simp
  case string | call => rw [compileRequest, compileRequest]
  all_goals
    rw [compileRequest, compileRequest]
    rfl

/-- A bitwise or arithmetic operator, from the code of its operands. -/
theorem computes_operands {op : BinaryOp} (hop : op.isBitwise = true ∨ op.isArithmetic = true)
    {l r : Expr} {w : Nat} {ov : Option Bool} (hl : AllAt T (Compilable T) (.binary op l r) w)
    (hw : w = 0 ∨ selfWidth T (.binary op l r) ≤ w)
    (hleft : Computes st (compileRequest T l (.context (operandTarget T l r w)
        (some (ov.getD (Veriforge.exprSigned T l && Veriforge.exprSigned T r)))))
      (evalRequest st l (.context (operandTarget T l r w)
        (some (ov.getD (Veriforge.exprSigned T l && Veriforge.exprSigned T r))))))
    (hright : Computes st (compileRequest T r (.context (operandTarget T l r w)
        (some (ov.getD (Veriforge.exprSigned T l && Veriforge.exprSigned T r)))))
      (evalRequest st r (.context (operandTarget T l r w)
        (some (ov.getD (Veriforge.exprSigned T l && Veriforge.exprSigned T r)))))) :
    Computes st (compileRequest T (.binary op l r) (.context w ov))
      (evalRequest st (.binary op l r) (.context w ov)) := by
  have hlegal := Compilable.allLegal hl
  have hself : selfWidth T (.binary op l r) = max (selfWidth T l) (selfWidth T r) := by
    rw [selfWidth_binary]
    exact hop.elim (resultWidth_bitwise _ _) (resultWidth_arithmetic _ _)
  have htarget : w = 0 ∨ operandTarget T l r w = w := by
    rw [hself] at hw
    unfold operandTarget
    omega
  have hstop : (w != 0 && operandTarget T l r w != w) = false := by
    rcases htarget with rfl | h
    · rfl
    · rw [h, bne_self_eq_false, Bool.and_false]
  rw [AllAt, operandWidths_operands hop] at hl
  generalize hs : ov.getD (Veriforge.exprSigned T l && Veriforge.exprSigned T r) = s at *
  have hwa : ∀ v, evalRequest st l (.context (operandTarget T l r w) (some s)) = some v →
      v.width = operandTarget T l r w := fun v hv =>
    evalRequest_width_of_le hv (Compilable.allLegal hl.2.1) (selfWidth_le_operandTarget_left l r w)
  have hwb : ∀ v, evalRequest st r (.context (operandTarget T l r w) (some s)) = some v →
      v.width = operandTarget T l r w := fun v hv =>
    evalRequest_width_of_le hv (Compilable.allLegal hl.2.2) (selfWidth_le_operandTarget_right l r w)
  have heval : evalRequest st (.binary op l r) (.context w ov)
      = (evalRequest st l (.context (operandTarget T l r w) (some s))).bind fun a =>
        (evalRequest st r (.context (operandTarget T l r w) (some s))).bind fun b =>
          evalBinaryResult op (exprSigned T l && exprSigned T r) (ov.getD (exprSigned T l)) a b := by
    rw [evalRequest_operands_sized hop ov hlegal, hs, exprSigned_eq hl.2.1, exprSigned_eq hl.2.2]
    refine Option.bind_congr fun a ha => Option.bind_congr fun b hb => ?_
    rw [bind_fit_of_width fun u hu => ?_]
    · refine evalBinaryResult_shiftSigned ?_ _ _ _ a b
      rintro rfl
      exact hop.elim (absurd · Bool.false_ne_true) (absurd · Bool.false_ne_true)
    · rw [evalBinaryResult_width_of_eq hop ((hwb b hb).trans (hwa a ha).symm) hu, hwa a ha]
      exact htarget
  have hdiv : op.isDivmod = true → ∀ u v, evalRequest st l (.context (operandTarget T l r w) (some s)) = some u →
      evalRequest st r (.context (operandTarget T l r w) (some s)) = some v → v.width ≤ u.width :=
    fun _ u v hu hv => ((hwb v hv).trans (hwa u hu).symm).le
  rw [heval]
  rcases hop with hc | hc
  · have hcode : resultOpcode op (exprSigned T l && exprSigned T r) (ov.getD (exprSigned T l))
        = binaryOpcode op := by
      cases op <;> first | rfl | cases hc
    have hstop' : (w != 0 && w != operandTarget T l r w) = false := by
      rcases htarget with rfl | h
      · rfl
      · rw [h, bne_self_eq_false, Bool.and_false]
    rw [compileRequest_bitwise hc, exprSigned_eq hl.2.1, exprSigned_eq hl.2.2, hs, hstop', extIf_false,
      List.append_nil, ← hcode, List.append_assoc, List.append_assoc,
      ← List.append_assoc (compileRequest T r _)]
    rw [exprSigned_eq hl.2.1, exprSigned_eq hl.2.2]
    exact (hleft.extIf_of_width (c := true) fun _ => hwa).binary
      (hright.extIf_of_width (c := true) fun _ => hwb) op _ _ hdiv
  · rw [compileRequest_arithmetic hc, hstop, extIf_false, List.append_nil, List.append_assoc]
    rw [← hs, ← exprSigned_eq hl.2.1, ← exprSigned_eq hl.2.2] at hleft hright hdiv ⊢
    exact hleft.binary hright op _ _ hdiv

theorem execData_concat (vs stack : List Value) :
    execData st (.concat vs.length) (vs.reverse ++ stack) = some (concatValues vs :: stack) := by
  have hlen : vs.reverse.length = vs.length := List.length_reverse
  rw [execData, if_pos (by rw [List.length_append]; omega), ← hlen, List.take_left, List.drop_left,
    List.reverse_reverse]

theorem evalParts_length {es : List Expr} {vs : List Value} (h : evalParts st es = some vs) :
    vs.length = es.length := by
  induction es generalizing vs with
  | nil =>
    cases h
    rfl
  | cons e es ih =>
    rw [evalParts] at h
    simp only [Option.bind_eq_bind, Option.bind_eq_some_iff] at h
    obtain ⟨v, -, us, hus, h⟩ := h
    cases h
    rw [List.length_cons, List.length_cons, ih hus]

/-- An index as wide as its expression is not evaluated again. -/
theorem indexInt_of_width {i : Expr} {v : Value} (h : selfWidth T i ≤ v.width) (again : Option Value) :
    indexInt T i v again = indexInt T i v none := by
  unfold indexInt
  rw [if_neg (Nat.not_lt.mpr h), if_neg (Nat.not_lt.mpr h)]

/-- `_compile_select_base` and the adjustment after it. -/
theorem runData_partBase {t b : Expr} {v p : Value} (h : partBase T t b v = some p) (q : List Op)
    (stack : List Value) :
    runData st (extOp (Veriforge.exprSigned T b) 64 :: (baseAdjust (selectBase T t) ++
      (.resize 64 :: q))) (v :: stack) = runData st q (p :: stack) := by
  obtain ⟨u, hu, rfl⟩ := Option.map_eq_some_iff.mp h
  rw [runData, execData_extOp, hu, Option.map_some, Option.bind_some]
  have hadj : Computes st ([.loadConst u] ++ baseAdjust (selectBase T t)) _ :=
    (computes_loadConst u).baseAdjust (selectBase T t)
  have := hadj.append (.resize 64 :: q) stack
  rw [List.append_assoc] at this
  exact this

/-- Concatenated parts are pushed one by one. -/
theorem runData_compileParts {es : List Expr}
    (h : ∀ e ∈ es, Computes st (compileRequest T e (.context (selfWidth T e) none))
      (evalRequest st e (.context (selfWidth T e) none))) (stack : List Value) :
    runData st (compileParts T es) stack = (evalParts st es).map fun vs => vs.reverse ++ stack := by
  induction es generalizing stack with
  | nil => rfl
  | cons e es ih =>
    rw [List.forall_mem_cons] at h
    rw [compileParts, evalParts, h.1.append, Option.bind_eq_bind, Option.map_bind]
    refine Option.bind_congr fun v _ => ?_
    rw [ih h.2, Function.comp, Option.bind_eq_bind, Option.map_bind, Option.map_eq_bind]
    refine Option.bind_congr fun vs _ => ?_
    show some (vs.reverse ++ v :: stack) = some ((v :: vs).reverse ++ stack)
    rw [List.reverse_cons, List.append_assoc]
    rfl

/-- An expression compiled for at least its own width, or for none, computes its value. -/
theorem computes_compileRequest {e : Expr} {w : Nat} (hl : AllAt T (Compilable T) e w)
    (hw : w = 0 ∨ selfWidth T e ≤ w) (ov : Option Bool) :
    Computes st (compileRequest T e (.context w ov)) (evalRequest st e (.context w ov)) := by
  induction e generalizing w ov with
  | ident hier n =>
    refine computes_of_none rfl hl hw ?_
    obtain ⟨sw, hsw⟩ := Option.isSome_iff_exists.mp hl.self.leaf
    rw [compileRequest, evalRequest, Store.signal?_eq_some hsw]
    simp only [compileIdent, hsw, Request.width_context, widen_zero, bne_self_eq_false,
      Bool.false_and, extIf_false, List.append_nil]
    intro stack
    rw [runData_singleton]
    show (st.signal? _).map _ = _
    rw [Store.signal?_eq_some hsw]
  | literal l =>
    have hlit : l.compileLiteral = l.evalLiteral := hl.self.leaf
    have hex : l.evalLiteral.width = l.selfWidth := beq_iff_eq.mp hl.self.exact
    cases hxz : Literal.isUnsizedXz l.originalText with
    | false =>
      refine computes_of_none (by rw [Expr.selfDetermined, hxz]; rfl) hl hw ?_
      rw [compileRequest, evalRequest]
      simp only [compileLiteral, Request.width_context, Nat.not_lt_zero, if_false, hlit,
        bne_self_eq_false, Bool.false_and, extIf_false, List.append_nil, and_false, false_and]
      exact computes_loadConst _
    | true =>
      -- the digits' fill is a constant, extended when it is compiled
      rw [compileRequest, evalRequest]
      simp only [compileLiteral, Request.width_context, hlit, hxz, and_true, if_true]
      by_cases hlt : l.evalLiteral.width < w
      · rw [if_pos ⟨by omega, hlt⟩, if_pos hlt, init_width, decide_eq_false (lt_irrefl w),
          Bool.and_false, extIf_false, List.append_nil]
        exact computes_loadConst _
      · rw [if_neg fun h => hlt h.2, if_neg hlt, decide_eq_false hlt, Bool.and_false, extIf_false, List.append_nil]
        exact computes_loadConst _
  | string s => exact absurd hl.self.legal Bool.false_ne_true
  | unary op e ih =>
    cases hc : op.contextDetermined with
    | false =>
      refine computes_of_none (by rw [Expr.selfDetermined, hc]; rfl) hl hw ?_
      rw [AllAt, hc, if_neg Bool.false_ne_true] at hl
      rw [evalRequest_unary_self hc, compileRequest_unary_self hc, bne_self_eq_false, Bool.false_and,
        extIf_false, List.append_nil]
      simp only [Request.width_context, widen_zero]
      convert (ih hl.2 (Or.inr le_rfl) none).unary op using 1
      rw [Option.map_eq_bind]
      rfl
    | true =>
      have hself : selfWidth T (.unary op e) = selfWidth T e := by rw [selfWidth, hc, if_pos rfl]
      rw [hself] at hw
      rw [AllAt, hc, if_pos rfl] at hl
      have hs := Compilable.allLegal hl.2
      have htarget : (if w ≠ 0 then max w (selfWidth T e) else w) = w := by split <;> omega
      rw [evalRequest_unary_sized hc ov hs hw, compileRequest_unary_context hc, htarget]
      refine Computes.unary ((ih hl.2 hw ov).extIf_of_width fun hc v hv => ?_) op
      exact evalRequest_width_of_le hv hs (hw.resolve_left (bne_iff_ne.mp hc))
  | binary op l r ihl ihr =>
    have hlegal := Compilable.allLegal hl
    have hself := selfWidth_binary T op l r
    rcases op.sizing with hc | hc | hc | hc | hc
    · -- `&& ||`: the machine evaluates the right operand in any case
      refine computes_of_none (by rw [Expr.selfDetermined, hc]; rfl) hl hw ?_
      have hret : ∃ b, evalRequest st r (.context 0 none) = some b :=
        exists_evalRequest (hl.self.skips hc)
      rw [AllAt, operandWidths_logical _ _ _ hc] at hl
      rw [evalRequest_logical hc, compileRequest_logical hc, bne_self_eq_false, Bool.false_and,
        extIf_false, List.append_nil, List.append_assoc]
      simp only [Request.width_context, fit_zero, Option.bind_fun_some]
      obtain ⟨b, hb⟩ := hret
      convert (ihl hl.2.1 (Or.inl rfl) none).binary (ihr hl.2.2 (Or.inl rfl) none) op _ _ ?_ using 1
      · refine Option.bind_congr fun a _ => ?_
        rw [hb, evalBinaryOp_shortCircuit hc, Option.bind_some, evalBinaryResult_logical hc]
      · rw [BinaryOp.not_divmod_of_logical hc]
        exact fun h => absurd h Bool.false_ne_true
    · refine computes_of_none (by rw [Expr.selfDetermined, hc, Bool.or_true]) hl hw ?_
      rw [evalRequest_comparison_sized hc ov (hlegal.width 0)]
      rw [AllAt, operandWidths_comparison _ _ _ hc] at hl
      rw [compileRequest_comparison hc, exprSigned_eq hl.2.1, exprSigned_eq hl.2.2, bne_self_eq_false,
        Bool.false_and, extIf_false, List.append_nil, List.append_assoc]
      simp only [fit_zero, Option.bind_fun_some]
      convert (ihl hl.2.1 (Or.inr (le_max_left _ _)) _).binary
        (ihr hl.2.2 (Or.inr (le_max_right _ _)) _) op _ _ ?_ using 1
      · refine Option.bind_congr fun a _ => Option.bind_congr fun b _ => ?_
        refine evalBinaryResult_shiftSigned ?_ _ _ _ a b
        rintro rfl
        exact absurd hc Bool.false_ne_true
      · rw [BinaryOp.not_divmod_of_comparison hc]
        exact fun h => absurd h Bool.false_ne_true
    · rw [resultWidth_shift _ _ hc] at hself
      rw [hself] at hw
      rw [AllAt, operandWidths_shift _ _ _ hc] at hl
      have hllegal := Compilable.allLegal hl.2.1
      -- the left operand's code computes it at the evaluator's width
      have hleft : Computes st
          (compileRequest T l (.context (if w ≠ 0 then max w (selfWidth T l) else 0) ov) ++
            extIf (w != 0) (ov.getD (exprSigned T l)) (if w ≠ 0 then max w (selfWidth T l) else 0))
          (evalRequest st l (.context (shiftTarget T l w)
            (some (ov.getD (Veriforge.exprSigned T l))))) := by
        rw [← evalRequest_getD]
        by_cases h0 : w = 0
        · rw [shiftTarget, if_neg (not_not_intro h0)] at hl hllegal ⊢
          rw [if_neg (not_not_intro h0), h0, bne_self_eq_false, extIf_false, List.append_nil,
            ← evalRequest_none (hllegal.width 0) (Compilable.exactCore hl.2.1)]
          exact ihl (Compilable.all_of_le le_rfl (Or.inl rfl) hl.2.1) (Or.inl rfl) ov
        · rw [shiftTarget, if_pos h0] at hl hllegal ⊢
          rw [if_pos h0]
          refine (ihl hl.2.1 (Or.inr (le_max_right _ _)) ov).extIf_of_width fun _ v hv => ?_
          exact evalRequest_width_of_le hv hllegal (le_max_right _ _)
      have hright : Computes st
          (compileRequest T r (.context (if op == .pow then selfWidth T r else 0) none))
          (evalRequest st r (.context (if op == .pow then selfWidth T r else 0) none)) := by
        refine ihr hl.2.2 ?_ none
        split
        · exact Or.inr le_rfl
        · exact Or.inl rfl
      have htarget : (w != 0 && (if w ≠ 0 then max w (selfWidth T l) else 0) != w) = false := by
        by_cases h0 : w = 0
        · rw [h0]
          rfl
        · rw [if_pos h0, Nat.max_eq_left (hw.resolve_left h0), bne_self_eq_false, Bool.and_false]
      rw [evalRequest_shift_sized hc ov hlegal, compileRequest_shift hc, htarget, extIf_false,
        List.append_nil, List.append_assoc]
      convert hleft.binary hright op (exprSigned T l && exprSigned T r) (ov.getD (exprSigned T l)) ?_
        using 1
      · rw [exprSigned_eq hl.2.1, exprSigned_eq hl.2.2]
        refine Option.bind_congr fun a ha => Option.bind_congr fun b _ => ?_
        have hwa := evalRequest_width_of_le ha hllegal (selfWidth_le_shiftTarget l w)
        refine bind_fit_of_width fun u hu => ?_
        rw [evalBinaryResult_width_of_shift hc hu, hwa, shiftTarget]
        split <;> omega
      · rw [BinaryOp.not_divmod_of_shift hc]
        exact fun h => absurd h Bool.false_ne_true
    · refine computes_operands (Or.inl hc) hl hw ?_ ?_
      · rw [AllAt, operandWidths_bitwise _ _ _ hc] at hl
        exact ihl hl.2.1 (Or.inr (selfWidth_le_operandTarget_left l r w)) _
      · rw [AllAt, operandWidths_bitwise _ _ _ hc] at hl
        exact ihr hl.2.2 (Or.inr (selfWidth_le_operandTarget_right l r w)) _
    · refine computes_operands (Or.inr hc) hl hw ?_ ?_
      · rw [AllAt, operandWidths_arithmetic _ _ _ hc] at hl
        exact ihl hl.2.1 (Or.inr (selfWidth_le_operandTarget_left l r w)) _
      · rw [AllAt, operandWidths_arithmetic _ _ _ hc] at hl
        exact ihr hl.2.2 (Or.inr (selfWidth_le_operandTarget_right l r w)) _
  | ternary c t f ihc iht ihf =>
    have hskips := hl.self.skips
    have hsigned := exprSigned_eq hl
    rw [AllAt] at hl
    generalize hs : ov.getD (Veriforge.exprSigned T (.ternary c t f)) = s
    generalize hown : max w (max (selfWidth T t) (selfWidth T f)) = own at hl
    obtain ⟨a, ha⟩ : ∃ a, evalRequest st t (.context own (some s)) = some a :=
      exists_evalRequest (hown ▸ hskips.1)
    obtain ⟨b, hb⟩ : ∃ b, evalRequest st f (.context own (some s)) = some b :=
      exists_evalRequest (hown ▸ hskips.2)
    have hwa := evalRequest_width_of_le ha (Compilable.allLegal hl.2.2.1) (by omega)
    have hwb := evalRequest_width_of_le hb (Compilable.allLegal hl.2.2.2) (by omega)
    intro stack
    rw [compileRequest, evalRequest]
    simp only [Request.width_context, Request.signedOverride_context, hsigned, hs, hown,
      List.append_assoc, Option.bind_eq_bind, ha, hb, Option.bind_some]
    rw [(ihc hl.2.1 (Or.inr le_rfl) none).append, Option.map_bind]
    refine Option.bind_congr fun u _ => ?_
    rw [(iht hl.2.2.1 (Or.inr (by omega)) _).append, ha, Option.bind_some,
      (ihf hl.2.2.2 (Or.inr (by omega)) _).append, hb, Option.bind_some, runData_singleton]
    show some (Vm.ternary u a b :: stack) = _
    rw [ternary_eq u (hwa.trans hwb.symm), Function.comp]
    split
    · split <;> rfl
    · rfl
  | concat b ps ih =>
    refine computes_of_none rfl hl hw ?_
    have hne : ps.isEmpty = false := by
      have hlegal := hl.self.legal
      rw [legal, Bool.not_eq_true'] at hlegal
      exact hlegal
    rw [AllAt, allPartsAt_iff] at hl
    intro stack
    rw [compileRequest, evalRequest]
    simp only [Request.width_context, bne_self_eq_false, extIf_false, List.append_nil,
      Option.bind_eq_bind, hne, Bool.false_eq_true, if_false, widen_zero]
    rw [runData_append, runData_compileParts fun p hp => ih p hp (hl.2 p hp) (Or.inr le_rfl) none,
      Option.map_eq_bind, Option.bind_assoc, Option.map_bind]
    refine Option.bind_congr fun vs hvs => ?_
    show runData st [Op.concat ps.length] (vs.reverse ++ stack) = some (concatValues vs :: stack)
    rw [runData_singleton, ← evalParts_length hvs]
    exact execData_concat vs stack
  | replicate c v ihc ihv =>
    refine computes_of_none rfl hl hw ?_
    rw [AllAt] at hl
    intro stack
    rw [compileRequest, evalRequest]
    simp only [Request.width_context, bne_self_eq_false, extIf_false, List.append_nil,
      Option.bind_eq_bind, widen_zero, List.append_assoc]
    rw [(ihc hl.2.1 (Or.inl rfl) none).append, Option.map_bind]
    refine Option.bind_congr fun n _ => ?_
    rw [(ihv hl.2.2 (Or.inr le_rfl) none).append, Function.comp, Option.map_bind]
    rfl
  | streaming ps ih => exact absurd hl.self.legal Bool.false_ne_true
  | streamingBy s ps ihs ih => exact absurd hl.self.legal Bool.false_ne_true
  | bitSelect t i iht ihi =>
    refine computes_of_none rfl hl hw ?_
    have hpos := hl.self.position
    rw [AllAt] at hl
    have hlegal := Compilable.allLegal hl.2.2.1
    have hadmits : ∀ {v}, evalRequest st i (.context 0 none) = some v → Admits T i v := fun hv =>
      ⟨evalRequest_width_of_none hv hlegal (Compilable.exactCore hl.2.2.1), fun l hil => by
        rw [hil, evalRequest_literal_zero] at hv
        exact (Option.some_inj.mp hv).symm⟩
    intro stack
    rw [compileRequest, evalRequest]
    rw [samePosition] at hpos
    cases hm : memoryTarget? T t with
    | some m =>
      obtain ⟨name, ew, depth⟩ := m
      rw [hm] at hpos
      simp only [Request.width_context, bne_self_eq_false, extIf_false, List.append_nil,
        Option.bind_eq_bind, widen_zero, Option.bind_fun_some]
      rw [(ihi hl.2.2.1 (Or.inl rfl) none).append, Option.map_bind]
      refine Option.bind_congr fun v hv => ?_
      rw [runData_singleton]
      show (Vm.loadMem st name v).map (· :: stack) = _
      rw [Function.comp, Vm.loadMem, (memoryTarget?_eq_some hm).2]
      simp only [selectWord, Option.bind_eq_bind]
      cases hd : v.isDefined with
      | false => rfl
      | true =>
        obtain ⟨n, hn, hrange⟩ := hpos v (hadmits hv) hd
        rw [indexInt_of_width (hadmits hv).1.ge, hn, if_pos rfl, if_pos rfl, Option.bind_some,
          hrange.readWord st name ew]
        rfl
    | none =>
      rw [hm] at hpos
      simp only [Request.width_context, bne_self_eq_false, extIf_false, List.append_nil,
        Option.bind_eq_bind, widen_zero, Option.bind_fun_some, List.append_assoc]
      rw [(iht (hl.2.1 hm) (Or.inl rfl) none).append, Option.map_bind]
      refine Option.bind_congr fun u hu => ?_
      have hwu := evalRequest_width_of_none hu (Compilable.allLegal (hl.2.1 hm))
        (Compilable.exactCore (hl.2.1 hm))
      rw [← List.append_assoc, ((ihi hl.2.2.1 (Or.inl rfl) none).baseAdjust (selectBase T t)).append, Function.comp,
        Option.map_bind, Option.map_eq_bind, Option.bind_assoc]
      refine Option.bind_congr fun v hv => ?_
      show some (Vm.bitSelect u (rebased (selectBase T t) v) :: stack) = _
      simp only [Vm.bitSelect, Function.comp, selectBit, Option.bind_eq_bind, rebased_isDefined]
      cases hd : v.isDefined with
      | false => rfl
      | true =>
        obtain ⟨n, hn, hrange⟩ := hpos v (hadmits hv) hd
        rw [← hwu] at hrange
        rw [indexInt_of_width (hadmits hv).1.ge, hn, if_pos rfl, if_pos rfl, Option.bind_some, hrange.getBit]
        rfl
  | rangeSelect t m l iht ihm ihl =>
    refine computes_of_none rfl hl hw ?_
    obtain ⟨m', l', mi, li, rfl, rfl, hm, hl', hle⟩ := legal_rangeSelect hl.self.legal
    have hpos : SameRange _ _ _ _ _ := hl.self.position mi li hm hl'
    have hmd := (Literal.denoted_eq_some hm).2.2.1
    have hld := (Literal.denoted_eq_some hl').2.2.1
    rw [AllAt] at hl
    intro stack
    rw [compileRequest, evalRequest]
    simp only [Request.width_context, bne_self_eq_false, extIf_false, List.append_nil,
      Option.bind_eq_bind, widen_zero, Option.bind_fun_some, List.append_assoc]
    rw [(iht hl.2.1 (Or.inl rfl) none).append, Option.map_bind]
    refine Option.bind_congr fun u hu => ?_
    have hwu := evalRequest_width_of_none hu (Compilable.allLegal hl.2.1)
      (Compilable.exactCore hl.2.1)
    rw [← hwu] at hpos
    rw [← List.append_assoc, ((ihm hl.2.2.1.1 (Or.inl rfl) none).baseAdjust (selectBase T t)).append,
      evalRequest_literal_zero, Option.map_some, Option.bind_some, ← List.append_assoc,
      ((ihl hl.2.2.2.1 (Or.inl rfl) none).baseAdjust (selectBase T t)).append,
      evalRequest_literal_zero, Option.map_some, Option.bind_some, runData_singleton]
    show some (Vm.rangeSelect u (rebased (selectBase T t) m'.evalLiteral)
      (rebased (selectBase T t) l'.evalLiteral) :: stack) = _
    simp only [Vm.rangeSelect, Function.comp, selectRange, rebased_isDefined, Option.bind_some,
      Option.bind_eq_bind, hmd, hld, and_self, if_true]
    rw [indexInt_literal hm, indexInt_literal hl', Option.bind_some, Option.bind_some, hpos.getRange]
    rfl
  | partSelect t b w' d iht ihb ihw =>
    refine computes_of_none rfl hl hw ?_
    obtain ⟨l, n, rfl, hd, hn⟩ := legal_partSelect hl.self.legal
    have hpos := hl.self.position
    have hld := (Literal.denoted_eq_some hd).2.2.1
    rw [AllAt] at hl
    have hblegal := (Compilable.allLegal hl.2.2.1.1)
    intro stack
    rw [compileRequest, evalRequest]
    simp only [Request.width_context, bne_self_eq_false, extIf_false, List.append_nil,
      Option.bind_eq_bind, widen_zero, Option.bind_fun_some, List.append_assoc]
    rw [(iht hl.2.1 (Or.inl rfl) none).append, Option.map_bind]
    refine Option.bind_congr fun u hu => ?_
    have hwu := evalRequest_width_of_none hu (Compilable.allLegal hl.2.1)
      (Compilable.exactCore hl.2.1)
    rw [(ihb hl.2.2.1.2 (Or.inr le_rfl) none).append, ← evalRequest_none hblegal (Compilable.exactCore hl.2.2.1.1), Function.comp,
      Option.map_bind]
    refine Option.bind_congr fun v hv => ?_
    have hadmits : Admits T b v :=
      ⟨evalRequest_width_of_none hv hblegal (Compilable.exactCore hl.2.2.1.1), fun l hil => by
        rw [hil, evalRequest_literal_zero] at hv
        exact (Option.some_inj.mp hv).symm⟩
    obtain ⟨p, hp, hpd, hrange⟩ := hpos v hadmits
    have hcode : ∀ q stack, runData st (extOp (exprSigned T b) 64 :: (baseAdjust (selectBase T t) ++
        (.resize 64 :: q))) (v :: stack) = runData st q (p :: stack) := fun q stack => by
      rw [exprSigned_eq hl.2.2.1.1]
      exact runData_partBase hp q stack
    rw [List.cons_append, List.nil_append, List.cons_append, List.nil_append, hcode,
      (ihw hl.2.2.2 (Or.inl rfl) none).append, evalRequest_literal_zero, Option.bind_some,
      runData_singleton]
    have hop : execData st (if d == .up then .partSelUp else .partSelDown)
        (l.evalLiteral :: p :: u :: stack) = some (Vm.partSelect d u p l.evalLiteral :: stack) := by
      cases d <;> rfl
    rw [hop]
    simp only [Vm.partSelect, selectPart, Option.bind_eq_bind, hpd, hld, and_true, Function.comp, Option.bind_some]
    cases hvd : v.isDefined with
    | false => rfl
    | true =>
      obtain ⟨i, hi, hrange⟩ := hrange hvd
      rw [← hwu] at hrange
      rw [hi, if_pos rfl, if_pos rfl, Option.bind_some, getPart_eq, getPart_eq, hrange.getRange]
      rfl
  | cast s a ih =>
    refine computes_of_none rfl hl hw ?_
    rw [AllAt] at hl
    rw [compileRequest, evalRequest]
    simp only [bne_self_eq_false, Bool.false_and, extIf_false, List.append_nil, widen_zero,
      Option.bind_eq_bind, Option.bind_fun_some]
    rw [compileRequest_inner, evalRequest_inner]
    rcases innerWidth_eq T a with h0 | hself
    · rw [h0]
      exact ih (Compilable.all_of_le le_rfl (Or.inl rfl) hl.2) (Or.inl rfl) none
    · rw [hself]
      exact ih hl.2 (Or.inr le_rfl) none
  | call f as ih => exact absurd hl.self.legal Bool.false_ne_true

/-! ## Narrow requests -/

/-- The code computes the value, perhaps truncated or extended to `w` bits. -/
def ComputesCut (st : Store T) (code : List Op) (w : Nat) (v : Option Value) : Prop :=
  ∃ c s : Bool, Computes st code (v.bind fun v => if c then extendTo s v w else some v)

theorem Computes.same {p : List Op} {v : Option Value} (h : Computes st p v) (w : Nat) : ComputesCut st p w v := by
  refine ⟨false, false, ?_⟩
  simpa only [Bool.false_eq_true, if_false, Option.bind_fun_some] using h

theorem Computes.cut {p : List Op} {v : Option Value} (h : Computes st p v) (c s : Bool) (w : Nat) :
    ComputesCut st (p ++ Vm.extIf c s w) w v := ⟨c, s, h.extIf c s w⟩

/-- Asked for less than its own width, an expression is compiled as for its own and may be truncated. -/
theorem computesCut_compileRequest {e : Expr} {w : Nat} (h0 : 0 < w) (hw : w < selfWidth T e)
    (hl : AllAt T (Compilable T) e w) (ov : Option Bool) :
    ComputesCut st (compileRequest T e (.context w ov)) w
      (evalRequest st e (.context (selfWidth T e) ov)) := by
  have hcomp : Computes st _ _ :=
    computes_compileRequest (Compilable.all_of_le hw.le (Or.inr rfl) hl) (Or.inr le_rfl) ov
  have hleaf : e.selfDetermined = true → ComputesCut st (compileRequest T e (.context w ov)) w
      (evalRequest st e (.context (selfWidth T e) ov)) := fun hs => by
    obtain ⟨c, hcode, -, -⟩ := compileRequest_selfDetermined hs hl ov
    have hnone := Compilable.all_of_le hw.le (Or.inl rfl) hl
    rw [hcode, ← evalRequest_none (Compilable.allLegal hnone) (Compilable.exactCore hnone)]
    exact (computes_compileRequest hnone (Or.inl rfl) ov).cut c _ w
  have hw0 : (w != 0) = true := bne_iff_ne.mpr h0.ne'
  cases e with
  | literal l =>
    cases hxz : Literal.isUnsizedXz l.originalText with
    | false => exact hleaf (by rw [Expr.selfDetermined, hxz]; rfl)
    | true =>
      have hlit : l.compileLiteral = l.evalLiteral := hl.self.leaf
      have hex : l.evalLiteral.width = l.selfWidth := beq_iff_eq.mp hl.self.exact
      have hcode : compileRequest T (.literal l) (.context w ov)
          = compileRequest T (.literal l) (.context (selfWidth T (.literal l)) ov) := by
        rw [selfWidth] at hw ⊢
        rw [compileRequest, compileRequest]
        simp only [compileLiteral, Request.width_context, hlit, hex, Nat.lt_irrefl, hw.not_gt,
          and_false, false_and, if_false, decide_false, Bool.and_false, extIf_false]
      rw [hcode]
      exact hcomp.same w
  | unary op e =>
    cases hc : op.contextDetermined with
    | false => exact hleaf (by rw [Expr.selfDetermined, hc]; rfl)
    | true =>
      have hself : selfWidth T (.unary op e) = selfWidth T e := by rw [selfWidth, hc, if_pos rfl]
      have hcode : compileRequest T (.unary op e) (.context w ov)
          = compileRequest T (.unary op e) (.context (selfWidth T (.unary op e)) ov) := by
        rw [hself] at hw ⊢
        have hl0 : (selfWidth T e != 0) = true := bne_iff_ne.mpr (by omega)
        rw [compileRequest_unary_context hc, compileRequest_unary_context hc, if_pos h0.ne',
          if_pos (bne_iff_ne.mp hl0), Nat.max_self, Nat.max_eq_right hw.le, hw0, hl0]
      rw [hcode]
      exact hcomp.same w
  | binary op l r =>
    have hself := selfWidth_binary T op l r
    rcases op.sizing with hc | hc | hc | hc | hc
    · exact hleaf (by rw [Expr.selfDetermined, hc]; rfl)
    · exact hleaf (by rw [Expr.selfDetermined, hc, Bool.or_true])
    · rw [resultWidth_shift _ _ hc] at hself
      rw [hself] at hw hcomp ⊢
      have hl0 : selfWidth T l ≠ 0 := by omega
      have hcode := compileRequest_shift (T := T) hc l r (selfWidth T l) ov
      rw [if_pos hl0, Nat.max_self, bne_self_eq_false, Bool.and_false, extIf_false, List.append_nil,
        bne_iff_ne.mpr hl0] at hcode
      rw [compileRequest_shift hc, if_pos h0.ne', Nat.max_eq_right hw.le, hw0, ← hcode]
      exact hcomp.cut _ _ w
    · rw [resultWidth_bitwise _ _ hc] at hself
      rw [hself] at hw hcomp ⊢
      have hcode := compileRequest_bitwise (T := T) hc l r (max (selfWidth T l) (selfWidth T r)) ov
      rw [operandTarget, Nat.max_self, bne_self_eq_false, Bool.and_false, extIf_false, List.append_nil] at hcode
      rw [compileRequest_bitwise hc, operandTarget, Nat.max_eq_right hw.le, ← hcode]
      exact hcomp.cut _ _ w
    · rw [resultWidth_arithmetic _ _ hc] at hself
      rw [hself] at hw hcomp ⊢
      have hcode := compileRequest_arithmetic (T := T) hc l r (max (selfWidth T l) (selfWidth T r)) ov
      rw [operandTarget, Nat.max_self, bne_self_eq_false, Bool.and_false, extIf_false, List.append_nil] at hcode
      rw [compileRequest_arithmetic hc, operandTarget, Nat.max_eq_right hw.le, ← hcode]
      exact hcomp.cut _ _ w
  | ternary c t f =>
    have hcode : compileRequest T (.ternary c t f) (.context w ov)
        = compileRequest T (.ternary c t f) (.context (selfWidth T (.ternary c t f)) ov) := by
      rw [selfWidth] at hw
      rw [compileRequest, compileRequest, Request.width_context, Request.width_context, selfWidth,
        Nat.max_self, Nat.max_eq_right hw.le]
      rfl
    rw [hcode]
    exact hcomp.same w
  | _ => exact hleaf rfl

/-! ## Running a compiled expression -/

/-- The width a result is compared at: the one asked for, or the self-determined one. -/
def askedWidth (T : SignalTable) (e : Expr) (w : Nat) : Nat := if w = 0 then selfWidth T e else w

theorem Computes.execute {code : List Op} {u : Value} (h : Computes st code (some u)) (loopLimit : Nat) :
    ∃ fuel s, Vm.execute loopLimit code st fuel = .halted s ∧ s.stack = [u] ∧ s.store = st := by
  have hrun : runData st code [] = some [u] := h []
  have hreach : Reaches loopLimit code ⟨0, [], st, [], 0⟩ ⟨0 + code.length, [u], st, [], 0⟩ :=
    Reaches.data (codeAt_self code) hrun
  obtain ⟨fuel, hfuel⟩ := hreach.halts (Or.inl (by simp))
  exact ⟨fuel, _, hfuel, rfl, rfl⟩

/-- The compiled program of a compilable expression leaves one value, the evaluator's up to truncation to the
width asked for. -/
theorem execute_compileExpr {e : Expr} {w : Nat} {ov : Option Bool} {v : Value}
    (hl : AllAt T (Compilable T) e w) (hv : eval st e w ov = some v) (loopLimit : Nat) :
    ∃ fuel s u, execute loopLimit (compileExpr T e w ov) st fuel = .halted s ∧ s.stack = [u] ∧
      s.store = st ∧ u.resize (askedWidth T e w) = v.resize (askedWidth T e w) := by
  by_cases hw : w = 0 ∨ selfWidth T e ≤ w
  · have hcomp : Computes st _ _ := computes_compileRequest hl hw ov
    rw [show evalRequest st e (.context w ov) = some v from hv] at hcomp
    obtain ⟨fuel, s, hrun, hstack, hstore⟩ := hcomp.execute loopLimit
    exact ⟨fuel, s, v, hrun, hstack, hstore, rfl⟩
  · rw [not_or, not_le] at hw
    obtain ⟨c, sg, hcomp⟩ : ComputesCut st _ w _ :=
      computesCut_compileRequest (Nat.pos_of_ne_zero hw.1) hw.2 hl ov
    have hown := Compilable.allLegal (Compilable.all_of_le hw.2.le (Or.inr rfl) hl)
    -- the value at the expression's own width, which both sides truncate or leave
    obtain ⟨v₀, hv₀, hcut⟩ : ∃ v₀, evalRequest st e (.context (selfWidth T e) ov) = some v₀ ∧
        v₀.resize w = v.resize w := by
      have hnarrow : AllAt T
          (fun e w => legal T e = true ∧ exactFill e = true ∧ negatesCut T e w = false) e w :=
        hl.imp fun _ _ h => ⟨h.legal, h.exactFill, h.negates⟩
      have htrunc : (evalRequest st e _).map _ = (evalRequest st e _).map _ :=
        evalRequest_truncate (Nat.pos_of_ne_zero hw.1) hw.2 hnarrow ov
      rw [show evalRequest st e (.context w ov) = some v from hv, eq_comm, Option.map_some,
        Option.map_eq_some_iff] at htrunc
      exact htrunc
    have hwid := evalRequest_width_of_le hv₀ hown le_rfl
    rw [hv₀, Option.bind_some, extendTo_of_le (by omega)] at hcomp
    have hcomp' : Computes st (compileExpr T e w ov) (some (if c then v₀.resize w else v₀)) := by
      rw [apply_ite some]
      exact hcomp
    obtain ⟨fuel, s, hrun, hstack, hstore⟩ := hcomp'.execute loopLimit
    refine ⟨fuel, s, _, hrun, hstack, hstore, ?_⟩
    rw [askedWidth, if_neg hw.1, ← hcut]
    split
    · exact resize_resize_of_le v₀ le_rfl
    · rfl

/-! The evaluator cuts an operand before it negates it: `-(a | b)` asked for 4 bits is a known 0 when only
bit 7 of `a` is unknown, and the machine's is unknown. -/

/-- Two vectors of 8 bits. -/
def byteTable : SignalTable := .vectors [("a", 8, false), ("b", 8, false)]

/-- `-(a | b)`. -/
def negatedOr : Expr := .unary .minus (.binary .bitOr (.ident [] "a") (.ident [] "b"))

/-- Every bit 0, except the unknown ones of `a`. -/
def byteStore (mask : Nat) : Store byteTable :=
  .ofBits byteTable (fun _ => 0) fun n => if n = "a" then mask else 0

theorem execute_negatedOr :
    ¬ ∀ v, eval (byteStore 128) negatedOr 4 none = some v →
      ∃ fuel s u, execute 0 (compileExpr byteTable negatedOr 4 none) (byteStore 128) fuel = .halted s ∧
        s.stack = [u] ∧ u.resize 4 = v.resize 4 := by
  intro hall
  obtain ⟨fuel, s, u, hrun, hstack, heq⟩ := hall (ofInt 0 4) (rfl)
  have hx : ∃ s, execute 0 (compileExpr byteTable negatedOr 4 none) (byteStore 128) 9 = .halted s ∧
      s.stack = [x 8] := ⟨_, rfl, rfl⟩
  obtain ⟨s', hrun', hstack'⟩ := hx
  rw [run_halted_unique hrun hrun', hstack'] at hstack
  cases hstack
  exact absurd heq (by decide)

/-- At its own width `-(a | b[a])` runs to the evaluator's value, `b[a]` being read where `a` says. -/
theorem execute_negatedOr_own :
    let e := Expr.unary .minus (.binary .bitOr (.ident [] "a") (.bitSelect (.ident [] "b") (.ident [] "a")))
    ∃ fuel s u, execute 0 (compileExpr byteTable e 8 none) (byteStore 128) fuel = .halted s ∧
      s.stack = [u] ∧ s.store = byteStore 128 ∧
      u.resize (askedWidth byteTable e 8) = (x 8).resize (askedWidth byteTable e 8) := by
  intro e
  refine execute_compileExpr ?_ (rfl) 0
  have ha : ∀ w, Compilable byteTable (.ident [] "a") w := fun w =>
    ⟨rfl, rfl, rfl, show (byteTable.width "a").isSome = true by decide, trivial, trivial⟩
  have hb : ∀ w, Compilable byteTable (.ident [] "b") w := fun w =>
    ⟨rfl, rfl, rfl, show (byteTable.width "b").isSome = true by decide, trivial, trivial⟩
  -- an unsigned index and a low bound of 0
  have hpos : samePosition byteTable (.bitSelect (.ident [] "b") (.ident [] "a")) := fun v _ _ =>
    ⟨v.val, rfl, by
      rw [show selectBase byteTable (.ident [] "b") = 0 from rfl, Int.sub_zero]
      exact SameRange.refl _ le_rfl⟩
  have hsel : ∀ w, Compilable byteTable (.bitSelect (.ident [] "b") (.ident [] "a")) w := fun w =>
    ⟨rfl, rfl, rfl, trivial, trivial, hpos⟩
  have hor : ∀ w, Compilable byteTable
      (.binary .bitOr (.ident [] "a") (.bitSelect (.ident [] "b") (.ident [] "a"))) w := fun w =>
    ⟨rfl, rfl, rfl, trivial, fun h => absurd h Bool.false_ne_true, trivial⟩
  simp only [e, AllAt]
  exact ⟨⟨rfl, rfl, rfl, trivial, trivial, trivial⟩, hor _, ha _, hsel _,
    fun _ => hb _, ha _, ha _⟩

end Veriforge.Vm

import Veriforge.Sim.EvalWidth

/-! # When evaluation returns

`eval` raises in three ways: sign extension and the two's complement reading of a value of width zero,
and signed division, which goes through a double and overflows once a dividend can reach `2 ^ 1024`. An
expression with no zero-width part and no signed `/` or `%` of more than 1024 bits always evaluates. -/

namespace Veriforge

open Value

/-- Nothing at the node makes its evaluation at width `w` raise. -/
def returnsAt (T : SignalTable) (e : Expr) (w : Nat) : Bool :=
  decide (0 < selfWidth T e) && match e with
    | .binary op l r =>
        !(op.isDivmod && exprSigned T l && exprSigned T r) || decide (operandTarget T l r w ≤ 1024)
    | _ => true

/-- The node is legal, its literals exact, and it does not raise. -/
def Evaluable (T : SignalTable) (e : Expr) (w : Nat) : Prop :=
  (legal T e = true ∧ exactLiteral e = true) ∧ returnsAt T e w = true

theorem selfWidth_pos_of_returnsAt {T : SignalTable} {e : Expr} {w : Nat}
    (h : returnsAt T e w = true) : 0 < selfWidth T e := by
  unfold returnsAt at h
  exact of_decide_eq_true (Bool.and_eq_true _ _ ▸ h).1

theorem target_le_of_returnsAt {T : SignalTable} {op : BinaryOp} {l r : Expr} {w : Nat}
    (h : returnsAt T (.binary op l r) w = true) (hop : op.isDivmod = true)
    (hs : (exprSigned T l && exprSigned T r) = true) : operandTarget T l r w ≤ 1024 := by
  unfold returnsAt at h
  dsimp only at h
  rw [Bool.and_assoc, hop, hs] at h
  exact of_decide_eq_true (Bool.and_eq_true _ _ ▸ h).2

/-! ## The pieces -/

theorem exists_extendTo {v : Value} (h : 0 < v.width) (s : Bool) (w : Nat) : ∃ r, extendTo s v w = some r := by
  cases s with
  | true => exact exists_signExtend h w
  | false => exact ⟨_, rfl⟩

theorem exists_widen {v : Value} (h : 0 < v.width) (s : Bool) (w : Nat) : ∃ r, widen s v w = some r := by
  unfold widen
  split
  · exact exists_extendTo h s w
  · exact ⟨_, rfl⟩

theorem exists_fit {v : Value} (h : 0 < v.width) (s : Bool) (w : Nat) : ∃ r, fit s v w = some r := by
  unfold fit
  split
  · exact exists_extendTo h s w
  · exact ⟨_, rfl⟩

theorem exists_align {v : Value} (h : 0 < v.width) (s : Bool) (w : Nat) : ∃ r, align s v w = some r := by
  unfold align
  split
  · exact exists_extendTo h s w
  · exact ⟨_, rfl⟩

theorem exists_fitOperand {T : SignalTable} {v : Value} (h : 0 < v.width) (e : Expr)
    (ov : Option Bool) (w : Nat) : ∃ r, fitOperand T e ov w v = some r := by
  unfold fitOperand
  split
  · exact exists_extendTo h _ _
  · exact ⟨_, rfl⟩

theorem exists_ashr {a : Value} (h : 0 < a.width) (b : Value) : ∃ r, ashr a b = some r := by
  unfold ashr
  split
  · exact ⟨_, rfl⟩
  split
  · exact ⟨_, rfl⟩
  split
  · split
    · exact ⟨_, rfl⟩
    split <;> exact ⟨_, rfl⟩
  · obtain ⟨e, he⟩ := exists_signExtend h (a.width + b.val)
    rw [he]
    exact ⟨_, rfl⟩

theorem exists_evalBinaryOp {a : Value} (h : 0 < a.width) (op : BinaryOp) (b : Value) :
    ∃ r, evalBinaryOp op a b = some r := by
  cases op
  case ashr => exact exists_ashr h b
  all_goals exact ⟨_, rfl⟩

theorem exists_asSigned {v : Value} (h : 0 < v.width) (hm : v.mask = 0) : ∃ n, v.asSigned = some n := by
  unfold asSigned
  rw [if_neg (by omega)]
  split <;> exact ⟨_, rfl⟩

/-- The two's complement reading of `w` bits is at most `2 ^ (w - 1)` in magnitude. -/
theorem natAbs_asSigned_le {v : Value} {n : Int} (h : v.asSigned = some n) : n.natAbs ≤ 2 ^ (v.width - 1) := by
  unfold asSigned at h
  split at h
  · cases h
  next hc =>
  rw [not_or] at hc
  have hhalf : 2 * 2 ^ (v.width - 1) = 2 ^ v.width := by
    rw [← Nat.pow_succ']
    congr 1
    omega
  have hlt := v.val_lt
  split at h
  · next hs =>
    rw [shiftRight_and_one_ne_zero] at hs
    have hge : 2 ^ (v.width - 1) ≤ v.val := Nat.ge_two_pow_of_testBit hs
    cases h
    have hcast : ((2 ^ v.width : Nat) : Int) = 2 ^ v.width := by push_cast; rfl
    omega
  · next hs =>
    cases h
    rw [Int.natAbs_natCast]
    rw [shiftRight_and_one_ne_zero, Bool.not_eq_true] at hs
    refine (Nat.lt_pow_two_of_testBit _ fun i hi => ?_).le
    rcases hi.eq_or_lt with rfl | hgt
    · exact hs
    · exact Nat.testBit_lt_two_pow (lt_of_lt_of_le hlt (Nat.pow_le_pow_right (by norm_num) (by omega)))

theorem asSigned_ne_zero {v : Value} {n : Int} (h : v.asSigned = some n) (hv : v.val ≠ 0) : n ≠ 0 := by
  rintro rfl
  exact hv (by exact_mod_cast Value.val_of_asSigned h le_rfl)

theorem exists_evalSignedCmp {a b : Value} (ha : 0 < a.width) (hb : 0 < b.width) (op : BinaryOp) :
    ∃ r, evalSignedCmp op a b = some r := by
  unfold evalSignedCmp
  split
  · exact ⟨_, rfl⟩
  next hm =>
  rw [not_or, not_not, not_not] at hm
  obtain ⟨m, hm'⟩ := exists_asSigned ha hm.1
  obtain ⟨n, hn⟩ := exists_asSigned hb hm.2
  rw [hm', hn]
  exact ⟨_, rfl⟩

theorem exists_evalSignedDivmod {a b : Value} (ha : 0 < a.width) (hb : 0 < b.width)
    (hw : a.width ≤ 1024) (op : BinaryOp) : ∃ r, evalSignedDivmod op a b = some r := by
  unfold evalSignedDivmod
  split
  · exact ⟨_, rfl⟩
  next hm =>
  rw [not_or, not_not, not_not] at hm
  split
  · exact ⟨_, rfl⟩
  next h0 =>
  obtain ⟨m, hm'⟩ := exists_asSigned ha hm.1
  obtain ⟨n, hn⟩ := exists_asSigned hb hm.2
  have hn0 := asSigned_ne_zero hn h0
  -- the dividend stays within the doubles
  have hle : m.natAbs ≤ 2 ^ 1023 :=
    (natAbs_asSigned_le hm').trans (Nat.pow_le_pow_right (by norm_num) (by omega))
  obtain ⟨q, hq⟩ := TrueDiv.exists_intTrueDiv hn0 hle
  rw [hm', hn]
  simp only [Option.bind_eq_bind, Option.bind_some, hq]
  split <;> exact ⟨_, rfl⟩

theorem exists_evalSignedPow {a b : Value} (ha : 0 < a.width) (hb : 0 < b.width) :
    ∃ r, evalSignedPow a b = some r := by
  unfold evalSignedPow
  dsimp only
  split
  · exact ⟨_, rfl⟩
  next hm =>
  rw [not_or, not_not, not_not] at hm
  obtain ⟨m, hm'⟩ := exists_asSigned ha hm.1
  obtain ⟨n, hn⟩ := exists_asSigned hb hm.2
  rw [hm', hn]
  exact ⟨_, rfl⟩

theorem exists_evalBinaryResult {a b : Value} (ha : 0 < a.width) (hb : 0 < b.width) (op : BinaryOp)
    {bs : Bool} (ss : Bool) (hw : op.isDivmod = true → bs = true → a.width ≤ 1024) :
    ∃ r, evalBinaryResult op bs ss a b = some r := by
  unfold evalBinaryResult
  split
  · exact exists_evalSignedCmp ha hb op
  split
  · next hc => exact exists_evalSignedDivmod ha hb (hw hc.1 hc.2) op
  split
  · exact exists_evalSignedPow ha hb
  split <;> exact exists_evalBinaryOp ha _ b

variable {T : SignalTable} {st : Store T}

theorem exists_indexInt {i : Expr} {index : Value} (again : Option Value) (hd : index.isDefined = true)
    (hw : 0 < index.width) (hle : selfWidth T i ≤ index.width) :
    ∃ n, indexInt T i index again = some n := by
  unfold indexInt
  split
  · exact ⟨_, rfl⟩
  rw [if_neg (Nat.not_lt.mpr hle)]
  exact exists_asSigned hw (isDefined_iff.mp hd)

theorem exists_selectBit (t : Expr) {i : Expr} (target : Value) {index : Value} (again : Option Value)
    (hw : 0 < index.width) (hle : selfWidth T i ≤ index.width) :
    ∃ r, selectBit T t target i index again = some r := by
  unfold selectBit
  split
  · next hd =>
    obtain ⟨n, hn⟩ := exists_indexInt again hd hw hle
    rw [hn]
    exact ⟨_, rfl⟩
  · exact ⟨_, rfl⟩

theorem exists_selectWord (st : Store T) (name : String) (ew d : Nat) {i : Expr} {index : Value}
    (again : Option Value) (hw : 0 < index.width) (hle : selfWidth T i ≤ index.width) :
    ∃ r, selectWord T st name ew d i index again = some r := by
  unfold selectWord
  split
  · next hd =>
    obtain ⟨n, hn⟩ := exists_indexInt again hd hw hle
    rw [hn]
    exact ⟨_, rfl⟩
  · exact ⟨_, rfl⟩

theorem exists_selectPart (t b : Expr) (target : Value) {base : Value} (partW : Value) (d : Direction)
    (hw : 0 < base.width) : ∃ r, selectPart T t target b base partW d = some r := by
  unfold selectPart
  split
  · unfold partBase
    split
    · rw [if_neg (by omega)]
      split <;> exact ⟨_, rfl⟩
    · exact ⟨_, rfl⟩
  · exact ⟨_, rfl⟩

theorem exists_shortCircuit (op : BinaryOp) (l : Value) {right : Option Value}
    (hr : ∃ r, right = some r) : ∃ r, shortCircuit op l right = some r := by
  unfold shortCircuit
  generalize (if (op == .logOr) = true then !l.knownOne else (l.val ||| l.mask) != 0) = undecided
  cases undecided with
  | true => exact hr
  | false => exact ⟨_, rfl⟩

/-! ## The whole evaluator -/

theorem Evaluable.legal {e : Expr} {w : Nat} (h : AllAt T (Evaluable T) e w) :
    AllAt T (fun e _ => Veriforge.legal T e = true) e w := h.imp fun _ _ h => h.1.1

theorem Evaluable.exactCore {e : Expr} {w : Nat} (h : AllAt T (Evaluable T) e w) :
    e.exactCore = true := exactCore_of_all (h.imp fun _ _ h => h.1)

/-- A value of an evaluable expression has a bit. -/
theorem evalRequest_width_pos {e : Expr} {q : Request} {v : Value} (h : evalRequest st e q = some v)
    (hl : AllAt T (Evaluable T) e (q.width T e)) : 0 < v.width := by
  by_cases hq : q.width T e = 0
  · rw [evalRequest_width_of_zero hq h (Evaluable.legal hl) (Evaluable.exactCore hl)]
    exact selfWidth_pos_of_returnsAt hl.self.2
  · exact lt_of_lt_of_le (Nat.pos_of_ne_zero hq) (evalRequest_width h (Evaluable.legal hl)).1

theorem exists_evalParts {es : List Expr}
    (h : ∀ e ∈ es, ∃ v, evalRequest st e (.context (selfWidth T e) none) = some v) :
    ∃ vs, evalParts st es = some vs := by
  induction es with
  | nil => exact ⟨[], rfl⟩
  | cons e es ih =>
    rw [List.forall_mem_cons] at h
    obtain ⟨v, hv⟩ := h.1
    obtain ⟨vs, hvs⟩ := ih h.2
    rw [evalParts, hv, hvs]
    exact ⟨_, rfl⟩

/-- A positive number of parts, each with a bit, make a value with a bit. -/
theorem concatValues_width_pos {es : List Expr} {vs : List Value} (hne : es.isEmpty = false)
    (h : evalParts st es = some vs)
    (hp : ∀ e ∈ es, ∀ v, evalRequest st e (.context (selfWidth T e) none) = some v → 0 < v.width) :
    0 < (concatValues vs).width := by
  cases es with
  | nil => cases hne
  | cons e es =>
    rw [evalParts] at h
    simp only [Option.bind_eq_bind, Option.bind_eq_some_iff] at h
    obtain ⟨v, hv, us, hus, h⟩ := h
    cases h
    rw [concatValues_width, List.map_cons, List.sum_cons]
    exact Nat.add_pos_left (hp e List.mem_cons_self v hv) _

/-- An evaluable expression evaluates, in every store. -/
theorem exists_evalRequest {e : Expr} {q : Request} (hl : AllAt T (Evaluable T) e (q.width T e)) :
    ∃ v, evalRequest st e q = some v := by
  induction e generalizing q with
  | ident hier n =>
    rw [evalRequest]
    cases hw : T.width (identifierName hier n) with
    | some w =>
      rw [Store.signal?_eq_some hw]
      have hpos := T.width_pos _ _ hw
      rw [← st.signal_width _ _ hw] at hpos
      exact exists_widen hpos _ _
    | none =>
      rw [Store.signal?, hw]
      cases hmem : T.memory (identifierName hier n) with
      | none =>
        have := hl.self.1.1
        rw [legal, SignalTable.isMemory, hw, hmem] at this
        cases this
      | some m =>
        obtain ⟨whole, hr, hwid⟩ := readWholeMemory_eq_some st hmem
        have hpos := selfWidth_pos_of_returnsAt hl.self.2
        rw [selfWidth] at hpos
        simp only [hw, hmem] at hpos
        rw [hr]
        exact exists_widen (by rw [hwid]; exact hpos) _ _
  | literal l =>
    have hpos := selfWidth_pos_of_returnsAt hl.self.2
    have hex : l.evalLiteral.width = l.selfWidth := beq_iff_eq.mp hl.self.1.2
    rw [selfWidth, ← hex] at hpos
    rw [evalRequest]
    split
    · split
      · exact ⟨_, rfl⟩
      · exact exists_extendTo hpos _ _
    · exact ⟨_, rfl⟩
  | string s => exact absurd hl.self.1.1 Bool.false_ne_true
  | unary op e ih =>
    rw [AllAt] at hl
    cases hc : op.contextDetermined with
    | true =>
      rw [hc, if_pos rfl] at hl
      obtain ⟨o, ho⟩ := ih (q := .context (q.width T (.unary op e)) q.signedOverride) hl.2
      obtain ⟨o', ho'⟩ := exists_fitOperand (evalRequest_width_pos ho hl.2) e q.signedOverride
        (q.width T (.unary op e))
      rw [evalRequest_unary_context hc, ho, Option.bind_some, ho']
      exact ⟨_, rfl⟩
    | false =>
      rw [hc, if_neg Bool.false_ne_true] at hl
      obtain ⟨o, ho⟩ := ih (q := .context _ none) hl.2
      rw [evalRequest_unary_self hc, ho, Option.bind_some]
      refine exists_widen ?_ _ _
      rw [evalUnaryOp_width, hc]
      exact Nat.one_pos
  | binary op l r ihl ihr =>
    rw [AllAt] at hl
    rcases op.sizing with hc | hc | hc | hc | hc
    · rw [operandWidths_logical _ _ _ hc] at hl
      obtain ⟨a, ha⟩ := ihl (q := .context _ none) hl.2.1
      obtain ⟨b, hb⟩ := ihr (q := .context _ none) hl.2.2
      obtain ⟨b', hb'⟩ := exists_shortCircuit op a ⟨b, hb⟩
      obtain ⟨u, hu⟩ := exists_evalBinaryOp (evalRequest_width_pos ha hl.2.1) op b'
      rw [evalRequest_logical hc, ha, Option.bind_some, hb', Option.bind_some, hu, Option.bind_some]
      refine exists_fit ?_ _ _
      rw [evalBinaryOp_width hu, resultWidth_logical _ _ hc]
      exact Nat.one_pos
    · rw [operandWidths_comparison _ _ _ hc] at hl
      obtain ⟨a, ha⟩ := ihl (q := .context _ (some (exprSigned T l && exprSigned T r))) hl.2.1
      obtain ⟨b, hb⟩ := ihr (q := .context _ (some (exprSigned T l && exprSigned T r))) hl.2.2
      have hpa := evalRequest_width_pos ha hl.2.1
      have hpb := evalRequest_width_pos hb hl.2.2
      obtain ⟨a', ha'⟩ := exists_widen hpa (exprSigned T l && exprSigned T r)
        (max (selfWidth T l) (selfWidth T r))
      obtain ⟨b', hb'⟩ := exists_widen hpb (exprSigned T l && exprSigned T r)
        (max (selfWidth T l) (selfWidth T r))
      have hna : op.isArithmetic = true → b'.width ≤ a'.width := by
        rw [BinaryOp.not_arithmetic_of_comparison hc]
        exact fun h => absurd h Bool.false_ne_true
      have hdiv : op.isDivmod = true → (exprSigned T l && exprSigned T r) = true → a'.width ≤ 1024 := by
        rw [BinaryOp.not_divmod_of_comparison hc]
        exact fun h => absurd h Bool.false_ne_true
      obtain ⟨u, hu⟩ := exists_evalBinaryResult (by rw [widen_width ha']; omega)
        (by rw [widen_width hb']; omega) op false hdiv
      rw [evalRequest_comparison hc, ha, Option.bind_some, hb, Option.bind_some, ha',
        Option.bind_some, hb', Option.bind_some, hu, Option.bind_some]
      refine exists_fit ?_ _ _
      rw [evalBinaryResult_width hu hna, resultWidth_comparison _ _ hc]
      exact Nat.one_pos
    · rw [operandWidths_shift _ _ _ hc] at hl
      obtain ⟨a, ha⟩ := ihl (q := .context _ (some (q.signedOverride.getD (exprSigned T l)))) hl.2.1
      obtain ⟨b, hb⟩ := ihr (q := .context _ none) hl.2.2
      have hpa := evalRequest_width_pos ha hl.2.1
      have hpb := evalRequest_width_pos hb hl.2.2
      obtain ⟨a', ha'⟩ := exists_widen hpa (q.signedOverride.getD (exprSigned T l))
        (shiftTarget T l (q.width T (.binary op l r)))
      have hna : op.isArithmetic = true → b.width ≤ a'.width := by
        rw [BinaryOp.not_arithmetic_of_shift hc]
        exact fun h => absurd h Bool.false_ne_true
      have hdiv : op.isDivmod = true → (exprSigned T l && exprSigned T r) = true → a'.width ≤ 1024 := by
        rw [BinaryOp.not_divmod_of_shift hc]
        exact fun h => absurd h Bool.false_ne_true
      obtain ⟨u, hu⟩ := exists_evalBinaryResult (by rw [widen_width ha']; omega) hpb op
        (q.signedOverride.getD (exprSigned T l)) hdiv
      rw [evalRequest_shift hc, ha, Option.bind_some, ha', Option.bind_some, hb, Option.bind_some,
        hu, Option.bind_some]
      refine exists_fit ?_ _ _
      rw [evalBinaryResult_width hu hna, resultWidth_shift _ _ hc, widen_width ha']
      omega
    · rw [operandWidths_bitwise _ _ _ hc] at hl
      obtain ⟨a, ha⟩ := ihl
        (q := .context _ (some (q.signedOverride.getD (exprSigned T l && exprSigned T r)))) hl.2.1
      obtain ⟨b, hb⟩ := ihr
        (q := .context _ (some (q.signedOverride.getD (exprSigned T l && exprSigned T r)))) hl.2.2
      have hpa := evalRequest_width_pos ha hl.2.1
      have hpb := evalRequest_width_pos hb hl.2.2
      obtain ⟨a', ha'⟩ := exists_align hpa (q.signedOverride.getD (exprSigned T l && exprSigned T r))
        (operandTarget T l r (q.width T (.binary op l r)))
      obtain ⟨b', hb'⟩ := exists_align hpb (q.signedOverride.getD (exprSigned T l && exprSigned T r))
        (operandTarget T l r (q.width T (.binary op l r)))
      have hpos : 0 < operandTarget T l r (q.width T (.binary op l r)) := by
        have := evalRequest_width ha (Evaluable.legal hl.2.1)
        rw [Request.width_context] at this
        unfold operandTarget at *
        omega
      obtain ⟨u, hu⟩ := exists_evalBinaryOp (a := a') (by rw [align_width ha']; exact hpos) op b'
      rw [evalRequest_bitwise hc, ha, Option.bind_some, hb, Option.bind_some, ha',
        Option.bind_some, hb', Option.bind_some, hu, Option.bind_some]
      refine exists_fit ?_ _ _
      rw [evalBinaryOp_width hu, resultWidth_bitwise _ _ hc, align_width ha']
      omega
    · rw [operandWidths_arithmetic _ _ _ hc] at hl
      obtain ⟨a, ha⟩ := ihl
        (q := .context _ (some (q.signedOverride.getD (exprSigned T l && exprSigned T r)))) hl.2.1
      obtain ⟨b, hb⟩ := ihr
        (q := .context _ (some (q.signedOverride.getD (exprSigned T l && exprSigned T r)))) hl.2.2
      have hpa := evalRequest_width_pos ha hl.2.1
      have hpb := evalRequest_width_pos hb hl.2.2
      obtain ⟨a', ha'⟩ := exists_widen hpa (q.signedOverride.getD (exprSigned T l && exprSigned T r))
        (operandTarget T l r (q.width T (.binary op l r)))
      obtain ⟨b', hb'⟩ := exists_widen hpb (q.signedOverride.getD (exprSigned T l && exprSigned T r))
        (operandTarget T l r (q.width T (.binary op l r)))
      have hwa := evalRequest_width ha (Evaluable.legal hl.2.1)
      have hwb := evalRequest_width hb (Evaluable.legal hl.2.2)
      rw [Request.width_context] at hwa hwb
      have hta : a'.width = operandTarget T l r (q.width T (.binary op l r)) := by
        rw [widen_width ha']
        unfold operandTarget at *
        omega
      have htb : b'.width = operandTarget T l r (q.width T (.binary op l r)) := by
        rw [widen_width hb']
        unfold operandTarget at *
        omega
      have hdiv : op.isDivmod = true → (exprSigned T l && exprSigned T r) = true →
          a'.width ≤ 1024 := fun hop hbs => by
        rw [hta]
        exact target_le_of_returnsAt hl.1.2 hop hbs
      obtain ⟨u, hu⟩ := exists_evalBinaryResult (a := a') (b := b') (by rw [widen_width ha']; omega)
        (by rw [widen_width hb']; omega) op false hdiv
      rw [evalRequest_arithmetic hc, ha, Option.bind_some, hb, Option.bind_some, ha',
        Option.bind_some, hb', Option.bind_some, hu, Option.bind_some]
      refine exists_fit ?_ _ _
      rw [evalBinaryResult_width hu (fun _ => by omega), resultWidth_arithmetic _ _ hc, widen_width ha']
      omega
  | ternary c t f ihc iht ihf =>
    rw [AllAt] at hl
    obtain ⟨a, ha⟩ := ihc (q := .context _ none) hl.2.1
    obtain ⟨x, hx⟩ := iht (q := .context _ (some (q.signedOverride.getD
      (exprSigned T (.ternary c t f))))) hl.2.2.1
    obtain ⟨y, hy⟩ := ihf (q := .context _ (some (q.signedOverride.getD
      (exprSigned T (.ternary c t f))))) hl.2.2.2
    rw [evalRequest]
    simp only [Option.bind_eq_bind, ha, hx, hy, Option.bind_some]
    split
    · split <;> exact ⟨_, rfl⟩
    · exact ⟨_, rfl⟩
  | concat b ps ih =>
    rw [AllAt, allPartsAt_iff] at hl
    have hne : ps.isEmpty = false := by
      have := hl.1.1.1
      rw [legal, Bool.not_eq_true'] at this
      exact this
    have hparts : ∀ p ∈ ps, ∃ v, evalRequest st p (.context (selfWidth T p) none) = some v :=
      fun p hp => ih p hp (q := .context _ none) (hl.2 p hp)
    obtain ⟨vs, hvs⟩ := exists_evalParts hparts
    have hpos := concatValues_width_pos hne hvs fun p hp v hv =>
      evalRequest_width_pos hv (hl.2 p hp)
    rw [evalRequest]
    simp only [Option.bind_eq_bind, hvs, Option.bind_some, hne, Bool.false_eq_true, if_false]
    exact exists_widen hpos _ _
  | replicate c v ihc ihv =>
    obtain ⟨l, n, rfl, hd, hn⟩ := legal_replicate hl.self.1.1
    have hself := selfWidth_pos_of_returnsAt hl.self.2
    rw [AllAt] at hl
    obtain ⟨b, hb⟩ := ihv (q := .context _ none) hl.2.2
    have hbpos := evalRequest_width_pos hb hl.2.2
    have hval := Literal.val_of_denoted hd hn
    have hcount : 0 < l.evalLiteral.val := by
      rw [selfWidth, (Literal.denoted_eq_some hd).1, Option.getD_some, ← hval, Int.toNat_natCast] at hself
      exact Nat.pos_of_mul_pos_right hself
    rw [evalRequest]
    simp only [Option.bind_eq_bind, evalRequest_literal_zero, hb, Option.bind_some,
      (Literal.denoted_eq_some hd).2.2.1, if_true]
    exact exists_widen (by rw [replicate_width]; exact Nat.mul_pos hbpos hcount) _ _
  | streaming ps ih => exact absurd hl.self.1.1 Bool.false_ne_true
  | streamingBy s ps ihs ih => exact absurd hl.self.1.1 Bool.false_ne_true
  | bitSelect t i iht ihi =>
    rw [AllAt] at hl
    obtain ⟨a, ha⟩ := ihi (q := .context _ none) hl.2.2.1
    have hpa := evalRequest_width_pos ha hl.2.2.1
    have hwa := evalRequest_width_of_zero rfl ha (Evaluable.legal hl.2.2.1)
      (Evaluable.exactCore hl.2.2.1)
    rw [evalRequest]
    cases hm : memoryTarget? T t with
    | some m =>
      obtain ⟨name, ew, d⟩ := m
      obtain ⟨u, hu⟩ := exists_selectWord st name ew d
        (evalRequest st i (.context (selfWidth T i) (some true))) hpa hwa.ge
      simp only [Option.bind_eq_bind, ha, Option.bind_some, hu]
      refine exists_widen ?_ _ _
      rw [selectWord_width (memoryTarget?_eq_some hm).2 hu]
      exact T.memory_pos _ _ _ (memoryTarget?_eq_some hm).2
    | none =>
      obtain ⟨x, hx⟩ := iht (q := .context _ none) (hl.2.1 hm)
      obtain ⟨u, hu⟩ := exists_selectBit t x
        (evalRequest st i (.context (selfWidth T i) (some true))) hpa hwa.ge
      simp only [Option.bind_eq_bind, hx, ha, Option.bind_some, hu]
      refine exists_widen ?_ _ _
      rw [selectBit_width hu]
      exact Nat.one_pos
  | rangeSelect t m l iht ihm ihl =>
    obtain ⟨m', l', mi, li, rfl, rfl, hm, hl', hle⟩ := legal_rangeSelect hl.self.1.1
    rw [AllAt] at hl
    obtain ⟨x, hx⟩ := iht (q := .context _ none) hl.2.1
    obtain ⟨u, hu⟩ : ∃ u, selectRange T t x (.literal m') m'.evalLiteral
        (evalRequest st (.literal m') (.context (selfWidth T (.literal m')) (some true)))
        (.literal l') l'.evalLiteral
        (evalRequest st (.literal l') (.context (selfWidth T (.literal l')) (some true))) = some u := by
      unfold selectRange
      rw [if_pos ⟨(Literal.denoted_eq_some hm).2.2.1, (Literal.denoted_eq_some hl').2.2.1⟩,
        indexInt_literal hm, indexInt_literal hl']
      exact ⟨_, rfl⟩
    rw [evalRequest]
    simp only [Option.bind_eq_bind, hx, evalRequest_literal_zero, Option.bind_some, hu]
    refine exists_widen ?_ _ _
    rw [selectRange_width hm hl' hle hu]
    omega
  | partSelect t b w d iht ihb ihw =>
    obtain ⟨l, n, rfl, hd, hn⟩ := legal_partSelect hl.self.1.1
    have hval := Literal.val_of_denoted hd hn.le
    rw [AllAt] at hl
    obtain ⟨x, hx⟩ := iht (q := .context _ none) hl.2.1
    obtain ⟨a, ha⟩ := ihb (q := .context _ none) hl.2.2.1.1
    obtain ⟨u, hu⟩ := exists_selectPart (T := T) t b x l.evalLiteral d
      (evalRequest_width_pos ha hl.2.2.1.1)
    rw [evalRequest]
    simp only [Option.bind_eq_bind, hx, ha, evalRequest_literal_zero, Option.bind_some, hu]
    refine exists_widen ?_ _ _
    rw [selectPart_width (Literal.denoted_eq_some hd).2.2.1 (by omega) hu]
    omega
  | cast s a ih =>
    rw [AllAt] at hl
    obtain ⟨r, hr⟩ := ih (q := .inner) hl.2
    cases q with
    | inner =>
      rw [evalRequest]
      exact ⟨r, hr⟩
    | context w ov =>
      rw [evalRequest, hr]
      exact exists_widen (evalRequest_width_pos hr hl.2) _ _
  | call f as ih => exact absurd hl.self.1.1 Bool.false_ne_true

end Veriforge

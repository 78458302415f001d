import Veriforge.Sim.Narrow

/-! # The two-phase sizing rule

The reference semantics of an expression at a width and a signedness that were fixed beforehand, from the
whole expression and the target it is assigned to. Leaves are evaluated on their own and extended, and
context-determined operators hand the width and the signedness down unchanged. `eval` finds its widths on
the way; on what it is asked for it agrees. -/

namespace Veriforge

open Value

variable {T : SignalTable} (st : Store T)

/-- A literal's value at `n` bits. With `fill` an unsized `x` or `z` literal is filled with unknown bits,
without it is extended like any other leaf. -/
def Literal.extended (fill : Bool) (l : Literal) (s : Bool) (n : Nat) : Option Value :=
  if fill && isUnsizedXz l.originalText then
    some (init l.evalLiteral.val n
      (l.evalLiteral.mask ||| (maskForWidth n ^^^ maskForWidth l.evalLiteral.width)))
  else extendTo s l.evalLiteral n

mutual

/-- The value of an expression computed at `n` bits, signed when `s`. A self-determined operand is computed
at its own width and signedness. -/
def reference (fill : Bool) : Expr → Nat → Bool → Option Value
  | .ident h nm, n, s =>
      match st.signal? (identifierName h nm) with
      | some v => extendTo s v n
      | none =>
          match st.readWholeMemory (identifierName h nm) with
          | some v => extendTo s v n
          | none => extendTo s (x 1) n
  | .literal l, n, s => l.extended fill s n
  | .unary op e, n, s =>
      if op.contextDetermined then (reference fill e n s).map (evalUnaryOp op)
      else do
        let v ← reference fill e (selfWidth T e) (exprSigned T e)
        extendTo s (evalUnaryOp op v) n
  | .binary op l r, n, s =>
      if op.isLogical then do
        let a ← reference fill l (selfWidth T l) (exprSigned T l)
        let b ← shortCircuit op a (reference fill r (selfWidth T r) (exprSigned T r))
        let u ← evalBinaryOp op a b
        extendTo s u n
      else if op.isComparison then do
        -- the operands of a comparison are sized and signed among themselves
        let m := max (selfWidth T l) (selfWidth T r)
        let both := exprSigned T l && exprSigned T r
        let a ← reference fill l m both
        let b ← reference fill r m both
        let u ← evalBinaryResult op both both a b
        extendTo s u n
      else if op.isShift then do
        let a ← reference fill l n s
        let b ← reference fill r (selfWidth T r) (exprSigned T r)
        evalBinaryResult op s s a b
      else do
        let a ← reference fill l n s
        let b ← reference fill r n s
        evalBinaryResult op s s a b
  | .ternary c t f, n, s => do
      let cond ← reference fill c (selfWidth T c) (exprSigned T c)
      let cond := cond.reduceOr
      if cond.isDefined then
        if cond.val ≠ 0 then reference fill t n s else reference fill f n s
      else do
        let t ← reference fill t n s
        let f ← reference fill f n s
        return mergeXz t f
  | .concat _ ps, n, s => do
      let vs ← referenceParts fill ps
      extendTo s (concatValues vs) n
  | .replicate c v, n, s => do
      let count ← reference fill c (selfWidth T c) (exprSigned T c)
      let inner ← reference fill v (selfWidth T v) (exprSigned T v)
      extendTo s (if count.isDefined then inner.replicate count.val else x inner.width) n
  | .bitSelect t i, n, s =>
      match memoryTarget? T t with
      | some (name, ew, depth) => do
          let index ← reference fill i (selfWidth T i) (exprSigned T i)
          let u ← selectWord T st name ew depth i index (some index)
          extendTo s u n
      | none => do
          let target ← reference fill t (selfWidth T t) (exprSigned T t)
          let index ← reference fill i (selfWidth T i) (exprSigned T i)
          let u ← selectBit T t target i index (some index)
          extendTo s u n
  | .rangeSelect t m l, n, s => do
      let target ← reference fill t (selfWidth T t) (exprSigned T t)
      let msb ← reference fill m (selfWidth T m) (exprSigned T m)
      let lsb ← reference fill l (selfWidth T l) (exprSigned T l)
      let u ← selectRange T t target m msb (some msb) l lsb (some lsb)
      extendTo s u n
  | .partSelect t b w d, n, s => do
      let target ← reference fill t (selfWidth T t) (exprSigned T t)
      let base ← reference fill b (selfWidth T b) (exprSigned T b)
      let partW ← reference fill w (selfWidth T w) (exprSigned T w)
      let u ← selectPart T t target b base partW d
      extendTo s u n
  | .cast _ a, n, s => do
      let v ← reference fill a (selfWidth T a) (exprSigned T a)
      extendTo s v n
  | .string _, _, _ | .streaming _, _, _ | .streamingBy _ _, _, _ | .call _ _, _, _ => none

/-- Concatenated parts, each on its own. -/
def referenceParts (fill : Bool) : List Expr → Option (List Value)
  | [] => some []
  | e :: es => do
      let v ← reference fill e (selfWidth T e) (exprSigned T e)
      let vs ← referenceParts fill es
      return v :: vs

end

section

-- derived here once, not by every proof
attribute [local simp] reference

end

/-! ## The expressions it is stated for -/

/-- Division, remainder and power follow their operands' signedness, not the context's. -/
def contextSigned : Expr → Bool
  | .binary op _ _ => !op.isDivmod && op != .pow
  | _ => true

/-- The node is sized by the rule: it is legal, its operator is signed by its context, and a literal
evaluated at no width has the width it is counted with. -/
structure Sizable (T : SignalTable) (e : Expr) (w : Nat) : Prop where
  legal : legal T e = true
  operator : contextSigned e = true
  fill : exactFill e = true
  core : w = 0 → e.exactCore = true
  negates : negatesCut T e w = false

variable {st}

theorem Sizable.allLegal {e : Expr} {w : Nat} (h : AllAt T (Sizable T) e w) :
    AllAt T (fun e _ => Veriforge.legal T e = true) e w := h.imp fun _ _ h => h.legal

theorem negatesCut_self (e : Expr) : negatesCut T e (selfWidth T e) = false := by
  unfold negatesCut
  split
  · next e =>
    have hself : selfWidth T (.unary .minus e) = selfWidth T e := rfl
    rw [hself, decide_eq_false (lt_irrefl _), Bool.and_false]
    rfl
  · rfl

theorem Sizable.own {e : Expr} {w : Nat} (hw : w ≤ selfWidth T e) (h : Sizable T e w) :
    Sizable T e (selfWidth T e) where
  legal := h.legal
  operator := h.operator
  fill := h.fill
  core := fun h0 => h.core (by omega)
  negates := negatesCut_self e

theorem Sizable.all_own {e : Expr} {w : Nat} (hw : w ≤ selfWidth T e)
    (h : AllAt T (Sizable T) e w) : AllAt T (Sizable T) e (selfWidth T e) :=
  h.of_le hw le_rfl (fun _ he hs => by
    rw [← he]
    exact hs.own (he ▸ hw)) rfl

/-! ## Leaves -/

theorem widen_eq_extendTo {s : Bool} {v : Value} {w : Nat} (h : v.width ≤ w) : widen s v w = extendTo s v w := by
  rw [widen]
  split
  · rfl
  · rw [extendTo_of_width (by omega)]

/-- A leaf is evaluated at no width and extended to the one asked for. -/
theorem evalRequest_leaf {e : Expr} (hs : e.selfDetermined = true)
    (hl : AllAt T (fun e _ => legal T e = true) e 0) (hx : e.exactCore = true) {n : Nat}
    (hn : selfWidth T e ≤ n) (s : Bool) :
    evalRequest st e (.context n (some s))
      = (evalRequest st e (.context 0 (some s))).bind fun v => extendTo s v n := by
  rw [evalRequest_selfDetermined hs hl.self]
  refine Option.bind_congr fun v hv => widen_eq_extendTo ?_
  rw [evalRequest_width_of_none hv hl hx]
  exact hn

theorem evalRequest_literal {l : Literal} {n : Nat} (hl : legal T (.literal l) = true)
    (hn : l.selfWidth ≤ n) (s : Bool) :
    evalRequest st (.literal l) (.context n (some s)) = l.extended true s n := by
  have hle : l.evalLiteral.width ≤ l.selfWidth := of_decide_eq_true hl
  rw [evalRequest, Request.width_context, Literal.extended, Bool.true_and]
  by_cases hlt : l.evalLiteral.width < n
  · rw [if_pos hlt]
    rfl
  · have hw : l.evalLiteral.width = n := by omega
    rw [if_neg hlt]
    split
    · -- nothing is filled
      rw [hw, Nat.xor_self, Nat.or_zero]
      exact congrArg some (resize_of_width hw).symm
    · exact (extendTo_of_width hw).symm

/-! ## Agreement at the expression's own width or more -/

/-- The evaluator agrees with the reference on `e`, at every width no less than its own. -/
def Agrees (st : Store T) (e : Expr) : Prop := ∀ (n : Nat) (s : Bool), selfWidth T e ≤ n →
  AllAt T (Sizable T) e n → evalRequest st e (.context n (some s)) = reference st true e n s

theorem Agrees.own {e : Expr} (h : Agrees st e) (hl : AllAt T (Sizable T) e (selfWidth T e)) :
    evalRequest st e (.context (selfWidth T e) none)
      = reference st true e (selfWidth T e) (exprSigned T e) := by
  rw [evalRequest_signed]
  exact h _ _ le_rfl hl

theorem Agrees.unsized {e : Expr} (h : Agrees st e) (hl : AllAt T (Sizable T) e 0) :
    evalRequest st e (.context 0 none) = reference st true e (selfWidth T e) (exprSigned T e) := by
  rw [evalRequest_none (Sizable.allLegal hl) (hl.self.core rfl)]
  exact h.own (Sizable.all_own (Nat.zero_le _) hl)

theorem Agrees.inner {e : Expr} (h : Agrees st e) (hl : AllAt T (Sizable T) e (selfWidth T e)) :
    evalRequest st e .inner = reference st true e (selfWidth T e) (exprSigned T e) := by
  rw [evalRequest_inner, ← h.own hl]
  cases e
  case cast s a =>
    exact evalRequest_none ((Sizable.allLegal hl).width 0) rfl none
  all_goals rfl

theorem agrees_unary {op : UnaryOp} {e : Expr} (ih : Agrees st e) : Agrees st (.unary op e) := by
  intro n s hn hl
  rw [AllAt] at hl
  cases hc : op.contextDetermined with
  | true =>
    rw [selfWidth, hc, if_pos rfl] at hn
    rw [hc, if_pos rfl] at hl
    rw [evalRequest_unary_sized hc _ (Sizable.allLegal hl.2) (Or.inr hn), ih n s hn hl.2, reference, if_pos hc]
  | false =>
    rw [selfWidth, hc, if_neg Bool.false_ne_true] at hn
    rw [hc, if_neg Bool.false_ne_true] at hl
    rw [evalRequest_unary_self hc, ih.own hl.2, reference, hc, if_neg Bool.false_ne_true]
    refine Option.bind_congr fun v _ => ?_
    refine widen_eq_extendTo ?_
    rw [evalUnaryOp_width, hc]
    exact hn

theorem fit_eq_extendTo {s : Bool} {v : Value} {n : Nat} (h : n = 0 → v.width = 0) : fit s v n = extendTo s v n := by
  rw [fit]
  split
  · rfl
  · next hc =>
    rw [extendTo_of_width]
    by_contra hne
    exact hc ⟨fun h0 => hne (by rw [h h0, h0]), hne⟩

/-- Where the context signs the operator, the operands' signedness does not show. -/
theorem evalBinaryResult_context {op : BinaryOp} {l r : Expr}
    (hd : contextSigned (.binary op l r) = true) (ho : op.isOrdering = false) (bs s : Bool)
    (a b : Value) : evalBinaryResult op bs s a b = evalBinaryResult op s s a b := by
  cases op <;> first | rfl | exact Bool.noConfusion ho | exact Bool.noConfusion hd

/-- Only `>>>` looks at the signedness it is handed. -/
theorem evalBinaryResult_unsigned {op : BinaryOp}
    (hc : op.isBitwise = true ∨ op.isArithmetic = true ∨ op.isComparison = true) (bs s s' : Bool)
    (a b : Value) : evalBinaryResult op bs s a b = evalBinaryResult op bs s' a b := by
  rcases hc with hc | hc | hc <;> cases op <;> first | rfl | cases hc

theorem agrees_logical {op : BinaryOp} (hc : op.isLogical = true) {l r : Expr} (ihl : Agrees st l)
    (ihr : Agrees st r) : Agrees st (.binary op l r) := by
  intro n s hn hl
  rw [selfWidth_binary, resultWidth_logical _ _ hc] at hn
  rw [AllAt, operandWidths_logical _ _ _ hc] at hl
  rw [evalRequest_logical hc, ihl.unsized hl.2.1, ihr.unsized hl.2.2, reference, hc, if_pos rfl]
  refine Option.bind_congr fun a _ => Option.bind_congr fun b _ => Option.bind_congr fun u _ => ?_
  show fit s u n = extendTo s u n
  exact fit_eq_extendTo (by omega)

theorem agrees_comparison {op : BinaryOp} (hc : op.isComparison = true) {l r : Expr}
    (ihl : Agrees st l) (ihr : Agrees st r) : Agrees st (.binary op l r) := by
  intro n s hn hl
  rw [selfWidth_binary, resultWidth_comparison _ _ hc] at hn
  have hlog : op.isLogical = false := by cases op <;> first | rfl | cases hc
  rw [evalRequest_comparison_sized hc _ (Sizable.allLegal hl), reference, hlog,
    if_neg Bool.false_ne_true, hc, if_pos rfl]
  rw [AllAt, operandWidths_comparison _ _ _ hc] at hl
  rw [ihl _ _ (le_max_left _ _) hl.2.1, ihr _ _ (le_max_right _ _) hl.2.2]
  refine Option.bind_congr fun a _ => Option.bind_congr fun b _ => ?_
  rw [evalBinaryResult_unsigned (Or.inr (Or.inr hc))]
  exact Option.bind_congr fun u _ => fit_eq_extendTo (by omega)

theorem agrees_shift {op : BinaryOp} (hc : op.isShift = true) {l r : Expr} (ihl : Agrees st l)
    (ihr : Agrees st r) : Agrees st (.binary op l r) := by
  intro n s hn hl
  have hsh : (op.isShift || op == .pow) = true := by rw [hc, Bool.true_or]
  have hpow : (op == .pow) = false := by cases op <;> first | rfl | cases hc
  have hlog : op.isLogical = false := by cases op <;> first | rfl | cases hc
  have hcmp : op.isComparison = false := by cases op <;> first | rfl | cases hc
  have hord : op.isOrdering = false := by cases op <;> first | rfl | cases hc
  have hd := hl.self.operator
  rw [selfWidth_binary, resultWidth_shift _ _ hsh] at hn
  have ht : shiftTarget T l n = n := by
    unfold shiftTarget
    split <;> omega
  rw [evalRequest_shift_sized hsh _ (Sizable.allLegal hl), ht, reference, hlog,
    if_neg Bool.false_ne_true, hcmp, if_neg Bool.false_ne_true, hc, if_pos rfl, hpow,
    if_neg Bool.false_ne_true]
  rw [AllAt, operandWidths_shift _ _ _ hsh, ht, hpow, if_neg Bool.false_ne_true] at hl
  rw [ihr.unsized hl.2.2, Option.getD_some]
  have hwid : ∀ a, reference st true l n s = some a → a.width = n := fun a ha =>
    evalRequest_width_of_le ((ihl n s hn hl.2.1).trans ha) (Sizable.allLegal hl.2.1) hn
  rw [ihl n s hn hl.2.1]
  refine Option.bind_congr fun a ha => Option.bind_congr fun b _ => ?_
  rw [evalBinaryResult_context hd hord]
  refine bind_fit_of_width fun u hu => Or.inr ?_
  rw [evalBinaryResult_width_of_shift hsh hu, hwid a ha]

theorem agrees_operands {op : BinaryOp} (hc : op.isBitwise = true ∨ op.isArithmetic = true)
    {l r : Expr} (ihl : Agrees st l) (ihr : Agrees st r) : Agrees st (.binary op l r) := by
  intro n s hn hl
  have hplain : op.isLogical = false ∧ op.isComparison = false ∧ op.isShift = false ∧ op.isOrdering = false := by
    rcases hc with hc | hc <;> cases op <;> first | decide | cases hc
  have hd := hl.self.operator
  rw [selfWidth_binary] at hn
  have hn' : max (selfWidth T l) (selfWidth T r) ≤ n :=
    hc.elim (fun hc => (resultWidth_bitwise _ _ hc).symm.trans_le hn)
      fun hc => (resultWidth_arithmetic _ _ hc).symm.trans_le hn
  have ht : operandTarget T l r n = n := Nat.max_eq_left hn'
  rw [evalRequest_operands_sized hc _ (Sizable.allLegal hl), ht, reference, hplain.1,
    if_neg Bool.false_ne_true, hplain.2.1, if_neg Bool.false_ne_true, hplain.2.2.1,
    if_neg Bool.false_ne_true, Option.getD_some]
  rw [AllAt, operandWidths_operands hc, ht] at hl
  have hnl : selfWidth T l ≤ n := (le_max_left _ _).trans hn'
  have hnr : selfWidth T r ≤ n := (le_max_right _ _).trans hn'
  rw [← ihl n s hnl hl.2.1, ← ihr n s hnr hl.2.2]
  refine Option.bind_congr fun a ha => Option.bind_congr fun b hb => ?_
  rw [evalBinaryResult_unsigned (hc.imp_right Or.inl) _ _ s, evalBinaryResult_context hd hplain.2.2.2]
  refine bind_fit_of_width fun u hu => Or.inr ?_
  have hwa := evalRequest_width_of_le ha (Sizable.allLegal hl.2.1) hnl
  have hwb := evalRequest_width_of_le hb (Sizable.allLegal hl.2.2) hnr
  rw [evalBinaryResult_width_of_eq hc (hwb.trans hwa.symm) hu, hwa]

theorem agrees_ternary {c t f : Expr} (ihc : Agrees st c) (iht : Agrees st t) (ihf : Agrees st f) :
    Agrees st (.ternary c t f) := by
  intro n s hn hl
  rw [selfWidth] at hn
  rw [AllAt, Nat.max_eq_left hn] at hl
  have hnt : selfWidth T t ≤ n := (le_max_left _ _).trans hn
  have hnf : selfWidth T f ≤ n := (le_max_right _ _).trans hn
  rw [evalRequest, Request.width_context, Nat.max_eq_left hn, Request.signedOverride_context,
    Option.getD_some, ihc.own hl.2.1, reference]
  dsimp only
  rw [iht n s hnt hl.2.2.1, ihf n s hnf hl.2.2.2]

theorem evalParts_reference {ps : List Expr} (ih : ∀ p ∈ ps, Agrees st p)
    (hl : AllPartsAt T (Sizable T) ps) : evalParts st ps = referenceParts st true ps := by
  induction ps with
  | nil => rfl
  | cons p ps ihps =>
    rw [AllPartsAt] at hl
    rw [evalParts, referenceParts, (ih p List.mem_cons_self).own hl.1,
      ihps (fun q hq => ih q (List.mem_cons_of_mem p hq)) hl.2]

theorem agrees_concat {b : Bool} {ps : List Expr} (ih : ∀ p ∈ ps, Agrees st p) : Agrees st (.concat b ps) := by
  intro n s hn hl
  have hne : ps.isEmpty = false := by
    have hlegal := hl.self.legal
    rw [legal, Bool.not_eq_true'] at hlegal
    exact hlegal
  rw [evalRequest_leaf rfl ((Sizable.allLegal hl).width 0) rfl hn, evalRequest, reference]
  rw [AllAt] at hl
  rw [evalParts_reference ih hl.2]
  simp [hne, Option.bind_assoc]

theorem agrees_replicate {c v : Expr} (ihc : Agrees st c) (ihv : Agrees st v) : Agrees st (.replicate c v) := by
  intro n s hn hl
  rw [evalRequest_leaf rfl ((Sizable.allLegal hl).width 0) rfl hn, evalRequest, reference]
  rw [AllAt] at hl
  rw [ihc.unsized hl.2.1, ihv.own hl.2.2]
  simp [Option.bind_assoc]

/-- An index of its own width is not read again. -/
theorem indexInt_own {i : Expr} {v : Value} (hv : v.width = selfWidth T i) (again : Option Value) :
    indexInt T i v again = indexInt T i v (some v) := by
  simp only [indexInt, hv, lt_irrefl, if_false]

theorem agrees_bitSelect {t i : Expr} (iht : Agrees st t) (ihi : Agrees st i) : Agrees st (.bitSelect t i) := by
  intro n s hn hl
  rw [evalRequest_leaf rfl ((Sizable.allLegal hl).width 0) rfl hn, evalRequest, reference]
  rw [AllAt] at hl
  have hwid : ∀ v, reference st true i (selfWidth T i) (exprSigned T i) = some v →
      v.width = selfWidth T i := fun v hv =>
    evalRequest_width_of_le ((ihi.own hl.2.2.2).trans hv) (Sizable.allLegal hl.2.2.2) le_rfl
  cases hm : memoryTarget? T t with
  | some m =>
    obtain ⟨name, ew, depth⟩ := m
    dsimp only
    rw [ihi.unsized hl.2.2.1]
    simp only [Request.width_context, widen_zero, Option.bind_eq_bind, Option.bind_assoc]
    refine Option.bind_congr fun v hv => ?_
    rw [selectWord, selectWord, indexInt_own (hwid v hv)]
    simp
  | none =>
    dsimp only
    rw [ihi.unsized hl.2.2.1, iht.unsized (hl.2.1 hm)]
    simp only [Request.width_context, widen_zero, Option.bind_eq_bind, Option.bind_assoc]
    refine Option.bind_congr fun u _ => Option.bind_congr fun v hv => ?_
    rw [selectBit, selectBit, indexInt_own (hwid v hv)]
    simp

theorem agrees_rangeSelect {t m l : Expr} (iht : Agrees st t) (ihm : Agrees st m)
    (ihl : Agrees st l) : Agrees st (.rangeSelect t m l) := by
  intro n s hn hl
  rw [evalRequest_leaf rfl ((Sizable.allLegal hl).width 0) rfl hn, evalRequest, reference]
  rw [AllAt] at hl
  have hwid : ∀ {i : Expr}, Agrees st i → AllAt T (Sizable T) i (selfWidth T i) → ∀ v,
      reference st true i (selfWidth T i) (exprSigned T i) = some v → v.width = selfWidth T i :=
    fun ih hi v hv => evalRequest_width_of_le ((ih.own hi).trans hv) (Sizable.allLegal hi) le_rfl
  rw [iht.unsized hl.2.1, ihm.unsized hl.2.2.1.1, ihl.unsized hl.2.2.2.1]
  simp only [Request.width_context, widen_zero, Option.bind_eq_bind, Option.bind_assoc]
  refine Option.bind_congr fun u _ => Option.bind_congr fun v hv => Option.bind_congr fun v' hv' => ?_
  rw [selectRange, selectRange, indexInt_own (hwid ihm hl.2.2.1.2 v hv), indexInt_own (hwid ihl hl.2.2.2.2 v' hv')]
  simp

theorem agrees_partSelect {t b w : Expr} {d : Direction} (iht : Agrees st t) (ihb : Agrees st b)
    (ihw : Agrees st w) : Agrees st (.partSelect t b w d) := by
  intro n s hn hl
  rw [evalRequest_leaf rfl ((Sizable.allLegal hl).width 0) rfl hn, evalRequest, reference]
  rw [AllAt] at hl
  rw [iht.unsized hl.2.1, ihb.unsized hl.2.2.1.1, ihw.unsized hl.2.2.2]
  simp [Option.bind_assoc]

theorem agrees_cast {s' : Bool} {a : Expr} (ih : Agrees st a) : Agrees st (.cast s' a) := by
  intro n s hn hl
  rw [evalRequest_leaf rfl ((Sizable.allLegal hl).width 0) rfl hn, evalRequest, reference]
  rw [AllAt] at hl
  rw [ih.inner hl.2]
  simp [Option.bind_assoc]

theorem agrees_ident {h : List String} {nm : String} : Agrees st (.ident h nm) := by
  intro n s hn hl
  rw [evalRequest_leaf rfl ((Sizable.allLegal hl).width 0) rfl hn, evalRequest, reference]
  cases hv : st.signal? (identifierName h nm) with
  | some v => simp
  | none =>
    cases hm : st.readWholeMemory (identifierName h nm) with
    | some v => simp
    | none => rfl

/-- At its own width or more, every expression is computed by the rule. -/
theorem agrees (st : Store T) (e : Expr) : Agrees st e := by
  induction e with
  | ident h nm => exact agrees_ident
  | literal l =>
    intro n s hn hl
    rw [selfWidth] at hn
    rw [evalRequest_literal hl.self.legal hn, reference]
  | unary op e ih => exact agrees_unary ih
  | binary op l r ihl ihr =>
    rcases op.sizing with hc | hc | hc | hc | hc
    · exact agrees_logical hc ihl ihr
    · exact agrees_comparison hc ihl ihr
    · intro n s hn hl
      have hd := hl.self.operator
      refine agrees_shift ?_ ihl ihr n s hn hl
      cases op <;> first | rfl | exact Bool.noConfusion hc | exact Bool.noConfusion hd
    · exact agrees_operands (Or.inl hc) ihl ihr
    · exact agrees_operands (Or.inr hc) ihl ihr
  | ternary c t f ihc iht ihf => exact agrees_ternary ihc iht ihf
  | concat b ps ih => exact agrees_concat ih
  | replicate c v ihc ihv => exact agrees_replicate ihc ihv
  | bitSelect t i iht ihi => exact agrees_bitSelect iht ihi
  | rangeSelect t m l iht ihm ihl => exact agrees_rangeSelect iht ihm ihl
  | partSelect t b w d iht ihb ihw => exact agrees_partSelect iht ihb ihw
  | cast s a ih => exact agrees_cast ih
  | string | streaming | streamingBy | call =>
    intro n s _ hl
    exact absurd hl.self.legal Bool.false_ne_true

/-- Assigned to `w` bits, an expression is computed by the rule at the larger of `w` and its own width. -/
theorem eval_reference {e : Expr} {w : Nat} (h0 : 0 < w) (hl : AllAt T (Sizable T) e w) :
    (eval st e w none).map (·.resize w)
      = (reference st true e (max w (selfWidth T e)) (exprSigned T e)).map (·.resize w) := by
  rcases le_or_gt (selfWidth T e) w with hle | hlt
  · rw [Nat.max_eq_left hle, ← agrees st e w _ hle hl, ← evalRequest_signed]
    rfl
  · have hnarrow : AllAt T
        (fun e w => legal T e = true ∧ exactFill e = true ∧ negatesCut T e w = false) e w :=
      hl.imp fun _ _ h => ⟨h.legal, h.fill, h.negates⟩
    rw [Nat.max_eq_right hlt.le, ← (agrees st e).own (Sizable.all_own hlt.le hl)]
    exact evalRequest_truncate h0 hlt hnarrow none

/-! ## Where the rule is not followed -/

/-- A byte with every bit set. -/
def onesTable : SignalTable := .vectors [("b", 8, false)]

def onesStore : Store onesTable := .ofBits onesTable (fun _ => 255) fun _ => 0

/-- The digit `0`. -/
def zeroDigit : Digit := .num ⟨0, by decide⟩

/-- `'bx`. -/
def unknownLiteral : Expr := .literal (.sized none false .bin [.x])

/-- `{b[1+1:0]}`. -/
def computedBound : Expr :=
  .concat false [.rangeSelect (.ident [] "b")
    (.binary .add (.literal (.decimal 1)) (.literal (.decimal 1))) (.literal (.decimal 0))]

/-- `-(8'h00 | 8'bx0000000)`. -/
def negatedCut : Expr :=
  .unary .minus (.binary .bitOr (.literal (.sized (some 8) false .hex [zeroDigit]))
    (.literal (.sized (some 8) false .bin (.x :: List.replicate 7 zeroDigit))))

/-- Bit 32 of `'sh80000000`, which is counted as 33 bits wide and has 32. -/
def miscountedLiteral : Expr :=
  .bitSelect (.literal (.sized none true .hex (.num ⟨8, by decide⟩ :: List.replicate 7 zeroDigit)))
    (.literal (.decimal 32))

/-- An unsized `x` is not zero-extended; a computed bound leaves a select counted as one bit; a negation
comes after a cut; a literal of 32 bits is counted as 33. -/
theorem eval_ne_reference :
    let follows := fun (e : Expr) (w : Nat) => (eval onesStore e w none).map (·.resize w)
      = (reference onesStore false e (max w (selfWidth onesTable e)) (exprSigned onesTable e)).map
          (·.resize w)
    ¬ follows unknownLiteral 40 ∧ ¬ follows computedBound 8 ∧ ¬ follows negatedCut 4 ∧
      ¬ follows miscountedLiteral 1 := by
  decide

/-- `~(b + 1) >> 1` assigned to four bits. -/
theorem eval_reference_shift :
    let e := Expr.binary .shr (.unary .bitNot (.binary .add (.ident [] "b") (.literal (.decimal 1))))
      (.literal (.decimal 1))
    (eval onesStore e 4 none).map (·.resize 4)
      = (reference onesStore true e (max 4 (selfWidth onesTable e)) (exprSigned onesTable e)).map
          (·.resize 4) := by
  intro e
  refine eval_reference (by decide) ?_
  have hone : ∀ w, Sizable onesTable (.literal (.decimal 1)) w := fun w =>
    ⟨rfl, rfl, rfl, fun _ => rfl, rfl⟩
  have hb : ∀ w, Sizable onesTable (.ident [] "b") w := fun w =>
    ⟨rfl, rfl, rfl, fun _ => rfl, rfl⟩
  simp only [e, AllAt]
  exact ⟨⟨rfl, rfl, rfl, fun _ => rfl, rfl⟩, ⟨⟨rfl, rfl, rfl, fun _ => rfl, rfl⟩,
    ⟨rfl, rfl, rfl, fun _ => rfl, rfl⟩, hb _, hone _⟩, hone _⟩

end Veriforge

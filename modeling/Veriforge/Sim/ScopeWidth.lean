import Veriforge.Sim.EvalScope
import Veriforge.Sim.EvalWidth

/-! # The width of a value in scope

`eval` is handed the width its parent assumes and extends what it computes to it, except for the values
it returns as they are: a struct field, a string, a system function's result. Such a value reaches a
parent through `?:` only; there it is narrower than the parent assumes. -/

namespace Veriforge

open Value Exec

namespace Scope

variable {T : SignalTable} (S : Scope T)

mutual

/-- The expressions the width rule is about: constant bounds and counts stand for the numbers they spell,
a concatenation has parts, a literal has no more bits than it is counted with. -/
def wellFormed : Expr → Bool
  | .ident _ _ | .string _ => true
  | .literal l => l.evalLiteral.width ≤ l.selfWidth
  | .unary _ e => wellFormed e
  | .binary _ l r => wellFormed l && wellFormed r
  | .ternary c t f => wellFormed c && wellFormed t && wellFormed f
  | .concat _ ps => !ps.isEmpty && allWellFormed ps
  | .replicate c v =>
      match c with
      | .literal l => l.denoted.any (0 ≤ ·) && wellFormed v
      | _ => false
  | .bitSelect t i => wellFormed t && wellFormed i
  | .rangeSelect t m l =>
      match m, l with
      | .literal m, .literal l =>
          wellFormed t && m.denoted.any fun mi => l.denoted.any fun li => li ≤ mi
      | _, _ => false
  | .partSelect t b w _ =>
      match w with
      | .literal l => wellFormed t && wellFormed b && l.denoted.any (0 < ·)
      | _ => false
  | .cast _ a => wellFormed a
  | .call _ as => allWellFormed as
  | .streaming _ | .streamingBy _ _ => false

/-- Well-formed parts or arguments. -/
def allWellFormed : List Expr → Bool
  | [] => true
  | e :: es => wellFormed e && allWellFormed es

end

theorem allWellFormed_iff {es : List Expr} : allWellFormed es = true ↔ ∀ e ∈ es, wellFormed e = true := by
  induction es with
  | nil => simp [allWellFormed]
  | cons e es ih => simp [allWellFormed, ih]

/-- Evaluating `e` at width `n` in a state returns, as it is, a value of `w` bits: a struct field, an
unresolved name, a string or a system function's result, reached through the branches that `?:` takes. -/
inductive Bare : Expr → Nat → Option Bool → Store T → Nat → Prop
  | field {h n width ov st access} (hsignal : T.width (identifierName h n) = none)
      (hmemory : T.memory (identifierName h n) = none)
      (hfield : S.field (identifierName h n) = some access) : Bare (.ident h n) width ov st access.width
  | unresolved {h n width ov st} (hsignal : T.width (identifierName h n) = none)
      (hmemory : T.memory (identifierName h n) = none)
      (hfield : S.field (identifierName h n) = none) : Bare (.ident h n) width ov st 1
  | string {s width ov st} : Bare (.string s) width ov st (s.length * 8)
  | call {f as width ov st} (hf : S.function f = none) : Bare (.call f as) width ov st 32
  | taken {c t f width ov st cond st' w}
      (hc : S.eval c (.context (S.selfWidth c) none) st = (.ok cond, st'))
      (hd : cond.reduceOr.isDefined = true)
      (hb : Bare (if cond.reduceOr.val ≠ 0 then t else f)
        (max width (max (S.selfWidth t) (S.selfWidth f)))
        (some (ov.getD (S.exprSigned (.ternary c t f)))) st' w) : Bare (.ternary c t f) width ov st w
  | merged {c t f width ov st cond st' tv st'' w w'}
      (hc : S.eval c (.context (S.selfWidth c) none) st = (.ok cond, st'))
      (hd : cond.reduceOr.isDefined = false)
      (hbt : Bare t (max width (max (S.selfWidth t) (S.selfWidth f)))
        (some (ov.getD (S.exprSigned (.ternary c t f)))) st' w)
      (ht : S.eval t (.context (max width (max (S.selfWidth t) (S.selfWidth f)))
        (some (ov.getD (S.exprSigned (.ternary c t f))))) st' = (.ok tv, st''))
      (hbf : Bare f (max width (max (S.selfWidth t) (S.selfWidth f)))
        (some (ov.getD (S.exprSigned (.ternary c t f)))) st'' w') :
      Bare (.ternary c t f) width ov st (max w w')

variable {S}

/-! ## Parts of a run -/

theorem of_value {o : Option Value} {v : Value} {st st' : Store T}
    (h : (value o : EvalM T Value) st = (.ok v, st')) : o = some v ∧ st = st' :=
  eq_of_ofOption h

theorem identValue_width {h : List String} {n : String} {effSigned : Bool} {width : Nat} {ov : Option Bool}
    {st st₀ : Store T} {v : Value} (hv : S.identValue (identifierName h n) effSigned width st = some v) :
    v.width ≤ max width (S.selfWidth (.ident h n)) ∧
      (width ≤ v.width ∨ ∃ w, S.Bare (.ident h n) width ov st₀ w ∧ v.width = w) := by
  rw [identValue] at hv
  rw [selfWidth]
  cases hw : T.width (identifierName h n) with
  | some w =>
    rw [Store.signal?_eq_some hw] at hv
    rw [widen_width hv, st.signal_width _ _ hw]
    exact ⟨(max_comm _ _).le, .inl (le_max_right _ _)⟩
  | none =>
    rw [Store.signal?, hw] at hv
    dsimp only [Option.map_none] at hv
    cases hm : T.memory (identifierName h n) with
    | some m =>
      obtain ⟨whole, hr, hwid⟩ := readWholeMemory_eq_some st hm
      have hfield : S.field (identifierName h n) = none :=
        S.field_memory _ (by rw [hm]; exact Option.some_ne_none m)
      rw [hr] at hv
      rw [widen_width hv, hwid, hfield]
      exact ⟨(max_comm _ _).le, .inl (le_max_right _ _)⟩
    | none =>
      rw [Store.readWholeMemory, hm] at hv
      cases hf : S.field (identifierName h n) with
      | some access =>
        rw [hf] at hv
        cases hv
        rw [access.read_width]
        exact ⟨le_max_right _ _, .inr ⟨_, .field hw hm hf, rfl⟩⟩
      | none =>
        rw [hf] at hv
        cases hv
        refine ⟨?_, .inr ⟨_, .unresolved hw hm hf, rfl⟩⟩
        rw [x_width]
        exact le_max_of_le_right (show 1 ≤ 32 by decide)

theorem fitOperand_width {e : Expr} {ov : Option Bool} {w : Nat} {v r : Value}
    (h : S.fitOperand e ov w v = some r) :
    r.width = if w ≠ 0 ∧ v.width ≠ w then max w (S.selfWidth e) else v.width := by
  rw [fitOperand] at h
  by_cases hc : w ≠ 0 ∧ v.width ≠ w
  · rw [if_pos hc] at h ⊢
    exact extendTo_width h
  · rw [if_neg hc] at h ⊢
    cases h
    rfl

theorem selectBit_width {t i : Expr} {target index r : Value} {again : EvalM T Value} {st st' : Store T}
    (h : S.selectBit t target i index again st = (.ok r, st')) : r.width = 1 := by
  rw [selectBit] at h
  split at h
  · obtain ⟨idx, st₁, -, h⟩ := parts_of_ok h
    cases h
    exact getBit_width _ _
  · cases h
    rfl

theorem selectWord_width {name : String} {ew d : Nat} {i : Expr} {index r : Value} {again : EvalM T Value}
    {st st' : Store T} (hm : T.memory name = some (ew, d))
    (h : S.selectWord name ew d i index again st = (.ok r, st')) : r.width = ew := by
  rw [selectWord] at h
  split at h
  · obtain ⟨idx, st₁, -, h⟩ := parts_of_ok h
    cases h
    exact Store.readWord_width hm _
  · cases h
    rfl

theorem selectPart_width {t b : Expr} {target base partW r : Value} {d : Direction}
    (hd : partW.isDefined = true) (hw : 0 < partW.val)
    (h : S.selectPart t target b base partW d = some r) : r.width = partW.val := by
  rw [selectPart] at h
  split at h
  · simp only [Option.bind_eq_bind, Option.bind_eq_some_iff] at h
    obtain ⟨bi, -, h⟩ := h
    cases h
    exact getPart_width _ _ hw _
  · cases h
    rw [if_pos ⟨hd, hw⟩]
    rfl

theorem eval_literal (l : Literal) (width : Nat) (ov : Option Bool) : S.eval (.literal l) (.context width ov) =
      if l.evalLiteral.width < width then
        if Literal.isUnsizedXz l.originalText then
          pure (init l.evalLiteral.val width
            (l.evalLiteral.mask ||| (maskForWidth width ^^^ maskForWidth l.evalLiteral.width)))
        else value (extendTo (ov.getD l.signed) l.evalLiteral width)
      else pure l.evalLiteral := by
  rw [eval]
  rfl

/-- A literal asked for no width has its own value. -/
theorem eval_literal_zero (l : Literal) (ov : Option Bool) (st : Store T) :
    S.eval (.literal l) (.context 0 ov) st = (.ok l.evalLiteral, st) := by
  rw [eval_literal, if_neg (Nat.not_lt_zero _)]
  rfl

/-- A constant index reads as the integer the literal stands for. -/
theorem indexInt_literal {l : Literal} {n : Int} (hd : l.denoted = some n) (st : Store T) :
    S.indexInt (.literal l) l.evalLiteral
      (S.eval (.literal l) (.context (S.selfWidth (.literal l)) (some true))) st = (.ok n, st) := by
  obtain ⟨-, hxz, -, hr⟩ := Literal.denoted_eq_some hd
  rw [indexInt, exprSigned]
  cases hs : l.signed with
  | false =>
    rw [hs] at hr
    cases hr
    rfl
  | true =>
    rw [hs, if_pos rfl] at hr
    rw [Bool.not_true, if_neg Bool.false_ne_true]
    split
    · next hlt =>
      have hpos : 0 < l.evalLiteral.width := by
        refine Nat.pos_of_ne_zero fun h0 => ?_
        rw [asSigned, if_pos (Or.inr h0)] at hr
        cases hr
      obtain ⟨r, hext⟩ := exists_signExtend hpos (S.selfWidth (.literal l))
      have heval : S.eval (.literal l) (.context (S.selfWidth (.literal l)) (some true)) st
          = (.ok r, st) := by
        rw [eval_literal, if_pos hlt, hxz, if_neg Bool.false_ne_true, Option.getD_some, extendTo, if_pos rfl, hext]
        rfl
      rw [bind_of_ok heval, asSigned_signExtend hr hlt.le hext]
      rfl
    · rw [hr]
      rfl

theorem selectRange_width {t : Expr} {m l : Literal} {mi li : Int} {target r : Value} {st st' : Store T}
    (hm : m.denoted = some mi) (hl : l.denoted = some li) (hle : li ≤ mi)
    (h : S.selectRange t target (.literal m) m.evalLiteral
      (S.eval (.literal m) (.context (S.selfWidth (.literal m)) (some true))) (.literal l) l.evalLiteral
      (S.eval (.literal l) (.context (S.selfWidth (.literal l)) (some true))) st = (.ok r, st')) :
    r.width = (mi - li + 1).toNat := by
  rw [selectRange, if_pos ⟨(Literal.denoted_eq_some hm).2.2.1, (Literal.denoted_eq_some hl).2.2.1⟩,
    bind_of_ok (indexInt_literal hm st), bind_of_ok (indexInt_literal hl st)] at h
  cases h
  rw [getRange_width, orderBounds_of_le (by omega)]
  dsimp only
  congr 1
  omega

/-! ## The width rule -/

variable (S) in
/-- A value is no wider than what was asked for or the expression's own width, and no narrower than what
was asked for unless it is returned as it is. -/
def WidthRule (e : Expr) : Prop :=
  ∀ {q : Request} {st st' : Store T} {v : Value}, S.eval e q st = (.ok v, st') →
    v.width ≤ max (S.requestWidth e q) (S.selfWidth e) ∧
      ∀ width ov, q = .context width ov → width ≤ v.width ∨ ∃ w, S.Bare e width ov st w ∧ v.width = w

/-- What extends its result to the requested width follows the rule. -/
theorem WidthRule.of_le {e : Expr}
    (h : ∀ {q : Request} {st st' : Store T} {v : Value}, S.eval e q st = (.ok v, st') →
      S.requestWidth e q ≤ v.width ∧ v.width ≤ max (S.requestWidth e q) (S.selfWidth e)) :
    S.WidthRule e := by
  intro q st st' v hv
  refine ⟨(h hv).2, ?_⟩
  rintro width ov rfl
  exact .inl (h hv).1

theorem widthRule_ident (hier : List String) (n : String) : S.WidthRule (.ident hier n) := by
  intro q st st' v h
  rw [eval] at h
  obtain ⟨o, st₁, ho, h⟩ := parts_of_ok h
  cases ho
  obtain ⟨hv, -⟩ := of_value h
  refine ⟨(@identValue_width T S hier n _ _ none _ st v hv).1, ?_⟩
  rintro width ov rfl
  exact (identValue_width hv).2

theorem widthRule_literal {l : Literal} (hfit : l.evalLiteral.width ≤ l.selfWidth) : S.WidthRule (.literal l) := by
  apply WidthRule.of_le
  intro q st st' v h
  rw [eval] at h
  rw [selfWidth]
  split at h
  · split at h
    · cases h
      exact ⟨le_rfl, le_max_left _ _⟩
    · rw [extendTo_width (of_value h).1]
      exact ⟨le_rfl, le_max_left _ _⟩
  · next hlt =>
    cases h
    exact ⟨Nat.le_of_not_lt hlt, le_max_of_le_right hfit⟩

theorem widthRule_string (s : String) : S.WidthRule (.string s) := by
  intro q st st' v h
  rw [eval] at h
  cases h
  refine ⟨le_max_right _ _, ?_⟩
  rintro width ov rfl
  exact .inr ⟨_, .string, rfl⟩

theorem widthRule_unary (op : UnaryOp) {e : Expr} (ih : S.WidthRule e) : S.WidthRule (.unary op e) := by
  apply WidthRule.of_le
  intro q st st' v h
  rw [eval] at h
  rw [selfWidth]
  cases hc : op.contextDetermined with
  | true =>
    rw [hc, if_pos rfl] at h
    obtain ⟨o, st₁, ho, h⟩ := parts_of_ok h
    obtain ⟨o', st₂, ho', h⟩ := parts_of_ok h
    cases h
    have hle := (ih ho).1
    rw [evalUnaryOp_width, hc, if_pos rfl, if_pos rfl, fitOperand_width (of_value ho').1]
    rw [requestWidth] at hle
    split <;> omega
  | false =>
    rw [hc, if_neg Bool.false_ne_true] at h
    obtain ⟨o, st₁, ho, h⟩ := parts_of_ok h
    rw [widen_width (of_value h).1, evalUnaryOp_width, hc, if_neg Bool.false_ne_true, if_neg Bool.false_ne_true]
    exact ⟨le_max_right _ _, (max_comm _ _).le⟩

theorem widthRule_binary (op : BinaryOp) {l r : Expr} (ihl : S.WidthRule l) (ihr : S.WidthRule r) :
    S.WidthRule (.binary op l r) := by
  apply WidthRule.of_le
  intro q st st' v h
  rw [selfWidth_binary]
  rcases op.sizing with hc | hc | hc | hc | hc
  · rw [eval_logical hc] at h
    obtain ⟨l', st₁, -, h⟩ := parts_of_ok h
    obtain ⟨r', st₂, -, h⟩ := parts_of_ok h
    obtain ⟨u, st₃, hu, h⟩ := parts_of_ok h
    rw [fit_width (of_value h).1, evalBinaryOp_width (of_value hu).1, resultWidth_logical _ _ hc,
      resultWidth_logical _ _ hc]
    split <;> omega
  · rw [eval_comparison hc] at h
    obtain ⟨l', st₁, -, h⟩ := parts_of_ok h
    obtain ⟨r', st₂, -, h⟩ := parts_of_ok h
    obtain ⟨l'', st₃, -, h⟩ := parts_of_ok h
    obtain ⟨r'', st₄, -, h⟩ := parts_of_ok h
    obtain ⟨u, st₅, hu, h⟩ := parts_of_ok h
    rw [fit_width (of_value h).1, evalBinaryResult_width (of_value hu).1 (by
        rw [BinaryOp.not_arithmetic_of_comparison hc]; exact fun h => absurd h Bool.false_ne_true),
      resultWidth_comparison _ _ hc, resultWidth_comparison _ _ hc]
    split <;> omega
  · rw [eval_shift hc] at h
    obtain ⟨l', st₁, hl, h⟩ := parts_of_ok h
    obtain ⟨l'', st₂, hl', h⟩ := parts_of_ok h
    obtain ⟨r', st₃, -, h⟩ := parts_of_ok h
    obtain ⟨u, st₄, hu, h⟩ := parts_of_ok h
    have hle := (ihl hl).1
    have hw := widen_width (of_value hl').1
    rw [requestWidth] at hle
    rw [fit_width (of_value h).1, evalBinaryResult_width (of_value hu).1 (by
        rw [BinaryOp.not_arithmetic_of_shift hc]; exact fun h => absurd h Bool.false_ne_true),
      resultWidth_shift _ _ hc, resultWidth_shift _ _ hc]
    rw [shiftTarget_eq] at hle hw
    split <;> omega
  · rw [eval_bitwise hc] at h
    obtain ⟨l', st₁, -, h⟩ := parts_of_ok h
    obtain ⟨r', st₂, -, h⟩ := parts_of_ok h
    obtain ⟨l'', st₃, hl, h⟩ := parts_of_ok h
    obtain ⟨r'', st₄, hr, h⟩ := parts_of_ok h
    obtain ⟨u, st₅, hu, h⟩ := parts_of_ok h
    rw [fit_width (of_value h).1, evalBinaryOp_width (of_value hu).1, resultWidth_bitwise _ _ hc,
      align_width (of_value hl).1, align_width (of_value hr).1, resultWidth_bitwise _ _ hc,
      operandTarget]
    split <;> omega
  · rw [eval_arithmetic hc] at h
    obtain ⟨l', st₁, hl, h⟩ := parts_of_ok h
    obtain ⟨r', st₂, hr, h⟩ := parts_of_ok h
    obtain ⟨l'', st₃, hl', h⟩ := parts_of_ok h
    obtain ⟨r'', st₄, hr', h⟩ := parts_of_ok h
    obtain ⟨u, st₅, hu, h⟩ := parts_of_ok h
    have h1 := (ihl hl).1
    have h2 := (ihr hr).1
    have hw1 := widen_width (of_value hl').1
    have hw2 := widen_width (of_value hr').1
    rw [requestWidth] at h1 h2
    rw [operandTarget] at h1 h2 hw1 hw2
    rw [fit_width (of_value h).1, evalBinaryResult_width (of_value hu).1 (fun _ => by omega),
      resultWidth_arithmetic _ _ hc, resultWidth_arithmetic _ _ hc]
    split <;> omega

/-- The branch a known condition takes, evaluated where `?:` evaluates it. -/
theorem eval_ternary_taken {c t f : Expr} {q : Request} {st st₁ : Store T} {cond : Value}
    (hc : S.eval c (.context (S.selfWidth c) none) st = (.ok cond, st₁))
    (hd : cond.reduceOr.isDefined = true) :
    S.eval (.ternary c t f) q st = S.eval (if cond.reduceOr.val ≠ 0 then t else f)
      (.context (max (S.requestWidth (.ternary c t f) q) (max (S.selfWidth t) (S.selfWidth f)))
        (some (q.signedOverride.getD (S.exprSigned (.ternary c t f))))) st₁ := by
  rw [eval, bind_of_ok hc, hd, if_pos rfl]
  split <;> rfl

/-- Both branches, where the condition is unknown. -/
theorem eval_ternary_merged {c t f : Expr} {q : Request} {st st₁ : Store T} {cond : Value}
    (hc : S.eval c (.context (S.selfWidth c) none) st = (.ok cond, st₁))
    (hd : cond.reduceOr.isDefined = false) :
    S.eval (.ternary c t f) q st = (do
      let own := Request.context
        (max (S.requestWidth (.ternary c t f) q) (max (S.selfWidth t) (S.selfWidth f)))
        (some (q.signedOverride.getD (S.exprSigned (.ternary c t f))))
      let tv ← S.eval t own
      let fv ← S.eval f own
      return mergeXz tv fv : EvalM T Value) st₁ := by
  rw [eval, bind_of_ok hc, hd, if_neg Bool.false_ne_true]

theorem widthRule_ternary {c t f : Expr} (iht : S.WidthRule t) (ihf : S.WidthRule f) :
    S.WidthRule (.ternary c t f) := by
  intro q st st' v h
  have hcond := h
  rw [eval] at hcond
  obtain ⟨cond, st₁, hc, -⟩ := parts_of_ok hcond
  rw [selfWidth]
  cases hd : cond.reduceOr.isDefined with
  | true =>
    rw [eval_ternary_taken hc hd] at h
    have hself : S.selfWidth (if cond.reduceOr.val ≠ 0 then t else f)
        ≤ max (S.selfWidth t) (S.selfWidth f) := by
      split
      · exact le_max_left _ _
      · exact le_max_right _ _
    have hrule : S.WidthRule (if cond.reduceOr.val ≠ 0 then t else f) := by
      split
      · exact iht
      · exact ihf
    obtain ⟨hle, hge⟩ := hrule h
    rw [requestWidth] at hle
    refine ⟨by omega, ?_⟩
    rintro width ov rfl
    obtain hge | ⟨w, hbare, hw⟩ := hge _ _ rfl
    · exact .inl ((le_max_left _ _).trans hge)
    · exact .inr ⟨w, .taken hc hd hbare, hw⟩
  | false =>
    rw [eval_ternary_merged hc hd] at h
    obtain ⟨tv, st₂, ht, h⟩ := parts_of_ok h
    obtain ⟨fv, st₃, hf, h⟩ := parts_of_ok h
    cases h
    obtain ⟨htle, htge⟩ := iht ht
    obtain ⟨hfle, hfge⟩ := ihf hf
    rw [requestWidth] at htle hfle
    rw [mergeXz_width]
    refine ⟨by omega, ?_⟩
    rintro width ov rfl
    -- one branch of the full width is enough
    obtain htge | ⟨w, hbt, hw⟩ := htge _ _ rfl
    · rw [requestWidth] at htge
      exact .inl (by omega)
    obtain hfge | ⟨w', hbf, hw'⟩ := hfge _ _ rfl
    · rw [requestWidth] at hfge
      exact .inl (by omega)
    · exact .inr ⟨_, .merged hc hd hbt ht hbf, by rw [hw, hw']⟩

theorem sum_width_le {es : List Expr} {vs : List Value} {st st' : Store T}
    (h : S.evalParts es st = (.ok vs, st')) (hb : ∀ e ∈ es, S.WidthRule e) :
    (vs.map Value.width).sum ≤ S.selfWidthSum es := by
  induction es generalizing vs st with
  | nil =>
    cases h
    exact Nat.zero_le _
  | cons e es ih =>
    rw [evalParts] at h
    obtain ⟨v, st₁, hv, h⟩ := parts_of_ok h
    obtain ⟨us, st₂, hus, h⟩ := parts_of_ok h
    cases h
    rw [List.forall_mem_cons] at hb
    have hle := (hb.1 hv).1
    rw [requestWidth, max_self] at hle
    rw [List.map_cons, List.sum_cons, selfWidthSum]
    exact Nat.add_le_add hle (ih hus hb.2)

theorem widthRule_concat (b : Bool) {ps : List Expr} (hne : ps.isEmpty = false)
    (ih : ∀ p ∈ ps, S.WidthRule p) : S.WidthRule (.concat b ps) := by
  apply WidthRule.of_le
  intro q st st' v h
  rw [eval] at h
  obtain ⟨vs, st₁, hvs, h⟩ := parts_of_ok h
  rw [hne, if_neg Bool.false_ne_true] at h
  have hsum := sum_width_le hvs ih
  rw [widen_width (of_value h).1, concatValues_width, selfWidth]
  omega

theorem widthRule_replicate {l : Literal} {n : Int} {v : Expr} (hd : l.denoted = some n) (hn : 0 ≤ n)
    (ih : S.WidthRule v) : S.WidthRule (.replicate (.literal l) v) := by
  apply WidthRule.of_le
  intro q st st' r h
  rw [eval, bind_of_ok (eval_literal_zero l none st)] at h
  obtain ⟨inner, st₁, hi, h⟩ := parts_of_ok h
  have hr := widen_width (of_value h).1
  rw [if_pos (Literal.denoted_eq_some hd).2.2.1, replicate_width] at hr
  have hval := Literal.val_of_denoted hd hn
  have hle := (ih hi).1
  rw [requestWidth, max_self] at hle
  have hmul := Nat.mul_le_mul_left l.evalLiteral.val hle
  rw [hr, selfWidth, (Literal.denoted_eq_some hd).1, Option.getD_some, ← hval, Int.toNat_natCast,
    Nat.mul_comm inner.width]
  omega

theorem widthRule_bitSelect (t i : Expr) : S.WidthRule (.bitSelect t i) := by
  apply WidthRule.of_le
  intro q st st' v h
  rw [eval] at h
  rw [selfWidth, memoryWidth?]
  cases hm : memoryTarget? T t with
  | some m =>
    obtain ⟨name, ew, d⟩ := m
    rw [hm] at h
    obtain ⟨index, st₁, -, h⟩ := parts_of_ok h
    obtain ⟨r, st₂, hr, h⟩ := parts_of_ok h
    rw [widen_width (of_value h).1, selectWord_width (memoryTarget?_eq_some hm).2 hr]
    exact ⟨le_max_right _ _, (max_comm _ _).le⟩
  | none =>
    rw [hm] at h
    obtain ⟨target, st₁, -, h⟩ := parts_of_ok h
    obtain ⟨index, st₂, -, h⟩ := parts_of_ok h
    obtain ⟨r, st₃, hr, h⟩ := parts_of_ok h
    rw [widen_width (of_value h).1, selectBit_width hr]
    exact ⟨le_max_right _ _, (max_comm _ _).le⟩

theorem widthRule_rangeSelect (t : Expr) {m l : Literal} {mi li : Int} (hm : m.denoted = some mi)
    (hl : l.denoted = some li) (hle : li ≤ mi) :
    S.WidthRule (.rangeSelect t (.literal m) (.literal l)) := by
  apply WidthRule.of_le
  intro q st st' v h
  rw [eval] at h
  obtain ⟨target, st₁, -, h⟩ := parts_of_ok h
  rw [bind_of_ok (eval_literal_zero m none st₁), bind_of_ok (eval_literal_zero l none st₁)] at h
  obtain ⟨r, st₂, hr, h⟩ := parts_of_ok h
  rw [widen_width (of_value h).1, selectRange_width hm hl hle hr, selfWidth, literalRangeWidth,
    (Literal.denoted_eq_some hm).1, (Literal.denoted_eq_some hl).1]
  exact ⟨le_max_right _ _, (max_comm _ _).le⟩

theorem widthRule_partSelect (t b : Expr) {l : Literal} {n : Int} (d : Direction)
    (hl : l.denoted = some n) (hn : 0 < n) : S.WidthRule (.partSelect t b (.literal l) d) := by
  apply WidthRule.of_le
  intro q st st' v h
  have hval := Literal.val_of_denoted hl hn.le
  rw [eval] at h
  obtain ⟨target, st₁, -, h⟩ := parts_of_ok h
  obtain ⟨base, st₂, -, h⟩ := parts_of_ok h
  rw [bind_of_ok (eval_literal_zero l none st₂)] at h
  obtain ⟨r, st₃, hr, h⟩ := parts_of_ok h
  rw [widen_width (of_value h).1,
    selectPart_width (Literal.denoted_eq_some hl).2.2.1 (by omega) (of_value hr).1, selfWidth,
    (Literal.denoted_eq_some hl).1, Option.getD_some, ← hval, Int.toNat_natCast]
  exact ⟨le_max_right _ _, (max_comm _ _).le⟩

theorem widthRule_cast (s : Bool) {a : Expr} (ih : S.WidthRule a) : S.WidthRule (.cast s a) := by
  intro q st st' v h
  cases q with
  | inner =>
    rw [eval] at h
    rw [selfWidth]
    refine ⟨(ih h).1, ?_⟩
    rintro width ov hq
    cases hq
  | context width ov =>
    rw [eval] at h
    obtain ⟨r, st₁, hr, h⟩ := parts_of_ok h
    have hle := (ih hr).1
    rw [requestWidth, max_self] at hle
    rw [widen_width (of_value h).1, selfWidth, requestWidth]
    refine ⟨by omega, ?_⟩
    rintro width ov hq
    cases hq
    exact .inl (le_max_right _ _)

theorem evalSystem_width (f : SystemFunction) (args : List Value) : (evalSystem f args).width = 32 := by
  cases args with
  | nil => cases f <;> rfl
  | cons a args =>
    cases f with
    | clog2 =>
      rw [evalSystem]
      split <;> rfl
    | bits => rfl

theorem widthRule_call (f : String) (as : List Expr) : S.WidthRule (.call f as) := by
  intro q st st' v h
  rw [eval] at h
  obtain ⟨args, st₁, -, h⟩ := parts_of_ok h
  have hbare : S.function f = none → v.width = 32 →
      v.width ≤ max (S.requestWidth (.call f as) q) (S.selfWidth (.call f as)) ∧
      ∀ width ov, q = .context width ov → width ≤ v.width ∨ ∃ w, S.Bare (.call f as) width ov st w ∧ v.width = w := by
    intro hf hw
    rw [selfWidth, hf, hw]
    refine ⟨le_max_right _ _, ?_⟩
    rintro width ov rfl
    exact .inr ⟨32, .call hf, rfl⟩
  cases hs : systemFunction f with
  | some g =>
    rw [hs] at h
    cases h
    exact hbare (S.function_system f (by rw [hs]; exact Option.some_ne_none g)) (evalSystem_width g args)
  | none =>
    rw [hs] at h
    cases hf : S.function f with
    | none =>
      rw [hf] at h
      cases h
      exact hbare hf rfl
    | some g =>
      rw [hf] at h
      obtain ⟨ports, st₂, -, h⟩ := parts_of_ok h
      obtain ⟨locals, st₃, -, h⟩ := parts_of_ok h
      rw [selfWidth, hf, widen_width (of_value h).1, locals.signal_width _ _ g.returns]
      refine ⟨(max_comm _ _).le, ?_⟩
      rintro width ov rfl
      exact .inl (le_max_right _ _)

theorem widthRule {e : Expr} (hwf : wellFormed e = true) : S.WidthRule e := by
  induction e with
  | ident hier n => exact widthRule_ident hier n
  | literal l =>
    rw [wellFormed] at hwf
    exact widthRule_literal (of_decide_eq_true hwf)
  | string s => exact widthRule_string s
  | unary op e ih => exact widthRule_unary op (ih hwf)
  | binary op l r ihl ihr =>
    rw [wellFormed, Bool.and_eq_true] at hwf
    exact widthRule_binary op (ihl hwf.1) (ihr hwf.2)
  | ternary c t f ihc iht ihf =>
    rw [wellFormed, Bool.and_eq_true, Bool.and_eq_true] at hwf
    exact widthRule_ternary (iht hwf.1.2) (ihf hwf.2)
  | concat b ps ih =>
    rw [wellFormed, Bool.and_eq_true, Bool.not_eq_true', allWellFormed_iff] at hwf
    exact widthRule_concat b hwf.1 fun p hp => ih p hp (hwf.2 p hp)
  | replicate c v ihc ihv =>
    cases c
    case literal l =>
      rw [wellFormed, Bool.and_eq_true] at hwf
      obtain ⟨n, hn, h0⟩ := (Option.any_eq_true _ _).mp hwf.1
      exact widthRule_replicate hn (of_decide_eq_true h0) (ihv hwf.2)
    all_goals exact absurd hwf Bool.false_ne_true
  | streaming ps ih => exact absurd hwf Bool.false_ne_true
  | streamingBy s ps ihs ih => exact absurd hwf Bool.false_ne_true
  | bitSelect t i iht ihi => exact widthRule_bitSelect t i
  | rangeSelect t m l iht ihm ihl =>
    cases m
    case literal m' =>
      cases l
      case literal l' =>
        rw [wellFormed, Bool.and_eq_true] at hwf
        obtain ⟨mi, hm, h⟩ := (Option.any_eq_true _ _).mp hwf.2
        obtain ⟨li, hl, h⟩ := (Option.any_eq_true _ _).mp h
        exact widthRule_rangeSelect t hm hl (of_decide_eq_true h)
      all_goals exact absurd hwf Bool.false_ne_true
    all_goals exact absurd hwf Bool.false_ne_true
  | partSelect t b w d iht ihb ihw =>
    cases w
    case literal l =>
      rw [wellFormed, Bool.and_eq_true, Bool.and_eq_true] at hwf
      obtain ⟨n, hn, h0⟩ := (Option.any_eq_true _ _).mp hwf.2
      exact widthRule_partSelect t b d hn (of_decide_eq_true h0)
    all_goals exact absurd hwf Bool.false_ne_true
  | cast s a ih => exact widthRule_cast s (ih hwf)
  | call f as ih => exact widthRule_call f as

/-! ## Values returned as they are -/

theorem Bare.width_eq {e : Expr} {width w : Nat} {ov : Option Bool} {st st' : Store T} {v : Value}
    (hb : S.Bare e width ov st w) (h : S.eval e (.context width ov) st = (.ok v, st')) : v.width = w := by
  induction hb generalizing v st' with
  | field hsignal hmemory hfield =>
    rw [eval] at h
    obtain ⟨o, st₁, ho, h⟩ := parts_of_ok h
    cases ho
    obtain ⟨hv, -⟩ := of_value h
    rw [identValue, Store.signal?, hsignal, Store.readWholeMemory, hmemory, hfield] at hv
    cases hv
    exact FieldAccess.read_width _ _
  | unresolved hsignal hmemory hfield =>
    rw [eval] at h
    obtain ⟨o, st₁, ho, h⟩ := parts_of_ok h
    cases ho
    obtain ⟨hv, -⟩ := of_value h
    rw [identValue, Store.signal?, hsignal, Store.readWholeMemory, hmemory, hfield] at hv
    cases hv
    rfl
  | string =>
    rw [eval] at h
    cases h
    rfl
  | @call f _ _ _ _ hf =>
    rw [eval] at h
    obtain ⟨args, st₁, -, h⟩ := parts_of_ok h
    cases hs : systemFunction f with
    | some g =>
      rw [hs] at h
      cases h
      exact evalSystem_width g args
    | none =>
      rw [hs, hf] at h
      cases h
      rfl
  | taken hc hd _ ih =>
    rw [eval_ternary_taken hc hd] at h
    exact ih h
  | merged hc hd _ ht _ iht ihf =>
    rw [eval_ternary_merged hc hd] at h
    obtain ⟨tv, st₂, ht', h⟩ := parts_of_ok h
    obtain ⟨fv, st₃, hf', h⟩ := parts_of_ok h
    cases h
    cases ht.symm.trans ht'
    rw [mergeXz_width, iht ht, ihf hf']

/-! ## Positions in a concatenation -/

/-- The parts to the right of a value do not touch its bits. -/
theorem bit_foldl_concat (vs : List Value) (v : Value) (j : Nat) :
    (vs.foldl Value.concat v).bit ((vs.map Value.width).sum + j) = v.bit j := by
  induction vs generalizing v j with
  | nil => rw [List.foldl_nil, List.map_nil, List.sum_nil, Nat.zero_add]
  | cons u us ih =>
    rw [List.foldl_cons, List.map_cons, List.sum_cons,
      show u.width + (us.map Value.width).sum + j = (us.map Value.width).sum + (u.width + j) by omega, ih,
      bit_concat, if_neg (by omega), Nat.add_sub_cancel_left]

/-- A part of a concatenation starts where the parts to its right end. -/
theorem bit_concatValues {vs : List Value} {i j : Nat} {v : Value} (hi : vs[i]? = some v)
    (hj : j < v.width) :
    (concatValues vs).bit (((vs.drop (i + 1)).map Value.width).sum + j) = v.bit j := by
  obtain ⟨hlt, rfl⟩ := List.getElem?_eq_some_iff.mp hi
  cases vs with
  | nil => cases hlt
  | cons u us =>
    rw [concatValues]
    cases i with
    | zero => exact bit_foldl_concat us u j
    | succ i =>
      have hlt' : i < us.length := Nat.lt_of_succ_lt_succ hlt
      have hsplit : us = us.take i ++ us[i] :: us.drop (i + 1) := by
        rw [List.getElem_cons_drop, List.take_append_drop]
      have hfold : us.foldl Value.concat u
          = (us.drop (i + 1)).foldl Value.concat (((us.take i).foldl Value.concat u).concat us[i]) := by
        conv_lhs => rw [hsplit]
        rw [List.foldl_append, List.foldl_cons]
      rw [List.drop_succ_cons, hfold, bit_foldl_concat, bit_concat, List.getElem_cons_succ,
        if_pos (by simpa using hj)]

/-- Two lists whose ends have the same sums are equal. -/
theorem drop_sum_eq_iff {as bs : List Nat} (h : as.length = bs.length) :
    (∀ i, (as.drop i).sum = (bs.drop i).sum) ↔ as = bs := by
  refine ⟨fun hsum => ?_, fun heq i => by rw [heq]⟩
  induction as generalizing bs with
  | nil => exact (List.eq_nil_of_length_eq_zero h.symm).symm
  | cons a as ih =>
    cases bs with
    | nil => cases h
    | cons b bs =>
      have htail : as = bs := ih (Nat.succ.inj h) fun i => by
        have := hsum (i + 1)
        rwa [List.drop_succ_cons, List.drop_succ_cons] at this
      have hhead := hsum 0
      rw [List.drop_zero, List.drop_zero, List.sum_cons, List.sum_cons, htail] at hhead
      rw [htail, Nat.add_right_cancel hhead]

theorem length_evalParts {ps : List Expr} {vs : List Value} {st st' : Store T}
    (h : S.evalParts ps st = (.ok vs, st')) : vs.length = ps.length := by
  induction ps generalizing vs st with
  | nil =>
    cases h
    rfl
  | cons p ps ih =>
    rw [evalParts] at h
    obtain ⟨v, st₁, -, h⟩ := parts_of_ok h
    obtain ⟨us, st₂, hus, h⟩ := parts_of_ok h
    cases h
    rw [List.length_cons, List.length_cons, ih hus]

/-! ## The width a parent assumes -/

/-- A well-formed expression asked for at least its own width has exactly the width asked for, unless a
narrower value is returned as it is. -/
theorem width_eq_iff {e : Expr} {width : Nat} {ov : Option Bool} {st st' : Store T} {v : Value}
    (hwf : wellFormed e = true) (hwidth : S.selfWidth e ≤ width)
    (h : S.eval e (.context width ov) st = (.ok v, st')) :
    v.width = width ↔ ¬ ∃ w < width, S.Bare e width ov st w := by
  constructor
  · rintro hv ⟨w, hlt, hb⟩
    rw [hb.width_eq h] at hv
    omega
  · intro hbare
    obtain ⟨hle, hge⟩ := widthRule hwf h
    rw [requestWidth, Nat.max_eq_left hwidth] at hle
    obtain hge | ⟨w, hb, hw⟩ := hge width ov rfl
    · exact le_antisymm hle hge
    · by_contra hne
      exact hbare ⟨w, by omega, hb⟩

variable (S) in
/-- A part of the concatenation returns, as it is, a value narrower than the width it is counted with. -/
def BarePart : List Expr → Store T → Prop
  | [], _ => False
  | e :: es, st =>
      (∃ w < S.selfWidth e, S.Bare e (S.selfWidth e) none st w) ∨
        ∃ v st', S.eval e (.context (S.selfWidth e) none) st = (.ok v, st') ∧ BarePart es st'

/-- The parts have the widths they are counted with unless one of them returns a narrower value. -/
theorem evalParts_width_iff {ps : List Expr} {vs : List Value} {st st' : Store T}
    (hwf : allWellFormed ps = true) (h : S.evalParts ps st = (.ok vs, st')) :
    vs.map Value.width = ps.map S.selfWidth ↔ ¬ S.BarePart ps st := by
  induction ps generalizing vs st with
  | nil =>
    cases h
    exact iff_of_true rfl not_false
  | cons p ps ih =>
    rw [allWellFormed, Bool.and_eq_true] at hwf
    rw [evalParts] at h
    obtain ⟨v, st₁, hv, h⟩ := parts_of_ok h
    obtain ⟨us, st₂, hus, h⟩ := parts_of_ok h
    cases h
    have hrest : (∃ v st', S.eval p (.context (S.selfWidth p) none) st = (.ok v, st') ∧ S.BarePart ps st') ↔
        S.BarePart ps st₁ := by
      constructor
      · rintro ⟨v', st'', hv', hb⟩
        rw [hv] at hv'
        cases hv'
        exact hb
      · exact fun hb => ⟨v, st₁, hv, hb⟩
    rw [BarePart, hrest, not_or, List.map_cons, List.map_cons, List.cons_eq_cons,
      width_eq_iff hwf.1 le_rfl hv, ih hwf.2 hus]

/-- **A value has the width its parent assumes, unless it is returned as it is.** Asked for at least its
own width, an expression has exactly the width asked for if and only if its value is not a narrower struct
field, unresolved name, string or system function's result. A member of a concatenation starts where the
members to its right end, which is where their self-determined widths say for every member if and only if
no member is such a value. -/
theorem eval_width_iff (S : Scope T) {e : Expr} {width : Nat} {ov : Option Bool} {st st' : Store T}
    {v : Value} (hwf : wellFormed e = true) (hwidth : S.selfWidth e ≤ width)
    (h : S.eval e (.context width ov) st = (.ok v, st')) :
    (v.width = width ↔ ¬ ∃ w < width, S.Bare e width ov st w) ∧
      ∀ {ps : List Expr} {vs : List Value} {st st' : Store T}, allWellFormed ps = true →
        S.evalParts ps st = (.ok vs, st') →
        (∀ i part j, vs[i]? = some part → j < part.width →
          (concatValues vs).bit (((vs.drop (i + 1)).map Value.width).sum + j) = part.bit j) ∧
        ((∀ i, ((vs.drop i).map Value.width).sum = S.selfWidthSum (ps.drop i)) ↔ ¬ S.BarePart ps st) := by
  refine ⟨width_eq_iff hwf hwidth h, fun {ps vs st st'} hps hvs => ⟨?_, ?_⟩⟩
  · intro i part j hi hj
    exact bit_concatValues hi hj
  · have hlen : (vs.map Value.width).length = (ps.map S.selfWidth).length := by
      rw [List.length_map, List.length_map, length_evalParts hvs]
    simp only [selfWidthSum_eq, List.map_drop]
    rw [drop_sum_eq_iff hlen]
    exact evalParts_width_iff hps hvs

end Scope

/-! ## A struct field beside a wider vector -/

/-- `c`, a 16-bit `w` and a packed struct `s` of 8 bits. -/
def structTable : SignalTable := .vectors [("c", 1, false), ("w", 16, false), ("s", 8, false)]

/-- `s.f` is the low half of `s`. -/
def structScope : Scope structTable where
  field n := if n = "s.f" then some ⟨4, fun st => (st.signal "s").resize 4, fun _ => rfl⟩ else none
  function _ := none
  field_memory _ h := absurd rfl h
  function_system _ _ := rfl

/-- `c ? s.f : w`. -/
def fieldOrVector : Expr := .ternary (.ident [] "c") (.ident ["s"] "f") (.ident [] "w")

/-- `{8'hff, c ? s.f : w}`. -/
def besideField : List Expr := [.literal (.sized (some 8) false .hex [.num (Fin.last 15), .num (Fin.last 15)]), fieldOrVector]

/-- `c` with this value, every bit of `s` and `w` 1. -/
def structStore (c : Nat) : Store structTable :=
  .ofBits structTable (fun n => if n = "c" then c else 2 ^ 16 - 1) fun _ => 0

/-- While `c` is 0, `c ? s.f : w` has the 16 bits of `w` and no part of the concatenation is narrower. -/
theorem eval_width_iff_vector :
    (¬ ∃ w < 16, structScope.Bare fieldOrVector 16 none (structStore 0) w) ∧
      ¬ structScope.BarePart besideField (structStore 0) := by
  have h : structScope.eval fieldOrVector (.context 16 none) (structStore 0)
      = (.ok (ofInt 65535 16), structStore 0) := Prod.ext rfl rfl
  have hparts : structScope.evalParts besideField (structStore 0)
      = (.ok [ofInt 255 8, ofInt 65535 16], structStore 0) := Prod.ext rfl rfl
  have hwidth := structScope.eval_width_iff (rfl) (by decide) h
  refine ⟨hwidth.1.mp rfl, (hwidth.2 (rfl) hparts).2.mp fun i => ?_⟩
  match i with
  | 0 => rfl
  | 1 => rfl
  | i + 2 => simp [besideField, Scope.selfWidthSum]

/-- While `c` is 1, the 4 bits of `s.f` stand for the 16 the concatenation counts: `8'hff` lands at bit 4. -/
theorem eval_narrowField :
    (¬ ∀ e width v st', Scope.wellFormed e = true → structScope.selfWidth e ≤ width →
      structScope.eval e (.context width none) (structStore 1) = (.ok v, st') → v.width = width) ∧
    structScope.selfWidthSum (besideField.drop 1) = 16 ∧
    structScope.eval (.concat false besideField) (.context 24 none) (structStore 1)
      = (.ok (ofInt (255 * 2 ^ 4 + 15) 24), structStore 1) := by
  refine ⟨fun hall => ?_, rfl, Prod.ext rfl rfl⟩
  have h : structScope.eval fieldOrVector (.context 16 none) (structStore 1)
      = (.ok (ofInt 15 4), structStore 1) := Prod.ext rfl rfl
  exact absurd (hall fieldOrVector 16 _ _ (rfl) (by decide) h) (by decide)

end Veriforge

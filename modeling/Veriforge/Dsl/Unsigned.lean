import Veriforge.Dsl.Constants
import Veriforge.Emit.Cast

/-! # Expressions of unsigned signals

What the evaluator makes of the expressions that a module without signed signals is built from, whether the bits of its
signals are known or not. A literal is signed, which its context overrides. -/

namespace Veriforge.Dsl

open Value Veriforge.Literal Emit

variable {T : SignalTable} (st : Store T)

/-- The expression is `w` bits wide and has the value `v W` at every width `W` from there on, in a context that is not
signed; asked for no width, it has the value at its own. -/
structure Gives (e : Expr) (w : Nat) (v : Nat → Value) : Prop where
  selfWidth : selfWidth T e = w
  pos : 0 < w
  wide : ∀ W ov, w ≤ W → ov ≠ some true → evalRequest st e (.context W ov) = some (v W)
  own : evalRequest st e (.context 0 none) = some (v w)
  width : ∀ W, w ≤ W → (v W).width = W

theorem getD_of_ne {ov : Option Bool} (h : ov ≠ some true) : ov.getD false = false := by
  cases ov with
  | none => rfl
  | some s =>
    cases s with
    | false => rfl
    | true => exact absurd rfl h

/-- A value that is extended with zeros. -/
theorem widen_resize {v : Value} {W : Nat} (h : v.width ≤ W) : widen false v W = some (v.resize W) := by
  rw [widen]
  split
  · rfl
  · rw [resize_of_width (by omega)]

theorem Gives.resize {e : Expr} {v : Value} (hself : Veriforge.selfWidth T e = v.width) (hpos : 0 < v.width)
    (h : ∀ W ov, ov ≠ some true → evalRequest st e (.context W ov) = widen false v W) :
    Gives st e v.width fun W => v.resize W where
  selfWidth := hself
  pos := hpos
  wide W ov hW hov := by rw [h W ov hov, widen_resize hW]
  own := by rw [h 0 none (by simp), widen_zero, resize_of_width rfl]
  width W _ := rfl

/-! ## Leaves and selects -/

theorem gives_ident {name : String} {w : Nat} (hw : T.width name = some w) (hs : T.signed name = false) :
    Gives st (.ident [] name) w fun W => (st.signal name).resize W := by
  have hwidth := st.signal_width name w hw
  have hself : selfWidth T (.ident [] name) = (st.signal name).width := by
    rw [selfWidth, hwidth]
    simp only [identifierName, hw]
  have h := Gives.resize st hself (hwidth ▸ T.width_pos name w hw) fun W ov hov => by
    have hsigned : exprSigned T (.ident [] name) = false := by
      rw [exprSigned]
      exact hs
    rw [evalRequest]
    simp only [identifierName, Store.signal?_eq_some hw, Request.width_context, Request.signedOverride_context,
      hsigned, getD_of_ne hov]
  rwa [hwidth] at h

theorem gives_toExprNode {z : Int} (hz : 0 ≤ z) :
    Gives st (.literal (toExprNode z)) (nodeWidth z) fun W => ofInt z W where
  selfWidth := (holds_toExprNode z).selfWidth
  pos := nodeWidth_pos z
  wide W ov hW _ := by
    have heval : evalRequest st (.literal (toExprNode z)) (.context W ov) = _ :=
      eval_literal (holds_toExprNode z) W ov
    have hfits := fits_true.mp (holds_toExprNode z).fits
    rw [heval]
    split
    · rw [resize_ofInt (fits_false.mpr ⟨hz, by omega⟩)]
    · rw [max_eq_right hW]
  own := by
    have heval : evalRequest st (.literal (toExprNode z)) (.context 0 none) = _ :=
      eval_literal (holds_toExprNode z) 0 none
    rw [heval, if_neg (by simp), Nat.max_zero]
  width W _ := rfl

/-- A literal index is its integer. -/
theorem indexInt_toExprNode (z : Int) (again : Option Value) :
    indexInt T (.literal (toExprNode z)) (ofInt z (nodeWidth z)) again = some z := by
  have hself : selfWidth T (.literal (toExprNode z)) = nodeWidth z := (holds_toExprNode z).selfWidth
  have hsigned : exprSigned T (.literal (toExprNode z)) = true := (holds_toExprNode z).signed
  rw [indexInt, hself, hsigned]
  simp only [Bool.not_true, Bool.false_eq_true, if_false, init_width, lt_irrefl]
  exact asSigned_ofInt (nodeWidth_pos z) (fits_nodeWidth z)

/-- A bit of a vector. -/
theorem gives_bitSelect {name : String} {w : Nat} (hw : T.width name = some w) (hs : T.signed name = false)
    (hm : T.memory name = none) (hb : T.signalBase name = 0) {k : Int} (hk : 0 ≤ k) :
    Gives st (.bitSelect (.ident [] name) (.literal (toExprNode k))) 1
      fun W => ((st.signal name).getBit k).resize W := by
  have hwidth : ((st.signal name).getBit k).width = 1 := by
    rw [getBit]
    split <;> rfl
  have hmem : memoryTarget? T (.ident [] name) = none := by simp [memoryTarget?, identifierName, hm]
  have hself : selfWidth T (.bitSelect (.ident [] name) (.literal (toExprNode k)))
      = ((st.signal name).getBit k).width := by
    rw [selfWidth, memoryWidth?, hmem, hwidth]
    rfl
  have h := Gives.resize st hself (by omega) fun W ov hov => by
    have hindex : selectBit T (.ident [] name) ((st.signal name).resize w) (.literal (toExprNode k))
        (ofInt k (nodeWidth k))
        (evalRequest st (.literal (toExprNode k)) (.context (selfWidth T (.literal (toExprNode k))) (some true)))
        = some ((st.signal name).getBit k) := by
      rw [selectBit, if_pos (by simp [isDefined]), indexInt_toExprNode, selectBase, identifierName, hb,
        resize_of_width (st.signal_width name w hw)]
      simp
    rw [evalRequest, hmem]
    simp only [(gives_ident st hw hs).own, (gives_toExprNode st hk).own, Request.width_context,
      Request.signedOverride_context, getD_of_ne hov]
    show (selectBit T (.ident [] name) ((st.signal name).resize w) (.literal (toExprNode k)) (ofInt k (nodeWidth k))
      _).bind (fun result => widen false result W) = _
    rw [hindex, Option.bind_some]
  rwa [hwidth] at h

/-- The low bits of a vector. -/
theorem gives_low {name : String} {w : Nat} (hw : T.width name = some w) (hs : T.signed name = false)
    (hb : T.signalBase name = 0) {n : Nat} (hn : 0 < n) (hnw : n ≤ w) :
    Gives st (.rangeSelect (.ident [] name) (.literal (toExprNode ((n : Int) - 1))) (.literal (toExprNode 0))) n
      fun W => ((st.signal name).resize n).resize W := by
  have hwidth := st.signal_width name w hw
  have hlast : 0 ≤ (n : Int) - 1 := by omega
  have hrange : (st.signal name).getRange ((n : Int) - 1) 0 = (st.signal name).resize n := by
    rw [← getRange_low hn (by omega)]
    congr 1
    omega
  have hself : selfWidth T
      (.rangeSelect (.ident [] name) (.literal (toExprNode ((n : Int) - 1))) (.literal (toExprNode 0)))
      = ((st.signal name).resize n).width := by
    rw [selfWidth]
    show ((n : Int) - 1 - 0 + 1).toNat = n
    omega
  have h := Gives.resize st hself (by simpa using hn) fun W ov hov => by
    have hselect : ∀ again again₀, selectRange T (.ident [] name) ((st.signal name).resize w)
        (.literal (toExprNode ((n : Int) - 1))) (ofInt ((n : Int) - 1) (nodeWidth ((n : Int) - 1))) again
        (.literal (toExprNode 0)) (ofInt 0 (nodeWidth 0)) again₀ = some ((st.signal name).resize n) := by
      intro again again₀
      rw [selectRange, if_pos (by simp [isDefined]), indexInt_toExprNode, indexInt_toExprNode, selectBase,
        identifierName, hb, resize_of_width hwidth, ← hrange]
      simp
    rw [evalRequest]
    simp only [(gives_ident st hw hs).own, (gives_toExprNode st hlast).own, (gives_toExprNode st (le_refl 0)).own,
      Request.width_context, Request.signedOverride_context, getD_of_ne hov, Option.bind_eq_bind, Option.bind_some,
      hselect]
  rwa [resize_width] at h

/-- A word of a memory, unknown where the index is. -/
theorem gives_word {name : String} {ew depth wi : Nat} {i : Expr} {v : Nat → Value}
    (hm : T.memory name = some (ew, depth)) (hs : T.signed name = false) (hi : Gives st i wi v)
    (hsi : exprSigned T i = false) :
    Gives st (.bitSelect (.ident [] name) i) ew fun W =>
      (if (v wi).isDefined then st.readWord name ew depth (v wi).val else x ew).resize W := by
  have hmem : memoryTarget? T (.ident [] name) = some (name, ew, depth) := by
    simp [memoryTarget?, identifierName, hm]
  have hwidth : (if (v wi).isDefined then st.readWord name ew depth (v wi).val else x ew).width = ew := by
    split
    · exact st.readWord_width hm _
    · rfl
  have hself : selfWidth T (.bitSelect (.ident [] name) i)
      = (if (v wi).isDefined then st.readWord name ew depth (v wi).val else x ew).width := by
    rw [selfWidth, memoryWidth?, hmem, hwidth]
    rfl
  have hselect : ∀ again, selectWord T st name ew depth i (v wi) again
      = some (if (v wi).isDefined then st.readWord name ew depth (v wi).val else x ew) := by
    intro again
    rw [selectWord, indexInt, hsi]
    split
    · rfl
    · rfl
  have hpos : 0 < (if (v wi).isDefined then st.readWord name ew depth (v wi).val else x ew).width := by
    rw [hwidth]
    exact T.memory_pos name ew depth hm
  have h := Gives.resize st hself hpos fun W ov hov => by
    rw [evalRequest, hmem]
    simp only [hi.own, Request.width_context, Request.signedOverride_context, hs, getD_of_ne hov,
      Option.bind_eq_bind, Option.bind_some, hselect]
  rwa [hwidth] at h

/-! ## Operators -/

variable {st}

section

variable {l r : Expr} {wl wr : Nat} {vl vr : Nat → Value} (hl : Gives st l wl vl) (hr : Gives st r wr vr)
  (hs : (exprSigned T l && exprSigned T r) = false)

include hl hr hs

/-- The operands of a comparison are evaluated at the wider of their widths. -/
theorem gives_comparison (op : BinaryOp) (hop : op = .eq ∨ op = .ne) {v : Value}
    (hv : evalBinaryOp op (vl (max wl wr)) (vr (max wl wr)) = some v) (hvw : v.width = 1) :
    Gives st (.binary op l r) 1 fun W => v.resize W := by
  have hcomparison : op.isComparison = true := by rcases hop with rfl | rfl <;> rfl
  have hresult : evalBinaryResult op false false (vl (max wl wr)) (vr (max wl wr)) = some v := by
    rw [← hv]
    rcases hop with rfl | rfl <;> rfl
  have hself : selfWidth T (.binary op l r) = v.width := by
    rw [selfWidth_binary, resultWidth_comparison _ _ hcomparison, hvw]
  have h := Gives.resize st hself (by omega) fun W ov hov => by
    rw [evalRequest_comparison hcomparison, hs, hl.selfWidth, hr.selfWidth,
      hl.wide _ _ (le_max_left _ _) (by simp), hr.wide _ _ (le_max_right _ _) (by simp)]
    simp only [Option.bind_some, widen_of_le (hl.width _ (le_max_left _ _)).ge,
      widen_of_le (hr.width _ (le_max_right _ _)).ge, hresult, Request.width_context,
      Request.signedOverride_context, getD_of_ne hov]
    exact fit_of_width_one hvw
  rwa [hvw] at h

/-- Sums, differences and products, of the width asked for or of the operands' where that is more. -/
theorem evalRequest_arithmetic_of_gives {op : BinaryOp} (hop : op.isArithmetic = true)
    {f : Value → Value → Value} (hf : evalBinaryOp op = fun a b => some (f a b)) (W : Nat) {ov : Option Bool}
    (hov : ov ≠ some true) :
    evalRequest st (.binary op l r) (.context W ov) =
      fit false (f (vl (max W (max wl wr))) (vr (max W (max wl wr)))) W := by
  have hle : wl ≤ max W (max wl wr) := le_trans (le_max_left _ _) (le_max_right _ _)
  have hre : wr ≤ max W (max wl wr) := le_trans (le_max_right _ _) (le_max_right _ _)
  have hresult : ∀ a b, evalBinaryResult op false false a b = some (f a b) := by
    intro a b
    rw [← congrFun (congrFun hf a) b]
    cases op <;> first | rfl | cases hop
  rw [evalRequest_arithmetic hop, hs]
  simp only [operandTarget, hl.selfWidth, hr.selfWidth, Request.width_context, Request.signedOverride_context,
    getD_of_ne hov, hl.wide _ (some false) hle (by simp), hr.wide _ (some false) hre (by simp), Option.bind_some,
    widen_of_le (hl.width _ hle).ge, widen_of_le (hr.width _ hre).ge, hresult]

theorem gives_arithmetic (op : BinaryOp) (hop : op.isArithmetic = true)
    {f : Value → Value → Value} (hf : evalBinaryOp op = fun a b => some (f a b))
    (hfw : ∀ a b : Value, a.width = b.width → (f a b).width = a.width) :
    Gives st (.binary op l r) (max wl wr) fun W => f (vl W) (vr W) where
  selfWidth := by
    rw [selfWidth_binary, resultWidth_arithmetic _ _ hop, hl.selfWidth, hr.selfWidth]
  pos := lt_of_lt_of_le hl.pos (le_max_left _ _)
  wide W ov hW hov := by
    have hlW := hl.width W (le_trans (le_max_left _ _) hW)
    have hrW := hr.width W (le_trans (le_max_right _ _) hW)
    rw [evalRequest_arithmetic_of_gives hl hr hs hop hf W hov, max_eq_left hW]
    exact fit_of_width ((hfw _ _ (hlW.trans hrW.symm)).trans hlW)
  own := by
    rw [evalRequest_arithmetic_of_gives hl hr hs hop hf 0 (by simp), Nat.zero_max]
    simp [fit]
  width W hW := by
    have hlW := hl.width W (le_trans (le_max_left _ _) hW)
    have hrW := hr.width W (le_trans (le_max_right _ _) hW)
    exact (hfw _ _ (hlW.trans hrW.symm)).trans hlW

/-- Asked for fewer bits than its operands have, an operator is computed at their width and cut. -/
theorem evalRequest_narrow_of_gives (op : BinaryOp) (hop : op.isArithmetic = true)
    {f : Value → Value → Value} (hf : evalBinaryOp op = fun a b => some (f a b))
    (hfw : ∀ a b : Value, a.width = b.width → (f a b).width = a.width) {W : Nat} (hW : 0 < W) :
    evalRequest st (.binary op l r) (.context W none) =
      some ((f (vl (max W (max wl wr))) (vr (max W (max wl wr)))).resize W) := by
  have hlW := hl.width (max W (max wl wr)) (le_trans (le_max_left _ _) (le_max_right _ _))
  have hrW := hr.width (max W (max wl wr)) (le_trans (le_max_right _ _) (le_max_right _ _))
  rw [evalRequest_arithmetic_of_gives hl hr hs hop hf W (by simp)]
  exact fit_of_le hW (by rw [hfw _ _ (hlW.trans hrW.symm), hlW]; exact le_max_left _ _)

/-- The bits of both operands. -/
theorem gives_and : Gives st (.binary .bitAnd l r) (max wl wr) fun W => (vl W).and (vr W) where
  selfWidth := by
    rw [selfWidth_binary, resultWidth_bitwise _ _ rfl, hl.selfWidth, hr.selfWidth]
  pos := lt_of_lt_of_le hl.pos (le_max_left _ _)
  wide W ov hW hov := by
    have hlW : wl ≤ W := le_trans (le_max_left _ _) hW
    have hrW : wr ≤ W := le_trans (le_max_right _ _) hW
    have hwidth : ((vl W).and (vr W)).width = W := by
      rw [and_width, hl.width W hlW, hr.width W hrW, max_self]
    rw [evalRequest_bitwise rfl, hs]
    simp only [operandTarget, hl.selfWidth, hr.selfWidth, Request.width_context, Request.signedOverride_context,
      getD_of_ne hov, max_eq_left hW, hl.wide W (some false) hlW (by simp), hr.wide W (some false) hrW (by simp),
      Option.bind_some, align_of_width (hl.width W hlW), align_of_width (hr.width W hrW), evalBinaryOp,
      fit_of_width hwidth]
  own := by
    have hlW : wl ≤ max wl wr := le_max_left _ _
    have hrW : wr ≤ max wl wr := le_max_right _ _
    rw [evalRequest_bitwise rfl, hs]
    simp only [operandTarget, hl.selfWidth, hr.selfWidth, Request.width_context, Request.signedOverride_context,
      Option.getD_none, Nat.zero_max, hl.wide _ (some false) hlW (by simp), hr.wide _ (some false) hrW (by simp),
      Option.bind_some, align_of_width (hl.width _ hlW), align_of_width (hr.width _ hrW), evalBinaryOp]
    simp [fit]
  width W hW := by
    rw [and_width, hl.width W (le_trans (le_max_left _ _) hW), hr.width W (le_trans (le_max_right _ _) hW), max_self]

end

/-- The bits of an operand, inverted. -/
theorem gives_not {e : Expr} {w : Nat} {v : Nat → Value} (h : Gives st e w v) :
    Gives st (.unary .bitNot e) w fun W => (v W).invert where
  selfWidth := by
    rw [selfWidth]
    exact h.selfWidth
  pos := h.pos
  wide W ov hW hov := by
    rw [evalRequest_unary_context rfl]
    simp only [Request.width_context, Request.signedOverride_context, h.wide W ov hW hov, Option.bind_some, fitOperand,
      h.width W hW, ne_eq, not_true_eq_false, and_false, if_false, Option.map_some, evalUnaryOp]
  own := by
    rw [evalRequest_unary_context rfl]
    simp [h.own, fitOperand, evalUnaryOp]
  width W hW := (invert_width _).trans (h.width W hW)

end Veriforge.Dsl

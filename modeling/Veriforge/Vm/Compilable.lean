import Veriforge.Sim.Narrow
import Veriforge.Vm.CompileExpr

/-! # What compiles faithfully

The compiler's code computes what the evaluator does except at a few kinds of node: a negation of an operand
that was cut to the context's width; a select whose position the machine's 32- and 64-bit unsigned
arithmetic places elsewhere; a branch that the evaluator skips and the machine runs, when running it
raises; and literals that the two sides size differently. `Compilable` rules each of them out at a node. -/

namespace Veriforge

open Value

/-! ## Selecting the same bits -/

/-- Two ranges of one length that select the same bits of a vector of width `n`: the same range, or two
that lie outside it. -/
def SameRange (n : Nat) (hi lo hi' lo' : Int) : Prop :=
  lo ≤ hi ∧ hi - lo = hi' - lo' ∧ (lo = lo' ∨ (hi < 0 ∨ n ≤ lo) ∧ (hi' < 0 ∨ n ≤ lo'))

theorem SameRange.refl (n : Nat) {hi lo : Int} (h : lo ≤ hi) : SameRange n hi lo hi lo :=
  ⟨h, rfl, Or.inl rfl⟩

theorem Value.bitAt_outside {v : Value} {p : Int} (h : p < 0 ∨ (v.width : Int) ≤ p) :
    v.bitAt p = none := if_neg (by omega)

theorem SameRange.getRange {v : Value} {hi lo hi' lo' : Int} (h : SameRange v.width hi lo hi' lo') :
    v.getRange hi lo = v.getRange hi' lo' := by
  obtain ⟨hle, hlen, hbits⟩ := h
  have hob := orderBounds_of_le hle
  have hob' : orderBounds hi' lo' = (hi', lo') := orderBounds_of_le (by omega)
  refine ext_bit_lt (by rw [getRange_width, getRange_width, hob, hob']; simp only; omega) fun i hi => ?_
  have hi' : i < (v.getRange hi' lo').width := by
    rw [getRange_width, hob] at hi
    rw [getRange_width, hob']
    simp only at hi ⊢
    omega
  rw [bit_getRange v _ _ hi, bit_getRange v _ _ hi', hob, hob']
  rcases hbits with rfl | ⟨ho, ho'⟩
  · rfl
  · rw [getRange_width, hob] at hi
    simp only at hi ⊢
    rw [bitAt_outside (by omega), bitAt_outside (by omega)]

theorem SameRange.getBit {v : Value} {p p' : Int} (h : SameRange v.width p p p' p') : v.getBit p = v.getBit p' := by
  refine ext_bit_lt (by simp) fun i hi => ?_
  rw [getBit_width, Nat.lt_one_iff] at hi
  subst hi
  rw [bit_getBit, bit_getBit]
  obtain ⟨-, -, rfl | ⟨ho, ho'⟩⟩ := h
  · rfl
  · rw [bitAt_outside ho, bitAt_outside ho']

theorem SameRange.readWord {T : SignalTable} (st : Store T) (name : String) (ew : Nat) {depth : Nat}
    {p p' : Int} (h : SameRange depth p p p' p') :
    st.readWord name ew depth p = st.readWord name ew depth p' := by
  obtain ⟨-, -, rfl | ⟨ho, ho'⟩⟩ := h
  · rfl
  · rw [Store.readWord, Store.readWord, if_neg (by omega), if_neg (by omega)]

/-- The bounds of an indexed part. -/
def partHigh (d : Direction) (base : Int) (width : Nat) : Int :=
  match d with
  | .up => base + width - 1
  | .down => base

def partLow (d : Direction) (base : Int) (width : Nat) : Int :=
  match d with
  | .up => base
  | .down => base - width + 1

theorem getPart_eq (v : Value) (base : Int) (width : Nat) (d : Direction) :
    getPart v base width d = v.getRange (partHigh d base width) (partLow d base width) := by
  cases d <;> rfl

namespace Vm

/-! ## Positions as the machine computes them -/

/-- A position less the target's low bound, as `_append_base_adjust` computes it. -/
def rebased (base : Int) (v : Value) : Value := if base = 0 then v else v.sub (ofInt base 32)

theorem rebased_isDefined (base : Int) (v : Value) : (rebased base v).isDefined = v.isDefined := by
  unfold rebased
  split
  · rfl
  by_cases hm : v.mask = 0
  · have hd : v.isDefined = true := isDefined_iff.mpr hm
    rw [hd, isDefined_iff, sub, if_neg (by simp [hm]), ofInt_mask]
  · have hd : v.isDefined = false := by rw [isDefined, beq_eq_false_iff_ne]; exact hm
    rw [hd, sub, if_pos (Or.inl hm), isDefined, beq_eq_false_iff_ne]
    intro h0
    have hb := bit_x (max v.width (ofInt base 32).width) 0
    rw [if_pos (by rw [init_width]; omega), bit, h0, Nat.zero_testBit] at hb
    exact absurd hb (by simp)

section

variable (T : SignalTable)

/-- The base of a part select, as the code places it on the stack. -/
def partBase (t b : Expr) (v : Value) : Option Value :=
  (extendTo (Veriforge.exprSigned T b) v 64).map fun v => (rebased (selectBase T t) v).resize 64

/-- The index, evaluated on its own, can have this value. -/
def Admits (i : Expr) (v : Value) : Prop :=
  v.width = selfWidth T i ∧ ∀ l, i = .literal l → v = l.evalLiteral

/-- The machine reads a select's index, or its constant bounds, at the position the evaluator does. -/
def samePosition : Expr → Prop
  | .bitSelect t i =>
      match memoryTarget? T t with
      | some (_, _, depth) => ∀ v, Admits T i v → v.isDefined = true →
          ∃ n, indexInt T i v none = some n ∧ SameRange depth v.val v.val n n
      | none => ∀ v, Admits T i v → v.isDefined = true → ∃ n, indexInt T i v none = some n ∧
          SameRange (selfWidth T t) (rebased (selectBase T t) v).val (rebased (selectBase T t) v).val
            (n - selectBase T t) (n - selectBase T t)
  | .rangeSelect t (.literal m) (.literal l) => ∀ mi li, m.denoted = some mi → l.denoted = some li →
      SameRange (selfWidth T t) (pos (rebased (selectBase T t) m.evalLiteral))
        (pos (rebased (selectBase T t) l.evalLiteral)) (mi - selectBase T t) (li - selectBase T t)
  | .partSelect t b (.literal w) d => ∀ v, Admits T b v → ∃ u, partBase T t b v = some u ∧ u.isDefined = v.isDefined ∧
      (v.isDefined = true → ∃ n, Veriforge.partBase T b v = some n ∧
        SameRange (selfWidth T t) (partHigh d (pos u) w.evalLiteral.val)
          (partLow d (pos u) w.evalLiteral.val) (partHigh d (n - selectBase T t) w.evalLiteral.val)
          (partLow d (n - selectBase T t) w.evalLiteral.val))
  | _ => True

/-- What the evaluator may skip at the node never raises. -/
def skipsNothingRaising (e : Expr) (w : Nat) : Prop :=
  match e with
  | .binary op _ r => op.isLogical = true → AllAt T (Evaluable T) r 0
  | .ternary _ t f => AllAt T (Evaluable T) t (max w (max (selfWidth T t) (selfWidth T f))) ∧
      AllAt T (Evaluable T) f (max w (max (selfWidth T t) (selfWidth T f)))
  | _ => True

/-- An identifier is a vector, and a literal has one value. -/
def agreedLeaf : Expr → Prop
  | .ident h n => (T.width (identifierName h n)).isSome = true
  | .literal l => l.compileLiteral = l.evalLiteral
  | _ => True

/-- The node's code computes what the evaluator does there. -/
structure Compilable (e : Expr) (w : Nat) : Prop where
  legal : Veriforge.legal T e = true
  exact : exactLiteral e = true
  negates : negatesCut T e w = false
  leaf : agreedLeaf T e
  skips : skipsNothingRaising T e w
  position : samePosition T e

end

variable {T : SignalTable}

theorem Compilable.allLegal {e : Expr} {w : Nat} (h : AllAt T (Compilable T) e w) :
    AllAt T (fun e _ => Veriforge.legal T e = true) e w := h.imp fun _ _ h => h.legal

theorem Compilable.exactCore {e : Expr} {w : Nat} (h : AllAt T (Compilable T) e w) : e.exactCore = true :=
  exactCore_of_all (h.imp fun _ _ h => And.intro h.legal h.exact)

theorem Compilable.exactFill {e : Expr} {w : Nat} (h : Compilable T e w) : exactFill e = true := by
  cases e with
  | literal l => exact (congrArg _ h.exact).trans (Bool.or_true _)
  | _ => rfl

/-- A node compilable at some width up to its own is so at its own width, and at none. -/
theorem Compilable.of_le {e : Expr} {w w' : Nat} (hw : w ≤ selfWidth T e)
    (hw' : w' = 0 ∨ w' = selfWidth T e) (h : Compilable T e w) : Compilable T e w' where
  legal := h.legal
  exact := h.exact
  negates := by
    unfold negatesCut
    split
    · next e =>
      have hself : selfWidth T (.unary .minus e) = selfWidth T e := rfl
      rcases hw' with rfl | rfl
      · rfl
      · rw [hself, decide_eq_false (lt_irrefl _), Bool.and_false]
        rfl
    · rfl
  leaf := h.leaf
  skips := by
    have hs := h.skips
    cases e with
    | ternary c t f =>
      rw [selfWidth] at hw hw'
      rw [skipsNothingRaising, Nat.max_eq_right hw] at hs
      rw [skipsNothingRaising, Nat.max_eq_right (by omega)]
      exact hs
    | binary op l r => exact hs
    | _ => trivial
  position := h.position

theorem Compilable.all_of_le {e : Expr} {w w' : Nat} (hw : w ≤ selfWidth T e)
    (hw' : w' = 0 ∨ w' = selfWidth T e) (h : AllAt T (Compilable T) e w) :
    AllAt T (Compilable T) e w' :=
  h.of_le hw (by omega) (fun _ he => Compilable.of_le (he ▸ hw) (he ▸ hw')) rfl

/-- On compilable expressions the compiler and the evaluator agree on signedness. -/
theorem exprSigned_eq {e : Expr} {w : Nat} (h : AllAt T (Compilable T) e w) :
    exprSigned T e = Veriforge.exprSigned T e := by
  induction e generalizing w with
  | ident hier n =>
    have hv : (T.width (identifierName hier n)).isSome = true := h.self.leaf
    rw [exprSigned, Veriforge.exprSigned, hv, Bool.true_and]
  | unary op e ih =>
    rw [AllAt] at h
    rw [exprSigned, Veriforge.exprSigned, ih h.2]
  | binary op l r ihl ihr =>
    rw [AllAt] at h
    rw [exprSigned, Veriforge.exprSigned, ihl h.2.1, ihr h.2.2]
  | ternary c t f ihc iht ihf =>
    rw [AllAt] at h
    rw [exprSigned, Veriforge.exprSigned, iht h.2.2.1, ihf h.2.2.2]
  | bitSelect t i iht ihi => cases t <;> rfl
  | _ => rfl

end Vm

end Veriforge

import Veriforge.Vm.Compilable

/-! # Code that computes a value

What the instructions of an expression's code do, and how pieces of code that compute values combine. Some of
the machine's operations differ from the evaluator's in form: it divides at its left operand's width, runs
both operands of `&&` and `||`, and both arms of `?:`. -/

namespace Veriforge.Vm

open Value

variable {T : SignalTable} {st : Store T}

/-! ## Instructions -/

theorem execData_extOp (s : Bool) (w : Nat) (v : Value) (stack : List Value) :
    execData st (extOp s w) (v :: stack) = (extendTo s v w).map (· :: stack) := by
  cases s <;> rfl

theorem runData_singleton (op : Op) (stack : List Value) : runData st [op] stack = execData st op stack := by
  rw [runData]
  exact Option.bind_fun_some _

@[simp] theorem extIf_false (s : Bool) (w : Nat) : extIf false s w = [] := rfl

theorem runData_extIf (c s : Bool) (w : Nat) (v : Value) (stack : List Value) : runData st (extIf c s w) (v :: stack)
      = (if c then extendTo s v w else some v).map (· :: stack) := by
  cases c with
  | true =>
    rw [extIf, if_pos rfl, if_pos rfl, runData_singleton]
    exact execData_extOp s w v stack
  | false => rfl

theorem execData_unaryOpcode (op : UnaryOp) (v : Value) (stack : List Value) :
    execData st (unaryOpcode op) (v :: stack) = some (evalUnaryOp op v :: stack) := by
  cases op <;> rfl

theorem sdiv_eq {a b : Value} (hw : b.width ≤ a.width) : sdiv a b = evalSignedDivmod .div a b := by
  unfold sdiv evalSignedDivmod
  by_cases h1 : a.mask ≠ 0 ∨ b.mask ≠ 0
  · rw [if_pos (h1.elim Or.inl fun h => Or.inr (Or.inl h)), if_pos h1]
  · rw [if_neg h1]
    rw [not_or] at h1
    by_cases h2 : b.val = 0
    · rw [if_pos (Or.inr (Or.inr h2)), if_pos h2]
    · rw [if_neg (by tauto), if_neg h2, Nat.max_eq_left hw]
      rfl

theorem smod_eq {a b : Value} (hw : b.width ≤ a.width) : smod a b = evalSignedDivmod .mod a b := by
  unfold smod evalSignedDivmod
  by_cases h1 : a.mask ≠ 0 ∨ b.mask ≠ 0
  · rw [if_pos (h1.elim Or.inl fun h => Or.inr (Or.inl h)), if_pos h1]
  · rw [if_neg h1]
    rw [not_or] at h1
    by_cases h2 : b.val = 0
    · rw [if_pos (Or.inr (Or.inr h2)), if_pos h2]
    · rw [if_neg (by tauto), if_neg h2, Nat.max_eq_left hw]
      rfl

theorem execData_resultOpcode (op : BinaryOp) (bs ss : Bool) {a b : Value} (stack : List Value)
    (hw : op.isDivmod = true → b.width ≤ a.width) :
    execData st (resultOpcode op bs ss) (b :: a :: stack)
      = (evalBinaryResult op bs ss a b).map (· :: stack) := by
  have hdiv : op = .div → (sdiv a b).map (· :: stack) = (evalSignedDivmod .div a b).map (· :: stack) :=
    fun h => by rw [sdiv_eq (hw (h ▸ rfl))]
  have hmod : op = .mod → (smod a b).map (· :: stack) = (evalSignedDivmod .mod a b).map (· :: stack) :=
    fun h => by rw [smod_eq (hw (h ▸ rfl))]
  cases op <;> cases bs <;> first | rfl | exact hdiv rfl | exact hmod rfl | (cases ss <;> rfl)

/-! ## Values that the machine computes in another order -/

/-- The operand that the evaluator skips does not matter. -/
theorem evalBinaryOp_shortCircuit {op : BinaryOp} (hc : op.isLogical = true) (a b : Value) :
    (shortCircuit op a (some b)).bind (evalBinaryOp op a) = evalBinaryOp op a b := by
  unfold shortCircuit
  cases op with
  | logAnd =>
    show (if ((a.val ||| a.mask) != 0) = true then some b else _).bind _ = _
    by_cases h : (a.val ||| a.mask) = 0
    · have hz : a.knownZero = true := by
        rw [Nat.or_eq_zero_iff] at h
        exact knownZero_iff.mpr ⟨h.2, h.1⟩
      rw [if_neg (by simp [h])]
      show some (logicalAnd a _) = some (logicalAnd a b)
      rw [logicalAnd, logicalAnd, hz, Bool.true_or, Bool.true_or]
      rfl
    · rw [if_pos (by simp [h])]
      rfl
  | logOr =>
    show (if (!a.knownOne) = true then some b else _).bind _ = _
    cases h : a.knownOne with
    | true =>
      rw [if_neg (by simp)]
      show some (logicalOr a _) = some (logicalOr a b)
      rw [logicalOr, logicalOr, h, Bool.true_or, Bool.true_or]
      rfl
    | false =>
      rw [if_pos (by simp)]
      rfl
  | _ => exact absurd hc Bool.false_ne_true

/-- `TERNARY` on arms of one width chooses as the evaluator does. -/
theorem ternary_eq (c : Value) {t f : Value} (hw : t.width = f.width) : ternary c t f
      = if c.reduceOr.isDefined = true then (if c.reduceOr.val ≠ 0 then t else f) else mergeXz t f := by
  unfold ternary
  rw [reduceOr_eq]
  by_cases h1 : c.knownOne = true
  · rw [if_pos h1, if_pos h1]
    rfl
  · rw [if_neg h1, if_neg h1]
    by_cases h2 : c.mask = 0
    · rw [if_pos h2, if_neg (not_not_intro h2)]
      rfl
    · rw [if_neg h2, if_pos h2, resize_of_width (by omega), resize_of_width (by omega)]
      rfl

/-! ## Code that computes a value -/

/-- Whatever is on the stack, the code leaves the value on top of it, and raises when there is none. -/
def Computes (st : Store T) (code : List Op) (v : Option Value) : Prop :=
  ∀ stack, runData st code stack = v.map (· :: stack)

theorem Computes.append {p : List Op} {v : Option Value} (h : Computes st p v) (q : List Op)
    (stack : List Value) :
    runData st (p ++ q) stack = v.bind fun v => runData st q (v :: stack) := by
  rw [runData_append, h, Option.map_eq_bind, Option.bind_assoc]
  rfl

theorem computes_loadConst (v : Value) : Computes st [.loadConst v] (some v) := fun _ => rfl

theorem Computes.extIf {p : List Op} {v : Option Value} (h : Computes st p v) (c s : Bool) (w : Nat) :
    Computes st (p ++ extIf c s w) (v.bind fun v => if c then extendTo s v w else some v) := by
  intro stack
  rw [h.append, Option.map_eq_bind, Option.bind_assoc]
  refine Option.bind_congr fun v _ => ?_
  rw [runData_extIf, Option.map_eq_bind]

/-- Extending a value to the width it has does nothing. -/
theorem Computes.extIf_of_width {p : List Op} {v : Option Value} (h : Computes st p v) {c s : Bool}
    {w : Nat} (hw : c = true → ∀ u, v = some u → u.width = w) : Computes st (p ++ Vm.extIf c s w) v := by
  convert h.extIf c s w using 1
  rw [← Option.bind_fun_some v, Option.bind_assoc]
  refine Option.bind_congr fun u hu => ?_
  cases c with
  | true => rw [Option.bind_some, if_pos rfl, extendTo_of_width (hw rfl u hu)]
  | false => rfl

theorem Computes.unary {p : List Op} {v : Option Value} (h : Computes st p v) (op : UnaryOp) :
    Computes st (p ++ [unaryOpcode op]) (v.map (evalUnaryOp op)) := by
  intro stack
  rw [h.append, Option.map_map, Option.map_eq_bind]
  refine Option.bind_congr fun v _ => ?_
  rw [runData_singleton, execData_unaryOpcode]
  rfl

theorem Computes.binary {p q : List Op} {a b : Option Value} (ha : Computes st p a)
    (hb : Computes st q b) (op : BinaryOp) (bs ss : Bool)
    (hw : op.isDivmod = true → ∀ u v, a = some u → b = some v → v.width ≤ u.width) :
    Computes st (p ++ (q ++ [resultOpcode op bs ss]))
      (a.bind fun a => b.bind fun b => evalBinaryResult op bs ss a b) := by
  intro stack
  rw [ha.append, Option.map_bind]
  refine Option.bind_congr fun u hu => ?_
  rw [hb.append, Function.comp, Option.map_bind]
  refine Option.bind_congr fun v hv => ?_
  rw [runData_singleton, execData_resultOpcode op bs ss stack fun h => hw h u v hu hv]
  rfl

theorem Computes.baseAdjust {p : List Op} {v : Option Value} (h : Computes st p v) (base : Int) :
    Computes st (p ++ baseAdjust base) (v.map (rebased base)) := by
  intro stack
  rw [h.append, Option.map_map, Option.map_eq_bind]
  refine Option.bind_congr fun v _ => ?_
  unfold Vm.baseAdjust rebased
  split
  · rfl
  · rfl

end Veriforge.Vm

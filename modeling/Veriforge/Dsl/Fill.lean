import Veriforge.Dsl.DriverType
import Veriforge.Sim.Monotone
import Veriforge.Sim.Sizing
import Veriforge.Sim.Total

/-! # What fills the bits above the driver's width

Evaluated in wider and wider contexts, the value of a driver settles: its low bits stay, and one bit fills all
positions above its width. Not every driver has such a fill, and where the wire is unsigned the fill must be 0. -/

namespace Veriforge.Driver

open Value

/-! ## Operands that are counted right -/

/-- The bit by which a value is extended. -/
def extension (s : Bool) (v : Value) : Option Bool := if s then v.msb else some false

/-- The name is not one of another scope, of which a lookup sees the last part only. -/
def plainName : Expr → Bool
  | .ident h _ => h.isEmpty
  | .bitSelect (.ident h _) _ => h.isEmpty
  | _ => true

/-- The bits of a literal from position `m` on are those by which it is extended. -/
def literalFits (s : Bool) (m : Int) : Expr → Bool
  | .literal l =>
      l.evalLiteral.width == l.selfWidth && (List.range l.evalLiteral.width).all fun i =>
          decide ((i : Int) + s.toNat < m) || l.evalLiteral.bit i == extension s l.evalLiteral
  | _ => false

section

variable (lookup : Lookup) (T : SignalTable)

/-- A self-determined operand is counted with all bits that it is evaluated at. -/
def operandCounted (s : Bool) (e : Expr) : Bool :=
  plainName e && e.selfDetermined && legal T e && widthLegal T e &&
    (driverWidth lookup s e).any fun m => decide ((selfWidth T e : Int) ≤ m) || literalFits s m e

/-- So are all self-determined operands that the width of an expression is counted from. -/
def counted (s : Bool) : Expr → Bool
  | .unary op e => if op.contextDetermined then counted s e else operandCounted lookup T s (.unary op e)
  | .binary op l r =>
      if op.isBitwise then counted s l && counted s r
      else if op.isShift then counted s l
      else operandCounted lookup T s (.binary op l r)
  | .ternary _ t f => counted s t && counted s f
  | e => operandCounted lookup T s e

variable {lookup T}

theorem counted_operand {s : Bool} {e : Expr} (he : e.selfDetermined = true) :
    counted lookup T s e = operandCounted lookup T s e := by
  cases e with
  | unary op e =>
    rw [Expr.selfDetermined, Bool.not_eq_true'] at he
    rw [counted, he, if_neg Bool.false_ne_true]
  | binary op l r =>
    rw [Expr.selfDetermined] at he
    rw [counted]
    cases op <;> first | rfl | cases he
  | ternary => cases he
  | _ => rfl

end

/-! ## Fills -/

/-- A bit of the result of a bitwise operator. -/
def bitwiseBit : BinaryOp → Option Bool → Option Bool → Option Bool
  | .bitAnd, a, b => Kleene.and a b
  | .bitOr, a, b => Kleene.or a b
  | .bitXor, a, b => Kleene.xor a b
  | _, a, b => Kleene.not (Kleene.xor a b)

/-- The fill of a value that is shifted right. An unknown amount makes all bits unknown, and a logical shift brings in
zeros above bits that need not be zeros. -/
def shiftFill (arithmetic : Bool) (a : Option Bool) : Option Value → Option (Option Bool)
  | none => some a
  | some amount =>
      if ¬amount.isDefined then some none
      else if amount.val = 0 ∨ arithmetic ∨ a = some false then some a
      else none

section

variable {T : SignalTable} (st : Store T)

/-- The fill of a self-determined operand. -/
def operandFill (s : Bool) (e : Expr) : Option Bool :=
  ((evalRequest st e (.context 0 (some s))).map (extension s)).getD (some false)

/-- The bit that fills the positions above the width of a driver, in a context of a signedness; `none` where they need
not be alike. -/
def fill (s : Bool) : Expr → Option (Option Bool)
  | .unary op e =>
      if op == .bitNot then (fill s e).map Kleene.not
      else if op == .plus then fill s e
      else some (operandFill st s (.unary op e))
  | .binary op l r =>
      if op.isBitwise then (fill s l).bind fun a => (fill s r).map (bitwiseBit op a)
      else if op.isShift then
        (fill s l).bind fun a => shiftFill (op == .ashr && s) a (evalRequest st r (.context 0 none))
      else some (operandFill st s (.binary op l r))
  | .ternary c t f =>
      match (evalRequest st c (.context (selfWidth T c) none)).map reduceOr with
      | none => some (some false)
      | some cond =>
          -- the other branch is not evaluated
          if cond.isDefined then if cond.val ≠ 0 then fill s t else fill s f
          else (fill s t).bind fun a => (fill s f).map (Kleene.agree a)
  | e => some (operandFill st s e)

variable {st}

theorem fill_operand {s : Bool} {e : Expr} (he : e.selfDetermined = true) :
    fill st s e = some (operandFill st s e) := by
  cases e with
  | unary op e =>
    rw [fill]
    cases op <;> first | rfl | cases he
  | binary op l r =>
    rw [fill]
    cases op <;> first | rfl | cases he
  | ternary => cases he
  | _ => rfl

end

/-! ## Values that settle -/

/-- From position `m` on, and from its sign bit on in a signed context, every bit is `b`. -/
def Filled (p : Nat → Option Bool) (m : Nat) (s : Bool) (b : Option Bool) : Prop :=
  ∀ i, m ≤ i + s.toNat → p i = b

section

variable {T : SignalTable} (st : Store T) (s : Bool) (e : Expr)

/-- In a context of any width from `m` on the bits are the same; the value is as wide as the context or the
expression. -/
def Settles (m : Nat) (p : Nat → Option Bool) : Prop :=
  ∀ W, m ≤ W → 0 < W →
    ∃ v, evalRequest st e (.context W (some s)) = some v ∧ (v.width = W ∨ v.width = max W (selfWidth T e)) ∧
      ∀ i < v.width, v.bit i = p i

/-- The evaluation never returns, or it settles with a fill. -/
def Follows (m : Nat) (b : Option Bool) : Prop :=
  (∀ W, m ≤ W → 0 < W → evalRequest st e (.context W (some s)) = none) ∨ ∃ p, Filled p m s b ∧ Settles st s e m p

variable {st s e}

theorem Filled.mono {p : Nat → Option Bool} {m m' : Nat} {b : Option Bool} (h : Filled p m s b) (hm : m ≤ m') :
    Filled p m' s b := fun i hi => h i (hm.trans hi)

theorem Settles.mono {p : Nat → Option Bool} {m m' : Nat} (h : Settles st s e m p) (hm : m ≤ m') :
    Settles st s e m' p := fun W hW => h W (hm.trans hW)

theorem Follows.mono {m m' : Nat} {b : Option Bool} (h : Follows st s e m b) (hm : m ≤ m') : Follows st s e m' b := by
  rcases h with h | ⟨p, hp, h⟩
  · exact .inl fun W hW => h W (hm.trans hW)
  · exact .inr ⟨p, hp.mono hm, h.mono hm⟩

end

/-! ## Self-determined operands -/

section

variable {T : SignalTable} {st : Store T} {s : Bool} {m : Nat}

/-- A bit of an extended value. -/
theorem bit_extendTo {v r : Value} {W i : Nat} (h : extendTo s v W = some r) (hi : i < W) :
    r.bit i = if i < v.width then v.bit i else extension s v := by
  cases s with
  | false =>
    cases h
    rw [bit_resize, if_pos hi, extension, if_neg Bool.false_ne_true]
    split
    · rfl
    · next h => exact bit_of_width_le (Nat.le_of_not_lt h)
  | true => rw [(signExtend_eq_some h).2 i hi, extension, if_pos rfl]

/-- A value of at most the counted width is filled by its extension. -/
theorem bit_eq_extension {v : Value} {i : Nat} (hv : v.width ≤ m) (hm : m ≤ i + s.toNat) (hi : i < v.width) :
    v.bit i = extension s v := by
  cases s with
  | false =>
    rw [Bool.toNat_false] at hm
    omega
  | true =>
    rw [Bool.toNat_true] at hm
    rw [extension, if_pos rfl, msb, show i = v.width - 1 by omega]

/-- A value that is extended to whatever is asked for settles. -/
theorem follows_widen {e : Expr} {g : Option Value}
    (heq : ∀ W, evalRequest st e (.context W (some s)) = g.bind fun v => widen s v W)
    (hwidth : ∀ v, g = some v → v.width ≤ m ∨ v.width = selfWidth T e)
    (hfill : ∀ v, g = some v → ∀ i < v.width, m ≤ i + s.toNat → v.bit i = extension s v) :
    Follows st s e m ((g.map (extension s)).getD (some false)) := by
  cases hg : g with
  | none => exact .inl fun W _ _ => by rw [heq, hg, Option.bind_none]
  | some v =>
    by_cases h0 : v.width = 0 ∧ s = true
    · -- a value without bits has no sign
      refine .inl fun W _ hW => ?_
      rw [heq, hg, Option.bind_some, widen, if_pos (by omega), extendTo, if_pos h0.2, signExtend,
        if_neg (by omega), if_pos h0.1]
    · refine .inr ⟨fun i => if i < v.width then v.bit i else extension s v, fun i hi => ?_, fun W hW hpos => ?_⟩
      · show (if i < v.width then _ else _) = _
        split
        · next hlt => exact hfill v hg i hlt hi
        · rfl
      · by_cases hlt : v.width < W
        · have hex : ∃ r, extendTo s v W = some r := by
            cases s with
            | false => exact ⟨_, rfl⟩
            | true => exact exists_extendTo (by simp at h0; omega) true W
          obtain ⟨r, hr⟩ := hex
          refine ⟨r, by rw [heq, hg, Option.bind_some, widen, if_pos hlt, hr], .inl (extendTo_width hr),
            fun i hi => ?_⟩
          rw [extendTo_width hr] at hi
          exact bit_extendTo hr hi
        · refine ⟨v, by rw [heq, hg, Option.bind_some, widen, if_neg hlt], ?_, fun i hi => (if_pos hi).symm⟩
          rcases hwidth v hg with h | h
          · exact .inl (by omega)
          · exact .inr (by omega)

variable {lookup : Lookup} {e : Expr} {w : Int} {b : Option Bool}

/-- What an operand is counted with, in pieces. -/
theorem operandCounted_iff : operandCounted lookup T s e = true ↔
      plainName e = true ∧ e.selfDetermined = true ∧ legal T e = true ∧ widthLegal T e = true ∧
        ∃ w, driverWidth lookup s e = some w ∧ ((selfWidth T e : Int) ≤ w ∨ literalFits s w e = true) := by
  simp only [operandCounted, Bool.and_eq_true, Option.any_eq_true, Bool.or_eq_true, decide_eq_true_eq, and_assoc]

theorem selfDetermined_of_operandCounted (h : operandCounted lookup T s e = true) : e.selfDetermined = true :=
  (operandCounted_iff.1 h).2.1

/-- A self-determined operand that is counted right settles. -/
theorem follows_operand (hc : operandCounted lookup T s e = true) (hw : driverWidth lookup s e = some w) :
    Follows st s e w.toNat (operandFill st s e) := by
  obtain ⟨-, hself, hlegal, hwl, w', hw', hfits⟩ := operandCounted_iff.1 hc
  obtain rfl : w = w' := Option.some.inj (hw.symm.trans hw')
  have heq : ∀ W, evalRequest st e (.context W (some s)) =
      (evalRequest st e (.context 0 (some s))).bind fun v => widen s v W := fun W =>
    evalRequest_selfDetermined hself hlegal W (some s)
  have hle : ∀ v, evalRequest st e (.context 0 (some s)) = some v → v.width ≤ selfWidth T e := fun v hv => by
    have h := (evalRequest_width_of_widthLegal hv hwl).2
    rwa [Request.width_context, Nat.zero_max] at h
  rcases hfits with hcount | hlit
  · refine follows_widen heq (fun v hv => .inl ?_) fun v hv i hi hm => ?_
    · have := hle v hv
      omega
    · have := hle v hv
      exact bit_eq_extension (by omega) hm hi
  · cases e with
    | literal l =>
      rw [literalFits, Bool.and_eq_true, beq_iff_eq, List.all_eq_true] at hlit
      refine follows_widen heq (fun v hv => .inr ?_) fun v hv i hi hm => ?_
      · rw [evalRequest_literal_zero] at hv
        cases hv
        rw [hlit.1, selfWidth]
      · rw [evalRequest_literal_zero] at hv
        cases hv
        have := hlit.2 i (List.mem_range.2 hi)
        rw [Bool.or_eq_true, decide_eq_true_eq, beq_iff_eq] at this
        exact this.resolve_left (by omega)
    | _ => cases hlit

end

end Veriforge.Driver

import Veriforge.Const.Elaborate
import Veriforge.Sim.Scope

/-! # Width inference

`infer_expr_width` (`analysis/width_inference.py`), which lint and the code generators go by, and the width that the
simulator gives the same tree in the context that `elaborate` (`sim/scheduler.py`) registers the declarations in. The
parameters of an elaborated module have their values. -/

namespace Veriforge.Inference

open Const

/-! ## Declarations -/

/-- `[msb:lsb]` -/
structure Range where
  msb : Expr
  lsb : Expr

/-- `VariableKind` -/
inductive VariableKind
  | reg | integer | real | realtime | time | event | logic | bit | byte | shortint | int | longint
  deriving DecidableEq

/-- What the declarations of ports, nets and variables have in common. -/
structure Signal where
  width : Option Range
  dimensions : List Range
  packedDimCount : Nat
  signed : Bool

/-- A parameter, with the value that elaboration gives it. -/
structure Parameter where
  paramType : Option String
  width : Option Range
  signed : Bool
  defaultValue : Expr
  value : ConstVal

/-- What a name can be declared as. -/
inductive Declaration
  | port (dataType : Option String) (signal : Signal)
  | net (signal : Signal)
  | var (kind : VariableKind) (signal : Signal)
  | parameter (param : Parameter)

/-- The declarations of a module, by name: its ports, and its parameters, nets and variables. The name of a port can be
that of a net or a variable as well. -/
structure Module where
  port : String → Option (Option String × Signal)
  inner : String → Option Declaration

namespace Module

variable (m : Module)

/-- `_build_symbol_table`: parameters, nets and variables go over ports. -/
def symbols (name : String) : Option Declaration :=
  (m.inner name).or ((m.port name).map fun p => .port p.1 p.2)

/-- `_build_param_env` -/
def paramEnv (name : String) : Option ConstVal :=
  match m.inner name with
  | some (.parameter p) => some p.value
  | _ => none

/-- `const_int` of an expression in the module. -/
def constInt (e : Expr) : Option Int := evalConst (fun name => (m.paramEnv name).bind ConstVal.int?) e

/-- `const_range_width` -/
def constRangeWidth : Option Range → Option Nat
  | none => some 1
  | some r => do return ((← m.constInt r.msb) - (← m.constInt r.lsb)).natAbs + 1

/-- `range_width` -/
def rangeWidth (r : Option Range) : Nat := (m.constRangeWidth r).getD 1

theorem rangeWidth_pos (r : Option Range) : 0 < m.rangeWidth r := by
  rw [rangeWidth]
  match r with
  | none => exact Nat.one_pos
  | some r =>
    rw [constRangeWidth]
    cases m.constInt r.msb with
    | none => exact Nat.one_pos
    | some msb =>
      cases m.constInt r.lsb with
      | none => exact Nat.one_pos
      | some lsb => exact Nat.succ_pos _

end Module

/-- The widths of the kinds that have one of their own. -/
def VariableKind.fixedWidth : VariableKind → Option Nat
  | .integer | .int => some 32
  | .real | .realtime | .time | .longint => some 64
  | .byte => some 8
  | .shortint => some 16
  | .reg | .event | .logic | .bit => none

theorem VariableKind.fixedWidth_pos {kind : VariableKind} {w : Nat} (h : kind.fixedWidth = some w) : 0 < w := by
  cases kind <;> cases h <;> decide

/-! ## What is inferred -/

namespace Module

variable (m : Module)

/-- `_declaration_width` -/
def declarationWidth : Declaration → Option Nat
  | .port dataType s => if dataType = some "integer" then some 32 else m.constRangeWidth s.width
  | .net s => m.constRangeWidth s.width
  | .var kind s => kind.fixedWidth.or (m.constRangeWidth s.width)
  | .parameter p =>
      if p.paramType = some "integer" then some 32
      else if p.paramType = some "real" then some 64
      else if p.width.isSome then m.constRangeWidth p.width
      else some 32

/-- `_SYSTEM_FUNC_WIDTHS`, without `$signed` and `$unsigned`. -/
def systemFuncWidth (name : String) : Option Nat :=
  if name ∈ ["$clog2", "$bits", "$size", "$countones", "$stime", "$random"] then some 32
  else if name ∈ ["$onehot", "$onehot0", "$isunknown"] then some 1
  else if name ∈ ["$time", "$realtime"] then some 64
  else none

/-- `op in _ONE_BIT_UNARY`: `^~` is not in it. -/
def isOneBitUnary : UnaryOp → Bool
  | .logNot | .redAnd | .redOr | .redXor | .redNand | .redNor | .redXnor => true
  | .plus | .minus | .bitNot | .redXnor' => false

/-- `left_w or right_w` -/
def widthOr (l r : Option Int) : Option Int :=
  match l with
  | some l => if l = 0 then r else some l
  | none => r

/-- The wider of two operands, the one that is known where the other is not. -/
def bestWidth (l r : Option Int) : Option Int :=
  match l, r with
  | some l, some r => some (max l r)
  | l, r => widthOr l r

mutual

/-- `infer_expr_width` -/
def inferWidth : Expr → Option Int
  | .ident _ n => ((m.symbols n).bind m.declarationWidth).map Int.ofNat
  | .literal l => some (l.width.getD 32 : Nat)
  | .string s => some (8 * s.length : Nat)
  | .unary op e => if isOneBitUnary op then some 1 else inferWidth e
  | .binary op l r =>
      if op.isComparison || op.isLogical then some 1
      else if op.isShift then inferWidth l
      else bestWidth (inferWidth l) (inferWidth r)
  | .ternary _ t f => bestWidth (inferWidth t) (inferWidth f)
  | .concat _ ps => inferWidths ps
  | .streaming _ | .streamingBy _ _ => none
  | .replicate c v => do return (← m.constInt c) * (← inferWidth v)
  | .bitSelect _ _ => some 1
  | .rangeSelect _ msb lsb => do return |(← m.constInt msb) - (← m.constInt lsb)| + 1
  | .partSelect _ _ w _ => m.constInt w
  | .cast _ a => inferWidth a
  | .call f _ => (systemFuncWidth f).map Int.ofNat

/-- The sum of the widths of the parts. -/
def inferWidths : List Expr → Option Int
  | [] => some 0
  | p :: ps => do return (← inferWidth p) + (← inferWidths ps)

end

/-! ## What is registered -/

/-- The product of the elements of the dimensions. -/
def elementCount : List Range → Option Nat
  | [] => some 1
  | r :: rs => do return (← m.constRangeWidth (some r)) * (← elementCount rs)

/-- `_memory_shape`: the width of an element and the number of addresses. -/
def memoryShape (s : Signal) (baseWidth : Nat) : Option (Nat × Nat) := do
  let packed ← m.elementCount (s.dimensions.take s.packedDimCount)
  let depth ← m.elementCount (s.dimensions.drop s.packedDimCount)
  return (baseWidth * packed, depth)

/-- `parameter_signal_width` -/
def parameterSignalWidth (X : Elab) (p : Parameter) : Nat :=
  match p.value with
  | .str s => max (s.length * 8) 1
  | .int n =>
      let literalWidth : Option Nat :=
        match p.width with
        | some r => do
            let msb ← (← evalConstExpr X m.paramEnv r.msb).int?
            let lsb ← (← evalConstExpr X m.paramEnv r.lsb).int?
            return (msb - lsb).natAbs + 1
        | none => Const.literalWidth p.defaultValue
      literalWidth.getD (max 32 (Literal.bitLength n.natAbs))

/-- The width of a declaration, or of its innermost range where it has dimensions. -/
def baseWidth (X : Elab) : Declaration → Nat
  | .port _ s => m.rangeWidth s.width
  | .net s => m.rangeWidth s.width
  | .var kind s => kind.fixedWidth.getD (m.rangeWidth s.width)
  | .parameter p => max 1 (m.parameterSignalWidth X p)

end Module

/-- The signal of a declaration that is not a parameter. -/
def Declaration.signal? : Declaration → Option Signal
  | .port _ s | .net s | .var _ s => some s
  | .parameter _ => none

def Declaration.signed : Declaration → Bool
  | .port _ s | .net s | .var _ s => s.signed
  | .parameter p => p.signed

namespace Module

variable (m : Module)

/-- The shape that a declaration with dimensions is registered with as a memory. -/
def shape (X : Elab) (d : Declaration) : Option (Nat × Nat) := do
  let s ← d.signal?
  if s.dimensions = [] then none else m.memoryShape s (m.baseWidth X d)

/-- The low bound of a declared range. -/
def lowBound (d : Declaration) : Int := ((do m.constInt (← (← d.signal?).width).lsb) : Option Int).getD 0

theorem baseWidth_pos (X : Elab) (d : Declaration) : 0 < m.baseWidth X d := by
  cases d with
  | port _ s => exact m.rangeWidth_pos s.width
  | net s => exact m.rangeWidth_pos s.width
  | var kind s =>
    rw [baseWidth]
    cases h : kind.fixedWidth with
    | none => exact m.rangeWidth_pos s.width
    | some w => exact VariableKind.fixedWidth_pos h
  | parameter p => exact lt_of_lt_of_le Nat.one_pos (le_max_left _ _)

theorem elementCount_pos {rs : List Range} {n : Nat} (h : m.elementCount rs = some n) : 0 < n := by
  induction rs generalizing n with
  | nil =>
    cases h
    exact Nat.one_pos
  | cons r rs ih =>
    rw [elementCount] at h
    obtain ⟨w, hw, hrest⟩ := Option.bind_eq_some_iff.mp h
    obtain ⟨k, hk, hn⟩ := Option.bind_eq_some_iff.mp hrest
    cases hn
    have hwidth := m.rangeWidth_pos (some r)
    rw [rangeWidth, hw, Option.getD_some] at hwidth
    exact Nat.mul_pos hwidth (ih hk)

theorem shape_pos {X : Elab} {d : Declaration} {ew depth : Nat} (h : m.shape X d = some (ew, depth)) : 0 < ew := by
  obtain ⟨s, -, hshape⟩ := Option.bind_eq_some_iff.mp h
  split at hshape
  · cases hshape
  · obtain ⟨packed, hpacked, hrest⟩ := Option.bind_eq_some_iff.mp hshape
    obtain ⟨k, -, hk⟩ := Option.bind_eq_some_iff.mp hrest
    cases hk
    exact Nat.mul_pos (m.baseWidth_pos X d) (m.elementCount_pos hpacked)

/-- The context that `elaborate` builds: the names that the table of symbols has, a port where nothing else is declared
under its name. A declared width is at least one bit. -/
def context (X : Elab) : SignalTable where
  width n := (m.symbols n).bind fun d => if (m.shape X d).isSome then none else some (m.baseWidth X d)
  signed n := (m.symbols n).any Declaration.signed
  memory n := (m.symbols n).bind (m.shape X)
  signalBase n := (m.symbols n).elim 0 m.lowBound
  memoryBase n := (m.symbols n).elim 0 m.lowBound
  width_pos n w h := by
    obtain ⟨d, -, hd⟩ := Option.bind_eq_some_iff.mp h
    split at hd
    · cases hd
    · cases hd
      exact m.baseWidth_pos X d
  memory_pos n ew depth h := by
    obtain ⟨d, -, hd⟩ := Option.bind_eq_some_iff.mp h
    exact m.shape_pos hd

end Module

/-! ## Trees -/

/-- `_child_nodes` -/
def children : Expr → List Expr
  | .ident _ _ | .literal _ | .string _ => []
  | .unary _ e => [e]
  | .binary _ l r => [l, r]
  | .ternary c t f => [c, t, f]
  | .concat _ ps | .streaming ps => ps
  | .replicate c v => [c, v]
  | .streamingBy size ps => size :: ps
  | .bitSelect t i => [t, i]
  | .rangeSelect t m l => [t, m, l]
  | .partSelect t b w _ => [t, b, w]
  | .cast _ a => [a]
  | .call _ as => as

/-- A node of a tree, as `walk` visits them. -/
inductive Node : Expr → Expr → Prop
  | self {e : Expr} : Node e e
  | child {s c e : Expr} (hc : c ∈ children e) (h : Node s c) : Node s e

theorem Node.trans {s c e : Expr} (h : Node s c) (hc : Node c e) : Node s e := by
  induction hc with
  | self => exact h
  | child hd _ ih => exact .child hd ih

/-- Induction over trees, one hypothesis for all children. -/
theorem induct_children {motive : Expr → Prop} (step : ∀ e, (∀ c ∈ children e, motive c) → motive e) (e : Expr) :
    motive e := by
  induction e with
  | ident h n => exact step _ (by simp [children])
  | literal l => exact step _ (by simp [children])
  | string s => exact step _ (by simp [children])
  | unary op e ih => exact step _ (by simpa [children] using ih)
  | binary op l r hl hr => exact step _ (by simpa [children] using ⟨hl, hr⟩)
  | ternary c t f hc ht hf => exact step _ (by simpa [children] using ⟨hc, ht, hf⟩)
  | concat b ps ih => exact step _ ih
  | replicate c v hc hv => exact step _ (by simpa [children] using ⟨hc, hv⟩)
  | streaming ps ih => exact step _ ih
  | streamingBy size ps hsize ih => exact step _ (by simpa [children] using ⟨hsize, ih⟩)
  | bitSelect t i ht hi => exact step _ (by simpa [children] using ⟨ht, hi⟩)
  | rangeSelect t m l ht hm hl => exact step _ (by simpa [children] using ⟨ht, hm, hl⟩)
  | partSelect t b w d ht hb hw => exact step _ (by simpa [children] using ⟨ht, hb, hw⟩)
  | cast s a ih => exact step _ (by simpa [children] using ih)
  | call f as ih => exact step _ ih

/-! ## Declarations that are sized alike -/

namespace Module

variable (m : Module) (X : Elab)

/-- The elements of a signal, 1 where they are not known. -/
def elements (s : Signal) : Nat := (m.elementCount s.dimensions).getD 1

/-- A signal is no array, and a port declared `integer` has 32 bits. A parameter has the width that its value is
registered with. -/
def DeclaredAlike : Declaration → Prop
  | .port dataType s =>
      if dataType = some "integer" then m.rangeWidth s.width * m.elements s = 32
      else (m.constRangeWidth s.width).isSome = true → m.elements s = 1
  | .net s => (m.constRangeWidth s.width).isSome = true → m.elements s = 1
  | .var kind s => (kind.fixedWidth.or (m.constRangeWidth s.width)).isSome = true → m.elements s = 1
  | .parameter p => ∀ w, m.declarationWidth (.parameter p) = some w → m.baseWidth X (.parameter p) = w

theorem elementCount_append (rs rs' : List Range) :
    m.elementCount (rs ++ rs') = (do return (← m.elementCount rs) * (← m.elementCount rs')) := by
  induction rs with
  | nil => simp [elementCount]
  | cons r rs ih =>
    rw [List.cons_append, elementCount, elementCount, ih]
    cases m.constRangeWidth (some r) with
    | none => rfl
    | some w =>
      cases m.elementCount rs with
      | none => rfl
      | some k =>
        cases m.elementCount rs' with
        | none => rfl
        | some k' => simp [Nat.mul_assoc]

/-- The width of a whole signal in the context. -/
def registeredWidth (d : Declaration) : Nat := m.baseWidth X d * (d.signal?.elim 1 m.elements)

theorem selfWidth_of_shape_none {S : Scope (m.context X)} {n : String} {d : Declaration} (hd : m.symbols n = some d)
    (h : m.shape X d = none) : S.selfWidth (.ident [] n) = m.baseWidth X d := by
  have hwidth : (m.context X).width n = some (m.baseWidth X d) := by
    show (m.symbols n).bind _ = _
    rw [hd, Option.bind_some, h]
    rfl
  rw [Scope.selfWidth]
  simp only [identifierName, hwidth]

theorem selfWidth_of_shape_some {S : Scope (m.context X)} {n : String} {d : Declaration} {ew depth : Nat}
    (hd : m.symbols n = some d) (h : m.shape X d = some (ew, depth)) : S.selfWidth (.ident [] n) = ew * depth := by
  have hwidth : (m.context X).width n = none := by
    show (m.symbols n).bind _ = _
    rw [hd, Option.bind_some, h]
    rfl
  have hmemory : (m.context X).memory n = some (ew, depth) := by
    show (m.symbols n).bind _ = _
    rw [hd, Option.bind_some, h]
  have hfield : S.field n = none := S.field_memory n (by simp [hmemory])
  rw [Scope.selfWidth]
  simp only [identifierName, hwidth, hfield, hmemory]

/-- A name has the width of all of its elements. -/
theorem selfWidth_ident (S : Scope (m.context X)) {n : String} {d : Declaration} (hd : m.symbols n = some d) :
    S.selfWidth (.ident [] n) = m.registeredWidth X d := by
  rw [registeredWidth]
  cases hs : d.signal? with
  | none =>
    have hshape : m.shape X d = none := by
      rw [shape, hs]
      rfl
    rw [m.selfWidth_of_shape_none X hd hshape, Option.elim_none, Nat.mul_one]
  | some s =>
    have hcount := m.elementCount_append (s.dimensions.take s.packedDimCount) (s.dimensions.drop s.packedDimCount)
    rw [List.take_append_drop] at hcount
    have hshape : m.shape X d = if s.dimensions = [] then none else m.memoryShape s (m.baseWidth X d) := by
      rw [shape, hs]
      rfl
    rw [Option.elim_some, elements]
    by_cases hdims : s.dimensions = []
    · rw [if_pos hdims] at hshape
      rw [m.selfWidth_of_shape_none X hd hshape, hdims, elementCount, Option.getD_some, Nat.mul_one]
    · rw [if_neg hdims, memoryShape] at hshape
      rw [hcount]
      cases hpacked : m.elementCount (s.dimensions.take s.packedDimCount) with
      | none =>
        rw [hpacked] at hshape
        rw [m.selfWidth_of_shape_none X hd hshape]
        exact (Nat.mul_one _).symm
      | some packed =>
        cases hdepth : m.elementCount (s.dimensions.drop s.packedDimCount) with
        | none =>
          rw [hpacked, hdepth] at hshape
          rw [m.selfWidth_of_shape_none X hd hshape]
          exact (Nat.mul_one _).symm
        | some depth =>
          rw [hpacked, hdepth] at hshape
          rw [m.selfWidth_of_shape_some X hd hshape, Nat.mul_assoc]
          rfl

/-- A declaration is inferred to be as wide as it is registered where it is sized alike. -/
theorem declarationWidth_eq_iff (d : Declaration) :
    (∀ w, m.declarationWidth d = some w → w = m.registeredWidth X d) ↔ m.DeclaredAlike X d := by
  have hrange : ∀ (r : Option Range) (n : Nat), (∀ w, m.constRangeWidth r = some w → w = m.rangeWidth r * n) ↔
        ((m.constRangeWidth r).isSome = true → n = 1) := by
    intro r n
    have hpos := m.rangeWidth_pos r
    rw [rangeWidth] at hpos ⊢
    cases hwidth : m.constRangeWidth r with
    | none => simp
    | some w =>
      rw [hwidth, Option.getD_some] at hpos
      simp [left_eq_mul₀ hpos.ne']
  cases d with
  | port dataType s =>
    rw [DeclaredAlike, declarationWidth, registeredWidth, baseWidth, Declaration.signal?, Option.elim_some]
    by_cases h : dataType = some "integer"
    · simp [h, eq_comm]
    · rw [if_neg h, if_neg h]
      exact hrange _ _
  | net s => exact hrange _ _
  | var kind s =>
    rw [DeclaredAlike, declarationWidth, registeredWidth, baseWidth, Declaration.signal?, Option.elim_some]
    cases h : kind.fixedWidth with
    | none => exact hrange _ _
    | some w =>
      simp [left_eq_mul₀ (VariableKind.fixedWidth_pos h).ne']
  | parameter p =>
    rw [DeclaredAlike, registeredWidth, Declaration.signal?, Option.elim_none, Nat.mul_one]
    simp only [eq_comm]

end Module

/-! ## Nodes that are sized alike -/

/-- The count of a replication, as the simulator reads it. -/
def literalCount : Expr → Int
  | .literal l => (l.intValue.getD 0).toNat
  | _ => 1

/-- The width of a range, as the simulator reads it. -/
def literalRange : Expr → Expr → Int
  | .literal msb, .literal lsb => literalRangeWidth msb lsb
  | _, _ => 1

section

variable {m : Module} {X : Elab} (S : Scope (m.context X))

mutual

/-- Something is inferred for the expression. -/
def sized : Expr → Bool
  | .ident _ n => ((m.symbols n).bind m.declarationWidth).isSome
  | .literal _ | .string _ | .bitSelect _ _ => true
  | .unary op e => Module.isOneBitUnary op || sized e
  | .binary op l r =>
      if op.isComparison || op.isLogical then true
      else if op.isShift then sized l
      else sized r || sized l && decide (S.selfWidth l ≠ 0)
  | .ternary _ t f => sized f || sized t && decide (S.selfWidth t ≠ 0)
  | .concat _ ps => sizedAll ps
  | .streaming _ | .streamingBy _ _ => false
  | .replicate c v => (m.constInt c).isSome && sized v
  | .rangeSelect _ msb lsb => (m.constInt msb).isSome && (m.constInt lsb).isSome
  | .partSelect _ _ w _ => (m.constInt w).isSome
  | .cast _ a => sized a
  | .call f _ => (Module.systemFuncWidth f).isSome

def sizedAll : List Expr → Bool
  | [] => true
  | p :: ps => sized p && sizedAll ps

end

/-- The width of what a dotted name stands for in the context. -/
def contextWidth (name : String) : Nat :=
  match (m.context X).width name with
  | some w => w
  | none =>
      match S.field name with
      | some access => access.width
      | none =>
          match (m.context X).memory name with
          | some (ew, depth) => ew * depth
          | none => 32

/-- Where something is inferred for one of two operands only, it is as wide as the other. -/
def OperandsAlike (l r : Expr) : Prop :=
  (sized S l = true → sized S r = false → S.selfWidth l = 0 ∨ S.selfWidth r ≤ S.selfWidth l) ∧
    (sized S l = false → sized S r = true → S.selfWidth l ≤ S.selfWidth r)

/-- What a node must be for both passes to size it alike, its operands being so. -/
def SizedAlike : Expr → Prop
  -- a name of the module; a dotted one is resolved by its last part
  | .ident h n => ∀ d, m.symbols n = some d → if h = [] then m.DeclaredAlike X d
      else ∀ w, m.declarationWidth d = some w → w = contextWidth S (identifierName h n)
  -- a literal without a width holds 32 bits
  | .literal l => l.width ≠ some 0 ∧
      (l.width = none → l.signed = true → ∀ n, l.value = .int n → -2 ^ 31 ≤ n ∧ n < 2 ^ 31)
  | .string _ => True
  -- the reduction that is missing among those of one bit
  | .unary op e => op = .redXnor' → sized S e = true → S.selfWidth e = 1
  -- a power is as wide as its base
  | .binary op l r =>
      if op.isComparison || op.isLogical || op.isShift then True
      else if op = .pow then
        sized S r = true → if sized S l then S.selfWidth r ≤ S.selfWidth l else S.selfWidth r = S.selfWidth l
      else OperandsAlike S l r
  | .ternary _ t f => OperandsAlike S t f
  | .concat _ _ | .streaming _ | .streamingBy _ _ | .cast _ _ => True
  -- what is no literal counts as 1 in the simulator
  | .replicate c v => sized S v = true → ∀ k, m.constInt c = some k → S.selfWidth v = 0 ∨ k = literalCount c
  | .rangeSelect _ msb lsb =>
      ∀ i j, m.constInt msb = some i → m.constInt lsb = some j → |i - j| + 1 = literalRange msb lsb
  | .partSelect _ _ w _ => ∀ k, m.constInt w = some k → k = literalCount w
  -- a word of a memory
  | .bitSelect t _ => ∀ ew, memoryWidth? (m.context X) t = some ew → ew = 1
  | .call f _ => ∀ w, Module.systemFuncWidth f = some w → w = (S.function f).elim 32 UserFunction.returnWidth

/-- What is inferred is what the simulator goes by. -/
def Agrees (e : Expr) : Prop := ∀ w, m.inferWidth e = some w → w = S.selfWidth e

variable {S}

/-! ### Two operands -/

theorem bestWidth_eq_iff {l r : Option Int} {a b : Nat} (hl : ∀ w, l = some w → w = a) (hr : ∀ w, r = some w → w = b) :
    (∀ w, Module.bestWidth l r = some w → w = (max a b : Nat)) ↔
      (l.isSome = true → r.isSome = false → a = 0 ∨ b ≤ a) ∧ (l.isSome = false → r.isSome = true → a ≤ b) := by
  cases l with
  | none =>
    cases r with
    | none => simp [Module.bestWidth, Module.widthOr]
    | some y =>
      obtain rfl := hr y rfl
      simp [Module.bestWidth, Module.widthOr]
  | some x =>
    obtain rfl := hl x rfl
    cases r with
    | none =>
      simp only [Module.bestWidth, Module.widthOr]
      by_cases ha : a = 0
      · simp [ha]
      · simp [ha]
    | some y =>
      obtain rfl := hr y rfl
      simp [Module.bestWidth]

theorem bestWidth_eq_left_iff {l r : Option Int} {a b : Nat} (hl : ∀ w, l = some w → w = a)
    (hr : ∀ w, r = some w → w = b) :
    (∀ w, Module.bestWidth l r = some w → w = a) ↔ (r.isSome = true → if l.isSome then b ≤ a else b = a) := by
  cases l with
  | none =>
    cases r with
    | none => simp [Module.bestWidth, Module.widthOr]
    | some y =>
      obtain rfl := hr y rfl
      simp [Module.bestWidth, Module.widthOr]
  | some x =>
    obtain rfl := hl x rfl
    cases r with
    | none =>
      by_cases ha : a = 0
      · simp [Module.bestWidth, Module.widthOr, ha]
      · simp [Module.bestWidth, Module.widthOr, ha]
    | some y =>
      obtain rfl := hr y rfl
      simp [Module.bestWidth]

theorem isSome_bestWidth {l r : Option Int} {a : Nat} (hl : ∀ w, l = some w → w = a) :
    (Module.bestWidth l r).isSome = (r.isSome || l.isSome && decide (a ≠ 0)) := by
  cases l with
  | none => cases r <;> rfl
  | some x =>
    obtain rfl := hl x rfl
    cases r with
    | none =>
      by_cases ha : a = 0
      · simp [Module.bestWidth, Module.widthOr, ha]
      · simp [Module.bestWidth, Module.widthOr, ha]
    | some y => simp [Module.bestWidth]

/-! ### What is inferred at all -/

theorem isSome_inferWidths {ps : List Expr} (h : ∀ p ∈ ps, (m.inferWidth p).isSome = sized S p) :
    (m.inferWidths ps).isSome = sizedAll S ps := by
  induction ps with
  | nil =>
    rw [Module.inferWidths, sizedAll]
    rfl
  | cons p ps ih =>
    rw [Module.inferWidths, sizedAll, ← h p List.mem_cons_self, ← ih fun q hq => h q (List.mem_cons_of_mem p hq)]
    cases m.inferWidth p with
    | none => rfl
    | some w => cases m.inferWidths ps <;> rfl

/-- Where the operands are sized alike, something is inferred as `sized` says. -/
theorem isSome_inferWidth {e : Expr} (h : ∀ c ∈ children e, ∀ s, Node s c → Agrees S s) :
    (m.inferWidth e).isSome = sized S e := by
  induction e using induct_children with
  | step e ih =>
    have hchild : ∀ c ∈ children e, (m.inferWidth c).isSome = sized S c :=
      fun c hc => ih c hc fun d hd s hs => h c hc s (.child hd hs)
    have hself : ∀ c ∈ children e, Agrees S c := fun c hc => h c hc c .self
    cases e with
    | ident hier n =>
      rw [Module.inferWidth, sized, Option.isSome_map]
    | literal l =>
      rw [Module.inferWidth, sized]
      rfl
    | string s =>
      rw [Module.inferWidth, sized]
      rfl
    | unary op e =>
      rw [Module.inferWidth, sized, ← hchild e (by simp [children])]
      cases Module.isOneBitUnary op <;> rfl
    | binary op l r =>
      rw [Module.inferWidth, sized, ← hchild l (by simp [children]), ← hchild r (by simp [children])]
      split
      · rfl
      · split
        · rfl
        · exact isSome_bestWidth (hself l (by simp [children]))
    | ternary c t f =>
      rw [Module.inferWidth, sized, ← hchild t (by simp [children]), ← hchild f (by simp [children])]
      exact isSome_bestWidth (hself t (by simp [children]))
    | concat b ps =>
      rw [Module.inferWidth, sized]
      exact isSome_inferWidths hchild
    | streaming ps =>
      rw [Module.inferWidth, sized]
      rfl
    | streamingBy size ps =>
      rw [Module.inferWidth, sized]
      rfl
    | replicate c v =>
      rw [Module.inferWidth, sized, ← hchild v (by simp [children])]
      cases m.constInt c with
      | none => rfl
      | some k => cases m.inferWidth v <;> rfl
    | bitSelect t i =>
      rw [Module.inferWidth, sized]
      rfl
    | rangeSelect t msb lsb =>
      rw [Module.inferWidth, sized]
      cases m.constInt msb with
      | none => rfl
      | some i => cases m.constInt lsb <;> rfl
    | partSelect t b w d =>
      rw [Module.inferWidth, sized]
    | cast s a =>
      rw [Module.inferWidth, sized, hchild a (by simp [children])]
    | call f as =>
      rw [Module.inferWidth, sized, Option.isSome_map]

/-! ### Each node -/

theorem map_ofNat_eq_iff {o : Option Nat} {k : Nat} :
    (∀ w : Int, o.map Int.ofNat = some w → w = k) ↔ ∀ w, o = some w → w = k := by
  cases o with
  | none => simp
  | some n => simp

theorem selfWidth_replicate (c v : Expr) : (S.selfWidth (.replicate c v) : Int) = literalCount c * S.selfWidth v := by
  cases c <;> simp [Scope.selfWidth, literalCount]

theorem selfWidth_partSelect (t b w : Expr) (d : Direction) :
    (S.selfWidth (.partSelect t b w d) : Int) = literalCount w := by
  cases w <;> simp [Scope.selfWidth, literalCount]

theorem selfWidth_rangeSelect (t msb lsb : Expr) :
    (S.selfWidth (.rangeSelect t msb lsb) : Int) = literalRange msb lsb := by
  cases msb
  case literal l => cases lsb <;> simp [Scope.selfWidth, literalRange]
  all_goals simp [Scope.selfWidth, literalRange]

theorem inferWidths_eq {ps : List Expr} (h : ∀ p ∈ ps, Agrees S p) (w : Int) (hw : m.inferWidths ps = some w) :
    w = S.selfWidthSum ps := by
  induction ps generalizing w with
  | nil =>
    rw [Module.inferWidths] at hw
    cases hw
    rw [Scope.selfWidthSum]
    rfl
  | cons p ps ih =>
    rw [Module.inferWidths] at hw
    obtain ⟨a, ha, hrest⟩ := Option.bind_eq_some_iff.mp hw
    obtain ⟨b, hb, hab⟩ := Option.bind_eq_some_iff.mp hrest
    cases hab
    rw [Scope.selfWidthSum, Nat.cast_add, ← h p List.mem_cons_self a ha,
      ← ih (fun q hq => h q (List.mem_cons_of_mem p hq)) b hb]

theorem signedLiteralWidth_eq_iff (n : Int) : Literal.signedLiteralWidth n = 32 ↔ -2 ^ 31 ≤ n ∧ n < 2 ^ 31 := by
  have hbits : ∀ k : Nat, max 32 (Literal.bitLength k + 1) = 32 ↔ k < 2 ^ 31 := by
    intro k
    have hle : Literal.bitLength k ≤ 31 ↔ k < 2 ^ 31 := by
      rw [Literal.bitLength]
      split
      · next h0 => simp [h0]
      · next h0 => rw [← Nat.log2_lt h0, Nat.succ_le_iff]
    rw [← hle, max_eq_left_iff]
    omega
  rw [Literal.signedLiteralWidth]
  split
  · rw [hbits]
    omega
  · split
    · rw [hbits]
      omega
    · omega

theorem agrees_literal (l : Literal) : Agrees S (.literal l) ↔ SizedAlike S (.literal l) := by
  rw [Agrees, SizedAlike, Module.inferWidth, Scope.selfWidth, Literal.selfWidth]
  cases hwidth : l.width with
  | some w =>
    simp [Literal.widthOr32, hwidth]
    omega
  | none =>
    cases hsigned : l.signed with
    | false => simp [Literal.widthOr32, hwidth]
    | true =>
      cases hvalue : l.value with
      | text digits => simp [Literal.widthOr32, hwidth]
      | int n =>
        have hiff := signedLiteralWidth_eq_iff n
        norm_num at hiff
        simp [← hiff]
        omega

theorem agrees_ident (hier : List String) (n : String) : Agrees S (.ident hier n) ↔ SizedAlike S (.ident hier n) := by
  have hwidth : S.selfWidth (.ident hier n) = contextWidth S (identifierName hier n) := by
    rw [Scope.selfWidth, contextWidth]
    cases (m.context X).width (identifierName hier n) with
    | some w => rfl
    | none =>
      cases S.field (identifierName hier n) with
      | some access => rfl
      | none => cases (m.context X).memory (identifierName hier n) <;> rfl
  rw [Agrees, SizedAlike, Module.inferWidth, map_ofNat_eq_iff]
  cases hd : m.symbols n with
  | none => simp
  | some d =>
    rw [Option.bind_some]
    by_cases hh : hier = []
    · subst hh
      simp [m.selfWidth_ident X S hd, m.declarationWidth_eq_iff X d]
    · simp [hh, hwidth]

/-- A node whose operands are sized alike is so itself just where it meets the condition. -/
theorem agrees_iff {e : Expr} (h : ∀ c ∈ children e, ∀ s, Node s c → Agrees S s) : Agrees S e ↔ SizedAlike S e := by
  have hself : ∀ c ∈ children e, Agrees S c := fun c hc => h c hc c .self
  have hsized : ∀ c ∈ children e, (m.inferWidth c).isSome = sized S c :=
    fun c hc => isSome_inferWidth fun d hd s hs => h c hc s (.child hd hs)
  cases e with
  | ident hier n => exact agrees_ident hier n
  | literal l => exact agrees_literal l
  | string s =>
    rw [Agrees, SizedAlike, Module.inferWidth, Scope.selfWidth]
    simp [Nat.mul_comm]
  | unary op e =>
    have he : Agrees S e := hself e (by simp [children])
    have hs := hsized e (by simp [children])
    rw [Agrees] at he
    rw [Agrees, SizedAlike, Module.inferWidth, Scope.selfWidth, ← hs]
    cases op <;> simp [Module.isOneBitUnary, UnaryOp.contextDetermined]
    case redXnor' =>
      cases hw : m.inferWidth e with
      | none => simp
      | some w =>
        obtain rfl := he w hw
        simp
    all_goals exact he
  | binary op l r =>
    have hl : Agrees S l := hself l (by simp [children])
    have hr : Agrees S r := hself r (by simp [children])
    rw [Agrees, SizedAlike, Module.inferWidth, Scope.selfWidth_binary, resultWidth]
    by_cases hone : (op.isComparison || op.isLogical) = true
    · simp [hone]
    · by_cases hshift : op.isShift = true
      · simp [hone, hshift]
        exact hl
      · by_cases hpow : op = .pow
        · subst hpow
          have h := bestWidth_eq_left_iff hl hr
          rw [hsized l (by simp [children]), hsized r (by simp [children])] at h
          exact h
        · have h := bestWidth_eq_iff hl hr
          rw [hsized l (by simp [children]), hsized r (by simp [children])] at h
          rw [Bool.not_eq_true] at hone hshift
          rw [hone, hshift, if_neg hpow, beq_eq_false_iff_ne.mpr hpow]
          exact h
  | ternary c t f =>
    have h := bestWidth_eq_iff (hself t (by simp [children])) (hself f (by simp [children]))
    rw [hsized t (by simp [children]), hsized f (by simp [children])] at h
    rw [Agrees, SizedAlike, Module.inferWidth, Scope.selfWidth]
    exact h
  | concat b ps =>
    rw [Agrees, SizedAlike, Module.inferWidth, Scope.selfWidth]
    exact iff_of_true (inferWidths_eq hself) trivial
  | streaming ps =>
    rw [Agrees, SizedAlike, Module.inferWidth]
    simp
  | streamingBy size ps =>
    rw [Agrees, SizedAlike, Module.inferWidth]
    simp
  | replicate c v =>
    have hv : Agrees S v := hself v (by simp [children])
    rw [Agrees, SizedAlike, Module.inferWidth, selfWidth_replicate, ← hsized v (by simp [children])]
    cases hk : m.constInt c with
    | none => simp
    | some k =>
      cases hw : m.inferWidth v with
      | none => simp
      | some w =>
        obtain rfl := hv w hw
        simp [or_comm]
  | bitSelect t i =>
    rw [Agrees, SizedAlike, Module.inferWidth, Scope.selfWidth]
    cases memoryWidth? (m.context X) t with
    | none => simp
    | some ew => simp [eq_comm]
  | rangeSelect t msb lsb =>
    rw [Agrees, SizedAlike, Module.inferWidth, selfWidth_rangeSelect]
    cases m.constInt msb with
    | none => simp
    | some i =>
      cases m.constInt lsb with
      | none => simp
      | some j => simp
  | partSelect t b w d => rw [Agrees, SizedAlike, Module.inferWidth, selfWidth_partSelect]
  | cast s a =>
    rw [Agrees, SizedAlike, Module.inferWidth, Scope.selfWidth]
    exact iff_of_true (hself a (by simp [children])) trivial
  | call f as =>
    rw [Agrees, SizedAlike, Module.inferWidth, Scope.selfWidth, map_ofNat_eq_iff]
    cases S.function f with
    | none => rfl
    | some g => rfl

/-- **Width inference agrees with the simulator on every node of a tree, where something is inferred, just when every
node is sized alike**. -/
theorem inferWidth_agrees_iff (m : Module) (X : Elab) (S : Scope (m.context X)) (e : Expr) :
    (∀ s, Node s e → ∀ w, m.inferWidth s = some w → w = S.selfWidth s) ↔ ∀ s, Node s e → SizedAlike S s := by
  constructor
  · intro h s hs
    exact (agrees_iff fun c hc t ht => h t (ht.trans (.child hc .self) |>.trans hs)).mp (h s hs)
  · intro h
    induction e using induct_children with
    | step e ih =>
      have hchildren : ∀ c ∈ children e, ∀ s, Node s c → Agrees S s :=
        fun c hc => ih c hc fun s hs => h s (.child hc hs)
      intro s hs
      cases hs with
      | self => exact (agrees_iff hchildren).mpr (h e .self)
      | child hc hs => exact hchildren _ hc s hs

end

/-- `reg [7:0] mem [0:3];` -/
def memoryModule : Module where
  port _ := none
  inner n :=
    if n = "mem" then
      some (.var .reg
        ⟨some ⟨.literal (.decimal 7), .literal (.decimal 0)⟩, [⟨.literal (.decimal 0), .literal (.decimal 3)⟩], 0, false⟩)
    else none

/-- `mem[0]` is inferred to be a bit, and 8 bits wide. -/
theorem infers_bit_of_memory_word :
    ¬ ∀ (m : Module) (X : Elab) (e : Expr) (w : Int), m.inferWidth e = some w →
      w = (Scope.plain (m.context X)).selfWidth e := by
  intro h
  have hbit := h memoryModule ⟨fun _ => "", fun _ _ _ => none, fun _ _ => none⟩
    (.bitSelect (.ident [] "mem") (.literal (.decimal 0))) 1 (by rw [Module.inferWidth])
  have hword : (Scope.plain (memoryModule.context ⟨fun _ => "", fun _ _ _ => none, fun _ _ => none⟩)).selfWidth
      (.bitSelect (.ident [] "mem") (.literal (.decimal 0))) = 8 := by
    rw [Scope.selfWidth]
    rfl
  rw [hword] at hbit
  omega

end Veriforge.Inference

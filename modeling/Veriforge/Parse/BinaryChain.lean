import Veriforge.Precedence
import Veriforge.Sim.Expr

/-! # Binary operator chains

`_build_binary_chain` of `transforms/_expressions.py`. The grammar's rule for binary expressions is ambiguous, so the
parser may return any association of the operators; the chain is flattened and rebuilt by precedence. -/

namespace Veriforge

/-- A parse tree, as the builders of one expression rule read it. -/
inductive ParseTree (α Loc : Type)
  /-- A token, or a tree of another rule. -/
  | other (a : α)
  /-- A tree of `binary_operator`. -/
  | binaryOperator (op : BinaryOp)
  /-- A tree of `unary_operator`. -/
  | unaryOperator (op : UnaryOp)
  /-- A tree of the expression rule. -/
  | rule (children : List (ParseTree α Loc)) (loc : Loc)

namespace ParseTree

variable {α Loc E : Type}

/-- `_extract_operator` of the middle one of three children; between two operands the grammar puts no unary
operator. -/
def extractOperator : ParseTree α Loc → Option BinaryOp
  | binaryOperator op => some op
  | _ => none

/-- `_VERILOG_PRECEDENCE` -/
def precedence : BinaryOp → Nat
  | .pow => 1
  | .mul | .div | .mod => 2
  | .add | .sub => 3
  | .shl | .shr | .ashl | .ashr => 4
  | .lt | .le | .gt | .ge => 5
  | .eq | .ne | .caseEq | .caseNe => 6
  | .bitAnd => 7
  | .bitXor | .bitXnor | .bitXnor' => 8
  | .bitOr => 9
  | .logAnd => 10
  | .logOr => 11

/-- `_flatten_binary_chain`: the operands, and the operators with the locations of their nodes. -/
def flattenBinaryChain : ParseTree α Loc → List (ParseTree α Loc) × List (BinaryOp × Loc)
  | rule [left, op, right] loc =>
      match op.extractOperator with
      | none => ([rule [left, op, right] loc], [])
      | some o =>
          let (operands, operators) := left.flattenBinaryChain
          let (operands', operators') := right.flattenBinaryChain
          (operands ++ operands', operators ++ (o, loc) :: operators')
  | tree => ([tree], [])

section

variable (binaryOp : BinaryOp → E → E → Loc → E)

/-- The inner loop of `_rebuild_with_precedence`: operators that bind as tightly as the next one are taken off the
stack. Both stacks have their top first; `output.pop()` raises on an empty list. -/
def popWhile (prec : Nat) : List (BinaryOp × Loc) → List E → Option (List (BinaryOp × Loc) × List E)
  | [], output => some ([], output)
  | (op, loc) :: stack, output =>
      if precedence op ≤ prec then
        match output with
        | right :: left :: output => popWhile prec stack (binaryOp op left right loc :: output)
        | _ => none
      else some ((op, loc) :: stack, output)

/-- The last loop: every operator is taken off the stack, and `output[0]` returned. -/
def popAll : List (BinaryOp × Loc) → List E → Option E
  | [], output => output.getLast?
  | (op, loc) :: stack, right :: left :: output => popAll stack (binaryOp op left right loc :: output)
  | _ :: _, _ => none

/-- The main loop, over the operators and the operands behind them. -/
def rebuildLoop (stack : List (BinaryOp × Loc)) (output : List E) : List (BinaryOp × Loc) → List E → Option E
  | [], _ => popAll binaryOp stack output
  | op :: operators, operand :: operands =>
      (popWhile binaryOp (precedence op.1) stack output).bind fun (stack, output) =>
        rebuildLoop (op :: stack) (operand :: output) operators operands
  | _ :: _, [] => none

/-- `_rebuild_with_precedence`, on the operands built. -/
def rebuildWithPrecedence (operators : List (BinaryOp × Loc)) : List E → Option E
  | [] => none
  | operand :: operands => rebuildLoop binaryOp [] [operand] operators operands

/-- `_build_binary_chain` of a tree of the rule: `none` where it returns `None`. -/
def buildBinaryChain (build : ParseTree α Loc → E) : ParseTree α Loc → Option E
  | rule [left, op, right] loc =>
      match op.extractOperator with
      | none => none
      | some _ =>
          match flattenBinaryChain (rule [left, op, right] loc) with
          | ([l, r], [(o, loc)]) => some (binaryOp o (build l) (build r) loc)
          | (operands, operators) => rebuildWithPrecedence binaryOp operators (operands.map build)
  | _ => none

end

/-! ## What a tree spells -/

/-- The operator of a binary node. -/
def rootOperator : ParseTree α Loc → Option BinaryOp
  | rule [_, op, _] _ => op.extractOperator
  | _ => none

/-- A tree of binary nodes spells the operands at its leaves with the operators between them. A leaf is any tree
but a binary node. -/
inductive Spells : ParseTree α Loc → List (ParseTree α Loc) → List (BinaryOp × Loc) → Prop
  | operand {t : ParseTree α Loc} (h : t.rootOperator = none) : Spells t [t] []
  | binary {l r : ParseTree α Loc} {operands operands' : List (ParseTree α Loc)}
      {operators operators' : List (BinaryOp × Loc)} (op : BinaryOp) (loc : Loc)
      (left : Spells l operands operators) (right : Spells r operands' operators') :
      Spells (rule [l, binaryOperator op, r] loc) (operands ++ operands')
        (operators ++ (op, loc) :: operators')

theorem flattenBinaryChain_operand {t : ParseTree α Loc} (h : t.rootOperator = none) :
    t.flattenBinaryChain = ([t], []) := by
  match t with
  | rule [l, op, r] loc =>
    rw [rootOperator] at h
    rw [flattenBinaryChain, h]
  | rule [] _ | rule [_] _ | rule [_, _] _ | rule (_ :: _ :: _ :: _ :: _) _ => rfl
  | other _ | binaryOperator _ | unaryOperator _ => rfl

/-- Flattening loses no operand. -/
theorem Spells.flatten {t : ParseTree α Loc} {operands : List (ParseTree α Loc)} {operators : List (BinaryOp × Loc)}
    (h : t.Spells operands operators) : t.flattenBinaryChain = (operands, operators) := by
  induction h with
  | operand h => exact flattenBinaryChain_operand h
  | binary op loc left right ihl ihr =>
    rw [flattenBinaryChain, ihl, ihr]
    rfl

/-- There is one operand more than there are operators. -/
theorem Spells.length_eq {t : ParseTree α Loc} {operands : List (ParseTree α Loc)}
    {operators : List (BinaryOp × Loc)} (h : t.Spells operands operators) :
    operands.length = operators.length + 1 := by
  induction h with
  | operand h => rfl
  | binary op loc left right ihl ihr =>
    rw [List.length_append, List.length_append, List.length_cons, ihl, ihr]
    omega

/-! ## The rebuilding -/

section

variable {A : Type} (binaryOp : BinaryOp → E → E → Loc → E) (build : A → E)

/-- The expression of a chain. -/
def chainExpr (c : Chain A (BinaryOp × Loc)) : E :=
  c.fold build fun o left right => binaryOp o.1 left right o.2

/-- The precedence of an operator with its location. -/
abbrev located (o : BinaryOp × Loc) : Nat := precedence o.1

open Chain

variable {binaryOp build}

/-- The inner loop leaves a stack on which the next operator can be put. -/
theorem popWhile_spec {stack : List (BinaryOp × Loc)} {c : Chain A (BinaryOp × Loc)}
    {out : List (Chain A (BinaryOp × Loc))} (prec : Nat) (h : Stacked located stack (c :: out))
    (hc : ∀ o ∈ c.operators, located o ≤ prec) :
    ∃ stack' c' out', popWhile binaryOp prec stack ((c :: out).map (chainExpr binaryOp build)) =
        some (stack', (c' :: out').map (chainExpr binaryOp build)) ∧
      Stacked located stack' (c' :: out') ∧ (∀ o ∈ c'.operators, located o ≤ prec) ∧
      (∀ o ∈ stack'.head?, prec < located o) ∧
      stackOperands (c' :: out') = stackOperands (c :: out) ∧
      stackOperators stack' (c' :: out') = stackOperators stack (c :: out) := by
  induction stack generalizing c out with
  | nil => exact ⟨[], c, out, rfl, h, hc, by simp, rfl, rfl⟩
  | cons o stack ih =>
    obtain ⟨op, loc⟩ := o
    by_cases hp : precedence op ≤ prec
    · cases h with
      | @push _ _ l _ out below hleft htop right hright =>
        have hjoined : ∀ o ∈ (Chain.binary (op, loc) l c).operators, located o ≤ prec := by
          intro o ho
          rw [operators_binary, List.mem_append, List.mem_cons] at ho
          rcases ho with ho | rfl | ho
          · exact (hleft o ho).trans hp
          · exact hp
          · exact hc o ho
        obtain ⟨stack', c', out', hpop, hst, hc', htop', hands, hops⟩ :=
          ih (Stacked.push below hleft htop right hright).reduce hjoined
        refine ⟨stack', c', out', ?_, hst, hc', htop', ?_, ?_⟩
        · exact (if_pos hp).trans hpop
        · rw [hands, Stacked.stackOperands_reduce]
        · rw [hops, Stacked.stackOperators_reduce]
    · refine ⟨(op, loc) :: stack, c, out, ?_, h, hc, ?_, rfl, rfl⟩
      · exact if_neg hp
      · rintro o ⟨⟩
        exact Nat.lt_of_not_le hp

/-- The last loop joins what is on the stacks. -/
theorem popAll_spec {stack : List (BinaryOp × Loc)} {out : List (Chain A (BinaryOp × Loc))}
    (h : Stacked located stack out) :
    ∃ c, popAll binaryOp stack (out.map (chainExpr binaryOp build)) = some (chainExpr binaryOp build c) ∧
      Grouped located c ∧ c.operands = stackOperands out ∧ c.operators = stackOperators stack out := by
  induction stack generalizing out with
  | nil =>
    cases h with
    | @bottom c h => exact ⟨c, rfl, h, by simp [stackOperands], rfl⟩
  | cons o stack ih =>
    cases h with
    | @push _ _ l r out below hleft htop right hright =>
      obtain ⟨c, hpop, hc, hands, hops⟩ := ih (Stacked.push below hleft htop right hright).reduce
      refine ⟨c, hpop, hc, ?_, ?_⟩
      · rw [hands, Stacked.stackOperands_reduce]
      · rw [hops, Stacked.stackOperators_reduce]

/-- The main loop builds a grouped chain that reads as the stacks and the input do. -/
theorem rebuildLoop_spec {stack : List (BinaryOp × Loc)} {out : List (Chain A (BinaryOp × Loc))}
    {operators : List (BinaryOp × Loc)} {operands : List A} (h : Stacked located stack out)
    (htop : ∀ c ∈ out.head?, c.operators = []) (hlen : operands.length = operators.length) :
    ∃ c, rebuildLoop binaryOp stack (out.map (chainExpr binaryOp build)) operators (operands.map build) =
        some (chainExpr binaryOp build c) ∧
      Grouped located c ∧ c.operands = stackOperands out ++ operands ∧
      c.operators = stackOperators stack out ++ operators := by
  induction operators generalizing stack out operands with
  | nil =>
    obtain rfl := List.length_eq_zero_iff.mp hlen
    obtain ⟨c, hpop, hc, hands, hops⟩ := popAll_spec h
    exact ⟨c, hpop, hc, by rw [hands, List.append_nil], by rw [hops, List.append_nil]⟩
  | cons op operators ih =>
    cases operands with
    | nil => cases hlen
    | cons a operands =>
      obtain ⟨top, out, rfl⟩ : ∃ top out', out = top :: out' := by
        cases h with
        | bottom => exact ⟨_, _, rfl⟩
        | push => exact ⟨_, _, rfl⟩
      obtain ⟨stack', c', out', hpop, hst, hc', htop', hands, hops⟩ :=
        @popWhile_spec Loc E A binaryOp build _ _ _ (precedence op.1) h
          (by rw [htop top rfl]; simp)
      have hpush : Stacked located (op :: stack') (.operand a :: c' :: out') :=
        .push hst hc' htop' (.operand a) (by simp)
      obtain ⟨c, hloop, hc, hands', hops'⟩ := ih hpush (by rintro c ⟨⟩; rfl) (Nat.succ.inj hlen)
      refine ⟨c, ?_, hc, ?_, ?_⟩
      · show rebuildLoop binaryOp stack ((top :: out).map _) (op :: operators) (build a :: operands.map build) = _
        rw [rebuildLoop, hpop]
        exact hloop
      · rw [hands', ← hands]
        simp [stackOperands]
      · rw [hops', ← hops]
        simp [stackOperators]

/-- The rebuilt expression is that of a grouped chain of the operands and operators. -/
theorem rebuildWithPrecedence_spec {operators : List (BinaryOp × Loc)} {operands : List A}
    (hlen : operands.length = operators.length + 1) :
    ∃ c, rebuildWithPrecedence binaryOp operators (operands.map build) = some (chainExpr binaryOp build c) ∧
      Grouped located c ∧ c.operands = operands ∧ c.operators = operators := by
  cases operands with
  | nil => cases hlen
  | cons a operands =>
    have hbottom : Stacked (@located Loc) [] [Chain.operand a] := .bottom (.operand a)
    exact rebuildLoop_spec hbottom (by rintro c ⟨⟩; rfl) (Nat.succ.inj hlen)

end

variable (binaryOp : BinaryOp → E → E → Loc → E) (build : ParseTree α Loc → E)

/-- A tree of binary nodes is built as a grouped chain of what it spells. -/
theorem buildBinaryChain_spec {t : ParseTree α Loc} {operands : List (ParseTree α Loc)}
    {operators : List (BinaryOp × Loc)} (h : t.Spells operands operators) (hne : operators ≠ []) :
    ∃ c, buildBinaryChain binaryOp build t = some (chainExpr binaryOp build c) ∧
      Chain.Grouped located c ∧ c.operands = operands ∧ c.operators = operators := by
  have hlen := h.length_eq
  have hflat := h.flatten
  cases h with
  | operand h => exact absurd rfl hne
  | @binary l r _ _ _ _ op loc left right =>
    rw [buildBinaryChain, hflat]
    simp only [extractOperator]
    split
    · next l' r' o loc' heq =>
      -- one operator: no need to rebuild
      obtain ⟨hands, hops⟩ := Prod.mk.inj heq
      rw [hands, hops]
      exact ⟨.binary (o, loc') (.operand l') (.operand r'), rfl,
        .binary (.operand _) (.operand _) (by simp) (by simp), rfl, rfl⟩
    · next heq =>
      obtain ⟨rfl, rfl⟩ := Prod.mk.inj heq
      exact rebuildWithPrecedence_spec hlen

/-- Operands and operators have one grouped chain, and every tree that spells them is built as this chain, with the
location of each operator's own node. -/
theorem buildBinaryChain_grouped {t : ParseTree α Loc} {operands : List (ParseTree α Loc)}
    {operators : List (BinaryOp × Loc)} (h : t.Spells operands operators) (hne : operators ≠ []) :
    ∃ c : Chain (ParseTree α Loc) BinaryOp,
      c.Grouped precedence ∧ c.operands = operands ∧ c.operators = operators.map Prod.fst ∧
      (∀ c' : Chain (ParseTree α Loc) BinaryOp, c'.Grouped precedence → c'.operands = operands →
        c'.operators = operators.map Prod.fst → c' = c) ∧
      ∀ (t' : ParseTree α Loc) (operators' : List (BinaryOp × Loc)), t'.Spells operands operators' →
        operators'.map Prod.fst = operators.map Prod.fst →
        ∃ c' : Chain (ParseTree α Loc) (BinaryOp × Loc), c'.mapOp Prod.fst = c ∧ c'.operators = operators' ∧
          buildBinaryChain binaryOp build t' = some (chainExpr binaryOp build c') := by
  obtain ⟨c, -, hc, hands, hops⟩ := buildBinaryChain_spec binaryOp build h hne
  have hgrouped : (c.mapOp Prod.fst).Grouped precedence := Chain.grouped_mapOp Prod.fst hc
  have hreads : (c.mapOp Prod.fst).operators = operators.map Prod.fst := by
    rw [Chain.operators_mapOp, hops]
  have huniq : ∀ c' : Chain (ParseTree α Loc) BinaryOp, c'.Grouped precedence → c'.operands = operands →
      c'.operators = operators.map Prod.fst → c' = c.mapOp Prod.fst := by
    intro c' hc' hands' hops'
    exact hc'.unique hgrouped (by rw [hands', Chain.operands_mapOp, hands]) (by rw [hops', hreads])
  refine ⟨c.mapOp Prod.fst, hgrouped, by rw [Chain.operands_mapOp, hands], hreads, huniq, ?_⟩
  intro t' operators' h' heq
  have hne' : operators' ≠ [] := by
    rintro rfl
    exact hne (List.map_eq_nil_iff.mp heq.symm)
  obtain ⟨c', hbuild, hc', hands', hops'⟩ := buildBinaryChain_spec binaryOp build h' hne'
  refine ⟨c', huniq _ (Chain.grouped_mapOp Prod.fst hc') ?_ ?_, hops', hbuild⟩
  · rw [Chain.operands_mapOp, hands']
  · rw [Chain.operators_mapOp, hops', heq]

/-- `a + b * c`, derived as a product of a sum. -/
def sumTimes : ParseTree Nat Nat :=
  .rule [.rule [.other 0, .binaryOperator .add, .other 1] 0, .binaryOperator .mul, .other 2] 1

/-- It is built as a grouped chain all the same. -/
theorem buildBinaryChain_sumTimes :
    ∃ c : Chain (ParseTree Nat Nat) BinaryOp, c.Grouped precedence ∧ c.operands = [.other 0, .other 1, .other 2] ∧
      c.operators = [.add, .mul] := by
  have hspells : sumTimes.Spells [.other 0, .other 1, .other 2] [(.add, 0), (.mul, 1)] :=
    .binary .mul 1 (.binary .add 0 (.operand rfl) (.operand rfl)) (.operand rfl)
  obtain ⟨c, hc, hands, hops, -⟩ :=
    buildBinaryChain_grouped (fun _ l r _ => l + r) (fun _ => 0) hspells (List.cons_ne_nil _ _)
  exact ⟨c, hc, hands, hops⟩

end ParseTree

end Veriforge

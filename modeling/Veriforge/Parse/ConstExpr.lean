import Veriforge.Parse.BinaryChain

/-! # Constant expressions

`_build_const_expr_inner` of `transforms/_expressions.py`. The grammar's rule for constant expressions is ambiguous in
`?:` as well: a conditional may be an operand of a binary operator, or its condition a part of what stands before the
`?`. The builder puts one such pattern right. -/

namespace Veriforge

/-! ## Expressions and their tokens -/

/-- An operand of a constant expression: a primary, or a unary operator on one. A primary stands for what is built
from it. -/
inductive ConstOperand (α : Type)
  | primary (a : α)
  | unary (op : UnaryOp) (a : α)
  deriving DecidableEq

/-- The expressions that are built; locations are left out. -/
inductive ConstExpr (α : Type)
  | operand (o : ConstOperand α)
  | binary (op : BinaryOp) (left right : ConstExpr α)
  | ternary (condition trueExpr falseExpr : ConstExpr α)
  deriving DecidableEq

/-- The tokens of a constant expression. -/
inductive ConstToken (α : Type)
  | operand (o : ConstOperand α)
  | operator (op : BinaryOp)
  | question
  | colon
  deriving DecidableEq

/-- The operand of an operand token. -/
def ConstToken.operand? {α : Type} : ConstToken α → Option (ConstOperand α)
  | operand o => some o
  | _ => none

/-- The operator of an operator token. -/
def ConstToken.operator? {α : Type} : ConstToken α → Option BinaryOp
  | operator op => some op
  | _ => none

namespace ConstExpr

variable {α Loc : Type}

/-- The tokens from left to right. -/
def tokens : ConstExpr α → List (ConstToken α)
  | operand o => [.operand o]
  | binary op l r => l.tokens ++ .operator op :: r.tokens
  | ternary c t f => c.tokens ++ .question :: (t.tokens ++ .colon :: f.tokens)

/-- The expression of a chain of operands. -/
def ofChain : Chain (ConstOperand α) BinaryOp → ConstExpr α := Chain.fold operand binary

/-- Binary operators group by precedence and associate to the left, and `?:` binds looser than all of them and
associates to the right. -/
inductive Canonical : ConstExpr α → Prop
  | chain {e : ConstExpr α} (c : Chain (ConstOperand α) BinaryOp) (h : c.Grouped ParseTree.precedence)
      (he : e = ofChain c) : Canonical e
  | ternary {e t f : ConstExpr α} (c : Chain (ConstOperand α) BinaryOp) (h : c.Grouped ParseTree.precedence)
      (he : e = ofChain c) (ht : Canonical t) (hf : Canonical f) : Canonical (.ternary e t f)

/-- The expression that the tokens stand for. -/
def Reading (ts : List (ConstToken α)) (e : ConstExpr α) : Prop := Canonical e ∧ e.tokens = ts

/-! ## Building -/

/-- A tree of `constant_expression`. -/
def isRule : ParseTree α Loc → Bool
  | .rule _ _ => true
  | _ => false

/-- `BinaryOp(...)` on operands that may have failed to build. -/
def binaryOp (op : BinaryOp) (left right : Option (ConstExpr α)) (_ : Loc) : Option (ConstExpr α) :=
  left.bind fun l => right.map (binary op l)

/-- The three parts of a conditional. -/
def ternaryParts : ParseTree α Loc → Option (ParseTree α Loc × ParseTree α Loc × ParseTree α Loc)
  | .rule [c, t, f] _ => if isRule c && isRule t && isRule f then some (c, t, f) else none
  | _ => none

/-- `_build_const_expr_inner`, and `_build_const_expr_child` on a tree that is no node of the rule. `none` where the
builder goes on to search the tree, which it does for no derivation. -/
def build : Nat → ParseTree α Loc → Option (ConstExpr α)
  | 0, _ => none
  | _ + 1, .other a => some (.operand (.primary a))
  | n + 1, .rule [child] _ => build n child
  | _ + 1, .rule [.unaryOperator op, .other a] _ => some (.operand (.unary op a))
  | n + 1, .rule [left, middle, right] loc =>
      match ternaryParts (.rule [left, middle, right] loc) with
      | some (c, t, f) =>
          (build n c).bind fun c => (build n t).bind fun t => (build n f).map (ternary c t)
      | none =>
          match middle.extractOperator, ternaryParts right with
          -- `A op (B ? C : D)` is `(A op B) ? C : D`
          | some op, some (c, t, f) =>
              (binaryOp op (build n left) (build n c) loc).bind fun c =>
                (build n t).bind fun t => (build n f).map (ternary c t)
          | _, _ => (ParseTree.buildBinaryChain binaryOp (build n) (.rule [left, middle, right] loc)).join
  | _ + 1, _ => none

section

-- derived here once, not by every proof
attribute [local simp] tokens ternaryParts build

end

end ConstExpr

/-! ## Derivations -/

/-- A derivation of the rule `constant_expression`, with the location of every node. -/
inductive ConstDerivation (α Loc : Type)
  | primary (a : α) (loc : Loc)
  | unary (op : UnaryOp) (a : α) (loc : Loc)
  | binary (left : ConstDerivation α Loc) (op : BinaryOp) (right : ConstDerivation α Loc) (loc : Loc)
  | ternary (condition trueExpr falseExpr : ConstDerivation α Loc) (loc : Loc)

namespace ConstDerivation

variable {α Loc : Type}

/-- The tree that the parser returns. -/
def toTree : ConstDerivation α Loc → ParseTree α Loc
  | primary a loc => .rule [.other a] loc
  | unary op a loc => .rule [.unaryOperator op, .other a] loc
  | binary l op r loc => .rule [l.toTree, .binaryOperator op, r.toTree] loc
  | ternary c t f loc => .rule [c.toTree, t.toTree, f.toTree] loc

/-- The tokens that are derived. -/
def tokens : ConstDerivation α Loc → List (ConstToken α)
  | primary a _ => [.operand (.primary a)]
  | unary op a _ => [.operand (.unary op a)]
  | binary l op r _ => l.tokens ++ .operator op :: r.tokens
  | ternary c t f _ => c.tokens ++ .question :: (t.tokens ++ .colon :: f.tokens)

def size : ConstDerivation α Loc → Nat
  | primary _ _ => 2
  | unary _ _ _ => 1
  | binary l _ r _ => l.size + r.size + 1
  | ternary c t f _ => c.size + t.size + f.size + 1

/-- No `?:` outside parentheses. -/
def Plain : ConstDerivation α Loc → Prop
  | primary _ _ | unary _ _ _ => True
  | binary l _ r _ => l.Plain ∧ r.Plain
  | ternary _ _ _ _ => False

/-- The binary operators of a derivation without `?:`. -/
def operators : ConstDerivation α Loc → List BinaryOp
  | primary _ _ | unary _ _ _ | ternary _ _ _ _ => []
  | binary l op r _ => l.operators ++ op :: r.operators

/-- The derivations that the builder reads right: a conditional's condition has no conditional in it; a binary node has
none at all, unless one is its right operand itself, and then no operator on the left binds looser than the node's,
and those of the condition bind tighter. -/
def ReadRight : ConstDerivation α Loc → Prop
  | primary _ _ | unary _ _ _ => True
  | ternary c t f _ => c.Plain ∧ t.ReadRight ∧ f.ReadRight
  | binary l op (ternary c t f _) _ =>
      l.Plain ∧ c.Plain ∧ (∀ o ∈ l.operators, ParseTree.precedence o ≤ ParseTree.precedence op) ∧
        (∀ o ∈ c.operators, ParseTree.precedence o < ParseTree.precedence op) ∧ t.ReadRight ∧ f.ReadRight
  | binary l _ r _ => l.Plain ∧ r.Plain

section

-- derived here once, not by every proof
attribute [local simp] toTree tokens size Plain operators ReadRight

end

end ConstDerivation

/-! ## Tokens determine the reading -/

namespace ConstExpr

variable {α : Type}

/-- The nesting of `?` and `:` behind some tokens; `none` where a `:` has no `?`. -/
def nesting : Nat → List (ConstToken α) → Option Nat
  | k, [] => some k
  | k, .question :: ts => nesting (k + 1) ts
  | 0, .colon :: _ => none
  | k + 1, .colon :: ts => nesting k ts
  | k, .operand _ :: ts => nesting k ts
  | k, .operator _ :: ts => nesting k ts

theorem nesting_append (k : Nat) (ts us : List (ConstToken α)) :
    nesting k (ts ++ us) = (nesting k ts).bind fun k => nesting k us := by
  induction ts generalizing k with
  | nil => rfl
  | cons t ts ih =>
    cases t with
    | operand o => exact ih k
    | operator op => exact ih k
    | question => exact ih (k + 1)
    | colon =>
      cases k with
      | zero => rfl
      | succ k => exact ih k

/-- An expression closes what it opens. -/
theorem nesting_tokens (e : ConstExpr α) (k : Nat) : nesting k e.tokens = some k := by
  induction e generalizing k with
  | operand o => rfl
  | binary op l r ihl ihr =>
    rw [tokens, nesting_append, ihl]
    exact ihr k
  | ternary c t f ihc iht ihf =>
    rw [tokens, nesting_append, ihc]
    show nesting (k + 1) (t.tokens ++ .colon :: f.tokens) = some k
    rw [nesting_append, iht]
    exact ihf k

theorem tokens_ofChain (c : Chain (ConstOperand α) BinaryOp) :
    (ofChain c).tokens = c.spell (fun o => [.operand o]) .operator := by
  induction c with
  | operand o => rfl
  | binary op l r ihl ihr =>
    show (ofChain l).tokens ++ _ :: (ofChain r).tokens = _
    rw [ihl, ihr]
    rfl

theorem question_not_mem_ofChain (c : Chain (ConstOperand α) BinaryOp) : .question ∉ (ofChain c).tokens := by
  induction c with
  | operand o => exact fun h => nomatch List.mem_singleton.mp h
  | binary op l r ihl ihr =>
    show .question ∉ (ofChain l).tokens ++ .operator op :: (ofChain r).tokens
    rw [List.mem_append, List.mem_cons]
    rintro (h | h | h)
    · exact ihl h
    · cases h
    · exact ihr h

/-- The operands among the tokens of a chain are its operands, and likewise the operators. -/
theorem chain_of_tokens {c c' : Chain (ConstOperand α) BinaryOp}
    (h : (ofChain c).tokens = (ofChain c').tokens) : c.operands = c'.operands ∧ c.operators = c'.operators := by
  have hands : ∀ c : Chain (ConstOperand α) BinaryOp, (ofChain c).tokens.filterMap ConstToken.operand? = c.operands := by
    intro c
    induction c with
    | operand o => rfl
    | binary op l r ihl ihr =>
      show ((ofChain l).tokens ++ .operator op :: (ofChain r).tokens).filterMap _ = _
      rw [List.filterMap_append, List.filterMap_cons_none rfl, ihl, ihr]
      rfl
  have hops : ∀ c : Chain (ConstOperand α) BinaryOp, (ofChain c).tokens.filterMap ConstToken.operator? = c.operators := by
    intro c
    induction c with
    | operand o => rfl
    | binary op l r ihl ihr =>
      show ((ofChain l).tokens ++ .operator op :: (ofChain r).tokens).filterMap _ = _
      have hop : ConstToken.operator? (.operator op : ConstToken α) = some op := rfl
      rw [List.filterMap_append, List.filterMap_cons_some hop, ihl, ihr]
      rfl
  rw [← hands c, ← hands c', ← hops c, ← hops c', h]
  exact ⟨rfl, rfl⟩

/-- What stands before the first occurrence of a token that neither part holds. -/
theorem append_cons_inj {ts ts' us us' : List (ConstToken α)} {t : ConstToken α} (h : t ∉ ts) (h' : t ∉ ts')
    (heq : ts ++ t :: us = ts' ++ t :: us') : ts = ts' ∧ us = us' := by
  rcases List.append_eq_append_iff.mp heq with ⟨as, rfl, has⟩ | ⟨as, rfl, has⟩
  · cases as with
    | nil => exact ⟨(List.append_nil _).symm, (List.cons.inj has).2⟩
    | cons a as =>
      obtain rfl := (List.cons.inj has).1
      exact absurd (List.mem_append_right _ List.mem_cons_self) h'
  · cases as with
    | nil => exact ⟨List.append_nil _, (List.cons.inj has).2.symm⟩
    | cons a as =>
      obtain rfl := (List.cons.inj has).1
      exact absurd (List.mem_append_right _ List.mem_cons_self) h

/-- The `:` of a conditional is the first one that closes more than was opened. -/
theorem arm_inj {t t' : ConstExpr α} {us us' : List (ConstToken α)}
    (h : t.tokens ++ .colon :: us = t'.tokens ++ .colon :: us') : t.tokens = t'.tokens ∧ us = us' := by
  have hno : ∀ (e e' : ConstExpr α) (as : List (ConstToken α)), e'.tokens ≠ e.tokens ++ .colon :: as := by
    intro e e' as heq
    have hn := nesting_tokens e' 0
    rw [heq, nesting_append, nesting_tokens] at hn
    cases hn
  rcases List.append_eq_append_iff.mp h with ⟨as, has, hus⟩ | ⟨as, has, hus⟩
  · cases as with
    | nil => exact ⟨by rw [has, List.append_nil], (List.cons.inj hus).2⟩
    | cons a as =>
      obtain rfl := (List.cons.inj hus).1
      exact absurd has (hno t t' as)
  · cases as with
    | nil => exact ⟨by rw [has, List.append_nil], (List.cons.inj hus).2.symm⟩
    | cons a as =>
      obtain rfl := (List.cons.inj hus).1
      exact absurd has (hno t' t as)

theorem canonical_unique {e e' : ConstExpr α} (h : Canonical e) (h' : Canonical e') (heq : e.tokens = e'.tokens) :
    e = e' := by
  have hquestion : ∀ {c t f : ConstExpr α}, ConstToken.question ∈ (ternary c t f).tokens :=
    List.mem_append_right _ List.mem_cons_self
  induction h generalizing e' with
  | chain c hc he =>
    subst he
    cases h' with
    | chain c' hc' he' =>
      subst he'
      obtain ⟨hands, hops⟩ := chain_of_tokens heq
      rw [hc.unique hc' hands hops]
    | ternary c' hc' he' ht' hf' =>
      exact absurd (heq ▸ hquestion) (question_not_mem_ofChain c)
  | ternary c hc he ht hf iht ihf =>
    subst he
    cases h' with
    | chain c' hc' he' =>
      subst he'
      exact absurd (heq ▸ hquestion) (question_not_mem_ofChain c')
    | ternary c' hc' he' ht' hf' =>
      subst he'
      obtain ⟨hcond, hrest⟩ := append_cons_inj (question_not_mem_ofChain c) (question_not_mem_ofChain c') heq
      obtain ⟨harm, hlast⟩ := arm_inj hrest
      obtain ⟨hands, hops⟩ := chain_of_tokens hcond
      rw [hc.unique hc' hands hops, iht ht' harm, ihf hf' hlast]

/-- Tokens have one reading. -/
theorem Reading.unique {ts : List (ConstToken α)} {e e' : ConstExpr α} (h : Reading ts e) (h' : Reading ts e') :
    e = e' :=
  canonical_unique h.1 h'.1 (h.2.trans h'.2.symm)

end ConstExpr

end Veriforge

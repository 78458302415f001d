import Mathlib.Data.List.Basic
import Mathlib.Data.List.Infix
import Mathlib.Tactic.Common

/-! # Chains of binary operators

A chain is a tree of binary operators over operands. Read from left to right it is a list of operands with operators
between them. Under a table of precedences, all levels associating to the left, exactly one chain stands for each such
list, and an operator stack finds it. -/

namespace Veriforge

universe u v w

/-- Operands joined by binary operators. -/
inductive Chain (α : Type u) (ω : Type v)
  | operand (a : α)
  | binary (op : ω) (left right : Chain α ω)

namespace Chain

variable {α : Type u} {ω : Type v} {β : Type w}

/-- The operands from left to right. -/
def operands : Chain α ω → List α
  | operand a => [a]
  | binary _ l r => l.operands ++ r.operands

/-- The operators from left to right. -/
def operators : Chain α ω → List ω
  | operand _ => []
  | binary op l r => l.operators ++ op :: r.operators

/-- The value of a chain, from its operands' values. -/
def fold (operand : α → β) (binary : ω → β → β → β) : Chain α ω → β
  | .operand a => operand a
  | .binary op l r => binary op (l.fold operand binary) (r.fold operand binary)

/-- Other operators at the nodes. -/
def mapOp {ω' : Type v} (f : ω → ω') : Chain α ω → Chain α ω'
  | operand a => .operand a
  | binary op l r => .binary (f op) (l.mapOp f) (r.mapOp f)

@[simp] theorem operands_operand (a : α) : (operand a : Chain α ω).operands = [a] := rfl

@[simp] theorem operators_operand (a : α) : (operand a : Chain α ω).operators = [] := rfl

@[simp] theorem operands_binary (op : ω) (l r : Chain α ω) :
    (binary op l r).operands = l.operands ++ r.operands := rfl

@[simp] theorem operators_binary (op : ω) (l r : Chain α ω) :
    (binary op l r).operators = l.operators ++ op :: r.operators := rfl

@[simp] theorem operands_mapOp {ω' : Type v} (f : ω → ω') (c : Chain α ω) : (c.mapOp f).operands = c.operands := by
  induction c with
  | operand a => rfl
  | binary op l r ihl ihr => rw [mapOp, operands_binary, operands_binary, ihl, ihr]

@[simp] theorem operators_mapOp {ω' : Type v} (f : ω → ω') (c : Chain α ω) :
    (c.mapOp f).operators = c.operators.map f := by
  induction c with
  | operand a => rfl
  | binary op l r ihl ihr => rw [mapOp, operators_binary, operators_binary, ihl, ihr, List.map_append, List.map_cons]

/-- There is one operand more than there are operators. -/
theorem length_operands (c : Chain α ω) : c.operands.length = c.operators.length + 1 := by
  induction c with
  | operand a => rfl
  | binary op l r ihl ihr =>
    rw [operands_binary, operators_binary, List.length_append, List.length_append, List.length_cons, ihl, ihr]
    omega

/-- The texts of operands with those of operators between them. -/
def interleave {τ : Type w} (operand : α → List τ) (operator : ω → τ) : List α → List ω → List τ
  | a :: as, op :: ops => operand a ++ operator op :: interleave operand operator as ops
  | as, _ => as.flatMap operand

theorem interleave_append {τ : Type w} (operand : α → List τ) (operator : ω → τ) {as bs : List α} {ops ops' : List ω}
    {op : ω} (h : as.length = ops.length + 1) :
    interleave operand operator (as ++ bs) (ops ++ op :: ops') =
      interleave operand operator as ops ++ operator op :: interleave operand operator bs ops' := by
  induction ops generalizing as with
  | nil =>
    obtain ⟨a, rfl⟩ := List.length_eq_one_iff.mp h
    simp [interleave]
  | cons o ops ih =>
    cases as with
    | nil => cases h
    | cons a as =>
      rw [List.cons_append, List.cons_append, interleave, ih (Nat.succ.inj h), interleave, List.append_assoc,
        List.cons_append]

/-- A text for every operand and operator, written out in reading order. -/
def spell {τ : Type w} (operand : α → List τ) (operator : ω → τ) : Chain α ω → List τ :=
  fold operand fun op l r => l ++ operator op :: r

/-- Chains that read alike are spelled alike. -/
theorem spell_congr {τ : Type w} (operand : α → List τ) (operator : ω → τ) {c c' : Chain α ω}
    (hoperands : c.operands = c'.operands) (hoperators : c.operators = c'.operators) :
    c.spell operand operator = c'.spell operand operator := by
  have hspell : ∀ c : Chain α ω, c.spell operand operator = interleave operand operator c.operands c.operators := by
    intro c
    induction c with
    | operand a => exact (List.append_nil _).symm
    | binary op l r ihl ihr =>
      rw [operands_binary, operators_binary, interleave_append _ _ l.length_operands, ← ihl, ← ihr]
      rfl
  rw [hspell, hspell, hoperands, hoperators]

/-! ## Grouping by precedence -/

variable (prec : ω → Nat)

/-- The operators under an operator bind at least as tightly as it does on its left, and more tightly on its right.
A smaller number binds tighter. -/
inductive Grouped : Chain α ω → Prop
  | operand (a : α) : Grouped (.operand a)
  | binary {op : ω} {l r : Chain α ω} (left : Grouped l) (right : Grouped r)
      (hleft : ∀ o ∈ l.operators, prec o ≤ prec op) (hright : ∀ o ∈ r.operators, prec o < prec op) :
      Grouped (.binary op l r)

theorem grouped_mapOp {ω' : Type v} {prec' : ω' → Nat} (f : ω → ω') {c : Chain α ω}
    (h : Grouped (fun o => prec' (f o)) c) : Grouped prec' (c.mapOp f) := by
  induction h with
  | operand a => exact .operand a
  | binary left right hleft hright ihl ihr =>
    refine .binary ihl ihr ?_ ?_
    · rw [operators_mapOp]
      exact List.forall_mem_map.mpr hleft
    · rw [operators_mapOp]
      exact List.forall_mem_map.mpr hright

variable {prec}

/-- The operator at the root is the last of the loosest ones, so grouped chains that read alike have it in one
place. -/
theorem length_left_eq {op op' : ω} {l r l' r' : Chain α ω} (h : Grouped prec (.binary op l r))
    (h' : Grouped prec (.binary op' l' r'))
    (heq : (binary op l r).operators = (binary op' l' r').operators) :
    l.operators.length = l'.operators.length := by
  have key : ∀ {op op' : ω} {l r l' r' : Chain α ω}, Grouped prec (.binary op l r) →
      Grouped prec (.binary op' l' r') → l.operators ++ op :: r.operators = l'.operators ++ op' :: r'.operators →
      ¬ l.operators.length < l'.operators.length := by
    intro op op' l r l' r' h h' heq hlt
    cases h with
    | binary _ _ _ hright =>
      cases h' with
      | binary _ _ hleft' _ =>
        have hop : op ∈ l'.operators := by
          have hget := congrArg (fun xs => xs[l.operators.length]?) heq
          simp only [List.getElem?_append_left hlt] at hget
          rw [List.getElem?_append_right le_rfl, Nat.sub_self] at hget
          exact List.mem_of_getElem? hget.symm
        have hop' : op' ∈ r.operators := by
          have hget := congrArg (fun xs => xs[l'.operators.length]?) heq
          simp only [List.getElem?_append_right (le_refl l'.operators.length), Nat.sub_self] at hget
          rw [List.getElem?_append_right hlt.le, List.getElem?_cons, if_neg (by omega)] at hget
          exact List.mem_of_getElem? hget
        have h1 := hleft' op hop
        have h2 := hright op' hop'
        omega
  have h1 := key h h' heq
  have h2 := key h' h heq.symm
  omega

/-- One grouped chain stands for a list of operands and operators. -/
theorem Grouped.unique {c c' : Chain α ω} (h : Grouped prec c) (h' : Grouped prec c')
    (hoperands : c.operands = c'.operands) (hoperators : c.operators = c'.operators) : c = c' := by
  induction h generalizing c' with
  | operand a =>
    cases h' with
    | operand b => rw [List.singleton_inj.mp hoperands]
    | binary => exact absurd hoperators.symm (by simp)
  | @binary op l r left right hleft hright ihl ihr =>
    cases h' with
    | operand b => exact absurd hoperators (by simp)
    | @binary op' l' r' left' right' hleft' hright' =>
      have hlen := length_left_eq (.binary left right hleft hright) (.binary left' right' hleft' hright')
        hoperators
      obtain ⟨hl, hrest⟩ := List.append_inj hoperators hlen
      obtain ⟨rfl, hr⟩ := List.cons.inj hrest
      obtain ⟨hla, hra⟩ := List.append_inj hoperands (by rw [length_operands, length_operands, hlen])
      rw [ihl left' hla hl, ihr right' hra hr]

/-! ## The operator stack -/

/-- Chains and operators on two stacks, the top first: below an operator stands its left operand, which it does not
loosen, and above it a right operand that binds tighter; operators bind tighter towards the top. -/
inductive Stacked (prec : ω → Nat) : List ω → List (Chain α ω) → Prop
  | bottom {c : Chain α ω} (h : Grouped prec c) : Stacked prec [] [c]
  | push {op : ω} {ops : List ω} {l r : Chain α ω} {out : List (Chain α ω)} (below : Stacked prec ops (l :: out))
      (hleft : ∀ o ∈ l.operators, prec o ≤ prec op) (htop : ∀ o ∈ ops.head?, prec op < prec o)
      (right : Grouped prec r) (hright : ∀ o ∈ r.operators, prec o < prec op) :
      Stacked prec (op :: ops) (r :: l :: out)

/-- The operands on the stacks from left to right. -/
def stackOperands (out : List (Chain α ω)) : List α := (out.reverse.map operands).flatten

/-- The operators on the stacks from left to right. -/
def stackOperators : List ω → List (Chain α ω) → List ω
  | op :: ops, c :: out => stackOperators ops out ++ op :: c.operators
  | [], c :: _ => c.operators
  | _, [] => []

namespace Stacked

variable {op : ω} {ops : List ω} {l r c : Chain α ω} {out : List (Chain α ω)}

theorem grouped_top (h : Stacked prec ops (c :: out)) : Grouped prec c := by
  cases h with
  | bottom h => exact h
  | push _ _ _ right _ => exact right

/-- Two chains joined by the operator at the top of the stack. -/
theorem reduce (h : Stacked prec (op :: ops) (r :: l :: out)) : Stacked prec ops (.binary op l r :: out) := by
  cases h with
  | push below hleft htop right hright =>
    have hjoined : Grouped prec (.binary op l r) := .binary below.grouped_top right hleft hright
    cases below with
    | bottom _ => exact .bottom hjoined
    | push below' hleft' htop' right' hright' =>
      refine .push below' hleft' htop' hjoined fun o ho => ?_
      have hlt := htop _ rfl
      rw [operators_binary, List.mem_append, List.mem_cons] at ho
      rcases ho with ho | rfl | ho
      · exact hright' o ho
      · exact hlt
      · exact (hright o ho).trans hlt

theorem stackOperators_reduce :
    stackOperators ops (.binary op l r :: out) = stackOperators (op :: ops) (r :: l :: out) := by
  cases ops with
  | nil => rfl
  | cons o ops => simp [stackOperators]

theorem stackOperands_reduce : stackOperands (binary op l r :: out) = stackOperands (r :: l :: out) := by
  simp [stackOperands]

end Stacked

end Chain

end Veriforge

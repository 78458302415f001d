import Veriforge.Except

/-! # Control flow of the DSL

`with m.if_(…)`, `m.elif_(…)`, `m.else_()` and `m.case(…)` of `dsl/builder.py`. The builder keeps a stack of open blocks.
When a block ends, its statements become the body of a statement that is put into the block around it; that of an
`elif_` or `else_` is hung below the last statement there. -/

namespace Veriforge.Dsl

/-- The `case_type` of a case statement. -/
inductive CaseType where
  | case | casex | casez
  deriving DecidableEq

/-- The statements that the builder makes. An item without values that is not the default has an empty list. -/
inductive Statement (Expr : Type) where
  | blockingAssign (lhs rhs : Expr)
  | nonblockingAssign (lhs rhs : Expr)
  | seqBlock (statements : List (Statement Expr))
  | ifStatement (condition : Expr) (thenBody : Statement Expr) (elseBody : Option (Statement Expr))
  | caseStatement (caseType : CaseType) (expression : Expr) (items : List (Option (List Expr) × Statement Expr))

/-- The values of a case item, or nothing for the default, and its body. -/
abbrev CaseItem (Expr : Type) := Option (List Expr) × Statement Expr

/-! ## Programs -/

mutual

/-- What stands in a block, one after another. -/
inductive Block (Expr : Type) where
  | nil
  | cons (step : Step Expr) (rest : Block Expr)

/-- An assignment or a `with` statement. -/
inductive Step (Expr : Type) where
  | assign (blocking : Bool) (lhs rhs : Expr)
  | if_ (condition : Expr) (body : Block Expr)
  | elif_ (condition : Expr) (body : Block Expr)
  | else_ (body : Block Expr)
  | case_ (caseType : CaseType) (expression : Expr) (body : CaseBlock Expr)

/-- What stands in a case block. -/
inductive CaseBlock (Expr : Type) where
  | nil
  | when_ (values : List Expr) (body : Block Expr) (rest : CaseBlock Expr)
  | default_ (body : Block Expr) (rest : CaseBlock Expr)
  | stray (step : Step Expr) (rest : CaseBlock Expr)

end

variable {Expr : Type}

/-! ## The builder -/

/-- `_wrap_statements` -/
def wrapStatements : List (Statement Expr) → Statement Expr
  | [] => .seqBlock []
  | [stmt] => stmt
  | stmts => .seqBlock stmts

/-- `_find_deepest_if`, and what is hung below it: nothing if it has an else already. -/
def attach (body : Statement Expr) : Statement Expr → Option (Statement Expr)
  | .ifStatement condition thenBody none => some (.ifStatement condition thenBody (some body))
  | .ifStatement condition thenBody (some (.ifStatement condition' thenBody' elseBody')) =>
      (attach body (.ifStatement condition' thenBody' elseBody')).map fun elseBody =>
        .ifStatement condition thenBody (some elseBody)
  | _ => none

/-- The stack of open blocks, the innermost first. -/
abbrev BlockStack (Expr : Type) := List (List (Statement Expr))

/-- `_push_block` -/
def pushBlock (stack : BlockStack Expr) : BlockStack Expr := [] :: stack

/-- `_pop_block` -/
def popBlock : BlockStack Expr → Except String (List (Statement Expr) × BlockStack Expr)
  | [] => .error "pop from empty list"
  | stmts :: stack => .ok (stmts, stack)

/-- `_append_stmt` -/
def appendStmt (stmt : Statement Expr) : BlockStack Expr → Except String (BlockStack Expr)
  | [] => .error "Statement must be inside a behavioral block (always/initial)"
  | stmts :: stack => .ok ((stmts ++ [stmt]) :: stack)

/-- What `if_()`, `elif_()`, `else_()` and `case()` check. -/
def insideBlock (what : String) (stack : BlockStack Expr) : Except String Unit :=
  if stack.isEmpty then .error (what ++ "() must be inside an always or initial block") else .ok ()

/-- `_ElifContext.__exit__` and `_ElseContext.__exit__`, with their messages. -/
def hangBelow (body : Statement Expr) (notAfterIf afterElse : String) :
    BlockStack Expr → Except String (BlockStack Expr)
  | [] => .error "list index out of range"
  | parent :: stack =>
      match parent.getLast? with
      | some (.ifStatement condition thenBody elseBody) =>
          match attach body (.ifStatement condition thenBody elseBody) with
          | some stmt => .ok ((parent.dropLast ++ [stmt]) :: stack)
          | none => .error afterElse
      | _ => .error notAfterIf

mutual

/-- The statements of a block, executed in order. -/
def Block.exec : Block Expr → BlockStack Expr → Except String (BlockStack Expr)
  | .nil, stack => .ok stack
  | .cons step rest, stack => do
      let stack ← step.exec stack
      rest.exec stack

/-- A statement of the program. Where the block of a `with` raises, the exception goes through. -/
def Step.exec : Step Expr → BlockStack Expr → Except String (BlockStack Expr)
  | .assign blocking lhs rhs, stack =>
      appendStmt (if blocking then .blockingAssign lhs rhs else .nonblockingAssign lhs rhs) stack
  | .if_ condition body, stack => do
      insideBlock "if_" stack
      let stack ← body.exec (pushBlock stack)
      let (stmts, stack) ← popBlock stack
      appendStmt (.ifStatement condition (wrapStatements stmts) none) stack
  | .elif_ condition body, stack => do
      insideBlock "elif_" stack
      let stack ← body.exec (pushBlock stack)
      let (stmts, stack) ← popBlock stack
      hangBelow (.ifStatement condition (wrapStatements stmts) none)
        "elif_() must immediately follow an if_() or elif_() block" "elif_() cannot follow an else_() block" stack
  | .else_ body, stack => do
      insideBlock "else_" stack
      let stack ← body.exec (pushBlock stack)
      let (stmts, stack) ← popBlock stack
      hangBelow (wrapStatements stmts) "else_() must immediately follow an if_() or elif_() block"
        "else_() cannot follow another else_() block" stack
  | .case_ caseType expression body, stack => do
      insideBlock "case" stack
      let (items, stack) ← body.exec [] (pushBlock stack)
      let (stray, stack) ← popBlock stack
      if stray.isEmpty then
        if items.isEmpty then
          .error "Empty case statement — no 'when' or 'default' items inside 'with m.case(...)'"
        else appendStmt (.caseStatement caseType expression items) stack
      else .error "Statements inside 'with m.case(...)' must be inside a 'when' or 'default' block"

/-- The items of a case statement, executed in order. -/
def CaseBlock.exec : CaseBlock Expr → List (CaseItem Expr) → BlockStack Expr →
    Except String (List (CaseItem Expr) × BlockStack Expr)
  | .nil, items, stack => .ok (items, stack)
  | .when_ values body rest, items, stack => do
      let stack ← body.exec (pushBlock stack)
      let (stmts, stack) ← popBlock stack
      rest.exec (items ++ [(some values, wrapStatements stmts)]) stack
  | .default_ body rest, items, stack => do
      let stack ← body.exec (pushBlock stack)
      let (stmts, stack) ← popBlock stack
      rest.exec (items ++ [(none, wrapStatements stmts)]) stack
  | .stray step rest, items, stack => do
      let stack ← step.exec stack
      rest.exec items stack

end

/-- `with m.always(…)`: the body of the block that is built, if it is not empty. -/
def always (program : Block Expr) : Except String (Option (Statement Expr)) := do
  let stack ← program.exec (pushBlock [])
  let (stmts, _) ← popBlock stack
  .ok (if stmts.isEmpty then none else some (wrapStatements stmts))

end Veriforge.Dsl

import Veriforge.Exec.Loop
import Veriforge.Sim.Eval

/-! # Executing statements

Statements (`model/statements.py`) and `StatementExecutor.execute` (`sim/executor.py`) with every branch
and every exit: blocks left by `disable`, loops bounded by `loop_limit`, suspension at delays, events and
waits. The evaluator, the writing of targets and the calls of tasks are what the executor is built on;
a user function or a task may write anything, so each of them is a computation on the whole state. -/

namespace Veriforge

open Value Exec

/-- `SensitivityEdge.edge`. -/
inductive EdgeKind
  | posedge | negedge | level
  deriving DecidableEq, Repr

/-- `SensitivityEdge`. -/
structure SensitivityEdge where
  edge : EdgeKind
  signal : Expr

/-- The two sides of a `BlockingAssign` or `NonblockingAssign`. -/
structure Assignment where
  lhs : Expr
  rhs : Expr

/-- `CaseStatement.case_type`. -/
inductive CaseType
  | case | casex | casez
  deriving DecidableEq, Repr

mutual

/-- `Statement`. -/
inductive Stmt
  | blockingAssign (a : Assignment)
  | nonblockingAssign (a : Assignment)
  | seqBlock (name : Option String) (statements : List Stmt)
  | parBlock (name : Option String) (statements : List Stmt)
  | ifStatement (condition : Expr) (thenBody elseBody : Option Stmt)
  | caseStatement (caseType : CaseType) (expression : Expr) (items : List CaseItem)
  | forLoop (init : Assignment) (condition : Expr) (update : Assignment) (body : Option Stmt)
      (signedVar : Bool)
  | whileLoop (condition : Expr) (body : Option Stmt)
  | foreverLoop (body : Option Stmt)
  | repeatLoop (count : Expr) (body : Option Stmt)
  | delayControl (delay : Expr) (body : Option Stmt)
  | eventControl (events : List SensitivityEdge) (body : Option Stmt)
  | waitStatement (condition : Expr) (body : Option Stmt)
  | disableStatement (target : String)
  | eventTrigger (event : String)
  | systemTaskCall (taskName : String) (arguments : List Expr)
  | taskEnable (taskName : String) (arguments : List Expr)

/-- `CaseItem`. -/
inductive CaseItem
  | mk (isDefault : Bool) (values : List Expr) (body : Option Stmt)

end

/-- `CaseItem.is_default`. -/
def CaseItem.isDefault : CaseItem → Bool
  | .mk isDefault _ _ => isDefault

/-- `CaseItem.values`. -/
def CaseItem.values : CaseItem → List Expr
  | .mk _ values _ => values

/-- A scheduled update: `NbaEntry`, `MemNbaEntry`, `MemRangeNbaEntry`, `StructFieldNbaEntry`. -/
inductive NbaEntry
  | signal (lhsName : String) (value : Value)
  | mem (memName : String) (index : Int) (value : Value)
  | memRange (memName : String) (index msb lsb : Int) (value : Value)
  | structField (baseName : String) (msb lsb : Int) (fieldValue : Value)

/-- What a statement changes: the context, the queue of non-blocking updates, and the rest of the
executor (display output, dump requests). -/
structure ExecState (γ ω : Type) where
  ctx : γ
  nbaQueue : List NbaEntry
  output : ω

/-- The exceptions that leave a statement. -/
inductive Exit
  | stopExecution
  | suspendExecution (delay : Option Nat) (events : List SensitivityEdge)
  | disableBlock (target : String)
  | error (message : String)

/-- A step of the executor. -/
abbrev Run (γ ω : Type) := Exec Exit (ExecState γ ω)

/-- What `StatementExecutor` is built on: its limit, the context's accessors, the evaluator, the writing
of targets, system tasks and user tasks. -/
structure StatementExecutor (γ ω : Type) where
  loopLimit : Nat
  /-- `ctx._signals.get(name)`. -/
  signal? : γ → String → Option Value
  /-- `name in ctx._memory_names`. -/
  isMemory : γ → String → Bool
  readSignal : γ → String → Value
  writeSignal : String → Value → γ → γ
  /-- `_expr_self_width`. -/
  exprSelfWidth : γ → Expr → Nat
  /-- `_expr_signed`. -/
  exprSigned : γ → Expr → Bool
  /-- `evaluator.eval(expr, ctx, width)`. -/
  eval : Expr → Nat → Run γ ω Value
  lhsWidth : Expr → Run γ ω Nat
  /-- `_copy_whole_memory(lhs, rhs, ctx, immediate)`. -/
  copyWholeMemory : Expr → Expr → Bool → Run γ ω Bool
  /-- `_assign_pattern_to_memory(lhs, rhs, ctx, immediate)`. -/
  assignPatternToMemory : Expr → Expr → Bool → Run γ ω Bool
  /-- `_write_target(lhs, value, ctx, immediate)`. -/
  writeTarget : Expr → Value → Bool → Run γ ω Unit
  execSystemTask : String → List Expr → Run γ ω Unit
  execTaskEnable : String → List Expr → Run γ ω Unit

/-- `_case_match`. -/
def caseMatch (caseType : CaseType) (sel item : Value) : Bool :=
  match caseType with
  | .case => if sel.mask ≠ 0 ∨ item.mask ≠ 0 then false else sel.val == item.val
  | .casex | .casez =>
      let w := max sel.width item.width
      let dc := sel.mask ||| item.mask
      (sel.val &&& lnot w dc) == (item.val &&& lnot w dc)

/-- The name of a loop variable whose sign is tested. -/
def signedVarName (signedVar : Bool) (init : Assignment) : Option String :=
  if signedVar then
    match init.lhs with
    | .ident _ name => some name
    | _ => none
  else none

/-- `except DisableBlock`: leaving the block of that name. -/
def catchDisable {γ ω : Type} (name : Option String) (x : Run γ ω Unit) : Run γ ω Unit := fun s =>
  match x s with
  | (.error (.disableBlock target), t) =>
      if name = some target then (.ok (), t) else (.error (.disableBlock target), t)
  | r => r

namespace StatementExecutor

variable {γ ω : Type} (X : StatementExecutor γ ω)

/-- The width of the signal that a plain identifier names. -/
def plainWidth (ctx : γ) : Expr → Option Nat
  | .ident [] name => if X.isMemory ctx name then none else (X.signal? ctx name).map Value.width
  | _ => none

/-- The right-hand side at the width of the target, written. -/
def assignAt (a : Assignment) (immediate : Bool) (lhsW : Nat) : Run γ ω Unit := do
  let v ← X.eval a.rhs lhsW
  if v.width < lhsW && (← read fun s => X.exprSigned s.ctx a.rhs) then
    match v.signExtend lhsW with
    | some w => X.writeTarget a.lhs w immediate
    | none => raise (.error "negative shift count")
  else X.writeTarget a.lhs v immediate

/-- A blocking (`immediate`) or non-blocking assignment. -/
def assign (a : Assignment) (immediate : Bool) : Run γ ω Unit := do
  match ← read fun s => X.plainWidth s.ctx a.lhs with
  | some w => X.assignAt a immediate w
  | none =>
      if ← X.copyWholeMemory a.lhs a.rhs immediate then pure ()
      else if ← X.assignPatternToMemory a.lhs a.rhs immediate then pure ()
      else X.assignAt a immediate (← X.lhsWidth a.lhs)

/-- A condition: true when some bit is known to be 1. -/
def test (condition : Expr) : Run γ ω Bool := do
  let v ← X.eval condition (← read fun s => X.exprSelfWidth s.ctx condition)
  return v.reduceOr.isDefined && v.reduceOr.val ≠ 0

/-- The loop variable is known and its most significant bit is set. -/
def isNegative (name : Option String) (s : ExecState γ ω) : Bool :=
  match name with
  | none => false
  | some n =>
      let v := X.readSignal s.ctx n
      v.isDefined && decide (1 < v.width) && (v.val >>> (v.width - 1)) &&& 1 ≠ 0

/-- Whether one of the values of a case item matches; the later ones are not evaluated. -/
def matchesAny (caseType : CaseType) (sel : Value) : List Expr → Run γ ω Bool
  | [] => pure false
  | e :: es => do
      let v ← X.eval e 0
      if caseMatch caseType sel v then pure true else matchesAny caseType sel es

mutual

/-- `execute`. -/
def execute : Stmt → Run γ ω Unit
  | .blockingAssign a => X.assign a true
  | .nonblockingAssign a => X.assign a false
  | .seqBlock name statements => catchDisable name (executeAll statements)
  | .parBlock name statements => catchDisable name (executeAll statements)
  | .ifStatement condition thenBody elseBody => do
      if ← X.test condition then executeBody thenBody else executeBody elseBody
  | .caseStatement caseType expression items => do
      let sel ← X.eval expression 0
      executeItems caseType sel items
  | .forLoop init condition update body signedVar => do
      X.assign init true
      loop (breakIf (X.isNegative (signedVarName signedVar init)) (X.test condition))
        (executeBody body >>= fun _ => X.assign update true)
        (.error s!"For loop exceeded {X.loopLimit} iterations") (X.loopLimit + 1)
  | .whileLoop condition body =>
      loop (X.test condition) (executeBody body)
        (.error s!"While loop exceeded {X.loopLimit} iterations") (X.loopLimit + 1)
  | .foreverLoop body =>
      loop (pure true) (executeBody body)
        (.error s!"Forever loop exceeded {X.loopLimit} iterations") (X.loopLimit + 1)
  | .repeatLoop count body => do
      let v ← X.eval count 0
      if v.isDefined then times (executeBody body) (min v.val X.loopLimit)
  | .delayControl delay _ => do
      let v ← X.eval delay 0
      raise (.suspendExecution (some (if v.isDefined then v.val else 0)) [])
  | .eventControl events _ => raise (.suspendExecution none events)
  | .waitStatement condition body => do
      if ← X.test condition then executeBody body else raise (.suspendExecution none [])
  | .disableStatement target => raise (.disableBlock target)
  | .eventTrigger event =>
      .update fun s =>
        let bit := if (X.readSignal s.ctx event).val ≠ 0 then 0 else 1
        { s with ctx := X.writeSignal event (ofInt bit 1) s.ctx }
  | .systemTaskCall taskName arguments => X.execSystemTask taskName arguments
  | .taskEnable taskName arguments => X.execTaskEnable taskName arguments

/-- A body, if there is one. -/
def executeBody : Option Stmt → Run γ ω Unit
  | none => pure ()
  | some body => execute body

/-- The statements of a block. -/
def executeAll : List Stmt → Run γ ω Unit
  | [] => pure ()
  | stmt :: statements => do
      execute stmt
      executeAll statements

/-- The body of a case item. -/
def executeItem : CaseItem → Run γ ω Unit
  | .mk _ _ body => executeBody body

/-- The first case item that matches or is the default, wherever it stands. -/
def executeItems (caseType : CaseType) (sel : Value) : List CaseItem → Run γ ω Unit
  | [] => pure ()
  | item :: items => do
      if item.isDefault then executeItem item
      else if ← X.matchesAny caseType sel item.values then executeItem item
      else executeItems caseType sel items

end

section

-- derived here once, not by every proof
attribute [local simp] execute executeBody executeAll executeItem executeItems

end

end StatementExecutor

end Veriforge

import Veriforge.Except
import Veriforge.Exec.Executor

/-! # For loops and while loops

A for loop tests the sign of a declared signed loop variable before its condition, and ends where the
variable is negative. Apart from that test it is its while loop: the init statement, then the condition
with the body followed by the update. -/

namespace Veriforge

open Value Exec

namespace StatementExecutor

variable {γ ω : Type} (X : StatementExecutor γ ω)

/-- A body followed by the update. -/
def withUpdate (body : Option Stmt) (update : Assignment) : Stmt :=
  .seqBlock none (body.toList ++ [.blockingAssign update])

/-- A for loop written with `while`: the init statement, then the loop. -/
def whileForm (init : Assignment) (condition : Expr) (update : Assignment) (body : Option Stmt) : Stmt :=
  .seqBlock none [.blockingAssign init, .whileLoop condition (some (withUpdate body update))]

/-- `u` is a state in which the while loop evaluates its condition, in a run from `s`. -/
def Evaluates (init : Assignment) (condition : Expr) (update : Assignment) (body : Option Stmt)
    (s u : ExecState γ ω) : Prop :=
  ∃ t, X.assign init true s = (.ok (), t) ∧
    Tests (X.test condition) (X.executeBody body >>= fun _ => X.assign update true) t u

theorem catchDisable_none (x : Run γ ω Unit) : catchDisable none x = x := by
  funext s
  rw [catchDisable]
  split
  · next h => rw [h, if_neg (by simp)]
  · rfl

theorem execute_seqBlock (statements : List Stmt) :
    X.execute (.seqBlock none statements) = X.executeAll statements := by
  rw [execute, catchDisable_none]

@[simp] theorem execute_blockingAssign (a : Assignment) : X.execute (.blockingAssign a) = X.assign a true := by
  rw [execute]

@[simp] theorem executeAll_nil : X.executeAll [] = pure () := by
  rw [executeAll]

@[simp] theorem executeAll_cons (stmt : Stmt) (statements : List Stmt) :
    X.executeAll (stmt :: statements) = X.execute stmt >>= fun _ => X.executeAll statements := by
  rw [executeAll]

/-- The body of the while loop is a round of the for loop. -/
theorem execute_withUpdate (body : Option Stmt) (update : Assignment) :
    X.execute (withUpdate body update) = X.executeBody body >>= fun _ => X.assign update true := by
  rw [withUpdate, execute_seqBlock]
  cases body with
  | none =>
    rw [executeBody, pure_then]
    simp
  | some stmt =>
    rw [executeBody]
    simp

theorem execute_whileForm (init : Assignment) (condition : Expr) (update : Assignment)
    (body : Option Stmt) :
    X.execute (whileForm init condition update body) = X.assign init true >>= fun _ =>
      loop (X.test condition) (X.executeBody body >>= fun _ => X.assign update true)
        (.error s!"While loop exceeded {X.loopLimit} iterations") (X.loopLimit + 1) := by
  rw [whileForm, execute_seqBlock, executeAll_cons, executeAll_cons, executeAll_nil,
    execute_blockingAssign, bind_unit, execute, executeBody, execute_withUpdate]

/-- **A for loop is its while loop but for the sign test.** Whenever the while loop ends, within its
limit, so does the for loop, in the same state or where the condition was to be evaluated with a negative loop
variable; in the same state when the loop variable is negative at no evaluation; and where evaluating the condition writes nothing and reads the store only, it ends with
the same store exactly when the loop variable is negative at no evaluation that finds the condition
true, the whole state being then the same. -/
theorem execute_forLoop_of_whileForm (init : Assignment) (condition : Expr) (update : Assignment)
    (body : Option Stmt) (signedVar : Bool) (s s' : ExecState γ ω)
    (hwhile : X.execute (whileForm init condition update body) s = (.ok (), s')) :
    ∃ t, X.execute (.forLoop init condition update body signedVar) s = (.ok (), t) ∧
      (t = s' ∨ X.Evaluates init condition update body s t ∧
        X.isNegative (signedVarName signedVar init) t = true) ∧
      ((∀ u, X.Evaluates init condition update body s u →
        X.isNegative (signedVarName signedVar init) u = false) → t = s') ∧
      (Pure (X.test condition) ExecState.ctx →
        (t.ctx = s'.ctx ↔ ∀ u, X.Evaluates init condition update body s u →
          (X.test condition u).1 = .ok true → X.isNegative (signedVarName signedVar init) u = false) ∧
        (t.ctx = s'.ctx → t = s')) := by
  rw [execute_whileForm] at hwhile
  obtain ⟨⟨⟩, s₀, hinit, hloop⟩ := parts_of_ok hwhile
  have hevaluates : ∀ {u}, X.Evaluates init condition update body s u ↔
      Tests (X.test condition) (X.executeBody body >>= fun _ => X.assign update true) s₀ u := by
    intro u
    constructor
    · rintro ⟨t, ht, hu⟩
      cases hinit.symm.trans ht
      exact hu
    · intro hu
      exact ⟨s₀, hinit, hu⟩
  have hfor : X.execute (.forLoop init condition update body signedVar) s
      = loop (breakIf (X.isNegative (signedVarName signedVar init)) (X.test condition))
        (X.executeBody body >>= fun _ => X.assign update true)
        (.error s!"For loop exceeded {X.loopLimit} iterations") (X.loopLimit + 1) s₀ := by
    rw [execute, bind_of_ok hinit]
  obtain ⟨t, ht, hcase⟩ := loop_breakIf hloop
  refine ⟨t, hfor.trans ht, ?_, fun hpass => ?_, fun hpure => ?_⟩
  · obtain ⟨rfl, -⟩ | ⟨htests, hstop⟩ := hcase
    · exact .inl rfl
    · exact .inr ⟨hevaluates.mpr htests.of_breakIf, hstop⟩
  · obtain ⟨rfl, -⟩ | ⟨htests, hstop⟩ := hcase
    · rfl
    · rw [hpass t (hevaluates.mpr htests.of_breakIf)] at hstop
      cases hstop
  · obtain ⟨hiff, hsame⟩ := loop_breakIf_iff hpure hloop ht
    have hgo : (t.ctx = s'.ctx ↔ ∀ u, X.Evaluates init condition update body s u →
        (X.test condition u).1 = .ok true →
        X.isNegative (signedVarName signedVar init) u = false) := by
      simp only [hevaluates]
      exact hiff
    exact ⟨hgo, fun hctx => hsame (hiff.mp hctx)⟩

end StatementExecutor

/-! ## Over a signal table -/

section Table

variable (T : SignalTable)

/-- The executor over a store, the evaluator being `eval`: its targets are declared vectors by name. -/
def tableExecutor (loopLimit : Nat) : StatementExecutor (Store T) Unit where
  loopLimit := loopLimit
  signal? st name := st.signal? name
  isMemory _ name := T.isMemory name
  readSignal st name := (st.signal? name).getD (x 1)
  writeSignal name v st := st.setSignal name v
  exprSelfWidth _ e := selfWidth T e
  exprSigned _ e := exprSigned T e
  eval e width := fun s =>
    match eval s.ctx e width none with
    | some v => (.ok v, s)
    | none => (.error (.error "evaluation"), s)
  lhsWidth
    | .ident h n => read fun s => ((s.ctx.signal? (identifierName h n)).getD (x 1)).width
    | _ => raise (.error "target")
  copyWholeMemory _ _ _ := pure false
  assignPatternToMemory _ _ _ := pure false
  writeTarget lhs v immediate :=
    match lhs with
    | .ident h n =>
        let name := identifierName h n
        .update fun s =>
          if immediate then { s with ctx := s.ctx.setSignal name v }
          else { s with nbaQueue := s.nbaQueue ++ [.signal name (v.resize ((T.width name).getD 0))] }
    | _ => raise (.error "target")
  execSystemTask _ _ := raise (.error "task")
  execTaskEnable _ _ := raise (.error "task")

/-- Evaluating a condition writes nothing and reads the store only. -/
theorem tableExecutor_test (loopLimit : Nat) (condition : Expr) (s : ExecState (Store T) Unit) :
    (tableExecutor T loopLimit).test condition s = (match eval s.ctx condition (selfWidth T condition) none with
        | some v => .ok (v.reduceOr.isDefined && v.reduceOr.val ≠ 0)
        | none => .error (.error "evaluation"), s) := by
  show (_ >>= _ : Run (Store T) Unit Bool) s = _
  rw [bind_of_ok (read_apply _ s)]
  cases hv : eval s.ctx condition (selfWidth T condition) none with
  | none =>
    have h : (tableExecutor T loopLimit).eval condition (selfWidth T condition) s
        = (.error (.error "evaluation"), s) := by
      simp only [tableExecutor, hv]
    exact bind_of_error h _
  | some v =>
    have h : (tableExecutor T loopLimit).eval condition (selfWidth T condition) s = (.ok v, s) := by
      simp only [tableExecutor, hv]
    exact bind_of_ok h _

end Table

/-! ## A loop over negative values -/

/-- `int i` and a 32-bit `n`. -/
def countTable : SignalTable := .vectors [("i", 32, true), ("n", 32, true)]

/-- `i = first` -/
def countInit (first : Expr) : Assignment := ⟨.ident [] "i", first⟩

/-- `i < last` -/
def countCondition (last : Expr) : Expr := .binary .lt (.ident [] "i") last

/-- `i = i + 1` -/
def countUpdate : Assignment := ⟨.ident [] "i", .binary .add (.ident [] "i") (.literal (.decimal 1))⟩

/-- `n = n + 1` -/
def countBody : Option Stmt :=
  some (.blockingAssign ⟨.ident [] "n", .binary .add (.ident [] "n") (.literal (.decimal 1))⟩)

/-- Every signal 0. -/
def countStart : ExecState (Store countTable) Unit := ⟨.ofBits _ (fun _ => 0) fun _ => 0, [], ()⟩

/-- `for (int i = 0; i < 3; i = i + 1) n = n + 1` never tests a negative `i`. -/
theorem execute_forLoop_upward :
    let X := tableExecutor countTable 100000
    let init := countInit (.literal (.decimal 0))
    let condition := countCondition (.literal (.decimal 3))
    let s' := (X.execute (StatementExecutor.whileForm init condition countUpdate countBody) countStart).2
    ∃ t, X.execute (.forLoop init condition countUpdate countBody true) countStart = (.ok (), t) ∧
      (t = s' ∨ X.Evaluates init condition countUpdate countBody countStart t ∧
        X.isNegative (signedVarName true init) t = true) ∧
      ((∀ u, X.Evaluates init condition countUpdate countBody countStart u →
        X.isNegative (signedVarName true init) u = false) → t = s') ∧
      (Pure (X.test condition) ExecState.ctx →
        (t.ctx = s'.ctx ↔ ∀ u, X.Evaluates init condition countUpdate countBody countStart u →
          (X.test condition u).1 = .ok true → X.isNegative (signedVarName true init) u = false) ∧
        (t.ctx = s'.ctx → t = s')) :=
  StatementExecutor.execute_forLoop_of_whileForm _ _ _ _ _ _ _ _
    (Prod.ext (ok_of_toBool (rfl)) rfl)

/-- `for (int i = -3; i < 0; i = i + 1) n = n + 1`: the while loop counts 3, the for loop nothing. -/
theorem execute_forLoop_fromNegative :
    let X := tableExecutor countTable 100000
    let init := countInit (.unary .minus (.literal (.decimal 3)))
    let condition := countCondition (.literal (.decimal 0))
    let byWhile := X.execute (StatementExecutor.whileForm init condition countUpdate countBody) countStart
    let byFor := X.execute (.forLoop init condition countUpdate countBody true) countStart
    byWhile.1.toBool = true ∧ byFor.1.toBool = true ∧ (byWhile.2.ctx.signal "n").val = 3 ∧
      (byFor.2.ctx.signal "n").val = 0 ∧ byFor.2.ctx ≠ byWhile.2.ctx := by
  intro X init condition byWhile byFor
  have hwhile : (byWhile.2.ctx.signal "n").val = 3 := by decide
  have hfor : (byFor.2.ctx.signal "n").val = 0 := by decide
  refine ⟨rfl, by decide, hwhile, hfor, fun h => ?_⟩
  rw [h, hwhile] at hfor
  cases hfor

end Veriforge

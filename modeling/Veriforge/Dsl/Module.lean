import Veriforge.Dsl.Control
import Veriforge.Dsl.Unsigned
import Veriforge.Exec.Clocked

/-! # Modules of the DSL

What `Module` of `dsl/builder.py` collects for a library module: unsigned ports and registers, memories, `assign`, and
blocks on the clock's rising edge, whose bodies the builder makes of their `with` statements. The module is simulated
as a circuit. -/

namespace Veriforge.Dsl

open Value Exec

/-! ## Programs as lists -/

/-- Statements one after another. -/
def Block.ofList {Expr : Type} : List (Step Expr) → Block Expr
  | [] => .nil
  | step :: rest => .cons step (ofList rest)

/-- The items `with c.when(…)`, one after another. -/
def CaseBlock.ofList {Expr : Type} : List (List Expr × Block Expr) → CaseBlock Expr
  | [] => .nil
  | (values, body) :: rest => .when_ values body (ofList rest)

/-! ## Statements of the model -/

/-- The case types of `model/statements.py`. -/
def CaseType.toCaseType : CaseType → Veriforge.CaseType
  | .case => .case
  | .casex => .casex
  | .casez => .casez

mutual

/-- The statement that the simulator executes. -/
def Statement.toStmt : Statement Expr → Stmt
  | .blockingAssign lhs rhs => .blockingAssign ⟨lhs, rhs⟩
  | .nonblockingAssign lhs rhs => .nonblockingAssign ⟨lhs, rhs⟩
  | .seqBlock statements => .seqBlock none (toStmts statements)
  | .ifStatement condition thenBody elseBody => .ifStatement condition (some (toStmt thenBody)) (toElse elseBody)
  | .caseStatement caseType expression items => .caseStatement caseType.toCaseType expression (toItems items)

def Statement.toStmts : List (Statement Expr) → List Stmt
  | [] => []
  | stmt :: rest => toStmt stmt :: toStmts rest

def Statement.toElse : Option (Statement Expr) → Option Stmt
  | none => none
  | some stmt => some (toStmt stmt)

def Statement.toItem : CaseItem Expr → Veriforge.CaseItem
  | (values, body) => .mk values.isNone (values.getD []) (some (toStmt body))

def Statement.toItems : List (CaseItem Expr) → List Veriforge.CaseItem
  | [] => []
  | item :: rest => toItem item :: toItems rest

end

/-! ## Modules -/

/-- What has been collected when `build()` is called: the vectors with their widths, the memories with the widths of
their words and their depths, the assignments, and the bodies of the blocks `always(posedge(clk))`. -/
structure Module where
  vectors : List (String × Nat)
  memories : List (String × Nat × Nat)
  assigns : List Assignment
  processes : List Stmt

/-- The declarations. No range of them has a low bound other than 0. -/
def Module.table (m : Module) : SignalTable where
  width n := (m.vectors.lookup n).map (max 1)
  signed _ := false
  memory n := (m.memories.lookup n).map fun d => (max 1 d.1, d.2)
  signalBase _ := 0
  memoryBase _ := 0
  width_pos n w h := by
    obtain ⟨d, -, rfl⟩ := Option.map_eq_some_iff.mp h
    exact lt_of_lt_of_le Nat.one_pos (le_max_left _ _)
  memory_pos n ew d h := by
    obtain ⟨e, -, he⟩ := Option.map_eq_some_iff.mp h
    cases he
    exact lt_of_lt_of_le Nat.one_pos (le_max_left _ _)

/-- The module as it is simulated. -/
def Module.circuit (m : Module) : Circuit where
  table := m.table
  assigns := m.assigns
  processes := m.processes

/-- An identifier. -/
def sig (name : String) : Expr := .ident [] name

/-- An integer in an expression. -/
def int (v : Int) : Expr := .literal (toExprNode v)

/-! ## Assignments of unsigned expressions -/

section

variable {T : SignalTable} (limit : Nat) {st : Store T} {name : String} {w we : Nat} {rhs : Expr} {v : Nat → Value}

theorem Gives.eval_of_le (h : Gives st rhs we v) (hle : we ≤ w) : eval st rhs w none = some (v w) :=
  h.wide w none hle (by simp)

/-- A signal assigned an expression that is no wider. -/
theorem queues_of_gives (hw : T.width name = some w) (hm : T.memory name = none) (h : Gives st rhs we v)
    (hle : we ≤ w) :
    Queues st ((moduleExecutor T limit).execute (.nonblockingAssign ⟨sig name, rhs⟩)) [.signal name (v w)] := by
  have hq := queues_ident limit hw hm (h.eval_of_le hle) (h.width w hle).ge
  rwa [resize_of_width (h.width w hle)] at hq

/-- A signal assigned an integer. -/
theorem queues_int (hw : T.width name = some w) (hm : T.memory name = none) (z : Int) :
    Queues st ((moduleExecutor T limit).execute (.nonblockingAssign ⟨sig name, int z⟩)) [.signal name (ofInt z w)] := by
  have heval : eval st (int z) w none = some (ofInt z (max (nodeWidth z) w)) := by
    rw [int, eval_literal (holds_toExprNode z), if_neg (by simp)]
  have hq := queues_ident limit hw hm heval (le_max_right _ _)
  rwa [ofInt_resize _ (le_max_right _ _)] at hq

/-- A signal counted on, modulo the range of its width. -/
theorem queues_next (hw : T.width name = some w) (hm : T.memory name = none) (hs : T.signed name = false) {n : Int}
    (hn : st.signal name = ofInt n w) :
    Queues st ((moduleExecutor T limit).execute (.nonblockingAssign ⟨sig name, .binary .add (sig name) (int 1)⟩))
      [.signal name (ofInt (n + 1) w)] := by
  have hle : w ≤ max w (max w (nodeWidth 1)) := le_max_left _ _
  have heval := evalRequest_narrow_of_gives (gives_ident st hw hs) (gives_toExprNode st (z := 1) (by simp))
    (by rw [exprSigned, identifierName, hs]; rfl) .add rfl rfl
    (fun a b hab => by rw [add_width, hab, max_self]) (T.width_pos name w hw)
  have hfits : Fits false w (n % 2 ^ w) :=
    fits_false.mpr ⟨Int.emod_nonneg _ (by positivity), Int.emod_lt_of_pos _ (by positivity)⟩
  have hvalue : ((st.signal name).resize (max w (max w (nodeWidth 1))) |>.add
      (ofInt 1 (max w (max w (nodeWidth 1))))).resize w = ofInt (n + 1) w := by
    rw [hn, ofInt_congr (Int.emod_emod_of_dvd n (dvd_refl (2 ^ w))).symm, resize_ofInt hfits, add_ofInt,
      ofInt_resize _ hle]
    exact ofInt_congr (Int.emod_add_emod _ _ _)
  rw [hvalue] at heval
  have hq := queues_ident limit hw hm heval le_rfl
  rwa [ofInt_resize _ le_rfl] at hq

/-- A condition is tested at its own width. -/
theorem test_of_gives {condition : Expr} (h : Gives st condition w v) (queue : List NbaEntry) (output : Unit) :
    (moduleExecutor T limit).test condition ⟨st, queue, output⟩ =
      (.ok ((v w).reduceOr.isDefined && (v w).reduceOr.val ≠ 0), ⟨st, queue, output⟩) := by
  refine test_of_eval limit ?_ queue output
  rw [h.selfWidth]
  exact h.eval_of_le le_rfl

/-- A flag as a condition. -/
theorem test_of_bool {condition : Expr} {b : Bool} (h : Gives st condition 1 v) (hb : v 1 = ofBool b)
    (queue : List NbaEntry) (output : Unit) :
    (moduleExecutor T limit).test condition ⟨st, queue, output⟩ = (.ok b, ⟨st, queue, output⟩) := by
  rw [test_of_gives limit h, hb]
  cases b <;> rfl

/-- A case item matches where the selector is its number. -/
theorem matchesAny_int {n width : Nat} (hlt : n < 2 ^ width) (i : Nat) (queue : List NbaEntry) (output : Unit) :
    (moduleExecutor T limit).matchesAny .case (ofInt n width) [int i] ⟨st, queue, output⟩ =
      (.ok (decide (n = i)), ⟨st, queue, output⟩) := by
  have heval : eval st (int i) 0 none = some (ofInt i (nodeWidth i)) := (gives_toExprNode st (Int.natCast_nonneg i)).own
  have hfits := fits_true.mp (holds_toExprNode (i : Int)).fits
  have hval : (ofInt (i : Int) (nodeWidth i)).val = i := by
    have h : ((ofInt (i : Int) (nodeWidth i)).val : Int) = i :=
      ofInt_val_of_fits (fits_false.mpr ⟨Int.natCast_nonneg i, by omega⟩)
    exact_mod_cast h
  have hmatch : caseMatch .case (ofInt n width) (ofInt i (nodeWidth i)) = decide (n = i) := by
    rw [caseMatch]
    simp only [ofInt_mask, ne_eq, not_true_eq_false, or_self, if_false]
    rw [ofInt_natCast_val, Nat.mod_eq_of_lt hlt, hval]
    rfl
  rw [StatementExecutor.matchesAny, bind_of_ok (eval_of_some limit heval queue output), hmatch]
  cases decide (n = i) <;> rfl

theorem test_sig {b : Bool} (hw : T.width name = some 1) (hs : T.signed name = false) (hb : st.signal name = ofBool b)
    (queue : List NbaEntry) (output : Unit) :
    (moduleExecutor T limit).test (sig name) ⟨st, queue, output⟩ = (.ok b, ⟨st, queue, output⟩) := by
  refine test_of_bool limit (gives_ident st hw hs) ?_ queue output
  rw [hb]
  exact resize_of_width rfl

end

end Veriforge.Dsl

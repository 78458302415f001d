import Veriforge.Exec.ForLoop
import Veriforge.Runs

/-! # Clock cycles of a module

A module of continuous assignments and of `always @(posedge clk)` blocks that only queue updates. In a cycle the
inputs are driven and the assignments settled, every block runs on what the signals then are, the queue is applied
(`apply_nba`) and the assignments settle again. The executor is the one over a signal table with the words of memories
and the bits of vectors as targets too. -/

namespace Veriforge

open Value Exec

variable {T : SignalTable}

theorem Store.word_width_replaced (st : Store T) (name : String) (i : Nat) (v : Value) (n : String) (ew d j : Nat)
    (h : T.memory n = some (ew, d)) :
    (if n = name ∧ j = i then v.resize ((T.memory name).elim 0 Prod.fst) else st.word n j).width = ew := by
  by_cases hn : n = name ∧ j = i
  · rw [if_pos hn, resize_width, ← hn.1, h]
    rfl
  · rw [if_neg hn]
    exact st.word_width n ew d j h

/-- `mem_data[i] = v`. -/
def Store.setWord (st : Store T) (name : String) (i : Nat) (v : Value) : Store T where
  signal := st.signal
  word n j := if n = name ∧ j = i then v.resize ((T.memory name).elim 0 Prod.fst) else st.word n j
  signal_width := st.signal_width
  word_width n ew d j h := st.word_width_replaced name i v n ew d j h

namespace Store

variable (st : Store T) (name : String) (v : Value)

@[simp] theorem setSignal_signal_self : (st.setSignal name v).signal name = v.resize ((T.width name).getD 0) :=
  if_pos rfl

theorem setSignal_signal_of_ne {n : String} (h : n ≠ name) : (st.setSignal name v).signal n = st.signal n := if_neg h

@[simp] theorem setSignal_word (n : String) (i : Nat) : (st.setSignal name v).word n i = st.word n i := rfl

@[simp] theorem setWord_signal (i : Nat) (n : String) : (st.setWord name i v).signal n = st.signal n := rfl

/-- The words of the memory that is written. -/
theorem setWord_word {ew depth : Nat} (hm : T.memory name = some (ew, depth)) (i : Nat) :
    (st.setWord name i v).word name = Function.update (st.word name) i (v.resize ew) := by
  funext j
  show (if name = name ∧ j = i then v.resize ((T.memory name).elim 0 Prod.fst) else st.word name j) = _
  rw [hm, Function.update_apply]
  simp only [true_and, Option.elim_some]

/-- Writing what is there already. -/
theorem setSignal_eq_self (h : v.resize ((T.width name).getD 0) = st.signal name) : st.setSignal name v = st := by
  refine Store.ext (funext fun n => ?_) rfl
  by_cases hn : n = name
  · rw [hn, setSignal_signal_self, h]
  · exact setSignal_signal_of_ne st name v hn

/-- Several signals written, one after another. -/
def setSignals (writes : List (String × Value)) : Store T :=
  writes.foldl (fun st write => st.setSignal write.1 write.2) st

@[simp] theorem setSignals_nil : st.setSignals [] = st := rfl

@[simp] theorem setSignals_cons (write : String × Value) (writes : List (String × Value)) :
    st.setSignals (write :: writes) = (st.setSignal write.1 write.2).setSignals writes := rfl

theorem setSignals_signal_of_notMem {writes : List (String × Value)} {n : String} (h : n ∉ writes.map Prod.fst) :
    (st.setSignals writes).signal n = st.signal n := by
  induction writes generalizing st with
  | nil => rfl
  | cons write rest ih =>
    rw [List.map_cons, List.mem_cons, not_or] at h
    rw [setSignals_cons, ih _ h.2, setSignal_signal_of_ne _ _ _ h.1]

theorem setSignals_signal_of_mem {writes : List (String × Value)} {n : String} {u : Value}
    (hnodup : (writes.map Prod.fst).Nodup) (h : (n, u) ∈ writes) :
    (st.setSignals writes).signal n = u.resize ((T.width n).getD 0) := by
  induction writes generalizing st with
  | nil => simp at h
  | cons write rest ih =>
    rw [List.map_cons, List.nodup_cons] at hnodup
    rw [setSignals_cons]
    rcases List.mem_cons.mp h with rfl | hrest
    · rw [setSignals_signal_of_notMem _ hnodup.1, setSignal_signal_self]
    · exact ih _ hnodup.2 hrest

theorem setSignals_word (writes : List (String × Value)) : (st.setSignals writes).word = st.word := by
  induction writes generalizing st with
  | nil => rfl
  | cons write rest ih => rw [setSignals_cons, ih]; rfl

/-- Writing what is there already. -/
theorem setSignals_eq_self {writes : List (String × Value)}
    (h : ∀ write ∈ writes, write.2.resize ((T.width write.1).getD 0) = st.signal write.1) :
    st.setSignals writes = st := by
  induction writes with
  | nil => rfl
  | cons write rest ih =>
    rw [setSignals_cons, setSignal_eq_self _ _ _ (h write List.mem_cons_self)]
    exact ih fun w hw => h w (List.mem_cons_of_mem _ hw)

end Store

/-! ## Updates -/

/-- An entry of the queue in `apply_nba`. -/
def NbaEntry.apply (st : Store T) : NbaEntry → Store T
  | .signal name value => st.setSignal name value
  | .mem name index value =>
      match T.memory name with
      | some (_, depth) => if 0 ≤ index ∧ index < depth then st.setWord name index.toNat value else st
      | none => st
  | .memRange name index msb lsb value =>
      match T.memory name with
      | some (_, depth) =>
          if 0 ≤ index ∧ index < depth then
            st.setWord name index.toNat ((st.word name index.toNat).setRange msb lsb value)
          else st
      | none => st
  | .structField name msb lsb value =>
      match st.signal? name with
      | some base => st.setSignal name (base.setRange msb lsb value)
      | none => st

/-- `apply_nba`. -/
def applyNba (queue : List NbaEntry) (st : Store T) : Store T := queue.foldl NbaEntry.apply st

@[simp] theorem applyNba_nil (st : Store T) : applyNba [] st = st := rfl

@[simp] theorem applyNba_cons (entry : NbaEntry) (queue : List NbaEntry) (st : Store T) :
    applyNba (entry :: queue) st = applyNba queue (entry.apply st) := rfl

/-- Updates of whole signals. -/
theorem applyNba_signals (writes : List (String × Value)) (st : Store T) :
    applyNba (writes.map fun write => .signal write.1 write.2) st = st.setSignals writes := List.foldl_map

theorem applyNba_append (queue queue' : List NbaEntry) (st : Store T) :
    applyNba (queue ++ queue') st = applyNba queue' (applyNba queue st) := List.foldl_append

/-! ## The executor -/

section

variable (T)

/-- `name in ctx._memory_names`, of an identifier. -/
def namesMemory : Expr → Bool
  | .ident h n => T.isMemory (identifierName h n)
  | _ => false

/-- `_write_target` of a selected word or bit. -/
def writeSelect (name : String) (index value : Value) (immediate : Bool) (s : ExecState (Store T) Unit) :
    ExecState (Store T) Unit :=
  let write (entry : NbaEntry) : ExecState (Store T) Unit :=
    if immediate then { s with ctx := entry.apply s.ctx } else { s with nbaQueue := s.nbaQueue ++ [entry] }
  if index.isDefined then
    match T.memory name with
    | some (ew, depth) => if index.val < depth then write (.mem name index.val (value.resize ew)) else s
    | none =>
        let k := (index.val : Int) - T.signalBase name
        if k < 0 ∨ k ≥ ((s.ctx.signal? name).getD (x 1)).width then s
        else write (.structField name k k (init (value.val &&& 1 : Nat) 1 (value.mask &&& 1)))
  else s

/-- The executor of a module: its targets are declared vectors by name, words and bits. Copies of whole memories are
left out. -/
def moduleExecutor (loopLimit : Nat) : StatementExecutor (Store T) Unit :=
  { tableExecutor T loopLimit with
    lhsWidth := fun
      | .bitSelect (.ident h n) _ => pure ((T.memory (identifierName h n)).elim 1 Prod.fst)
      | lhs => (tableExecutor T loopLimit).lhsWidth lhs
    copyWholeMemory := fun lhs rhs _ =>
      if namesMemory T lhs && namesMemory T rhs then raise (.error "whole memory") else pure false
    writeTarget := fun
      | .bitSelect (.ident h n) i, v, immediate => do
          let index ← (tableExecutor T loopLimit).eval i 0
          .update (writeSelect T (identifierName h n) index v immediate)
      | lhs, v, immediate => (tableExecutor T loopLimit).writeTarget lhs v immediate }

end

/-! ## Assignments that settle -/

namespace StatementExecutor

variable {γ ω : Type} (X : StatementExecutor γ ω)

/-- One of the assignments of `_run_continuous_assigns`. -/
def continuousAssign (a : Assignment) : Run γ ω Unit := do
  if ← X.copyWholeMemory a.lhs a.rhs true then pure ()
  else if ← X.assignPatternToMemory a.lhs a.rhs true then pure ()
  else X.assignAt a true (← X.lhsWidth a.lhs)

/-- `_read_lhs` of an identifier. -/
def readLhs (lhs : Expr) (s : ExecState γ ω) : Option Value :=
  match lhs with
  | .ident h n => X.signal? s.ctx (identifierName h n)
  | _ => none

/-- `_run_continuous_assigns`: whether one of them changed its target. -/
def runContinuousAssigns : List Assignment → Run γ ω Bool
  | [] => pure false
  | a :: rest => do
      let old ← read (X.readLhs a.lhs)
      X.continuousAssign a
      let new ← read (X.readLhs a.lhs)
      let changed ← runContinuousAssigns rest
      return (old != new || changed)

/-- Passes until nothing changes, at most so many. -/
def settle (assigns : List Assignment) : Nat → Run γ ω Unit
  | 0 => pure ()
  | limit + 1 => do
      if ← X.runContinuousAssigns assigns then settle assigns limit else pure ()

/-- A pass whose result a second one leaves alone is all there is to it. -/
theorem settle_of_stable {assigns : List Assignment} {s t : ExecState γ ω} {changed : Bool}
    (h : X.runContinuousAssigns assigns s = (.ok changed, t))
    (hstable : X.runContinuousAssigns assigns t = (.ok false, t)) (limit : Nat) :
    X.settle assigns (limit + 2) s = (.ok (), t) := by
  rw [settle, bind_of_ok h]
  cases changed with
  | false => rfl
  | true =>
    show X.settle assigns (limit + 1) t = (.ok (), t)
    rw [settle, bind_of_ok hstable]
    rfl

end StatementExecutor

/-! ## Statements that queue updates -/

/-- From this store, the computation does nothing but queue the entries. -/
def Queues {γ ω : Type} (c : γ) (x : Run γ ω Unit) (entries : List NbaEntry) : Prop :=
  ∀ queue output, x ⟨c, queue, output⟩ = (.ok (), ⟨c, queue ++ entries, output⟩)

namespace Queues

variable {γ ω : Type} {X : StatementExecutor γ ω} {c : γ}

theorem nil : Queues c (pure () : Run γ ω Unit) [] := fun queue output => by
  rw [List.append_nil]
  rfl

theorem bind {x y : Run γ ω Unit} {entries entries' : List NbaEntry} (hx : Queues c x entries)
    (hy : Queues c y entries') : Queues c (x >>= fun _ => y) (entries ++ entries') := fun queue output => by
  rw [bind_of_ok (hx queue output), hy, List.append_assoc]

theorem executeAll_nil : Queues c (X.executeAll []) [] := by
  rw [StatementExecutor.executeAll_nil]
  exact nil

theorem executeAll_cons {stmt : Stmt} {rest : List Stmt} {entries entries' : List NbaEntry}
    (h : Queues c (X.execute stmt) entries) (hrest : Queues c (X.executeAll rest) entries') :
    Queues c (X.executeAll (stmt :: rest)) (entries ++ entries') := by
  rw [StatementExecutor.executeAll_cons]
  exact h.bind hrest

theorem seqBlock {statements : List Stmt} {entries : List NbaEntry}
    (h : Queues c (X.executeAll statements) entries) : Queues c (X.execute (.seqBlock none statements)) entries := by
  rw [StatementExecutor.execute_seqBlock]
  exact h

/-- Statements one after another. -/
theorem executeAll {statements : List Stmt} {entries : Stmt → List NbaEntry}
    (h : ∀ stmt ∈ statements, Queues c (X.execute stmt) (entries stmt)) :
    Queues c (X.executeAll statements) (statements.flatMap entries) := by
  induction statements with
  | nil => exact executeAll_nil
  | cons stmt rest ih =>
    rw [List.flatMap_cons]
    exact executeAll_cons (h stmt List.mem_cons_self) (ih fun s hs => h s (List.mem_cons_of_mem _ hs))

theorem body {stmt : Stmt} {entries : List NbaEntry} (h : Queues c (X.execute stmt) entries) :
    Queues c (X.executeBody (some stmt)) entries := by
  rw [StatementExecutor.executeBody]
  exact h

theorem noBody : Queues c (X.executeBody none) [] := by
  rw [StatementExecutor.executeBody]
  exact nil

/-- The one body or the other, and what it queues. -/
theorem ite {b : Bool} {thenBody elseBody : Option Stmt} {entries entries' : List NbaEntry}
    (h : Queues c (X.executeBody thenBody) entries) (h' : Queues c (X.executeBody elseBody) entries') :
    Queues c (X.executeBody (if b then thenBody else elseBody)) (if b then entries else entries') := by
  cases b with
  | false => exact h'
  | true => exact h

/-- A condition that is known to hold or not. -/
theorem ifStatement {condition : Expr} {thenBody elseBody : Option Stmt} {b : Bool} {entries : List NbaEntry}
    (htest : ∀ queue output, X.test condition ⟨c, queue, output⟩ = (.ok b, ⟨c, queue, output⟩))
    (h : Queues c (X.executeBody (if b then thenBody else elseBody)) entries) :
    Queues c (X.execute (.ifStatement condition thenBody elseBody)) entries := fun queue output => by
  rw [StatementExecutor.execute, bind_of_ok (htest queue output)]
  cases b with
  | false => exact h queue output
  | true => exact h queue output

/-- A case item that is not the default, known to match or not. -/
theorem executeItems_cons {caseType : CaseType} {sel : Value} {values : List Expr} {body : Option Stmt}
    {items : List CaseItem} {b : Bool} {entries : List NbaEntry}
    (hmatch : ∀ queue output, X.matchesAny caseType sel values ⟨c, queue, output⟩ = (.ok b, ⟨c, queue, output⟩))
    (h : Queues c (if b then X.executeBody body else X.executeItems caseType sel items) entries) :
    Queues c (X.executeItems caseType sel (.mk false values body :: items)) entries := fun queue output => by
  rw [StatementExecutor.executeItems, if_neg (by simp [CaseItem.isDefault])]
  refine (bind_of_ok (hmatch queue output) _).trans ?_
  cases b with
  | false => exact h queue output
  | true =>
    rw [if_pos rfl, StatementExecutor.executeItem]
    exact h queue output

/-- The items of a case statement, on the selector's value. -/
theorem caseStatement {caseType : CaseType} {expression : Expr} {items : List CaseItem} {sel : Value}
    {entries : List NbaEntry}
    (heval : ∀ queue output, X.eval expression 0 ⟨c, queue, output⟩ = (.ok sel, ⟨c, queue, output⟩))
    (h : Queues c (X.executeItems caseType sel items) entries) :
    Queues c (X.execute (.caseStatement caseType expression items)) entries := fun queue output => by
  rw [StatementExecutor.execute, bind_of_ok (heval queue output)]
  exact h queue output

/-- Assignments of whole signals, one after another. -/
theorem assignments {assigns : List Assignment} {writes : List (String × Value)}
    (h : List.Forall₂ (fun a write => Queues c (X.execute (.nonblockingAssign a)) [.signal write.1 write.2]) assigns
      writes) :
    Queues c (X.executeAll (assigns.map .nonblockingAssign)) (writes.map fun write => .signal write.1 write.2) := by
  induction h with
  | nil => exact executeAll_nil
  | cons hassign _ ih => exact executeAll_cons hassign ih

end Queues

/-! ## Assignments over a signal table -/

section

variable (limit : Nat) {st : Store T} {name : String} {w : Nat} {rhs : Expr} {v : Value}

theorem eval_of_some {e : Expr} (h : eval st e w none = some v) (queue : List NbaEntry) (output : Unit) :
    (moduleExecutor T limit).eval e w ⟨st, queue, output⟩ = (.ok v, ⟨st, queue, output⟩) := by
  show (match eval st e w none with | some v => _ | none => _) = _
  rw [h]

/-- A condition is tested at its own width. -/
theorem test_of_eval {condition : Expr} (h : eval st condition (selfWidth T condition) none = some v)
    (queue : List NbaEntry) (output : Unit) :
    (moduleExecutor T limit).test condition ⟨st, queue, output⟩ =
      (.ok (v.reduceOr.isDefined && v.reduceOr.val ≠ 0), ⟨st, queue, output⟩) := by
  have htest := tableExecutor_test T limit condition ⟨st, queue, output⟩
  rwa [h] at htest

/-- A value as wide as the target is written. -/
theorem assignAt_of_le {lhs : Expr} (h : eval st rhs w none = some v) (hv : w ≤ v.width) (immediate : Bool)
    (queue : List NbaEntry) (output : Unit) :
    (moduleExecutor T limit).assignAt ⟨lhs, rhs⟩ immediate w ⟨st, queue, output⟩ =
      (moduleExecutor T limit).writeTarget lhs v immediate ⟨st, queue, output⟩ := by
  rw [StatementExecutor.assignAt, bind_of_ok (eval_of_some limit h queue output), bind_of_ok (read_apply _ _)]
  simp only [decide_eq_false hv.not_gt, Bool.false_and, Bool.false_eq_true, if_false]

/-- A signal assigned a value as wide as it is. -/
theorem queues_ident (hw : T.width name = some w) (hm : T.memory name = none) (h : eval st rhs w none = some v)
    (hv : w ≤ v.width) :
    Queues st ((moduleExecutor T limit).execute (.nonblockingAssign ⟨.ident [] name, rhs⟩))
      [.signal name (v.resize w)] := by
  intro queue output
  have hplain : (moduleExecutor T limit).plainWidth st (.ident [] name) = some w := by
    show (if T.isMemory name then none else (st.signal? name).map Value.width) = some w
    rw [SignalTable.isMemory, hm, Store.signal?_eq_some hw, Option.map_some, st.signal_width name w hw]
    rfl
  rw [StatementExecutor.execute, StatementExecutor.assign, bind_of_ok (read_apply _ _), hplain]
  refine (assignAt_of_le limit h hv false queue output).trans ?_
  have hvw : v.resize w = v.resize ((T.width name).getD 0) := by rw [hw, Option.getD_some]
  rw [hvw]
  rfl

/-- A word of a memory assigned a value as wide as it is. -/
theorem queues_word {ew depth : Nat} {i : Expr} {index : Value} (hm : T.memory name = some (ew, depth))
    (hi : eval st i 0 none = some index) (hdefined : index.isDefined = true) (hlt : index.val < depth)
    (h : eval st rhs ew none = some v) (hv : ew ≤ v.width) :
    Queues st ((moduleExecutor T limit).execute (.nonblockingAssign ⟨.bitSelect (.ident [] name) i, rhs⟩))
      [.mem name index.val (v.resize ew)] := by
  intro queue output
  have hwidth : (moduleExecutor T limit).lhsWidth (.bitSelect (.ident [] name) i) = pure ew := by
    show pure ((T.memory name).elim 1 Prod.fst) = _
    rw [hm]
    rfl
  rw [StatementExecutor.execute, StatementExecutor.assign, bind_of_ok (read_apply _ _)]
  show ((moduleExecutor T limit).lhsWidth (.bitSelect (.ident [] name) i) >>= fun lhsW =>
    (moduleExecutor T limit).assignAt ⟨.bitSelect (.ident [] name) i, rhs⟩ false lhsW) ⟨st, queue, output⟩ = _
  rw [hwidth, pure_then, assignAt_of_le limit h hv]
  show ((moduleExecutor T limit).eval i 0 >>= fun index => .update (writeSelect T name index v false))
    ⟨st, queue, output⟩ = _
  rw [bind_of_ok (eval_of_some limit hi queue output), update_apply, writeSelect, if_pos hdefined, hm]
  simp only [if_pos hlt]
  rfl

/-- A signal driven by an assignment. -/
theorem continuousAssign_ident (hw : T.width name = some w) (hm : T.memory name = none)
    (h : eval st rhs w none = some v) (hv : w ≤ v.width) (queue : List NbaEntry) (output : Unit) :
    (moduleExecutor T limit).continuousAssign ⟨.ident [] name, rhs⟩ ⟨st, queue, output⟩ =
      (.ok (), ⟨st.setSignal name v, queue, output⟩) := by
  have hcopy : (moduleExecutor T limit).copyWholeMemory (.ident [] name) rhs true = pure false := by
    show (if namesMemory T (.ident [] name) && namesMemory T rhs then _ else pure false) = _
    rw [namesMemory, identifierName, SignalTable.isMemory, hm]
    rfl
  have hwidth : (moduleExecutor T limit).lhsWidth (.ident [] name) ⟨st, queue, output⟩ =
      (.ok w, ⟨st, queue, output⟩) := by
    have hread : ((st.signal? name).getD (x 1)).width = w := by
      rw [Store.signal?_eq_some hw, Option.getD_some, st.signal_width name w hw]
    rw [← hread]
    rfl
  have hpattern : (moduleExecutor T limit).assignPatternToMemory (.ident [] name) rhs true = pure false := rfl
  rw [StatementExecutor.continuousAssign, hcopy, pure_then, if_neg Bool.false_ne_true, hpattern, pure_then,
    if_neg Bool.false_ne_true, bind_of_ok hwidth]
  exact assignAt_of_le limit h hv true queue output

end

/-! ## Settling -/

/-- The assignment drives the signal with the value, whatever the targets are at the moment. -/
structure Drives (st : Store T) (targets : List String) (a : Assignment) (write : String × Value) : Prop where
  lhs : a.lhs = .ident [] write.1
  width : T.width write.1 = some write.2.width
  memory : T.memory write.1 = none
  eval : ∀ st' : Store T, (∀ n, n ∉ targets → st'.signal n = st.signal n) → st'.word = st.word →
    eval st' a.rhs write.2.width none = some write.2

section

variable (limit : Nat) {st : Store T} {targets : List String} {assigns : List Assignment}
  {writes : List (String × Value)}

/-- A pass writes every target, and finds no change where all of them are written. -/
theorem runContinuousAssigns_of_drives (h : List.Forall₂ (Drives st targets) assigns writes)
    (hsub : ∀ write ∈ writes, write.1 ∈ targets) {st' : Store T} (hst : ∀ n, n ∉ targets → st'.signal n = st.signal n)
    (hword : st'.word = st.word) (queue : List NbaEntry) (output : Unit) :
    ∃ changed, (moduleExecutor T limit).runContinuousAssigns assigns ⟨st', queue, output⟩ =
        (.ok changed, ⟨st'.setSignals writes, queue, output⟩) ∧
      ((∀ write ∈ writes, st'.signal write.1 = write.2) → changed = false) := by
  induction h generalizing st' with
  | nil => exact ⟨false, rfl, fun _ => rfl⟩
  | @cons a write assigns' writes' hdrives hrest ih =>
    obtain ⟨lhs, rhs⟩ := a
    obtain ⟨name, v⟩ := write
    obtain rfl : lhs = .ident [] name := hdrives.lhs
    have hapart : ∀ n, n ∉ targets → (st'.setSignal name v).signal n = st.signal n := fun n hn => by
      rw [Store.setSignal_signal_of_ne]
      · exact hst n hn
      · rintro rfl
        exact hn (hsub _ List.mem_cons_self)
    obtain ⟨changed, hpass, hfalse⟩ := ih (fun w hw => hsub w (List.mem_cons_of_mem _ hw)) hapart hword
    have hassign := continuousAssign_ident limit hdrives.width hdrives.memory
      (hdrives.eval st' hst hword) le_rfl queue output
    have hwritten : (st'.setSignal name v).signal name = v := by
      rw [Store.setSignal_signal_self, show T.width name = some v.width from hdrives.width, Option.getD_some,
        resize_self]
    refine ⟨(moduleExecutor T limit).readLhs (.ident [] name) ⟨st', queue, output⟩ !=
      (moduleExecutor T limit).readLhs (.ident [] name) ⟨st'.setSignal name v, queue, output⟩ || changed, ?_, ?_⟩
    · rw [StatementExecutor.runContinuousAssigns, bind_of_ok (read_apply _ _), bind_of_ok hassign,
        bind_of_ok (read_apply _ _), bind_of_ok hpass]
      rfl
    · intro hall
      have hself : st'.setSignal name v = st' := Store.setSignal_eq_self _ _ _
        ((Store.setSignal_signal_self _ _ _).symm.trans (hwritten.trans (hall _ List.mem_cons_self).symm))
      rw [hself] at hfalse ⊢
      rw [hfalse fun w hw => hall w (List.mem_cons_of_mem _ hw), bne_self_eq_false, Bool.or_false]

/-- Assignments whose right-hand sides read none of their targets settle to those values. -/
theorem settle_of_drives (h : List.Forall₂ (Drives st (writes.map Prod.fst)) assigns writes)
    (hnodup : (writes.map Prod.fst).Nodup) (hwidth : ∀ write ∈ writes, T.width write.1 = some write.2.width)
    (queue : List NbaEntry) (output : Unit) (passes : Nat) :
    (moduleExecutor T limit).settle assigns (passes + 2) ⟨st, queue, output⟩ =
      (.ok (), ⟨st.setSignals writes, queue, output⟩) := by
  have hsub : ∀ write ∈ writes, write.1 ∈ writes.map Prod.fst := fun write hw => List.mem_map_of_mem hw
  have hwritten : ∀ write ∈ writes, (st.setSignals writes).signal write.1 = write.2 := fun write hw => by
    rw [Store.setSignals_signal_of_mem st hnodup hw, hwidth write hw, Option.getD_some, resize_self]
  obtain ⟨changed, hpass, -⟩ := runContinuousAssigns_of_drives limit h hsub (fun _ _ => rfl) rfl queue output
  obtain ⟨changed', hagain, hfalse⟩ := runContinuousAssigns_of_drives limit h hsub
    (fun n hn => st.setSignals_signal_of_notMem hn) (st.setSignals_word writes) queue output
  have hself : (st.setSignals writes).setSignals writes = st.setSignals writes := Store.setSignals_eq_self _
    fun write hw => by rw [hwidth write hw, Option.getD_some, resize_self, hwritten write hw]
  rw [hfalse hwritten, hself] at hagain
  exact StatementExecutor.settle_of_stable _ hpass hagain passes

end

/-! ## Modules -/

/-- What is simulated: the declarations, the continuous assignments and the blocks of the clock's rising edge. -/
structure Circuit where
  table : SignalTable
  assigns : List Assignment
  processes : List Stmt

namespace Circuit

variable (C : Circuit)

/-- `delta_limit` of the scheduler. -/
def deltaLimit : Nat := 10000

/-- `StatementExecutor(...)`, its `loop_limit` the default. -/
def executor : StatementExecutor (Store C.table) Unit := moduleExecutor C.table 100000

/-- `drive_signal`, for each of the inputs. -/
def drive (inputs : List (String × Value)) (st : Store C.table) : Store C.table :=
  st.setSignals inputs

/-- The blocks on the settled store, their updates, and the assignments after them. -/
def edge : Run (Store C.table) Unit Unit := do
  C.executor.settle C.assigns deltaLimit
  C.executor.executeAll C.processes
  .update fun s => { s with ctx := applyNba s.nbaQueue s.ctx, nbaQueue := [] }
  C.executor.settle C.assigns deltaLimit

/-- One clock cycle. -/
def cycle (st : Store C.table) (inputs : List (String × Value)) : Except Exit (Store C.table) :=
  match C.edge ⟨C.drive inputs st, [], ()⟩ with
  | (.ok (), s) => .ok s.ctx
  | (.error e, _) => .error e

/-- One cycle after another. -/
def run (st : Store C.table) (cycles : List (List (String × Value))) : Except Exit (Store C.table) :=
  cycles.foldlM C.cycle st

theorem run_cons (st : Store C.table) (inputs : List (String × Value)) (rest : List (List (String × Value))) :
    C.run st (inputs :: rest) = C.cycle st inputs >>= fun st => C.run st rest := rfl

theorem run_concat {st st' : Store C.table} {cycles : List (List (String × Value))} (h : C.run st cycles = .ok st')
    (inputs : List (String × Value)) : C.run st (cycles ++ [inputs]) = C.cycle st' inputs := by
  rw [run] at h
  rw [run, foldlM_concat, h]
  rfl

/-- A cycle whose blocks queue the entries, between two stores that are settled. -/
theorem cycle_eq {st settled settled' : Store C.table} {inputs : List (String × Value)} {entries : List NbaEntry}
    (hbefore : C.executor.settle C.assigns deltaLimit ⟨C.drive inputs st, [], ()⟩ = (.ok (), ⟨settled, [], ()⟩))
    (hqueues : Queues settled (C.executor.executeAll C.processes) entries)
    (hafter : C.executor.settle C.assigns deltaLimit ⟨applyNba entries settled, [], ()⟩ =
      (.ok (), ⟨settled', [], ()⟩)) :
    C.cycle st inputs = .ok settled' := by
  have hedge : C.edge ⟨C.drive inputs st, [], ()⟩ = (.ok (), ⟨settled', [], ()⟩) := by
    rw [edge, bind_of_ok hbefore, bind_of_ok (hqueues [] ()), List.nil_append, bind_of_ok (update_apply _ _)]
    exact hafter
  rw [cycle, hedge]

end Circuit

end Veriforge

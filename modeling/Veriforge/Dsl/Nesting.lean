import Mathlib.Data.List.Basic
import Veriforge.Dsl.Control

/-! # The structure that was written

What statements a program of nested blocks means, and when the builder makes them. It finds the chain that an `elif_`
or `else_` continues by the shape of the last statement, where an `else_` whose block is one `if_` looks like an
`elif_`. -/

namespace Veriforge.Dsl

variable {Expr : Type}

/-! ## What a program means -/

mutual

/-- The rest of the `if_` chain that ends right before the block, and the statements after it; a block that does not
follow such a chain has nothing to continue. -/
def Block.parse (chained : Bool) : Block Expr → Option (Option (Statement Expr) × List (Statement Expr))
  | .nil => some (none, [])
  | .cons (.assign blocking lhs rhs) rest =>
      (rest.parse false).map fun r =>
        (none, (if blocking then .blockingAssign lhs rhs else .nonblockingAssign lhs rhs) :: r.2)
  | .cons (.if_ condition body) rest =>
      (body.parse false).bind fun b => (rest.parse true).map fun r =>
        (none, .ifStatement condition (wrapStatements b.2) r.1 :: r.2)
  | .cons (.elif_ condition body) rest =>
      if chained then
        (body.parse false).bind fun b => (rest.parse true).map fun r =>
          (some (.ifStatement condition (wrapStatements b.2) r.1), r.2)
      else none
  | .cons (.else_ body) rest =>
      if chained then
        (body.parse false).bind fun b => (rest.parse false).map fun r => (some (wrapStatements b.2), r.2)
      else none
  | .cons (.case_ caseType expression body) rest =>
      body.parse.bind fun items =>
        if items.isEmpty then none
        else (rest.parse false).map fun r => (none, .caseStatement caseType expression items :: r.2)

/-- The items of a case statement. -/
def CaseBlock.parse : CaseBlock Expr → Option (List (CaseItem Expr))
  | .nil => some []
  | .when_ values body rest =>
      (body.parse false).bind fun b => rest.parse.map fun items => (some values, wrapStatements b.2) :: items
  | .default_ body rest =>
      (body.parse false).bind fun b => rest.parse.map fun items => (none, wrapStatements b.2) :: items
  | .stray _ _ => none

end

/-- The statements of a program, if it is nested correctly. -/
def Block.translate (program : Block Expr) : Option (List (Statement Expr)) := (program.parse false).map Prod.snd

/-! ## What the builder takes for nested correctly -/

/-- How many statements a block makes. -/
def Block.starts : Block Expr → Nat
  | .nil => 0
  | .cons (.assign _ _ _) rest => rest.starts + 1
  | .cons (.if_ _ _) rest => rest.starts + 1
  | .cons (.elif_ _ _) rest => rest.starts
  | .cons (.else_ _) rest => rest.starts
  | .cons (.case_ _ _ _) rest => rest.starts + 1

/-- The block ends with a chain that looks open: one without an `else_`, or with one whose block is a single chain that
looks open. `opened` tells the same of what stands before the block. -/
def Block.looksOpen (opened : Bool) : Block Expr → Bool
  | .nil => opened
  | .cons (.assign _ _ _) rest => rest.looksOpen false
  | .cons (.if_ _ _) rest => rest.looksOpen true
  | .cons (.elif_ _ _) rest => rest.looksOpen true
  | .cons (.else_ body) rest => rest.looksOpen (body.starts == 1 && body.looksOpen false)
  | .cons (.case_ _ _ _) rest => rest.looksOpen false

/-- `self._items` stays empty. -/
def CaseBlock.isNil : CaseBlock Expr → Bool
  | .nil => true
  | _ => false

mutual

/-- Every `elif_` and `else_` follows a chain without an `else_`, or, where `lenient`, one that looks open; case blocks
hold items, and nothing else. -/
def Block.nested (lenient opened : Bool) : Block Expr → Bool
  | .nil => true
  | .cons (.assign _ _ _) rest => rest.nested lenient false
  | .cons (.if_ _ body) rest => body.nested lenient false && rest.nested lenient true
  | .cons (.elif_ _ body) rest => opened && body.nested lenient false && rest.nested lenient true
  | .cons (.else_ body) rest =>
      opened && body.nested lenient false &&
        rest.nested lenient (lenient && (body.starts == 1 && body.looksOpen false))
  | .cons (.case_ _ _ body) rest => !body.isNil && body.nested lenient && rest.nested lenient false

/-- A case block without other statements, and all of it nested so. -/
def CaseBlock.nested (lenient : Bool) : CaseBlock Expr → Bool
  | .nil => true
  | .when_ _ body rest => body.nested lenient false && rest.nested lenient
  | .default_ body rest => body.nested lenient false && rest.nested lenient
  | .stray _ _ => false

end

/-! ## What is hung below a chain -/

/-- The statement is an `if` chain without an `else`. -/
def openIf (stmt : Statement Expr) : Bool := (attach (.seqBlock []) stmt).isSome

theorem attach_isSome (body stmt : Statement Expr) : (attach body stmt).isSome = openIf stmt := by
  unfold openIf
  fun_induction attach body stmt with
  | case1 condition thenBody => rfl
  | case2 condition thenBody condition' thenBody' elseBody' ih =>
    rw [attach, Option.isSome_map, Option.isSome_map, ih]
  | case3 stmt hnone hsome =>
    rw [attach]
    · exact hnone
    · exact hsome

/-- What has something hung below it is an `if` with an `else`. -/
theorem exists_of_attach {body stmt stmt' : Statement Expr} (h : attach body stmt = some stmt') :
    ∃ condition thenBody elseBody, stmt' = .ifStatement condition thenBody (some elseBody) := by
  unfold attach at h
  split at h
  · exact ⟨_, _, _, (Option.some.inj h).symm⟩
  · obtain ⟨elseBody, -, rfl⟩ := Option.map_eq_some_iff.mp h
    exact ⟨_, _, _, rfl⟩
  · simp at h

/-- To hang a body below an `if` that was hung below a chain, hang the `if` there with that body as its `else`. -/
theorem attach_attach {condition : Expr} {thenBody stmt stmt' : Statement Expr}
    (h : attach (.ifStatement condition thenBody none) stmt = some stmt') (body : Statement Expr) :
    attach body stmt' = attach (.ifStatement condition thenBody (some body)) stmt := by
  fun_induction attach (.ifStatement condition thenBody none) stmt generalizing stmt' with
  | case1 condition thenBody =>
    obtain rfl := Option.some.inj h
    rfl
  | case2 c t c' t' e' ih =>
    obtain ⟨inner, hinner, rfl⟩ := Option.map_eq_some_iff.mp h
    obtain ⟨c'', t'', e'', rfl⟩ := exists_of_attach hinner
    rw [attach, attach, ih hinner]
  | case3 stmt hnone hsome => simp at h

/-- A chain is open after something was hung below it if that is an open chain. -/
theorem openIf_attach {body stmt stmt' : Statement Expr} (h : attach body stmt = some stmt') :
    openIf stmt' = openIf body := by
  fun_induction attach body stmt generalizing stmt' with
  | case1 condition thenBody =>
    obtain rfl := Option.some.inj h
    unfold openIf
    cases body with
    | ifStatement c t e => rw [attach, Option.isSome_map]
    | _ => rfl
  | case2 c t c' t' e' ih =>
    obtain ⟨inner, hinner, rfl⟩ := Option.map_eq_some_iff.mp h
    rw [← ih hinner]
    obtain ⟨c'', t'', e'', rfl⟩ := exists_of_attach hinner
    unfold openIf
    rw [attach, Option.isSome_map]
  | case3 stmt hnone hsome => simp at h

/-- The last statement of the block is a chain without an `else`. -/
def endsOpen (stmts : List (Statement Expr)) : Bool := stmts.getLast?.any openIf

@[simp] theorem endsOpen_append (stmts : List (Statement Expr)) (stmt : Statement Expr) :
    endsOpen (stmts ++ [stmt]) = openIf stmt := by
  simp [endsOpen]

@[simp] theorem endsOpen_assign (blocking : Bool) (lhs rhs : Expr) (stmts : List (Statement Expr)) :
    endsOpen (stmts ++ [if blocking then .blockingAssign lhs rhs else .nonblockingAssign lhs rhs]) = false := by
  rw [endsOpen_append]
  cases blocking with
  | true => rfl
  | false => rfl

@[simp] theorem openIf_ifStatement (condition : Expr) (thenBody : Statement Expr) :
    openIf (.ifStatement condition thenBody none) = true := rfl

/-- A wrapped body is an open chain if it is that chain alone. -/
theorem openIf_wrapStatements (stmts : List (Statement Expr)) :
    openIf (wrapStatements stmts) = (stmts.length == 1 && endsOpen stmts) := by
  match stmts with
  | [] => rfl
  | [stmt] => rfl
  | _ :: _ :: _ => rfl

/-- The last statement with the body hung below it. -/
theorem hangBelow_of_endsOpen {top : List (Statement Expr)} (h : endsOpen top = true) (body : Statement Expr)
    (notAfterIf afterElse : String) (rest : BlockStack Expr) :
    ∃ stmt stmt', top.getLast? = some stmt ∧ attach body stmt = some stmt' ∧
      hangBelow body notAfterIf afterElse (top :: rest) = .ok ((top.dropLast ++ [stmt']) :: rest) := by
  obtain ⟨stmt, hlast, hopen⟩ := (Option.any_eq_true _ _).mp h
  rw [← attach_isSome body] at hopen
  obtain ⟨stmt', hattach⟩ := Option.isSome_iff_exists.mp hopen
  refine ⟨stmt, stmt', hlast, hattach, ?_⟩
  cases stmt with
  | ifStatement condition thenBody elseBody => simp only [hangBelow, hlast, hattach]
  | _ => simp [attach] at hattach

/-- Nothing can be hung below a block that does not end with an open chain. -/
theorem hangBelow_of_not_endsOpen {top : List (Statement Expr)} (h : endsOpen top = false) (body : Statement Expr)
    (notAfterIf afterElse : String) (rest : BlockStack Expr) :
    ∃ message, hangBelow body notAfterIf afterElse (top :: rest) = .error message := by
  rw [hangBelow]
  split
  · next condition thenBody elseBody hlast =>
    have hnone : attach body (.ifStatement condition thenBody elseBody) = none := by
      rw [← Option.not_isSome_iff_eq_none, attach_isSome]
      simpa [endsOpen, hlast] using h
    rw [hnone]
    exact ⟨_, rfl⟩
  · exact ⟨_, rfl⟩

/-! ## What a statement leaves on the stack -/

/-- What is hung below a block leaves the number of its statements and the blocks around it. -/
theorem frame_of_hangBelow {body : Statement Expr} {notAfterIf afterElse : String} {top : List (Statement Expr)}
    {rest stack : BlockStack Expr} (h : hangBelow body notAfterIf afterElse (top :: rest) = .ok stack) :
    ∃ top', stack = top' :: rest ∧ top'.length = top.length ∧ endsOpen top' = openIf body ∧ 0 < top'.length := by
  by_cases hopen : endsOpen top = true
  · obtain ⟨stmt, stmt', hlast, hattach, hok⟩ := hangBelow_of_endsOpen hopen body notAfterIf afterElse rest
    obtain rfl := Except.ok.inj (hok.symm.trans h)
    have hne : top ≠ [] := by
      rintro rfl
      simp at hlast
    have hlen := List.length_pos_iff.mpr hne
    refine ⟨_, rfl, ?_, ?_, ?_⟩
    · simp only [List.length_append, List.length_dropLast, List.length_singleton]
      omega
    · rw [endsOpen_append, openIf_attach hattach]
    · simp
  · obtain ⟨message, herror⟩ :=
      hangBelow_of_not_endsOpen (Bool.not_eq_true _ ▸ hopen) body notAfterIf afterElse rest
    exact nomatch herror.symm.trans h

mutual

/-- The blocks around a block stay, and it does not lose statements. -/
theorem Block.frame : (block : Block Expr) → {top : List (Statement Expr)} → {rest stack : BlockStack Expr} →
    block.exec (top :: rest) = .ok stack → ∃ top', stack = top' :: rest ∧ top.length ≤ top'.length
  | .nil, top, rest, stack, h => ⟨top, (Except.ok.inj h).symm, Nat.le_refl _⟩
  | .cons step following, top, rest, stack, h => by
    obtain ⟨mid, hstep, hrest⟩ := ok_of_bind h
    obtain ⟨top₁, rfl, hle₁, -⟩ := step.frame hstep
    obtain ⟨top₂, rfl, hle₂⟩ := following.frame hrest
    exact ⟨top₂, rfl, Nat.le_trans hle₁ hle₂⟩

/-- A statement leaves the blocks around it, and something in its own. -/
theorem Step.frame : (step : Step Expr) → {top : List (Statement Expr)} → {rest stack : BlockStack Expr} →
    step.exec (top :: rest) = .ok stack → ∃ top', stack = top' :: rest ∧ top.length ≤ top'.length ∧ 0 < top'.length
  | .assign blocking lhs rhs, top, rest, stack, h => ⟨_, (Except.ok.inj h).symm, by simp, by simp⟩
  | .if_ condition body, top, rest, stack, h => by
    obtain ⟨mid, hbody, happend⟩ := ok_of_bind h
    obtain ⟨stmts, rfl, -⟩ := body.frame hbody
    exact ⟨_, (Except.ok.inj happend).symm, by simp, by simp⟩
  | .elif_ condition body, top, rest, stack, h => by
    obtain ⟨mid, hbody, hhang⟩ := ok_of_bind h
    obtain ⟨stmts, rfl, -⟩ := body.frame hbody
    obtain ⟨top', hstack, hlen, -, hpos⟩ := frame_of_hangBelow hhang
    exact ⟨top', hstack, Nat.le_of_eq hlen.symm, hpos⟩
  | .else_ body, top, rest, stack, h => by
    obtain ⟨mid, hbody, hhang⟩ := ok_of_bind h
    obtain ⟨stmts, rfl, -⟩ := body.frame hbody
    obtain ⟨top', hstack, hlen, -, hpos⟩ := frame_of_hangBelow hhang
    exact ⟨top', hstack, Nat.le_of_eq hlen.symm, hpos⟩
  | .case_ caseType expression body, top, rest, stack, h => by
    obtain ⟨r, hbody, hcase⟩ := ok_of_bind h
    obtain ⟨stray, hr, -⟩ := body.frame hbody
    simp only [hr, popBlock] at hcase
    obtain ⟨popped, hpop, hcheck⟩ := ok_of_bind hcase
    obtain rfl := Except.ok.inj hpop
    split at hcheck
    · split at hcheck
      · exact nomatch hcheck
      · exact ⟨_, (Except.ok.inj hcheck).symm, by simp, by simp⟩
    · exact nomatch hcheck

/-- The items of a case statement leave the blocks around it, and what stands outside of them. -/
theorem CaseBlock.frame : (body : CaseBlock Expr) → {items : List (CaseItem Expr)} → {top : List (Statement Expr)} →
    {rest : BlockStack Expr} → {r : List (CaseItem Expr) × BlockStack Expr} →
    body.exec items (top :: rest) = .ok r → ∃ top', r.2 = top' :: rest ∧ top.length ≤ top'.length
  | .nil, items, top, rest, r, h => ⟨top, by rw [← Except.ok.inj h], Nat.le_refl _⟩
  | .when_ values body following, items, top, rest, r, h => by
    obtain ⟨mid, hbody, hrest⟩ := ok_of_bind h
    obtain ⟨stmts, rfl, -⟩ := body.frame hbody
    exact following.frame hrest
  | .default_ body following, items, top, rest, r, h => by
    obtain ⟨mid, hbody, hrest⟩ := ok_of_bind h
    obtain ⟨stmts, rfl, -⟩ := body.frame hbody
    exact following.frame hrest
  | .stray step following, items, top, rest, r, h => by
    obtain ⟨mid, hstep, hrest⟩ := ok_of_bind h
    obtain ⟨top₁, rfl, hle₁, -⟩ := step.frame hstep
    obtain ⟨top₂, htop₂, hle₂⟩ := following.frame hrest
    exact ⟨top₂, htop₂, Nat.le_trans hle₁ hle₂⟩

end

/-! ## Programs that the builder accepts -/

section Run

variable {condition : Expr} {body : Block Expr} {stmts top : List (Statement Expr)} {rest : BlockStack Expr}

theorem exec_if (h : body.exec (pushBlock (top :: rest)) = .ok (stmts :: top :: rest)) :
    (Step.if_ condition body).exec (top :: rest) =
      .ok ((top ++ [.ifStatement condition (wrapStatements stmts) none]) :: rest) := by
  rw [Step.exec, h]
  rfl

theorem exec_elif (h : body.exec (pushBlock (top :: rest)) = .ok (stmts :: top :: rest)) :
    (Step.elif_ condition body).exec (top :: rest) = hangBelow (.ifStatement condition (wrapStatements stmts) none)
        "elif_() must immediately follow an if_() or elif_() block" "elif_() cannot follow an else_() block"
        (top :: rest) := by
  rw [Step.exec, h]
  rfl

theorem exec_else (h : body.exec (pushBlock (top :: rest)) = .ok (stmts :: top :: rest)) :
    (Step.else_ body).exec (top :: rest) =
      hangBelow (wrapStatements stmts) "else_() must immediately follow an if_() or elif_() block"
        "else_() cannot follow another else_() block" (top :: rest) := by
  rw [Step.exec, h]
  rfl

theorem exec_case (caseType : CaseType) (condition : Expr) {body : CaseBlock Expr} {items : List (CaseItem Expr)}
    (h : body.exec [] (pushBlock (top :: rest)) = .ok (items, stmts :: top :: rest)) :
    (Step.case_ caseType condition body).exec (top :: rest) = if stmts.isEmpty then
        if items.isEmpty then
          .error "Empty case statement — no 'when' or 'default' items inside 'with m.case(...)'"
        else .ok ((top ++ [.caseStatement caseType condition items]) :: rest)
      else .error "Statements inside 'with m.case(...)' must be inside a 'when' or 'default' block" := by
  rw [Step.exec, h]
  rfl

/-- The statement made of a block is an open chain if the block makes one statement and looks open. -/
theorem openIf_of_exec (hstarts : stmts.length = ([] : List (Statement Expr)).length + body.starts)
    (hlooks : endsOpen stmts = body.looksOpen (endsOpen ([] : List (Statement Expr)))) :
    openIf (wrapStatements stmts) = (body.starts == 1 && body.looksOpen false) := by
  rw [openIf_wrapStatements, hstarts, hlooks, List.length_nil, Nat.zero_add]
  rfl

theorem exec_cons {step : Step Expr} {following : Block Expr} {mid : BlockStack Expr}
    (h : step.exec (top :: rest) = .ok mid) :
    (Block.cons step following).exec (top :: rest) = following.exec mid := by
  rw [Block.exec, h]
  rfl

end Run

mutual

/-- A block that is nested as the builder wants it adds its statements, and looks as `looksOpen` says. -/
theorem Block.exec_of_nested : (block : Block Expr) → (top : List (Statement Expr)) → (rest : BlockStack Expr) →
    block.nested true (endsOpen top) = true →
      ∃ top', block.exec (top :: rest) = .ok (top' :: rest) ∧ top'.length = top.length + block.starts ∧
        endsOpen top' = block.looksOpen (endsOpen top)
  | .nil, top, rest, _ => ⟨top, rfl, rfl, rfl⟩
  | .cons (.assign blocking lhs rhs) following, top, rest, h => by
    have hclosed := endsOpen_assign blocking lhs rhs top
    rw [Block.nested, ← hclosed] at h
    obtain ⟨top', hexec, hlen, hopen⟩ := following.exec_of_nested _ rest h
    refine ⟨top', hexec, ?_, ?_⟩
    · rw [hlen, List.length_append, Block.starts, List.length_singleton]
      omega
    · rw [hopen, hclosed, Block.looksOpen]
  | .cons (.if_ condition body) following, top, rest, h => by
    simp only [Block.nested, Bool.and_eq_true] at h
    obtain ⟨stmts, hbody, hstarts, hlooks⟩ := body.exec_of_nested [] (top :: rest) h.1
    obtain ⟨top', hexec, hlen, hopen⟩ :=
      following.exec_of_nested (top ++ [.ifStatement condition (wrapStatements stmts) none]) rest
        (by simpa using h.2)
    refine ⟨top', (exec_cons (exec_if hbody)).trans hexec, ?_, ?_⟩
    · rw [hlen, List.length_append, Block.starts, List.length_singleton]
      omega
    · rw [hopen, endsOpen_append, openIf_ifStatement, Block.looksOpen]
  | .cons (.elif_ condition body) following, top, rest, h => by
    simp only [Block.nested, Bool.and_eq_true] at h
    obtain ⟨stmts, hbody, -, -⟩ := body.exec_of_nested [] (top :: rest) h.1.2
    obtain ⟨stmt, stmt', -, -, hhang⟩ := hangBelow_of_endsOpen h.1.1
      (.ifStatement condition (wrapStatements stmts) none) _ _ rest
    have hstep := (exec_elif hbody).trans hhang
    obtain ⟨top₁, heq, hlen₁, hopen₁, -⟩ := frame_of_hangBelow hhang
    obtain ⟨rfl, -⟩ := List.cons.inj heq
    rw [openIf_ifStatement] at hopen₁
    obtain ⟨top', hexec, hlen, hopen⟩ := following.exec_of_nested _ rest (by rw [hopen₁]; exact h.2)
    refine ⟨top', (exec_cons hstep).trans hexec, ?_, ?_⟩
    · rw [hlen, hlen₁, Block.starts]
    · rw [hopen, hopen₁, Block.looksOpen]
  | .cons (.else_ body) following, top, rest, h => by
    simp only [Block.nested, Bool.and_eq_true, Bool.true_and] at h
    obtain ⟨stmts, hbody, hstarts, hlooks⟩ := body.exec_of_nested [] (top :: rest) h.1.2
    obtain ⟨stmt, stmt', -, -, hhang⟩ := hangBelow_of_endsOpen h.1.1 _ _ _ rest
    have hstep := (exec_else hbody).trans hhang
    obtain ⟨top₁, heq, hlen₁, hopen₁, -⟩ := frame_of_hangBelow hhang
    obtain ⟨rfl, -⟩ := List.cons.inj heq
    -- what `_find_deepest_if` will find behind the `else_`
    rw [openIf_of_exec hstarts hlooks] at hopen₁
    obtain ⟨top', hexec, hlen, hopen⟩ := following.exec_of_nested _ rest (by rw [hopen₁]; exact h.2)
    refine ⟨top', (exec_cons hstep).trans hexec, ?_, ?_⟩
    · rw [hlen, hlen₁, Block.starts]
    · rw [hopen, hopen₁, Block.looksOpen]
  | .cons (.case_ caseType expression body) following, top, rest, h => by
    simp only [Block.nested, Bool.and_eq_true, Bool.not_eq_true'] at h
    obtain ⟨items, hbody, hnil⟩ := body.exec_of_nested [] (pushBlock (top :: rest)) h.1.2
    have hstep := exec_case caseType expression hbody
    rw [List.nil_append, hnil.trans h.1.1] at hstep
    obtain ⟨top', hexec, hlen, hopen⟩ :=
      following.exec_of_nested (top ++ [.caseStatement caseType expression items]) rest
        (by rw [endsOpen_append]; exact h.2)
    refine ⟨top', (exec_cons hstep).trans hexec, ?_, ?_⟩
    · rw [hlen, List.length_append, Block.starts, List.length_singleton]
      omega
    · rw [hopen, endsOpen_append, Block.looksOpen]
      rfl

/-- So do the items of a case statement, which leave nothing else. -/
theorem CaseBlock.exec_of_nested : (body : CaseBlock Expr) → (items : List (CaseItem Expr)) →
    (stack : BlockStack Expr) → body.nested true = true →
      ∃ more, body.exec items stack = .ok (items ++ more, stack) ∧ more.isEmpty = body.isNil
  | .nil, items, stack, _ => ⟨[], by rw [List.append_nil]; rfl, rfl⟩
  | .when_ values body following, items, stack, h => by
    simp only [CaseBlock.nested, Bool.and_eq_true] at h
    obtain ⟨stmts, hbody, -, -⟩ := body.exec_of_nested [] stack h.1
    obtain ⟨more, hexec, -⟩ := following.exec_of_nested (items ++ [(some values, wrapStatements stmts)]) stack h.2
    refine ⟨(some values, wrapStatements stmts) :: more, ?_, rfl⟩
    rw [CaseBlock.exec, pushBlock, hbody]
    exact hexec.trans (by simp)
  | .default_ body following, items, stack, h => by
    simp only [CaseBlock.nested, Bool.and_eq_true] at h
    obtain ⟨stmts, hbody, -, -⟩ := body.exec_of_nested [] stack h.1
    obtain ⟨more, hexec, -⟩ := following.exec_of_nested (items ++ [(none, wrapStatements stmts)]) stack h.2
    refine ⟨(none, wrapStatements stmts) :: more, ?_, rfl⟩
    rw [CaseBlock.exec, pushBlock, hbody]
    exact hexec.trans (by simp)
  | .stray step following, items, stack, h => nomatch h

end

/-! ## Programs that it rejects -/

theorem error_of_step {step : Step Expr} {following : Block Expr} {stack : BlockStack Expr} {message : String}
    (h : step.exec stack = .error message) : (Block.cons step following).exec stack = .error message := by
  rw [Block.exec, h]
  rfl

/-- A statement that hangs a body below the block raises where the block does not end with an open chain, or where
what follows it does. -/
theorem error_of_hangBelow {step : Step Expr} {following : Block Expr} {body : Statement Expr}
    {notAfterIf afterElse : String} {top : List (Statement Expr)} {rest : BlockStack Expr}
    (hstep : step.exec (top :: rest) = hangBelow body notAfterIf afterElse (top :: rest))
    (hfollowing : endsOpen top = true → ∀ top', endsOpen top' = openIf body →
      ∃ message, following.exec (top' :: rest) = .error message) :
    ∃ message, (Block.cons step following).exec (top :: rest) = .error message := by
  cases hopen : endsOpen top with
  | false =>
    obtain ⟨message, herror⟩ := hangBelow_of_not_endsOpen hopen body notAfterIf afterElse rest
    exact ⟨message, error_of_step (hstep.trans herror)⟩
  | true =>
    obtain ⟨stmt, stmt', -, -, hhang⟩ := hangBelow_of_endsOpen hopen body notAfterIf afterElse rest
    rw [exec_cons (hstep.trans hhang)]
    obtain ⟨top', heq, -, hopen', -⟩ := frame_of_hangBelow hhang
    obtain ⟨rfl, -⟩ := List.cons.inj heq
    exact hfollowing hopen _ hopen'

mutual

/-- A block that is not nested as the builder wants it raises. -/
theorem Block.error_of_not_nested : (block : Block Expr) → (top : List (Statement Expr)) →
    (rest : BlockStack Expr) → block.nested true (endsOpen top) = false →
      ∃ message, block.exec (top :: rest) = .error message
  | .nil, top, rest, h => nomatch h
  | .cons (.assign blocking lhs rhs) following, top, rest, h => by
    refine following.error_of_not_nested _ rest ?_
    rw [endsOpen_assign]
    exact h
  | .cons (.if_ condition body) following, top, rest, h => by
    cases hnested : body.nested true false with
    | false =>
      obtain ⟨message, herror⟩ := body.error_of_not_nested [] (top :: rest) hnested
      refine ⟨message, error_of_step ?_⟩
      rw [Step.exec, pushBlock, herror]
      rfl
    | true =>
      obtain ⟨stmts, hbody, -, -⟩ := body.exec_of_nested [] (top :: rest) hnested
      rw [exec_cons (exec_if hbody)]
      refine following.error_of_not_nested _ rest ?_
      rw [endsOpen_append, openIf_ifStatement]
      rwa [Block.nested, hnested, Bool.true_and] at h
  | .cons (.elif_ condition body) following, top, rest, h => by
    cases hnested : body.nested true false with
    | false =>
      obtain ⟨message, herror⟩ := body.error_of_not_nested [] (top :: rest) hnested
      refine ⟨message, error_of_step ?_⟩
      rw [Step.exec, pushBlock, herror]
      rfl
    | true =>
      obtain ⟨stmts, hbody, -, -⟩ := body.exec_of_nested [] (top :: rest) hnested
      rw [Block.nested, hnested, Bool.and_true] at h
      refine error_of_hangBelow (exec_elif hbody) fun hopen top' hopen' =>
        following.error_of_not_nested top' rest ?_
      rw [hopen', openIf_ifStatement]
      rwa [hopen, Bool.true_and] at h
  | .cons (.else_ body) following, top, rest, h => by
    cases hnested : body.nested true false with
    | false =>
      obtain ⟨message, herror⟩ := body.error_of_not_nested [] (top :: rest) hnested
      refine ⟨message, error_of_step ?_⟩
      rw [Step.exec, pushBlock, herror]
      rfl
    | true =>
      obtain ⟨stmts, hbody, hstarts, hlooks⟩ := body.exec_of_nested [] (top :: rest) hnested
      rw [Block.nested, hnested, Bool.and_true, Bool.true_and] at h
      refine error_of_hangBelow (exec_else hbody) fun hopen top' hopen' =>
        following.error_of_not_nested top' rest ?_
      rw [hopen', openIf_of_exec hstarts hlooks]
      rwa [hopen, Bool.true_and] at h
  | .cons (.case_ caseType expression body) following, top, rest, h => by
    cases hnested : body.nested true with
    | false =>
      obtain ⟨message, herror⟩ | ⟨more, stray, hbody, hpos⟩ :=
        body.error_of_not_nested [] [] (top :: rest) hnested
      · refine ⟨message, error_of_step ?_⟩
        rw [Step.exec, pushBlock, herror]
        rfl
      · have hstep := exec_case caseType expression hbody
        rw [List.isEmpty_eq_false_iff.mpr (List.length_pos_iff.mp hpos)] at hstep
        exact ⟨_, error_of_step hstep⟩
    | true =>
      obtain ⟨items, hbody, hnil⟩ := body.exec_of_nested [] (pushBlock (top :: rest)) hnested
      have hstep := exec_case caseType expression hbody
      rw [List.nil_append, hnil] at hstep
      rw [Block.nested, hnested, Bool.and_true] at h
      cases hempty : body.isNil with
      | false =>
        rw [hempty] at hstep
        rw [exec_cons hstep]
        refine following.error_of_not_nested _ rest ?_
        rw [endsOpen_append]
        rwa [hempty, Bool.not_false, Bool.true_and] at h
      | true =>
        rw [hempty] at hstep
        exact ⟨_, error_of_step hstep⟩

/-- A case block that is not raises, or leaves a statement outside of its items. -/
theorem CaseBlock.error_of_not_nested : (body : CaseBlock Expr) → (items : List (CaseItem Expr)) →
    (top : List (Statement Expr)) → (rest : BlockStack Expr) → body.nested true = false →
      (∃ message, body.exec items (top :: rest) = .error message) ∨
        ∃ more top', body.exec items (top :: rest) = .ok (more, top' :: rest) ∧ 0 < top'.length
  | .nil, items, top, rest, h => nomatch h
  | .when_ values body following, items, top, rest, h => by
    cases hnested : body.nested true false with
    | false =>
      obtain ⟨message, herror⟩ := body.error_of_not_nested [] (top :: rest) hnested
      refine Or.inl ⟨message, ?_⟩
      rw [CaseBlock.exec, pushBlock, herror]
      rfl
    | true =>
      obtain ⟨stmts, hbody, -, -⟩ := body.exec_of_nested [] (top :: rest) hnested
      rw [CaseBlock.nested, hnested, Bool.true_and] at h
      rw [CaseBlock.exec, pushBlock, hbody]
      exact following.error_of_not_nested _ top rest h
  | .default_ body following, items, top, rest, h => by
    cases hnested : body.nested true false with
    | false =>
      obtain ⟨message, herror⟩ := body.error_of_not_nested [] (top :: rest) hnested
      refine Or.inl ⟨message, ?_⟩
      rw [CaseBlock.exec, pushBlock, herror]
      rfl
    | true =>
      obtain ⟨stmts, hbody, -, -⟩ := body.exec_of_nested [] (top :: rest) hnested
      rw [CaseBlock.nested, hnested, Bool.true_and] at h
      rw [CaseBlock.exec, pushBlock, hbody]
      exact following.error_of_not_nested _ top rest h
  | .stray step following, items, top, rest, h => by
    cases hexec : (CaseBlock.stray step following).exec items (top :: rest) with
    | error message => exact Or.inl ⟨message, rfl⟩
    | ok r =>
      obtain ⟨mid, hstep, hrest⟩ := ok_of_bind hexec
      obtain ⟨top₁, rfl, -, hpos⟩ := step.frame hstep
      obtain ⟨top₂, htop₂, hle⟩ := following.frame hrest
      exact Or.inr ⟨r.1, top₂, by rw [← htop₂], Nat.lt_of_lt_of_le hpos hle⟩

end

/-! ## Programs that are nested correctly -/

mutual

theorem Block.parse_isSome : (block : Block Expr) → (chained : Bool) →
    (block.parse chained).isSome = block.nested false chained
  | .nil, chained => rfl
  | .cons (.assign blocking lhs rhs) following, chained => by
    rw [Block.parse, Option.isSome_map, following.parse_isSome, Block.nested]
  | .cons (.if_ condition body) following, chained => by
    rw [Block.parse, Block.nested, ← body.parse_isSome, ← following.parse_isSome]
    cases body.parse false with
    | none => rfl
    | some b => exact Option.isSome_map
  | .cons (.elif_ condition body) following, chained => by
    rw [Block.parse, Block.nested, ← body.parse_isSome, ← following.parse_isSome]
    cases chained with
    | false => rfl
    | true =>
      cases body.parse false with
      | none => rfl
      | some b => exact Option.isSome_map
  | .cons (.else_ body) following, chained => by
    rw [Block.parse, Block.nested, ← body.parse_isSome, Bool.false_and, ← following.parse_isSome]
    cases chained with
    | false => rfl
    | true =>
      cases body.parse false with
      | none => rfl
      | some b => exact Option.isSome_map
  | .cons (.case_ caseType expression body) following, chained => by
    rw [Block.parse, Block.nested, ← body.parse_isSome.1, ← following.parse_isSome]
    cases hitems : body.parse with
    | none => simp
    | some items =>
      rw [Option.bind_some, body.parse_isSome.2 items hitems]
      cases body.isNil with
      | false => exact Option.isSome_map
      | true => rfl

theorem CaseBlock.parse_isSome : (body : CaseBlock Expr) →
    body.parse.isSome = body.nested false ∧ ∀ items, body.parse = some items → items.isEmpty = body.isNil
  | .nil => ⟨rfl, fun items h => Option.some.inj h ▸ rfl⟩
  | .when_ values body following => by
    rw [CaseBlock.parse, CaseBlock.nested, ← body.parse_isSome, ← following.parse_isSome.1]
    cases body.parse false with
    | none => exact ⟨rfl, fun items h => nomatch h⟩
    | some b =>
      refine ⟨Option.isSome_map, fun items h => ?_⟩
      obtain ⟨more, -, rfl⟩ := Option.map_eq_some_iff.mp h
      rfl
  | .default_ body following => by
    rw [CaseBlock.parse, CaseBlock.nested, ← body.parse_isSome, ← following.parse_isSome.1]
    cases body.parse false with
    | none => exact ⟨rfl, fun items h => nomatch h⟩
    | some b =>
      refine ⟨Option.isSome_map, fun items h => ?_⟩
      obtain ⟨more, -, rfl⟩ := Option.map_eq_some_iff.mp h
      rfl
  | .stray step following => ⟨rfl, fun items h => nomatch h⟩

end

/-- The block with the rest of its last chain hung below it. -/
def hang : Option (Statement Expr) → List (Statement Expr) → Option (List (Statement Expr))
  | none, top => some top
  | some body, top => top.getLast?.bind fun stmt => (attach body stmt).map fun stmt' => top.dropLast ++ [stmt']

/-- The rest of a chain below an `if`. -/
theorem hang_ifStatement (elseBody : Option (Statement Expr)) (condition : Expr) (thenBody : Statement Expr)
    (top : List (Statement Expr)) :
    hang elseBody (top ++ [.ifStatement condition thenBody none]) =
      some (top ++ [.ifStatement condition thenBody elseBody]) := by
  cases elseBody with
  | none => rfl
  | some body => simp [hang, attach]

/-- The rest of a chain below an `elif_`. -/
theorem hang_attach {condition : Expr} {thenBody stmt stmt' : Statement Expr} {top : List (Statement Expr)}
    (hlast : top.getLast? = some stmt) (h : attach (.ifStatement condition thenBody none) stmt = some stmt')
    (elseBody : Option (Statement Expr)) :
    hang elseBody (top.dropLast ++ [stmt']) = hang (some (.ifStatement condition thenBody elseBody)) top := by
  cases elseBody with
  | none => simp [hang, hlast, h]
  | some body => simp [hang, hlast, attach_attach h]

/-- A block that does not follow a chain continues none. -/
theorem parse_false {block : Block Expr} {r : Option (Statement Expr) × List (Statement Expr)}
    (h : block.parse false = some r) : r.1 = none := by
  unfold Block.parse at h
  split at h
  · obtain rfl := Option.some.inj h
    rfl
  · obtain ⟨r', -, rfl⟩ := Option.map_eq_some_iff.mp h
    rfl
  · obtain ⟨b, -, hfollowing⟩ := Option.bind_eq_some_iff.mp h
    obtain ⟨r', -, rfl⟩ := Option.map_eq_some_iff.mp hfollowing
    rfl
  · exact nomatch h
  · exact nomatch h
  · obtain ⟨items, -, hitems⟩ := Option.bind_eq_some_iff.mp h
    split at hitems
    · exact nomatch hitems
    · obtain ⟨r', -, rfl⟩ := Option.map_eq_some_iff.mp hitems
      rfl

/-- Where it continues none, nothing is hung below what is before it. -/
theorem exec_of_hang {block : Block Expr} {r : Option (Statement Expr) × List (Statement Expr)}
    {top : List (Statement Expr)} {rest : BlockStack Expr} (hr : block.parse false = some r)
    (h : ∃ top', hang r.1 top = some top' ∧ block.exec (top :: rest) = .ok ((top' ++ r.2) :: rest)) :
    block.exec (top :: rest) = .ok ((top ++ r.2) :: rest) := by
  obtain ⟨top', hhang, hexec⟩ := h
  rw [parse_false hr] at hhang
  obtain rfl := Option.some.inj hhang
  exact hexec

mutual

/-- The builder makes what a correctly nested block means: the rest of the chain before it is hung below that chain, and
its own statements follow. -/
theorem Block.exec_of_parse : (block : Block Expr) → {chained : Bool} →
    {r : Option (Statement Expr) × List (Statement Expr)} → (top : List (Statement Expr)) →
    (rest : BlockStack Expr) → block.parse chained = some r → (chained = true → endsOpen top = true) →
      ∃ top', hang r.1 top = some top' ∧ block.exec (top :: rest) = .ok ((top' ++ r.2) :: rest)
  | .nil, chained, r, top, rest, h, _ => by
    obtain rfl := Option.some.inj h
    exact ⟨top, rfl, by rw [List.append_nil]; rfl⟩
  | .cons (.assign blocking lhs rhs) following, chained, r, top, rest, h, _ => by
    obtain ⟨r', hr', rfl⟩ := Option.map_eq_some_iff.mp h
    have hexec := exec_of_hang hr' (following.exec_of_parse
      (top ++ [if blocking then .blockingAssign lhs rhs else .nonblockingAssign lhs rhs]) rest hr' fun hf => nomatch hf)
    exact ⟨top, rfl, hexec.trans (by rw [List.append_assoc, List.singleton_append])⟩
  | .cons (.if_ condition body) following, chained, r, top, rest, h, _ => by
    obtain ⟨b, hb, hfollowing⟩ := Option.bind_eq_some_iff.mp h
    obtain ⟨r', hr', rfl⟩ := Option.map_eq_some_iff.mp hfollowing
    have hbody := exec_of_hang hb (body.exec_of_parse [] (top :: rest) hb fun hf => nomatch hf)
    obtain ⟨top', hhang, hexec⟩ := following.exec_of_parse
      (top ++ [.ifStatement condition (wrapStatements b.2) none]) rest hr'
      (fun _ => by rw [endsOpen_append, openIf_ifStatement])
    rw [hang_ifStatement] at hhang
    obtain rfl := Option.some.inj hhang
    rw [List.append_assoc, List.singleton_append] at hexec
    exact ⟨top, rfl, (exec_cons (exec_if hbody)).trans hexec⟩
  | .cons (.elif_ condition body) following, true, r, top, rest, h, hopen => by
    obtain ⟨b, hb, hfollowing⟩ := Option.bind_eq_some_iff.mp h
    obtain ⟨r', hr', rfl⟩ := Option.map_eq_some_iff.mp hfollowing
    have hbody := exec_of_hang hb (body.exec_of_parse [] (top :: rest) hb fun hf => nomatch hf)
    obtain ⟨stmt, stmt', hlast, hattach, hok⟩ := hangBelow_of_endsOpen (hopen rfl)
      (.ifStatement condition (wrapStatements b.2) none) _ _ rest
    -- the `elif_` is an open chain where it hangs, which the rest continues
    obtain ⟨top', hhang, hexec⟩ := following.exec_of_parse (top.dropLast ++ [stmt']) rest hr'
      (fun _ => by rw [endsOpen_append, openIf_attach hattach, openIf_ifStatement])
    rw [hang_attach hlast hattach] at hhang
    exact ⟨top', hhang, (exec_cons ((exec_elif hbody).trans hok)).trans hexec⟩
  | .cons (.else_ body) following, true, r, top, rest, h, hopen => by
    obtain ⟨b, hb, hfollowing⟩ := Option.bind_eq_some_iff.mp h
    obtain ⟨r', hr', rfl⟩ := Option.map_eq_some_iff.mp hfollowing
    have hbody := exec_of_hang hb (body.exec_of_parse [] (top :: rest) hb fun hf => nomatch hf)
    obtain ⟨stmt, stmt', hlast, hattach, hok⟩ := hangBelow_of_endsOpen (hopen rfl) (wrapStatements b.2) _ _ rest
    have hexec := exec_of_hang hr'
      (following.exec_of_parse (top.dropLast ++ [stmt']) rest hr' fun hf => nomatch hf)
    refine ⟨_, ?_, (exec_cons ((exec_else hbody).trans hok)).trans hexec⟩
    simp only [hang, hlast, hattach, Option.bind_some, Option.map_some]
  | .cons (.case_ caseType expression body) following, chained, r, top, rest, h, _ => by
    obtain ⟨items, hitems, hfollowing⟩ := Option.bind_eq_some_iff.mp h
    split at hfollowing
    · exact nomatch hfollowing
    · next hempty =>
      have hitems' := Bool.eq_false_iff.mpr hempty
      obtain ⟨r', hr', rfl⟩ := Option.map_eq_some_iff.mp hfollowing
      have hbody := body.exec_of_parse [] (pushBlock (top :: rest)) hitems
      have hstep := exec_case caseType expression hbody
      rw [List.nil_append, hitems'] at hstep
      have hexec := exec_of_hang hr' (following.exec_of_parse
        (top ++ [.caseStatement caseType expression items]) rest hr' fun hf => nomatch hf)
      rw [List.append_assoc, List.singleton_append] at hexec
      exact ⟨top, rfl, (exec_cons hstep).trans hexec⟩

theorem CaseBlock.exec_of_parse : (body : CaseBlock Expr) → {more : List (CaseItem Expr)} →
    (items : List (CaseItem Expr)) → (stack : BlockStack Expr) → body.parse = some more →
      body.exec items stack = .ok (items ++ more, stack)
  | .nil, more, items, stack, h => by
    obtain rfl := Option.some.inj h
    rw [List.append_nil]
    rfl
  | .when_ values body following, more, items, stack, h => by
    obtain ⟨b, hb, hfollowing⟩ := Option.bind_eq_some_iff.mp h
    obtain ⟨more', hmore, rfl⟩ := Option.map_eq_some_iff.mp hfollowing
    have hbody := exec_of_hang hb (body.exec_of_parse [] stack hb fun hf => nomatch hf)
    rw [CaseBlock.exec, pushBlock, hbody]
    exact (following.exec_of_parse _ stack hmore).trans (by rw [List.append_assoc]; rfl)
  | .default_ body following, more, items, stack, h => by
    obtain ⟨b, hb, hfollowing⟩ := Option.bind_eq_some_iff.mp h
    obtain ⟨more', hmore, rfl⟩ := Option.map_eq_some_iff.mp hfollowing
    have hbody := exec_of_hang hb (body.exec_of_parse [] stack hb fun hf => nomatch hf)
    rw [CaseBlock.exec, pushBlock, hbody]
    exact (following.exec_of_parse _ stack hmore).trans (by rw [List.append_assoc]; rfl)
  | .stray step following, more, items, stack, h => nomatch h

end

/-! ## What the builder makes -/

/-- The statements of a correctly nested program are built as it means them, and any other program raises. -/
def BuiltAsWritten (program : Block Expr) : Prop :=
  (always program).toOption =
    program.translate.map fun stmts => if stmts.isEmpty then none else some (wrapStatements stmts)

/-- The builder makes the structure that was written unless it takes an `elif_` or `else_` for one that continues a
chain: all else in the program is nested correctly, and that statement directly follows an `else_` whose block is a
single chain that looks open. -/
theorem builtAsWritten_iff (program : Block Expr) :
    BuiltAsWritten program ↔ program.nested false false = true ∨ program.nested true false = false := by
  unfold BuiltAsWritten
  constructor
  · intro hbuilt
    by_contra! hnot
    obtain ⟨hstrict, hlenient⟩ := hnot
    have htranslate : program.translate = none := by
      rw [Block.translate, Option.map_eq_none_iff, ← Option.not_isSome_iff_eq_none, program.parse_isSome]
      exact hstrict
    obtain ⟨top', hexec, -, -⟩ := program.exec_of_nested [] [] (Bool.not_eq_false _ ▸ hlenient)
    rw [htranslate, always, pushBlock, hexec] at hbuilt
    exact nomatch hbuilt
  · intro hnested
    cases hstrict : program.nested false false with
    | true =>
        rw [← program.parse_isSome, Option.isSome_iff_exists] at hstrict
        obtain ⟨r, hr⟩ := hstrict
        have hexec := exec_of_hang hr (program.exec_of_parse [] [] hr fun hf => nomatch hf)
        rw [Block.translate, hr, always, pushBlock, hexec]
        rfl
    | false =>
        have hlenient := hnested.resolve_left (by rw [hstrict]; exact Bool.false_ne_true)
        obtain ⟨message, herror⟩ := program.error_of_not_nested [] [] hlenient
        have htranslate : program.translate = none := by
          rw [Block.translate, Option.map_eq_none_iff, ← Option.not_isSome_iff_eq_none, program.parse_isSome, hstrict]
          exact Bool.false_ne_true
        rw [htranslate, always, pushBlock, herror]
        rfl

/-- `else_` with a single `if_` in its block, and an `elif_` after it: the builder hangs it below that `if_`. -/
theorem elif_after_else : ¬ BuiltAsWritten
    (.cons (.if_ "a" .nil) (.cons (.else_ (.cons (.if_ "b" .nil) .nil)) (.cons (.elif_ "c" .nil) .nil))) := by
  intro h
  exact nomatch h

end Veriforge.Dsl

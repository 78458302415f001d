import Veriforge.Sim.Width

/-! # Two analyses of signedness

`expr_signed` of `semantics.py` reads the declarations through callbacks, `_expr_signed` of
`sim/evaluator.py` through the tables of its context. Both descend to the same leaves; the set of signed
memories does not reach every leaf of the first. -/

namespace Veriforge

/-- `name.lower().startswith("$")`. -/
def isSystemName (name : String) : Bool := name.toLower.toList.head? == some '$'

/-- The declarations an analysis looks names up in. -/
structure Declarations where
  /-- `_signal_signed`: declared `signed` (vectors and memories). -/
  signed : String → Bool
  /-- `_memory_names`. -/
  memories : List String
  /-- `_functions`: the signedness of a declared function's result. -/
  function : String → Option Bool
  /-- The name of a declared function is an identifier. -/
  function_name : ∀ n s, function n = some s → isSystemName n = false

variable (D : Declarations)

/-- `signed_memory_names`. -/
def Declarations.signedMemories : List String := D.memories.filter D.signed

/-- The callback for the signedness of a user function's result. -/
def Declarations.functionSigned (name : String) : Bool := (D.function name).getD false

/-- `_expr_signed` of `sim/evaluator.py`. -/
def evaluatorSigned : Expr → Bool
  | .ident h n => D.signed (identifierName h n)
  | .literal l => l.signed
  | .bitSelect t _ =>
      match t with
      | .ident h n => if identifierName h n ∈ D.memories then D.signed (identifierName h n) else false
      | _ => false
  | .rangeSelect _ _ _ | .partSelect _ _ _ _ => false
  | .unary op e => if op.contextDetermined then evaluatorSigned e else false
  | .binary op l r =>
      if op.isShift || op == .pow then evaluatorSigned l
      else if op.isComparison || op.isLogical then false
      else evaluatorSigned l && evaluatorSigned r
  | .ternary _ t f => evaluatorSigned t && evaluatorSigned f
  | .concat _ _ | .replicate _ _ | .streaming _ | .streamingBy _ _ => false
  | .cast s _ => s
  | .call name arguments =>
      if name.toLower = "$signed" then true
      else if name.toLower = "$unsigned" then false
      else match arguments with
        | a :: _ => if name.toLower = "$__2state" then evaluatorSigned a else D.functionSigned name
        | [] => D.functionSigned name
  | .string _ => false

/-- `expr_signed` of `semantics.py`. -/
def semanticsSigned (signedOf : String → Bool) (functionSigned : Option (String → Bool)) : List String → Expr → Bool
  | _, .ident h n => signedOf (identifierName h n)
  | _, .literal l => l.signed
  | signedMemories, .bitSelect t _ =>
      match t with
      | .ident h n => signedMemories ≠ [] && identifierName h n ∈ signedMemories
      | _ => false
  | _, .rangeSelect _ _ _ | _, .partSelect _ _ _ _ => false
  | signedMemories, .unary op e =>
      if op.contextDetermined then semanticsSigned signedOf functionSigned signedMemories e else false
  | signedMemories, .binary op l r =>
      if op.isShift || op == .pow then semanticsSigned signedOf functionSigned signedMemories l
      else if op.isComparison || op.isLogical then false
      -- the set of signed memories is not passed to the right operand
      else semanticsSigned signedOf functionSigned signedMemories l && semanticsSigned signedOf functionSigned [] r
  | signedMemories, .ternary _ t f =>
      semanticsSigned signedOf functionSigned signedMemories t && semanticsSigned signedOf functionSigned [] f
  | _, .concat _ _ | _, .replicate _ _ => false
  | _, .cast s _ => s
  | signedMemories, .call name arguments =>
      match arguments with
      | a :: _ =>
          if name.toLower = "$__2state" then semanticsSigned signedOf functionSigned signedMemories a
          else if isSystemName name then name.toLower = "$signed"
          else functionSigned.elim false (· name)
      | [] =>
          if isSystemName name then name.toLower = "$signed"
          else functionSigned.elim false (· name)
  | _, .streaming _ | _, .streamingBy _ _ | _, .string _ => false

/-- The declarations are those of a table. -/
structure Declarations.Describe (D : Declarations) (T : SignalTable) : Prop where
  signed : ∀ n, D.signed n = T.signed n
  memory : ∀ n, n ∈ D.memories ↔ T.isMemory n = true

/-- What decides the signedness of an expression: a leaf that an analysis descends to. -/
inductive Decider
  | ident (name : String)
  | fixed (signed : Bool)
  /-- A select on the bare name of a vector or memory. -/
  | word (name : String)
  | call (function : String)
  deriving DecidableEq, Repr

/-- The signedness of a leaf by the declarations. -/
def Declarations.signs : Decider → Bool
  | .ident name => D.signed name
  | .fixed s => s
  | .word name => if name ∈ D.memories then D.signed name else false
  | .call f => D.functionSigned f

/-- The leaves that decide the signedness of an expression, each with whether it lies in a right operand or in a
false arm; `inner` says so of the expression itself. -/
def deciders : Bool → Expr → List (Bool × Decider)
  | inner, .ident h n => [(inner, .ident (identifierName h n))]
  | inner, .literal l => [(inner, .fixed l.signed)]
  | inner, .bitSelect t _ =>
      match t with
      | .ident h n => [(inner, .word (identifierName h n))]
      | _ => [(inner, .fixed false)]
  | inner, .unary op e => if op.contextDetermined then deciders inner e else [(inner, .fixed false)]
  | inner, .binary op l r =>
      if op.isShift || op == .pow then deciders inner l
      else if op.isComparison || op.isLogical then [(inner, .fixed false)]
      else deciders inner l ++ deciders true r
  | inner, .ternary _ t f => deciders inner t ++ deciders true f
  | inner, .cast s _ => [(inner, .fixed s)]
  | inner, .call name arguments =>
      if name.toLower = "$signed" then [(inner, .fixed true)]
      else match arguments with
        | a :: _ => if name.toLower = "$__2state" then deciders inner a else [(inner, .call name)]
        | [] => [(inner, .call name)]
  | inner, .rangeSelect _ _ _ | inner, .partSelect _ _ _ _ | inner, .concat _ _ | inner, .replicate _ _
  | inner, .streaming _ | inner, .streamingBy _ _ | inner, .string _ => [(inner, .fixed false)]

/-- The leaf is a word of a memory. -/
def Decider.isWord : Decider → Bool
  | .word _ => true
  | _ => false

variable {D}

theorem isSystemName_of_toLower {name text : String} (h : name.toLower = text)
    (ht : text.toList.head? = some '$') : isSystemName name = true := by
  rw [isSystemName, h, ht]
  rfl

theorem Declarations.functionSigned_system {name : String} (h : isSystemName name = true) :
    D.functionSigned name = false := by
  rw [functionSigned]
  cases hf : D.function name with
  | none => rfl
  | some s =>
    have := D.function_name name s hf
    rw [h] at this
    cases this

/-- The evaluator's analysis says that every deciding leaf is signed. -/
theorem evaluatorSigned_eq_all (e : Expr) (inner : Bool) :
    evaluatorSigned D e = (deciders inner e).all fun d => D.signs d.2 := by
  induction e generalizing inner with
  | unary op e ih =>
    rw [evaluatorSigned, deciders]
    split
    · exact ih inner
    · rfl
  | binary op l r ihl ihr =>
    rw [evaluatorSigned, deciders]
    split
    · exact ihl inner
    · split
      · rfl
      · rw [List.all_append, ihl inner, ihr true]
  | ternary c t f _ iht ihf =>
    rw [evaluatorSigned, deciders, List.all_append, iht inner, ihf true]
  | bitSelect t i =>
    rw [evaluatorSigned.eq_def, deciders.eq_def]
    cases t <;> simp [Declarations.signs]
  | call name arguments ih =>
    rw [evaluatorSigned.eq_def, deciders.eq_def]
    by_cases hs : name.toLower = "$signed"
    · simp [hs, Declarations.signs]
    by_cases hu : name.toLower = "$unsigned"
    · have hf := D.functionSigned_system (isSystemName_of_toLower hu rfl)
      have h2 : name.toLower ≠ "$__2state" := by
        rw [hu]
        decide
      cases arguments <;> simp [hu, hf, Declarations.signs]
    · cases arguments with
      | nil => simp [hs, hu, Declarations.signs]
      | cons a as =>
        by_cases h2 : name.toLower = "$__2state"
        · simp [h2, ih a List.mem_cons_self inner]
        · simp [hs, hu, h2, Declarations.signs]
  | ident | literal | string | concat | replicate | streaming | streamingBy | rangeSelect | partSelect | cast =>
    simp [evaluatorSigned, deciders, Declarations.signs]

variable (D) in
/-- `expr_signed` with the callbacks of the declarations. -/
abbrev Declarations.semanticsSigned (signedMemories : List String) (e : Expr) : Bool :=
  Veriforge.semanticsSigned D.signed (some D.functionSigned) signedMemories e

variable (D) in
/-- The signed memories that are passed down to an expression. -/
def Declarations.passed (inner : Bool) : List String := if inner then [] else D.signedMemories

theorem Declarations.mem_passed (inner : Bool) (name : String) :
    (decide (D.passed inner ≠ []) && decide (name ∈ D.passed inner)) = (D.signs (.word name) && !inner) := by
  cases inner with
  | true => simp [passed]
  | false =>
    by_cases hm : name ∈ D.memories <;> by_cases hs : D.signed name = true <;>
      simp [passed, signedMemories, signs, hm, hs]
    exact ⟨name, hm, hs⟩

/-- The analysis through callbacks takes the words in right operands and false arms for unsigned. -/
theorem semanticsSigned_eq_all (e : Expr) (inner : Bool) : D.semanticsSigned (D.passed inner) e =
      (deciders inner e).all fun d => D.signs d.2 && !(d.1 && d.2.isWord) := by
  induction e generalizing inner with
  | unary op e ih =>
    rw [Declarations.semanticsSigned, semanticsSigned, deciders]
    split
    · exact ih inner
    · rfl
  | binary op l r ihl ihr =>
    rw [Declarations.semanticsSigned, semanticsSigned, deciders]
    split
    · exact ihl inner
    · split
      · rfl
      · rw [List.all_append, ← ihl inner, ← ihr true]
        rfl
  | ternary c t f _ iht ihf =>
    rw [Declarations.semanticsSigned, semanticsSigned, deciders, List.all_append, ← iht inner, ← ihf true]
    rfl
  | bitSelect t i =>
    rw [Declarations.semanticsSigned, semanticsSigned.eq_def, deciders.eq_def]
    cases t with
    | ident h n => simpa [Decider.isWord] using D.mem_passed inner (identifierName h n)
    | _ => simp [Declarations.signs]
  | call name arguments ih =>
    rw [Declarations.semanticsSigned, semanticsSigned.eq_def, deciders.eq_def]
    by_cases hs : name.toLower = "$signed"
    · have hsys := isSystemName_of_toLower hs rfl
      cases arguments <;> simp [hs, hsys, Declarations.signs, Decider.isWord]
    by_cases h2 : name.toLower = "$__2state"
    · have hsys := isSystemName_of_toLower h2 rfl
      cases arguments with
      | nil => simp [h2, hsys, Declarations.signs, D.functionSigned_system hsys]
      | cons a as => simpa [h2] using ih a List.mem_cons_self inner
    · by_cases hsys : isSystemName name = true
      · cases arguments <;> simp [hs, h2, hsys, Declarations.signs, D.functionSigned_system hsys]
      · cases arguments <;> simp [hs, h2, hsys, Declarations.signs, Decider.isWord]
  | ident | literal | string | concat | replicate | streaming | streamingBy | rangeSelect | partSelect | cast =>
    simp [semanticsSigned, deciders, Declarations.signs, Decider.isWord]

/-- Two tests of which one asks for more agree on a list when the first fails on a member or the other adds nothing. -/
theorem all_and_eq_all_iff {α : Type} (p q : α → Bool) (l : List α) :
    (l.all fun a => p a && q a) = l.all p ↔ (∃ a ∈ l, p a = false) ∨ ∀ a ∈ l, q a = true := by
  by_cases hp : l.all p = true
  · have hall := List.all_eq_true.mp hp
    have hnone : ¬ ∃ a ∈ l, p a = false := by
      rintro ⟨a, ha, hf⟩
      rw [hall a ha] at hf
      cases hf
    rw [hp, List.all_eq_true, or_iff_right hnone]
    apply forall₂_congr
    intro a ha
    rw [hall a ha, Bool.true_and]
  · have hsome : ∃ a ∈ l, p a = false := by simpa using hp
    refine iff_of_true ?_ (Or.inl hsome)
    obtain ⟨a, ha, hf⟩ := hsome
    rw [Bool.eq_false_iff.mpr hp, List.all_eq_false]
    refine ⟨a, ha, ?_⟩
    simp [hf]

/-- Two trees that differ by the order of two operands, or two arms, that both count. -/
inductive Swapped : Expr → Expr → Prop
  | binary {op : BinaryOp} (l r : Expr) (h : op.isBitwise = true ∨ op.isArithmetic = true) :
      Swapped (.binary op l r) (.binary op r l)
  | ternary (c t f : Expr) : Swapped (.ternary c t f) (.ternary c f t)

theorem Swapped.evaluatorSigned_eq {e e' : Expr} (h : Swapped e e') : evaluatorSigned D e = evaluatorSigned D e' := by
  cases h with
  | @binary op l r hop =>
    rw [evaluatorSigned, evaluatorSigned]
    split
    · rename_i hs
      cases op <;> simp_all [BinaryOp.isBitwise, BinaryOp.isArithmetic, BinaryOp.isShift]
    · rw [Bool.and_comm]
  | ternary c t f => rw [evaluatorSigned, evaluatorSigned, Bool.and_comm]

variable (D) in
/-- Some leaf that decides is unsigned, or no word of a memory decides from a right operand or a false arm. -/
def Declarations.Recorded (e : Expr) : Prop :=
  (∃ d ∈ deciders false e, D.signs d.2 = false) ∨ ∀ d ∈ deciders false e, d.1 = true → d.2.isWord = false

/-- The two analyses agree on an expression exactly when it is recorded; on such expressions the answer does not
depend on the order of two operands or arms. -/
theorem exprSigned_agrees_iff (D : Declarations) (e : Expr) :
    (D.semanticsSigned D.signedMemories e = evaluatorSigned D e ↔ D.Recorded e) ∧
      ∀ e', Swapped e e' → D.Recorded e → D.Recorded e' →
        D.semanticsSigned D.signedMemories e = D.semanticsSigned D.signedMemories e' := by
  have hiff : ∀ e, D.semanticsSigned D.signedMemories e = evaluatorSigned D e ↔ D.Recorded e := by
    intro e
    rw [show D.signedMemories = D.passed false from rfl, semanticsSigned_eq_all, evaluatorSigned_eq_all e false,
      all_and_eq_all_iff, Declarations.Recorded]
    refine or_congr_right (forall₂_congr fun d _ => ?_)
    cases d.1 <;> simp
  refine ⟨hiff e, fun e' hswap he he' => ?_⟩
  rw [(hiff e).mpr he, (hiff e').mpr he', hswap.evaluatorSigned_eq]

/-- A signed word added to a signed vector. -/
def wordSum : Expr := .binary .add (.bitSelect (.ident [] "mem") (.literal (Literal.decimal 0))) (.ident [] "a")

/-- The same sum with the word on the right. -/
def sumWord : Expr := .binary .add (.ident [] "a") (.bitSelect (.ident [] "mem") (.literal (Literal.decimal 0)))

/-- A signed vector `a` and a signed memory `mem`. -/
def Declarations.vectorAndMemory : Declarations where
  signed n := n == "a" || n == "mem"
  memories := ["mem"]
  function _ := none
  function_name _ _ h := nomatch h

theorem exprSigned_agrees_iff_wordSum :
    Swapped wordSum sumWord ∧
      (Declarations.vectorAndMemory.semanticsSigned Declarations.vectorAndMemory.signedMemories wordSum =
        evaluatorSigned Declarations.vectorAndMemory wordSum) :=
  ⟨Swapped.binary _ _ (Or.inr rfl),
    (exprSigned_agrees_iff Declarations.vectorAndMemory wordSum).1.mpr (Or.inr (by decide))⟩

/-- A word on the right of a signed sum makes the sum unsigned, on the left it does not. -/
theorem exprSigned_sumWord :
    Declarations.vectorAndMemory.semanticsSigned Declarations.vectorAndMemory.signedMemories sumWord = false ∧
      Declarations.vectorAndMemory.semanticsSigned Declarations.vectorAndMemory.signedMemories wordSum = true ∧
      evaluatorSigned Declarations.vectorAndMemory sumWord = true := by
  decide

end Veriforge

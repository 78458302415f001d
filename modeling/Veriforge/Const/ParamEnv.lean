import Veriforge.Const.Elaborate
import Veriforge.Passes

/-! # Parameter environments

`_build_param_env` (`sim/elaborate.py`): the defaults of a module's parameters are evaluated in passes, so that one may
name a parameter that is declared later. The module declares no functions. -/

namespace Veriforge.Const

open Passes

/-- A parameter of the module. -/
structure Parameter where
  name : String
  defaultValue : Option Expr

/-- `p.name[: dot + 1]` of the last dot, empty where there is none. -/
def scopePrefix (name : String) : String := String.ofList (name.toList.reverse.dropWhile (· ≠ '.')).reverse

/-- `local_env`: what has the prefix is known without it too. -/
def localEnv (scope : String) (env : String → Option ConstVal) (n : String) : Option ConstVal :=
  if scope = "" then env n else (env (scope ++ n)).or (env n)

/-- A module without functions. -/
def Elab.plain (spelled : List Digit → String) : Elab := ⟨spelled, fun _ _ _ => none, fun _ _ => none⟩

/-- The attempts to evaluate the defaults. -/
def paramPasses (spelled : List Digit → String) : Passes (String × Expr) String ConstVal where
  name := Prod.fst
  eval p env := evalConstExpr (.plain spelled) (localEnv (scopePrefix p.1) env) p.2

/-- `remaining = [p for p in module.parameters if p.default_value is not None]` -/
def remaining (params : List Parameter) : List (String × Expr) :=
  params.filterMap fun p => p.defaultValue.map (Prod.mk p.name)

/-- The environment after the passes, `seeds` being the enum members and the widths of types. -/
def evaluatedParams (spelled : List Digit → String) (seeds : String → Option ConstVal) (params : List Parameter) :
    String → Option ConstVal :=
  (paramPasses spelled).solve (remaining params) seeds

/-- `_build_param_env`, up to the widths of types that it enters after the parameters. -/
def buildParamEnv (spelled : List Digit → String) (seeds : String → Option ConstVal) (params : List Parameter)
    (overrides : String → Option ConstVal) (n : String) : Option ConstVal :=
  (overrides n).or (evaluatedParams spelled seeds params n)

/-! ## More names change no value -/

section

variable {spelled : List Digit → String} {env env' : String → Option ConstVal}

theorem stays_parts {ps : List Expr}
    (h : ∀ p ∈ ps, Stays (evalConstExpr (.plain spelled) env p) (evalConstExpr (.plain spelled) env' p)) (result : Nat) :
    Stays (evalConstExprParts (.plain spelled) env ps result) (evalConstExprParts (.plain spelled) env' ps result) := by
  induction ps generalizing result with
  | nil => exact .refl _
  | cons p ps ih =>
    rw [evalConstExprParts, evalConstExprParts]
    refine (h p List.mem_cons_self).bind fun v => (Stays.refl _).bind fun value => ?_
    have hwidth : elabPartWidth (.plain spelled) env p = elabPartWidth (.plain spelled) env' p := by cases p <;> rfl
    rw [hwidth]
    exact (Stays.refl _).bind fun w => ih (fun q hq => h q (List.mem_cons_of_mem _ hq)) _

theorem stays_args {ps : List Expr}
    (h : ∀ p ∈ ps, Stays (evalConstExpr (.plain spelled) env p) (evalConstExpr (.plain spelled) env' p)) :
    Stays (evalConstExprArgs (.plain spelled) env ps) (evalConstExprArgs (.plain spelled) env' ps) := by
  induction ps with
  | nil => exact .refl _
  | cons p ps ih =>
    rw [evalConstExprArgs, evalConstExprArgs]
    exact (h p List.mem_cons_self).bind fun v =>
      (ih fun q hq => h q (List.mem_cons_of_mem _ hq)).bind fun vs => .refl _

variable (henv : ∀ n, Stays (env n) (env' n))

include henv

theorem stays_system (f : String) (args : List Expr) {values values' : Option (List ConstVal)}
    (h : Stays values values') : Stays (elabSystem env f args values) (elabSystem env' f args values') := by
  unfold elabSystem
  split
  · cases values with
    | none => exact fun v hv => absurd hv (by simp)
    | some vs =>
      rw [h vs rfl]
      exact .refl _
  · split
    · split
      · exact henv _
      · exact .refl _
    · exact .refl _

/-- An expression that has a value keeps it when more names have. -/
theorem stays_evalConstExpr (e : Expr) :
    Stays (evalConstExpr (.plain spelled) env e) (evalConstExpr (.plain spelled) env' e) := by
  induction e with
  | ident _ n => exact henv n
  | literal _ | string _ | streaming _ _ | streamingBy _ _ _ _ | cast _ _ _ => exact .refl _
  | unary op e ih =>
    rw [evalConstExpr, evalConstExpr]
    exact ih.bind fun v => .refl _
  | binary op l r ihl ihr =>
    rw [evalConstExpr, evalConstExpr]
    exact ihl.bind fun a => ihr.bind fun b => .refl _
  | ternary c t f ihc iht ihf =>
    rw [evalConstExpr, evalConstExpr]
    refine ihc.bind fun v => ?_
    split
    · exact iht
    · exact ihf
  | concat b ps ih =>
    rw [evalConstExpr, evalConstExpr]
    split
    · cases ps with
      | nil => exact .refl _
      | cons p ps => exact ih p List.mem_cons_self
    · exact stays_parts ih 0
  | replicate c v ihc ihv =>
    rw [evalConstExpr, evalConstExpr]
    exact ihc.bind fun count => (Stays.refl _).bind fun n => ihv.bind fun value => .refl _
  | bitSelect t i iht ihi =>
    rw [evalConstExpr, evalConstExpr]
    exact iht.bind fun target => (Stays.refl _).bind fun a => ihi.bind fun index => .refl _
  | rangeSelect t m l iht ihm ihl =>
    rw [evalConstExpr, evalConstExpr]
    exact iht.bind fun base => (Stays.refl _).bind fun a => ihm.bind fun msb => (Stays.refl _).bind fun b =>
      ihl.bind fun lsb => .refl _
  | partSelect t b w d iht ihb ihw =>
    rw [evalConstExpr, evalConstExpr]
    exact iht.bind fun target => (Stays.refl _).bind fun a => ihb.bind fun base => (Stays.refl _).bind fun a' =>
      ihw.bind fun width => .refl _
  | call f as ih =>
    rw [evalConstExpr, evalConstExpr]
    split
    · exact stays_system henv f as (stays_args ih)
    · exact (stays_args ih).bind fun values => .refl _

end

/-! ## The order of declaration -/

section

variable (spelled : List Digit → String) {seeds : String → Option ConstVal} {params params' : List Parameter}

theorem names_remaining (params : List Parameter) :
    ((remaining params).map Prod.fst).Sublist (params.map Parameter.name) := by
  induction params with
  | nil => exact .slnil
  | cons p ps ih =>
    rw [remaining, List.filterMap_cons]
    cases p.defaultValue with
    | none => exact ih.cons _
    | some e => exact ih.cons_cons _

/-- A name that the passes may know. -/
def MayBeKnown (seeds : String → Option ConstVal) (params : List Parameter) (n : String) : Prop :=
  seeds n ≠ none ∨ n ∈ params.map Parameter.name

theorem stays_localEnv {scope : String} {env env' : String → Option ConstVal}
    (hscope : scope ≠ "" → ∀ n, MayBeKnown seeds params n → ¬MayBeKnown seeds params (scope ++ n))
    (h : ∀ n, Stays (env n) (env' n)) (hwithin : ∀ n, env' n ≠ none → MayBeKnown seeds params n) (n : String) :
    Stays (localEnv scope env n) (localEnv scope env' n) := by
  unfold localEnv
  by_cases hne : scope = ""
  · rw [if_pos hne, if_pos hne]
    exact h n
  · rw [if_neg hne, if_neg hne]
    intro v hv
    cases hlong : env (scope ++ n) with
    | some u =>
      rw [hlong] at hv
      rw [h _ u hlong]
      exact hv
    | none =>
      rw [hlong, Option.none_or] at hv
      -- the name is known outside, so that it is none of the scope's
      have hout := hscope hne n (hwithin n (by simp [h n v hv]))
      rw [not_not.mp (mt (hwithin (scope ++ n)) hout), Option.none_or]
      exact h n v hv

end

end Veriforge.Const

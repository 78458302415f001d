import Veriforge.Const.Elaborate
import Veriforge.Const.Operators

/-! # Two constant evaluators

`const_int` and `_eval_const_expr` on one expression. Where elaboration keeps the low 32 bits of a result, and where
a dotted name is bound beside the plain one, they may give different integers; nowhere else. -/

namespace Veriforge.Const

/-! ## Parity of the low bits -/

theorem parity_eq {n w : Nat} (h : n < 2 ^ w) : parity n = Value.countOnes n w % 2 := by
  rw [parity, ← Value.countOnes_of_lt (Literal.lt_two_pow_bitLength n) (le_max_right w _),
    Value.countOnes_of_lt h (le_max_left w _)]

theorem countOnes_add (n w u : Nat) :
    Value.countOnes n (w + u) = Value.countOnes n w + Value.countOnes (n >>> w) u := by
  induction u with
  | zero => rfl
  | succ u ih => rw [← Nat.add_assoc, Value.countOnes, ih, Value.countOnes, Nat.testBit_shiftRight, Nat.add_assoc]

theorem countOnes_mod (n w : Nat) : Value.countOnes (n % 2 ^ w) w = Value.countOnes n w := by
  have hle : ∀ u ≤ w, Value.countOnes (n % 2 ^ w) u = Value.countOnes n u := by
    intro u
    induction u with
    | zero => exact fun _ => rfl
    | succ u ih =>
      intro hu
      rw [Value.countOnes, Value.countOnes, ih (by omega), Nat.testBit_mod_two_pow, decide_eq_true (by omega),
        Bool.true_and]
  exact hle w le_rfl

/-- The parity of a number is that of its low bits and that of the others. -/
theorem parity_split (n w : Nat) : parity n = (parity (n % 2 ^ w) + parity (n / 2 ^ w)) % 2 := by
  have hhigh := Literal.lt_two_pow_bitLength (n / 2 ^ w)
  have hn : n < 2 ^ (w + Literal.bitLength (n / 2 ^ w)) := by
    rw [Nat.pow_add]
    exact (Nat.div_lt_iff_lt_mul (Nat.two_pow_pos w)).mp hhigh |>.trans_eq (Nat.mul_comm _ _)
  rw [parity_eq hn, countOnes_add, parity_eq (Nat.mod_lt n (Nat.two_pow_pos w)), countOnes_mod, parity_eq hhigh,
    Nat.shiftRight_eq_div_pow]
  omega

theorem parity_low_iff (n w : Nat) : parity (n % 2 ^ w) = parity n ↔ parity (n / 2 ^ w) = 0 := by
  have hlow : parity (n % 2 ^ w) < 2 := Nat.mod_lt _ (by decide)
  have hhigh : parity (n / 2 ^ w) < 2 := Nat.mod_lt _ (by decide)
  have hsplit := parity_split n w
  omega

/-! ## Operators -/

/-- The number is one of 32 bits without sign. -/
def Is32 (n : Int) : Prop := 0 ≤ n ∧ n < 2 ^ 32

theorem low32_eq_iff (n : Int) : low32 n = n ↔ Is32 n := by
  rw [low32, Is32]
  constructor
  · intro h
    rw [← h]
    exact ⟨Int.emod_nonneg _ (by norm_num), Int.emod_lt_of_pos _ (by norm_num)⟩
  · rintro ⟨h0, h1⟩
    exact Int.emod_eq_of_lt h0 h1

/-- The low 32 bits are enough for the result: it has no others, and those of a reduced operand above them have an
even number of ones. -/
def UnaryFits (op : UnaryOp) (v : Int) : Prop :=
  match op with
  | .bitNot => Is32 (Int.lnot v)
  | .redXor => parity (v.toNat / 2 ^ 32) = 0
  | _ => True

/-- The low 32 bits are enough for the result. -/
def BinaryFits (op : BinaryOp) (a b : Int) : Prop :=
  match op with
  | .bitXnor | .bitXnor' => Is32 (Int.lnot (a.xor b))
  | _ => True

theorem low32_toNat {v : Int} (h : 0 ≤ v) : (low32 v).toNat = v.toNat % 2 ^ 32 := by
  obtain ⟨n, rfl⟩ := Int.eq_ofNat_of_zero_le h
  rw [low32]
  norm_cast

theorem unary_agree_iff (op : UnaryOp) (v : Int) :
    (∀ a, constUnary op v = some a → elabUnaryInt op v = a) ↔ UnaryFits op v := by
  cases op
  case bitNot =>
    rw [UnaryFits, ← low32_eq_iff]
    exact ⟨fun h => h _ rfl, fun h a ha => by cases ha; exact h⟩
  case redXor =>
    rw [UnaryFits, constUnary]
    by_cases hv : 0 ≤ v
    · rw [if_pos hv, ← parity_low_iff, elabUnaryInt, low32_toNat hv]
      constructor
      · exact fun h => Int.ofNat_inj.mp (h _ rfl)
      · rintro h a ⟨⟩
        rw [h]
    · rw [if_neg hv, Int.toNat_of_nonpos (by omega)]
      exact ⟨fun _ => rfl, fun _ a ha => by cases ha⟩
  case redAnd | redNand | redXnor | redXnor' => exact ⟨fun _ => trivial, fun _ a ha => by cases ha⟩
  all_goals exact ⟨fun _ => trivial, fun _ a ha => by cases ha; rfl⟩

theorem binary_agree_iff (op : BinaryOp) (l r : Int) :
    (∀ a b, constBinary op l r = some a → elabBinaryInt op l r = some b → a = b) ↔ BinaryFits op l r := by
  cases op
  case bitXnor | bitXnor' =>
    rw [BinaryFits, ← low32_eq_iff]
    exact ⟨fun h => (h _ _ rfl rfl).symm, fun h a b ha hb => by cases ha; cases hb; exact h.symm⟩
  case div =>
    refine ⟨fun _ => trivial, fun _ a b ha hb => ?_⟩
    rw [elabBinaryInt] at hb
    split at hb
    · next h0 =>
      rw [constBinary, constDiv, if_pos h0] at ha
      cases ha
    · exact Option.some.inj (ha.symm.trans hb)
  case mod =>
    refine ⟨fun _ => trivial, fun _ a b ha hb => ?_⟩
    rw [elabBinaryInt] at hb
    split at hb
    · next h0 =>
      rw [constBinary, constMod, constDiv, if_pos h0] at ha
      cases ha
    · exact Option.some.inj (ha.symm.trans hb)
  case ashl | ashr | caseEq | caseNe => exact ⟨fun _ => trivial, fun _ a b _ hb => by cases hb⟩
  all_goals exact ⟨fun _ => trivial, fun _ a b ha hb => Option.some.inj (ha.symm.trans hb)⟩

/-! ## Expressions -/

/-- Literals, parameters, operators, `?:`, concatenations, replications and `$clog2`. -/
inductive Tree : Expr → Prop
  | ident (h n) : Tree (.ident h n)
  | literal (l) : Tree (.literal l)
  | unary (op) {e} : Tree e → Tree (.unary op e)
  | binary (op) {l r} : Tree l → Tree r → Tree (.binary op l r)
  | ternary {c t f} : Tree c → Tree t → Tree f → Tree (.ternary c t f)
  | concat (b) {ps} : (∀ p ∈ ps, Tree p) → Tree (.concat b ps)
  | replicate {c v} : Tree c → Tree v → Tree (.replicate c v)
  | clog2 {a} : Tree a → Tree (.call "$clog2" [a])

/-- The environment of elaboration. -/
def intEnv (env : String → Option Int) (n : String) : Option ConstVal := (env n).map .int

section

variable (X : Elab) (env : String → Option Int)

/-- The second expression is the first or is evaluated for it: a branch that is not taken is no part. -/
inductive Within : Expr → Expr → Prop
  | refl (e) : Within e e
  | operand {op e e'} : Within e e' → Within (.unary op e) e'
  | left {op l r e'} : Within l e' → Within (.binary op l r) e'
  | right {op l r e'} : Within r e' → Within (.binary op l r) e'
  | condition {c t f e'} : Within c e' → Within (.ternary c t f) e'
  | trueExpr {c t f e' v} : evalConst env c = some v → v ≠ 0 → Within t e' → Within (.ternary c t f) e'
  | falseExpr {c t f e'} : evalConst env c = some 0 → Within f e' → Within (.ternary c t f) e'
  | part {b ps p e'} : p ∈ ps → Within p e' → Within (.concat b ps) e'
  | count {c v e'} : Within c e' → Within (.replicate c v) e'
  | value {c v e'} : Within v e' → Within (.replicate c v) e'
  | argument {a e'} : Within a e' → Within (.call "$clog2" [a]) e'

/-- Both evaluators give the integer. -/
def Both (e : Expr) (v : Int) : Prop := evalConst env e = some v ∧ evalConstExpr X (intEnv env) e = some (.int v)

/-- Where both evaluators give an integer, it is the same one. -/
def Agree (e : Expr) : Prop :=
  ∀ a b, evalConst env e = some a → evalConstExpr X (intEnv env) e = some (.int b) → a = b

/-- What is computed at the root of the expression has no need of more than 32 bits where elaboration keeps these, and
its name is bound once. -/
def Alike : Expr → Prop
  | .ident h n => ∀ a b, env (identifierName h n) = some a → env n = some b → a = b
  | .unary op e => ∀ v, Both X env e v → UnaryFits op v
  | .binary op l r => ∀ a b, Both X env l a → Both X env r b → BinaryFits op a b
  | _ => True

end

/-- A signed literal with a width does not have its top bit set. -/
def SignBitClear (l : Literal) : Prop :=
  ∀ n w, l.value = .int n → l.width = some w → l.signed = true → w ≠ 0 → 0 ≤ n → n >>> (w - 1) = 0

section

variable {X : Elab} {env : String → Option Int} {e e' e'' : Expr}

theorem Within.trans (h : Within env e e') (h' : Within env e' e'') : Within env e e'' := by
  induction h with
  | refl e => exact h'
  | operand _ ih => exact .operand (ih h')
  | left _ ih => exact .left (ih h')
  | right _ ih => exact .right (ih h')
  | condition _ ih => exact .condition (ih h')
  | trueExpr hc hv _ ih => exact .trueExpr hc hv (ih h')
  | falseExpr hc _ ih => exact .falseExpr hc (ih h')
  | part hp _ ih => exact .part hp (ih h')
  | count _ ih => exact .count (ih h')
  | value _ ih => exact .value (ih h')
  | argument _ ih => exact .argument (ih h')

theorem Tree.within (h : Tree e) (hw : Within env e e') : Tree e' := by
  induction hw with
  | refl e => exact h
  | operand _ ih => cases h with | unary _ he => exact ih he
  | left _ ih => cases h with | binary _ hl hr => exact ih hl
  | right _ ih => cases h with | binary _ hl hr => exact ih hr
  | condition _ ih => cases h with | ternary hc ht hf => exact ih hc
  | trueExpr _ _ _ ih => cases h with | ternary hc ht hf => exact ih ht
  | falseExpr _ _ ih => cases h with | ternary hc ht hf => exact ih hf
  | part hp _ ih => cases h with | concat _ hps => exact ih (hps _ hp)
  | count _ ih => cases h with | replicate hc hv => exact ih hc
  | value _ ih => cases h with | replicate hc hv => exact ih hv
  | argument _ ih => cases h with | clog2 ha => exact ih ha

theorem literal_agree {l : Literal} {a : Int} (hl : SignBitClear l) (ha : constLiteral l = some a) :
    elabLiteral X l = .int a := by
  rw [constLiteral] at ha
  rw [elabLiteral]
  cases hvalue : l.value with
  | text digits =>
    rw [hvalue] at ha
    obtain ⟨n, hn, rfl⟩ := Option.map_eq_some_iff.mp ha
    dsimp only
    rw [hn]
    rfl
  | int n =>
    rw [hvalue] at ha
    dsimp only at ha ⊢
    cases hwidth : l.width with
    | none =>
      rw [hwidth] at ha
      cases ha
      rfl
    | some w =>
      rw [hwidth] at ha
      dsimp only at ha
      split at ha
      · next h => exact absurd (hl n w hvalue hwidth h.1 h.2.1 h.2.2.1) h.2.2.2
      · cases ha
        rfl

theorem partWidth_agree {p : Expr} {w u : Nat} (hw : constPartWidth p = some w)
    (hu : elabPartWidth X (intEnv env) p = some u) : w = u := by
  cases p
  case literal l => exact Option.some.inj (hw.symm.trans hu)
  case call f as => cases hw
  all_goals cases hu

theorem widths_agree {ps : List Expr} {w u : Nat} (hw : constPartWidths ps = some w)
    (hu : literalWidths ps = some u) : w = u := by
  induction ps generalizing w u with
  | nil =>
    cases hw
    cases hu
    rfl
  | cons p ps ih =>
    rw [constPartWidths] at hw
    rw [literalWidths] at hu
    obtain ⟨w₀, hw₀, hw⟩ := Option.bind_eq_some_iff.mp hw
    obtain ⟨w₁, hw₁, hw⟩ := Option.bind_eq_some_iff.mp hw
    obtain ⟨u₀, hu₀, hu⟩ := Option.bind_eq_some_iff.mp hu
    obtain ⟨u₁, hu₁, hu⟩ := Option.bind_eq_some_iff.mp hu
    cases hw
    cases hu
    rw [ih hw₁ hu₁]
    cases p
    case literal l => rw [Option.some.inj (hw₀.symm.trans hu₀)]
    all_goals cases hu₀

theorem valueWidth_agree {v : Expr} {w u : Nat} (hw : constPartWidth v = some w) (hu : elabValueWidth v = some u) :
    w = u := by
  cases v
  case literal l => exact Option.some.inj (hw.symm.trans hu)
  case concat b ps => exact widths_agree hw hu
  all_goals cases hu

/-- Where no part is unlike at its root, elaboration gives the integer that `const_int` gives, if it gives anything. -/
theorem evalConstExpr_of_alike (h : Tree e) (hlit : ∀ l, Within env e (.literal l) → SignBitClear l)
    (halike : ∀ e', Within env e e' → Alike X env e') {a : Int} {r : ConstVal} (ha : evalConst env e = some a)
    (hr : evalConstExpr X (intEnv env) e = some r) : r = .int a := by
  induction h generalizing a r with
  | ident h n =>
    rw [evalConst] at ha
    obtain ⟨b, hb, rfl⟩ := Option.map_eq_some_iff.mp (show (env n).map ConstVal.int = some r from hr)
    cases hdotted : env (identifierName h n) with
    | some a' =>
      rw [hdotted] at ha
      cases ha
      rw [halike _ (.refl _) a b hdotted hb]
    | none =>
      rw [hdotted] at ha
      cases hb.symm.trans ha
      rfl
  | literal l =>
    rw [evalConst] at ha
    cases hr
    exact literal_agree (hlit l (.refl _)) ha
  | @unary op e he ih =>
    obtain ⟨v, hv, ha⟩ := Option.bind_eq_some_iff.mp ha
    obtain ⟨r₀, hr₀, hr⟩ := Option.bind_eq_some_iff.mp hr
    obtain rfl := ih (fun l hl => hlit l hl.operand) (fun e' he' => halike e' he'.operand) hv hr₀
    have hfits : UnaryFits op v := halike _ (.refl _) v ⟨hv, hr₀⟩
    cases hr
    rw [(unary_agree_iff op v).mpr hfits a ha]
  | @binary op l r' hl hr' ihl ihr =>
    obtain ⟨x, hx, ha⟩ := Option.bind_eq_some_iff.mp ha
    obtain ⟨y, hy, ha⟩ := Option.bind_eq_some_iff.mp ha
    obtain ⟨x', hx', hr⟩ := Option.bind_eq_some_iff.mp hr
    obtain ⟨y', hy', hr⟩ := Option.bind_eq_some_iff.mp hr
    obtain rfl := ihl (fun l hl => hlit l hl.left) (fun e' he' => halike e' he'.left) hx hx'
    obtain rfl := ihr (fun l hl => hlit l hl.right) (fun e' he' => halike e' he'.right) hy hy'
    have hfits : BinaryFits op x y := halike _ (.refl _) x y ⟨hx, hx'⟩ ⟨hy, hy'⟩
    obtain ⟨b, hb, rfl⟩ := Option.map_eq_some_iff.mp hr
    rw [(binary_agree_iff op x y).mpr hfits a b ha hb]
  | @ternary c t f hc ht hf ihc iht ihf =>
    obtain ⟨v, hv, ha⟩ := Option.bind_eq_some_iff.mp ha
    obtain ⟨r₀, hr₀, hr⟩ := Option.bind_eq_some_iff.mp hr
    obtain rfl := ihc (fun l hl => hlit l hl.condition) (fun e' he' => halike e' he'.condition) hv hr₀
    by_cases h0 : v = 0
    · subst h0
      exact ihf (fun l hl => hlit l (.falseExpr hv hl)) (fun e' he' => halike e' (.falseExpr hv he')) ha hr
    · have htrue : (ConstVal.int v).truthy = true := decide_eq_true h0
      rw [if_pos h0] at ha
      rw [if_pos htrue] at hr
      exact iht (fun l hl => hlit l (.trueExpr hv h0 hl)) (fun e' he' => halike e' (.trueExpr hv h0 he')) ha hr
  | @concat b ps hps ih =>
    have hpart : ∀ p ∈ ps, ∀ {a r}, evalConst env p = some a → evalConstExpr X (intEnv env) p = some r → r = .int a :=
      fun p hp => ih p hp (fun l hl => hlit l (.part hp hl)) fun e' he' => halike e' (.part hp he')
    rw [evalConst] at ha
    rw [evalConstExpr] at hr
    split at ha
    · next hlen =>
      rw [if_pos hlen] at hr
      obtain ⟨p, rfl⟩ := List.length_eq_one_iff.mp hlen
      exact hpart p List.mem_cons_self ha hr
    · next hlen =>
      rw [if_neg hlen] at hr
      have hloop : ∀ qs : List Expr, (∀ q ∈ qs, q ∈ ps) → ∀ (acc : Nat) {a r},
          evalConstParts env qs acc = some a → evalConstExprParts X (intEnv env) qs acc = some r → r = .int a := by
        intro qs
        induction qs with
        | nil =>
          rintro - acc a r ⟨⟩ ⟨⟩
          rfl
        | cons q qs ihqs =>
          intro hmem acc a r ha hr
          rw [evalConstParts] at ha
          rw [evalConstExprParts] at hr
          obtain ⟨v, hv, ha⟩ := Option.bind_eq_some_iff.mp ha
          obtain ⟨w, hw, ha⟩ := Option.bind_eq_some_iff.mp ha
          obtain ⟨v', hv', hr⟩ := Option.bind_eq_some_iff.mp hr
          obtain ⟨n, hn, hr⟩ := Option.bind_eq_some_iff.mp hr
          obtain ⟨u, hu, hr⟩ := Option.bind_eq_some_iff.mp hr
          obtain rfl := hpart q (hmem q List.mem_cons_self) hv hv'
          cases hn
          rw [← partWidth_agree hw hu] at hr
          exact ihqs (fun q hq => hmem q (List.mem_cons_of_mem _ hq)) _ ha hr
      exact hloop ps (fun q hq => hq) 0 ha hr
  | @replicate c v hc hv ihc ihv =>
    rw [evalConst] at ha
    rw [evalConstExpr] at hr
    obtain ⟨n, hn, ha⟩ := Option.bind_eq_some_iff.mp ha
    obtain ⟨x, hx, ha⟩ := Option.bind_eq_some_iff.mp ha
    obtain ⟨w, hw, ha⟩ := Option.bind_eq_some_iff.mp ha
    obtain ⟨n₀, hn₀, hr⟩ := Option.bind_eq_some_iff.mp hr
    obtain ⟨n', hn', hr⟩ := Option.bind_eq_some_iff.mp hr
    obtain ⟨x₀, hx₀, hr⟩ := Option.bind_eq_some_iff.mp hr
    obtain ⟨x', hx', hr⟩ := Option.bind_eq_some_iff.mp hr
    obtain ⟨u, hu, hr⟩ := Option.bind_eq_some_iff.mp hr
    obtain rfl := ihc (fun l hl => hlit l hl.count) (fun e' he' => halike e' he'.count) hn hn₀
    obtain rfl := ihv (fun l hl => hlit l hl.value) (fun e' he' => halike e' he'.value) hx hx₀
    cases hn'
    cases hx'
    rw [← valueWidth_agree hw hu] at hr
    cases ha
    cases hr
    rfl
  | @clog2 x hx ih =>
    rw [evalConst, if_neg (by decide)] at ha
    rw [evalConstExpr, if_pos (by decide)] at hr
    obtain ⟨vs, hvs, ha⟩ := Option.bind_eq_some_iff.mp ha
    rw [evalConstArgs] at hvs
    obtain ⟨v, hv, hvs⟩ := Option.bind_eq_some_iff.mp hvs
    cases hvs
    have hargs : evalConstExprArgs X (intEnv env) [x] = (evalConstExpr X (intEnv env) x).map fun v => [v] := by
      rw [evalConstExprArgs]
      cases evalConstExpr X (intEnv env) x <;> rfl
    rw [hargs] at hr
    cases hv' : evalConstExpr X (intEnv env) x with
    | none =>
      rw [hv'] at hr
      cases hr
    | some v' =>
      obtain rfl := ih (fun l hl => hlit l hl.argument) (fun e' he' => halike e' he'.argument) hv hv'
      rw [hv'] at hr
      cases ha
      cases hr
      rfl

/-- What is unlike at the root of an expression is seen in its integers. -/
theorem alike_of_agree (h : Agree X env e) : Alike X env e := by
  cases e
  case ident hs n =>
    intro a b ha hb
    refine h a b ?_ ?_
    · rw [evalConst, ha]
      rfl
    · rw [evalConstExpr, intEnv, hb]
      rfl
  case unary op e =>
    rintro v ⟨hv, hv'⟩
    refine (unary_agree_iff op v).mp fun a ha => (h a _ ?_ ?_).symm
    · rw [evalConst, hv]
      exact ha
    · rw [evalConstExpr, hv']
      rfl
  case binary op l r =>
    rintro x y ⟨hx, hx'⟩ ⟨hy, hy'⟩
    refine (binary_agree_iff op x y).mp fun a b ha hb => h a b ?_ ?_
    · rw [evalConst, hx, hy]
      exact ha
    · rw [evalConstExpr, hx', hy']
      exact congrArg (Option.map ConstVal.int) hb
  all_goals exact trivial

/-- The two evaluators agree on an expression and on what is evaluated for it exactly where nothing evaluated has to
have more than the 32 bits that elaboration keeps, and no dotted name is bound to something else than the plain one. -/
theorem evaluators_agree_iff (X : Elab) (env : String → Option Int) (e : Expr) (h : Tree e)
    (hlit : ∀ l, Within env e (.literal l) → SignBitClear l) :
    (∀ e', Within env e e' → Agree X env e') ↔ ∀ e', Within env e e' → Alike X env e' := by
  constructor
  · exact fun hagree e' he' => alike_of_agree (hagree e' he')
  · intro halike e' he' a b ha hb
    have hint := evalConstExpr_of_alike (h.within he') (fun l hl => hlit l (he'.trans hl))
      (fun e'' he'' => halike e'' (he'.trans he'')) ha hb
    exact (ConstVal.int.inj hint).symm

end

/-- No user functions. -/
def noFunctions : Elab where
  spelled _ := ""
  call _ _ _ := none
  returnWidth _ _ := none

/-- `P` bound to `-1`. -/
def minusOne (n : String) : Option Int := if n = "P" then some (-1) else none

/-- `~P` is `0` for both where `P` is `-1`. -/
theorem evaluators_agree_minusOne :
    Agree noFunctions minusOne (.unary .bitNot (.ident [] "P")) ∧
      evalConst minusOne (.unary .bitNot (.ident [] "P")) = some 0 := by
  have hlit : ∀ l, Within minusOne (.unary .bitNot (.ident [] "P")) (.literal l) → SignBitClear l := by
    intro l hl
    cases hl with
    | operand h => cases h
  have halike : ∀ e', Within minusOne (.unary .bitNot (.ident [] "P")) e' → Alike noFunctions minusOne e' := by
    intro e' he'
    cases he' with
    | refl =>
        rintro v ⟨hv, -⟩
        obtain rfl : -1 = v := Option.some.inj ((show some (-1) = evalConst minusOne (.ident [] "P") from rfl).trans hv)
        exact ⟨by decide, by decide⟩
    | operand h =>
        cases h with
        | refl => exact fun a b ha hb => Option.some.inj (ha.symm.trans hb)
  exact ⟨(evaluators_agree_iff noFunctions minusOne _ (.unary _ (.ident _ _)) hlit).mpr halike _ (.refl _), rfl⟩

/-- `~0` is `-1` for `const_int` and `4294967295` for elaboration. -/
theorem evaluators_disagree :
    ¬ ∀ (env : String → Option Int) (e : Expr), Tree e → Agree noFunctions env e := by
  intro h
  have hagree := h (fun _ => none) (.unary .bitNot (.literal (.decimal 0))) (.unary _ (.literal _)) (-1) 4294967295
    rfl rfl
  exact absurd hagree (by decide)

end Veriforge.Const

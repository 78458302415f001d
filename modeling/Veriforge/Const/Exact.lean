import Veriforge.Const.Number
import Veriforge.Const.Operators
import Veriforge.Sim.ScopeWidth

/-! # Folding and evaluating a constant expression

A closed expression folds to an integer and evaluates to bits. The bits are those of the integer when every
operator that looks at more than residues sees operands that their widths and signedness hold. -/

namespace Veriforge.Const

open Value Exec Scope

/-! ## Closed expressions -/

mutual

/-- The expression is made of numbers, operators, `?:`, concatenations and `$clog2`. -/
def Closed : Expr → Prop
  | .literal l => l.Number
  | .unary _ e => Closed e
  | .binary _ l r => Closed l ∧ Closed r
  | .ternary c t f => Closed c ∧ Closed t ∧ Closed f
  | .concat _ ps => ps ≠ [] ∧ AllClosed ps
  | .call f as => f = "$clog2" ∧ as.length = 1 ∧ AllClosed as
  | _ => False

/-- Closed parts or arguments. -/
def AllClosed : List Expr → Prop
  | [] => True
  | e :: es => Closed e ∧ AllClosed es

end

variable (env : String → Option Int)

mutual

/-- The exact value of every sub-expression fits in 32-bit two's complement. -/
def InRange : Expr → Prop
  | .unary op e => InRange e ∧ ∀ v ∈ evalConst env (.unary op e), Fits true 32 v
  | .binary op l r =>
      InRange l ∧ InRange r ∧ ∀ a ∈ evalConst env l, ∀ b ∈ evalConst env r, ∀ v ∈ exactBinary op a b, Fits true 32 v
  | .ternary c t f => InRange c ∧ InRange t ∧ InRange f
  | .concat b ps => AllInRange ps ∧ ∀ v ∈ evalConst env (.concat b ps), Fits true 32 v
  | .call f as => AllInRange as ∧ ∀ v ∈ evalConst env (.call f as), Fits true 32 v
  | e => ∀ v ∈ evalConst env e, Fits true 32 v

/-- Parts or arguments in range. -/
def AllInRange : List Expr → Prop
  | [] => True
  | e :: es => InRange e ∧ AllInRange es

end

variable {T : SignalTable} (S : Scope T)

mutual

/-- Evaluated at a width and a signedness, every operator of the expression that looks at more than residues
sees operands that fit, and a literal or a concatenation that is extended fits the width it is extended from. -/
def Exact : Expr → Nat → Bool → Prop
  | .literal l, n, s => l.selfWidth < n → ∀ v ∈ constLiteral l, Fits s l.selfWidth v
  | .unary op e, n, s =>
      if op.contextDetermined then Exact e n s
      else
        Exact e (S.selfWidth e) (S.exprSigned e) ∧ ∀ a ∈ evalConst env e, OperandFits op (S.selfWidth e) a
  | .binary op l r, n, s =>
      let both := S.exprSigned l && S.exprSigned r
      let m := max (S.selfWidth l) (S.selfWidth r)
      if op.isLogical then
        Exact l (S.selfWidth l) (S.exprSigned l) ∧ ∀ a ∈ evalConst env l, |a| < 2 ^ S.selfWidth l ∧
            (¬ Decides op a → Exact r (S.selfWidth r) (S.exprSigned r) ∧
              ∀ b ∈ evalConst env r, |b| < 2 ^ S.selfWidth r)
      else if op.isComparison then
        Exact l m both ∧ Exact r m both ∧ ∀ a ∈ evalConst env l, ∀ b ∈ evalConst env r, OperandsFit op both s m m a b
      else if op.isShift || op == .pow then
        Exact l n s ∧ Exact r (S.selfWidth r) (S.exprSigned r) ∧
          ∀ a ∈ evalConst env l, ∀ b ∈ evalConst env r, OperandsFit op both s n (S.selfWidth r) a b
      else
        Exact l n s ∧ Exact r n s ∧ ∀ a ∈ evalConst env l, ∀ b ∈ evalConst env r, OperandsFit op both s n n a b
  | .ternary c t f, n, s =>
      Exact c (S.selfWidth c) (S.exprSigned c) ∧
        ∀ x ∈ evalConst env c, |x| < 2 ^ S.selfWidth c ∧ if x ≠ 0 then Exact t n s else Exact f n s
  | .concat _ ps, n, _ =>
      AllExact ps ∧ (ps.length = 1 → S.selfWidthSum ps < n →
        ∀ v ∈ evalConstHead env ps, Fits false (S.selfWidthSum ps) v)
  | .call _ as, _, _ => AllExact as ∧ ∀ v ∈ evalConstHead env as, Fits false (S.selfWidthSum as) v
  | _, _, _ => True

/-- Parts or arguments, each evaluated at its own width. -/
def AllExact : List Expr → Prop
  | [] => True
  | e :: es => Exact e (S.selfWidth e) (S.exprSigned e) ∧ AllExact es

end

variable {S env}

/-! ## What an evaluation denotes -/

/-- A value evaluated at a request of `n`, 0 when nothing is asked for, by an expression of `self` bits: the
encoding of `v`, on the larger of the two widths. A `$clog2` returned by `?:` keeps its 32 bits. -/
def Denotes (v : Int) (n self : Nat) (r : Value) : Prop :=
  r = ofInt v r.width ∧ (r.width = max n self ∨ r.width = 32 ∧ 32 < max n self ∧ (n = 0 ∨ 0 ≤ v))

section

variable {v : Int} {n self w : Nat} {r : Value}

theorem Denotes.of_width (h : w = max n self) : Denotes v n self (ofInt v w) :=
  ⟨rfl, .inl h⟩

theorem fits_of_nonneg {s : Bool} (h : Fits true 32 v) (h0 : 0 ≤ v) : Fits s 32 v := by
  cases s with
  | true => exact h
  | false =>
    rw [fits_true] at h
    exact fits_false.mpr ⟨h0, by omega⟩

theorem abs_lt_of_fits (h : Fits true 32 v) : |v| < 2 ^ 32 := by
  rw [fits_true] at h
  rw [abs_lt]
  omega

/-- A value asked for `n` bits extends to the encoding of its integer on `n` bits. -/
theorem Denotes.extendTo (h : Denotes v n self r) (hr : Fits true 32 v) (hn : 0 < n) (hle : self ≤ n) (s : Bool)
    (hne : r.width ≠ n) : Veriforge.extendTo s r n = some (ofInt v n) := by
  obtain ⟨heq, hw | ⟨hw, -, h0⟩⟩ := h
  · rw [Nat.max_eq_left hle] at hw
    exact absurd hw hne
  · rw [heq, hw]
    exact extendTo_ofInt (by decide) (fits_of_nonneg hr (h0.resolve_left hn.ne'))

theorem Denotes.eq_of_width (h : Denotes v n self r) (hw : r.width = n) : r = ofInt v n := by
  rw [← hw]
  exact h.1

theorem Denotes.widen (h : Denotes v n self r) (hr : Fits true 32 v) (hn : 0 < n) (hle : self ≤ n) (s : Bool) :
    Veriforge.widen s r n = some (ofInt v n) := by
  rw [Veriforge.widen]
  split
  · next hlt => exact h.extendTo hr hn hle s hlt.ne
  · next hlt =>
    obtain ⟨-, hw | ⟨hw, hbig, -⟩⟩ := id h
    · rw [h.eq_of_width (by omega)]
    · omega

theorem Denotes.align (h : Denotes v n self r) (hr : Fits true 32 v) (hn : 0 < n) (hle : self ≤ n) (s : Bool) :
    Veriforge.align s r n = some (ofInt v n) := by
  rw [Veriforge.align]
  split
  · next hne => exact h.extendTo hr hn hle s hne
  · next hw => rw [h.eq_of_width (not_not.mp hw)]

/-- A value evaluated at its own width, asked for or not, holds what that width holds. -/
theorem Denotes.abs_lt (h : Denotes v n self r) (hr : Fits true 32 v) (hn : n ≤ self) (habs : |v| < 2 ^ self) :
    |v| < 2 ^ r.width := by
  obtain ⟨-, hw | ⟨hw, -⟩⟩ := h
  · rwa [hw, Nat.max_eq_right hn]
  · rw [hw]
    exact abs_lt_of_fits hr

theorem Denotes.fits (h : Denotes v n self r) (hr : Fits true 32 v) (hn : n ≤ self) (hfit : Fits false self v) :
    Fits false r.width v := by
  obtain ⟨-, hw | ⟨hw, -⟩⟩ := h
  · rwa [hw, Nat.max_eq_right hn]
  · rw [hw]
    exact fits_of_nonneg hr (fits_false.mp hfit).1

/-- Asked for its own width, a value holds what that width holds in either reading. -/
theorem Denotes.fits_own {s : Bool} (h : Denotes v self self r) (hr : Fits true 32 v) (hself : 0 < self)
    (hfit : Fits s self v) : Fits s r.width v := by
  obtain ⟨-, hw | ⟨hw, -, h0⟩⟩ := h
  · rwa [hw, max_self]
  · rw [hw]
    exact fits_of_nonneg hr (h0.resolve_left hself.ne')

theorem Denotes.width_pos (h : Denotes v n self r) (hself : 0 < self) : 0 < r.width := by
  obtain ⟨-, hw | ⟨hw, -⟩⟩ := h
  · rw [hw]
    exact lt_of_lt_of_le hself (le_max_right _ _)
  · rw [hw]
    decide

end

/-! ## Facts about closed expressions -/

theorem allClosed_iff {es : List Expr} : AllClosed es ↔ ∀ e ∈ es, Closed e := by
  induction es with
  | nil => simp [AllClosed]
  | cons e es ih => simp [AllClosed, ih]

theorem systemFunction_clog2 : systemFunction "$clog2" = some .clog2 := by decide +kernel

theorem function_clog2 : S.function "$clog2" = none :=
  S.function_system _ (by rw [systemFunction_clog2]; exact Option.some_ne_none _)

theorem wellFormed_of_closed {e : Expr} (h : Closed e) : wellFormed e = true := by
  induction e with
  | literal l =>
    rw [Closed] at h
    rw [wellFormed, decide_eq_true_iff, h.evalLiteral_width]
  | unary op e ih =>
    rw [Closed] at h
    exact ih h
  | binary op l r ihl ihr =>
    rw [Closed] at h
    rw [wellFormed, ihl h.1, ihr h.2, Bool.and_self]
  | ternary c t f ihc iht ihf =>
    rw [Closed] at h
    rw [wellFormed, ihc h.1, iht h.2.1, ihf h.2.2, Bool.and_self, Bool.and_self]
  | concat b ps ih =>
    rw [Closed, allClosed_iff] at h
    rw [wellFormed, allWellFormed_iff.mpr fun p hp => ih p hp (h.2 p hp), Bool.and_true, Bool.not_eq_true',
      List.isEmpty_eq_false_iff]
    exact h.1
  | call f as ih =>
    rw [Closed, allClosed_iff] at h
    rw [wellFormed, allWellFormed_iff.mpr fun a ha => ih a ha (h.2.2 a ha)]
  | _ => exact absurd h (by simp [Closed])

theorem selfWidth_pos {e : Expr} (h : Closed e) : 0 < S.selfWidth e := by
  induction e with
  | literal l => exact l.selfWidth_pos
  | unary op e ih =>
    rw [Closed] at h
    rw [Scope.selfWidth]
    split
    · exact ih h
    · exact Nat.one_pos
  | binary op l r ihl ihr =>
    rw [Closed] at h
    have hl := ihl h.1
    rw [Scope.selfWidth_binary, resultWidth]
    split
    · exact Nat.one_pos
    split
    · exact hl
    · exact lt_of_lt_of_le hl (le_max_left _ _)
  | ternary c t f ihc iht ihf =>
    rw [Closed] at h
    rw [Scope.selfWidth]
    exact lt_of_lt_of_le (iht h.2.1) (le_max_left _ _)
  | concat b ps ih =>
    rw [Closed, allClosed_iff] at h
    rw [Scope.selfWidth]
    cases ps with
    | nil => exact absurd rfl h.1
    | cons p ps =>
      rw [Scope.selfWidthSum]
      exact Nat.add_pos_left (ih p List.mem_cons_self (h.2 p List.mem_cons_self)) _
  | call f as ih =>
    rw [Closed] at h
    rw [Scope.selfWidth, h.1, function_clog2]
    exact (by decide : 0 < 32)
  | _ => exact absurd h (by simp [Closed])

/-- The value of an expression in range fits 32 bits. -/
theorem InRange.fits {e : Expr} {v : Int} (h : InRange env e) (hv : evalConst env e = some v) : Fits true 32 v := by
  induction e generalizing v with
  | unary op e ih =>
    rw [InRange] at h
    exact h.2 v hv
  | binary op l r ihl ihr =>
    rw [InRange] at h
    rw [evalConst] at hv
    simp only [Option.bind_eq_bind, Option.bind_eq_some_iff] at hv
    obtain ⟨a, ha, b, hb, hv⟩ := hv
    exact h.2.2 a ha b hb v (exactBinary_eq hv (h.2.2 a ha b hb))
  | ternary c t f ihc iht ihf =>
    rw [InRange] at h
    rw [evalConst] at hv
    simp only [Option.bind_eq_bind, Option.bind_eq_some_iff] at hv
    obtain ⟨x, hx, hv⟩ := hv
    split at hv
    · exact iht h.2.1 hv
    · exact ihf h.2.2 hv
  | concat b ps ih =>
    rw [InRange] at h
    exact h.2 v hv
  | call f as ih =>
    rw [InRange] at h
    exact h.2 v hv
  | _ => exact h v hv

end Veriforge.Const

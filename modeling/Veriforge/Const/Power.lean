import Mathlib.Algebra.Order.Field.Power
import Mathlib.Data.Int.ModEq
import Mathlib.Data.Rat.Floor
import Veriforge.Const.Fold

/-! # The two integer powers

`_verilog_pow` of the simulator reduces modulo `2 ^ width`; `const_pow` of the constant folders has no width and keeps
`_FOLD_BITS` bits of a large power. Both are compared with the power itself. -/

namespace Veriforge.Const

open Value

/-- A rational number cut to an integer, toward zero. -/
def truncate (q : ℚ) : Int := if 0 ≤ q then ⌊q⌋ else ⌈q⌉

theorem truncate_intCast (n : Int) : truncate n = n := by
  unfold truncate
  split
  · exact Int.floor_intCast n
  · exact Int.ceil_intCast n

/-- A proper fraction is cut to zero. -/
theorem truncate_of_abs_lt_one {q : ℚ} (h : |q| < 1) : truncate q = 0 := by
  obtain ⟨hlow, hhigh⟩ := abs_lt.mp h
  unfold truncate
  split
  · next hq => exact Int.floor_eq_zero_iff.mpr ⟨hq, hhigh⟩
  · next hq =>
    refine Int.ceil_eq_zero_iff.mpr ⟨hlow, ?_⟩
    exact (not_le.mp hq).le

/-- A negative power of a base that is neither zero nor a unit is a proper fraction. -/
theorem abs_zpow_lt_one {base exp : Int} (hbase : 1 < |base|) (hexp : exp < 0) : |(base : ℚ) ^ exp| < 1 := by
  rw [abs_zpow]
  apply zpow_lt_one_of_neg₀ _ hexp
  rw [← Int.cast_abs]
  exact_mod_cast hbase

theorem truncate_neg_one_zpow (exp : Int) : truncate ((-1 : ℚ) ^ exp) = if exp % 2 ≠ 0 then -1 else 1 := by
  rcases Int.even_or_odd exp with heven | hodd
  · rw [heven.neg_one_zpow, if_neg (by simpa using Int.even_iff.mp heven)]
    exact_mod_cast truncate_intCast 1
  · rw [hodd.neg_one_zpow, if_pos (by rw [Int.odd_iff.mp hodd]; decide)]
    exact_mod_cast truncate_intCast (-1)

/-! ## Negative exponents -/

/-- Zero to a negative power, the one cell of the power operator's table without a value. -/
def PowUndefined (base exp : Int) : Prop := base = 0 ∧ exp < 0

/-- The row of the table for a negative exponent. -/
def negativePow (base exp : Int) : Option Int :=
  if base = 0 then none
  else if base = 1 then some 1
  else if base = -1 then some (if exp % 2 ≠ 0 then -1 else 1)
  else some 0

/-- The row holds the exact powers cut toward zero. -/
theorem negativePow_eq {base exp : Int} (hexp : exp < 0) :
    negativePow base exp = if base = 0 then none else some (truncate ((base : ℚ) ^ exp)) := by
  unfold negativePow
  by_cases hzero : base = 0
  · rw [if_pos hzero, if_pos hzero]
  rw [if_neg hzero, if_neg hzero]
  by_cases hone : base = 1
  · rw [if_pos hone, hone, Int.cast_one, one_zpow]
    exact congrArg some (by exact_mod_cast (truncate_intCast 1).symm)
  rw [if_neg hone]
  by_cases hneg : base = -1
  · rw [if_pos hneg, hneg, Int.cast_neg, Int.cast_one, truncate_neg_one_zpow]
  · have hbase : 1 < |base| := lt_abs.mpr (by omega)
    rw [if_neg hneg, truncate_of_abs_lt_one (abs_zpow_lt_one hbase hexp)]

theorem verilogPow_of_neg {base exp : Int} (hexp : exp < 0) (w : Nat) :
    verilogPow base exp w = negativePow base exp := by
  rw [verilogPow, if_neg hexp.ne, if_neg hexp.not_gt, negativePow]

theorem constPow_of_neg {base exp : Int} (hexp : exp < 0) : constPow base exp = negativePow base exp := by
  rw [constPow, if_pos hexp, negativePow]

/-! ## Other exponents -/

/-- Reducing on the way changes nothing modulo `2 ^ w`. -/
theorem verilogPow_of_nonneg {base exp : Int} (hexp : 0 ≤ exp) (w : Nat) :
    ∃ p, verilogPow base exp w = some p ∧ p ≡ base ^ exp.toNat [ZMOD 2 ^ w] := by
  unfold verilogPow
  by_cases hzero : exp = 0
  · refine ⟨1, if_pos hzero, ?_⟩
    rw [hzero, Int.toNat_zero, pow_zero]
  · rw [if_neg hzero, if_pos (by omega)]
    exact ⟨_, rfl, Int.mod_modEq _ _⟩

/-- `const_pow` keeps the low `w` bits: it reduces nothing, or no further than to `w` bits. -/
def KeepsBits (base exp : Int) (w : Nat) : Prop :=
  w ≤ foldBits ∨ base.natAbs ≤ 1 ∨ exp * Literal.bitLength base.natAbs ≤ foldBits

theorem constPow_of_nonneg {base exp : Int} (hexp : 0 ≤ exp) {w : Nat} (hkeeps : KeepsBits base exp w) :
    ∃ q, constPow base exp = some q ∧ q ≡ base ^ exp.toNat [ZMOD 2 ^ w] := by
  rw [constPow, if_neg hexp.not_gt]
  split
  · next hlarge =>
    -- the power is reduced, so the width is within the bits kept
    have hw : w ≤ foldBits := by
      rcases hkeeps with hw | hbase | hshort
      · exact hw
      · exact absurd hlarge.1 (by omega)
      · exact absurd hlarge.2 hshort.not_gt
    exact ⟨_, rfl, (Int.mod_modEq _ _).of_dvd (pow_dvd_pow 2 hw)⟩
  · exact ⟨_, rfl, rfl⟩

/-! ## Agreement -/

/-- Where each implementation has no result, what the results are, and that they agree on the bits both keep: on all
`w` bits up to the folders' limit or where nothing is reduced, and on the low `_FOLD_BITS` bits in any case. -/
theorem pow_agree (base exp : Int) (w : Nat) :
    (verilogPow base exp w = none ↔ PowUndefined base exp) ∧
      (constPow base exp = none ↔ PowUndefined base exp) ∧
      (∀ p, verilogPow base exp w = some p →
        (exp < 0 → p = truncate ((base : ℚ) ^ exp)) ∧ (0 ≤ exp → p ≡ base ^ exp.toNat [ZMOD 2 ^ w])) ∧
      (∀ q, constPow base exp = some q →
        (exp < 0 → q = truncate ((base : ℚ) ^ exp)) ∧
          (0 ≤ exp → ∀ n, KeepsBits base exp n → q ≡ base ^ exp.toNat [ZMOD 2 ^ n])) ∧
      ∀ p q, verilogPow base exp w = some p → constPow base exp = some q →
        ∀ n ≤ w, KeepsBits base exp n → p ≡ q [ZMOD 2 ^ n] := by
  rcases lt_or_ge exp 0 with hexp | hexp
  · have hnone : negativePow base exp = none ↔ PowUndefined base exp := by
      rw [negativePow_eq hexp, PowUndefined]
      by_cases hzero : base = 0 <;> simp [hzero, hexp]
    have hsome : ∀ p, negativePow base exp = some p → p = truncate ((base : ℚ) ^ exp) := fun p hp => by
      rw [negativePow_eq hexp] at hp
      split at hp
      · cases hp
      · exact (Option.some.inj hp).symm
    rw [verilogPow_of_neg hexp, constPow_of_neg hexp]
    refine ⟨hnone, hnone, fun p hp => ⟨fun _ => hsome p hp, fun h => absurd hexp h.not_gt⟩,
      fun q hq => ⟨fun _ => hsome q hq, fun h => absurd hexp h.not_gt⟩, fun p q hp hq n _ _ => ?_⟩
    rw [Option.some.inj (hp.symm.trans hq)]
  · obtain ⟨p, hp, hpow⟩ : ∃ p, verilogPow base exp w = some p ∧ p ≡ base ^ exp.toNat [ZMOD 2 ^ w] :=
      verilogPow_of_nonneg hexp w
    have hundefined : ¬PowUndefined base exp := fun h => absurd h.2 hexp.not_gt
    -- what `const_pow` returns does not depend on how many of its bits are looked at
    have hconst : ∀ q, constPow base exp = some q → ∀ n, KeepsBits base exp n → q ≡ base ^ exp.toNat [ZMOD 2 ^ n] :=
      fun q hq n hkeeps => by
        obtain ⟨q', hq', hmod⟩ := constPow_of_nonneg hexp hkeeps
        obtain rfl := Option.some.inj (hq'.symm.trans hq)
        exact hmod
    obtain ⟨q, hq, -⟩ : ∃ q, constPow base exp = some q ∧ q ≡ base ^ exp.toNat [ZMOD 2 ^ 0] :=
      constPow_of_nonneg hexp (Or.inl (Nat.zero_le _))
    rw [hp, hq]
    refine ⟨by simp [hundefined], by simp [hundefined], fun p' hp' => ?_, fun q' hq' => ?_,
      fun p' q' hp' hq' n hn hkeeps => ?_⟩
    · obtain rfl := Option.some.inj hp'
      exact ⟨fun h => absurd h hexp.not_gt, fun _ => hpow⟩
    · exact ⟨fun h => absurd h hexp.not_gt, fun _ => hconst q' (hq.trans hq')⟩
    · obtain rfl := Option.some.inj hp'
      exact (hpow.of_dvd (pow_dvd_pow 2 hn)).trans (hconst q' (hq.trans hq') n hkeeps).symm

/-- A result of more bits than the folders keep: `2 ** 65536` is folded to 0, and does not vanish in 65537 bits. -/
theorem constPow_drops_bits :
    verilogPow 2 (foldBits : Int) (foldBits + 1) = some (2 ^ foldBits) ∧ constPow 2 (foldBits : Int) = some 0 ∧
      ¬(2 ^ foldBits : Int) ≡ 0 [ZMOD 2 ^ (foldBits + 1)] := by
  have hpos : (0 : Int) < foldBits := by decide
  have hlt : (2 : Int) ^ foldBits < 2 ^ (foldBits + 1) := pow_lt_pow_right₀ (by norm_num) (Nat.lt_succ_self _)
  have hmod : (2 : Int) ^ foldBits % 2 ^ (foldBits + 1) = 2 ^ foldBits :=
    Int.emod_eq_of_lt (by positivity) hlt
  refine ⟨?_, ?_, ?_⟩
  · rw [verilogPow, if_neg hpos.ne', if_pos hpos, Int.toNat_natCast, hmod]
  · rw [constPow, if_neg hpos.not_gt, if_pos ⟨by decide, by decide⟩, Int.toNat_natCast, Int.emod_self]
  · rw [Int.ModEq, hmod, Int.zero_emod]
    positivity

end Veriforge.Const

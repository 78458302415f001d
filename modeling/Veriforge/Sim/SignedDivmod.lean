import Veriforge.Value.Encode
import Veriforge.Vm.ExprCode

/-! # Signed division and modulus

`_eval_signed_divmod` and the opcodes `SDIV` and `SMOD` against the truncating division of the integers. The
quotient passes through a double, so that the encodings are right for exactly the operands whose quotient is
not rounded to another integer. -/

namespace Veriforge

open Value

namespace TrueDiv

/-- The quotient with this magnitude. -/
def signedQuotient (a b : Int) (t : Nat) : Int := if (a < 0) = (b < 0) then (t : Int) else -(t : Int)

theorem intTrueDiv_eq {a b : Int} (hb : b ≠ 0) :
    intTrueDiv a b = (truncQuotient a.natAbs b.natAbs).map (signedQuotient a b) := by
  unfold intTrueDiv signedQuotient
  rw [if_neg hb]
  cases truncQuotient a.natAbs b.natAbs <;> rfl

theorem signedQuotient_inj {a b : Int} {t t' : Nat} (h : signedQuotient a b t = signedQuotient a b t') : t = t' := by
  unfold signedQuotient at h
  split at h <;> omega

/-- Division towards zero divides the magnitudes. -/
theorem tdiv_eq_signedQuotient (a b : Int) : a.tdiv b = signedQuotient a b (a.natAbs / b.natAbs) := by
  have hnat : ∀ n d : Nat, (n : Int).tdiv (d : Int) = ((n / d : Nat) : Int) := fun n d => rfl
  rcases lt_or_ge a 0 with ha | ha <;> rcases lt_or_ge b 0 with hb | hb
  · rw [signedQuotient, if_pos (by simp [ha, hb]), ← hnat, Int.ofNat_natAbs_of_nonpos ha.le,
      Int.ofNat_natAbs_of_nonpos hb.le, Int.neg_tdiv_neg]
  · rw [signedQuotient, if_neg (by simp [ha, hb]), ← hnat, Int.ofNat_natAbs_of_nonpos ha.le,
      Int.natAbs_of_nonneg hb, Int.neg_tdiv, neg_neg]
  · rw [signedQuotient, if_neg (by simp [ha, hb]), ← hnat, Int.natAbs_of_nonneg ha,
      Int.ofNat_natAbs_of_nonpos hb.le, Int.tdiv_neg, neg_neg]
  · rw [signedQuotient, if_pos (by simp [ha.not_gt, hb.not_gt]), ← hnat, Int.natAbs_of_nonneg ha,
      Int.natAbs_of_nonneg hb]

theorem intTrueDiv_eq_tdiv_iff {a b : Int} (hb : b ≠ 0) :
    intTrueDiv a b = some (a.tdiv b) ↔ Exact a.natAbs b.natAbs := by
  rw [intTrueDiv_eq hb, ← truncQuotient_eq_iff (Int.natAbs_pos.mpr hb), tdiv_eq_signedQuotient,
    Option.map_eq_some_iff]
  constructor
  · rintro ⟨t, ht, heq⟩
    rw [ht, signedQuotient_inj heq]
  · exact fun h => ⟨_, h, rfl⟩

/-- The quotient that Python computes, times the divisor, is as near as the operands are large. -/
theorem abs_mul_sub_le {a b q : Int} (hb : b ≠ 0) (hq : intTrueDiv a b = some q) :
    |b * (q - a.tdiv b)| ≤ max a.natAbs b.natAbs := by
  rw [intTrueDiv_eq hb, Option.map_eq_some_iff] at hq
  obtain ⟨t, ht, rfl⟩ := hq
  obtain ⟨hup, hdown⟩ := truncQuotient_near (Int.natAbs_pos.mpr hb) ht
  rw [tdiv_eq_signedQuotient, abs_mul, Int.abs_eq_natAbs b]
  have hsub : |signedQuotient a b t - signedQuotient a b (a.natAbs / b.natAbs)|
      = |(t : Int) - (a.natAbs / b.natAbs : Nat)| := by
    by_cases hs : (a < 0) = (b < 0)
    · rw [signedQuotient, signedQuotient, if_pos hs, if_pos hs]
    · rw [signedQuotient, signedQuotient, if_neg hs, if_neg hs, neg_sub_neg, abs_sub_comm]
  have hcast : (b.natAbs : Int) * |(t : Int) - (a.natAbs / b.natAbs : Nat)|
      = |((b.natAbs * t : Nat) : Int) - ((b.natAbs * (a.natAbs / b.natAbs) : Nat) : Int)| := by
    calc (b.natAbs : Int) * |(t : Int) - (a.natAbs / b.natAbs : Nat)|
        = |(b.natAbs : Int) * ((t : Int) - (a.natAbs / b.natAbs : Nat))| := by rw [abs_mul, Nat.abs_cast]
      _ = |((b.natAbs * t : Nat) : Int) - ((b.natAbs * (a.natAbs / b.natAbs) : Nat) : Int)| := by
          rw [mul_sub, Nat.cast_mul, Nat.cast_mul]
  rw [hsub, hcast, abs_le]
  omega

/-- Of two operands below half the modulus the remainder is right only with the exact quotient. -/
theorem eq_tdiv_of_emod_eq {a b q : Int} {m : Nat} (hb : b ≠ 0) (ha : a.natAbs ≤ 2 ^ m) (hb' : b.natAbs ≤ 2 ^ m)
    (hq : intTrueDiv a b = some q)
    (h : (a - b * q) % 2 ^ (m + 1) = (a - b * a.tdiv b) % 2 ^ (m + 1)) : q = a.tdiv b := by
  have hnear := abs_mul_sub_le hb hq
  have hmax : ((max a.natAbs b.natAbs : Nat) : Int) ≤ ((2 ^ m : Nat) : Int) := by
    exact_mod_cast max_le ha hb'
  have hpow : (2 : Int) ^ (m + 1) = 2 * ((2 ^ m : Nat) : Int) := by push_cast; ring
  have hpos : (0 : Int) < ((2 ^ m : Nat) : Int) := by positivity
  have heq : a - b * q = a - b * a.tdiv b := by
    refine eq_of_emod_eq h ?_
    have hdist : a - b * q - (a - b * a.tdiv b) = -(b * (q - a.tdiv b)) := by ring
    rw [hdist, abs_neg, hpow]
    push_cast at hnear hmax ⊢
    omega
  exact mul_left_cancel₀ hb (by linarith)

end TrueDiv

/-! ## Encodings -/

theorem mask_of_asSigned {v : Value} {n : Int} (h : v.asSigned = some n) : v.mask = 0 ∧ 0 < v.width := by
  unfold asSigned at h
  split at h
  · cases h
  · next hc => exact ⟨not_not.mp fun hm => hc (Or.inl hm), Nat.pos_of_ne_zero fun hw => hc (Or.inr hw)⟩

theorem val_ne_zero_of_asSigned {v : Value} {n : Int} (h : v.asSigned = some n) (hn : n ≠ 0) : v.val ≠ 0 := by
  intro hv
  obtain ⟨hm, hw⟩ := mask_of_asSigned h
  rw [asSigned, if_neg (by omega), if_neg (by simp [hv]), hv] at h
  cases h
  exact hn rfl

section

variable {w : Nat} {l r : Value} {a b : Int}

theorem evalSignedDivmod_eq (hl : l.width = w) (hr : r.width = w) (ha : l.asSigned = some a)
    (hb : r.asSigned = some b) (h0 : b ≠ 0) (op : BinaryOp) :
    evalSignedDivmod op l r = (TrueDiv.intTrueDiv a b).map fun q =>
      ofInt (if op == .div then q else a - b * q) w := by
  rw [evalSignedDivmod, if_neg (by simp [mask_of_asSigned ha, mask_of_asSigned hb]),
    if_neg (val_ne_zero_of_asSigned hb h0), ha, hb, hl, hr, max_self]
  simp only [Option.bind_eq_bind, Option.bind_some]
  cases TrueDiv.intTrueDiv a b with
  | none => rfl
  | some q =>
    rw [Option.bind_some, Option.map_some]
    split <;> rfl

/-- A quotient that a double takes to another integer leaves another residue. -/
theorem eq_tdiv_of_residue (hl : l.width = w) (hr : r.width = w) (ha : l.asSigned = some a)
    (hb : r.asSigned = some b) (h0 : b ≠ 0) {q : ℤ} (hq : TrueDiv.intTrueDiv a b = some q)
    (hmod : (a - b * q) % 2 ^ w = (a - b * a.tdiv b) % 2 ^ w) : q = a.tdiv b := by
  obtain ⟨m, rfl⟩ : ∃ m, w = m + 1 := ⟨w - 1, by have := (mask_of_asSigned ha).2; omega⟩
  have hale : a.natAbs ≤ 2 ^ m := by simpa [hl] using natAbs_asSigned_le ha
  have hble : b.natAbs ≤ 2 ^ m := by simpa [hr] using natAbs_asSigned_le hb
  exact TrueDiv.eq_tdiv_of_emod_eq h0 hale hble hq hmod

theorem evalSignedDivmod_div_iff (hl : l.width = w) (hr : r.width = w) (ha : l.asSigned = some a)
    (hb : r.asSigned = some b) (h0 : b ≠ 0) :
    evalSignedDivmod .div l r = some (ofInt (a.tdiv b) w) ↔ TrueDiv.Exact a.natAbs b.natAbs := by
  have hdiv : evalSignedDivmod .div l r = (TrueDiv.intTrueDiv a b).map fun q => ofInt q w :=
    evalSignedDivmod_eq hl hr ha hb h0 .div
  rw [hdiv, ← TrueDiv.intTrueDiv_eq_tdiv_iff h0]
  constructor
  · intro h
    obtain ⟨q, hq, heq⟩ := Option.map_eq_some_iff.mp h
    have hmod : (a - b * q) % 2 ^ w = (a - b * a.tdiv b) % 2 ^ w := by
      rw [Int.sub_emod, Int.mul_emod, ofInt_eq_iff.mp heq, ← Int.mul_emod, ← Int.sub_emod]
    rw [hq, eq_tdiv_of_residue hl hr ha hb h0 hq hmod]
  · intro h
    rw [h]
    rfl

theorem evalSignedDivmod_mod_iff (hl : l.width = w) (hr : r.width = w) (ha : l.asSigned = some a)
    (hb : r.asSigned = some b) (h0 : b ≠ 0) :
    evalSignedDivmod .mod l r = some (ofInt (a - b * a.tdiv b) w) ↔ TrueDiv.Exact a.natAbs b.natAbs := by
  have hmod : evalSignedDivmod .mod l r = (TrueDiv.intTrueDiv a b).map fun q => ofInt (a - b * q) w :=
    evalSignedDivmod_eq hl hr ha hb h0 .mod
  rw [hmod, ← TrueDiv.intTrueDiv_eq_tdiv_iff h0]
  constructor
  · intro h
    obtain ⟨q, hq, heq⟩ := Option.map_eq_some_iff.mp h
    rw [hq, eq_tdiv_of_residue hl hr ha hb h0 hq (ofInt_eq_iff.mp heq)]
  · intro h
    rw [h]
    rfl

/-- The evaluator and the machine return the encodings of the truncated quotient and of the remainder for exactly
the operands whose quotient a double does not take to another integer. -/
theorem signedDivmod_exact_iff (hl : l.width = w) (hr : r.width = w) (ha : l.asSigned = some a)
    (hb : r.asSigned = some b) (h0 : b ≠ 0) :
    (evalSignedDivmod .div l r = some (ofInt (a.tdiv b) w) ∧
      evalSignedDivmod .mod l r = some (ofInt (a - b * a.tdiv b) w) ∧
      Vm.sdiv l r = some (ofInt (a.tdiv b) w) ∧
      Vm.smod l r = some (ofInt (a - b * a.tdiv b) w)) ↔ TrueDiv.Exact a.natAbs b.natAbs := by
  rw [Vm.sdiv_eq (by omega), Vm.smod_eq (by omega), evalSignedDivmod_div_iff hl hr ha hb h0,
    evalSignedDivmod_mod_iff hl hr ha hb h0]
  exact ⟨fun h => h.1, fun h => ⟨h, h, h, h⟩⟩

/-- The most negative value of 8 bits divided by -1. -/
theorem signedDivmod_exact_iff_overflow :
    (evalSignedDivmod .div (ofInt (-128) 8) (ofInt (-1) 8) = some (ofInt ((-128 : Int).tdiv (-1)) 8) ∧
      evalSignedDivmod .mod (ofInt (-128) 8) (ofInt (-1) 8) = some (ofInt (-128 - -1 * (-128 : Int).tdiv (-1)) 8) ∧
      Vm.sdiv (ofInt (-128) 8) (ofInt (-1) 8) = some (ofInt ((-128 : Int).tdiv (-1)) 8) ∧
      Vm.smod (ofInt (-128) 8) (ofInt (-1) 8) = some (ofInt (-128 - -1 * (-128 : Int).tdiv (-1)) 8)) ↔
      TrueDiv.Exact 128 1 :=
  signedDivmod_exact_iff rfl rfl rfl rfl (by decide)

/-- `2 ^ 53 + 1` divided by 1 on 64 bits: the quotient is `2 ^ 53`, the remainder 1. -/
theorem signedDivmod_inexact :
    evalSignedDivmod .div (ofInt (2 ^ 53 + 1) 64) (ofInt 1 64) ≠ some (ofInt ((2 ^ 53 + 1 : Int).tdiv 1) 64) ∧
      Vm.smod (ofInt (2 ^ 53 + 1) 64) (ofInt 1 64) ≠
        some (ofInt (2 ^ 53 + 1 - 1 * (2 ^ 53 + 1 : Int).tdiv 1) 64) := by
  decide +kernel

end

end Veriforge

import Mathlib.Data.Int.ModEq
import Mathlib.Algebra.Ring.Parity
import Veriforge.Sim.Reach
import Veriforge.Sim.SignedDivmod

/-! # Division, modulus and power in a context

The operands of `/ % **` are extended with the signedness of the context, but `eval` and the compiler choose the
signed operator wherever the operands' own types are signed. In an unsigned context the two can differ as soon as
an operand has its top bit set. -/

namespace Veriforge

open Value

/-! ## Two readings of the bits -/

theorem emod_eq_iff {x y p : Int} (hlow : -p < y - x) (hhigh : y - x < 2 * p) :
    x % p = y % p ↔ y = x ∨ y = x + p := by
  constructor
  · intro h
    obtain ⟨k, hk⟩ := Int.dvd_of_emod_eq_zero (Int.emod_eq_emod_iff_emod_sub_eq_zero.mp h.symm)
    have hp : 0 < p := by linarith
    have hk0 : -1 < k := by nlinarith
    have hk2 : k < 2 := by nlinarith
    obtain rfl | rfl : k = 0 ∨ k = 1 := by omega
    · exact Or.inl (by linarith)
    · exact Or.inr (by linarith)
  · rintro (rfl | rfl)
    · rfl
    · rw [Int.add_emod_right]

/-- The bits of an operand against their two's complement reading, `h` being half the modulus. -/
def Reads (h : Nat) (m : Int) (u : Nat) : Prop := (0 ≤ m ∧ m < h ∧ (u : Int) = m) ∨ (m < 0 ∧ -(h : Int) ≤ m ∧ (u : Int) = m + 2 * h)

variable {h u v : Nat} {m n : Int}

theorem Reads.nonneg (hm : Reads h m u) (h0 : 0 ≤ m) : m = u ∧ u < h := by
  rcases hm with ⟨-, hlt, hu⟩ | ⟨hneg, -, -⟩ <;> omega

theorem Reads.neg (hm : Reads h m u) (h0 : m < 0) : ∃ l : Nat, m = -(l : Int) ∧ 0 < l ∧ l ≤ h ∧ u = 2 * h - l := by
  rcases hm with ⟨hpos, -, -⟩ | ⟨-, hge, hu⟩
  · omega
  · exact ⟨(-m).toNat, by omega, by omega, by omega, by omega⟩

/-- The truncated quotient has the bits of the unsigned one. -/
theorem tdiv_emod_eq_iff (hm : Reads h m u) (hn : Reads h n v) (h0 : n ≠ 0) :
    m.tdiv n % (2 * h) = ((u / v : Nat) : Int) % (2 * h) ↔
      (0 ≤ m ∧ 0 ≤ n) ∨ (m < 0 ∧ n = 1) ∨ (0 ≤ m ∧ n < 0 ∧ m < -n) ∨ (m < 0 ∧ m = n) := by
  have hnat : ∀ a d : Nat, (a : Int).tdiv (d : Int) = ((a / d : Nat) : Int) := fun a d => rfl
  rcases lt_or_ge m 0 with hm0 | hm0 <;> rcases lt_or_ge n 0 with hn0 | hn0
  · obtain ⟨l, rfl, hl, hlh, rfl⟩ := hm.neg hm0
    obtain ⟨r, rfl, hr, hrh, rfl⟩ := hn.neg hn0
    rw [Int.neg_tdiv_neg, hnat]
    have hq : l / r ≤ l := Nat.div_le_self l r
    have hu : (2 * h - l) / (2 * h - r) ≤ 2 * h - l := Nat.div_le_self _ _
    -- the larger magnitude is the smaller bit pattern
    have hcases : (2 * h - l) / (2 * h - r) = l / r ↔ l = r := by
      rcases lt_trichotomy l r with hlt | rfl | hgt
      · have h1 : (2 * h - l) / (2 * h - r) = 1 := Nat.div_eq_of_lt_le (by omega) (by omega)
        have h2 : l / r = 0 := Nat.div_eq_of_lt hlt
        omega
      · rw [Nat.div_self hl, Nat.div_self (by omega)]
        simp
      · have h1 : (2 * h - l) / (2 * h - r) = 0 := Nat.div_eq_of_lt (by omega)
        have h2 : 0 < l / r := Nat.div_pos hgt.le hr
        omega
    generalize (2 * h - l) / (2 * h - r) = e at *
    generalize l / r = q at *
    rw [emod_eq_iff (by omega) (by omega)]
    omega
  · obtain ⟨l, rfl, hl, hlh, rfl⟩ := hm.neg hm0
    obtain ⟨rfl, hvh⟩ := hn.nonneg hn0
    have hv : 0 < v := by omega
    rw [Int.neg_tdiv, hnat]
    have hq : l / v ≤ l := Nat.div_le_self l v
    have hu : (2 * h - l) / v ≤ 2 * h - l := Nat.div_le_self _ _
    have hpos : 0 < (2 * h - l) / v := Nat.div_pos (by omega) hv
    have hcases : (2 * h - l) / v + l / v = 2 * h ↔ v = 1 := by
      constructor
      · intro hsum
        have h1 := Nat.mul_div_le (2 * h - l) v
        have h2 := Nat.mul_div_le l v
        have h3 : v * (2 * h) ≤ 1 * (2 * h) := by
          rw [← hsum, Nat.mul_add]
          omega
        have h4 := Nat.le_of_mul_le_mul_right h3 (by omega)
        omega
      · rintro rfl
        simp
        omega
    generalize (2 * h - l) / v = e at *
    generalize l / v = q at *
    rw [emod_eq_iff (by omega) (by omega)]
    omega
  · obtain ⟨rfl, huh⟩ := hm.nonneg hm0
    obtain ⟨r, rfl, hr, hrh, rfl⟩ := hn.neg hn0
    rw [Int.tdiv_neg, hnat, Nat.div_eq_of_lt (show u < 2 * h - r by omega)]
    have hq : u / r ≤ u := Nat.div_le_self u r
    have hcases : u / r = 0 ↔ u < r := by
      rw [Nat.div_eq_zero_iff]
      omega
    generalize u / r = q at *
    rw [emod_eq_iff (by omega) (by omega)]
    omega
  · obtain ⟨rfl, huh⟩ := hm.nonneg hm0
    obtain ⟨rfl, hvh⟩ := hn.nonneg hn0
    rw [hnat]
    exact iff_of_true rfl (Or.inl ⟨hm0, hn0⟩)

/-- The remainder of the truncated quotient has the bits of the unsigned one. -/
theorem tmod_emod_eq_iff (hm : Reads h m u) (hn : Reads h n v) (h0 : n ≠ 0) :
    (m - n * m.tdiv n) % (2 * h) = ((u % v : Nat) : Int) % (2 * h) ↔
      (0 ≤ m ∧ 0 ≤ n) ∨ (m < 0 ∧ 0 < n ∧ n ∣ m ∧ n ∣ 2 * h) ∨ (0 ≤ m ∧ n < 0 ∧ m < -n) ∨ (m < 0 ∧ m = n) := by
  have hnat : ∀ a d : Nat, (a : Int).tmod (d : Int) = ((a % d : Nat) : Int) := fun a d => rfl
  have htmod : m - n * m.tdiv n = m.tmod n := by
    have := Int.mul_tdiv_add_tmod m n
    omega
  rw [htmod]
  rcases lt_or_ge m 0 with hm0 | hm0 <;> rcases lt_or_ge n 0 with hn0 | hn0
  · obtain ⟨l, rfl, hl, hlh, rfl⟩ := hm.neg hm0
    obtain ⟨r, rfl, hr, hrh, rfl⟩ := hn.neg hn0
    rw [Int.neg_tmod, Int.tmod_neg, hnat]
    have hq : l % r < r := Nat.mod_lt l hr
    have hql : l % r ≤ l := Nat.mod_le l r
    have hu : (2 * h - l) % (2 * h - r) ≤ 2 * h - l := Nat.mod_le _ _
    have hcases : ((2 * h - l) % (2 * h - r) + l % r = 0 ∨ (2 * h - l) % (2 * h - r) + l % r = 2 * h) ↔ l = r := by
      rcases lt_trichotomy l r with hlt | rfl | hgt
      · have h1 : (2 * h - l) % (2 * h - r) = r - l := by
          rw [Nat.mod_eq_sub_mod (by omega), Nat.mod_eq_of_lt (by omega)]
          omega
        have h2 : l % r = l := Nat.mod_eq_of_lt hlt
        omega
      · rw [Nat.mod_self, Nat.mod_self]
        simp
      · have h1 : (2 * h - l) % (2 * h - r) = 2 * h - l := Nat.mod_eq_of_lt (by omega)
        omega
    generalize (2 * h - l) % (2 * h - r) = e at *
    generalize l % r = q at *
    rw [emod_eq_iff (by omega) (by omega)]
    omega
  · obtain ⟨l, rfl, hl, hlh, rfl⟩ := hm.neg hm0
    obtain ⟨rfl, hvh⟩ := hn.nonneg hn0
    have hv : 0 < v := by omega
    rw [Int.neg_tmod, hnat]
    have hq : l % v < v := Nat.mod_lt l hv
    have hu : (2 * h - l) % v < v := Nat.mod_lt _ hv
    have hdvd : ((v : Int) ∣ -(l : Int) ∧ (v : Int) ∣ 2 * (h : Int)) ↔ l % v = 0 ∧ (2 * h - l) % v = 0 := by
      rw [Int.dvd_neg, Int.natCast_dvd_natCast, show (2 * (h : Int)) = ((2 * h : Nat) : Int) by push_cast; rfl,
        Int.natCast_dvd_natCast, ← Nat.dvd_iff_mod_eq_zero, ← Nat.dvd_iff_mod_eq_zero]
      refine and_congr_right fun hdl => ?_
      exact (Nat.dvd_sub_iff_left (by omega) hdl).symm
    rw [hdvd]
    generalize (2 * h - l) % v = e at *
    generalize l % v = q at *
    rw [emod_eq_iff (by omega) (by omega)]
    omega
  · obtain ⟨rfl, huh⟩ := hm.nonneg hm0
    obtain ⟨r, rfl, hr, hrh, rfl⟩ := hn.neg hn0
    rw [Int.tmod_neg, hnat, Nat.mod_eq_of_lt (show u < 2 * h - r by omega)]
    have hq : u % r ≤ u := Nat.mod_le u r
    have hlt : u % r < r := Nat.mod_lt u hr
    have hcases : u % r = u ↔ u < r := ⟨fun h => by omega, Nat.mod_eq_of_lt⟩
    generalize u % r = q at *
    rw [emod_eq_iff (by omega) (by omega)]
    omega
  · obtain ⟨rfl, huh⟩ := hm.nonneg hm0
    obtain ⟨rfl, hvh⟩ := hn.nonneg hn0
    rw [hnat]
    exact iff_of_true rfl (Or.inl ⟨hm0, hn0⟩)

theorem Reads.emod_eq {k : Nat} (hm : Reads (2 ^ k) m u) : (u : Int) % 2 ^ (k + 1) = m % 2 ^ (k + 1) := by
  rcases hm with ⟨-, -, hu⟩ | ⟨-, -, hu⟩
  · rw [hu]
  · rw [hu, pow_succ']
    push_cast
    exact Int.add_emod_right _ _

theorem Reads.pow_emod_eq {k : Nat} (hm : Reads (2 ^ k) m u) (e : Nat) :
    ((u ^ e : Nat) : Int) % 2 ^ (k + 1) = m ^ e % 2 ^ (k + 1) := by
  rw [Nat.cast_pow]
  exact Int.ModEq.pow e hm.emod_eq

theorem ofInt_ne_x {w : Nat} (hw : 0 < w) (i : Int) : x w ≠ ofInt i w := by
  intro h
  have hmask := congrArg Value.mask h
  rw [x_mask, ofInt_mask, maskForWidth] at hmask
  have : 2 ≤ 2 ^ w := Nat.pow_le_pow_right (by norm_num : 0 < 2) hw
  omega

/-- The power of the two's complement readings has the bits of the unsigned one. -/
theorem ofPow_eq_iff {k j : Nat} (hm : Reads (2 ^ k) m u) (hn : Reads (2 ^ j) n v) :
    ofPow (verilogPow m n (k + 1)) (k + 1) = ofInt ((u ^ v : Nat) : Int) (k + 1) ↔
      0 ≤ n ∨ m = 1 ∨ m = -1 ∨ (m ≠ 0 ∧ 2 ^ (k + 1) ∣ u ^ v) := by
  have hcongr := hm.pow_emod_eq v
  rcases lt_or_ge n 0 with hn0 | hn0
  · obtain ⟨l, rfl, hl, hlh, hv⟩ := hn.neg hn0
    rw [verilogPow, if_neg (by omega), if_neg (by omega)]
    by_cases h0 : m = 0
    · rw [if_pos h0]
      exact iff_of_false (ofInt_ne_x (Nat.succ_pos k) _) (by omega)
    rw [if_neg h0]
    by_cases h1 : m = 1
    · rw [if_pos h1]
      refine iff_of_true ?_ (Or.inr (Or.inl h1))
      rw [ofPow, ofInt_eq_iff, hcongr, h1, one_pow]
    rw [if_neg h1]
    by_cases h2 : m = -1
    · rw [if_pos h2]
      refine iff_of_true ?_ (Or.inr (Or.inr (Or.inl h2)))
      rw [ofPow, ofInt_eq_iff, hcongr, h2]
      -- the exponent's bits have its parity
      rcases Nat.even_or_odd v with hve | hvo
      · rw [hve.neg_one_pow, if_neg]
        obtain ⟨c, hc⟩ := hve
        omega
      · rw [hvo.neg_one_pow, if_pos]
        obtain ⟨c, hc⟩ := hvo
        omega
    · rw [if_neg h2, ofPow, ofInt_eq_iff]
      have hdvd : (0 : Int) % 2 ^ (k + 1) = ((u ^ v : Nat) : Int) % 2 ^ (k + 1) ↔ 2 ^ (k + 1) ∣ u ^ v := by
        rw [Int.zero_emod, eq_comm, ← Int.dvd_iff_emod_eq_zero]
        exact_mod_cast Iff.rfl
      rw [hdvd]
      constructor
      · exact fun h => Or.inr (Or.inr (Or.inr ⟨h0, h⟩))
      · rintro (h | h | h | ⟨-, h⟩)
        · omega
        · exact absurd h h1
        · exact absurd h h2
        · exact h
  · obtain ⟨rfl, -⟩ := hn.nonneg hn0
    refine iff_of_true ?_ (Or.inl hn0)
    rw [verilogPow]
    by_cases h0 : (v : Int) = 0
    · rw [if_pos h0, ofPow, ofInt_eq_iff, hcongr, show v = 0 by omega, pow_zero]
    · rw [if_neg h0, if_pos (by omega), ofPow, ofInt_eq_iff, hcongr, Int.toNat_natCast, Int.emod_emod]

/-! ## What the operators should compute -/

/-- The truncating two's complement result of `w` bits. -/
def signedResult (op : BinaryOp) (w : Nat) (m n : Int) : Value :=
  match op with
  | .div => if n = 0 then x w else ofInt (m.tdiv n) w
  | .mod => if n = 0 then x w else ofInt (m - n * m.tdiv n) w
  | _ =>
      if 0 ≤ n then ofInt (m ^ n.toNat) w
      else if m = 0 then x w
      else ofInt ((1 : Int).tdiv (m ^ (-n).toNat)) w

/-- The unsigned result of `w` bits. -/
def unsignedResult (op : BinaryOp) (w u v : Nat) : Value :=
  match op with
  | .div => if v = 0 then x w else ofInt (u / v : Nat) w
  | .mod => if v = 0 then x w else ofInt (u % v : Nat) w
  | _ => ofInt (u ^ v : Nat) w

/-- The result in a signed or an unsigned context, for operands with the bits `u` and `v` that read `m` and `n` in
two's complement. -/
def contextResult (op : BinaryOp) (s : Bool) (w : Nat) (m n : Int) (u v : Nat) : Value :=
  if s then signedResult op w m n else unsignedResult op w u v

/-- The operands on which the signed operator has the result of the context: a quotient is not rounded, and in an
unsigned context no operand's top bit changes the result. -/
def ContextAgrees (op : BinaryOp) (s : Bool) (w : Nat) (m n : Int) (u v : Nat) : Prop :=
  match op, s with
  | .div, true | .mod, true => n = 0 ∨ TrueDiv.Exact m.natAbs n.natAbs
  | .div, false =>
      n = 0 ∨ TrueDiv.Exact m.natAbs n.natAbs ∧
        ((0 ≤ m ∧ 0 ≤ n) ∨ (m < 0 ∧ n = 1) ∨ (0 ≤ m ∧ n < 0 ∧ m < -n) ∨ (m < 0 ∧ m = n))
  | .mod, false =>
      n = 0 ∨ TrueDiv.Exact m.natAbs n.natAbs ∧
        ((0 ≤ m ∧ 0 ≤ n) ∨ (m < 0 ∧ 0 < n ∧ n ∣ m ∧ n ∣ 2 ^ w) ∨ (0 ≤ m ∧ n < 0 ∧ m < -n) ∨ (m < 0 ∧ m = n))
  | _, true => True
  | _, false => 0 ≤ n ∨ m = 1 ∨ m = -1 ∨ (m ≠ 0 ∧ 2 ^ w ∣ u ^ v)

/-- A reciprocal truncates to zero except for the two units. -/
theorem ofPow_eq_signedResult (m n : Int) (w : Nat) : ofPow (verilogPow m n w) w = signedResult .pow w m n := by
  unfold verilogPow signedResult
  dsimp only
  rcases lt_trichotomy n 0 with hn | rfl | hn
  · rw [if_neg hn.ne, if_neg hn.not_gt, if_neg hn.not_ge]
    by_cases h0 : m = 0
    · rw [if_pos h0, if_pos h0, ofPow]
    rw [if_neg h0, if_neg h0]
    by_cases h1 : m = 1
    · rw [if_pos h1, h1, one_pow]
      rfl
    rw [if_neg h1]
    by_cases h2 : m = -1
    · rw [if_pos h2, h2]
      rcases Nat.even_or_odd (-n).toNat with he | ho
      · rw [he.neg_one_pow, if_neg]
        · rfl
        · obtain ⟨c, hc⟩ := he
          omega
      · rw [ho.neg_one_pow, if_pos]
        · rfl
        · obtain ⟨c, hc⟩ := ho
          omega
    · rw [if_neg h2, ofPow]
      have hlarge : 1 < (m ^ (-n).toNat).natAbs := by
        rw [Int.natAbs_pow]
        exact Nat.one_lt_pow (by omega) (by omega)
      rw [TrueDiv.tdiv_eq_signedQuotient, Int.natAbs_one, Nat.div_eq_of_lt hlarge, TrueDiv.signedQuotient]
      split <;> rfl
  · rw [if_pos rfl, if_pos le_rfl, Int.toNat_zero, pow_zero]
    rfl
  · rw [if_neg hn.ne', if_pos hn, if_pos hn.le, ofPow]
    exact ofInt_congr (Int.emod_emod _ _)

/-! ## The operators -/

theorem evalSignedPow_eq {a b : Value} {m n : Int} (hm : a.asSigned = some m) (hn : b.asSigned = some n) :
    evalSignedPow a b = some (signedResult .pow a.width m n) := by
  rw [evalSignedPow, if_neg (by simp [mask_of_asSigned hm, mask_of_asSigned hn]), hm, hn, ← ofPow_eq_signedResult]
  rfl

theorem reads_of_asSigned {v : Value} {m : Int} {k : Nat} (h : v.asSigned = some m) (hw : v.width = k + 1) :
    Reads (2 ^ k) m v.val := by
  have hlt := v.val_lt
  have hle := natAbs_asSigned_le h
  rw [hw, Nat.add_sub_cancel] at hle
  rw [hw, Nat.pow_succ'] at hlt
  rw [asSigned, if_neg (by simp [mask_of_asSigned h, hw]), hw] at h
  split at h
  · cases h
    have hcast : (2 : Int) ^ (k + 1) = 2 * ((2 ^ k : Nat) : Int) := by push_cast; ring
    rw [hcast] at hle ⊢
    exact Or.inr (by omega)
  · next hs =>
    rw [Nat.add_sub_cancel, shiftRight_and_one_ne_zero, Bool.not_eq_true] at hs
    cases h
    have hval : v.val < 2 ^ k := by
      refine Nat.lt_pow_two_of_testBit _ fun i hi => ?_
      rcases hi.eq_or_lt with rfl | hgt
      · exact hs
      · exact Nat.testBit_lt_two_pow (lt_of_lt_of_le (by rwa [Nat.pow_succ']) (Nat.pow_le_pow_right (by norm_num) hgt))
    exact Or.inl (by omega)

section

variable {op : BinaryOp} {a b : Value} {m n : Int} {s : Bool}

/-- The operands on which `ContextAgrees` decides: in an unsigned context a rounded quotient may be right by chance. -/
def Precise (op : BinaryOp) (s : Bool) (m n : Int) : Prop :=
  s = true ∨ op = .pow ∨ n = 0 ∨ TrueDiv.Exact m.natAbs n.natAbs

theorem ContextAgrees.precise (hop : op = .div ∨ op = .mod ∨ op = .pow) {w u v : Nat}
    (h : ContextAgrees op s w m n u v) : Precise op s m n := by
  cases s with
  | true => exact Or.inl rfl
  | false =>
    rcases hop with rfl | rfl | rfl
    · rcases h with h | ⟨h, -⟩
      · exact Or.inr (Or.inr (Or.inl h))
      · exact Or.inr (Or.inr (Or.inr h))
    · rcases h with h | ⟨h, -⟩
      · exact Or.inr (Or.inr (Or.inl h))
      · exact Or.inr (Or.inr (Or.inr h))
    · exact Or.inr (Or.inl rfl)

theorem evalSignedDivmod_zero (op : BinaryOp) (hm : a.asSigned = some m) (hn : b.asSigned = some 0) :
    evalSignedDivmod op a b = some (x a.width) := by
  have hb : b.val = 0 := by exact_mod_cast Value.val_of_asSigned hn le_rfl
  rw [evalSignedDivmod, if_neg (by simp [mask_of_asSigned hm, mask_of_asSigned hn]), if_pos hb]

theorem div_agrees_iff (hw : b.width = a.width) (hm : a.asSigned = some m) (hn : b.asSigned = some n)
    (hprecise : Precise .div s m n) :
    evalSignedDivmod .div a b = some (contextResult .div s a.width m n a.val b.val) ↔
      ContextAgrees .div s a.width m n a.val b.val := by
  by_cases h0 : n = 0
  · subst h0
    have hb : b.val = 0 := by exact_mod_cast Value.val_of_asSigned hn le_rfl
    rw [evalSignedDivmod_zero .div hm hn]
    cases s with
    | true => exact iff_of_true rfl (Or.inl rfl)
    | false => exact iff_of_true (by rw [hb]; rfl) (Or.inl rfl)
  have hv : b.val ≠ 0 := val_ne_zero_of_asSigned hn h0
  cases s with
  | true =>
    show _ = some (if n = 0 then x a.width else ofInt (m.tdiv n) a.width) ↔ n = 0 ∨ _
    rw [if_neg h0, evalSignedDivmod_div_iff rfl hw hm hn h0, or_iff_right h0]
  | false =>
    have hexact : TrueDiv.Exact m.natAbs n.natAbs := by
      rcases hprecise with h | h | h | h
      · cases h
      · cases h
      · exact absurd h h0
      · exact h
    obtain ⟨k, hk⟩ : ∃ k, a.width = k + 1 := ⟨a.width - 1, by have := (mask_of_asSigned hm).2; omega⟩
    show _ = some (if b.val = 0 then x a.width else ofInt (a.val / b.val : Nat) a.width) ↔ n = 0 ∨ _ ∧ _
    rw [if_neg hv, (evalSignedDivmod_div_iff rfl hw hm hn h0).mpr hexact, Option.some_inj, ofInt_eq_iff,
      or_iff_right h0, and_iff_right hexact, hk, pow_succ',
      ← tdiv_emod_eq_iff (reads_of_asSigned hm hk) (reads_of_asSigned hn (hw.trans hk)) h0]
    push_cast
    rfl

theorem mod_agrees_iff (hw : b.width = a.width) (hm : a.asSigned = some m) (hn : b.asSigned = some n)
    (hprecise : Precise .mod s m n) :
    evalSignedDivmod .mod a b = some (contextResult .mod s a.width m n a.val b.val) ↔
      ContextAgrees .mod s a.width m n a.val b.val := by
  by_cases h0 : n = 0
  · subst h0
    have hb : b.val = 0 := by exact_mod_cast Value.val_of_asSigned hn le_rfl
    rw [evalSignedDivmod_zero .mod hm hn]
    cases s with
    | true => exact iff_of_true rfl (Or.inl rfl)
    | false => exact iff_of_true (by rw [hb]; rfl) (Or.inl rfl)
  have hv : b.val ≠ 0 := val_ne_zero_of_asSigned hn h0
  cases s with
  | true =>
    show _ = some (if n = 0 then x a.width else ofInt (m - n * m.tdiv n) a.width) ↔ n = 0 ∨ _
    rw [if_neg h0, evalSignedDivmod_mod_iff rfl hw hm hn h0, or_iff_right h0]
  | false =>
    have hexact : TrueDiv.Exact m.natAbs n.natAbs := by
      rcases hprecise with h | h | h | h
      · cases h
      · cases h
      · exact absurd h h0
      · exact h
    obtain ⟨k, hk⟩ : ∃ k, a.width = k + 1 := ⟨a.width - 1, by have := (mask_of_asSigned hm).2; omega⟩
    show _ = some (if b.val = 0 then x a.width else ofInt (a.val % b.val : Nat) a.width) ↔ n = 0 ∨ _ ∧ _
    have hpow : (2 : Int) ^ (k + 1) = 2 * ((2 ^ k : Nat) : Int) := by push_cast; ring
    rw [if_neg hv, (evalSignedDivmod_mod_iff rfl hw hm hn h0).mpr hexact, Option.some_inj, ofInt_eq_iff,
      or_iff_right h0, and_iff_right hexact, hk, hpow,
      tmod_emod_eq_iff (reads_of_asSigned hm hk) (reads_of_asSigned hn (hw.trans hk)) h0]

theorem pow_agrees_iff (hm : a.asSigned = some m) (hn : b.asSigned = some n) :
    evalSignedPow a b = some (contextResult .pow s a.width m n a.val b.val) ↔
      ContextAgrees .pow s a.width m n a.val b.val := by
  rw [evalSignedPow_eq hm hn]
  cases s with
  | true => exact iff_of_true rfl trivial
  | false =>
    obtain ⟨k, hk⟩ : ∃ k, a.width = k + 1 := ⟨a.width - 1, by have := (mask_of_asSigned hm).2; omega⟩
    obtain ⟨j, hj⟩ : ∃ j, b.width = j + 1 := ⟨b.width - 1, by have := (mask_of_asSigned hn).2; omega⟩
    rw [← ofPow_eq_signedResult, Option.some_inj, hk]
    exact ofPow_eq_iff (reads_of_asSigned hm hk) (reads_of_asSigned hn hj)

/-- The operator has the result of its context for exactly these operands. -/
theorem evalBinaryResult_agrees_iff (hop : op = .div ∨ op = .mod ∨ op = .pow)
    (hw : op ≠ .pow → b.width = a.width) (hm : a.asSigned = some m) (hn : b.asSigned = some n) (ss : Bool)
    (hprecise : Precise op s m n) :
    evalBinaryResult op true ss a b = some (contextResult op s a.width m n a.val b.val) ↔
      ContextAgrees op s a.width m n a.val b.val := by
  rcases hop with rfl | rfl | rfl
  · exact div_agrees_iff (hw nofun) hm hn hprecise
  · exact mod_agrees_iff (hw nofun) hm hn hprecise
  · exact pow_agrees_iff hm hn

end

/-! ## Expressions in a context -/

section

variable {T : SignalTable} (st : Store T) (op : BinaryOp) (l r : Expr) (w : Nat) (s : Bool)

/-- The left operand as `eval` hands it to the operator in a context of this width and signedness. -/
def contextLeft : Option Value :=
  (evalRequest st l (.context (operandWidths T op l r w).1 (some s))).bind fun v =>
    widen s v (operandWidths T op l r w).1

/-- The right operand; an exponent is self-determined. -/
def contextRight : Option Value :=
  if op == .pow then evalRequest st r (.context (selfWidth T r) none)
  else
    (evalRequest st r (.context (operandWidths T op l r w).2 (some s))).bind fun v =>
      widen s v (operandWidths T op l r w).2

end

section

variable {T : SignalTable} {st : Store T} {op : BinaryOp} {l r : Expr} {w : Nat} {s : Bool}

/-- The operands are brought to the operator, which is chosen by their own types. -/
theorem evalRequest_contextOperator (hop : op = .div ∨ op = .mod ∨ op = .pow)
    (hl : exprSigned T l = true) (hr : exprSigned T r = true) :
    evalRequest st (.binary op l r) (.context w (some s))
      = (contextLeft st op l r w s).bind fun a => (contextRight st op l r w s).bind fun b =>
          (evalBinaryResult op true s a b).bind fun v => fit s v w := by
  have hdivmod : op = .div ∨ op = .mod → evalRequest st (.binary op l r) (.context w (some s))
      = (contextLeft st op l r w s).bind fun a => (contextRight st op l r w s).bind fun b =>
          (evalBinaryResult op true s a b).bind fun v => fit s v w := by
    intro h
    have hc : op.isArithmetic = true := by
      rcases h with rfl | rfl <;> rfl
    have hne : (op == .pow) = false := by
      rcases h with rfl | rfl <;> rfl
    have hresult : ∀ a b, evalBinaryResult op true false a b = evalBinaryResult op true s a b := by
      rcases h with rfl | rfl <;> exact fun _ _ => rfl
    rw [evalRequest_arithmetic hc, contextLeft, contextRight, hne, operandWidths_arithmetic _ _ _ hc, hl, hr]
    simp only [Request.width_context, Request.signedOverride_context, Option.getD_some, Bool.and_self,
      Bool.false_eq_true, if_false, hresult]
    -- the right operand is evaluated before the left one is extended
    cases evalRequest st l (.context (operandTarget T l r w) (some s)) with
    | none => rfl
    | some a =>
      cases evalRequest st r (.context (operandTarget T l r w) (some s)) with
      | none =>
        simp only [Option.bind_some, Option.bind_none]
        exact (Option.bind_fun_none _).symm
      | some b => rfl
  rcases hop with h | h | rfl
  · exact hdivmod (Or.inl h)
  · exact hdivmod (Or.inr h)
  · rw [evalRequest_shift rfl, contextLeft, contextRight, operandWidths_shift _ _ _ rfl, hl, hr, Option.bind_assoc]
    rfl

/-- `/`, `%` and `**` with operands of signed types, in a context of any width and signedness: on the operands on
which `ContextAgrees`, `eval` and the compiled opcode have the result of the context, and on the others they have
not, as long as `ContextAgrees` decides. -/
theorem contextOperator_iff (hop : op = .div ∨ op = .mod ∨ op = .pow)
    (hl : exprSigned T l = true) (hr : exprSigned T r = true) {a b : Value} {m n : Int}
    (ha : contextLeft st op l r w s = some a) (hb : contextRight st op l r w s = some b)
    (hw : op ≠ .pow → b.width = a.width) (hm : a.asSigned = some m) (hn : b.asSigned = some n) :
    (ContextAgrees op s a.width m n a.val b.val →
      evalRequest st (.binary op l r) (.context w (some s))
          = fit s (contextResult op s a.width m n a.val b.val) w ∧
        ∀ stack, Vm.execData st (Vm.resultOpcode op (exprSigned T l && exprSigned T r) s) (b :: a :: stack)
          = some (contextResult op s a.width m n a.val b.val :: stack)) ∧
    (Precise op s m n →
      (∀ stack, Vm.execData st (Vm.resultOpcode op (exprSigned T l && exprSigned T r) s) (b :: a :: stack)
          = some (contextResult op s a.width m n a.val b.val :: stack)) →
      ContextAgrees op s a.width m n a.val b.val) := by
  have hvm : ∀ stack, Vm.execData st (Vm.resultOpcode op (exprSigned T l && exprSigned T r) s) (b :: a :: stack)
      = (evalBinaryResult op true s a b).map (· :: stack) := by
    intro stack
    rw [hl, hr]
    refine Vm.execData_resultOpcode op true s stack fun hdm => (hw ?_).le
    rintro rfl
    cases hdm
  constructor
  · intro h
    have hresult := (evalBinaryResult_agrees_iff hop hw hm hn s (h.precise hop)).mpr h
    constructor
    · rw [evalRequest_contextOperator hop hl hr, ha, hb, Option.bind_some, Option.bind_some, hresult,
        Option.bind_some]
    · intro stack
      rw [hvm, hresult]
      rfl
  · intro hprecise h
    refine (evalBinaryResult_agrees_iff hop hw hm hn s hprecise).mp ?_
    obtain ⟨v, hv, heq⟩ := Option.map_eq_some_iff.mp ((hvm []).symm.trans (h []))
    rw [hv, (List.cons.inj heq).1]

end

/-! `sa` and `sb` are signed, `ub` is not: in `(sa / sb) + ub` the quotient is unsigned. -/

/-- Three vectors of 8 bits. -/
def mixedTable : SignalTable := .vectors [("sa", 8, true), ("sb", 8, true), ("ub", 8, false)]

/-- `sa` with these bits, `sb = 2` and `ub = 0`. -/
def mixedStore (sa : Nat) : Store mixedTable :=
  .ofBits mixedTable (fun n => if n = "sa" then sa else if n = "sb" then 2 else 0) fun _ => 0

/-- `sa / sb`. -/
def mixedQuotient : Expr := .binary .div (.ident [] "sa") (.ident [] "sb")

theorem contextOperator_iff_positive :
    evalRequest (mixedStore 100) mixedQuotient (.context 8 (some false))
      = fit false (contextResult .div false 8 100 2 100 2) 8 := by
  have hl : contextLeft (mixedStore 100) .div (.ident [] "sa") (.ident [] "sb") 8 false = some (ofInt 100 8) := by
    rfl
  have hr : contextRight (mixedStore 100) .div (.ident [] "sa") (.ident [] "sb") 8 false = some (ofInt 2 8) := by
    rfl
  have hagrees : ContextAgrees .div false 8 100 2 100 2 :=
    Or.inr ⟨by decide, Or.inl ⟨by decide, by decide⟩⟩
  exact ((contextOperator_iff (Or.inl rfl) rfl rfl hl hr (fun _ => rfl) (rfl) (rfl)).1
    hagrees).1

/-- 252 by 2 gives 254 where an unsigned quotient is 126. -/
theorem evalRequest_mixedQuotient :
    exprSigned mixedTable (.ident [] "sa") = true ∧ exprSigned mixedTable (.ident [] "sb") = true ∧
      evalRequest (mixedStore 252) (.binary .add mixedQuotient (.ident [] "ub")) (.context 8 none)
        = some (ofInt 254 8) ∧
      unsignedResult .div 8 252 2 = ofInt 126 8 := by
  decide +kernel

end Veriforge

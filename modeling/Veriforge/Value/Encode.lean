import Mathlib.Data.Int.Bitwise
import Mathlib.Tactic.Linarith
import Veriforge.Value.Truncate

/-! # Operators on encoded integers

`ofInt n w` holds `n` modulo `2 ^ w`. Some operators compute with the residues alone; the others need an
operand that its width and signedness can hold. -/

namespace Veriforge.Value

/-- The integer is one that `w` bits of this signedness hold. -/
def Fits (signed : Bool) (w : Nat) (n : Int) : Prop :=
  if signed then -2 ^ w ≤ 2 * n ∧ 2 * n < 2 ^ w else 0 ≤ n ∧ n < 2 ^ w

instance (signed : Bool) (w : Nat) (n : Int) : Decidable (Fits signed w n) := by
  unfold Fits
  infer_instance

variable {a b n m : Int} {w u k : Nat}

theorem fits_true : Fits true w n ↔ -2 ^ w ≤ 2 * n ∧ 2 * n < 2 ^ w := by rw [Fits, if_pos rfl]

theorem fits_false : Fits false w n ↔ 0 ≤ n ∧ n < 2 ^ w := by
  rw [Fits, if_neg Bool.false_ne_true]

/-! ## Reading an encoding back -/

theorem ofInt_val_cast (n : Int) (w : Nat) : ((ofInt n w).val : Int) = n % 2 ^ w := by
  rw [ofInt_val, Int.toNat_of_nonneg (Int.emod_nonneg _ (by positivity))]

theorem ofInt_eq_iff {n m : Int} {w : Nat} : ofInt n w = ofInt m w ↔ n % 2 ^ w = m % 2 ^ w := by
  refine ⟨fun h => ?_, ofInt_congr⟩
  have hval := congrArg Value.val h
  rw [ofInt_val, ofInt_val] at hval
  have hn : 0 ≤ n % 2 ^ w := Int.emod_nonneg _ (by positivity)
  have hm : 0 ≤ m % 2 ^ w := Int.emod_nonneg _ (by positivity)
  omega

theorem ofInt_val_of_fits (h : Fits false w n) : ((ofInt n w).val : Int) = n := by
  rw [fits_false] at h
  rw [ofInt_val_cast, Int.emod_eq_of_lt h.1 h.2]

/-- Congruent integers at a distance below the modulus are equal. -/
theorem eq_of_emod_eq (h : n % 2 ^ w = m % 2 ^ w) (hlt : |n - m| < 2 ^ w) : n = m := by
  have hdvd : (2 : Int) ^ w ∣ n - m := Int.dvd_of_emod_eq_zero (Int.emod_eq_emod_iff_emod_sub_eq_zero.mp h)
  have := Int.eq_zero_of_abs_lt_dvd hdvd hlt
  omega

theorem ofInt_val_eq_zero_iff (h : |n| < 2 ^ w) : (ofInt n w).val = 0 ↔ n = 0 := by
  rw [← Int.natCast_inj, ofInt_val_cast, Nat.cast_zero]
  constructor
  · intro h0
    exact eq_of_emod_eq (by rw [h0, Int.zero_emod]) (by rwa [sub_zero])
  · rintro rfl
    rw [Int.zero_emod]

/-- The residue of a negative integer that `w` signed bits hold. -/
theorem emod_of_neg (h : Fits true w n) (h0 : n < 0) : n % 2 ^ w = n + 2 ^ w := by
  rw [fits_true] at h
  rw [← Int.add_emod_right, Int.emod_eq_of_lt (by linarith) (by linarith)]

theorem emod_of_nonneg (h : Fits true w n) (h0 : 0 ≤ n) : n % 2 ^ w = n := by
  rw [fits_true] at h
  exact Int.emod_eq_of_lt h0 (by linarith)

/-- The sign bit of an encoding. -/
theorem signBit_ofInt (hw : 0 < w) (h : Fits true w n) : (((ofInt n w).val >>> (w - 1)) &&& 1 ≠ 0) ↔ n < 0 := by
  obtain ⟨j, rfl⟩ : ∃ j, w = j + 1 := ⟨w - 1, by omega⟩
  have hpow : (2 : Int) ^ (j + 1) = 2 * 2 ^ j := by ring
  have hcast := ofInt_val_cast n (j + 1)
  rw [Nat.add_sub_cancel, Nat.shiftRight_eq_div_pow]
  have hlt := (ofInt n (j + 1)).val_lt
  rw [init_width, Nat.pow_succ] at hlt
  have hj : ((2 ^ j : Nat) : Int) = 2 ^ j := by push_cast; rfl
  rw [Nat.and_one_is_mod]
  rcases lt_or_ge n 0 with h0 | h0
  · rw [emod_of_neg h h0] at hcast
    rw [fits_true] at h
    have h1 : (ofInt n (j + 1)).val / 2 ^ j = 1 := Nat.div_eq_of_lt_le (by omega) (by omega)
    rw [h1]
    simp [h0]
  · rw [emod_of_nonneg h h0] at hcast
    rw [fits_true] at h
    have h1 : (ofInt n (j + 1)).val / 2 ^ j = 0 := Nat.div_eq_of_lt (by omega)
    rw [h1]
    simp [h0]

theorem asSigned_ofInt (hw : 0 < w) (h : Fits true w n) : (ofInt n w).asSigned = some n := by
  rw [asSigned, if_neg (by simp; omega), init_width]
  rcases lt_or_ge n 0 with h0 | h0
  · rw [if_pos ((signBit_ofInt hw h).mpr h0), ofInt_val_cast, emod_of_neg h h0, add_sub_cancel_right]
  · rw [if_neg ((signBit_ofInt hw h).not.mpr (not_lt.mpr h0)), ofInt_val_cast, emod_of_nonneg h h0]

/-! ## Bits -/

theorem testBit_emod (n : Int) (w i : Nat) : (n % 2 ^ w).toNat.testBit i = (decide (i < w) && n.testBit i) := by
  cases n with
  | ofNat m =>
    show _ = (decide (i < w) && m.testBit i)
    rw [Int.ofNat_eq_natCast, toNat_natCast_emod, Nat.testBit_mod_two_pow]
  | negSucc m =>
    have hlt : m % 2 ^ w < 2 ^ w := Nat.mod_lt _ (by positivity)
    have hcast : ((m % 2 ^ w : Nat) : Int) = (m : Int) % 2 ^ w := by push_cast; rfl
    have hpow : ((2 ^ w : Nat) : Int) = 2 ^ w := by push_cast; rfl
    have hval : (Int.negSucc m % 2 ^ w).toNat = 2 ^ w - (m % 2 ^ w + 1) := by
      rw [Int.negSucc_emod m (by positivity)]
      omega
    show _ = (decide (i < w) && !m.testBit i)
    rw [hval, Nat.testBit_two_pow_sub_succ hlt, Nat.testBit_mod_two_pow]
    by_cases hi : i < w <;> simp [hi]

theorem bit_ofInt_int (n : Int) (w i : Nat) : (ofInt n w).bit i = some (decide (i < w) && n.testBit i) := by
  rw [bit_of_mask_eq_zero (ofInt_mask n w), ofInt_val, testBit_emod]

/-- From the sign bit on, the bits of an integer are its sign. -/
theorem testBit_of_fits (h : Fits true w n) {i : Nat} (hi : w ≤ i + 1) : n.testBit i = decide (n < 0) := by
  rw [fits_true] at h
  have hpow : (2 : Int) ^ w ≤ 2 ^ (i + 1) := pow_le_pow_right₀ (by norm_num) hi
  have hi' : ((2 ^ (i + 1) : Nat) : Int) = 2 ^ (i + 1) := by push_cast; rfl
  rw [pow_succ] at hi' hpow
  cases n with
  | ofNat m =>
    rw [Int.ofNat_eq_natCast] at h
    have hlt : m < 2 ^ i := by omega
    show m.testBit i = _
    rw [Nat.testBit_lt_two_pow hlt, Int.ofNat_eq_natCast, decide_eq_false (by omega)]
  | negSucc m =>
    have hlt : m < 2 ^ i := by omega
    show (!m.testBit i) = _
    rw [Nat.testBit_lt_two_pow hlt, decide_eq_true (Int.negSucc_lt_zero m), Bool.not_false]

/-- Encodings with the same bits below the width are equal. -/
theorem ofInt_eq_of_testBit (h : ∀ i < w, n.testBit i = m.testBit i) : ofInt n w = ofInt m w :=
  ext_bit_lt rfl fun i hi => by rw [bit_ofInt_int, bit_ofInt_int, h i hi]

/-! ## Extension -/

theorem resize_ofInt (h : Fits false w n) : (ofInt n w).resize u = ofInt n u := by
  show init ((ofInt n w).val : Int) u (ofInt n w).mask = _
  rw [ofInt_mask, ofInt_val_of_fits h]

theorem signExtend_ofInt (hw : 0 < w) (h : Fits true w n) : (ofInt n w).signExtend u = some (ofInt n u) := by
  obtain ⟨r, hr⟩ := exists_signExtend (v := ofInt n w) hw u
  obtain ⟨hru, hbit⟩ := signExtend_eq_some hr
  rw [hr]
  congr 1
  refine ext_bit_lt hru fun i hi => ?_
  rw [hru] at hi
  rw [hbit i hi, bit_ofInt_int n u, init_width, decide_eq_true hi, Bool.true_and]
  split
  · next hiw => rw [bit_ofInt_int, decide_eq_true hiw, Bool.true_and]
  · next hiw =>
    rw [msb, init_width, bit_ofInt_int, decide_eq_true (by omega), Bool.true_and,
      testBit_of_fits h (by omega), testBit_of_fits h (by omega)]

/-! ## Arithmetic -/

theorem neg_ofInt (n : Int) (w : Nat) : (ofInt n w).neg = ofInt (-n) w := by
  rw [neg, if_neg (by simp), init_width, ofInt_val_cast]
  refine ofInt_congr ?_
  rw [neg_eq_zero_sub, Int.sub_emod_emod, zero_sub]

theorem add_ofInt (a b : Int) (w : Nat) : (ofInt a w).add (ofInt b w) = ofInt (a + b) w := by
  rw [add]
  rw [if_neg (by simp), init_width, init_width, max_self, ofInt_val_cast, ofInt_val_cast]
  exact ofInt_congr (Int.add_emod a b _).symm

theorem sub_ofInt (a b : Int) (w : Nat) : (ofInt a w).sub (ofInt b w) = ofInt (a - b) w := by
  rw [sub]
  rw [if_neg (by simp), init_width, init_width, max_self, ofInt_val_cast, ofInt_val_cast]
  exact ofInt_congr (Int.sub_emod a b _).symm

theorem mul_ofInt (a b : Int) (w : Nat) : (ofInt a w).mul (ofInt b w) = ofInt (a * b) w := by
  rw [mul]
  rw [if_neg (by simp), init_width, init_width, max_self, ofInt_val_cast, ofInt_val_cast]
  exact ofInt_congr (Int.mul_emod a b _).symm

theorem floordiv_ofInt (ha : Fits false w a) (hb : Fits false w b) (h0 : b ≠ 0) :
    (ofInt a w).floordiv (ofInt b w) = ofInt (a / b) w := by
  have hval : (ofInt b w).val ≠ 0 := by
    rw [← Int.natCast_ne_zero, ofInt_val_of_fits hb]
    exact h0
  rw [floordiv]
  rw [if_neg (by simp), if_neg hval, init_width, init_width, max_self, Int.natCast_ediv, ofInt_val_of_fits ha,
    ofInt_val_of_fits hb]

theorem mod_ofInt (ha : Fits false w a) (hb : Fits false w b) (h0 : b ≠ 0) :
    (ofInt a w).mod (ofInt b w) = ofInt (a % b) w := by
  have hval : (ofInt b w).val ≠ 0 := by
    rw [← Int.natCast_ne_zero, ofInt_val_of_fits hb]
    exact h0
  rw [mod]
  rw [if_neg (by simp), if_neg hval, init_width, init_width, max_self, Int.natCast_emod, ofInt_val_of_fits ha,
    ofInt_val_of_fits hb]

/-- A power with a natural exponent computes with residues. -/
theorem ofPow_of_emod_eq (h : n % 2 ^ w = a % 2 ^ w) (hb : 0 ≤ b) :
    ofPow (verilogPow n b w) w = ofInt (a ^ b.toNat) w := by
  rw [verilogPow]
  rcases hb.eq_or_lt with rfl | hpos
  · rw [if_pos rfl, Int.toNat_zero, pow_zero]
    rfl
  · rw [if_neg hpos.ne', if_pos hpos]
    exact ofInt_congr (by rw [Int.emod_emod_of_dvd _ dvd_rfl]; exact Int.ModEq.pow b.toNat h)

theorem pow_ofInt (hb : Fits false u b) : (ofInt a w).pow (ofInt b u) = ofInt (a ^ b.toNat) w := by
  rw [pow, if_neg (by simp), init_width, ofInt_val_of_fits hb]
  refine ofPow_of_emod_eq ?_ (fits_false.mp hb).1
  rw [ofInt_val_cast, Int.emod_emod_of_dvd _ dvd_rfl]

/-! ## Bitwise operators -/

theorem invert_ofInt (n : Int) (w : Nat) : (ofInt n w).invert = ofInt n.lnot w := by
  refine ext_bit_lt (by simp) fun i hi => ?_
  rw [invert_width, init_width] at hi
  rw [bit_invert, init_width, if_pos hi, bit_ofInt_int, bit_ofInt_int, Int.testBit_lnot]
  simp [hi, Kleene.not]

theorem and_ofInt (a b : Int) (w : Nat) : (ofInt a w).and (ofInt b w) = ofInt (a.land b) w := by
  refine ext_bit_lt (by simp) fun i hi => ?_
  rw [and_width, init_width, init_width, max_self] at hi
  rw [bit_and, bit_ofInt_int, bit_ofInt_int, bit_ofInt_int, Int.testBit_land]
  cases a.testBit i <;> cases b.testBit i <;> simp [hi, Kleene.and]

theorem or_ofInt (a b : Int) (w : Nat) : (ofInt a w).or (ofInt b w) = ofInt (a.lor b) w := by
  refine ext_bit_lt (by simp) fun i hi => ?_
  rw [or_width, init_width, init_width, max_self] at hi
  rw [bit_or, bit_ofInt_int, bit_ofInt_int, bit_ofInt_int, Int.testBit_lor]
  cases a.testBit i <;> cases b.testBit i <;> simp [hi, Kleene.or]

theorem xor_ofInt (a b : Int) (w : Nat) : (ofInt a w).xor (ofInt b w) = ofInt (a.xor b) w := by
  refine ext_bit_lt (by simp) fun i hi => ?_
  rw [xor_width, init_width, init_width, max_self] at hi
  rw [bit_xor, bit_ofInt_int, bit_ofInt_int, bit_ofInt_int, Int.testBit_lxor]
  cases a.testBit i <;> cases b.testBit i <;> simp [hi, Kleene.xor]

/-! ## Shifts -/

theorem lshift_ofInt (hb : Fits false u b) : (ofInt a w).lshift (ofInt b u) = ofInt (a <<< b.toNat) w := by
  have hval : (ofInt b u).val = b.toNat := by
    have := ofInt_val_of_fits hb
    omega
  rw [lshift, if_neg (by simp), hval, init_width, Int.shiftLeft_eq]
  split
  · next hle =>
    refine ofInt_congr ?_
    rw [Int.zero_emod]
    exact (Int.emod_eq_zero_of_dvd ((pow_dvd_pow 2 hle).mul_left a)).symm
  · rw [ofInt_mask, Nat.zero_shiftLeft, Nat.shiftLeft_eq]
    refine ofInt_congr ?_
    push_cast
    rw [ofInt_val_cast, Int.mul_emod, Int.emod_emod_of_dvd _ dvd_rfl, ← Int.mul_emod]

theorem rshift_ofInt (ha : Fits false w a) (hb : Fits false u b) :
    (ofInt a w).rshift (ofInt b u) = ofInt (a >>> b.toNat) w := by
  have hval : (ofInt b u).val = b.toNat := by
    have := ofInt_val_of_fits hb
    omega
  have hcast := ofInt_val_of_fits ha
  rw [rshift, if_neg (by simp), hval, init_width, Int.shiftRight_eq_div_pow]
  split
  · next hle =>
    have hlt : (2 : Int) ^ w ≤ 2 ^ b.toNat := pow_le_pow_right₀ (by norm_num) hle
    rw [fits_false] at ha
    have hpow : ((2 ^ b.toNat : Nat) : Int) = 2 ^ b.toNat := by push_cast; rfl
    rw [Int.ediv_eq_zero_of_lt ha.1 (by omega)]
  · rw [ofInt_mask, Nat.zero_shiftRight, Nat.shiftRight_eq_div_pow, Int.natCast_ediv, hcast]

/-! ## Comparisons -/

theorem ofInt_val_inj (h : |a - b| < 2 ^ w) : (ofInt a w).val = (ofInt b w).val ↔ a = b := by
  constructor
  · intro heq
    have hcast : ((ofInt a w).val : Int) = (ofInt b w).val := by rw [heq]
    rw [ofInt_val_cast, ofInt_val_cast] at hcast
    exact eq_of_emod_eq hcast h
  · rintro rfl
    rfl

theorem knownDiff_of_defined {a b : Value} (ha : a.mask = 0) (hb : b.mask = 0) :
    a.knownDiff b = decide (a.val ≠ b.val) := by
  rw [Bool.eq_iff_iff, knownDiff_iff, decide_eq_true_iff]
  constructor
  · rintro ⟨i, k, h1, h2⟩ heq
    rw [bit_of_mask_eq_zero ha] at h1
    rw [bit_of_mask_eq_zero hb, ← heq] at h2
    cases h1
    simp at h2
  · intro hne
    by_contra hno
    refine hne (Nat.eq_of_testBit_eq fun i => ?_)
    by_contra hbit
    refine hno ⟨i, a.val.testBit i, bit_of_mask_eq_zero ha i, ?_⟩
    rw [bit_of_mask_eq_zero hb, Bool.eq_not_of_ne hbit, Bool.not_not]

theorem knownDiff_ofInt (h : |a - b| < 2 ^ w) : (ofInt a w).knownDiff (ofInt b w) = decide (a ≠ b) := by
  rw [knownDiff_of_defined (ofInt_mask a w) (ofInt_mask b w), decide_eq_decide, not_iff_not]
  exact ofInt_val_inj h

theorem eq_ofInt (h : |a - b| < 2 ^ w) : (ofInt a w).eq (ofInt b w) = ofBool (a = b) := by
  rw [Value.eq, knownDiff_ofInt h]
  by_cases hab : a = b
  · simp [hab]
  · simp [hab]

theorem ne_ofInt (h : |a - b| < 2 ^ w) : (ofInt a w).ne (ofInt b w) = ofBool (a ≠ b) := by
  rw [Value.ne, knownDiff_ofInt h]
  by_cases hab : a = b
  · simp [hab]
  · simp [hab]

theorem caseEq_ofInt (h : |a - b| < 2 ^ w) : (ofInt a w).caseEq (ofInt b w) = ofBool (a = b) := by
  rw [caseEq, ofInt_mask, ofInt_mask]
  simp only [ofInt_val_inj h, and_true]

theorem caseNe_ofInt (h : |a - b| < 2 ^ w) : (ofInt a w).caseNe (ofInt b w) = ofBool (a ≠ b) := by
  rw [caseNe, ofInt_mask, ofInt_mask]
  simp only [ne_eq, ofInt_val_inj h, not_true, or_false]

theorem cmp_ofInt {op : Nat → Nat → Bool} (rel : Int → Int → Bool)
    (hop : ∀ p q : Nat, op p q = rel p q) (ha : Fits false w a) (hb : Fits false w b) :
    cmp op (ofInt a w) (ofInt b w) = ofBool (rel a b) := by
  rw [cmp, if_neg (by simp), hop, ofInt_val_of_fits ha, ofInt_val_of_fits hb]

/-! ## Truth values -/

theorem truth_of_defined {v : Value} (h : v.mask = 0) : v.truth = some (decide (v.val ≠ 0)) := by
  by_cases h0 : v.val = 0
  · rw [truth_eq_some_false_iff.mpr (knownZero_iff.mpr ⟨h, h0⟩), decide_eq_false (not_not.mpr h0)]
  · obtain hk | hz := knownOne_or_knownZero h
    · rw [truth_eq_some_true_iff.mpr hk, decide_eq_true h0]
    · exact absurd (knownZero_iff.mp hz).2 h0

theorem truth_ofInt (h : |n| < 2 ^ w) : (ofInt n w).truth = some (decide (n ≠ 0)) := by
  rw [truth_of_defined (ofInt_mask n w), Option.some_inj, decide_eq_decide, not_iff_not]
  exact ofInt_val_eq_zero_iff h

theorem knownOne_ofInt (h : |n| < 2 ^ w) : (ofInt n w).knownOne = decide (n ≠ 0) := by
  rw [Bool.eq_iff_iff, ← truth_eq_some_true_iff, truth_ofInt h, Option.some_inj]

theorem logicalNot_ofInt (h : |n| < 2 ^ w) : (ofInt n w).logicalNot = ofBool (n = 0) := by
  rw [logicalNot_eq, truth_ofInt h]
  by_cases h0 : n = 0 <;> simp [h0, Kleene.not, ofTruth]

theorem logicalAnd_ofInt (ha : |a| < 2 ^ w) (hb : |b| < 2 ^ u) :
    (ofInt a w).logicalAnd (ofInt b u) = ofBool (a ≠ 0 ∧ b ≠ 0) := by
  rw [logicalAnd_eq, truth_ofInt ha, truth_ofInt hb]
  by_cases ha0 : a = 0 <;> by_cases hb0 : b = 0 <;> simp [ha0, hb0, Kleene.and, ofTruth]

theorem logicalOr_ofInt (ha : |a| < 2 ^ w) (hb : |b| < 2 ^ u) :
    (ofInt a w).logicalOr (ofInt b u) = ofBool (a ≠ 0 ∨ b ≠ 0) := by
  rw [logicalOr_eq, truth_ofInt ha, truth_ofInt hb]
  by_cases ha0 : a = 0 <;> by_cases hb0 : b = 0 <;> simp [ha0, hb0, Kleene.or, ofTruth]

theorem reduceOr_ofInt (h : |n| < 2 ^ w) : (ofInt n w).reduceOr = ofBool (n ≠ 0) := by
  rw [reduceOr, if_neg (by simp)]
  simp only [ne_eq, ofInt_val_eq_zero_iff h]

theorem invert_ofBool (c : Bool) : (ofBool c).invert = ofBool (!c) := by
  cases c <;> rfl

/-- Positions past the bits of a number count nothing. -/
theorem countOnes_of_lt {n : Nat} (h : n < 2 ^ w) (hle : w ≤ u) : Value.countOnes n u = Value.countOnes n w := by
  induction u, hle using Nat.le_induction with
  | base => rfl
  | succ u hle ih =>
    rw [countOnes, ih, Nat.testBit_lt_two_pow (lt_of_lt_of_le h (Nat.pow_le_pow_right (by norm_num) hle))]
    rfl

/-! ## Concatenation -/

theorem concat_ofInt {m : Nat} (hm : m < 2 ^ w) (n : Int) (u : Nat) :
    (ofInt (m : Int) w).concat (ofInt n u) = ofInt (((m <<< u) ||| (n % 2 ^ u).toNat : Nat) : Int) (w + u) := by
  rw [concat, ofInt_natCast_val, Nat.mod_eq_of_lt hm, ofInt_val, ofInt_mask, ofInt_mask, Nat.zero_shiftLeft]
  rfl

/-- Nothing in front of a value. -/
theorem zero_concat (v : Value) : (ofInt 0 0).concat v = v := by
  refine ext_bit_lt (by simp) fun i hi => ?_
  rw [concat_width, init_width, Nat.zero_add] at hi
  rw [bit_concat, if_pos hi]

end Veriforge.Value

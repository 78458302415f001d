import Mathlib.Data.Int.ModEq
import Veriforge.Value.Order

/-! # Truncation

Which operators can be applied after truncating their operand. Arithmetic is done modulo a power of two, so
negation commutes with truncation on a known value; it does not on a partly unknown one, where the bits cut
off may be the unknown ones. -/

namespace Veriforge.Value

theorem ofInt_congr {n m : Int} {w : Nat} (h : n % 2 ^ w = m % 2 ^ w) : ofInt n w = ofInt m w := by
  simp only [ofInt, init, h]

theorem ofInt_resize (n : Int) {w L : Nat} (h : w ≤ L) : (ofInt n L).resize w = ofInt n w := by
  show init ((ofInt n L).val : Int) w (ofInt n L).mask = _
  rw [ofInt_mask, ofInt_val, Int.toNat_of_nonneg (Int.emod_nonneg _ (by positivity))]
  exact ofInt_congr (Int.emod_emod_of_dvd n (pow_dvd_pow 2 h))

theorem x_resize {w L : Nat} (h : w ≤ L) : (x L).resize w = x w := by
  refine ext_bit_lt rfl fun i hi => ?_
  rw [resize_width] at hi
  rw [bit_resize, if_pos hi, bit_x, bit_x, if_pos hi, if_pos (by omega)]

theorem invert_resize {v : Value} {w : Nat} (h : w ≤ v.width) : (v.resize w).invert = v.invert.resize w := by
  refine ext_bit_lt (by simp) fun i hi => ?_
  rw [invert_width, resize_width] at hi
  rw [bit_resize, if_pos hi, bit_invert, bit_invert, resize_width, if_pos hi, if_pos (by omega),
    bit_resize, if_pos hi]

/-! ## Values known or unknown as a whole -/

/-- Every bit is known, or none is. -/
def Uniform (v : Value) : Prop := v.mask = 0 ∨ v = x v.width

theorem uniform_x (w : Nat) : (x w).Uniform := Or.inr rfl

theorem uniform_ofInt (n : Int) (w : Nat) : (ofInt n w).Uniform := Or.inl (ofInt_mask n w)

theorem uniform_ofPow (r : Option Int) (w : Nat) : (ofPow r w).Uniform := by
  cases r with
  | none => exact uniform_x w
  | some n => exact uniform_ofInt n w

theorem Uniform.ite {a b : Value} {c : Prop} [Decidable c] (ha : a.Uniform) (hb : b.Uniform) :
    (if c then a else b).Uniform := by
  split
  · exact ha
  · exact hb

theorem invert_x (w : Nat) : (x w).invert = x w := by
  refine ext_bit_lt (by simp) fun i hi => ?_
  rw [invert_width, x_width] at hi
  rw [bit_invert, x_width, if_pos hi, bit_x, if_pos hi]
  rfl

theorem Uniform.invert {v : Value} (h : v.Uniform) : v.invert.Uniform := by
  rcases h with hm | hx
  · rw [Value.invert, if_neg (not_not_intro hm)]
    exact uniform_ofInt _ _
  · rw [hx, invert_x]
    exact uniform_x _

theorem uniform_neg (v : Value) : v.neg.Uniform := .ite (uniform_x _) (uniform_ofInt _ _)

theorem uniform_add (a b : Value) : (a.add b).Uniform := .ite (uniform_x _) (uniform_ofInt _ _)

theorem uniform_sub (a b : Value) : (a.sub b).Uniform := .ite (uniform_x _) (uniform_ofInt _ _)

theorem uniform_mul (a b : Value) : (a.mul b).Uniform := .ite (uniform_x _) (uniform_ofInt _ _)

theorem uniform_mod (a b : Value) : (a.mod b).Uniform :=
  .ite (uniform_x _) (.ite (uniform_x _) (uniform_ofInt _ _))

theorem uniform_floordiv (a b : Value) : (a.floordiv b).Uniform :=
  .ite (uniform_x _) (.ite (uniform_x _) (uniform_ofInt _ _))

theorem uniform_pow (a b : Value) : (a.pow b).Uniform := .ite (uniform_x _) (uniform_ofPow _ _)

theorem neg_x (w : Nat) : (x w).neg = x w := by
  unfold neg
  split
  · rfl
  · next h =>
    -- no unknown bit, so no bit at all
    rw [not_not] at h
    refine ext_bit_lt rfl fun i (hi : i < w) => ?_
    have hb := bit_x w i
    rw [if_pos hi, bit, h, Nat.zero_testBit] at hb
    exact absurd hb (by simp)

theorem neg_resize {v : Value} {w : Nat} (hv : v.Uniform) (h : w ≤ v.width) : (v.resize w).neg = v.neg.resize w := by
  rcases hv with hm | hx
  · have hr : (v.resize w).mask = 0 := by
      show v.mask % 2 ^ w = 0
      rw [hm, Nat.zero_mod]
    have hval : ((v.resize w).val : Int) % 2 ^ w = (v.val : Int) % 2 ^ w := by
      show ((init (v.val : Int) w v.mask).val : Int) % 2 ^ w = _
      rw [hm, ofInt_natCast_val]
      push_cast
      exact Int.emod_emod _ _
    have hneg : -((v.resize w).val : Int) % 2 ^ w = -(v.val : Int) % 2 ^ w := Int.ModEq.neg hval
    rw [neg, neg, if_neg (not_not_intro hr), if_neg (not_not_intro hm), ofInt_resize _ h,
      resize_width, ofInt_congr hneg]
  · rw [hx, x_resize h, neg_x, neg_x, x_resize h]

end Veriforge.Value

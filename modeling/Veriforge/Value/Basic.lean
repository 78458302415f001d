import Mathlib.Data.Nat.Bitwise
import Mathlib.Data.Int.Bitwise
import Mathlib.Tactic.Ring
import Mathlib.Tactic.Positivity
import Veriforge.Kleene

/-! # 4-state values

The bit vectors of the simulator (`sim/value.py`). A bit is encoded by a pair of bits of two integers:
`(val, mask)` is `(b, 0)` for a known bit `b` and `(0, 1)` for an `x` or `z` bit. The constructor
masks its arguments, so every value satisfies the three invariants carried by the structure.

Operations that raise in the source return `none` here. -/

namespace Veriforge

/-- `_mask_for_width`: `width` one bits. -/
def maskForWidth (width : Nat) : Nat := 2 ^ width - 1

/-- `~m` on `width` bits. -/
def lnot (width m : Nat) : Nat := maskForWidth width ^^^ (m % 2 ^ width)

@[simp] theorem testBit_maskForWidth (w i : Nat) : (maskForWidth w).testBit i = decide (i < w) :=
  Nat.testBit_two_pow_sub_one w i

@[simp] theorem testBit_lnot (w m i : Nat) : (lnot w m).testBit i = (decide (i < w) && !m.testBit i) := by
  simp only [lnot, Nat.testBit_xor, testBit_maskForWidth, Nat.testBit_mod_two_pow]
  by_cases h : i < w <;> simp [h]

/-- A 4-state bit vector. -/
structure Value where
  /-- The 0/1 bits. -/
  val : Nat
  /-- The bits that are `x` or `z`. -/
  mask : Nat
  /-- Number of bits. -/
  width : Nat
  val_lt : val < 2 ^ width
  mask_lt : mask < 2 ^ width
  disjoint : val &&& mask = 0
  deriving DecidableEq

namespace Value

/-- The constructor `Value(val, width=width, mask=mask)`: `val & wmask & ~mask`, `mask & wmask`. -/
def init (val : Int) (width mask : Nat) : Value where
  val := (val % 2 ^ width).toNat &&& lnot width mask
  mask := mask % 2 ^ width
  width := width
  val_lt := by
    rw [Nat.and_comm]
    exact Nat.and_lt_two_pow _ ((Int.toNat_lt' (by positivity)).mpr (by
      rw [Nat.cast_pow, Nat.cast_ofNat]; exact Int.emod_lt_of_pos _ (by positivity)))
  mask_lt := Nat.mod_lt _ (by positivity)
  disjoint := by
    refine Nat.zero_of_testBit_eq_false fun i => ?_
    simp only [Nat.testBit_and, testBit_lnot, Nat.testBit_mod_two_pow]
    by_cases h : mask.testBit i <;> simp [h]

/-- A known value. -/
abbrev ofInt (n : Int) (width : Nat) : Value := init n width 0

/-- `Value.x`: every bit unknown. -/
def x (width : Nat) : Value := init 0 width (maskForWidth width)

/-! ## Bits -/

/-- Bit `i`, unknown when `x` or `z`. Bits past the width are known zeros. -/
def bit (v : Value) (i : Nat) : Option Bool :=
  if v.mask.testBit i then none else some (v.val.testBit i)

/-- A masked bit holds a zero in `val`. -/
theorem val_testBit_of_mask {v : Value} {i : Nat} (h : v.mask.testBit i = true) : v.val.testBit i = false := by
  have hd := congrArg (fun n => n.testBit i) v.disjoint
  simpa [Nat.testBit_and, h] using hd

theorem bit_of_width_le {v : Value} {i : Nat} (h : v.width ≤ i) : v.bit i = some false := by
  have hp : 2 ^ v.width ≤ 2 ^ i := Nat.pow_le_pow_right (by norm_num) h
  rw [bit, Nat.testBit_lt_two_pow (lt_of_lt_of_le v.mask_lt hp), Nat.testBit_lt_two_pow (lt_of_lt_of_le v.val_lt hp)]
  rfl

theorem mask_testBit (v : Value) (i : Nat) : v.mask.testBit i = (v.bit i).isNone := by
  unfold bit
  cases v.mask.testBit i <;> rfl

theorem val_testBit (v : Value) (i : Nat) : v.val.testBit i = (v.bit i).getD false := by
  unfold bit
  cases h : v.mask.testBit i with
  | true => rw [val_testBit_of_mask h]; rfl
  | false => rfl

/-- Two values of one width are equal when all their bits are. -/
theorem ext_bit {a b : Value} (hw : a.width = b.width) (h : ∀ i, a.bit i = b.bit i) : a = b := by
  have hv : a.val = b.val := Nat.eq_of_testBit_eq fun i => by
    rw [val_testBit, val_testBit, h]
  have hm : a.mask = b.mask := Nat.eq_of_testBit_eq fun i => by
    rw [mask_testBit, mask_testBit, h]
  cases a
  cases b
  simp_all

/-- Two values of one width are equal when the bits below it are. -/
theorem ext_bit_lt {a b : Value} (hw : a.width = b.width)
    (h : ∀ i < a.width, a.bit i = b.bit i) : a = b := by
  refine ext_bit hw fun i => ?_
  by_cases hi : i < a.width
  · exact h i hi
  · rw [bit_of_width_le (by omega), bit_of_width_le (by omega)]

@[simp] theorem init_width (n : Int) (w m : Nat) : (init n w m).width = w := rfl

@[simp] theorem x_width (w : Nat) : (x w).width = w := rfl

theorem init_mask (n : Int) (w m : Nat) : (init n w m).mask = m % 2 ^ w := rfl

@[simp] theorem ofInt_mask (n : Int) (w : Nat) : (ofInt n w).mask = 0 := by
  rw [init_mask, Nat.zero_mod]

theorem toNat_natCast_emod (n w : Nat) : ((n : Int) % 2 ^ w).toNat = n % 2 ^ w := by
  rw [show ((n : Int) % 2 ^ w) = ((n % 2 ^ w : Nat) : Int) by push_cast; rfl, Int.toNat_natCast]

theorem ofInt_val (n : Int) (w : Nat) : (ofInt n w).val = (n % 2 ^ w).toNat := by
  have hlt : (n % 2 ^ w).toNat < 2 ^ w := (Int.toNat_lt' (by positivity)).mpr (by
    rw [Nat.cast_pow, Nat.cast_ofNat]; exact Int.emod_lt_of_pos _ (by positivity))
  change (n % 2 ^ w).toNat &&& lnot w 0 = _
  rw [lnot, Nat.zero_mod, Nat.xor_zero, maskForWidth, Nat.and_two_pow_sub_one_eq_mod, Nat.mod_eq_of_lt hlt]

@[simp] theorem ofInt_natCast_val (n w : Nat) : (ofInt (n : Int) w).val = n % 2 ^ w := by
  rw [ofInt_val, toNat_natCast_emod]

/-- The bits of a freshly built value. -/
theorem bit_init (n w m i : Nat) : (init (n : Int) w m).bit i
      = if i < w then (if m.testBit i then none else some (n.testBit i)) else some false := by
  simp only [bit, init, toNat_natCast_emod, Nat.testBit_and, Nat.testBit_mod_two_pow, testBit_lnot]
  by_cases hi : i < w <;> by_cases hm : m.testBit i <;> simp [hi, hm]

@[simp] theorem bit_x (w i : Nat) : (x w).bit i = if i < w then none else some false := by
  change (init ((0 : Nat) : Int) w (maskForWidth w)).bit i = _
  rw [bit_init]
  by_cases hi : i < w <;> simp [hi]

/-- `Value(v.val, width=w, mask=v.mask)` keeps the bits below `w`. -/
theorem bit_init_self (v : Value) (w i : Nat) :
    (init (v.val : Int) w v.mask).bit i = if i < w then v.bit i else some false := by
  rw [bit_init]
  rfl

/-- `is_defined`: no bit is `x` or `z`. -/
def isDefined (v : Value) : Bool := v.mask == 0

theorem isDefined_iff {v : Value} : v.isDefined = true ↔ v.mask = 0 := beq_iff_eq

/-- A defined value is rebuilt from its integer. -/
theorem eq_ofInt_of_isDefined {v : Value} (h : v.isDefined = true) : v = ofInt (v.val : Int) v.width := by
  refine ext_bit rfl fun i => ?_
  rw [bit_init, bit, isDefined_iff.mp h]
  by_cases hi : i < v.width
  · simp [hi]
  · simp [hi, Nat.testBit_lt_two_pow (lt_of_lt_of_le v.val_lt
      (Nat.pow_le_pow_right (by norm_num) (Nat.le_of_not_lt hi)))]

/-! ## Width and sign -/

/-- `resize`: zero-extend or truncate. -/
def resize (v : Value) (newWidth : Nat) : Value := init v.val newWidth v.mask

/-- `sign_extend`: the most significant bit, known or not, fills the new bits. Widening a zero-width
value raises. -/
def signExtend (v : Value) (newWidth : Nat) : Option Value :=
  if newWidth ≤ v.width then some (init v.val newWidth v.mask)
  else if v.width = 0 then none
  else
    let ext := maskForWidth newWidth &&& lnot newWidth (maskForWidth v.width)
    if (v.mask >>> (v.width - 1)) &&& 1 ≠ 0 then some (init v.val newWidth (v.mask ||| ext))
    else if (v.val >>> (v.width - 1)) &&& 1 ≠ 0 then some (init (v.val ||| ext : Nat) newWidth v.mask)
    else some (init v.val newWidth v.mask)

/-- `as_signed`: the two's complement reading; raises on an unknown or a zero-width value. -/
def asSigned (v : Value) : Option Int :=
  if v.mask ≠ 0 ∨ v.width = 0 then none
  else if (v.val >>> (v.width - 1)) &&& 1 ≠ 0 then some ((v.val : Int) - 2 ^ v.width)
  else some v.val

@[simp] theorem resize_width (v : Value) (w : Nat) : (v.resize w).width = w := rfl

theorem bit_resize (v : Value) (w i : Nat) : (v.resize w).bit i = if i < w then v.bit i else some false :=
  bit_init_self v w i

@[simp] theorem resize_self (v : Value) : v.resize v.width = v :=
  ext_bit_lt rfl fun i hi => by rw [bit_resize, if_pos (by simpa using hi)]

theorem resize_of_width {v : Value} {w : Nat} (h : v.width = w) : v.resize w = v := by
  rw [← h, resize_self]

/-- Truncating twice truncates to the narrower width. -/
theorem resize_resize_of_le (v : Value) {w n : Nat} (h : w ≤ n) : (v.resize n).resize w = v.resize w := by
  refine ext_bit_lt rfl fun i hi => ?_
  rw [resize_width] at hi
  rw [bit_resize, bit_resize, bit_resize, if_pos hi, if_pos hi, if_pos (by omega)]

theorem and_one_ne_zero_iff (n : Nat) : n &&& 1 ≠ 0 ↔ n.testBit 0 = true := by
  rw [Nat.and_one_is_mod, Nat.testBit_zero]
  simp

theorem shiftRight_and_one_ne_zero (n i : Nat) : (n >>> i) &&& 1 ≠ 0 ↔ n.testBit i = true := by
  rw [and_one_ne_zero_iff, Nat.testBit_shiftRight, Nat.add_zero]

/-- The most significant bit. -/
def msb (v : Value) : Option Bool := v.bit (v.width - 1)

/-- `sign_extend` read bit by bit. -/
theorem signExtend_eq_some {v r : Value} {w : Nat} (h : v.signExtend w = some r) :
    r.width = w ∧ ∀ i < w, r.bit i = if i < v.width then v.bit i else v.msb := by
  unfold signExtend at h
  split at h
  · next hle =>
    cases h
    exact ⟨rfl, fun i hi => by rw [bit_init_self, if_pos hi, if_pos (by omega)]⟩
  split at h
  · cases h
  next hle h0 =>
  dsimp only at h
  have hext : ∀ i < w, (maskForWidth w &&& lnot w (maskForWidth v.width)).testBit i
      = decide (v.width ≤ i) := fun i hi => by
    simp only [Nat.testBit_and, testBit_maskForWidth, testBit_lnot, hi, decide_true, Bool.true_and]
    by_cases hv : i < v.width <;> simp [hv, Nat.le_of_not_lt]
  -- bits from the old width on, where `v` itself reads a known zero
  have hout : ∀ i, ¬ i < v.width → v.mask.testBit i = false ∧ v.val.testBit i = false := fun i hi => by
    have hb := bit_of_width_le (v := v) (Nat.le_of_not_lt hi)
    exact ⟨by rw [mask_testBit, hb]; rfl, by rw [val_testBit, hb]; rfl⟩
  split at h
  · next hm =>
    rw [shiftRight_and_one_ne_zero] at hm
    cases h
    refine ⟨rfl, fun i hi => ?_⟩
    rw [bit_init, if_pos hi, Nat.testBit_or, hext i hi]
    by_cases hv : i < v.width
    · simp [hv, bit, Nat.not_le.mpr hv]
    · simp [hv, msb, bit, hm, Nat.le_of_not_lt hv]
  split at h
  · next hm hv1 =>
    rw [shiftRight_and_one_ne_zero] at hm hv1
    cases h
    refine ⟨rfl, fun i hi => ?_⟩
    rw [bit_init, if_pos hi, Nat.testBit_or, hext i hi]
    by_cases hv : i < v.width
    · simp [hv, bit, Nat.not_le.mpr hv]
    · simp [hv, msb, bit, hm, hv1, Nat.le_of_not_lt hv, (hout i hv).1]
  · next hm hv1 =>
    rw [shiftRight_and_one_ne_zero] at hm hv1
    cases h
    refine ⟨rfl, fun i hi => ?_⟩
    rw [bit_init, if_pos hi]
    by_cases hv : i < v.width
    · simp [hv, bit]
    · simp [hv, msb, bit, hm, hv1, (hout i hv).1, (hout i hv).2]

theorem signExtend_of_le {v : Value} {w : Nat} (h : w ≤ v.width) : v.signExtend w = some (v.resize w) := by
  rw [signExtend, if_pos h]
  rfl

@[simp] theorem signExtend_self (v : Value) : v.signExtend v.width = some v := by
  rw [signExtend_of_le le_rfl, resize_self]

theorem signExtend_of_width {v : Value} {w : Nat} (h : v.width = w) : v.signExtend w = some v := by
  rw [← h, signExtend_self]

/-- A value with a bit to replicate can be sign-extended. -/
theorem exists_signExtend {v : Value} (h : 0 < v.width) (w : Nat) : ∃ r, v.signExtend w = some r := by
  unfold signExtend
  split
  · exact ⟨_, rfl⟩
  rw [if_neg (by omega)]
  dsimp only
  split
  · exact ⟨_, rfl⟩
  split <;> exact ⟨_, rfl⟩

end Value
end Veriforge

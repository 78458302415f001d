import Veriforge.Value.Ops

/-! # The operators bit by bit

What each operator of `Value.Ops` does to bit `i` of its result. The bitwise operators are Kleene's
connectives on the operands' bits; shifts, concatenation and selects only move bits. -/

namespace Veriforge.Value

/-! ## Masks and bits -/

theorem bit_of_mask_eq_zero {a : Value} (h : a.mask = 0) (i : Nat) : a.bit i = some (a.val.testBit i) := by
  rw [bit, h]
  simp

theorem mask_eq_zero_iff {a : Value} : a.mask = 0 ↔ ∀ i, a.bit i ≠ none := by
  constructor
  · intro h i
    rw [bit_of_mask_eq_zero h]
    exact Option.some_ne_none _
  · intro h
    refine Nat.zero_of_testBit_eq_false fun i => ?_
    rw [mask_testBit]
    cases hb : a.bit i with
    | none => exact absurd hb (h i)
    | some k => rfl

theorem isDefined_eq_false_iff {a : Value} : a.isDefined = false ↔ a.mask ≠ 0 := by
  rw [isDefined, beq_eq_false_iff_ne]

/-- The bits of a rebuilt known value. -/
theorem bit_ofInt (n w i : Nat) : (ofInt (n : Int) w).bit i = some (decide (i < w) && n.testBit i) := by
  rw [bit_init]
  by_cases hi : i < w <;> simp [hi]

@[simp] theorem ofBool_mask (b : Bool) : (ofBool b).mask = 0 := ofInt_mask _ _

@[simp] theorem ofBool_val (b : Bool) : (ofBool b).val = b.toNat := by
  cases b <;> rfl

@[simp] theorem ofBool_width (b : Bool) : (ofBool b).width = 1 := rfl

@[simp] theorem x_mask (w : Nat) : (x w).mask = maskForWidth w := by
  rw [x, init_mask, Nat.mod_eq_of_lt]
  exact Nat.sub_lt (by positivity) Nat.one_pos

@[simp] theorem x_val (w : Nat) : (x w).val = 0 := by
  refine Nat.zero_of_testBit_eq_false fun i => ?_
  rw [val_testBit, bit_x]
  split <;> rfl

/-! ## Bitwise operators -/

theorem bit_and (a b : Value) (i : Nat) : (a.and b).bit i = Kleene.and (a.bit i) (b.bit i) := by
  by_cases hi : i < max a.width b.width
  · unfold and
    dsimp only
    split
    · next h =>
      rw [bit_ofInt, bit_of_mask_eq_zero h.1, bit_of_mask_eq_zero h.2, Nat.testBit_and]
      cases a.val.testBit i <;> cases b.val.testBit i <;> simp [hi, Kleene.and]
    · rw [bit_init]
      simp only [hi, Nat.testBit_and, Nat.testBit_or, testBit_lnot, testBit_maskForWidth, val_testBit, mask_testBit]
      generalize a.bit i = p
      generalize b.bit i = q
      rcases p with _ | _ | _ <;> rcases q with _ | _ | _ <;> rfl
  · have ha : a.bit i = some false := bit_of_width_le (by omega)
    have hb : b.bit i = some false := bit_of_width_le (by omega)
    rw [ha, hb, bit_of_width_le]
    · rfl
    · unfold and
      dsimp only
      split <;> simpa using hi

theorem bit_or (a b : Value) (i : Nat) : (a.or b).bit i = Kleene.or (a.bit i) (b.bit i) := by
  by_cases hi : i < max a.width b.width
  · unfold or
    dsimp only
    split
    · next h =>
      rw [bit_ofInt, bit_of_mask_eq_zero h.1, bit_of_mask_eq_zero h.2, Nat.testBit_or]
      cases a.val.testBit i <;> cases b.val.testBit i <;> simp [hi, Kleene.or]
    · rw [bit_init]
      simp only [hi, Nat.testBit_and, Nat.testBit_or, testBit_lnot, testBit_maskForWidth, val_testBit, mask_testBit]
      generalize a.bit i = p
      generalize b.bit i = q
      rcases p with _ | _ | _ <;> rcases q with _ | _ | _ <;> rfl
  · have ha : a.bit i = some false := bit_of_width_le (by omega)
    have hb : b.bit i = some false := bit_of_width_le (by omega)
    rw [ha, hb, bit_of_width_le]
    · rfl
    · unfold or
      dsimp only
      split <;> simpa using hi

theorem bit_xor (a b : Value) (i : Nat) : (a.xor b).bit i = Kleene.xor (a.bit i) (b.bit i) := by
  by_cases hi : i < max a.width b.width
  · unfold xor
    dsimp only
    split
    · rw [bit_init]
      simp only [hi, Nat.testBit_and, Nat.testBit_or, Nat.testBit_xor, testBit_lnot,
        testBit_maskForWidth, val_testBit, mask_testBit]
      generalize a.bit i = p
      generalize b.bit i = q
      rcases p with _ | _ | _ <;> rcases q with _ | _ | _ <;> rfl
    · next h =>
      rw [not_or, not_not, not_not] at h
      rw [bit_ofInt, bit_of_mask_eq_zero h.1, bit_of_mask_eq_zero h.2, Nat.testBit_xor]
      simp [hi, Kleene.xor]
  · have ha : a.bit i = some false := bit_of_width_le (by omega)
    have hb : b.bit i = some false := bit_of_width_le (by omega)
    rw [ha, hb, bit_of_width_le]
    · rfl
    · unfold xor
      dsimp only
      split <;> simpa using hi

theorem bit_invert (a : Value) (i : Nat) :
    a.invert.bit i = if i < a.width then Kleene.not (a.bit i) else some false := by
  unfold invert
  split
  · rw [bit_init]
    simp only [Nat.testBit_and, testBit_lnot, val_testBit, mask_testBit]
    by_cases hi : i < a.width
    · simp only [hi]
      generalize a.bit i = p
      rcases p with _ | _ | _ <;> rfl
    · simp [hi]
  · next h =>
    rw [not_not] at h
    rw [bit_ofInt, bit_of_mask_eq_zero h, testBit_lnot]
    by_cases hi : i < a.width <;> simp [hi, Kleene.not]

@[simp] theorem and_width (a b : Value) : (a.and b).width = max a.width b.width := by
  unfold and
  dsimp only
  split <;> rfl

@[simp] theorem or_width (a b : Value) : (a.or b).width = max a.width b.width := by
  unfold or
  dsimp only
  split <;> rfl

@[simp] theorem xor_width (a b : Value) : (a.xor b).width = max a.width b.width := by
  unfold xor
  dsimp only
  split <;> rfl

@[simp] theorem invert_width (a : Value) : a.invert.width = a.width := by
  unfold invert
  split <;> rfl

/-! ## Moving bits -/

theorem bit_lshift {a b : Value} (hb : b.mask = 0) (i : Nat) : (a.lshift b).bit i
      = if i < a.width ∧ b.val ≤ i then a.bit (i - b.val) else some false := by
  rw [lshift, if_neg (by simpa using hb)]
  by_cases hi : i < a.width
  · split
    · rw [if_neg (by omega), show (0 : Int) = ((0 : Nat) : Int) from rfl, bit_ofInt]
      simp
    · rw [bit_init, if_pos hi, Nat.testBit_shiftLeft, Nat.testBit_shiftLeft]
      by_cases hs : b.val ≤ i <;> simp [hi, hs, bit]
  · refine Eq.trans (bit_of_width_le ?_) (if_neg (by omega)).symm
    split <;> simpa using hi

theorem bit_rshift {a b : Value} (hb : b.mask = 0) (i : Nat) : (a.rshift b).bit i = a.bit (i + b.val) := by
  rw [rshift, if_neg (by simpa using hb)]
  split
  · rw [show (0 : Int) = ((0 : Nat) : Int) from rfl, bit_ofInt, bit_of_width_le (by omega)]
    simp
  · rw [bit_init, Nat.testBit_shiftRight, Nat.testBit_shiftRight, Nat.add_comm b.val]
    split
    · rfl
    · rw [bit_of_width_le (by omega)]

@[simp] theorem lshift_width (a b : Value) : (a.lshift b).width = a.width := by
  unfold lshift
  split
  · rfl
  split <;> rfl

@[simp] theorem rshift_width (a b : Value) : (a.rshift b).width = a.width := by
  unfold rshift
  split
  · rfl
  split <;> rfl

@[simp] theorem concat_width (a b : Value) : (a.concat b).width = a.width + b.width := rfl

theorem bit_concat (a b : Value) (i : Nat) :
    (a.concat b).bit i = if i < b.width then b.bit i else a.bit (i - b.width) := by
  rw [concat, bit_init]
  simp only [Nat.testBit_or, Nat.testBit_shiftLeft]
  by_cases hi : i < a.width + b.width
  · rw [if_pos hi]
    by_cases hb : i < b.width
    · simp [hb, Nat.not_le.mpr hb, bit]
    · -- past `b` its own bits are known zeros
      have hz := bit_of_width_le (v := b) (Nat.le_of_not_lt hb)
      rw [val_testBit b, mask_testBit b, hz]
      simp [hb, Nat.le_of_not_lt hb, bit]
  · rw [if_neg hi, if_neg (by omega), bit_of_width_le (by omega)]

/-- One more round of the replication loop. -/
theorem replicateLoop_succ (a : Value) (n v m : Nat) : a.replicateLoop (n + 1) v m
      = (((a.replicateLoop n v m).1 <<< a.width) ||| a.val, ((a.replicateLoop n v m).2 <<< a.width) ||| a.mask) := by
  induction n generalizing v m with
  | zero => rfl
  | succ n ih =>
    rw [replicateLoop, ih]
    rfl

/-- The integers of the replication loop, bit by bit. -/
theorem replicateLoop_testBit (a : Value) (n i : Nat) : (a.replicateLoop n 0 0).1.testBit i
        = (decide (i < a.width * n) && a.val.testBit (i % a.width)) ∧
      (a.replicateLoop n 0 0).2.testBit i
        = (decide (i < a.width * n) && a.mask.testBit (i % a.width)) := by
  induction n generalizing i with
  | zero => simp [replicateLoop]
  | succ n ih =>
    rw [replicateLoop_succ]
    simp only [Nat.testBit_or, Nat.testBit_shiftLeft]
    by_cases hi : i < a.width
    · have hn : i < a.width * (n + 1) := lt_of_lt_of_le hi (Nat.le_mul_of_pos_right _ (by omega))
      simp [Nat.not_le.mpr hi, Nat.mod_eq_of_lt hi, hn]
    · have hz := bit_of_width_le (v := a) (Nat.le_of_not_lt hi)
      have hmod : (i - a.width) % a.width = i % a.width :=
        (Nat.mod_eq_sub_mod (Nat.le_of_not_lt hi)).symm
      have hlt : i - a.width < a.width * n ↔ i < a.width * (n + 1) := by
        rw [Nat.mul_succ]
        omega
      rw [(ih _).1, (ih _).2, val_testBit a i, mask_testBit a i, hz, hmod]
      simp [Nat.le_of_not_lt hi, hlt]

@[simp] theorem replicate_width (a : Value) (n : Nat) : (a.replicate n).width = a.width * n := rfl

theorem bit_replicate (a : Value) (n i : Nat) :
    (a.replicate n).bit i = if i < a.width * n then a.bit (i % a.width) else some false := by
  unfold replicate
  dsimp only
  rw [bit_init]
  split
  · next hi =>
    rw [(replicateLoop_testBit a n i).1, (replicateLoop_testBit a n i).2, bit]
    simp [hi]
  · rfl

/-! ## Selects -/

/-- The bit at a position, unknown outside the value. -/
def bitAt (a : Value) (p : Int) : Option Bool :=
  if 0 ≤ p ∧ p < a.width then a.bit p.toNat else none

@[simp] theorem getBit_width (a : Value) (k : Int) : (a.getBit k).width = 1 := by
  unfold getBit
  split <;> rfl

theorem bit_getBit (a : Value) (k : Int) : (a.getBit k).bit 0 = a.bitAt k := by
  unfold getBit bitAt
  split
  · next h => rw [bit_x, if_pos Nat.one_pos, if_neg (by omega)]
  · next h =>
    rw [if_pos (by omega), bit_init, if_pos Nat.one_pos, Nat.testBit_and, Nat.testBit_and,
      Nat.testBit_shiftRight, Nat.testBit_shiftRight]
    simp [bit]

/-- The bounds of a slice, the larger first. -/
def orderBounds (msb lsb : Int) : Int × Int := if msb < lsb then (lsb, msb) else (msb, lsb)

theorem orderBounds_of_le {msb lsb : Int} (h : lsb ≤ msb) : orderBounds msb lsb = (msb, lsb) :=
  if_neg (by omega)

theorem getRange_width (a : Value) (msb lsb : Int) : (a.getRange msb lsb).width
      = ((orderBounds msb lsb).1 - (orderBounds msb lsb).2 + 1).toNat := rfl

/-- A shift by an integer moves positions. -/
theorem shift_testBit (n : Nat) (lsb : Int) (i : Nat) :
    (if 0 ≤ lsb then n >>> lsb.toNat else n <<< (-lsb).toNat).testBit i
      = (decide (0 ≤ lsb + i) && n.testBit (lsb + i).toNat) := by
  split
  · rw [Nat.testBit_shiftRight, show (lsb + i).toNat = lsb.toNat + i by omega]
    simp [show 0 ≤ lsb + i by omega]
  · rw [Nat.testBit_shiftLeft]
    by_cases h : (-lsb).toNat ≤ i
    · rw [show (lsb + i).toNat = i - (-lsb).toNat by omega]
      simp [h, show 0 ≤ lsb + i by omega]
    · simp [h, show ¬ 0 ≤ lsb + i by omega]

/-- The out-of-range mask of a slice above the value. -/
theorem highMask_testBit (aw w : Nat) (lsb : Int) {i : Nat} (hi : i < w) :
    (if lsb + w > aw then lnot w (maskForWidth (aw - lsb).toNat) else 0).testBit i
      = decide ((aw : Int) ≤ lsb + i) := by
  split
  · rw [testBit_lnot, testBit_maskForWidth]
    simp only [hi, decide_true, Bool.true_and]
    rw [← decide_not]
    exact decide_eq_decide.mpr (by omega)
  · rw [Nat.zero_testBit]
    simp
    omega

/-- The out-of-range mask of a slice below the value. -/
theorem lowMask_testBit (w : Nat) (lsb : Int) {i : Nat} (hi : i < w) :
    (if lsb < 0 then maskForWidth (min w (-lsb).toNat) else 0).testBit i
      = decide (lsb + i < 0) := by
  split
  · rw [testBit_maskForWidth]
    exact decide_eq_decide.mpr (by omega)
  · rw [Nat.zero_testBit]
    simp
    omega

/-- Bit `i` of a slice is the target's bit `i` positions above the low bound. -/
theorem bit_getRange (a : Value) (msb lsb : Int) {i : Nat}
    (hi : i < (a.getRange msb lsb).width) :
    (a.getRange msb lsb).bit i = a.bitAt ((orderBounds msb lsb).2 + i) := by
  rw [getRange_width] at hi
  unfold getRange
  rw [show (if msb < lsb then (lsb, msb) else (msb, lsb)) = orderBounds msb lsb from rfl]
  generalize orderBounds msb lsb = bounds at *
  obtain ⟨m, l⟩ := bounds
  dsimp only at hi ⊢
  rw [bit_init, if_pos hi]
  simp only [Nat.testBit_or, Nat.testBit_and, testBit_lnot, shift_testBit, highMask_testBit _ _ _ hi,
    lowMask_testBit _ _ hi, hi, decide_true, Bool.true_and]
  by_cases h0 : 0 ≤ l + i
  · by_cases hin : l + i < a.width
    · have hb : a.bitAt (l + i) = a.bit (l + i).toNat := if_pos ⟨h0, hin⟩
      rw [hb, bit]
      simp [h0, Int.not_lt.mpr h0, Int.not_le.mpr hin]
    · have hb : a.bitAt (l + i) = none := if_neg fun h => hin h.2
      rw [hb]
      simp [Int.not_lt.mp hin]
  · have hb : a.bitAt (l + i) = none := if_neg fun h => h0 h.1
    rw [hb]
    simp [Int.not_le.mp h0]

/-! ## Updates -/

@[simp] theorem setRange_width (a : Value) (msb lsb : Int) (part : Value) :
    (a.setRange msb lsb part).width = a.width := by
  unfold setRange
  dsimp only
  generalize (if lsb < 0 then 0 else lsb) = l
  split <;> rfl

/-- The part of a range update left of position 0 is dropped. -/
theorem bit_drop (part : Value) (n w i : Nat) (hw : part.width ≤ w + n) :
    (init (part.val >>> n : Nat) w (part.mask >>> n)).bit i = part.bit (i + n) := by
  rw [bit_init, Nat.testBit_shiftRight, Nat.testBit_shiftRight, Nat.add_comm n i]
  split
  · rfl
  · rw [bit_of_width_le (by omega)]

/-- A range update replaces the positions between its bounds and no other. -/
theorem bit_setRange (a : Value) (msb lsb : Int) (part : Value) {i : Nat} (hi : i < a.width) :
    (a.setRange msb lsb part).bit i
      = if lsb ≤ i ∧ (i : Int) ≤ msb then part.bit (i - lsb).toNat else a.bit i := by
  unfold setRange
  dsimp only
  -- the part shifted so that its bit 0 belongs to the clamped low bound
  have hpart : ∀ j : Nat, (if lsb < 0 then
      init (part.val >>> (-lsb).toNat : Nat) (max (part.width + lsb) 1).toNat
        (part.mask >>> (-lsb).toNat)
    else part).bit j = part.bit (j + (-lsb).toNat) := fun j => by
    split
    · rw [bit_drop _ _ _ _ (by omega)]
    · rw [show (-lsb).toNat = 0 by omega, Nat.add_zero]
  generalize (if lsb < 0 then
      init (part.val >>> (-lsb).toNat : Nat) (max (part.width + lsb) 1).toNat
        (part.mask >>> (-lsb).toNat)
    else part) = part' at *
  have hclamp : (if lsb < 0 then 0 else lsb) = max lsb 0 := by
    split <;> omega
  rw [hclamp]
  split
  · rw [if_neg (by omega)]
  · next hml =>
    rw [bit_init, if_pos hi]
    simp only [Nat.testBit_or, Nat.testBit_and, Nat.testBit_shiftLeft, testBit_lnot, testBit_maskForWidth]
    have hbig : i < max a.width ((msb - max lsb 0 + 1).toNat + (max lsb 0).toNat) := by omega
    by_cases hin : lsb ≤ i ∧ (i : Int) ≤ msb
    · have h1 : (max lsb 0).toNat ≤ i := by omega
      have h2 : i - (max lsb 0).toNat < (msb - max lsb 0 + 1).toNat := by omega
      have hp := hpart (i - (max lsb 0).toNat)
      rw [show i - (max lsb 0).toNat + (-lsb).toNat = (i - lsb).toNat by omega] at hp
      rw [if_pos hin, ← hp, bit]
      simp [h1, h2, hbig]
    · have h2 : ¬ ((max lsb 0).toNat ≤ i ∧ i - (max lsb 0).toNat < (msb - max lsb 0 + 1).toNat) := by
        omega
      rw [if_neg hin, bit]
      by_cases h1 : (max lsb 0).toNat ≤ i
      · have h3 : ¬ i - (max lsb 0).toNat < (msb - max lsb 0 + 1).toNat := fun h => h2 ⟨h1, h⟩
        simp [h1, h3, hbig]
      · simp [h1, hbig]

end Veriforge.Value

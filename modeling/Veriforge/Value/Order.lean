import Veriforge.Value.Bits

/-! # The information order on values

`a ≤ b`: the two values have one width and `b` knows every bit `a` knows. Replacing `x` bits by 0 or 1
goes up in this order. Every operator of `Value.Ops` except `===` and `!==` is monotone: it never
reports a bit it would have to take back when its operands become better known. -/

namespace Veriforge.Value

instance : LE Value := ⟨fun a b => a.width = b.width ∧ ∀ i, Kleene.Le (a.bit i) (b.bit i)⟩

theorem le_def {a b : Value} : a ≤ b ↔ a.width = b.width ∧ ∀ i, Kleene.Le (a.bit i) (b.bit i) := Iff.rfl

theorem width_eq_of_le {a b : Value} (h : a ≤ b) : a.width = b.width := h.1

theorem bit_le_of_le {a b : Value} (h : a ≤ b) (i : Nat) : Kleene.Le (a.bit i) (b.bit i) := h.2 i

instance : PartialOrder Value where
  le_refl a := ⟨rfl, fun i => Kleene.Le.refl (a.bit i)⟩
  le_trans a b c hab hbc := ⟨hab.1.trans hbc.1, fun i => (hab.2 i).trans (hbc.2 i)⟩
  le_antisymm a b hab hba := ext_bit hab.1 fun i => (hab.2 i).antisymm (hba.2 i)

/-- The bits below the width decide the order. -/
theorem le_of_bit_lt {a b : Value} (hw : a.width = b.width)
    (h : ∀ i < a.width, Kleene.Le (a.bit i) (b.bit i)) : a ≤ b := by
  refine ⟨hw, fun i => ?_⟩
  by_cases hi : i < a.width
  · exact h i hi
  · rw [bit_of_width_le (by omega), bit_of_width_le (by omega)]
    exact Kleene.Le.refl _

/-- The unknown value is below every value of its width. -/
theorem x_le {a : Value} {w : Nat} (h : a.width = w) : x w ≤ a := by
  refine le_of_bit_lt h.symm fun i hi => ?_
  rw [bit_x, if_pos (by simpa using hi)]
  exact Kleene.Le.none_left _

/-- A defined value has nothing left to learn. -/
theorem eq_of_le {a b : Value} (h : a ≤ b) (hm : a.mask = 0) : a = b := by
  refine ext_bit h.1 fun i => ?_
  have hk := bit_le_of_le h i
  rw [bit_of_mask_eq_zero hm i] at hk ⊢
  exact (Kleene.le_some_left.mp hk).symm

theorem bit_eq_some_of_le {a b : Value} (h : a ≤ b) {i : Nat} {k : Bool} (hk : a.bit i = some k) :
    b.bit i = some k := bit_le_of_le h i k hk

/-! ## All-or-nothing operators -/

/-- An operator that answers `x` as soon as an operand has an `x` bit is monotone. -/
theorem le_of_strict {f : Value → Value → Value} {W : Nat → Nat → Nat}
    (hx : ∀ a b, a.mask ≠ 0 ∨ b.mask ≠ 0 → f a b = x (W a.width b.width))
    (hw : ∀ a b, (f a b).width = W a.width b.width) {a a' b b' : Value} (ha : a ≤ a') (hb : b ≤ b') :
    f a b ≤ f a' b' := by
  by_cases h : a.mask ≠ 0 ∨ b.mask ≠ 0
  · rw [hx a b h, ha.1, hb.1]
    exact x_le (hw a' b')
  · rw [not_or, not_not, not_not] at h
    rw [eq_of_le ha h.1, eq_of_le hb h.2]

/-- The same for an operator of one operand. -/
theorem le_of_strict₁ {f : Value → Value} {W : Nat → Nat}
    (hx : ∀ a, a.mask ≠ 0 → f a = x (W a.width)) (hw : ∀ a, (f a).width = W a.width)
    {a a' : Value} (ha : a ≤ a') : f a ≤ f a' := by
  by_cases h : a.mask ≠ 0
  · rw [hx a h, ha.1]
    exact x_le (hw a')
  · rw [not_not] at h
    rw [eq_of_le ha h]

@[simp] theorem add_width (a b : Value) : (a.add b).width = max a.width b.width := by
  unfold add
  dsimp only
  split <;> rfl

@[simp] theorem sub_width (a b : Value) : (a.sub b).width = max a.width b.width := by
  unfold sub
  dsimp only
  split <;> rfl

@[simp] theorem mul_width (a b : Value) : (a.mul b).width = max a.width b.width := by
  unfold mul
  dsimp only
  split <;> rfl

@[simp] theorem mod_width (a b : Value) : (a.mod b).width = max a.width b.width := by
  unfold mod
  dsimp only
  split
  · rfl
  split <;> rfl

@[simp] theorem floordiv_width (a b : Value) : (a.floordiv b).width = max a.width b.width := by
  unfold floordiv
  dsimp only
  split
  · rfl
  split <;> rfl

@[simp] theorem neg_width (a : Value) : a.neg.width = a.width := by
  unfold neg
  split <;> rfl

@[simp] theorem ofPow_width (r : Option Int) (w : Nat) : (ofPow r w).width = w := by
  cases r <;> rfl

@[simp] theorem pow_width (a b : Value) : (a.pow b).width = a.width := by
  unfold pow
  dsimp only
  split
  · rfl
  · exact ofPow_width _ _

@[simp] theorem cmp_width (op : Nat → Nat → Bool) (a b : Value) : (cmp op a b).width = 1 := by
  unfold cmp
  split <;> rfl

theorem add_mono {a a' b b' : Value} (ha : a ≤ a') (hb : b ≤ b') : a.add b ≤ a'.add b' :=
  le_of_strict (fun _ _ h => if_pos h) add_width ha hb

theorem sub_mono {a a' b b' : Value} (ha : a ≤ a') (hb : b ≤ b') : a.sub b ≤ a'.sub b' :=
  le_of_strict (fun _ _ h => if_pos h) sub_width ha hb

theorem mul_mono {a a' b b' : Value} (ha : a ≤ a') (hb : b ≤ b') : a.mul b ≤ a'.mul b' :=
  le_of_strict (fun _ _ h => if_pos h) mul_width ha hb

theorem mod_mono {a a' b b' : Value} (ha : a ≤ a') (hb : b ≤ b') : a.mod b ≤ a'.mod b' :=
  le_of_strict (fun _ _ h => if_pos h) mod_width ha hb

theorem floordiv_mono {a a' b b' : Value} (ha : a ≤ a') (hb : b ≤ b') : a.floordiv b ≤ a'.floordiv b' :=
  le_of_strict (fun _ _ h => if_pos h) floordiv_width ha hb

theorem pow_mono {a a' b b' : Value} (ha : a ≤ a') (hb : b ≤ b') : a.pow b ≤ a'.pow b' :=
  le_of_strict (W := fun w _ => w) (fun _ _ h => if_pos h) pow_width ha hb

theorem cmp_mono {a a' b b' : Value} (op : Nat → Nat → Bool) (ha : a ≤ a') (hb : b ≤ b') :
    cmp op a b ≤ cmp op a' b' :=
  le_of_strict (W := fun _ _ => 1) (fun _ _ h => if_pos h) (cmp_width op) ha hb

theorem neg_mono {a a' : Value} (ha : a ≤ a') : a.neg ≤ a'.neg :=
  le_of_strict₁ (f := neg) (W := id) (fun _ h => if_pos h) neg_width ha

@[simp] theorem reduceXor_width (a : Value) : a.reduceXor.width = 1 := by
  unfold reduceXor
  split <;> rfl

theorem reduceXor_mono {a a' : Value} (ha : a ≤ a') : a.reduceXor ≤ a'.reduceXor :=
  le_of_strict₁ (W := fun _ => 1) (fun _ h => if_pos h) reduceXor_width ha

/-! ## Bitwise operators -/

theorem and_mono {a a' b b' : Value} (ha : a ≤ a') (hb : b ≤ b') : a.and b ≤ a'.and b' :=
  ⟨by rw [and_width, and_width, ha.1, hb.1], fun i => by
    rw [bit_and, bit_and]
    exact Kleene.and_mono (ha.2 i) (hb.2 i)⟩

theorem or_mono {a a' b b' : Value} (ha : a ≤ a') (hb : b ≤ b') : a.or b ≤ a'.or b' :=
  ⟨by rw [or_width, or_width, ha.1, hb.1], fun i => by
    rw [bit_or, bit_or]
    exact Kleene.or_mono (ha.2 i) (hb.2 i)⟩

theorem xor_mono {a a' b b' : Value} (ha : a ≤ a') (hb : b ≤ b') : a.xor b ≤ a'.xor b' :=
  ⟨by rw [xor_width, xor_width, ha.1, hb.1], fun i => by
    rw [bit_xor, bit_xor]
    exact Kleene.xor_mono (ha.2 i) (hb.2 i)⟩

theorem invert_mono {a a' : Value} (ha : a ≤ a') : a.invert ≤ a'.invert :=
  ⟨by rw [invert_width, invert_width, ha.1], fun i => by
    rw [bit_invert, bit_invert, ha.1]
    split
    · exact Kleene.not_mono (ha.2 i)
    · exact Kleene.Le.refl _⟩

/-! ## Moving bits -/

theorem resize_mono {a a' : Value} (w : Nat) (ha : a ≤ a') : a.resize w ≤ a'.resize w :=
  ⟨rfl, fun i => by
    rw [bit_resize, bit_resize]
    split
    · exact ha.2 i
    · exact Kleene.Le.refl _⟩

theorem msb_mono {a a' : Value} (ha : a ≤ a') : Kleene.Le a.msb a'.msb := by
  rw [msb, msb, ha.1]
  exact ha.2 _

theorem signExtend_mono {a a' r r' : Value} {w : Nat} (ha : a ≤ a') (hr : a.signExtend w = some r)
    (hr' : a'.signExtend w = some r') : r ≤ r' := by
  obtain ⟨hw, hb⟩ := signExtend_eq_some hr
  obtain ⟨hw', hb'⟩ := signExtend_eq_some hr'
  refine le_of_bit_lt (hw.trans hw'.symm) fun i hi => ?_
  rw [hw] at hi
  rw [hb i hi, hb' i hi, ha.1]
  split
  · exact ha.2 i
  · exact msb_mono ha

theorem lshift_mono {a a' b b' : Value} (ha : a ≤ a') (hb : b ≤ b') : a.lshift b ≤ a'.lshift b' := by
  by_cases h : b.mask = 0
  · rw [← eq_of_le hb h]
    refine ⟨by rw [lshift_width, lshift_width, ha.1], fun i => ?_⟩
    rw [bit_lshift h, bit_lshift h, ha.1]
    split
    · exact ha.2 _
    · exact Kleene.Le.refl _
  · rw [lshift, if_pos h, ha.1]
    exact x_le (lshift_width _ _)

theorem rshift_mono {a a' b b' : Value} (ha : a ≤ a') (hb : b ≤ b') : a.rshift b ≤ a'.rshift b' := by
  by_cases h : b.mask = 0
  · rw [← eq_of_le hb h]
    refine ⟨by rw [rshift_width, rshift_width, ha.1], fun i => ?_⟩
    rw [bit_rshift h, bit_rshift h]
    exact ha.2 _
  · rw [rshift, if_pos h, ha.1]
    exact x_le (rshift_width _ _)

theorem concat_mono {a a' b b' : Value} (ha : a ≤ a') (hb : b ≤ b') : a.concat b ≤ a'.concat b' :=
  ⟨by rw [concat_width, concat_width, ha.1, hb.1], fun i => by
    rw [bit_concat, bit_concat, hb.1]
    split
    · exact hb.2 i
    · exact ha.2 _⟩

theorem replicate_mono {a a' : Value} (n : Nat) (ha : a ≤ a') : a.replicate n ≤ a'.replicate n :=
  ⟨by rw [replicate_width, replicate_width, ha.1], fun i => by
    rw [bit_replicate, bit_replicate, ha.1]
    split
    · exact ha.2 _
    · exact Kleene.Le.refl _⟩

theorem bitAt_mono {a a' : Value} (ha : a ≤ a') (p : Int) : Kleene.Le (a.bitAt p) (a'.bitAt p) := by
  unfold bitAt
  rw [ha.1]
  split
  · exact ha.2 _
  · exact Kleene.Le.none_left _

theorem getBit_mono {a a' : Value} (k : Int) (ha : a ≤ a') : a.getBit k ≤ a'.getBit k := by
  refine le_of_bit_lt (by rw [getBit_width, getBit_width]) fun i hi => ?_
  rw [getBit_width] at hi
  rw [show i = 0 by omega, bit_getBit, bit_getBit]
  exact bitAt_mono ha k

theorem getRange_mono {a a' : Value} (m l : Int) (ha : a ≤ a') : a.getRange m l ≤ a'.getRange m l := by
  refine le_of_bit_lt rfl fun i hi => ?_
  have hi' : i < (a'.getRange m l).width := hi
  rw [bit_getRange _ _ _ hi, bit_getRange _ _ _ hi']
  exact bitAt_mono ha _

/-! ## Tests on bits

`==` and `!=` look for a bit known in both operands that differs; the reductions and the logical
operators for a known 0 or a known 1. -/

theorem ne_zero_iff_exists_testBit {n : Nat} : n ≠ 0 ↔ ∃ i, n.testBit i = true := by
  constructor
  · exact Nat.exists_testBit_of_ne_zero
  · rintro ⟨i, hi⟩ rfl
    simp at hi

theorem knownDiff_iff {a b : Value} : a.knownDiff b = true ↔ ∃ i k, a.bit i = some k ∧ b.bit i = some !k := by
  unfold knownDiff
  dsimp only
  rw [bne_iff_ne, ne_zero_iff_exists_testBit]
  refine exists_congr fun i => ?_
  simp only [Nat.testBit_and, Nat.testBit_xor, testBit_lnot, val_testBit, mask_testBit]
  by_cases hi : i < max a.width b.width
  · simp only [hi, decide_true, Bool.true_and]
    generalize a.bit i = p
    generalize b.bit i = q
    rcases p with _ | _ | _ <;> rcases q with _ | _ | _ <;> simp
  · rw [bit_of_width_le (v := a) (by omega), bit_of_width_le (v := b) (by omega)]
    simp

theorem knownDiff_mono {a a' b b' : Value} (ha : a ≤ a') (hb : b ≤ b') (h : a.knownDiff b = true) :
    a'.knownDiff b' = true := by
  obtain ⟨i, k, h1, h2⟩ := knownDiff_iff.mp h
  exact knownDiff_iff.mpr ⟨i, k, bit_eq_some_of_le ha h1, bit_eq_some_of_le hb h2⟩

theorem knownOne_iff {a : Value} : a.knownOne = true ↔ ∃ i, a.bit i = some true := by
  unfold knownOne
  rw [bne_iff_ne, ne_zero_iff_exists_testBit]
  refine exists_congr fun i => ?_
  simp only [Nat.testBit_and, testBit_lnot, val_testBit, mask_testBit]
  by_cases hi : i < a.width
  · simp only [hi, decide_true, Bool.true_and]
    generalize a.bit i = p
    rcases p with _ | _ | _ <;> simp
  · rw [bit_of_width_le (v := a) (by omega)]
    simp

theorem knownOne_mono {a a' : Value} (ha : a ≤ a') (h : a.knownOne = true) : a'.knownOne = true := by
  obtain ⟨i, hi⟩ := knownOne_iff.mp h
  exact knownOne_iff.mpr ⟨i, bit_eq_some_of_le ha hi⟩

theorem knownZero_iff {a : Value} : a.knownZero = true ↔ a.mask = 0 ∧ a.val = 0 := by
  rw [knownZero, Bool.and_eq_true, beq_iff_eq, beq_iff_eq]

theorem knownZero_mono {a a' : Value} (ha : a ≤ a') (h : a.knownZero = true) : a'.knownZero = true := by
  rw [← eq_of_le ha (knownZero_iff.mp h).1]
  exact h

/-- `a & known != known`: some bit is known to be 0. -/
theorem exists_known_false_iff {a : Value} : a.val &&& (maskForWidth a.width &&& lnot a.width a.mask)
        ≠ maskForWidth a.width &&& lnot a.width a.mask ↔
      ∃ i < a.width, a.bit i = some false := by
  rw [ne_eq, ← not_iff_not, not_not, not_exists]
  have hbit : ∀ i, ((a.val &&& (maskForWidth a.width &&& lnot a.width a.mask)).testBit i
        = (maskForWidth a.width &&& lnot a.width a.mask).testBit i) ↔
      ¬ (i < a.width ∧ a.bit i = some false) := fun i => by
    simp only [Nat.testBit_and, testBit_maskForWidth, testBit_lnot, val_testBit, mask_testBit]
    by_cases hi : i < a.width
    · simp only [hi, decide_true, Bool.true_and, true_and]
      generalize a.bit i = p
      rcases p with _ | _ | _ <;> simp
    · simp [hi]
  exact ⟨fun h i => (hbit i).mp (by rw [h]), fun h => Nat.eq_of_testBit_eq fun i => (hbit i).mpr (h i)⟩

/-- `&a`: false on a known 0, else unknown on an unknown bit, else true. -/
theorem reduceAnd_eq (a : Value) : (∃ i < a.width, a.bit i = some false) ∧ a.reduceAnd = ofBool false ∨
      (¬ ∃ i < a.width, a.bit i = some false) ∧ a.reduceAnd = if a.mask ≠ 0 then x 1 else ofBool true := by
  unfold reduceAnd
  dsimp only
  by_cases hm : a.mask ≠ 0
  · rw [if_pos hm, if_pos hm]
    by_cases h : ∃ i < a.width, a.bit i = some false
    · exact Or.inl ⟨h, if_pos (exists_known_false_iff.mpr h)⟩
    · exact Or.inr ⟨h, if_neg fun hne => h (exists_known_false_iff.mp hne)⟩
  · rw [if_neg hm, if_neg hm]
    rw [not_not] at hm
    have hknown : maskForWidth a.width &&& lnot a.width a.mask = maskForWidth a.width := by
      refine Nat.eq_of_testBit_eq fun i => ?_
      simp [hm]
    have hiff := exists_known_false_iff (a := a)
    rw [hknown] at hiff
    by_cases h : ∃ i < a.width, a.bit i = some false
    · exact Or.inl ⟨h, by rw [decide_eq_false (hiff.mpr h)]⟩
    · refine Or.inr ⟨h, ?_⟩
      rw [decide_eq_true (not_not.mp fun hne => h (hiff.mp hne))]

theorem reduceAnd_mono {a a' : Value} (ha : a ≤ a') : a.reduceAnd ≤ a'.reduceAnd := by
  rcases reduceAnd_eq a with ⟨⟨i, hi, hb⟩, h⟩ | ⟨hno, h⟩
  · -- the known 0 is still there
    have hb' : ∃ j < a'.width, a'.bit j = some false :=
      ⟨i, by rw [← ha.1]; exact hi, bit_eq_some_of_le ha hb⟩
    rcases reduceAnd_eq a' with ⟨-, h'⟩ | ⟨hno, -⟩
    · rw [h, h']
    · exact absurd hb' hno
  · by_cases hm : a.mask ≠ 0
    · rw [h, if_pos hm]
      refine x_le ?_
      rcases reduceAnd_eq a' with ⟨-, h'⟩ | ⟨-, h'⟩ <;> rw [h']
      · rfl
      · split <;> rfl
    · rw [not_not] at hm
      rw [eq_of_le ha hm]

/-- `|a`: true on a known 1, else unknown on an unknown bit, else false. -/
theorem reduceOr_eq (a : Value) :
    a.reduceOr = if a.knownOne then ofBool true else if a.mask ≠ 0 then x 1 else ofBool false := by
  unfold reduceOr
  by_cases hm : a.mask ≠ 0
  · rw [if_pos hm, if_pos hm]
    by_cases h : a.knownOne = true
    · rw [if_pos h, if_pos (bne_iff_ne.mp h)]
    · rw [if_neg h, if_neg fun hne => h (bne_iff_ne.mpr hne)]
  · rw [if_neg hm, if_neg hm]
    rw [not_not] at hm
    have hiff : a.knownOne = true ↔ a.val ≠ 0 := by
      rw [knownOne_iff, ne_zero_iff_exists_testBit]
      refine exists_congr fun i => ?_
      rw [bit_of_mask_eq_zero hm, Option.some_inj]
    by_cases h : a.val ≠ 0
    · rw [if_pos (hiff.mpr h), decide_eq_true h]
    · rw [if_neg fun hk => h (hiff.mp hk), decide_eq_false h]

theorem reduceOr_mono {a a' : Value} (ha : a ≤ a') : a.reduceOr ≤ a'.reduceOr := by
  rw [reduceOr_eq, reduceOr_eq]
  by_cases h : a.knownOne = true
  · rw [if_pos h, if_pos (knownOne_mono ha h)]
  · rw [if_neg h]
    by_cases hm : a.mask ≠ 0
    · rw [if_pos hm]
      refine x_le ?_
      split
      · rfl
      · split <;> rfl
    · rw [not_not] at hm
      rw [← eq_of_le ha hm, if_neg h]

/-- A comparison that a known difference decides is monotone. -/
theorem decided_mono {a a' b b' u : Value} {f : Value → Value → Value} (hu : u.width = 1)
    (hf : ∀ a b, (f a b).width = 1) (ha : a ≤ a') (hb : b ≤ b') :
    (if a.knownDiff b then u else if a.mask ≠ 0 ∨ b.mask ≠ 0 then x 1 else f a b) ≤
      if a'.knownDiff b' then u else if a'.mask ≠ 0 ∨ b'.mask ≠ 0 then x 1 else f a' b' := by
  by_cases h : a.knownDiff b = true
  · rw [if_pos h, if_pos (knownDiff_mono ha hb h)]
  · rw [if_neg h]
    by_cases hm : a.mask ≠ 0 ∨ b.mask ≠ 0
    · rw [if_pos hm]
      refine x_le ?_
      split
      · exact hu
      · split
        · rfl
        · exact hf a' b'
    · rw [if_neg hm]
      rw [not_or, not_not, not_not] at hm
      rw [← eq_of_le ha hm.1, ← eq_of_le hb hm.2, if_neg h, if_neg (by simp [hm.1, hm.2])]

theorem eq_mono {a a' b b' : Value} (ha : a ≤ a') (hb : b ≤ b') : a.eq b ≤ a'.eq b' :=
  decided_mono (f := fun a b => ofBool (a.val = b.val)) (ofBool_width _) (fun _ _ => ofBool_width _) ha hb

theorem ne_mono {a a' b b' : Value} (ha : a ≤ a') (hb : b ≤ b') : a.ne b ≤ a'.ne b' :=
  decided_mono (f := fun a b => ofBool (a.val ≠ b.val)) (ofBool_width _) (fun _ _ => ofBool_width _) ha hb

/-- A known 1 and all known 0 exclude each other. -/
theorem knownZero_eq_false_of_knownOne {a : Value} (h : a.knownOne = true) : a.knownZero = false := by
  rw [Bool.eq_false_iff]
  intro hz
  obtain ⟨i, hi⟩ := knownOne_iff.mp h
  rw [bit_of_mask_eq_zero (knownZero_iff.mp hz).1, (knownZero_iff.mp hz).2] at hi
  simp at hi

/-- A defined value either has a known 1 or is all known 0. -/
theorem knownOne_or_knownZero {a : Value} (h : a.mask = 0) : a.knownOne = true ∨ a.knownZero = true := by
  by_cases hv : a.val = 0
  · exact Or.inr (knownZero_iff.mpr ⟨h, hv⟩)
  · left
    obtain ⟨i, hi⟩ := ne_zero_iff_exists_testBit.mp hv
    exact knownOne_iff.mpr ⟨i, by rw [bit_of_mask_eq_zero h, hi]⟩

/-- The truth value of a vector: true on a known 1, false when every bit is a known 0. -/
def truth (a : Value) : Option Bool :=
  if a.knownOne then some true else if a.knownZero then some false else none

theorem truth_eq_some_true_iff {a : Value} : a.truth = some true ↔ a.knownOne = true := by
  unfold truth
  split
  · next h => simp [h]
  · next h => split <;> simp [h]

theorem truth_eq_some_false_iff {a : Value} : a.truth = some false ↔ a.knownZero = true := by
  unfold truth
  split
  · next h => simp [knownZero_eq_false_of_knownOne h]
  · split
    · next h => simp [h]
    · next h => simp [h]

/-- A one-bit value holding a partial bit. -/
def ofTruth (t : Option Bool) : Value :=
  match t with
  | some b => ofBool b
  | none => x 1

theorem truth_mono {a a' : Value} (ha : a ≤ a') : Kleene.Le a.truth a'.truth := by
  intro k hk
  unfold truth at hk ⊢
  by_cases h1 : a.knownOne = true
  · rw [if_pos h1] at hk
    rw [if_pos (knownOne_mono ha h1), hk]
  · rw [if_neg h1] at hk
    by_cases h0 : a.knownZero = true
    · rw [if_pos h0] at hk
      have h0' := knownZero_mono ha h0
      have h1' : ¬ a'.knownOne = true := fun h => by
        rw [knownZero_eq_false_of_knownOne h] at h0'
        cases h0'
      rw [if_neg h1', if_pos h0', hk]
    · rw [if_neg h0] at hk
      cases hk

theorem ofTruth_mono {s t : Option Bool} (h : Kleene.Le s t) : ofTruth s ≤ ofTruth t := by
  cases s with
  | none =>
    refine x_le ?_
    cases t <;> rfl
  | some b => rw [h b rfl]

theorem logicalAnd_eq (a b : Value) : a.logicalAnd b = ofTruth (Kleene.and a.truth b.truth) := by
  unfold logicalAnd truth
  have ha := @knownZero_eq_false_of_knownOne a
  have hb := @knownZero_eq_false_of_knownOne b
  cases h1 : a.knownOne <;> cases h2 : b.knownOne <;> cases h3 : a.knownZero <;>
    cases h4 : b.knownZero <;> simp_all [Kleene.and, ofTruth]

theorem logicalOr_eq (a b : Value) : a.logicalOr b = ofTruth (Kleene.or a.truth b.truth) := by
  unfold logicalOr truth
  by_cases h1 : a.knownOne = true
  · simp [h1, Kleene.or, ofTruth]
  by_cases h2 : b.knownOne = true
  · rw [if_pos (by simp [h2])]
    cases a.knownZero <;> simp [h1, h2, Kleene.or, ofTruth]
  rw [if_neg (by simp [h1, h2]), if_neg h1, if_neg h2]
  by_cases hm : a.mask = 0 ∧ b.mask = 0
  · have ha := (knownOne_or_knownZero hm.1).resolve_left h1
    have hb := (knownOne_or_knownZero hm.2).resolve_left h2
    rw [if_pos hm, if_pos ha, if_pos hb]
    rfl
  · rw [if_neg hm]
    rcases not_and_or.mp hm with h | h
    · rw [if_neg fun hz => h (knownZero_iff.mp hz).1]
      cases b.knownZero <;> rfl
    · rw [if_neg (c := b.knownZero = true) fun hz => h (knownZero_iff.mp hz).1]
      cases a.knownZero <;> rfl

theorem logicalNot_eq (a : Value) : a.logicalNot = ofTruth (Kleene.not a.truth) := by
  unfold logicalNot truth
  by_cases h1 : a.knownOne = true
  · rw [if_pos h1, if_pos h1]
    rfl
  rw [if_neg h1, if_neg h1]
  by_cases hm : a.mask ≠ 0
  · rw [if_pos hm, if_neg fun hz => hm (knownZero_iff.mp hz).1]
    rfl
  · rw [if_neg hm, if_pos ((knownOne_or_knownZero (not_not.mp hm)).resolve_left h1)]
    rfl

theorem logicalAnd_mono {a a' b b' : Value} (ha : a ≤ a') (hb : b ≤ b') : a.logicalAnd b ≤ a'.logicalAnd b' := by
  rw [logicalAnd_eq, logicalAnd_eq]
  exact ofTruth_mono (Kleene.and_mono (truth_mono ha) (truth_mono hb))

theorem logicalOr_mono {a a' b b' : Value} (ha : a ≤ a') (hb : b ≤ b') : a.logicalOr b ≤ a'.logicalOr b' := by
  rw [logicalOr_eq, logicalOr_eq]
  exact ofTruth_mono (Kleene.or_mono (truth_mono ha) (truth_mono hb))

theorem logicalNot_mono {a a' : Value} (ha : a ≤ a') : a.logicalNot ≤ a'.logicalNot := by
  rw [logicalNot_eq, logicalNot_eq]
  exact ofTruth_mono (Kleene.not_mono (truth_mono ha))

end Veriforge.Value

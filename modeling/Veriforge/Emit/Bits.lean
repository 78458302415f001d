import Veriforge.Sim.Sizing
import Veriforge.Value.Encode

/-! # Single bits of an expression

`_bit`, `_plus` and `_bits_2005` (`codegen/verilog_emitter.py`): bits of an expression written without a size
cast, as reductions of a shifted and masked value. The mask makes the expression unsigned; the shift is computed at
the expression's own width. -/

namespace Veriforge

open Value

namespace Emit

/-- `Literal(v, width=32, original_text=str(v))`. -/
def indexLiteral (v : Int) : Expr := .literal ⟨.int v, some 32, false, false, false, .decimal v⟩

/-- The literal `1'b1`. -/
def oneBit : Expr := .literal ⟨.int 1, some 1, false, false, false, .based (some 1) false .bin [.num 1]⟩

/-- `_bit`: `|((value >> index) & 1'b1)`. -/
def bit (value index : Expr) : Expr := .unary .redOr (.binary .bitAnd (.binary .shr value index) oneBit)

/-- The value of a literal of 32 bits that is an integer. -/
def wordLiteral? : Expr → Option Int
  | .literal l => if l.width = some 32 then (match l.value with | .int v => some v | .text _ => none) else none
  | _ => none

/-- `_plus`. -/
def plus (base : Expr) (k : Nat) : Expr :=
  if k = 0 then base
  else match wordLiteral? base with
    | some v => indexLiteral (v + k)
    | none => .binary .add base (indexLiteral k)

/-- `_bits_2005`. -/
def bits2005 (value lsb : Expr) (width : Nat) : Expr :=
  if width = 1 then bit value lsb
  else .concat false ((List.range width).reverse.map fun k => bit value (plus lsb k))

end Emit

/-! ## Bits of values -/

namespace Value

/-- Bit `i` of a value, for a position that is itself a value: `x` when the position is unknown. -/
def bitValue (u i : Value) : Value := (u.rshift i).resize 1

@[simp] theorem bitValue_width (u i : Value) : (bitValue u i).width = 1 := rfl

/-- The bit is unknown when the position is. -/
theorem bitValue_bit {u i : Value} (hu : 0 < u.width) :
    (bitValue u i).bit 0 = if i.mask = 0 then u.bit i.val else none := by
  rw [bitValue, bit_resize, if_pos Nat.one_pos]
  split
  · next hi => rw [bit_rshift hi, Nat.zero_add]
  · next hi => rw [rshift, if_pos hi, bit_x, if_pos hu]

theorem ext_bit_zero {a b : Value} (ha : a.width = 1) (hb : b.width = 1) (h : a.bit 0 = b.bit 0) : a = b := by
  apply ext_bit_lt (ha.trans hb.symm)
  intro i hi
  obtain rfl : i = 0 := by omega
  exact h

theorem bit_zero_ofBool (b : Bool) : (ofBool b).bit 0 = some b := by
  rw [bit_of_mask_eq_zero (ofBool_mask b), ofBool_val]
  cases b <;> rfl

/-- The conjunction with 1 keeps bit 0 and clears the others. -/
theorem bit_and_one (u : Value) {w : Nat} (hw : 0 < w) (i : Nat) :
    (u.and (ofInt 1 w)).bit i = if i = 0 then u.bit 0 else some false := by
  have hone : (ofInt 1 w).bit i = some (decide (i < w) && (1 : Nat).testBit i) := bit_ofInt 1 w i
  rw [bit_and, hone]
  by_cases hi : i = 0
  · subst hi
    rw [if_pos rfl, decide_eq_true hw]
    rcases u.bit 0 with _ | _ | _ <;> rfl
  · have hbit : (1 : Nat).testBit i = false := by
      rw [Bool.eq_false_iff]
      exact fun h => hi (Nat.testBit_one_eq_true_iff_self_eq_zero.mp h)
    rw [if_neg hi, hbit, Bool.and_false]
    rcases u.bit i with _ | _ | _ <;> rfl

/-- A reduction of a value whose other bits are known zeros is bit 0. -/
theorem reduceOr_and_one (u : Value) {w : Nat} (hw : 0 < w) : (u.and (ofInt 1 w)).reduceOr = u.resize 1 := by
  have hbit := bit_and_one u hw
  have hlow : (u.resize 1).bit 0 = u.bit 0 := by rw [bit_resize, if_pos Nat.one_pos]
  have hone : (u.and (ofInt 1 w)).knownOne = true ↔ u.bit 0 = some true := by
    rw [knownOne_iff]
    constructor
    · rintro ⟨i, hi⟩
      rw [hbit] at hi
      split at hi
      · exact hi
      · cases hi
    · intro h
      exact ⟨0, (hbit 0).trans h⟩
  have hmask : (u.and (ofInt 1 w)).mask = 0 ↔ u.bit 0 ≠ none := by
    rw [mask_eq_zero_iff]
    constructor
    · intro h
      have h0 := h 0
      rw [hbit, if_pos rfl] at h0
      exact h0
    · intro h i
      rw [hbit]
      split
      · exact h
      · exact Option.some_ne_none false
  apply ext_bit_zero
  · rw [reduceOr_eq]
    split
    · rfl
    · split <;> rfl
  · rfl
  rw [hlow, reduceOr_eq]
  rcases h0 : u.bit 0 with _ | b
  · have hnot : ¬ (u.and (ofInt 1 w)).knownOne = true := by
      rw [hone, h0]
      simp
    have hx : (u.and (ofInt 1 w)).mask ≠ 0 := fun h => hmask.mp h h0
    rw [if_neg hnot, if_pos hx, bit_x, if_pos Nat.one_pos]
  · cases b with
    | true => rw [if_pos (hone.mpr h0), bit_zero_ofBool]
    | false =>
      have hnot : ¬ (u.and (ofInt 1 w)).knownOne = true := by
        rw [hone, h0]
        simp
      have hx : (u.and (ofInt 1 w)).mask = 0 := hmask.mpr (by simp [h0])
      rw [if_neg hnot, if_neg (not_not_intro hx), bit_zero_ofBool]

/-- The bits of a value at the positions `idx 0`, `idx 1`, ..., the first one lowest. -/
def bitsAt (u : Value) (idx : Nat → Value) (width : Nat) : Value :=
  concatValues ((List.range width).reverse.map fun k => u.bitValue (idx k))

theorem bit_foldl_bits (f : Nat → Value) (hf : ∀ k, (f k).width = 1) (n : Nat) (v : Value) (j : Nat) :
    (((List.range n).reverse.map f).foldl Value.concat v).bit j = if j < n then (f j).bit 0 else v.bit (j - n) := by
  induction n generalizing v with
  | zero => rfl
  | succ n ih =>
    rw [List.range_succ, List.reverse_append, List.reverse_singleton, List.singleton_append, List.map_cons,
      List.foldl_cons, ih, bit_concat, hf]
    rcases Nat.lt_trichotomy j n with hlt | rfl | hgt
    · rw [if_pos hlt, if_pos (Nat.lt_succ_of_lt hlt)]
    · rw [if_neg (lt_irrefl j), if_pos (Nat.lt_succ_self j), Nat.sub_self, if_pos Nat.one_pos]
    · rw [if_neg (by omega), if_neg (by omega), if_neg (by omega), Nat.sub_sub]

@[simp] theorem bitsAt_width (u : Value) (idx : Nat → Value) (width : Nat) : (u.bitsAt idx width).width = width := by
  have hone : ((List.range width).reverse.map fun k => u.bitValue (idx k)).map Value.width
      = List.replicate width 1 := by
    rw [List.map_map, List.eq_replicate_iff]
    refine ⟨by simp, ?_⟩
    intro w hw
    obtain ⟨k, -, rfl⟩ := List.mem_map.mp hw
    rfl
  rw [bitsAt, concatValues_width, hone]
  simp

theorem bit_bitsAt (u : Value) (idx : Nat → Value) {width j : Nat} (hj : j < width) :
    (u.bitsAt idx width).bit j = (u.bitValue (idx j)).bit 0 := by
  obtain ⟨n, rfl⟩ : ∃ n, width = n + 1 := ⟨width - 1, by omega⟩
  rw [bitsAt, List.range_succ, List.reverse_append, List.reverse_singleton, List.singleton_append, List.map_cons,
    concatValues, bit_foldl_bits (fun k => u.bitValue (idx k)) fun _ => rfl]
  split
  · rfl
  · obtain rfl : j = n := by omega
    rw [Nat.sub_self]

end Value

/-! ## Evaluation -/

section

variable {T : SignalTable} {st : Store T}

namespace Emit

/-! ### Index literals -/

/-- A natural number is below the power of two of the width its literal has. -/
theorem lt_signedLiteralWidth (n : Nat) : 2 * n < 2 ^ Literal.signedLiteralWidth n := by
  have hpos : Literal.signedLiteralWidth 0 = 32 := rfl
  rcases Nat.eq_zero_or_pos n with rfl | hn
  · exact Nat.two_pow_pos _
  · have hwidth : n.log2 + 2 ≤ Literal.signedLiteralWidth n := by
      rw [Literal.signedLiteralWidth, if_pos (by exact_mod_cast hn), Int.toNat_natCast, Literal.bitLength,
        if_neg hn.ne']
      exact le_max_right _ _
    have hlog : n < 2 ^ (n.log2 + 1) := Nat.lt_log2_self
    calc 2 * n < 2 ^ (n.log2 + 2) := by
          rw [Nat.pow_succ]
          omega
      _ ≤ 2 ^ Literal.signedLiteralWidth n := Nat.pow_le_pow_right (by norm_num) hwidth

/-- The value of an index literal. -/
def indexValue (v : Int) : Value := ofInt v (Literal.signedLiteralWidth v)

@[simp] theorem indexValue_mask (v : Int) : (indexValue v).mask = 0 := ofInt_mask _ _

@[simp] theorem indexValue_val (n : Nat) : (indexValue n).val = n := by
  have hlt := lt_signedLiteralWidth n
  rw [indexValue, ofInt_natCast_val, Nat.mod_eq_of_lt (by omega)]

theorem evalRequest_indexLiteral (v : Int) :
    evalRequest st (indexLiteral v) (.context 0 none) = some (indexValue v) := by
  rw [indexLiteral, evalRequest, Request.width_context, if_neg (Nat.not_lt_zero _)]
  rfl

theorem plus_indexLiteral (v : Int) (k : Nat) : plus (indexLiteral v) k = indexLiteral (v + k) := by
  rw [plus]
  split
  · next h => rw [h, Nat.cast_zero, Int.add_zero]
  · rfl

/-! ### The reduction -/

@[simp] theorem selfWidth_oneBit : selfWidth T oneBit = 1 := rfl

@[simp] theorem exprSigned_oneBit : exprSigned T oneBit = false := rfl

theorem evalRequest_oneBit {w : Nat} (hw : 0 < w) :
    evalRequest st oneBit (.context w (some false)) = some (ofInt 1 w) := by
  have hlit : Literal.evalLiteral ⟨.int 1, some 1, false, false, false, .based (some 1) false .bin [.num 1]⟩ =
      ofInt 1 1 := by decide
  have hresize : (ofInt 1 1).resize w = ofInt 1 w := resize_ofInt (fits_false.mpr (by decide))
  rw [oneBit, evalRequest, hlit, Request.width_context]
  dsimp only
  split
  · exact congrArg some hresize
  · next h =>
    obtain rfl : w = 1 := by
      rw [init_width] at h
      omega
    rfl

/-- With its operators unsigned, the expression has its own width at least, and at least one bit. -/
def UnsignedWide (st : Store T) (value : Expr) : Prop :=
  ∀ u, evalRequest st value (.context (max (selfWidth T value) 1) (some false)) = some u →
    max (selfWidth T value) 1 ≤ u.width

theorem unsignedWide_of_legal {value : Expr} (hl : AllAt T (fun e _ => legal T e = true) value 0) :
    UnsignedWide st value :=
  fun _ hu => (evalRequest_width_of_le hu (hl.width _) (le_max_left _ _)).ge

/-- The masked value under the reduction. -/
theorem evalRequest_masked {value : Expr} (index : Expr) (hwide : UnsignedWide st value) {w : Nat}
    (hw : w = max (selfWidth T value) 1) :
    evalRequest st (.binary .bitAnd (.binary .shr value index) oneBit) (.context w none)
      = (evalRequest st value (.context w (some false))).bind fun u =>
        (evalRequest st index (.context 0 none)).map fun i => ((u.rshift i).resize w).and (ofInt 1 w) := by
  have hself : selfWidth T (.binary .shr value index) = selfWidth T value := rfl
  have htarget : operandTarget T (.binary .shr value index) oneBit w = w := by
    rw [operandTarget, hself, selfWidth_oneBit, ← hw, Nat.max_self]
  have hshift : shiftTarget T value w = w := by
    rw [shiftTarget]
    split <;> omega
  have hone : evalRequest st oneBit (.context w (some false)) = some (ofInt 1 w) := evalRequest_oneBit (by omega)
  rw [evalRequest_bitwise rfl, Request.width_context, Request.signedOverride_context, htarget, exprSigned_oneBit,
    Bool.and_false, Option.getD_none, evalRequest_shift rfl, Request.width_context, Request.signedOverride_context,
    hshift, Option.bind_assoc]
  apply Option.bind_congr
  intro u hu
  rw [Option.getD_some, hw] at hu
  have huw : w ≤ u.width := by
    rw [hw]
    exact hwide u hu
  rw [Option.getD_some, widen_of_le huw, Option.bind_some, Option.bind_assoc, Option.map_eq_bind]
  apply Option.bind_congr
  intro i hi
  have hrw : w ≤ (u.rshift i).width := by rwa [rshift_width]
  have hres : ((u.rshift i).resize w).width = w := resize_width _ _
  have hand : (((u.rshift i).resize w).and (ofInt 1 w)).width = w := by rw [and_width, hres, init_width, max_self]
  have hshr : evalBinaryResult .shr (exprSigned T value && exprSigned T index) false u i = some (u.rshift i) := rfl
  have hop : evalBinaryOp .bitAnd ((u.rshift i).resize w) (ofInt 1 w)
      = some (((u.rshift i).resize w).and (ofInt 1 w)) := rfl
  rw [hshr, Option.bind_some, fit_of_le (by omega) hrw, Option.bind_some, hone, Option.bind_some,
    align_of_width hres, Option.bind_some, align_of_width (init_width 1 w 0), Option.bind_some, hop, Option.bind_some,
    fit_of_width hand]
  rfl

/-- One bit of an expression, read with its operators unsigned. -/
theorem evalRequest_bit {value : Expr} (index : Expr) (hwide : UnsignedWide st value) (w : Nat) (ov : Option Bool) :
    evalRequest st (bit value index) (.context w ov)
      = (evalRequest st value (.context (max (selfWidth T value) 1) (some false))).bind fun u =>
        (evalRequest st index (.context 0 none)).bind fun i => widen (ov.getD false) (u.bitValue i) w := by
  have hself : selfWidth T (.binary .bitAnd (.binary .shr value index) oneBit) = max (selfWidth T value) 1 := rfl
  rw [bit, evalRequest_unary_self rfl, hself, evalRequest_masked index hwide rfl, Option.bind_assoc]
  apply Option.bind_congr
  intro u _
  rw [Option.map_eq_bind, Option.bind_assoc]
  apply Option.bind_congr
  intro i _
  show widen (ov.getD false) (((u.rshift i).resize (max (selfWidth T value) 1)).and
    (ofInt 1 (max (selfWidth T value) 1))).reduceOr w = _
  rw [reduceOr_and_one _ (by omega), resize_resize_of_le _ (le_max_right _ _), bitValue]

@[simp] theorem selfWidth_bit (value index : Expr) : selfWidth T (bit value index) = 1 := rfl

/-- The parts of the concatenation, when every position has a value. -/
theorem evalParts_bits {value lsb : Expr} (hwide : UnsignedWide st value) {u : Value}
    (hu : evalRequest st value (.context (max (selfWidth T value) 1) (some false)) = some u) (idx : Nat → Value)
    (ks : List Nat) (hidx : ∀ k ∈ ks, evalRequest st (plus lsb k) (.context 0 none) = some (idx k)) :
    evalParts st (ks.map fun k => bit value (plus lsb k)) = some (ks.map fun k => u.bitValue (idx k)) := by
  induction ks with
  | nil => rfl
  | cons k ks ih =>
    rw [List.forall_mem_cons] at hidx
    have hpart : evalRequest st (bit value (plus lsb k)) (.context 1 none) = some (u.bitValue (idx k)) := by
      rw [evalRequest_bit _ hwide, hu, Option.bind_some, hidx.1, Option.bind_some]
      exact widen_of_le (bitValue_width u (idx k)).ge
    rw [List.map_cons, evalParts, selfWidth_bit, hpart, ih hidx.2]
    rfl

/-- The bits of an expression, read with its operators unsigned. -/
theorem evalRequest_bits2005 {value lsb : Expr} (hwide : UnsignedWide st value) {width : Nat} (hwidth : 0 < width)
    {idx : Nat → Value} (hidx : ∀ k < width, evalRequest st (plus lsb k) (.context 0 none) = some (idx k)) (w : Nat)
    (ov : Option Bool) :
    evalRequest st (bits2005 value lsb width) (.context w ov)
      = (evalRequest st value (.context (max (selfWidth T value) 1) (some false))).bind fun u =>
        widen (ov.getD false) (u.bitsAt idx width) w := by
  rw [bits2005]
  split
  · next h =>
    subst h
    have hzero := hidx 0 Nat.one_pos
    rw [plus, if_pos rfl] at hzero
    rw [evalRequest_bit _ hwide]
    apply Option.bind_congr
    intro u _
    rw [hzero, Option.bind_some]
    rfl
  · rw [evalRequest]
    cases hu : evalRequest st value (.context (max (selfWidth T value) 1) (some false)) with
    | some u =>
      rw [evalParts_bits hwide hu idx _ fun k hk => hidx k (List.mem_range.mp (List.mem_reverse.mp hk))]
      simp [bitsAt, hwidth.ne']
    | none =>
      obtain ⟨n, rfl⟩ : ∃ n, width = n + 1 := ⟨width - 1, by omega⟩
      rw [List.range_succ, List.reverse_append, List.reverse_singleton, List.singleton_append, List.map_cons,
        evalParts, evalRequest_bit _ hwide, hu]
      rfl

/-- A part without a value leaves the concatenation without one. -/
theorem evalParts_eq_none {es : List Expr} {e : Expr} (he : e ∈ es)
    (h : evalRequest st e (.context (selfWidth T e) none) = none) : evalParts st es = none := by
  induction es with
  | nil => cases he
  | cons p ps ih =>
    rw [evalParts]
    rcases List.mem_cons.mp he with rfl | hmem
    · rw [h]
      rfl
    · rw [ih hmem]
      cases evalRequest st p (.context (selfWidth T p) none) <;> rfl

/-- A position without a value leaves the bits without one. -/
theorem evalRequest_bits2005_none {value lsb : Expr} (hwide : UnsignedWide st value) {width k : Nat} (hk : k < width)
    (h : evalRequest st (plus lsb k) (.context 0 none) = none) (w : Nat) (ov : Option Bool) :
    evalRequest st (bits2005 value lsb width) (.context w ov) = none := by
  have hbit : ∀ w ov, evalRequest st (bit value (plus lsb k)) (.context w ov) = none := by
    intro w ov
    rw [evalRequest_bit _ hwide, h]
    cases evalRequest st value (.context (max (selfWidth T value) 1) (some false)) <;> rfl
  rw [bits2005]
  split
  · obtain rfl : k = 0 := by omega
    exact hbit w ov
  · have hmem : bit value (plus lsb k) ∈ (List.range width).reverse.map fun k => bit value (plus lsb k) :=
      List.mem_map_of_mem (List.mem_reverse.mpr (List.mem_range.mpr hk))
    rw [evalRequest, evalParts_eq_none hmem (hbit _ none)]
    rfl

/-- In any context the bits are those of no context, extended with zeros or the context's sign. -/
theorem evalRequest_bits2005_context {value lsb : Expr} (hwide : UnsignedWide st value) {width : Nat}
    (hwidth : 0 < width) (w : Nat) (ov : Option Bool) :
    evalRequest st (bits2005 value lsb width) (.context w ov)
      = (evalRequest st (bits2005 value lsb width) (.context 0 none)).bind fun r => widen (ov.getD false) r w := by
  by_cases hidx : ∀ k < width, ∃ i, evalRequest st (plus lsb k) (.context 0 none) = some i
  · have hne : Nonempty Value := ⟨x 0⟩
    choose! idx hidx using hidx
    rw [evalRequest_bits2005 hwide hwidth hidx, evalRequest_bits2005 hwide hwidth hidx, Option.bind_assoc]
    apply Option.bind_congr
    intro u _
    rw [widen_zero]
    rfl
  · simp only [not_forall, not_exists] at hidx
    obtain ⟨k, hk, hnone⟩ := hidx
    have h := Option.eq_none_iff_forall_ne_some.mpr hnone
    rw [evalRequest_bits2005_none hwide hk h, evalRequest_bits2005_none hwide hk h]
    rfl

/-- The bits are those of a value when each is found at the position computed for it. -/
theorem evalRequest_bits2005_eq_some_iff {value lsb : Expr} (hwide : UnsignedWide st value) {r : Value}
    (hr : 0 < r.width) :
    evalRequest st (bits2005 value lsb r.width) (.context 0 none) = some r ↔
      ∃ u, evalRequest st value (.context (max (selfWidth T value) 1) (some false)) = some u ∧
        ∀ j < r.width, ∃ i, evalRequest st (plus lsb j) (.context 0 none) = some i ∧ (u.bitValue i).bit 0 = r.bit j := by
  constructor
  · intro h
    by_cases hidx : ∀ k < r.width, ∃ i, evalRequest st (plus lsb k) (.context 0 none) = some i
    · have hne : Nonempty Value := ⟨x 0⟩
      choose! idx hidx using hidx
      rw [evalRequest_bits2005 hwide hr hidx] at h
      obtain ⟨u, hu, h⟩ := Option.bind_eq_some_iff.mp h
      rw [widen_zero] at h
      refine ⟨u, hu, fun j hj => ⟨idx j, hidx j hj, ?_⟩⟩
      rw [← Option.some_inj.mp h, bit_bitsAt u idx hj]
    · simp only [not_forall, not_exists] at hidx
      obtain ⟨k, hk, hnone⟩ := hidx
      rw [evalRequest_bits2005_none hwide hk (Option.eq_none_iff_forall_ne_some.mpr hnone)] at h
      cases h
  · rintro ⟨u, hu, hbits⟩
    have hne : Nonempty Value := ⟨x 0⟩
    choose! idx hidx hbit using hbits
    rw [evalRequest_bits2005 hwide hr hidx, hu, Option.bind_some, widen_zero, Option.some_inj]
    refine ext_bit_lt (bitsAt_width _ _ _) fun j hj => ?_
    rw [bitsAt_width] at hj
    rw [bit_bitsAt u idx hj, hbit j hj]

/-- Two values extended by one sign agree in every context when they agree. -/
theorem forall_widen_iff {o o' : Option Value} {f g : Value → Value} (s : Bool) :
    (∀ w (ov : Option Bool), (o.bind fun v => widen (ov.getD s) (f v) w) = o'.bind fun v => widen (ov.getD s) (g v) w)
      ↔ o.map f = o'.map g := by
  constructor
  · intro h
    have h0 := h 0 none
    simp only [widen_zero] at h0
    rw [Option.map_eq_bind, Option.map_eq_bind]
    exact h0
  · intro h w ov
    calc (o.bind fun v => widen (ov.getD s) (f v) w) = (o.map f).bind fun r => widen (ov.getD s) r w := by
          rw [Option.bind_map]
          rfl
      _ = (o'.map g).bind fun r => widen (ov.getD s) r w := by rw [h]
      _ = o'.bind fun v => widen (ov.getD s) (g v) w := by
          rw [Option.bind_map]
          rfl

end Emit

end

end Veriforge

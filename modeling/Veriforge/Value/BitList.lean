import Veriforge.Chunks
import Veriforge.Sim.EvalWidth

/-! # Values as lists of bits

The bits of a value from the most significant one on. A concatenation appends them, a slice takes a part of them, and
`stream_reverse` puts their chunks in reverse order. -/

namespace Veriforge

namespace Value

/-- The bits at the positions from `hi - 1` down to `lo`. -/
def segment (v : Value) (lo hi : Nat) : List (Option Bool) := (List.range' lo (hi - lo)).reverse.map v.bit

/-- The bits, the most significant one first. -/
def bits (v : Value) : List (Option Bool) := v.segment 0 v.width

@[simp] theorem segment_length (v : Value) (lo hi : Nat) : (v.segment lo hi).length = hi - lo := by
  rw [segment, List.length_map, List.length_reverse, List.length_range']

@[simp] theorem bits_length (v : Value) : v.bits.length = v.width := by rw [bits, segment_length, Nat.sub_zero]

theorem segment_getElem? (v : Value) {lo hi i : Nat} (hlo : lo ≤ i) (hhi : i < hi) :
    (v.segment lo hi)[hi - 1 - i]? = some (v.bit i) := by
  rw [segment, List.getElem?_map, List.getElem?_reverse (by rw [List.length_range']; omega), List.length_range',
    show hi - lo - 1 - (hi - 1 - i) = i - lo by omega, List.getElem?_range' (by omega), Option.map_some,
    show lo + 1 * (i - lo) = i by omega]

theorem segment_self (v : Value) (lo : Nat) : v.segment lo lo = [] := by
  rw [segment, Nat.sub_self]
  rfl

theorem segment_append (v : Value) {lo mid hi : Nat} (hlo : lo ≤ mid) (hhi : mid ≤ hi) :
    v.segment mid hi ++ v.segment lo mid = v.segment lo hi := by
  rw [segment, segment, segment, ← List.map_append, ← List.reverse_append,
    show hi - lo = (mid - lo) + (hi - mid) by omega, ← List.range'_append_1, show lo + (mid - lo) = mid by omega]

/-- The bits of two values at the same positions. -/
theorem segment_congr {v u : Value} {lo hi d : Nat} (h : ∀ i, lo ≤ i → i < hi → v.bit i = u.bit (i + d)) :
    v.segment lo hi = u.segment (lo + d) (hi + d) := by
  rw [segment, segment, show hi + d - (lo + d) = hi - lo by omega, Nat.add_comm lo d, ← List.map_add_range',
    ← List.map_reverse, List.map_map]
  refine List.map_congr_left fun i hi' => ?_
  rw [List.mem_reverse, List.mem_range'_1] at hi'
  rw [Function.comp_apply, h i hi'.1 (by omega), Nat.add_comm]

/-- Values with the same bits are the same. -/
theorem ext_bits {a b : Value} (h : a.bits = b.bits) : a = b := by
  have hw : a.width = b.width := by rw [← bits_length, h, bits_length]
  refine ext_bit_lt hw fun i hi => ?_
  rw [bits, bits, segment, segment, ← hw] at h
  exact List.map_inj_left.mp h i (by rw [List.mem_reverse, List.mem_range'_1]; omega)

theorem exists_bits (l : List (Option Bool)) : ∃ v : Value, v.bits = l := by
  induction l with
  | nil => exact ⟨ofInt 0 0, rfl⟩
  | cons b l ih =>
    obtain ⟨v, rfl⟩ := ih
    obtain ⟨u, hu, hbit⟩ : ∃ u : Value, u.width = 1 ∧ u.bit 0 = b := by
      rcases b with _ | b
      · exact ⟨x 1, rfl, rfl⟩
      · exact ⟨ofBool b, rfl, by cases b <;> rfl⟩
    refine ⟨u.concat v, ?_⟩
    rw [bits, concat_width, ← segment_append _ (Nat.zero_le v.width) (Nat.le_add_left _ _), hu, Nat.add_comm 1]
    have hlow : (u.concat v).segment 0 v.width = v.bits := by
      refine (segment_congr (d := 0) fun i _ hi => ?_)
      rw [bit_concat, if_pos hi, Nat.add_zero]
    have hhigh : (u.concat v).segment v.width (v.width + 1) = [u.bit 0] := by
      rw [segment, show v.width + 1 - v.width = 1 by omega]
      show [(u.concat v).bit v.width] = _
      rw [bit_concat, if_neg (lt_irrefl _), Nat.sub_self]
    rw [hhigh, hlow, hbit]
    rfl

/-! ## Concatenations and slices -/

theorem bits_concat (a b : Value) : (a.concat b).bits = a.bits ++ b.bits := by
  have hlow : (a.concat b).segment 0 b.width = b.bits :=
    segment_congr (d := 0) fun i _ hi => by rw [bit_concat, if_pos hi, Nat.add_zero]
  have hhigh : a.segment 0 a.width = (a.concat b).segment (0 + b.width) (a.width + b.width) :=
    segment_congr fun i _ _ => by rw [bit_concat, if_neg (by omega), Nat.add_sub_cancel]
  rw [bits, concat_width, ← segment_append _ (Nat.zero_le b.width) (Nat.le_add_left _ _), hlow,
    show a.bits = a.segment 0 a.width from rfl, hhigh, Nat.zero_add]

theorem bits_concatValues (vs : List Value) : (concatValues vs).bits = (vs.map bits).flatten := by
  have hfold : ∀ (vs : List Value) (v : Value), (vs.foldl concat v).bits = v.bits ++ (vs.map bits).flatten := by
    intro vs
    induction vs with
    | nil => exact fun v => (List.append_nil _).symm
    | cons u us ih =>
      intro v
      rw [List.foldl_cons, ih, bits_concat, List.map_cons, List.flatten_cons, List.append_assoc]
  cases vs with
  | nil => rfl
  | cons v vs => rw [concatValues, hfold, List.map_cons, List.flatten_cons]

/-- A slice within a value. -/
theorem bits_getRange {v : Value} {lo hi : Nat} (hlo : lo ≤ hi) (hhi : hi < v.width) :
    (v.getRange hi lo).bits = v.segment lo (hi + 1) := by
  have hwidth : (v.getRange hi lo).width = hi + 1 - lo := by
    rw [getRange_width, orderBounds_of_le (by omega)]
    dsimp only
    omega
  have hbit : (v.getRange hi lo).segment 0 (hi + 1 - lo) = v.segment (0 + lo) (hi + 1 - lo + lo) := by
    refine segment_congr fun i _ hi' => ?_
    rw [bit_getRange _ _ _ (by omega), orderBounds_of_le (by omega), bitAt, if_pos (by omega)]
    congr 1
    dsimp only
    omega
  rw [bits, hwidth, hbit, Nat.zero_add, Nat.sub_add_cancel (by omega)]

/-! ## One bit replaced -/

theorem testBit_one_shiftLeft (k i : Nat) : (1 <<< k).testBit i = decide (i = k) := by
  rw [Nat.shiftLeft_eq, Nat.one_mul, Nat.testBit_two_pow]
  exact decide_eq_decide.mpr eq_comm

theorem testBit_and_one_shiftLeft (n k i : Nat) : ((n &&& 1) <<< k).testBit i = (decide (i = k) && n.testBit 0) := by
  have hone : (1 : Nat).testBit (i - k) = decide (i - k = 0) := by simpa using testBit_one_shiftLeft 0 (i - k)
  rw [Nat.testBit_shiftLeft, Nat.testBit_and, hone]
  rcases lt_trichotomy i k with h | h | h
  · simp [h.ne, Nat.not_le.mpr h]
  · simp [h]
  · simp [h.ne', Nat.sub_ne_zero_of_lt h]

/-- One bit replaced. -/
theorem exists_setBit {a : Value} (part : Value) {k : Nat} (hk : k < a.width) :
    ∃ r, a.setBit k (part.val &&& 1) (part.mask &&& 1) = some r ∧ r.width = a.width ∧
      ∀ i < a.width, r.bit i = if i = k then part.bit 0 else a.bit i := by
  have hself : part.mask &&& 1 &&& 1 = part.mask &&& 1 := by rw [Nat.and_assoc, Nat.and_self]
  rw [setBit, if_neg (by omega)]
  refine ⟨_, rfl, rfl, fun i hi => ?_⟩
  rw [Int.toNat_natCast, hself, bit_init, if_pos hi, Nat.testBit_or, Nat.testBit_and, testBit_lnot,
    testBit_one_shiftLeft, testBit_and_one_shiftLeft, decide_eq_true hi, Bool.true_and]
  by_cases hik : i = k
  · -- the bit itself
    rw [if_pos hik, decide_eq_true hik, bit]
    cases hm : part.mask.testBit 0 with
    | true => simp
    | false =>
      have hmask : ¬ part.mask &&& 1 ≠ 0 := by rw [and_one_ne_zero_iff, hm]; exact Bool.false_ne_true
      rw [if_neg hmask]
      cases hv : part.val.testBit 0 with
      | true =>
        rw [if_pos ((and_one_ne_zero_iff _).mpr hv), Nat.testBit_or, testBit_one_shiftLeft, decide_eq_true hik]
        simp
      | false =>
        have hval : ¬ part.val &&& 1 ≠ 0 := by rw [and_one_ne_zero_iff, hv]; exact Bool.false_ne_true
        rw [if_neg hval, Nat.testBit_and, testBit_lnot, testBit_one_shiftLeft, decide_eq_true hik]
        simp
  · rw [if_neg hik, decide_eq_false hik, bit]
    have hval : ∀ b : Nat, (if b ≠ 0 then a.val ||| 1 <<< k else a.val &&& lnot a.width (1 <<< k)).testBit i =
        a.val.testBit i := by
      intro b
      split
      · rw [Nat.testBit_or, testBit_one_shiftLeft, decide_eq_false hik, Bool.or_false]
      · rw [Nat.testBit_and, testBit_lnot, testBit_one_shiftLeft, decide_eq_false hik, decide_eq_true hi]
        simp
    rw [hval]
    simp

/-! ## `stream_reverse` -/

theorem flatten_streamChunks {v : Value} {n : Nat} (hn : 0 < n) {pos : Nat} (hpos : pos ≤ v.width) (acc : List Value) :
    ((streamChunks v n pos acc).map bits).flatten = packChunks n (v.segment 0 pos) ++ (acc.map bits).flatten := by
  induction pos using Nat.strong_induction_on generalizing acc with
  | _ pos ih =>
    cases pos with
    | zero =>
      rw [streamChunks, segment_self, packChunks_of_le (Nat.zero_le n)]
      rfl
    | succ pos =>
      have hchunk : (v.getRange pos (pos + 1 - n : Nat)).bits = v.segment (pos + 1 - n) (pos + 1) :=
        bits_getRange (by omega) (by omega)
      rw [streamChunks, if_neg hn.ne']
      dsimp only
      rw [ih (pos + 1 - n) (by omega) (by omega), List.map_cons, List.flatten_cons, hchunk]
      by_cases hle : pos + 1 ≤ n
      · rw [Nat.sub_eq_zero_of_le hle, segment_self, packChunks_of_le (Nat.zero_le n), List.nil_append,
          packChunks_of_le (by rw [segment_length]; omega)]
      · have hsplit := segment_append v (Nat.zero_le (pos + 1 - n)) (Nat.sub_le (pos + 1) n)
        have hlen : (v.segment (pos + 1 - n) (pos + 1)).length = n := by
          rw [segment_length]
          omega
        rw [packChunks_of_lt (l := v.segment 0 (pos + 1)) hn (by rw [segment_length]; omega), ← hsplit,
          List.drop_left' hlen, List.take_left' hlen, List.append_assoc]

/-- The chunks from the most significant end, in reverse order. -/
theorem bits_streamReverse {v r : Value} {n : Nat} (hn : 0 < n) (h : streamReverse v n = some r) :
    r.bits = packChunks n v.bits := by
  rw [streamReverse, if_neg hn.ne'] at h
  cases h
  rw [bits_concatValues, flatten_streamChunks hn le_rfl, List.map_nil, List.flatten_nil, List.append_nil, bits]

end Value

end Veriforge

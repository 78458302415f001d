import Veriforge.Sim.Total

/-! # Knowing more never changes a known bit

The information order lifts from values to stores and through `eval`: when some `x` bits of a store are
replaced by 0 or 1, every bit of an expression that was known keeps its value. The operators `===` and
`!==` look at `x` bits themselves and are left out. -/

namespace Veriforge

open Value

/-! ## The pieces of the evaluator -/

theorem extendTo_mono {s : Bool} {v v' r r' : Value} {w : Nat} (hv : v ≤ v')
    (h : extendTo s v w = some r) (h' : extendTo s v' w = some r') : r ≤ r' := by
  cases s with
  | true => exact signExtend_mono hv h h'
  | false =>
    cases h
    cases h'
    exact resize_mono w hv

theorem widen_mono {s : Bool} {v v' r r' : Value} {w : Nat} (hv : v ≤ v')
    (h : widen s v w = some r) (h' : widen s v' w = some r') : r ≤ r' := by
  unfold widen at h h'
  rw [← width_eq_of_le hv] at h'
  split at h
  · next hw =>
    rw [if_pos hw] at h'
    exact extendTo_mono hv h h'
  · next hw =>
    rw [if_neg hw] at h'
    cases h
    cases h'
    exact hv

theorem fit_mono {s : Bool} {v v' r r' : Value} {w : Nat} (hv : v ≤ v')
    (h : fit s v w = some r) (h' : fit s v' w = some r') : r ≤ r' := by
  unfold fit at h h'
  rw [← width_eq_of_le hv] at h'
  split at h
  · next hw =>
    rw [if_pos hw] at h'
    exact extendTo_mono hv h h'
  · next hw =>
    rw [if_neg hw] at h'
    cases h
    cases h'
    exact hv

theorem align_mono {s : Bool} {v v' r r' : Value} {w : Nat} (hv : v ≤ v')
    (h : align s v w = some r) (h' : align s v' w = some r') : r ≤ r' := by
  unfold align at h h'
  rw [← width_eq_of_le hv] at h'
  split at h
  · next hw =>
    rw [if_pos hw] at h'
    exact extendTo_mono hv h h'
  · next hw =>
    rw [if_neg hw] at h'
    cases h
    cases h'
    exact hv

theorem fitOperand_mono {T : SignalTable} {e : Expr} {ov : Option Bool} {w : Nat}
    {v v' r r' : Value} (hv : v ≤ v') (h : fitOperand T e ov w v = some r)
    (h' : fitOperand T e ov w v' = some r') : r ≤ r' := by
  unfold fitOperand at h h'
  rw [← width_eq_of_le hv] at h'
  split at h
  · next hw =>
    rw [if_pos hw] at h'
    exact extendTo_mono hv h h'
  · next hw =>
    rw [if_neg hw] at h'
    cases h
    cases h'
    exact hv

/-- The most significant bit through `(n >> (width - 1)) & 1`. -/
theorem msb_eq_none_iff {a : Value} : (a.mask >>> (a.width - 1)) &&& 1 ≠ 0 ↔ a.msb = none := by
  rw [shiftRight_and_one_ne_zero, mask_testBit, msb, Option.isNone_iff_eq_none]

theorem msb_eq_true_iff {a : Value} : (a.val >>> (a.width - 1)) &&& 1 ≠ 0 ↔ a.msb = some true := by
  rw [shiftRight_and_one_ne_zero, val_testBit, msb]
  cases a.bit (a.width - 1) <;> simp

/-- `>>>` by a known amount of the whole width or more: the sign bit everywhere. -/
theorem ashr_of_width_le {a b : Value} (hb : b.mask = 0) (h0 : a.width ≠ 0) (hw : b.val ≥ a.width) :
    ashr a b = some (match a.msb with
      | none => x a.width
      | some true => ofInt (2 ^ a.width - 1) a.width
      | some false => ofInt 0 a.width) := by
  unfold ashr
  rw [if_neg (by simpa using hb), if_neg h0, if_pos hw]
  cases hm : a.msb with
  | none => rw [if_pos (msb_eq_none_iff.mpr hm)]
  | some k =>
    rw [if_neg fun h => by rw [msb_eq_none_iff.mp h] at hm; cases hm]
    cases k with
    | true => rw [if_pos (msb_eq_true_iff.mpr hm)]
    | false => rw [if_neg fun h => by rw [msb_eq_true_iff.mp h] at hm; cases hm]

theorem ashr_mono {a a' b b' r r' : Value} (ha : a ≤ a') (hb : b ≤ b') (h : ashr a b = some r)
    (h' : ashr a' b' = some r') : r ≤ r' := by
  have hwr := ashr_width h
  have hwr' := ashr_width h'
  by_cases hbm : b.mask = 0
  · rw [← eq_of_le hb hbm] at h'
    by_cases h0 : a.width = 0
    · -- no bit at all
      refine le_of_bit_lt (by rw [hwr, hwr', ha.1]) fun i hi => ?_
      omega
    by_cases hge : b.val ≥ a.width
    · rw [ashr_of_width_le hbm h0 hge] at h
      rw [ashr_of_width_le hbm (by rw [← ha.1]; exact h0) (by rw [← ha.1]; exact hge), ← ha.1] at h'
      have hmsb := msb_mono ha
      cases hm : a.msb with
      | none =>
        rw [hm] at h
        cases h
        exact x_le (by rw [hwr', ha.1])
      | some k =>
        rw [hm, Kleene.le_some_left] at hmsb
        rw [hm] at h
        rw [hmsb] at h'
        rw [← Option.some_inj.mp h, ← Option.some_inj.mp h']
    · unfold ashr at h h'
      rw [if_neg (by simpa using hbm), if_neg h0, if_neg hge] at h
      rw [← ha.1, if_neg (by simpa using hbm), if_neg h0, if_neg hge] at h'
      simp only [Option.bind_eq_bind, Option.bind_eq_some_iff] at h h'
      obtain ⟨e, he, h⟩ := h
      obtain ⟨e', he', h'⟩ := h'
      cases h
      cases h'
      exact resize_mono _ (rshift_mono (signExtend_mono ha he he') le_rfl)
  · unfold ashr at h
    rw [if_pos hbm] at h
    cases h
    exact x_le (by rw [hwr', ha.1])

theorem evalBinaryOp_mono {op : BinaryOp} (hop : op ≠ .caseEq ∧ op ≠ .caseNe)
    {a a' b b' r r' : Value} (ha : a ≤ a') (hb : b ≤ b') (h : evalBinaryOp op a b = some r)
    (h' : evalBinaryOp op a' b' = some r') : r ≤ r' := by
  cases op
  case ashr => exact ashr_mono ha hb h h'
  case caseEq => exact absurd rfl hop.1
  case caseNe => exact absurd rfl hop.2
  all_goals
    cases h
    cases h'
  case add => exact add_mono ha hb
  case sub => exact sub_mono ha hb
  case mul => exact mul_mono ha hb
  case div => exact floordiv_mono ha hb
  case mod => exact mod_mono ha hb
  case pow => exact pow_mono ha hb
  case shl => exact lshift_mono ha hb
  case ashl => exact lshift_mono ha hb
  case shr => exact rshift_mono ha hb
  case lt => exact cmp_mono _ ha hb
  case le => exact cmp_mono _ ha hb
  case gt => exact cmp_mono _ ha hb
  case ge => exact cmp_mono _ ha hb
  case eq => exact eq_mono ha hb
  case ne => exact ne_mono ha hb
  case bitAnd => exact and_mono ha hb
  case bitOr => exact or_mono ha hb
  case bitXor => exact xor_mono ha hb
  case bitXnor => exact invert_mono (xor_mono ha hb)
  case bitXnor' => exact invert_mono (xor_mono ha hb)
  case logAnd => exact logicalAnd_mono ha hb
  case logOr => exact logicalOr_mono ha hb

theorem evalUnaryOp_mono (op : UnaryOp) {a a' : Value} (ha : a ≤ a') : evalUnaryOp op a ≤ evalUnaryOp op a' := by
  cases op
  case plus => exact ha
  case minus => exact neg_mono ha
  case bitNot => exact invert_mono ha
  case logNot => exact logicalNot_mono ha
  case redAnd => exact reduceAnd_mono ha
  case redOr => exact reduceOr_mono ha
  case redXor => exact reduceXor_mono ha
  case redNand => exact invert_mono (reduceAnd_mono ha)
  case redNor => exact invert_mono (reduceOr_mono ha)
  case redXnor => exact invert_mono (reduceXor_mono ha)
  case redXnor' => exact invert_mono (reduceXor_mono ha)

theorem evalSignedCmp_mono {op : BinaryOp} {a a' b b' r r' : Value} (ha : a ≤ a') (hb : b ≤ b')
    (h : evalSignedCmp op a b = some r) (h' : evalSignedCmp op a' b' = some r') : r ≤ r' := by
  by_cases hm : a.mask ≠ 0 ∨ b.mask ≠ 0
  · unfold evalSignedCmp at h
    rw [if_pos hm] at h
    cases h
    exact x_le (evalSignedCmp_width h')
  · rw [not_or, not_not, not_not] at hm
    rw [← eq_of_le ha hm.1, ← eq_of_le hb hm.2, h] at h'
    exact (Option.some_inj.mp h').le

theorem evalSignedDivmod_mono {op : BinaryOp} {a a' b b' r r' : Value} (ha : a ≤ a') (hb : b ≤ b')
    (hw : b.width ≤ a.width) (h : evalSignedDivmod op a b = some r)
    (h' : evalSignedDivmod op a' b' = some r') : r ≤ r' := by
  by_cases hm : a.mask ≠ 0 ∨ b.mask ≠ 0
  · unfold evalSignedDivmod at h
    rw [if_pos hm] at h
    cases h
    exact x_le (by rw [evalSignedDivmod_width h' (by rw [← ha.1, ← hb.1]; exact hw), ha.1])
  · rw [not_or, not_not, not_not] at hm
    rw [← eq_of_le ha hm.1, ← eq_of_le hb hm.2, h] at h'
    exact (Option.some_inj.mp h').le

theorem evalSignedPow_mono {a a' b b' r r' : Value} (ha : a ≤ a') (hb : b ≤ b')
    (h : evalSignedPow a b = some r) (h' : evalSignedPow a' b' = some r') : r ≤ r' := by
  by_cases hm : a.mask ≠ 0 ∨ b.mask ≠ 0
  · unfold evalSignedPow at h
    rw [if_pos hm] at h
    cases h
    exact x_le (by rw [evalSignedPow_width h', ha.1])
  · rw [not_or, not_not, not_not] at hm
    rw [← eq_of_le ha hm.1, ← eq_of_le hb hm.2, h] at h'
    exact (Option.some_inj.mp h').le

theorem evalBinaryResult_mono {op : BinaryOp} {bs ss : Bool} (hop : op ≠ .caseEq ∧ op ≠ .caseNe)
    {a a' b b' r r' : Value} (ha : a ≤ a') (hb : b ≤ b')
    (hw : op.isArithmetic = true → b.width ≤ a.width) (h : evalBinaryResult op bs ss a b = some r)
    (h' : evalBinaryResult op bs ss a' b' = some r') : r ≤ r' := by
  unfold evalBinaryResult at h h'
  split at h
  · next hc =>
    rw [if_pos hc] at h'
    exact evalSignedCmp_mono ha hb h h'
  next hc1 =>
  rw [if_neg hc1] at h'
  split at h
  · next hc =>
    rw [if_pos hc] at h'
    have harith : op.isArithmetic = true := by
      cases op <;> first | rfl | exact absurd hc.1 Bool.false_ne_true
    exact evalSignedDivmod_mono ha hb (hw harith) h h'
  next hc2 =>
  rw [if_neg hc2] at h'
  split at h
  · next hc =>
    rw [if_pos hc] at h'
    exact evalSignedPow_mono ha hb h h'
  next hc3 =>
  rw [if_neg hc3] at h'
  split at h
  · next hc =>
    rw [if_pos hc] at h'
    exact evalBinaryOp_mono ⟨by decide, by decide⟩ ha hb h h'
  · next hc =>
    rw [if_neg hc] at h'
    exact evalBinaryOp_mono hop ha hb h h'

/-- `_merge_xz` keeps the bits both branches know and agree on. -/
theorem bit_mergeXz (a b : Value) (i : Nat) : (mergeXz a b).bit i = Kleene.agree (a.bit i) (b.bit i) := by
  by_cases hi : i < max a.width b.width
  · unfold mergeXz
    dsimp only
    rw [bit_init, if_pos hi]
    simp only [Nat.testBit_and, Nat.testBit_xor, testBit_lnot, testBit_maskForWidth, val_testBit, mask_testBit, hi]
    generalize a.bit i = p
    generalize b.bit i = q
    rcases p with _ | _ | _ <;> rcases q with _ | _ | _ <;> rfl
  · have ha : a.bit i = some false := bit_of_width_le (by omega)
    have hb : b.bit i = some false := bit_of_width_le (by omega)
    rw [ha, hb, bit_of_width_le (by rw [mergeXz_width]; omega)]
    rfl

theorem mergeXz_mono {a a' b b' : Value} (ha : a ≤ a') (hb : b ≤ b') : mergeXz a b ≤ mergeXz a' b' :=
  ⟨by rw [mergeXz_width, mergeXz_width, ha.1, hb.1], fun i => by
    rw [bit_mergeXz, bit_mergeXz]
    exact Kleene.agree_mono (ha.2 i) (hb.2 i)⟩

/-- The merge of two branches of one width is below each of them. -/
theorem mergeXz_le_left {a b : Value} (hw : a.width = b.width) : mergeXz a b ≤ a :=
  ⟨by rw [mergeXz_width, hw, max_self], fun i => by
    rw [bit_mergeXz]
    exact Kleene.agree_le_left _ _⟩

theorem mergeXz_le_right {a b : Value} (hw : a.width = b.width) : mergeXz a b ≤ b :=
  ⟨by rw [mergeXz_width, hw, max_self], fun i => by
    rw [bit_mergeXz]
    exact Kleene.agree_le_right _ _⟩

theorem foldl_concat_mono {vs vs' : List Value} (h : List.Forall₂ (· ≤ ·) vs vs') {v v' : Value}
    (hv : v ≤ v') : vs.foldl Value.concat v ≤ vs'.foldl Value.concat v' := by
  induction h generalizing v v' with
  | nil => exact hv
  | cons h _ ih => exact ih (concat_mono hv h)

theorem concatValues_mono {vs vs' : List Value} (h : List.Forall₂ (· ≤ ·) vs vs') :
    concatValues vs ≤ concatValues vs' := by
  cases h with
  | nil => exact le_rfl
  | cons h hs => exact foldl_concat_mono hs h

theorem getPart_mono {a a' : Value} (base : Int) (width : Nat) (d : Direction) (ha : a ≤ a') :
    getPart a base width d ≤ getPart a' base width d := by
  cases d <;> exact getRange_mono _ _ ha

theorem asSigned_of_le {v v' : Value} {n n' : Int} (h : v ≤ v') (hn : v.asSigned = some n)
    (hn' : v'.asSigned = some n') : n = n' := by
  have hm : v.mask = 0 := by
    by_contra hm
    unfold asSigned at hn
    rw [if_pos (Or.inl hm)] at hn
    cases hn
  rw [← eq_of_le h hm, hn] at hn'
  exact Option.some_inj.mp hn'

variable {T : SignalTable}

theorem indexInt_mono {i : Expr} {index : Value} {again again' : Option Value} {n n' : Int}
    (ha : ∀ v v', again = some v → again' = some v' → v ≤ v')
    (h : indexInt T i index again = some n) (h' : indexInt T i index again' = some n') : n = n' := by
  unfold indexInt at h h'
  split at h
  · next hc =>
    rw [if_pos hc, h] at h'
    exact Option.some_inj.mp h'
  next hc =>
  rw [if_neg hc] at h'
  split at h
  · next hw =>
    rw [if_pos hw] at h'
    obtain ⟨v, hv, h⟩ := Option.bind_eq_some_iff.mp h
    obtain ⟨v', hv', h'⟩ := Option.bind_eq_some_iff.mp h'
    exact asSigned_of_le (ha v v' hv hv') h h'
  · next hw =>
    rw [if_neg hw, h] at h'
    exact Option.some_inj.mp h'

theorem selectBit_mono {t i : Expr} {target target' index index' r r' : Value}
    {again again' : Option Value} (ht : target ≤ target') (hi : index ≤ index')
    (ha : ∀ v v', again = some v → again' = some v' → v ≤ v')
    (h : selectBit T t target i index again = some r)
    (h' : selectBit T t target' i index' again' = some r') : r ≤ r' := by
  have hw' := selectBit_width h'
  unfold selectBit at h h'
  split at h
  · next hd =>
    rw [← eq_of_le hi (isDefined_iff.mp hd), if_pos hd] at h'
    simp only [Option.bind_eq_bind, Option.bind_eq_some_iff] at h h'
    obtain ⟨n, hn, h⟩ := h
    obtain ⟨n', hn', h'⟩ := h'
    rw [← indexInt_mono ha hn hn'] at h'
    cases h
    cases h'
    exact getBit_mono _ ht
  · cases h
    exact x_le hw'

theorem selectWord_mono {st st' : Store T} (hst : st ≤ st') {name : String} {ew d : Nat} {i : Expr}
    {index index' r r' : Value} {again again' : Option Value}
    (hm : T.memory name = some (ew, d)) (hi : index ≤ index')
    (ha : ∀ v v', again = some v → again' = some v' → v ≤ v')
    (h : selectWord T st name ew d i index again = some r)
    (h' : selectWord T st' name ew d i index' again' = some r') : r ≤ r' := by
  have hw' := selectWord_width hm h'
  unfold selectWord at h h'
  split at h
  · next hd =>
    rw [← eq_of_le hi (isDefined_iff.mp hd), if_pos hd] at h'
    simp only [Option.bind_eq_bind, Option.bind_eq_some_iff] at h h'
    obtain ⟨n, hn, h⟩ := h
    obtain ⟨n', hn', h'⟩ := h'
    rw [← indexInt_mono ha hn hn'] at h'
    cases h
    cases h'
    exact Store.readWord_mono hst _ _ _ _
  · cases h
    exact x_le hw'

theorem selectPart_mono {t b : Expr} {target target' base base' partW r r' : Value} {d : Direction}
    (ht : target ≤ target') (hb : base ≤ base') (hd : partW.isDefined = true) (hp : 0 < partW.val)
    (h : selectPart T t target b base partW d = some r)
    (h' : selectPart T t target' b base' partW d = some r') : r ≤ r' := by
  have hw' := selectPart_width hd hp h'
  unfold selectPart at h h'
  split at h
  · next hc =>
    rw [← eq_of_le hb (isDefined_iff.mp hc.1), if_pos hc] at h'
    simp only [Option.bind_eq_bind, Option.bind_eq_some_iff] at h h'
    obtain ⟨n, hn, h⟩ := h
    obtain ⟨n', hn', h'⟩ := h'
    rw [hn] at hn'
    cases hn'
    cases h
    cases h'
    exact getPart_mono _ _ _ ht
  · cases h
    rw [if_pos ⟨hd, hp⟩]
    exact x_le hw'

/-- `&&` skips its right operand when the left one is all known 0. -/
theorem shortCircuit_logAnd (l : Value) (right : Option Value) :
    shortCircuit .logAnd l right = if l.truth = some false then some (ofInt 0 1) else right := by
  have hiff : ((l.val ||| l.mask) != 0) = true ↔ ¬ l.truth = some false := by
    rw [truth_eq_some_false_iff, knownZero_iff, bne_iff_ne, ne_eq, Nat.or_eq_zero_iff, and_comm]
  change (if ((l.val ||| l.mask) != 0) = true then right else some (ofInt 0 1)) = _
  by_cases h : l.truth = some false
  · rw [if_pos h, if_neg fun hc => hiff.mp hc h]
  · rw [if_neg h]
    exact if_pos (hiff.mpr h)

/-- `||` skips its right operand when the left one has a known 1. -/
theorem shortCircuit_logOr (l : Value) (right : Option Value) :
    shortCircuit .logOr l right = if l.truth = some true then some (ofInt 0 1) else right := by
  unfold shortCircuit
  by_cases h : l.truth = some true
  · rw [if_pos h]
    exact if_neg (by simp [truth_eq_some_true_iff.mp h])
  · rw [if_neg h]
    rw [truth_eq_some_true_iff, Bool.not_eq_true] at h
    exact if_pos (by simp [h])

/-- With a deciding left operand nothing the right one does matters. -/
theorem shortCircuit_mono {op : BinaryOp} (hop : op.isLogical = true)
    {l l' r r' v v' : Value} {right right' : Option Value} (hl : l ≤ l')
    (hr : ∀ v v', right = some v → right' = some v' → v ≤ v')
    (h : shortCircuit op l right = some r) (h' : shortCircuit op l' right' = some r')
    (hv : evalBinaryOp op l r = some v) (hv' : evalBinaryOp op l' r' = some v') : v ≤ v' := by
  have hle := truth_mono hl
  cases op
  case logAnd =>
    cases hv
    cases hv'
    rw [logicalAnd_eq, logicalAnd_eq]
    rw [shortCircuit_logAnd] at h h'
    refine ofTruth_mono ?_
    by_cases h0' : l'.truth = some false
    · rw [h0'] at hle ⊢
      rcases ht : l.truth with _ | _ | _
      · rcases r.truth with _ | _ | _ <;> simp [Kleene.and]
      · exact Kleene.Le.refl _
      · rw [ht] at hle
        cases hle true rfl
    · have h0 : ¬ l.truth = some false := fun h => h0' (hle false h)
      rw [if_neg h0] at h
      rw [if_neg h0'] at h'
      exact Kleene.and_mono hle (truth_mono (hr r r' h h'))
  case logOr =>
    cases hv
    cases hv'
    rw [logicalOr_eq, logicalOr_eq]
    rw [shortCircuit_logOr] at h h'
    refine ofTruth_mono ?_
    by_cases h1' : l'.truth = some true
    · rw [h1'] at hle ⊢
      rcases ht : l.truth with _ | _ | _
      · rcases r.truth with _ | _ | _ <;> simp [Kleene.or]
      · rw [ht] at hle
        cases hle false rfl
      · exact Kleene.Le.refl _
    · have h1 : ¬ l.truth = some true := fun h => h1' (hle true h)
      rw [if_neg h1] at h
      rw [if_neg h1'] at h'
      exact Kleene.or_mono hle (truth_mono (hr r r' h h'))
  all_goals cases hop

/-! ## The whole evaluator -/

/-- The node is legal and does not look at `x` bits. -/
def monotoneNode (T : SignalTable) : Expr → Bool
  | .binary .caseEq _ _ | .binary .caseNe _ _ => false
  | e => legal T e

theorem legal_of_monotoneNode {e : Expr} (h : monotoneNode T e = true) : legal T e = true := by
  unfold monotoneNode at h
  split at h
  · cases h
  · cases h
  · exact h

theorem ne_caseEq_of_monotoneNode {op : BinaryOp} {l r : Expr}
    (h : monotoneNode T (.binary op l r) = true) : op ≠ .caseEq ∧ op ≠ .caseNe := by
  constructor
  · rintro rfl
    cases h
  · rintro rfl
    cases h

variable {st st' : Store T}

theorem evalParts_forall₂ {es : List Expr} {vs vs' : List Value} (h : evalParts st es = some vs)
    (h' : evalParts st' es = some vs')
    (hp : ∀ e ∈ es, ∀ v v', evalRequest st e (.context (selfWidth T e) none) = some v →
      evalRequest st' e (.context (selfWidth T e) none) = some v' → v ≤ v') :
    List.Forall₂ (· ≤ ·) vs vs' := by
  induction es generalizing vs vs' with
  | nil =>
    cases h
    cases h'
    exact .nil
  | cons e es ih =>
    rw [evalParts] at h h'
    simp only [Option.bind_eq_bind, Option.bind_eq_some_iff] at h h'
    obtain ⟨v, hv, us, hus, h⟩ := h
    obtain ⟨v', hv', us', hus', h'⟩ := h'
    cases h
    cases h'
    rw [List.forall_mem_cons] at hp
    exact .cons (hp.1 v v' hv hv') (ih hus hus' hp.2)

/-- Two evaluations of one expression, in a store and in one that knows more: the second result knows
every bit of the first. -/
theorem evalRequest_mono (hst : st ≤ st') {e : Expr} {q : Request} {v v' : Value}
    (h : evalRequest st e q = some v) (h' : evalRequest st' e q = some v')
    (hl : AllAt T (fun e _ => monotoneNode T e = true) e (q.width T e)) : v ≤ v' := by
  -- by induction on the expression; the widths of the operands come from legality
  have hlegal : ∀ {e : Expr} {w : Nat}, AllAt T (fun e _ => monotoneNode T e = true) e w →
      AllAt T (fun e _ => legal T e = true) e w := AllAt.imp fun _ _ => legal_of_monotoneNode
  induction e generalizing q v v' with
  | ident hier n =>
    rw [evalRequest] at h h'
    cases hw : T.width (identifierName hier n) with
    | some w =>
      rw [Store.signal?_eq_some hw] at h h'
      exact widen_mono (hst.1 _) h h'
    | none =>
      rw [Store.signal?, hw] at h h'
      dsimp only [Option.map_none] at h h'
      cases hmem : T.memory (identifierName hier n) with
      | none =>
        rw [Store.readWholeMemory, hmem] at h h'
        cases h
        cases h'
        exact le_rfl
      | some m =>
        obtain ⟨whole, hr, -⟩ := readWholeMemory_eq_some st hmem
        obtain ⟨whole', hr', -⟩ := readWholeMemory_eq_some st' hmem
        rw [hr] at h
        rw [hr'] at h'
        exact widen_mono (Store.readWholeMemory_mono hst hr hr') h h'
  | literal l =>
    rw [evalRequest] at h h'
    rw [h] at h'
    exact (Option.some_inj.mp h').le
  | string s => exact absurd hl.self Bool.false_ne_true
  | unary op e ih =>
    rw [AllAt] at hl
    cases hc : op.contextDetermined with
    | true =>
      rw [evalRequest_unary_context hc] at h h'
      simp only [Option.bind_eq_some_iff, Option.map_eq_some_iff] at h h'
      obtain ⟨o, ho, p, hp, rfl⟩ := h
      obtain ⟨o', ho', p', hp', rfl⟩ := h'
      rw [hc, if_pos rfl] at hl
      exact evalUnaryOp_mono op (fitOperand_mono (ih ho ho' hl.2) hp hp')
    | false =>
      rw [evalRequest_unary_self hc] at h h'
      simp only [Option.bind_eq_some_iff] at h h'
      obtain ⟨o, ho, h⟩ := h
      obtain ⟨o', ho', h'⟩ := h'
      rw [hc, if_neg Bool.false_ne_true] at hl
      exact widen_mono (evalUnaryOp_mono op (ih ho ho' hl.2)) h h'
  | binary op l r ihl ihr =>
    rw [AllAt] at hl
    have hop := ne_caseEq_of_monotoneNode hl.1
    rcases op.sizing with hc | hc | hc | hc | hc
    · rw [evalRequest_logical hc] at h h'
      simp only [Option.bind_eq_some_iff] at h h'
      obtain ⟨a, ha, b, hb, u, hu, h⟩ := h
      obtain ⟨a', ha', b', hb', u', hu', h'⟩ := h'
      rw [operandWidths_logical _ _ _ hc] at hl
      refine fit_mono (shortCircuit_mono hc (ihl ha ha' hl.2.1) (fun _ _ h h' => ?_) hb hb' hu hu')
        h h'
      exact ihr h h' hl.2.2
    · rw [evalRequest_comparison hc] at h h'
      simp only [Option.bind_eq_some_iff] at h h'
      obtain ⟨a, ha, b, hb, c, hcv, d, hd, u, hu, h⟩ := h
      obtain ⟨a', ha', b', hb', c', hcv', d', hd', u', hu', h'⟩ := h'
      rw [operandWidths_comparison _ _ _ hc] at hl
      refine fit_mono (evalBinaryResult_mono hop (widen_mono (ihl ha ha' hl.2.1) hcv hcv')
        (widen_mono (ihr hb hb' hl.2.2) hd hd') (fun harith => ?_) hu hu') h h'
      rw [BinaryOp.not_arithmetic_of_comparison hc] at harith
      cases harith
    · rw [evalRequest_shift hc] at h h'
      simp only [Option.bind_eq_some_iff] at h h'
      obtain ⟨a, ha, b, hb, c, hcv, u, hu, h⟩ := h
      obtain ⟨a', ha', b', hb', c', hcv', u', hu', h'⟩ := h'
      rw [operandWidths_shift _ _ _ hc] at hl
      refine fit_mono (evalBinaryResult_mono hop (widen_mono (ihl ha ha' hl.2.1) hb hb')
        (ihr hcv hcv' hl.2.2) (fun harith => ?_) hu hu') h h'
      rw [BinaryOp.not_arithmetic_of_shift hc] at harith
      cases harith
    · rw [evalRequest_bitwise hc] at h h'
      simp only [Option.bind_eq_some_iff] at h h'
      obtain ⟨a, ha, b, hb, c, hcv, d, hd, u, hu, h⟩ := h
      obtain ⟨a', ha', b', hb', c', hcv', d', hd', u', hu', h'⟩ := h'
      rw [operandWidths_bitwise _ _ _ hc] at hl
      exact fit_mono (evalBinaryOp_mono hop (align_mono (ihl ha ha' hl.2.1) hcv hcv')
        (align_mono (ihr hb hb' hl.2.2) hd hd') hu hu') h h'
    · rw [evalRequest_arithmetic hc] at h h'
      simp only [Option.bind_eq_some_iff] at h h'
      obtain ⟨a, ha, b, hb, c, hcv, d, hd, u, hu, h⟩ := h
      obtain ⟨a', ha', b', hb', c', hcv', d', hd', u', hu', h'⟩ := h'
      rw [operandWidths_arithmetic _ _ _ hc] at hl
      refine fit_mono (evalBinaryResult_mono hop (widen_mono (ihl ha ha' hl.2.1) hcv hcv')
        (widen_mono (ihr hb hb' hl.2.2) hd hd') (fun _ => ?_) hu hu') h h'
      -- both operands are exactly as wide as the target
      have hwa := evalRequest_width ha (hlegal hl.2.1)
      have hwb := evalRequest_width hb (hlegal hl.2.2)
      rw [Request.width_context] at hwa hwb
      rw [widen_width hcv, widen_width hd]
      unfold operandTarget at hwa hwb ⊢
      omega
  | ternary c t f ihc iht ihf =>
    rw [AllAt] at hl
    rw [evalRequest] at h h'
    simp only [Option.bind_eq_bind, Option.bind_eq_some_iff] at h h'
    obtain ⟨a, ha, h⟩ := h
    obtain ⟨a', ha', h'⟩ := h'
    have hcond := reduceOr_mono (ihc ha ha' hl.2.1)
    -- the arms of one evaluation have the width of the conditional
    have hwt : ∀ {st : Store T} {ov : Option Bool} {v : Value}, evalRequest st t
        (.context (max (q.width T (.ternary c t f)) (max (selfWidth T t) (selfWidth T f))) ov)
          = some v →
        v.width = max (q.width T (.ternary c t f)) (max (selfWidth T t) (selfWidth T f)) :=
      fun h => by
        have := evalRequest_width h (hlegal hl.2.2.1)
        rw [Request.width_context] at this
        omega
    have hwf : ∀ {st : Store T} {ov : Option Bool} {v : Value}, evalRequest st f
        (.context (max (q.width T (.ternary c t f)) (max (selfWidth T t) (selfWidth T f))) ov)
          = some v →
        v.width = max (q.width T (.ternary c t f)) (max (selfWidth T t) (selfWidth T f)) :=
      fun h => by
        have := evalRequest_width h (hlegal hl.2.2.2)
        rw [Request.width_context] at this
        omega
    by_cases hd : a.reduceOr.isDefined = true
    · rw [← eq_of_le hcond (isDefined_iff.mp hd), if_pos hd] at h'
      rw [if_pos hd] at h
      split at h
      · next hv =>
        rw [if_pos hv] at h'
        exact iht h h' hl.2.2.1
      · next hv =>
        rw [if_neg hv] at h'
        exact ihf h h' hl.2.2.2
    · rw [if_neg hd] at h
      simp only [Option.bind_eq_some_iff] at h
      obtain ⟨x, hx, y, hy, h⟩ := h
      cases h
      have hxy : x.width = y.width := (hwt hx).trans (hwf hy).symm
      split at h'
      · split at h'
        · exact (mergeXz_le_left hxy).trans (iht hx h' hl.2.2.1)
        · exact (mergeXz_le_right hxy).trans (ihf hy h' hl.2.2.2)
      · simp only [Option.bind_eq_some_iff] at h'
        obtain ⟨x', hx', y', hy', h'⟩ := h'
        cases h'
        exact mergeXz_mono (iht hx hx' hl.2.2.1) (ihf hy hy' hl.2.2.2)
  | concat b ps ih =>
    rw [AllAt, allPartsAt_iff] at hl
    rw [evalRequest] at h h'
    simp only [Option.bind_eq_bind, Option.bind_eq_some_iff] at h h'
    obtain ⟨vs, hvs, h⟩ := h
    obtain ⟨vs', hvs', h'⟩ := h'
    have hparts := evalParts_forall₂ hvs hvs' fun p hp v v' hv hv' =>
      ih p hp hv hv' (hl.2 p hp)
    split at h
    · next hnil =>
      rw [if_pos hnil, h] at h'
      exact (Option.some_inj.mp h').le
    · next hnil =>
      rw [if_neg hnil] at h'
      exact widen_mono (concatValues_mono hparts) h h'
  | replicate c v ihc ihv =>
    obtain ⟨l, n, rfl, hd, hn⟩ := legal_replicate (legal_of_monotoneNode hl.self)
    rw [AllAt] at hl
    rw [evalRequest] at h h'
    simp only [Option.bind_eq_bind, Option.bind_eq_some_iff] at h h'
    obtain ⟨a, ha, b, hb, h⟩ := h
    obtain ⟨a', ha', b', hb', h'⟩ := h'
    rw [evalRequest_literal_zero] at ha ha'
    cases ha
    cases ha'
    have hbb := ihv hb hb' hl.2.2
    rw [if_pos (Literal.denoted_eq_some hd).2.2.1] at h h'
    exact widen_mono (replicate_mono _ hbb) h h'
  | streaming ps ih => exact absurd hl.self Bool.false_ne_true
  | streamingBy s ps ihs ih => exact absurd hl.self Bool.false_ne_true
  | bitSelect t i iht ihi =>
    rw [AllAt] at hl
    rw [evalRequest] at h h'
    cases hm : memoryTarget? T t with
    | some m =>
      obtain ⟨name, ew, d⟩ := m
      rw [hm] at h h'
      simp only [Option.bind_eq_bind, Option.bind_eq_some_iff] at h h'
      obtain ⟨a, ha, b, hb, h⟩ := h
      obtain ⟨a', ha', b', hb', h'⟩ := h'
      exact widen_mono (selectWord_mono hst (memoryTarget?_eq_some hm).2 (ihi ha ha' hl.2.2.1)
        (fun _ _ hu hu' => ihi (q := .context _ (some true)) hu hu' hl.2.2.2) hb hb') h h'
    | none =>
      rw [hm] at h h'
      simp only [Option.bind_eq_bind, Option.bind_eq_some_iff] at h h'
      obtain ⟨x, hx, a, ha, b, hb, h⟩ := h
      obtain ⟨x', hx', a', ha', b', hb', h'⟩ := h'
      exact widen_mono (selectBit_mono (iht hx hx' (hl.2.1 hm)) (ihi ha ha' hl.2.2.1)
        (fun _ _ hu hu' => ihi (q := .context _ (some true)) hu hu' hl.2.2.2) hb hb') h h'
  | rangeSelect t m l iht ihm ihl =>
    obtain ⟨m', l', mi, li, rfl, rfl, hm, hl', hle⟩ :=
      legal_rangeSelect (legal_of_monotoneNode hl.self)
    rw [AllAt] at hl
    rw [evalRequest] at h h'
    simp only [Option.bind_eq_bind, Option.bind_eq_some_iff] at h h'
    obtain ⟨x, hx, a, ha, b, hb, c, hcv, h⟩ := h
    obtain ⟨x', hx', a', ha', b', hb', c', hcv', h'⟩ := h'
    rw [evalRequest_literal_zero] at ha ha' hb hb'
    cases ha
    cases ha'
    cases hb
    cases hb'
    have hc := hcv
    have hc' := hcv'
    unfold selectRange at hc hc'
    rw [if_pos ⟨(Literal.denoted_eq_some hm).2.2.1, (Literal.denoted_eq_some hl').2.2.1⟩,
      indexInt_literal hm, indexInt_literal hl'] at hc hc'
    cases hc
    cases hc'
    exact widen_mono (getRange_mono _ _ (iht hx hx' hl.2.1)) h h'
  | partSelect t b w d iht ihb ihw =>
    obtain ⟨l, n, rfl, hd, hn⟩ := legal_partSelect (legal_of_monotoneNode hl.self)
    have hval := Literal.val_of_denoted hd hn.le
    rw [AllAt] at hl
    rw [evalRequest] at h h'
    simp only [Option.bind_eq_bind, Option.bind_eq_some_iff] at h h'
    obtain ⟨x, hx, a, ha, b, hb, c, hcv, h⟩ := h
    obtain ⟨x', hx', a', ha', b', hb', c', hcv', h'⟩ := h'
    rw [evalRequest_literal_zero] at hb hb'
    cases hb
    cases hb'
    exact widen_mono (selectPart_mono (iht hx hx' hl.2.1) (ihb ha ha' hl.2.2.1.1)
      (Literal.denoted_eq_some hd).2.2.1 (by omega) hcv hcv') h h'
  | cast s a ih =>
    rw [AllAt] at hl
    cases q with
    | inner =>
      rw [evalRequest] at h h'
      exact ih h h' hl.2
    | context w ov =>
      rw [evalRequest] at h h'
      simp only [Option.bind_eq_bind, Option.bind_eq_some_iff] at h h'
      obtain ⟨r, hr, h⟩ := h
      obtain ⟨r', hr', h'⟩ := h'
      exact widen_mono (ih hr hr' hl.2) h h'
  | call f as ih => exact absurd hl.self Bool.false_ne_true

/-! ## Expressions -/

/-- A bit known in one store keeps its value in every store that knows more. The second store can only
fail to have a value where evaluation raises, which an evaluable expression never does. -/
theorem eval_known_bits (hst : st ≤ st') {e : Expr} {w : Nat} {ov : Option Bool} {v : Value}
    (hl : AllAt T (fun e _ => monotoneNode T e = true) e w) (hv : eval st e w ov = some v) :
    (∀ v', eval st' e w ov = some v' → ∀ i k, v.bit i = some k → v'.bit i = some k) ∧
      (AllAt T (Evaluable T) e w → ∃ v', eval st' e w ov = some v') :=
  ⟨fun _ hv' _ _ hk => bit_eq_some_of_le (evalRequest_mono hst hv hv' hl) hk,
    fun hev => exists_evalRequest (q := .context w ov) hev⟩

/-- A signed vector of four bits. -/
def nibbleTable : SignalTable := .vectors [("a", 4, true)]

/-- All its bits 1, except those of the mask. -/
def nibbleStore (mask : Nat) : Store nibbleTable := .ofBits nibbleTable (fun _ => 15) (fun _ => mask)

/-- `a & 4'b0011` has its upper half known whatever `a` is. -/
theorem eval_known_bits_and :
    let e := Expr.binary .bitAnd (.ident [] "a")
      (.literal (Literal.sized (some 4) false .bin [.num 0, .num 0, .num 1, .num 1]))
    (∀ v', eval (nibbleStore 0) e 4 none = some v' →
        ∀ i k, (Value.init 0 4 3).bit i = some k → v'.bit i = some k) ∧
      (AllAt nibbleTable (Evaluable nibbleTable) e 4 → ∃ v', eval (nibbleStore 0) e 4 none = some v') := by
  refine @eval_known_bits nibbleTable (nibbleStore 15) (nibbleStore 0) (Store.ofBits_le fun n i h => ?_) _ _ _ _ ?_
    (rfl)
  · rw [Nat.zero_testBit] at h
    cases h
  · simp only [AllAt]
    decide

/-- Two signed vectors of 1025 bits. -/
def wideTable : SignalTable := .vectors [("a", 1025, true), ("b", 1025, true)]

/-- `{a / b, 1'b0}`. -/
def wideQuotient : Expr :=
  .concat false [.binary .div (.ident [] "a") (.ident [] "b"), .literal (Literal.sized (some 1) false .bin [.num 0])]

/-- `a` is the least 1025-bit integer, `b` is 1 except for the bits of `bMask`, which are `x`. -/
def wideStore (bMask : Nat) : Store wideTable :=
  .ofBits wideTable (fun n => if n = "a" then 2 ^ 1024 else 1) (fun n => if n = "a" then 0 else bMask)

/-- The last bit of `{a / b, 1'b0}` is known while `b` is `x`. Once `b` is 1 the quotient overflows a
double, evaluation raises, and the bit is lost. -/
theorem eval_wideQuotient :
    wideStore (2 ^ 1025 - 1) ≤ wideStore 0 ∧
      AllAt wideTable (fun e _ => monotoneNode wideTable e = true) wideQuotient 0 ∧
      ¬ ∀ v, eval (wideStore (2 ^ 1025 - 1)) wideQuotient 0 none = some v →
        ∀ i k, v.bit i = some k → ∃ v', eval (wideStore 0) wideQuotient 0 none = some v' ∧
          v'.bit i = some k := by
  have hval : (eval (wideStore (2 ^ 1025 - 1)) wideQuotient 0 none).map (fun v => v.bit 0)
      = some (some false) := by decide +kernel
  have hraise : eval (wideStore 0) wideQuotient 0 none = none := by decide +kernel
  refine ⟨Store.ofBits_le fun n i h => ?_, ?_, fun hall => ?_⟩
  · split at h
    · next hn => rwa [if_pos hn]
    · rw [Nat.zero_testBit] at h
      cases h
  · simp only [wideQuotient, AllAt, AllPartsAt]
    decide
  · obtain ⟨v, hv, hbit⟩ := Option.map_eq_some_iff.mp hval
    obtain ⟨v', hv', -⟩ := hall v hv 0 false hbit
    rw [hraise] at hv'
    cases hv'

end Veriforge

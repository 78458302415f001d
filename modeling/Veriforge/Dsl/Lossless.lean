import Veriforge.Dsl.Fill

/-! # A wire loses nothing

Every operator of a driver keeps to the fill that its operands settle with, so the value of the whole driver settles,
and a wire of its width holds all of it where the fill is what the wire is extended by. -/

namespace Veriforge.Driver

open Value

variable {T : SignalTable} {st : Store T} {s : Bool} {m : Nat} {a b : Option Bool}

/-! ## Operators -/

theorem fitOperand_of_settled {e : Expr} {ov : Option Bool} {W : Nat} {v : Value}
    (h : v.width = W ∨ v.width = max W (selfWidth T e)) : fitOperand T e ov W v = some v := by
  rw [fitOperand]
  split
  · next hc => exact extendTo_of_width (h.resolve_left hc.2)
  · rfl

/-- `~` and `+` work bit by bit. -/
theorem follows_unary {op : UnaryOp} {e : Expr} {k : Option Bool → Option Bool} (hc : op.contextDetermined = true)
    (hbit : ∀ v i, i < v.width → (evalUnaryOp op v).bit i = k (v.bit i))
    (h : Follows st s e m b) :
    Follows st s (.unary op e) m (k b) := by
  rcases h with h | ⟨p, hp, h⟩
  · refine .inl fun W hW hpos => ?_
    rw [evalRequest_unary_context hc, Request.width_context, Request.signedOverride_context, h W hW hpos]
    rfl
  · refine .inr ⟨fun i => k (p i), fun i hi => congrArg k (hp i hi), fun W hW hpos => ?_⟩
    obtain ⟨v, hv, hwidth, hbits⟩ := h W hW hpos
    have hsame : (evalUnaryOp op v).width = v.width := by rw [evalUnaryOp_width, if_pos hc]
    refine ⟨evalUnaryOp op v, ?_, ?_, fun i hi => ?_⟩
    · rw [evalRequest_unary_context hc, Request.width_context, Request.signedOverride_context, hv, Option.bind_some,
        fitOperand_of_settled hwidth, Option.map_some]
    · rwa [hsame, selfWidth, if_pos hc]
    · rw [hsame] at hi
      rw [hbit v i hi, hbits i hi]

theorem bit_evalBinaryOp {op : BinaryOp} (hc : op.isBitwise = true) (v w : Value) {r : Value}
    (h : evalBinaryOp op v w = some r) {i : Nat} (hi : i < r.width) : r.bit i = bitwiseBit op (v.bit i) (w.bit i) := by
  cases op with
  | bitAnd =>
    cases h
    exact bit_and v w i
  | bitOr =>
    cases h
    exact bit_or v w i
  | bitXor =>
    cases h
    exact bit_xor v w i
  | bitXnor | bitXnor' =>
    cases h
    rw [invert_width] at hi
    rw [bit_invert, if_pos hi, bit_xor]
    rfl
  | _ => cases hc

theorem exists_evalBinaryOp_bitwise {op : BinaryOp} (hc : op.isBitwise = true) (v w : Value) :
    ∃ r, evalBinaryOp op v w = some r := by
  cases op <;> first | exact ⟨_, rfl⟩ | cases hc

/-- A bitwise operator aligns its operands where both have settled. -/
theorem follows_bitwise {op : BinaryOp} {l r : Expr} (hc : op.isBitwise = true)
    (hl : Follows st s l m a)
    (hr : Follows st s r m b) :
    Follows st s (.binary op l r) m (bitwiseBit op a b) := by
  have heq : ∀ W, evalRequest st (.binary op l r) (.context W (some s)) = _ := fun W => evalRequest_bitwise hc l r _
  simp only [Request.width_context, Request.signedOverride_context, Option.getD_some] at heq
  have htarget : ∀ W, W ≤ operandTarget T l r W := fun W => le_max_left _ _
  rcases hl with hl | ⟨p, hp, hl⟩
  · refine .inl fun W hW hpos => ?_
    rw [heq, hl _ (hW.trans (htarget W)) (hpos.trans_le (htarget W))]
    rfl
  rcases hr with hr | ⟨q, hq, hr⟩
  · refine .inl fun W hW hpos => ?_
    obtain ⟨v, hv, -⟩ := hl _ (hW.trans (htarget W)) (hpos.trans_le (htarget W))
    rw [heq, hv, Option.bind_some, hr _ (hW.trans (htarget W)) (hpos.trans_le (htarget W))]
    rfl
  · refine .inr ⟨fun i => bitwiseBit op (p i) (q i), fun i hi => by simp only [hp i hi, hq i hi], fun W hW hpos => ?_⟩
    obtain ⟨v, hv, hvw, hvb⟩ := hl _ (hW.trans (htarget W)) (hpos.trans_le (htarget W))
    obtain ⟨w, hw, hww, hwb⟩ := hr _ (hW.trans (htarget W)) (hpos.trans_le (htarget W))
    have hv' : v.width = operandTarget T l r W := by
      unfold operandTarget at hvw ⊢
      omega
    have hw' : w.width = operandTarget T l r W := by
      unfold operandTarget at hww ⊢
      omega
    obtain ⟨u, hu⟩ := exists_evalBinaryOp_bitwise hc v w
    have huw : u.width = operandTarget T l r W := by
      rw [evalBinaryOp_width hu, resultWidth_bitwise _ _ hc, hv', hw', max_self]
    refine ⟨u.resize W, ?_, .inl (resize_width u W), fun i hi => ?_⟩
    · rw [heq, hv, Option.bind_some, hw, Option.bind_some, align_of_width hv', Option.bind_some, align_of_width hw',
        Option.bind_some, hu, Option.bind_some, fit_of_le hpos (huw ▸ htarget W)]
    · rw [resize_width] at hi
      have hi' : i < operandTarget T l r W := hi.trans_le (htarget W)
      rw [bit_resize, if_pos hi, bit_evalBinaryOp hc v w hu (huw ▸ hi'), hvb i (hv' ▸ hi'), hwb i (hw' ▸ hi')]

/-- An arithmetic shift repeats the sign bit. -/
theorem bit_ashr {v k r : Value} (hk : k.mask = 0) (h : ashr v k = some r) {i : Nat} (hi : i < v.width) :
    r.bit i = if i + k.val < v.width then v.bit (i + k.val) else v.msb := by
  by_cases hle : v.width ≤ k.val
  · rw [ashr_of_width_le hk (by omega) hle] at h
    rw [if_neg (by omega)]
    cases hm : v.msb with
    | none =>
      rw [hm] at h
      cases h
      rw [bit_x, if_pos hi]
    | some c =>
      rw [hm] at h
      cases c with
      | false =>
        cases h
        rw [show (0 : Int) = ((0 : Nat) : Int) from rfl, bit_ofInt]
        simp
      | true =>
        cases h
        rw [show ((2 : Int) ^ v.width - 1) = ((2 ^ v.width - 1 : Nat) : Int) by
          rw [Nat.cast_sub Nat.one_le_two_pow]; push_cast; rfl, bit_ofInt, Nat.testBit_two_pow_sub_one]
        simp [hi]
  · rw [ashr, if_neg (by simpa using hk), if_neg (by omega), if_neg hle] at h
    simp only [Option.bind_eq_bind, Option.bind_eq_some_iff] at h
    obtain ⟨u, hu, h⟩ := h
    cases h
    rw [bit_resize, if_pos hi, bit_rshift hk, (signExtend_eq_some hu).2 _ (by omega)]

/-- A right shift of a value, in a context of signedness `s`. -/
def shiftRight (op : BinaryOp) (s : Bool) (v k : Value) : Option Value :=
  if op == .ashr && s then ashr v k else some (v.rshift k)

theorem evalBinaryResult_shiftRight {op : BinaryOp} (hop : op = .shr ∨ op = .ashr) (bs : Bool) (v k : Value) :
    evalBinaryResult op bs s v k = shiftRight op s v k := by
  rcases hop with rfl | rfl <;> cases s <;> rfl

theorem exists_shiftRight {op : BinaryOp} {v : Value} (h : 0 < v.width) (k : Value) :
    ∃ r, shiftRight op s v k = some r := by
  unfold shiftRight
  split
  · exact exists_ashr h k
  · exact ⟨_, rfl⟩

theorem shiftRight_width {op : BinaryOp} {v k r : Value} (h : shiftRight op s v k = some r) : r.width = v.width := by
  unfold shiftRight at h
  split at h
  · exact ashr_width h
  · cases h
    exact rshift_width v k

theorem shiftRight_unknown {op : BinaryOp} {v k r : Value} (hk : k.mask ≠ 0) (h : shiftRight op s v k = some r) :
    r = x v.width := by
  unfold shiftRight at h
  split at h
  · rw [ashr, if_pos hk] at h
    exact (Option.some.inj h).symm
  · rw [rshift, if_pos hk] at h
    exact (Option.some.inj h).symm

/-- Where the bits that come in are the fill, a shift moves the whole of a settled value. -/
theorem bit_shiftRight {op : BinaryOp} {p : Nat → Option Bool} {v k r : Value} (hp : Filled p m s a)
    (hm : m ≤ v.width) (hv : ∀ i < v.width, v.bit i = p i) (hk : k.mask = 0)
    (hfill : k.val = 0 ∨ (op == .ashr && s) = true ∨ a = some false) (h : shiftRight op s v k = some r) {i : Nat}
    (hi : i < v.width) : r.bit i = p (i + k.val) := by
  by_cases hlt : i + k.val < v.width
  · rw [← hv _ hlt]
    unfold shiftRight at h
    split at h
    · rw [bit_ashr hk h hi, if_pos hlt]
    · cases h
      exact bit_rshift hk i
  · rw [hp _ (by omega)]
    unfold shiftRight at h
    split at h
    · next hc =>
      rw [Bool.and_eq_true] at hc
      rw [bit_ashr hk h hi, if_neg hlt, msb, hv _ (by omega), hp _ (by rw [hc.2, Bool.toNat_true]; omega)]
    · next hc =>
      cases h
      rw [bit_rshift hk, bit_of_width_le (by omega), (hfill.resolve_left (by omega)).resolve_left hc]

/-- A right shift of a settled value settles, by the amount that it is shifted by. -/
theorem follows_shift {op : BinaryOp} {l r : Expr} (hop : op = .shr ∨ op = .ashr) (hl : Follows st s l m a)
    (hfill : shiftFill (op == .ashr && s) a (evalRequest st r (.context 0 none)) = some b) :
    Follows st s (.binary op l r) m b := by
  have hc : (op.isShift || op == .pow) = true := by rcases hop with rfl | rfl <;> rfl
  have hpow : (op == .pow) = false := by rcases hop with rfl | rfl <;> rfl
  have heq : ∀ W, evalRequest st (.binary op l r) (.context W (some s)) = _ := fun W => evalRequest_shift hc l r _
  simp only [Request.width_context, Request.signedOverride_context, Option.getD_some, hpow, if_false,
    evalBinaryResult_shiftRight hop, Bool.false_eq_true] at heq
  have htarget : ∀ W, 0 < W → shiftTarget T l W = max W (selfWidth T l) := fun W hW => by
    rw [shiftTarget, if_pos (by omega)]
  have hle : ∀ W, 0 < W → W ≤ shiftTarget T l W := fun W hW => by
    rw [htarget W hW]
    exact le_max_left _ _
  rcases hl with hl | ⟨p, hp, hl⟩
  · refine .inl fun W hW hpos => ?_
    rw [heq, hl _ (hW.trans (hle W hpos)) (hpos.trans_le (hle W hpos))]
    rfl
  -- the operand, once for each width that is asked for
  have hleft : ∀ W, m ≤ W → 0 < W → ∃ v, v.width = shiftTarget T l W ∧ (∀ i < v.width, v.bit i = p i) ∧
      evalRequest st (.binary op l r) (.context W (some s)) = (evalRequest st r (.context 0 none)).bind fun k =>
          (shiftRight op s v k).bind fun result => fit s result W := fun W hW hpos => by
    obtain ⟨v, hv, hvw, hvb⟩ := hl _ (hW.trans (hle W hpos)) (hpos.trans_le (hle W hpos))
    have hw : v.width = shiftTarget T l W := by
      rw [htarget W hpos] at hvw ⊢
      omega
    refine ⟨v, hw, hvb, ?_⟩
    rw [heq, hv, Option.bind_some, widen, if_neg (by omega), Option.bind_some]
  cases hr : evalRequest st r (.context 0 none) with
  | none =>
    refine .inl fun W hW hpos => ?_
    obtain ⟨v, -, -, hv⟩ := hleft W hW hpos
    rw [hv, hr, Option.bind_none]
  | some k =>
    rw [hr, shiftFill] at hfill
    -- the bits of the result
    obtain ⟨q, hq, hbits⟩ : ∃ q, Filled q m s b ∧ ∀ v u, m ≤ v.width → (∀ i < v.width, v.bit i = p i) →
        shiftRight op s v k = some u → ∀ i < v.width, u.bit i = q i := by
      by_cases hk : k.isDefined = true
      · rw [if_neg (not_not.2 hk)] at hfill
        split at hfill
        · next hcase =>
          cases hfill
          refine ⟨fun i => p (i + k.val), fun i hi => hp _ (by omega), fun v u hm hv hu i hi => ?_⟩
          exact bit_shiftRight hp hm hv (isDefined_iff.1 hk) hcase hu hi
        · cases hfill
      · rw [if_pos hk] at hfill
        cases hfill
        refine ⟨fun _ => none, fun _ _ => rfl, fun v u _ _ hu i hi => ?_⟩
        rw [shiftRight_unknown (fun h => hk (isDefined_iff.2 h)) hu, bit_x, if_pos hi]
    refine .inr ⟨q, hq, fun W hW hpos => ?_⟩
    obtain ⟨v, hvw, hvb, hv⟩ := hleft W hW hpos
    have hvpos : 0 < v.width := by
      rw [hvw]
      exact hpos.trans_le (hle W hpos)
    obtain ⟨u, hu⟩ : ∃ u, shiftRight op s v k = some u := exists_shiftRight hvpos k
    have huw := shiftRight_width hu
    refine ⟨u.resize W, ?_, .inl (resize_width u W), fun i hi => ?_⟩
    · rw [hv, hr, Option.bind_some, hu, Option.bind_some, fit_of_le hpos (by rw [huw, hvw]; exact hle W hpos)]
    · rw [resize_width] at hi
      rw [bit_resize, if_pos hi, hbits v u (by rw [hvw]; exact hW.trans (hle W hpos)) hvb hu i (by
        rw [hvw]
        exact hi.trans_le (hle W hpos))]

/-- The branches of a mux have settled where they are evaluated. -/
theorem Settles.branch {e : Expr} {p : Nat → Option Bool} (h : Settles st s e m p) {W n : Nat} (hW : m ≤ W)
    (hpos : 0 < W) (hn : selfWidth T e ≤ n) :
    ∃ v, evalRequest st e (.context (max W n) (some s)) = some v ∧ v.width = max W n ∧
      ∀ i < v.width, v.bit i = p i := by
  obtain ⟨v, hv, hvw, hvb⟩ := h (max W n) (by omega) (by omega)
  exact ⟨v, hv, by omega, hvb⟩

theorem follows_ternary {c t f : Expr} (ht : ∀ a, fill st s t = some a → Follows st s t m a)
    (hf : ∀ a, fill st s f = some a → Follows st s f m a) (hfill : fill st s (.ternary c t f) = some b) :
    Follows st s (.ternary c t f) m b := by
  have heq : ∀ W, evalRequest st (.ternary c t f) (.context W (some s)) =
      ((evalRequest st c (.context (selfWidth T c) none)).map reduceOr).bind fun cond =>
        if cond.isDefined then
          if cond.val ≠ 0 then
            evalRequest st t (.context (max W (max (selfWidth T t) (selfWidth T f))) (some s))
          else evalRequest st f (.context (max W (max (selfWidth T t) (selfWidth T f))) (some s))
        else
          (evalRequest st t (.context (max W (max (selfWidth T t) (selfWidth T f))) (some s))).bind fun v =>
            (evalRequest st f (.context (max W (max (selfWidth T t) (selfWidth T f))) (some s))).map (mergeXz v) :=
    fun W => by
      rw [evalRequest, Option.bind_map]
      simp only [Option.map_eq_bind]
      rfl
  rw [fill] at hfill
  cases hc : (evalRequest st c (.context (selfWidth T c) none)).map reduceOr with
  | none => exact .inl fun W _ _ => by rw [heq, hc, Option.bind_none]
  | some cond =>
    simp only [hc] at hfill heq
    simp only [Option.bind_some] at heq
    have hself : selfWidth T (.ternary c t f) = max (selfWidth T t) (selfWidth T f) := by rw [selfWidth]
    by_cases hdef : cond.isDefined = true
    · simp only [if_pos hdef] at hfill heq
      by_cases hval : cond.val ≠ 0
      · simp only [if_pos hval] at hfill heq
        rcases ht b hfill with h | ⟨p, hp, h⟩
        · exact .inl fun W hW hpos => by rw [heq, h _ (by omega) (by omega)]
        · refine .inr ⟨p, hp, fun W hW hpos => ?_⟩
          obtain ⟨v, hv, hvw, hvb⟩ := h.branch hW hpos (le_max_left _ (selfWidth T f))
          exact ⟨v, (heq W).trans hv, .inr (hself ▸ hvw), hvb⟩
      · simp only [if_neg hval] at hfill heq
        rcases hf b hfill with h | ⟨p, hp, h⟩
        · exact .inl fun W hW hpos => by rw [heq, h _ (by omega) (by omega)]
        · refine .inr ⟨p, hp, fun W hW hpos => ?_⟩
          obtain ⟨v, hv, hvw, hvb⟩ := h.branch hW hpos (le_max_right (selfWidth T t) _)
          exact ⟨v, (heq W).trans hv, .inr (hself ▸ hvw), hvb⟩
    · -- an unknown condition keeps what the branches agree on
      simp only [if_neg hdef] at hfill heq
      obtain ⟨a, ha, hb⟩ := Option.bind_eq_some_iff.1 hfill
      obtain ⟨a', ha', rfl⟩ := Option.map_eq_some_iff.1 hb
      rcases ht a ha with h | ⟨p, hp, h⟩
      · exact .inl fun W hW hpos => by rw [heq, h _ (by omega) (by omega), Option.bind_none]
      rcases hf a' ha' with h' | ⟨q, hq, h'⟩
      · refine .inl fun W hW hpos => ?_
        rw [heq, h' _ (by omega) (by omega)]
        simp
      · refine .inr ⟨fun i => Kleene.agree (p i) (q i), fun i hi => by simp only [hp i hi, hq i hi],
          fun W hW hpos => ?_⟩
        obtain ⟨v, hv, hvw, hvb⟩ := h.branch hW hpos (le_max_left _ (selfWidth T f))
        obtain ⟨u, hu, huw, hub⟩ := h'.branch hW hpos (le_max_right (selfWidth T t) _)
        have hw : (mergeXz v u).width = max W (max (selfWidth T t) (selfWidth T f)) := by
          rw [mergeXz_width, hvw, huw, max_self]
        refine ⟨mergeXz v u, by rw [heq, hv, Option.bind_some, hu, Option.map_some], .inr (hself ▸ hw),
          fun i hi => ?_⟩
        rw [bit_mergeXz, hvb i (by omega), hub i (by omega)]

/-! ## The driver -/

variable {lookup : Lookup}

theorem follows_selfDetermined {e : Expr} {w : Int} (he : e.selfDetermined = true)
    (hc : counted lookup T s e = true) (hw : driverWidth lookup s e = some w) (hfill : fill st s e = some b) :
    Follows st s e w.toNat b := by
  rw [counted_operand he] at hc
  rw [fill_operand he] at hfill
  cases hfill
  exact follows_operand hc hw

/-- A driver whose operands are counted right settles from its width on, with its fill. -/
theorem follows {e : Expr} {w : Int} (hc : counted lookup T s e = true) (hw : driverWidth lookup s e = some w)
    (hfill : fill st s e = some b) : Follows st s e w.toNat b := by
  induction e generalizing w b with
  | unary op e ih =>
    cases hop : op.contextDetermined with
    | false => exact follows_selfDetermined (by rw [Expr.selfDetermined, hop]; rfl) hc hw hfill
    | true =>
      rw [counted, if_pos hop] at hc
      rw [driverWidth, hop] at hw
      cases op with
      | bitNot =>
        obtain ⟨a, ha, rfl⟩ := Option.map_eq_some_iff.1 hfill
        exact follows_unary rfl (fun v i hi => (bit_invert v i).trans (if_pos hi)) (ih hc hw ha)
      | plus => exact follows_unary (k := id) rfl (fun _ _ _ => rfl) (ih hc hw hfill)
      | minus => cases hw
      | _ => cases hop
  | binary op l r ihl ihr =>
    by_cases hself : (op.isLogical || op.isComparison) = true
    · exact follows_selfDetermined hself hc hw hfill
    rw [counted] at hc
    rw [driverWidth, if_neg (by rwa [Bool.or_comm] at hself)] at hw
    by_cases hbit : op.isBitwise = true
    · rw [if_pos hbit, Bool.and_eq_true] at hc
      rw [if_pos hbit] at hw
      rw [fill, if_pos hbit] at hfill
      split at hw
      · cases hw
      obtain ⟨wl, hwl, hw⟩ := Option.bind_eq_some_iff.1 hw
      obtain ⟨wr, hwr, rfl⟩ := Option.map_eq_some_iff.1 hw
      obtain ⟨a, ha, hfill⟩ := Option.bind_eq_some_iff.1 hfill
      obtain ⟨a', ha', rfl⟩ := Option.map_eq_some_iff.1 hfill
      exact follows_bitwise hbit ((ihl hc.1 hwl ha).mono (by omega)) ((ihr hc.2 hwr ha').mono (by omega))
    · rw [if_neg hbit] at hc hw
      rw [fill, if_neg hbit] at hfill
      split at hw
      · next hop =>
        replace hop : op = .shr ∨ op = .ashr := by simpa using hop
        have hshift : op.isShift = true := by rcases hop with rfl | rfl <;> rfl
        rw [if_pos hshift] at hc hfill
        obtain ⟨a, ha, hfill⟩ := Option.bind_eq_some_iff.1 hfill
        exact follows_shift hop (ihl hc hw ha) hfill
      · cases hw
  | ternary c t f ihc iht ihf =>
    rw [counted, Bool.and_eq_true] at hc
    rw [driverWidth] at hw
    split at hw
    · cases hw
    obtain ⟨wt, hwt, hw⟩ := Option.bind_eq_some_iff.1 hw
    obtain ⟨wf, hwf, rfl⟩ := Option.map_eq_some_iff.1 hw
    exact follows_ternary (fun a ha => (iht hc.1 hwt ha).mono (by omega))
      (fun a ha => (ihf hc.2 hwf ha).mono (by omega)) hfill
  | literal l =>
    have hoperand : operandCounted lookup T s (.literal l) = true := hc
    exact follows_selfDetermined (operandCounted_iff.1 hoperand).2.1 hc hw hfill
  | _ => exact follows_selfDetermined rfl hc hw hfill

/-! ## Signedness -/

theorem both_eq_some {x y : Option Bool} {r : Bool} (h : both x y = some r) {p q : Bool} (hx : ∀ r, x = some r → p = r)
    (hy : ∀ r, y = some r → q = r) : (p && q) = r := by
  obtain ⟨a, ha, h⟩ := Option.bind_eq_some_iff.1 h
  obtain rfl := hx a ha
  cases p with
  | true => rw [Bool.true_and, hy r h]
  | false => exact Option.some.inj h

/-- The signedness of a wire is that of its driver. -/
theorem driverSigned_eq (hlookup : lookup.Describes T) {e : Expr} {r : Bool} (hc : counted lookup T s e = true)
    (h : driverSigned lookup e = some r) : exprSigned T e = r := by
  induction e generalizing r with
  | ident hier n =>
    have hoperand : operandCounted lookup T s (.ident hier n) = true := hc
    have hplain : hier = [] := by simpa [plainName] using (operandCounted_iff.1 hoperand).1
    obtain ⟨d, hd, rfl⟩ := Option.map_eq_some_iff.1 h
    rw [exprSigned, hplain]
    exact hlookup.signed hd
  | literal l => exact Option.some.inj h
  | unary op e ih =>
    rw [driverSigned] at h
    rw [exprSigned]
    rw [counted] at hc
    cases hop : op.contextDetermined with
    | true =>
      rw [hop, if_pos rfl] at h hc
      rw [Bool.true_and, ih hc h]
    | false =>
      rw [hop, if_neg Bool.false_ne_true] at h
      exact Option.some.inj h
  | binary op l r' ihl ihr =>
    rw [driverSigned] at h
    rw [counted] at hc
    rcases op.sizing with hop | hop | hop | hop | hop
    · rw [if_pos (by rw [hop, Bool.or_true])] at h
      rw [exprSigned_logical _ _ hop]
      exact Option.some.inj h
    · rw [if_pos (by rw [hop, Bool.true_or])] at h
      rw [exprSigned_comparison _ _ hop]
      exact Option.some.inj h
    · rw [exprSigned_shift _ _ hop]
      cases op with
      | shl | shr | ashl | ashr => exact ihl hc h
      | pow =>
        have hoperand : operandCounted lookup T s (.binary .pow l r') = true := hc
        exact absurd (selfDetermined_of_operandCounted hoperand) Bool.false_ne_true
      | _ => cases hop
    · rw [if_pos hop, Bool.and_eq_true] at hc
      rw [exprSigned_bitwise _ _ hop]
      cases op with
      | bitAnd | bitOr | bitXor | bitXnor | bitXnor' => exact both_eq_some h (fun _ => ihl hc.1) fun _ => ihr hc.2
      | _ => cases hop
    · -- sums, products and quotients have no counted width
      have hoperand : operandCounted lookup T s (.binary op l r') = true := by
        cases op <;> first | exact hc | cases hop
      have hself := selfDetermined_of_operandCounted hoperand
      cases op with
      | add | sub | mul | div | mod => cases hself
      | _ => cases hop
  | ternary c t f ihc iht ihf =>
    rw [counted, Bool.and_eq_true] at hc
    rw [exprSigned]
    exact both_eq_some h (fun _ => iht hc.1) fun _ => ihf hc.2
  | bitSelect t i =>
    have hoperand : operandCounted lookup T s (.bitSelect t i) = true := hc
    have hplain := (operandCounted_iff.1 hoperand).1
    cases t with
    | ident hier n =>
      obtain rfl : hier = [] := by simpa [plainName] using hplain
      obtain ⟨d, hd, rfl⟩ := Option.map_eq_some_iff.1 h
      rw [exprSigned, ← hlookup.isMemory hd, ← hlookup.signed hd]
      rfl
    | _ => exact Option.some.inj h
  | cast | concat | replicate | rangeSelect | partSelect => exact Option.some.inj h
  | string | streaming | streamingBy | call => cases h

/-! ## Lossless drivers -/

/-- The driver settles with a fill, which is what its wire is extended by. -/
def Lossless (st : Store T) (e : Expr) (s : Bool) : Prop :=
  ∃ b, fill st s e = some b ∧ (s = true ∨ b = some false)

instance (st : Store T) (e : Expr) (s : Bool) : Decidable (Lossless st e s) :=
  decidable_of_iff ((fill st s e).any fun b => s || b == some false) (by simp [Lossless, Option.any_eq_true])

theorem assigned_eq (st : Store T) (e : Expr) (W : Nat) :
    assigned st e W = (evalRequest st e (.context W (some (exprSigned T e)))).map fun v => v.resize W := by
  rw [assigned, eval, evalRequest_signed]

/-- What a target of a settled width holds. -/
theorem Settles.assigned {e : Expr} {p : Nat → Option Bool} (h : Settles st (exprSigned T e) e m p) {W : Nat}
    (hW : m ≤ W) (hpos : 0 < W) :
    ∃ v, assigned st e W = some v ∧ v.width = W ∧ ∀ i < W, v.bit i = p i := by
  obtain ⟨v, hv, hvw, hvb⟩ := h W hW hpos
  refine ⟨v.resize W, by rw [assigned_eq, hv, Option.map_some], resize_width v W, fun i hi => ?_⟩
  rw [bit_resize, if_pos hi, hvb i (by omega)]

/-- Extending a wire adds the extension of what it holds. -/
theorem exists_extended {v : Value} (hpos : 0 < v.width) (s : Bool) (W : Nat) :
    ∃ r, extendTo s v W = some r ∧ r.width = W ∧
      ∀ i < W, r.bit i = if i < v.width then v.bit i else extension s v := by
  obtain ⟨r, hr⟩ := exists_extendTo hpos s W
  exact ⟨r, hr, extendTo_width hr, fun i hi => bit_extendTo hr hi⟩

/-- A wire of a counted driver loses nothing just where the fill is what it is extended by. -/
theorem losesNothing_iff {e : Expr} {w : Nat} (hpos : 0 < w) (hfollows : Follows st (exprSigned T e) e w b) :
    LosesNothing st e w (exprSigned T e) ↔ assigned st e w = none ∨ exprSigned T e = true ∨ b = some false := by
  rcases hfollows with h | ⟨p, hp, h⟩
  · have hnone : ∀ W, w ≤ W → assigned st e W = none := fun W hW => by
      rw [assigned_eq, h W hW (by omega), Option.map_none]
    refine iff_of_true (fun W hW => ?_) (.inl (hnone w le_rfl))
    rw [hnone W hW, hnone w le_rfl, Option.bind_none]
  obtain ⟨v, hv, hvw, hvb⟩ := h.assigned le_rfl hpos
  have hext : exprSigned T e = true ∨ b = some false → extension (exprSigned T e) v = b := by
    rintro (hs | rfl)
    · rw [extension, if_pos hs, msb, hvb _ (by omega), hp _ (by rw [hs, Bool.toNat_true]; omega)]
    · cases hs : exprSigned T e with
      | true => rw [extension, if_pos rfl, msb, hvb _ (by omega), hp _ (by rw [hs, Bool.toNat_true]; omega)]
      | false => rfl
  constructor
  · intro hloses
    by_contra hcon
    push Not at hcon
    obtain ⟨-, hs, hb⟩ := hcon
    rw [ne_eq, Bool.not_eq_true] at hs
    -- one bit above the wire tells the difference
    have hone := hloses (w + 1) (by omega)
    obtain ⟨u, hu, huw, hub⟩ := h.assigned (show w ≤ w + 1 by omega) (by omega)
    obtain ⟨r, hr, hrw, hrb⟩ := exists_extended (show 0 < v.width by omega) (exprSigned T e) (w + 1)
    rw [hu, hv, Option.bind_some, hr] at hone
    obtain rfl := Option.some.inj hone
    have hbit := hub w (by omega)
    rw [hrb w (by omega), if_neg (by omega), extension, hs, if_neg Bool.false_ne_true, hp w (by omega)] at hbit
    exact hb hbit.symm
  · rintro (hnone | hcase)
    · rw [hv] at hnone
      cases hnone
    · intro W hW
      obtain ⟨u, hu, huw, hub⟩ := h.assigned hW (by omega)
      obtain ⟨r, hr, hrw, hrb⟩ := exists_extended (show 0 < v.width by omega) (exprSigned T e) W
      rw [hu, hv, Option.bind_some, hr]
      congr 1
      refine ext_bit_lt (huw.trans hrw.symm) fun i hi => ?_
      rw [huw] at hi
      rw [hub i hi, hrb i hi]
      split
      · next hlt => rw [hvb i (by omega)]
      · next hlt => rw [hp i (by omega), hext hcase]

/-- The lookup of a module with vectors only. -/
def lookupOf (decls : List (String × Nat × Bool)) : Lookup := fun n =>
  (decls.lookup n).map fun d => ⟨some (max 1 d.1), d.2, false⟩

theorem describes_lookupOf (decls : List (String × Nat × Bool)) : (lookupOf decls).Describes (.vectors decls) where
  signed h := by
    obtain ⟨d, hd, rfl⟩ := Option.map_eq_some_iff.1 h
    simp [SignalTable.vectors, hd]
  isMemory h := by
    obtain ⟨d, hd, rfl⟩ := Option.map_eq_some_iff.1 h
    rfl

/-- `wire [3:0] a;` -/
def nibbles : List (String × Nat × Bool) := [("a", 4, false)]

def nibbleStore : Store (.vectors nibbles) := .ofBits _ (fun _ => 5) (fun _ => 0)

/-- `a == 3 ? a >> 1 : a & 12` -/
def maskedMux : Expr :=
  .ternary (.binary .eq (.ident [] "a") (.literal (Literal.decimal 3)))
    (.binary .shr (.ident [] "a") (.literal (Literal.decimal 1)))
    (.binary .bitAnd (.ident [] "a") (.literal (Literal.decimal 12)))

end Veriforge.Driver

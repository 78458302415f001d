import Veriforge.Emit.Bits
import Veriforge.Sim.Ascending
import Veriforge.Sim.Narrow

/-! # Size casts in Verilog-2005

`_cast_2005` (`codegen/verilog_emitter.py`) writes `N'(x)` without a size cast: as an addition of a zero of `N`
bits, as a part select, or bit by bit. A cast means its operand at the larger of `N` and its own width, extended by
its own sign and cut to `N` bits. -/

namespace Veriforge.Emit

open Value

/-- The literal `1'b0`. -/
def zeroBit : Expr := .literal ⟨.int 0, some 1, false, false, false, .based (some 1) false .bin [.num 0]⟩

/-- The zero of `n` bits that is added, signed when the operand is. -/
def zero (signed : Bool) (n : Int) : Expr :=
  let zero := .replicate (indexLiteral n) zeroBit
  if signed then .cast true zero else zero

namespace DeclScope

variable (D : DeclScope)

/-- `_low_bits_of_vector`. -/
def lowBitsOfVector (e : Expr) (n : Int) : Option Expr :=
  match e with
  | .ident [] name =>
      if D.arrays name then none
      else do
        let (msb, lsb) ← (D.decls name).bind Declaration.width
        let left ← constInt msb
        let right ← constInt lsb
        if right ≤ left then some (.rangeSelect e (indexLiteral (right + n - 1)) (indexLiteral right))
        else some (.rangeSelect e (indexLiteral (right - n + 1)) (indexLiteral right))
  | _ => none

/-- `_cast_2005`; `none` where it raises. -/
def cast2005 (width e : Expr) : Option Expr := do
  let n ← constInt width
  let w ← D.operandWidth e
  let signed := D.operandSigned e
  let result :=
    if w ≤ n then .concat false [.binary .add e (zero signed n)]
    else (D.lowBitsOfVector e n).getD (bits2005 e (indexLiteral 0) n.toNat)
  return if signed then .cast true result else result

/-- The ranges the simulators remap. -/
def ranges (env : String → Option Int) (name : String) : Option (Int × Int × Int) :=
  (D.decls name).bind (Ascending.ascendingDecl env)

/-- The operand as the simulators evaluate it. -/
abbrev lower (env : String → Option Int) (e : Expr) : Expr := Ascending.lower (D.ranges env) e

/-- A declared vector has the simulators' width, and its bits are numbered from 0. -/
structure Describes (T : SignalTable) : Prop where
  width : ∀ n d r w, D.decls n = some d → D.arrays n = false → d.width = some r → d.declWidth = some w →
    T.width n = some w
  base : ∀ n d r w, D.decls n = some d → D.arrays n = false → d.width = some r → d.declWidth = some w →
    T.signalBase n = 0

/-- The emitter knows the width and the signedness of the operand. -/
structure Determines (env : String → Option Int) (T : SignalTable) (e : Expr) : Prop where
  width : D.operandWidth e = some (selfWidth T (D.lower env e) : Int)
  signed : D.operandSigned e = exprSigned T (D.lower env e)

end DeclScope

variable {T : SignalTable}

/-- What `N'(e)` means: the operand at the larger of `N` and its own width, extended by its own sign and cut to `N`
bits; the result extended by its own sign, or the context's. -/
def castMeaning (st : Store T) (n : Nat) (e : Expr) (w : Nat) (ov : Option Bool) : Option Value :=
  (evalRequest st e (.context (max n (selfWidth T e)) none)).bind fun v =>
    widen (ov.getD (exprSigned T e)) (v.resize n) w

/-- The expression has the cast's signedness, and its value in every context. -/
def CastPreserved (st : Store T) (n : Nat) (e built : Expr) : Prop :=
  exprSigned T built = exprSigned T e ∧ ∀ w ov, evalRequest st built (.context w ov) = castMeaning st n e w ov

/-- Extended to `N` bits the operand is known or unknown as a whole; cut to `N` bits it is the same with its operators
unsigned. -/
def CastSafe (st : Store T) (n : Nat) (e : Expr) : Prop :=
  (selfWidth T e ≤ n → ∀ v, evalRequest st e (.context n none) = some v → v.Uniform) ∧ (n < selfWidth T e →
      (evalRequest st e (.context (selfWidth T e) (some false))).map (·.resize n)
        = (evalRequest st e (.context (selfWidth T e) none)).map (·.resize n))

variable {st : Store T}

/-! ## The added zero -/

theorem selfWidth_zero (signed : Bool) (n : Nat) : selfWidth T (zero signed n) = n := by
  have hrep : selfWidth T (.replicate (indexLiteral n) zeroBit) = n := by
    show ((n : Int).toNat * 1) = n
    rw [Int.toNat_natCast, Nat.mul_one]
  cases signed with
  | true => exact hrep
  | false => exact hrep

theorem exprSigned_zero (signed : Bool) (n : Int) : exprSigned T (zero signed n) = signed := by
  cases signed <;> rfl

theorem bit_zero (w i : Nat) : (ofInt 0 w).bit i = some false := by
  have h := bit_ofInt 0 w i
  rw [Nat.zero_testBit, Bool.and_false] at h
  exact h

theorem replicate_zero (n : Nat) : (ofInt 0 1).replicate n = ofInt 0 n := by
  apply ext_bit
  · show 1 * n = n
    exact Nat.one_mul n
  · intro i
    rw [bit_replicate, bit_zero, bit_zero, ite_self]

theorem evalRequest_replicate_zero (n : Nat) (q : Request)
    (hq : q.width T (.replicate (indexLiteral n) zeroBit) ≤ n) :
    evalRequest st (.replicate (indexLiteral n) zeroBit) q = some (ofInt 0 n) := by
  have hinner : evalRequest st zeroBit (.context (selfWidth T zeroBit) none) = some (ofInt 0 1) := rfl
  have hdef : (indexValue n).isDefined = true := isDefined_iff.mpr (indexValue_mask n)
  rw [evalRequest, evalRequest_indexLiteral, hinner]
  show widen _ (if (indexValue n).isDefined = true then (ofInt 0 1).replicate (indexValue n).val else _) _ = _
  rw [if_pos hdef, indexValue_val, replicate_zero]
  exact widen_of_le hq

theorem evalRequest_zero (signed : Bool) (n : Nat) (ov : Option Bool) :
    evalRequest st (zero signed n) (.context n ov) = some (ofInt 0 n) := by
  have hself : selfWidth T (.replicate (indexLiteral n) zeroBit) = n := selfWidth_zero false n
  cases signed with
  | false => exact evalRequest_replicate_zero n _ le_rfl
  | true =>
    show evalRequest st (.cast true (.replicate (indexLiteral n) zeroBit)) (.context n ov) = _
    rw [evalRequest, evalRequest_replicate_zero n .inner hself.le]
    exact widen_of_le (init_width 0 n 0).ge

/-! ## The sum -/

theorem add_zero {v : Value} {n : Nat} (hv : v.width = n) : v.add (ofInt 0 n) = if v.mask = 0 then v else x n := by
  have hmask : (ofInt 0 n).mask = 0 := ofInt_mask 0 n
  rw [add, init_width, hv, max_self]
  by_cases h : v.mask = 0
  · rw [if_pos h, if_neg (by simp [h, hmask])]
    have hval : (ofInt 0 n).val = 0 := by
      have hz := ofInt_natCast_val 0 n
      rw [Nat.zero_mod] at hz
      exact hz
    rw [hval, ← hv]
    simpa using (eq_ofInt_of_isDefined (isDefined_iff.mpr h)).symm
  · rw [if_neg h, if_pos (Or.inl h)]

/-- The braces of a single part only extend its value. -/
theorem evalRequest_braces (b : Bool) (e : Expr) (w : Nat) (ov : Option Bool) :
    evalRequest st (.concat b [e]) (.context w ov)
      = (evalRequest st e (.context (selfWidth T e) none)).bind fun v => widen (ov.getD false) v w := by
  rw [evalRequest, evalParts, evalParts]
  cases evalRequest st e (.context (selfWidth T e) none) <;> rfl

/-- The sum at `N` bits is the operand, made unknown as a whole by an unknown bit. -/
theorem evalRequest_sum {e : Expr} {n : Nat} (hn : selfWidth T e ≤ n) (hl : AllAt T (fun e _ => legal T e = true) e 0)
    {signed : Bool} (hs : signed = exprSigned T e) :
    evalRequest st (.binary .add e (zero signed n)) (.context n none)
      = (evalRequest st e (.context n none)).map fun v => if v.mask = 0 then v else x n := by
  have htarget : operandTarget T e (zero signed n) n = n := by
    rw [operandTarget, selfWidth_zero, max_eq_right hn, max_self]
  have hsign : (exprSigned T e && exprSigned T (zero signed n)) = exprSigned T e := by
    rw [exprSigned_zero, hs, Bool.and_self]
  rw [evalRequest_arithmetic rfl, Request.width_context, Request.signedOverride_context, htarget, hsign,
    Option.getD_none, ← evalRequest_signed e, Option.map_eq_bind]
  apply Option.bind_congr
  intro v hv
  have hvw : v.width = n := evalRequest_width_of_le hv (hl.width n) hn
  have hadd : evalBinaryResult .add (exprSigned T e) false v (ofInt 0 n) = some (v.add (ofInt 0 n)) := rfl
  rw [evalRequest_zero, Option.bind_some, widen_of_le hvw.ge, Option.bind_some, widen_of_le (init_width 0 n 0).ge,
    Option.bind_some, hadd, Option.bind_some, add_zero hvw]
  apply fit_of_width
  split
  · exact hvw
  · rfl

theorem selfWidth_sum {e : Expr} {n : Nat} (hn : selfWidth T e ≤ n) (signed : Bool) :
    selfWidth T (.binary .add e (zero signed n)) = n := by
  rw [selfWidth_binary, resultWidth_arithmetic _ _ rfl, selfWidth_zero, max_eq_right hn]

/-! ## The low bits -/

/-- The bits of a value from 0 on are the value cut. -/
theorem bitsAt_zero {u : Value} {n : Nat} (hu : 0 < u.width) :
    u.bitsAt (fun k : Nat => indexValue (0 + k)) n = u.resize n := by
  refine ext_bit_lt (bitsAt_width _ _ _) fun j hj => ?_
  rw [bitsAt_width] at hj
  rw [bit_bitsAt u _ hj, bitValue_bit hu, bit_resize, if_pos hj, Int.zero_add, if_pos (indexValue_mask j),
    indexValue_val]

theorem evalRequest_lowBits {e : Expr} {n : Nat} (hn : 0 < n) (hself : 0 < selfWidth T e)
    (hl : AllAt T (fun e _ => legal T e = true) e 0) (w : Nat) (ov : Option Bool) :
    evalRequest st (bits2005 e (indexLiteral 0) n) (.context w ov)
      = (evalRequest st e (.context (selfWidth T e) (some false))).bind fun u =>
        widen (ov.getD false) (u.resize n) w := by
  have hidx : ∀ k < n, evalRequest st (plus (indexLiteral 0) k) (.context 0 none) = some (indexValue (0 + k)) := by
    intro k _
    rw [plus_indexLiteral, evalRequest_indexLiteral]
  rw [evalRequest_bits2005 (unsignedWide_of_legal hl) hn hidx, max_eq_left hself]
  apply Option.bind_congr
  intro u hu
  rw [bitsAt_zero]
  rw [evalRequest_width_of_le hu (hl.width _) le_rfl]
  exact hself

/-! ## The part select -/

/-- The literal is the index `k`, however its sign is taken. -/
structure IsIndex (T : SignalTable) (e : Expr) (k : Nat) : Prop where
  eval : ∀ st : Store T, evalRequest st e (.context 0 none) = some (indexValue k)
  int : ∀ again, indexInt T e (indexValue k) again = some (k : Int)
  literal : ∃ l j, e = .literal l ∧ l.intValue = some j ∧ 0 ≤ j ∧ j ≤ k

theorem isIndex_indexLiteral (k : Nat) : IsIndex T (indexLiteral k) k where
  eval st := evalRequest_indexLiteral k
  int again := by
    show some ((indexValue k).val : Int) = _
    rw [indexValue_val]
  literal := ⟨_, k, rfl, rfl, Int.natCast_nonneg k, le_rfl⟩

theorem isIndex_ascending (k : Nat) : IsIndex T (Ascending.indexLiteral k) k where
  eval st := by
    rw [Ascending.indexLiteral, if_pos (Int.natCast_nonneg k), evalRequest, Request.width_context,
      if_neg (Nat.not_lt_zero _)]
    rfl
  int again := by
    have hself : selfWidth T (Ascending.indexLiteral k) = 32 := rfl
    have hwidth : 32 ≤ (indexValue k).width := by
      show 32 ≤ Literal.signedLiteralWidth k
      rw [Literal.signedLiteralWidth]
      split
      · exact le_max_left _ _
      · split
        · exact le_max_left _ _
        · exact le_rfl
    have hlt := lt_signedLiteralWidth k
    have hfits : Fits true (Literal.signedLiteralWidth k) k := by
      rw [fits_true]
      constructor
      · have hpos : (0 : Int) < 2 ^ Literal.signedLiteralWidth k := by positivity
        omega
      · exact_mod_cast hlt
    show (if (indexValue k).width < 32 then again.bind asSigned else (indexValue k).asSigned) = _
    rw [if_neg (Nat.not_lt.mpr hwidth)]
    exact asSigned_ofInt (lt_of_lt_of_le (by decide) hwidth) hfits
  literal := ⟨_, _, rfl, rfl, Int.emod_nonneg _ (by decide), by omega⟩

theorem selfWidth_rangeSelect_le {t m l : Expr} {n : Nat} (hn : 0 < n) (hm : IsIndex T m (n - 1)) (hl : IsIndex T l 0) :
    selfWidth T (.rangeSelect t m l) ≤ n := by
  obtain ⟨lm, j, rfl, hj, hj0, hjn⟩ := hm.literal
  obtain ⟨ll, i, rfl, hi, hi0, hi1⟩ := hl.literal
  rw [selfWidth, literalRangeWidth, hj, hi]
  dsimp only
  omega

theorem getRange_low {v : Value} {n : Nat} (hn : 0 < n) (hv : n ≤ v.width) :
    v.getRange ((n - 1 : Nat) : Int) 0 = v.resize n := by
  have hbounds : orderBounds ((n - 1 : Nat) : Int) 0 = (((n - 1 : Nat) : Int), 0) := orderBounds_of_le (by omega)
  have hwidth : (v.getRange ((n - 1 : Nat) : Int) 0).width = n := by
    rw [getRange_width, hbounds]
    show (((n - 1 : Nat) : Int) - 0 + 1).toNat = n
    omega
  refine ext_bit_lt hwidth fun i hi => ?_
  rw [bit_getRange _ _ _ hi, hbounds, bit_resize, if_pos (hwidth ▸ hi)]
  show v.bitAt (0 + (i : Int)) = _
  rw [bitAt, if_pos (by omega), Int.zero_add, Int.toNat_natCast]

theorem evalRequest_lowRange {name : String} {W n : Nat} (hW : T.width name = some W) (hbase : T.signalBase name = 0)
    (hn : 0 < n) (hnW : n ≤ W) {m l : Expr} (hm : IsIndex T m (n - 1)) (hl : IsIndex T l 0) (w : Nat)
    (ov : Option Bool) :
    evalRequest st (.rangeSelect (.ident [] name) m l) (.context w ov)
      = widen (ov.getD false) ((st.signal name).resize n) w := by
  have hsig : st.signal? (identifierName [] name) = some (st.signal name) := Store.signal?_eq_some hW
  have htarget : evalRequest st (.ident [] name) (.context 0 none) = some (st.signal name) := by
    rw [evalRequest, hsig]
    exact widen_zero _ _
  have hsel : selectBase T (.ident [] name) = 0 := hbase
  have hdef : ∀ k : Nat, (indexValue k).isDefined = true := fun k => isDefined_iff.mpr (indexValue_mask k)
  rw [evalRequest, htarget, hm.eval, hl.eval]
  show (selectRange T (.ident [] name) (st.signal name) m (indexValue (n - 1 : Nat)) _ l (indexValue (0 : Nat)) _).bind _
    = _
  rw [selectRange, if_pos ⟨hdef _, hdef _⟩, hm.int, hl.int, hsel]
  show widen (ov.getD false) ((st.signal name).getRange (((n - 1 : Nat) : Int) - 0) (((0 : Nat) : Int) - 0)) w = _
  rw [Int.sub_zero, Nat.cast_zero, Int.sub_zero, getRange_low hn]
  rw [st.signal_width name W hW]
  exact hnW

namespace DeclScope

variable {D : DeclScope}

/-- The low bits are selected from a declared vector with constant bounds. -/
theorem exists_of_lowBits {e sel : Expr} {n : Int} (h : D.lowBitsOfVector e n = some sel) :
    ∃ name d r left right, e = .ident [] name ∧ D.arrays name = false ∧ D.decls name = some d ∧ d.width = some r ∧
      constInt r.1 = some left ∧ constInt r.2 = some right ∧
      sel = if right ≤ left then .rangeSelect e (indexLiteral (right + n - 1)) (indexLiteral right)
        else .rangeSelect e (indexLiteral (right - n + 1)) (indexLiteral right) := by
  cases e
  case ident hier name =>
    cases hier
    case nil =>
      rw [lowBitsOfVector] at h
      split at h
      · cases h
      · next harr =>
        obtain ⟨r, hr, h⟩ := Option.bind_eq_some_iff.mp h
        obtain ⟨d, hd, hr⟩ := Option.bind_eq_some_iff.mp hr
        obtain ⟨left, hleft, h⟩ := Option.bind_eq_some_iff.mp h
        obtain ⟨right, hright, h⟩ := Option.bind_eq_some_iff.mp h
        refine ⟨name, d, r, left, right, rfl, Bool.eq_false_iff.mpr harr, hd, hr, hleft, hright, ?_⟩
        split at h
        · next hle =>
          rw [if_pos hle]
          exact (Option.some_inj.mp h).symm
        · next hle =>
          rw [if_neg hle]
          exact (Option.some_inj.mp h).symm
    case cons => cases h
  all_goals cases h

/-- A declaration that is no array has no dimensions. -/
theorem dimensions_of_not_array {name : String} {d : Declaration} (hd : D.decls name = some d)
    (harr : D.arrays name = false) : d.dimensions = [] ∧ d.packedDimCount = 0 := by
  have hdims : d.dimensions = [] := by
    by_contra h
    rw [D.arrays_of_decls name d hd (Or.inl h)] at harr
    cases harr
  have hle := d.count_le
  rw [hdims] at hle
  exact ⟨hdims, Nat.le_zero.mp hle⟩

theorem constInt_indexLiteral (v : Int) : constInt (indexLiteral v) = some v := by
  rw [constInt, indexLiteral, Const.evalConst, Const.constLiteral]
  simp

theorem ascendingDecl_of_vector (env : String → Option Int) {d : Declaration} {r : Expr × Expr} {left right : Int}
    (hdim : d.dimensions = []) (hcount : d.packedDimCount = 0) (hr : d.width = some r)
    (hleft : constInt r.1 = some left) (hright : constInt r.2 = some right) :
    Ascending.ascendingDecl env d = if right ≤ left ∧ right = 0 then none else some (left, right, 0) := by
  have hl : Const.evalConst env r.1 = some left := Const.evalConst_of_closed env hleft
  have hr' : Const.evalConst env r.2 = some right := Const.evalConst_of_closed env hright
  rw [Ascending.ascendingDecl, hr]
  show (if 1 < d.packedDimCount then none else _) = _
  rw [hcount, if_neg (by omega), hl, hr', hdim]
  rfl

theorem lower_rangeSelect_kept {env : String → Option Int} {name : String} (m l : Int) (h : D.ranges env name = none) :
    D.lower env (.rangeSelect (.ident [] name) (indexLiteral m) (indexLiteral l))
      = .rangeSelect (.ident [] name) (indexLiteral m) (indexLiteral l) := by
  have hinfo : Ascending.targetInfo (D.ranges env) (.ident [] name) = none := by
    show (D.ranges env name).bind _ = none
    rw [h]
    rfl
  show Ascending.lowerNode (D.ranges env) (.rangeSelect (.ident [] name) (indexLiteral m) (indexLiteral l)) = _
  rw [Ascending.lowerNode, hinfo]

theorem lower_rangeSelect_moved {env : String → Option Int} {name : String} {left right : Int} (m l : Int)
    (h : D.ranges env name = some (left, right, 0)) :
    D.lower env (.rangeSelect (.ident [] name) (indexLiteral m) (indexLiteral l))
      = .rangeSelect (.ident [] name) (Ascending.position left right (indexLiteral m))
          (Ascending.position left right (indexLiteral l)) := by
  have hinfo : Ascending.targetInfo (D.ranges env) (.ident [] name) = some (left, right) := by
    show (D.ranges env name).bind _ = _
    rw [h]
    rfl
  show Ascending.lowerNode (D.ranges env) (.rangeSelect (.ident [] name) (indexLiteral m) (indexLiteral l)) = _
  rw [Ascending.lowerNode, hinfo]

/-- Once the ranges are remapped, the select reads the bits below `N`. -/
theorem lower_lowBits (env : String → Option Int) {name : String} {d : Declaration} {r : Expr × Expr}
    {left right : Int} {n : Nat} (hn : 0 < n) (hd : D.decls name = some d) (harr : D.arrays name = false)
    (hr : d.width = some r) (hleft : constInt r.1 = some left) (hright : constInt r.2 = some right) :
    ∃ m l, D.lower env (if right ≤ left
        then .rangeSelect (.ident [] name) (indexLiteral (right + n - 1)) (indexLiteral right)
        else .rangeSelect (.ident [] name) (indexLiteral (right - n + 1)) (indexLiteral right))
      = .rangeSelect (.ident [] name) m l ∧ IsIndex T m (n - 1) ∧ IsIndex T l 0 := by
  obtain ⟨hdim, hcount⟩ := dimensions_of_not_array hd harr
  have hasc := ascendingDecl_of_vector env hdim hcount hr hleft hright
  have hranges : D.ranges env name = Ascending.ascendingDecl env d := by
    rw [ranges, hd]
    rfl
  have hindex : ∀ v : Int, Ascending.constIndex (indexLiteral v) = some v := constInt_indexLiteral
  have hlast : ((n - 1 : Nat) : Int) = n - 1 := by omega
  rcases Int.lt_or_le left right with hlt | hle
  · -- an ascending range is flipped
    have hpos : ∀ v, Ascending.position left right (indexLiteral v) = Ascending.indexLiteral (right - v) := by
      intro v
      rw [Ascending.position, if_pos hlt, Ascending.flip, hindex]
    rw [if_neg (by omega)] at hasc
    rw [if_neg (by omega), lower_rangeSelect_moved _ _ (hranges.trans hasc)]
    refine ⟨_, _, rfl, ?_, ?_⟩
    · rw [hpos, show right - (right - n + 1) = ((n - 1 : Nat) : Int) by omega]
      exact isIndex_ascending (n - 1)
    · rw [hpos, Int.sub_self]
      exact isIndex_ascending 0
  · rw [if_pos hle]
    by_cases h0 : right = 0
    · -- a range that ends at 0 is kept
      rw [if_pos ⟨hle, h0⟩] at hasc
      rw [lower_rangeSelect_kept _ _ (hranges.trans hasc)]
      refine ⟨_, _, rfl, ?_, ?_⟩
      · rw [h0, Int.zero_add, ← hlast]
        exact isIndex_indexLiteral (n - 1)
      · rw [h0]
        exact isIndex_indexLiteral 0
    · have hpos : ∀ v, Ascending.position left right (indexLiteral v) = Ascending.indexLiteral (v - right) := by
        intro v
        rw [Ascending.position, if_neg (by omega), Ascending.offset, hindex]
      rw [if_neg fun h => h0 h.2] at hasc
      rw [lower_rangeSelect_moved _ _ (hranges.trans hasc)]
      refine ⟨_, _, rfl, ?_, ?_⟩
      · rw [hpos, show right + n - 1 - right = ((n - 1 : Nat) : Int) by omega]
        exact isIndex_ascending (n - 1)
      · rw [hpos, Int.sub_self]
        exact isIndex_ascending 0

end DeclScope

/-! ## The signedness marked -/

theorem innerWidth_le (e : Expr) : innerWidth T e ≤ selfWidth T e := by
  rcases innerWidth_eq T e with h | h
  · rw [h]
    exact Nat.zero_le _
  · exact h.le

/-- An unsigned expression marked signed is extended by its sign. -/
theorem evalRequest_marked {result : Expr} {o : Option Value} {f : Value → Value}
    (h : ∀ w ov, evalRequest st result (.context w ov) = o.bind fun v => widen (ov.getD false) (f v) w)
    (hf : ∀ v, o = some v → selfWidth T result ≤ (f v).width) (signed : Bool) (w : Nat) (ov : Option Bool) :
    evalRequest st (if signed = true then .cast true result else result) (.context w ov)
      = o.bind fun v => widen (ov.getD signed) (f v) w := by
  cases signed with
  | false => exact h w ov
  | true =>
    rw [if_pos rfl, evalRequest, evalRequest_inner, h]
    cases ho : o with
    | none => rfl
    | some v =>
      rw [Option.bind_some, widen_of_le ((innerWidth_le result).trans (hf v ho))]
      rfl

theorem exprSigned_marked {result : Expr} (h : exprSigned T result = false) (signed : Bool) :
    exprSigned T (if signed = true then .cast true result else result) = signed := by
  cases signed with
  | false => exact h
  | true => rfl

/-! ## The expression built -/

section

variable (asc : String → Option (Int × Int × Int))

theorem lower_indexLiteral (v : Int) : Ascending.lower asc (indexLiteral v) = indexLiteral v := by
  rw [indexLiteral, Ascending.lower]
  all_goals simp

theorem lower_zero (signed : Bool) (n : Int) : Ascending.lower asc (zero signed n) = zero signed n := by
  have hindex := lower_indexLiteral asc n
  have hbit : Ascending.lower asc zeroBit = zeroBit := by simp [zeroBit, Ascending.lower]
  cases signed with
  | false =>
    show Ascending.lower asc (.replicate (indexLiteral n) zeroBit) = .replicate (indexLiteral n) zeroBit
    rw [Ascending.lower, hindex, hbit]
  | true =>
    show Ascending.lower asc (.cast true (.replicate (indexLiteral n) zeroBit)) = _
    rw [Ascending.lower, Ascending.lower, hindex, hbit]
    rfl

theorem lower_sum (e : Expr) (signed : Bool) (n : Int) :
    Ascending.lower asc (.concat false [.binary .add e (zero signed n)])
      = .concat false [.binary .add (Ascending.lower asc e) (zero signed n)] := by
  rw [Ascending.lower, Ascending.lowerList, Ascending.lowerList, Ascending.lower, lower_zero]

theorem lower_bit (e : Expr) (v : Int) :
    Ascending.lower asc (bit e (indexLiteral v)) = bit (Ascending.lower asc e) (indexLiteral v) := by
  have hone : Ascending.lower asc oneBit = oneBit := by simp [oneBit, Ascending.lower]
  rw [bit, Ascending.lower, Ascending.lower, Ascending.lower, lower_indexLiteral, hone]
  rfl

theorem lower_bits2005 (e : Expr) (n : Nat) :
    Ascending.lower asc (bits2005 e (indexLiteral 0) n) = bits2005 (Ascending.lower asc e) (indexLiteral 0) n := by
  rw [bits2005, bits2005]
  split
  · exact lower_bit asc e 0
  · rw [Ascending.lower, Ascending.lowerList_eq_map, List.map_map]
    congr 2
    funext k
    show Ascending.lower asc (bit e (plus (indexLiteral 0) k)) = _
    rw [plus_indexLiteral, lower_bit]

theorem lower_marked (e : Expr) (signed : Bool) : Ascending.lower asc (if signed = true then .cast true e else e)
      = if signed = true then .cast true (Ascending.lower asc e) else Ascending.lower asc e := by
  cases signed with
  | false => rfl
  | true =>
    show Ascending.lower asc (.cast true e) = _
    rw [Ascending.lower]
    rfl

end

theorem selfWidth_bits2005 (e l : Expr) (n : Nat) : selfWidth T (bits2005 e l n) = n := by
  have hsum : ∀ ks : List Nat, selfWidthSum T (ks.map fun k => bit e (plus l k)) = ks.length := by
    intro ks
    induction ks with
    | nil => rfl
    | cons k ks ih =>
      rw [List.map_cons, selfWidthSum_cons, ih, selfWidth_bit, List.length_cons, Nat.add_comm]
  rw [bits2005]
  split
  · next h =>
    rw [h]
    rfl
  · rw [selfWidth, hsum, List.length_reverse, List.length_range]

theorem exprSigned_bits2005 (e l : Expr) (n : Nat) : exprSigned T (bits2005 e l n) = false := by
  rw [bits2005]
  split
  · rfl
  · simp [exprSigned]

/-- Whether the value of the built expression is the cast's is decided by the operand's value before and after. -/
theorem castPreserved_iff {n : Nat} {e result : Expr} {o : Option Value} {f : Value → Value}
    (hs : exprSigned T result = false)
    (h : ∀ w ov, evalRequest st result (.context w ov) = o.bind fun v => widen (ov.getD false) (f v) w)
    (hf : ∀ v, o = some v → selfWidth T result ≤ (f v).width) :
    CastPreserved st n e (if exprSigned T e = true then .cast true result else result) ↔
      o.map f = (evalRequest st e (.context (max n (selfWidth T e)) none)).map (·.resize n) := by
  rw [CastPreserved, exprSigned_marked hs]
  simp only [evalRequest_marked h hf, castMeaning]
  rw [forall_widen_iff]
  exact and_iff_right trivial

/-- An addition of zero keeps the values that are known or unknown as a whole. -/
theorem castPreserved_sum_iff {n : Nat} {e : Expr} (hn : selfWidth T e ≤ n)
    (hl : AllAt T (fun e _ => legal T e = true) e 0) :
    CastPreserved st n e (if exprSigned T e = true then
        .cast true (.concat false [.binary .add e (zero (exprSigned T e) n)])
      else .concat false [.binary .add e (zero (exprSigned T e) n)]) ↔
      ∀ v, evalRequest st e (.context n none) = some v → v.Uniform := by
  have hself : selfWidth T (.concat false [.binary .add e (zero (exprSigned T e) n)]) = n := by
    rw [selfWidth, selfWidthSum_cons, selfWidth_sum hn]
    rfl
  have heval : ∀ w ov, evalRequest st (.concat false [.binary .add e (zero (exprSigned T e) n)]) (.context w ov)
      = (evalRequest st e (.context n none)).bind fun v => widen (ov.getD false) (if v.mask = 0 then v else x n) w := by
    intro w ov
    rw [evalRequest_braces, selfWidth_sum hn, evalRequest_sum hn hl rfl, Option.bind_map]
    rfl
  have hwidth : ∀ v, evalRequest st e (.context n none) = some v → v.width = n := fun v hv =>
    evalRequest_width_of_le hv (hl.width n) hn
  rw [castPreserved_iff (by simp [exprSigned]) heval, max_eq_left hn]
  · cases hv : evalRequest st e (.context n none) with
    | none => simp
    | some v =>
      have hvw := hwidth v hv
      rw [Option.map_some, Option.map_some, Option.some_inj, resize_of_width hvw]
      constructor
      · intro h u hu
        obtain rfl := Option.some_inj.mp hu
        by_cases hm : v.mask = 0
        · exact Or.inl hm
        · rw [if_neg hm] at h
          rw [← h]
          exact uniform_x n
      · intro h
        rcases h v rfl with hm | hx
        · exact if_pos hm
        · split
          · rfl
          · rw [← hvw]
            exact hx.symm
  · intro v hv
    rw [hself]
    split
    · exact (hwidth v hv).ge
    · exact le_rfl

/-- Bits taken one by one keep the values whose low bits do not depend on the sign. -/
theorem castPreserved_bits_iff {n : Nat} {e : Expr} (hn : 0 < n) (hw : n < selfWidth T e)
    (hl : AllAt T (fun e _ => legal T e = true) e 0) :
    CastPreserved st n e (if exprSigned T e = true then .cast true (bits2005 e (indexLiteral 0) n)
      else bits2005 e (indexLiteral 0) n) ↔
      (evalRequest st e (.context (selfWidth T e) (some false))).map (·.resize n)
        = (evalRequest st e (.context (selfWidth T e) none)).map (·.resize n) := by
  rw [castPreserved_iff (exprSigned_bits2005 _ _ _) (evalRequest_lowBits hn (by omega) hl), max_eq_right hw.le]
  intro v _
  rw [selfWidth_bits2005]
  rfl

theorem evalRequest_vector {name : String} {W : Nat} (hW : T.width name = some W) (ov : Option Bool) :
    evalRequest st (.ident [] name) (.context W ov) = some (st.signal name) := by
  have hsig : st.signal? (identifierName [] name) = some (st.signal name) := Store.signal?_eq_some hW
  rw [evalRequest, hsig]
  exact widen_of_le (st.signal_width name W hW).ge

/-- A part select of a vector keeps every value. -/
theorem castPreserved_select {name : String} {W n : Nat} (hW : T.width name = some W) (hbase : T.signalBase name = 0)
    (hn : 0 < n) (hnW : n < W) {m l : Expr} (hm : IsIndex T m (n - 1)) (hl : IsIndex T l 0) :
    CastPreserved st n (.ident [] name) (if exprSigned T (.ident [] name) = true then
        .cast true (.rangeSelect (.ident [] name) m l)
      else .rangeSelect (.ident [] name) m l) := by
  have hself : selfWidth T (.ident [] name) = W := by simp only [selfWidth, identifierName, hW]
  have heval : ∀ w ov, evalRequest st (.rangeSelect (.ident [] name) m l) (.context w ov)
      = (some (st.signal name)).bind fun v => widen (ov.getD false) (v.resize n) w := fun w ov =>
    evalRequest_lowRange hW hbase hn hnW.le hm hl w ov
  rw [castPreserved_iff (by simp [exprSigned]) heval, hself, max_eq_right hnW.le, evalRequest_vector hW]
  intro v _
  exact selfWidth_rangeSelect_le hn hm hl

namespace DeclScope

variable {D : DeclScope} {env : String → Option Int}

/-- What `_cast_2005` builds for an operand it can tell the width and signedness of. -/
theorem cast2005_eq {width e : Expr} {n : Nat} (hwidth : constInt width = some (n : Int))
    (hd : D.Determines env T e) :
    D.cast2005 width e = some (if exprSigned T (D.lower env e) = true then
        .cast true (if selfWidth T (D.lower env e) ≤ n then
            .concat false [.binary .add e (zero (exprSigned T (D.lower env e)) n)]
          else (D.lowBitsOfVector e n).getD (bits2005 e (indexLiteral 0) n))
      else if selfWidth T (D.lower env e) ≤ n then .concat false [.binary .add e (zero (exprSigned T (D.lower env e)) n)]
        else (D.lowBitsOfVector e n).getD (bits2005 e (indexLiteral 0) n)) := by
  have hle : ((selfWidth T (D.lower env e) : Int) ≤ n) = (selfWidth T (D.lower env e) ≤ n) := by
    rw [Int.ofNat_le]
  rw [cast2005, hwidth, hd.width, hd.signed]
  simp only [Option.bind_eq_bind, Option.bind_some, hle, Int.toNat_natCast]
  rfl

/-- The width the emitter knows of a vector is the declared one. -/
theorem declWidth_of_determines {name : String} {d : Declaration} (hd : D.decls name = some d)
    (h : D.Determines env T (.ident [] name)) :
    ∃ W, selfWidth T (D.lower env (.ident [] name)) = W ∧ d.declWidth = some W := by
  have hwidth := h.width
  have hof : D.widthOf name = d.declWidth := by
    rw [widthOf, hd]
    rfl
  rw [operandWidth, readsWord, if_neg Bool.false_ne_true, exprWidth] at hwidth
  change (D.widthOf name).map Int.ofNat = _ at hwidth
  rw [hof] at hwidth
  obtain ⟨W, hW, heq⟩ := Option.map_eq_some_iff.mp hwidth
  exact ⟨W, (Int.ofNat_inj.mp heq).symm, hW⟩

theorem lower_vector (env : String → Option Int) (name : String) : D.lower env (.ident [] name) = .ident [] name := by
  rw [DeclScope.lower, Ascending.lower]
  all_goals simp

end DeclScope

/-- A vector has the same bits whatever its sign. -/
theorem castSafe_vector {name : String} {W n : Nat} (hW : T.width name = some W)
    (hself : selfWidth T (.ident [] name) = W) (hnW : n < W) : CastSafe st n (.ident [] name) := by
  constructor
  · intro h
    omega
  · intro _
    rw [hself, evalRequest_vector hW, evalRequest_vector hW]

/-- A vector `a[3:0]` and a signed vector `p[3:0]`. -/
def nibbles : DeclScope where
  arrays _ := false
  decls n :=
    if n = "a" ∨ n = "p" then
      some ⟨some (indexLiteral 3, indexLiteral 0), [], 0, false, none, none, decide (n = "p"), le_rfl⟩
    else none
  arrays_of_decls n d h := by
    split at h
    · obtain rfl := Option.some_inj.mp h
      simp
    · cases h

/-- The simulators' table of the two vectors. -/
def nibbleSignals : SignalTable := .vectors [("a", 4, false), ("p", 4, true)]

/-- `p` is -3, and `a` is 5 with the bits of a mask unknown. -/
def nibbleValues (mask : Nat) : Store nibbleSignals :=
  .ofBits nibbleSignals (fun n => if n = "a" then 5 else 13) (fun n => if n = "a" then mask else 0)

theorem nibbles_describes : nibbles.Describes nibbleSignals where
  width n d r w hd _ hr hw := by
    change (if n = "a" ∨ n = "p" then some _ else none) = some d at hd
    split at hd
    · next hn =>
      obtain rfl := Option.some_inj.mp hd
      obtain rfl : 4 = w := Option.some_inj.mp hw
      rcases hn with rfl | rfl <;> rfl
    · cases hd
  base _ _ _ _ _ _ _ _ := rfl

end Veriforge.Emit

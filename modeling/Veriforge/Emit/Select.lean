import Veriforge.Emit.Bits
import Veriforge.Emit.Operand

/-! # Selects made legal

`_legal_select` (`codegen/verilog_emitter.py`): a select of a slice or of an expression, which Verilog cannot write,
as an equivalent legal one. Constant indices within a slice fold to one select; anything else shifts the target down
and cuts it, by a size cast or, in Verilog-2005, bit by bit. -/

namespace Veriforge.Emit

open Value

/-- The language written. -/
inductive Dialect
  | sv | verilog2005
  deriving DecidableEq

/-- A rewritten select: an expression, or `$unsigned(W'(e))`. -/
inductive Rewritten
  | plain (e : Expr)
  | unsignedCast (width : Int) (e : Expr)

/-- Bit, range and part selects. -/
def isSelect : Expr → Bool
  | .bitSelect _ _ | .rangeSelect _ _ _ | .partSelect _ _ _ _ => true
  | _ => false

/-- The target of a select. -/
def target? : Expr → Option Expr
  | .bitSelect t _ | .rangeSelect t _ _ | .partSelect t _ _ _ => some t
  | _ => none

/-- `at`: the position in the target of bit `k` of the slice `[m:l]`. -/
def foldIndex (m l k : Int) : Int := if l ≤ m then l + k else l - k

/-- `_fold_select` of a slice `t[m:l]`. -/
def foldRange (t : Expr) (m l : Int) : Expr → Option Expr
  | .bitSelect _ i => do
      let k ← constInt i
      if 0 ≤ k ∧ k < (m - l).natAbs + 1 then some (.bitSelect t (indexLiteral (foldIndex m l k))) else none
  | .rangeSelect _ h o => do
      let hi ← constInt h
      let lo ← constInt o
      if 0 ≤ lo ∧ lo ≤ hi ∧ hi < (m - l).natAbs + 1 then
        some (if l ≤ m then .rangeSelect t (indexLiteral (foldIndex m l hi)) (indexLiteral (foldIndex m l lo))
          else .rangeSelect t (indexLiteral (foldIndex m l lo)) (indexLiteral (foldIndex m l hi)))
      else none
  | _ => none

/-- `_fold_select` of one bit. -/
def foldBit (inner : Expr) : Expr → Option Expr
  | .bitSelect _ i => if constInt i = some 0 then some inner else none
  | _ => none

/-- `_fold_select`. -/
def foldSelect (e inner : Expr) : Option Expr :=
  match inner with
  | .rangeSelect t m l => do
      let m ← constInt m
      let l ← constInt l
      foldRange t m l e
  | .bitSelect t i => foldBit (.bitSelect t i) e
  | _ => none

/-- The width of a select and the expression of its lowest bit, in `_shift_select`. -/
def shiftParts : Expr → Option (Int × Expr)
  | .bitSelect _ i => some (1, i)
  | .rangeSelect _ m l => do
      let m ← constInt m
      let l ← constInt l
      return ((m - l).natAbs + 1, indexLiteral (min m l))
  | .partSelect _ b w d => do
      let w ← constInt w
      return (w, if d = .up then b else .binary .sub b (indexLiteral (w - 1)))
  | _ => none

/-- `_shift_select`. -/
def shiftSelect (dialect : Dialect) (e value : Expr) : Option Rewritten := do
  let (width, lsb) ← shiftParts e
  return if dialect = .verilog2005 then .plain (bits2005 value lsb width.toNat)
    else .unsignedCast width (.binary .shr value lsb)

/-- The target is an identifier. -/
def isIdent : Expr → Bool
  | .ident _ _ => true
  | _ => false

/-- The select is folded: one of a slice, of a vector the scope knows, at constant indices. -/
def folded? (scope : Option DeclScope) (e target : Expr) : Option (Option Expr) :=
  if isSelect target then do
    let D ← scope
    let root ← selectRoot target
    if D.arrays root then none else some (foldSelect e target)
  else some none

/-- `_legal_select`; `none` where the select is kept. -/
def legalSelect (scope : Option DeclScope) (dialect : Dialect) (e : Expr) : Option Rewritten := do
  let target ← target? e
  if isIdent target then none
  else
    let folded ← folded? scope e target
    if folded.isSome then folded.map .plain else shiftSelect dialect e target

variable {T : SignalTable}

/-- The value of a rewritten select; a size cast computes its operand at the larger of the cast's width and the
operand's own, and cuts it. -/
def Rewritten.eval (st : Store T) (w : Nat) (ov : Option Bool) : Rewritten → Option Value
  | .plain e => evalRequest st e (.context w ov)
  | .unsignedCast width e =>
      (evalRequest st e (.context (max width.toNat (selfWidth T e)) none)).bind fun v =>
        widen (ov.getD false) (v.resize width.toNat) w

end Veriforge.Emit

namespace Veriforge

open Value

namespace Value

/-- The bits of a value from a position on, unknown when the position is. -/
def selected (v : Value) (low : Option Int) (width : Nat) : Value :=
  match low with
  | some p => v.getRange (p + width - 1) p
  | none => x width

/-- Bit `j` of what is selected. -/
def selectedBit (v : Value) (low : Option Int) (j : Nat) : Option Bool := low.bind fun p => v.bitAt (p + j)

/-- Bit `j` of a value shifted right, unknown when the shift is. -/
def shiftedBit (v i : Value) (j : Nat) : Option Bool := if i.mask = 0 then v.bit (i.val + j) else none

theorem bit_resize_rshift {v : Value} (i : Value) {width j : Nat} (hw : width ≤ v.width) (hj : j < width) :
    ((v.rshift i).resize width).bit j = v.shiftedBit i j := by
  rw [bit_resize, if_pos hj, shiftedBit]
  split
  · next hi => rw [bit_rshift hi, Nat.add_comm]
  · next hi => rw [rshift, if_pos hi, bit_x, if_pos (by omega)]

theorem shiftedBit_congr {a b : Value} (h : ∀ j, a.bit j = b.bit j) (i : Value) (j : Nat) :
    a.shiftedBit i j = b.shiftedBit i j := by
  rw [shiftedBit, shiftedBit, h]

theorem selected_width (v : Value) (low : Option Int) {width : Nat} (h : 0 < width) :
    (v.selected low width).width = width := by
  cases low with
  | none => rfl
  | some p =>
    rw [selected, getRange_width, orderBounds_of_le (by omega)]
    show (p + width - 1 - p + 1).toNat = width
    omega

theorem bit_selected (v : Value) (low : Option Int) {width j : Nat} (hj : j < width) :
    (v.selected low width).bit j = v.selectedBit low j := by
  have hw := selected_width v low (lt_of_le_of_lt (Nat.zero_le j) hj)
  cases low with
  | none =>
    rw [selected, bit_x, if_pos hj]
    rfl
  | some p =>
    rw [selected, bit_getRange _ _ _ (by rw [← selected, hw]; exact hj), orderBounds_of_le (by omega)]
    rfl

theorem getBit_eq_selected (v : Value) (p : Int) : v.getBit p = v.selected (some p) 1 := by
  apply ext_bit_zero (getBit_width v p) (selected_width v _ Nat.one_pos)
  rw [bit_getBit, bit_selected v _ Nat.one_pos]
  show _ = v.bitAt (p + (0 : Nat))
  rw [Nat.cast_zero, Int.add_zero]

theorem getRange_eq_selected (v : Value) (m l : Int) :
    v.getRange m l = v.selected (some (min m l)) ((m - l).natAbs + 1) := by
  have hlow : min m l + ((m - l).natAbs + 1 : Nat) - 1 = max m l := by omega
  show v.getRange m l = v.getRange (min m l + ((m - l).natAbs + 1 : Nat) - 1) (min m l)
  rw [hlow]
  rcases Int.lt_or_le m l with h | h
  · rw [min_eq_left h.le, max_eq_right h.le, getRange, getRange, if_pos h, if_neg (by omega)]
  · rw [min_eq_right h, max_eq_left h]

theorem getPart_eq_selected (v : Value) (p : Int) {w : Nat} (d : Direction) :
    getPart v p w d = v.selected (some (if d = .up then p else p - w + 1)) w := by
  cases d with
  | up => rfl
  | down =>
    show v.getRange p (p - w + 1) = v.getRange (p - w + 1 + w - 1) (p - w + 1)
    congr 1
    omega

end Value

namespace Emit

variable {T : SignalTable}

/-- A constant bound: the number, to the emitter and to the evaluator. -/
structure ConstIndex (st : Store T) (e : Expr) (n : Int) : Prop where
  const : constInt e = some n
  value : ∃ v, evalRequest st e (.context 0 none) = some v ∧ v.isDefined = true ∧
    indexInt T e v (evalRequest st e (.context (selfWidth T e) (some true))) = some n

/-- A constant width: the number, to the emitter and to the evaluator. -/
structure ConstWidth (st : Store T) (e : Expr) (n : Nat) : Prop where
  const : constInt e = some (n : Int)
  value : ∃ v, evalRequest st e (.context 0 none) = some v ∧ v.isDefined = true ∧ v.val = n

/-- A select of a target: how many bits it takes, and the position of the lowest one, when it is known. An index is
as wide as its expression. -/
inductive Selected (st : Store T) : Expr → Expr → Nat → Option Int → Prop
  | bit {t i index p} (hi : evalRequest st i (.context 0 none) = some index) (hdef : index.isDefined = true)
      (hwide : selfWidth T i ≤ index.width)
      (hp : indexInt T i index (evalRequest st i (.context (selfWidth T i) (some true))) = some p) :
      Selected st (.bitSelect t i) t 1 (some p)
  | bitUnknown {t i index} (hi : evalRequest st i (.context 0 none) = some index) (hdef : index.isDefined = false) :
      Selected st (.bitSelect t i) t 1 none
  | range {t em el m l} (hm : ConstIndex st em m) (hl : ConstIndex st el l) :
      Selected st (.rangeSelect t em el) t ((m - l).natAbs + 1) (some (min m l))
  | part {t b base p ew w d} (hb : evalRequest st b (.context 0 none) = some base) (hdef : base.isDefined = true)
      (hp : partBase T b base = some p) (hw : ConstWidth st ew w) (hpos : 0 < w) :
      Selected st (.partSelect t b ew d) t w (some (if d = .up then p else p - w + 1))
  | partUnknown {t b base ew w d} (hb : evalRequest st b (.context 0 none) = some base)
      (hdef : base.isDefined = false) (hw : ConstWidth st ew w) (hpos : 0 < w) :
      Selected st (.partSelect t b ew d) t w none

variable {st : Store T} {e t : Expr} {width : Nat} {low : Option Int} {v : Value}

theorem Selected.target (h : Selected st e t width low) : target? e = some t := by
  cases h <;> rfl

theorem Selected.width_pos (h : Selected st e t width low) : 0 < width := by
  cases h with
  | bit | bitUnknown => exact Nat.one_pos
  | range => exact Nat.succ_pos _
  | part _ _ _ _ hpos => exact hpos
  | partUnknown _ _ _ hpos => exact hpos

/-- A select takes the bits it says, extended with zeros or the context's sign. -/
theorem Selected.eval (h : Selected st e t width low) (hv : evalRequest st t (.context 0 none) = some v)
    (hbase : selectBase T t = 0) (hmem : memoryTarget? T t = none) (w : Nat) (ov : Option Bool) :
    evalRequest st e (.context w ov) = widen (ov.getD false) (v.selected low width) w := by
  cases h with
  | @bit _ i index p hi hdef _ hp =>
    rw [evalRequest, hmem, hv, hi]
    show (selectBit T t v i index _).bind _ = _
    rw [selectBit, if_pos hdef, hp, hbase]
    show widen _ (v.getBit (p - 0)) w = _
    rw [Int.sub_zero, getBit_eq_selected]
    rfl
  | @bitUnknown _ i index hi hdef =>
    rw [evalRequest, hmem, hv, hi]
    show (selectBit T t v i index _).bind _ = _
    rw [selectBit, if_neg (by rw [hdef]; exact Bool.false_ne_true)]
    rfl
  | @range _ em el m l hm hl =>
    obtain ⟨vm, hvm, hdm, hrm⟩ := hm.value
    obtain ⟨vl, hvl, hdl, hrl⟩ := hl.value
    rw [evalRequest, hv, hvm, hvl]
    show (selectRange T t v em vm _ el vl _).bind _ = _
    rw [selectRange, if_pos ⟨hdm, hdl⟩, hrm, hrl, hbase]
    show widen _ (v.getRange (m - 0) (l - 0)) w = _
    rw [Int.sub_zero, Int.sub_zero, getRange_eq_selected]
    rfl
  | @part _ b base p ew width d hb hdef hp hw hpos =>
    obtain ⟨vw, hvw, hdw, hval⟩ := hw.value
    rw [evalRequest, hv, hb, hvw]
    show (selectPart T t v b base vw d).bind _ = _
    rw [selectPart, if_pos ⟨hdef, hdw⟩, hp, hbase, hval]
    show widen _ (getPart v (p - 0) width d) w = _
    rw [Int.sub_zero, getPart_eq_selected]
    rfl
  | @partUnknown _ b base ew width d hb hdef hw hpos =>
    obtain ⟨vw, hvw, hdw, hval⟩ := hw.value
    rw [evalRequest, hv, hb, hvw]
    show (selectPart T t v b base vw d).bind _ = _
    rw [selectPart, if_neg (by rw [hdef]; simp), hdw, hval, if_pos ⟨rfl, hpos⟩]
    rfl

/-! ## Targets -/

/-- The innermost target of nested selects. -/
def selectLeaf : Expr → Expr
  | .bitSelect t _ | .rangeSelect t _ _ | .partSelect t _ _ _ => selectLeaf t
  | e => e

/-- Nested selects are of an expression or of a vector whose bits are numbered from 0. -/
def VectorLeaf (T : SignalTable) (t : Expr) : Prop :=
  ∀ h n, selectLeaf t = .ident h n → T.memory (identifierName h n) = none ∧ T.signalBase (identifierName h n) = 0

theorem VectorLeaf.memoryTarget (h : VectorLeaf T t) : memoryTarget? T t = none := by
  cases t
  case ident hier n =>
    rw [memoryTarget?, (h hier n (by simp [selectLeaf])).1]
    rfl
  all_goals rfl

theorem VectorLeaf.selectBase (h : VectorLeaf T t) : selectBase T t = 0 := by
  cases t
  case ident hier n => exact (h hier n (by simp [selectLeaf])).2
  case bitSelect t i =>
    cases t
    case ident hier n =>
      have hmem := (h hier n (by simp [selectLeaf])).1
      show (if T.isMemory (identifierName hier n) = true then _ else 0) = (0 : Int)
      rw [SignalTable.isMemory, hmem]
      rfl
    all_goals rfl
  all_goals rfl

theorem VectorLeaf.of_select {inner : Expr} (h : VectorLeaf T t) (ht : target? t = some inner) : VectorLeaf T inner := by
  intro hier n hleaf
  apply h hier n
  cases t
  case bitSelect | rangeSelect | partSelect =>
    obtain rfl := Option.some_inj.mp ht
    rw [selectLeaf]
    exact hleaf
  all_goals cases ht

/-- In any context a select of a vector is extended with zeros or the context's sign. -/
theorem evalRequest_select (hleaf : VectorLeaf T t) (ht : isSelect t = true) (w : Nat) (ov : Option Bool) :
    evalRequest st t (.context w ov)
      = (evalRequest st t (.context 0 none)).bind fun v => widen (ov.getD false) v w := by
  cases t
  case bitSelect t i =>
    have hmem : memoryTarget? T t = none := (hleaf.of_select rfl).memoryTarget
    rw [evalRequest, evalRequest, hmem]
    simp [Request.signedOverride, Option.bind_assoc]
  case rangeSelect | partSelect =>
    rw [evalRequest, evalRequest]
    simp [Request.signedOverride, Option.bind_assoc]
  all_goals cases ht

theorem exprSigned_select (hleaf : VectorLeaf T t) (ht : isSelect t = true) : exprSigned T t = false := by
  cases t
  case bitSelect t i => exact exprSigned_bitSelect (hleaf.of_select rfl).memoryTarget
  case rangeSelect | partSelect => simp [exprSigned]
  all_goals cases ht

/-- The target is a slice, or a legal expression whose literals have the widths they are counted with. -/
def Sized (T : SignalTable) (t : Expr) : Prop :=
  isSelect t = true ∨ AllAt T (fun e _ => legal T e = true ∧ exactLiteral e = true) t 0

/-- Extended with zeros a value has the same bits. -/
theorem exists_widen_false (v : Value) (w : Nat) :
    ∃ a, widen false v w = some a ∧ w ≤ a.width ∧ ∀ j, a.bit j = v.bit j := by
  rcases Nat.lt_or_ge v.width w with hlt | hge
  · refine ⟨v.resize w, ?_, le_rfl, ?_⟩
    · rw [widen, if_pos hlt]
      rfl
    · intro j
      rw [bit_resize]
      split
      · rfl
      · rw [bit_of_width_le (by omega)]
  · exact ⟨v, widen_of_le hge, hge, fun _ => rfl⟩

theorem Sized.unsignedWide (hs : Sized T t) (hleaf : VectorLeaf T t) : UnsignedWide st t := by
  rcases hs with ht | hl
  · intro u hu
    rw [evalRequest_select hleaf ht] at hu
    obtain ⟨v, -, hu⟩ := Option.bind_eq_some_iff.mp hu
    rw [widen_width hu]
    exact le_max_right _ _
  · exact unsignedWide_of_legal (hl.imp fun _ _ h => h.1)

/-- At its own width or more, a target has the bits it has on its own. -/
theorem Sized.own (hs : Sized T t) (hleaf : VectorLeaf T t) (hv : evalRequest st t (.context 0 none) = some v)
    (hw : width ≤ v.width) :
    ∃ a, ((evalRequest st t (.context (max width (selfWidth T t)) (some (exprSigned T t)))).bind fun a =>
        widen (exprSigned T t) a (max width (selfWidth T t))) = some a ∧
      max width (selfWidth T t) ≤ a.width ∧ ∀ j, a.bit j = v.bit j := by
  rcases hs with ht | hl
  · obtain ⟨a, ha, haw, hbits⟩ := exists_widen_false v (max width (selfWidth T t))
    refine ⟨a, ?_, haw, hbits⟩
    rw [exprSigned_select hleaf ht, evalRequest_select hleaf ht, hv, Option.bind_some]
    show (widen false v _).bind _ = _
    rw [ha, Option.bind_some, widen_of_le haw]
  · have hlegal := hl.imp fun _ _ h => h.1
    have hcore := exactCore_of_all hl
    have hvw : v.width = selfWidth T t := evalRequest_width_of_none hv hlegal hcore
    rw [evalRequest_none hlegal hcore, evalRequest_signed] at hv
    refine ⟨v, ?_, ?_, fun _ => rfl⟩
    · rw [max_eq_right (hvw ▸ hw), hv, Option.bind_some, widen_of_le hvw.ge]
    · rw [max_eq_right (hvw ▸ hw), hvw]

/-! ## Shifting the target down -/

/-- A size cast of the shifted target takes the target's bits from the position on. -/
theorem eval_unsignedCast (hs : Sized T t) (hleaf : VectorLeaf T t)
    (hv : evalRequest st t (.context 0 none) = some v) (hpos : 0 < width) (hw : width ≤ v.width) (lsb : Expr) :
    ∃ a : Value, width ≤ a.width ∧ (∀ j, a.bit j = v.bit j) ∧ ∀ w ov,
      (Rewritten.unsignedCast width (.binary .shr t lsb)).eval st w ov
        = ((evalRequest st lsb (.context 0 none)).map fun i => (a.rshift i).resize width).bind fun u =>
          widen (ov.getD false) u w := by
  obtain ⟨a, ha, haw, hbits⟩ := hs.own hleaf hv hw
  refine ⟨a, le_trans (le_max_left _ _) haw, hbits, ?_⟩
  intro w ov
  have hself : selfWidth T (.binary .shr t lsb) = selfWidth T t := rfl
  have htarget : shiftTarget T t (max width (selfWidth T t)) = max width (selfWidth T t) := by
    rw [shiftTarget]
    split <;> omega
  rw [Rewritten.eval, Int.toNat_natCast, hself, evalRequest_shift rfl, Request.width_context,
    Request.signedOverride_context, htarget, Option.getD_none, ← Option.bind_assoc, ha, Option.bind_some,
    Option.bind_map, Option.bind_assoc]
  apply Option.bind_congr
  intro i _
  have hshr : evalBinaryResult .shr (exprSigned T t && exprSigned T lsb) (exprSigned T t) a i = some (a.rshift i) := rfl
  have hrw : max width (selfWidth T t) ≤ (a.rshift i).width := by rwa [rshift_width]
  rw [hshr, Option.bind_some, fit_of_le (by omega) hrw, Option.bind_some, resize_resize_of_le _ (le_max_left _ _)]
  rfl

/-- A value of some width is the one with those bits. -/
theorem eq_some_iff_bits {o : Option Value} {s : Value} (h : ∀ u, o = some u → u.width = s.width) :
    o = some s ↔ ∃ u, o = some u ∧ ∀ j < s.width, u.bit j = s.bit j := by
  constructor
  · intro ho
    exact ⟨s, ho, fun _ _ => rfl⟩
  · rintro ⟨u, rfl, hbits⟩
    exact congrArg some (ext_bit_lt (h u rfl) fun j hj => hbits j (h u rfl ▸ hj))

/-! ## Positions -/

/-- A natural number is an index as it is written. -/
theorem constIndex_indexLiteral (st : Store T) {n : Int} (hn : 0 ≤ n) : ConstIndex st (indexLiteral n) n := by
  obtain ⟨k, rfl⟩ := Int.eq_ofNat_of_zero_le hn
  refine ⟨rfl, indexValue k, evalRequest_indexLiteral k, ?_, ?_⟩
  · rw [isDefined, indexValue_mask]
    rfl
  · show some ((indexValue k).val : Int) = some (k : Int)
    rw [indexValue_val]

theorem width_indexLiteral (n : Int) : selfWidth T (indexLiteral n) ≤ (indexValue n).width := by
  show 32 ≤ Literal.signedLiteralWidth n
  rw [Literal.signedLiteralWidth]
  split
  · exact le_max_left _ _
  · split
    · exact le_max_left _ _
    · exact le_rfl

/-- A bit select at an index literal. -/
theorem selected_bit_indexLiteral (t : Expr) {n : Int} (hn : 0 ≤ n) :
    Selected st (.bitSelect t (indexLiteral n)) t 1 (some n) := by
  obtain ⟨v, hv, hdef, hp⟩ := (constIndex_indexLiteral st hn).value
  rw [evalRequest_indexLiteral, Option.some_inj] at hv
  exact .bit (evalRequest_indexLiteral n) (hv ▸ hdef) (width_indexLiteral n) (hv ▸ hp)

/-- An index that is not negative reads as its bits do. -/
theorem val_of_indexInt {i : Expr} {index : Value} {again : Option Value} {p : Int} (hwide : selfWidth T i ≤ index.width)
    (hp : indexInt T i index again = some p) (h0 : 0 ≤ p) : (index.val : Int) = p := by
  rw [indexInt] at hp
  split at hp
  · exact Option.some_inj.mp hp
  · rw [if_neg (Nat.not_lt.mpr hwide)] at hp
    exact val_of_asSigned hp h0

theorem val_of_partBase {b : Expr} {base : Value} {p : Int} (hp : partBase T b base = some p) (h0 : 0 ≤ p) :
    (base.val : Int) = p := by
  have hlt : (base.val : Int) < 2 ^ base.width := by exact_mod_cast base.val_lt
  rw [partBase] at hp
  split at hp
  · split at hp
    · cases hp
    · split at hp
      · have := Option.some_inj.mp hp
        omega
      · exact Option.some_inj.mp hp
  · exact Option.some_inj.mp hp

/-- The emitter computes the width of a select. -/
theorem Selected.shiftParts (h : Selected st e t width low) : ∃ lsb, shiftParts e = some ((width : Int), lsb) := by
  cases h with
  | @bit _ i | @bitUnknown _ i => exact ⟨i, rfl⟩
  | @range _ em el m l hm hl =>
    refine ⟨indexLiteral (min m l), ?_⟩
    rw [Emit.shiftParts, hm.const, hl.const]
    rfl
  | @part _ b base p ew _ d _ _ _ hw | @partUnknown _ b base ew _ d _ _ hw =>
    refine ⟨if d = .up then b else .binary .sub b (indexLiteral (width - 1)), ?_⟩
    rw [Emit.shiftParts, hw.const]
    rfl

/-- A shift by the lowest position brings the bits from there down. -/
theorem shiftedBit_eq_selectedBit {i : Value} {p : Int} {j : Nat} (hi : i.isDefined = true) (hval : (i.val : Int) = p)
    (hj : p + j < v.width) : v.shiftedBit i j = v.selectedBit (some p) j := by
  rw [shiftedBit, if_pos (isDefined_iff.mp hi), selectedBit, Option.bind_some, bitAt, if_pos ⟨by omega, hj⟩]
  congr 1
  omega

/-- The lowest position of a select is the one the target is shifted by, but for a downward part select. -/
theorem Selected.position (h : Selected st e t width low) (hdown : ∀ b w, e ≠ .partSelect t b w .down)
    (hin : ∀ p, low = some p → 0 ≤ p ∧ p + width ≤ v.width) {W : Int} {lsb : Expr}
    (hparts : Emit.shiftParts e = some (W, lsb)) :
    ∃ i, evalRequest st lsb (.context 0 none) = some i ∧ ∀ j < width, v.shiftedBit i j = v.selectedBit low j := by
  have hunknown : ∀ i : Value, i.isDefined = false → ∀ j, v.shiftedBit i j = v.selectedBit none j := by
    intro i hi j
    rw [shiftedBit, if_neg (isDefined_eq_false_iff.mp hi)]
    rfl
  cases h with
  | @bit _ _ index p hi hdef hwide hp =>
    obtain ⟨h0, hfit⟩ := hin p rfl
    cases hparts
    refine ⟨index, hi, fun j hj => ?_⟩
    exact shiftedBit_eq_selectedBit hdef (val_of_indexInt hwide hp h0) (by omega)
  | @bitUnknown _ _ index hi hdef =>
    cases hparts
    exact ⟨index, hi, fun j _ => hunknown index hdef j⟩
  | @range _ em el m l hm hl =>
    obtain ⟨h0, hfit⟩ := hin _ rfl
    rw [Emit.shiftParts, hm.const, hl.const] at hparts
    cases hparts
    obtain ⟨i, hi, hdef, hread⟩ := (constIndex_indexLiteral st h0).value
    refine ⟨i, hi, fun j hj => ?_⟩
    exact shiftedBit_eq_selectedBit hdef (Option.some_inj.mp hread) (by omega)
  | @part _ b base p ew _ d hb hdef hp hw _ =>
    cases d with
    | down => exact absurd rfl (hdown b ew)
    | up =>
      obtain ⟨h0, hfit⟩ := hin p rfl
      rw [Emit.shiftParts, hw.const] at hparts
      cases hparts
      refine ⟨base, hb, fun j hj => ?_⟩
      exact shiftedBit_eq_selectedBit hdef (val_of_partBase hp h0) (by omega)
  | @partUnknown _ b base ew _ d hb hdef hw _ =>
    cases d with
    | down => exact absurd rfl (hdown b ew)
    | up =>
      rw [Emit.shiftParts, hw.const] at hparts
      cases hparts
      exact ⟨base, hb, fun j _ => hunknown base hdef j⟩

/-! ## Folding -/

/-- The constant bounds of a select, the upper one first. -/
def constBounds : Expr → Option (Int × Int)
  | .bitSelect _ i => do
      let k ← constInt i
      return (k, k)
  | .rangeSelect _ h o => do
      let hi ← constInt h
      let lo ← constInt o
      return (hi, lo)
  | _ => none

/-- Where the bits of a folded select start in its target: those of a slice are counted from its second bound. -/
def foldOffset (e : Expr) : Expr → Option Int
  | .rangeSelect _ m l => do
      let m ← constInt m
      let l ← constInt l
      let (hi, lo) ← constBounds e
      return if l ≤ m then lo else (m - l).natAbs - hi
  | _ => some 0

/-- A bit of a slice is the bit of its target as far above the lower bound. -/
theorem bitAt_selected (v : Value) (p : Int) {width : Nat} {c : Int} (h0 : 0 ≤ c) (hc : c < width) :
    (v.selected (some p) width).bitAt c = v.bitAt (p + c) := by
  have hw : (v.selected (some p) width).width = width := selected_width v _ (by omega)
  rw [bitAt, hw, if_pos ⟨h0, hc⟩, bit_selected v _ (by omega), selectedBit, Option.bind_some, Int.toNat_of_nonneg h0]

section

variable {em el f : Expr} {m l : Int} (hm : constInt em = some m) (hl : constInt el = some l) (h0 : 0 ≤ m ∧ 0 ≤ l)

include hm hl

theorem foldOffset_rangeSelect {hi lo : Int} (hb : constBounds e = some (hi, lo)) :
    foldOffset e (.rangeSelect t em el) = some (if l ≤ m then lo else (m - l).natAbs - hi) := by
  rw [foldOffset, hm, hl, hb]
  rfl

include h0

theorem foldRange_bitSelect {u i : Expr} (hf : foldRange t m l (.bitSelect u i) = some f) :
    ∃ c, foldOffset (.bitSelect u i) (.rangeSelect t em el) = some c ∧ 0 ≤ c ∧ c + 1 ≤ ((m - l).natAbs + 1 : Nat) ∧
      Selected st f t 1 (some (min m l + c)) := by
  rw [foldRange] at hf
  obtain ⟨k, hk, hf⟩ := Option.bind_eq_some_iff.mp hf
  split at hf
  · next hin =>
    cases hf
    have hbounds : constBounds (.bitSelect u i) = some (k, k) := by
      rw [constBounds, hk]
      rfl
    refine ⟨_, foldOffset_rangeSelect hm hl hbounds, by split <;> omega, by split <;> omega, ?_⟩
    have hindex : min m l + (if l ≤ m then k else (m - l).natAbs - k) = foldIndex m l k := by
      rw [foldIndex]
      split <;> omega
    rw [hindex]
    apply selected_bit_indexLiteral
    rw [foldIndex]
    split <;> omega
  · cases hf

theorem foldRange_rangeSelect {u eh eo : Expr} {hi lo : Int} (hhi : constInt eh = some hi) (hlo : constInt eo = some lo)
    (hf : foldRange t m l (.rangeSelect u eh eo) = some f) :
    ∃ c, foldOffset (.rangeSelect u eh eo) (.rangeSelect t em el) = some c ∧ 0 ≤ c ∧
      c + ((hi - lo).natAbs + 1 : Nat) ≤ ((m - l).natAbs + 1 : Nat) ∧
      Selected st f t ((hi - lo).natAbs + 1) (some (min m l + c)) := by
  have hbounds : constBounds (.rangeSelect u eh eo) = some (hi, lo) := by
    rw [constBounds, hhi, hlo]
    rfl
  rw [foldRange, hhi, hlo] at hf
  dsimp only [Option.bind_eq_bind, Option.bind_some] at hf
  split at hf
  · next hin =>
    cases hf
    refine ⟨_, foldOffset_rangeSelect hm hl hbounds, by split <;> omega, by split <;> omega, ?_⟩
    have hfold : ∀ k, 0 ≤ k → k < ((m - l).natAbs + 1 : Int) → 0 ≤ foldIndex m l k := by
      intro k hk0 hk
      rw [foldIndex]
      split <;> omega
    have hih := constIndex_indexLiteral st (hfold hi (by omega) (by omega))
    have hil := constIndex_indexLiteral st (hfold lo (by omega) (by omega))
    by_cases hle : l ≤ m
    · have hwidth : (foldIndex m l hi - foldIndex m l lo).natAbs = (hi - lo).natAbs := by
        rw [foldIndex, foldIndex, if_pos hle, if_pos hle]
        omega
      have hlow : min (foldIndex m l hi) (foldIndex m l lo) = min m l + lo := by
        rw [foldIndex, foldIndex, if_pos hle, if_pos hle]
        omega
      have hsel := Selected.range (t := t) hih hil
      rw [hwidth, hlow] at hsel
      rw [if_pos hle, if_pos hle]
      exact hsel
    · have hwidth : (foldIndex m l lo - foldIndex m l hi).natAbs = (hi - lo).natAbs := by
        rw [foldIndex, foldIndex, if_neg hle, if_neg hle]
        omega
      have hlow : min (foldIndex m l lo) (foldIndex m l hi) = min m l + ((m - l).natAbs - hi) := by
        rw [foldIndex, foldIndex, if_neg hle, if_neg hle]
        omega
      have hsel := Selected.range (t := t) hil hih
      rw [hwidth, hlow] at hsel
      rw [if_neg hle, if_neg hle]
      exact hsel
  · cases hf

end

/-- The bits a folded select of a slice takes. -/
theorem foldRange_selected {f : Expr} {em el : Expr} {m l : Int} (h : Selected st e (.rangeSelect t em el) width low)
    (hm : constInt em = some m) (hl : constInt el = some l) (h0 : 0 ≤ m ∧ 0 ≤ l) (hf : foldRange t m l e = some f) :
    ∃ c, foldOffset e (.rangeSelect t em el) = some c ∧ 0 ≤ c ∧ c + width ≤ ((m - l).natAbs + 1 : Nat) ∧
      Selected st f t width (some (min m l + c)) := by
  cases h with
  | bit | bitUnknown => exact foldRange_bitSelect hm hl h0 hf
  | range hhi hlo => exact foldRange_rangeSelect hm hl h0 hhi.const hlo.const hf
  | part | partUnknown => cases hf

/-! ## Preservation -/

/-- A select whose selected bits lie inside its target: the target is a slice within its own, or an expression. -/
structure Inside (st : Store T) (e t : Expr) (width : Nat) (low : Option Int) (v : Value) : Prop where
  selected : Selected st e t width low
  value : evalRequest st t (.context 0 none) = some v
  leaf : VectorLeaf T t
  sized : Sized T t
  slice : ∀ u em el, t = .rangeSelect u em el → ∃ m l, ConstIndex st em m ∧ ConstIndex st el l ∧ 0 ≤ m ∧ 0 ≤ l
  width_le : width ≤ v.width
  inside : ∀ p, low = some p → 0 ≤ p ∧ p + width ≤ v.width

/-- Where the rewritten select looks for the selected bits, it finds them. -/
structure SelectSafe (st : Store T) (scope : Option DeclScope) (dialect : Dialect) (e t : Expr) (width : Nat)
    (low : Option Int) (v : Value) : Prop where
  /-- A folded select takes the bits from the constant position on. -/
  fold : ∀ f, folded? scope e t = some (some f) → ∀ c, foldOffset e t = some c →
    ∀ j < width, v.bitAt (c + j) = v.selectedBit low j
  /-- The lowest bit of a downward part select is computed at 32 bits or more, unsigned. -/
  shift : folded? scope e t = some none → dialect = .sv → ∀ b w, e = .partSelect t b w .down →
    ∃ i, evalRequest st (.binary .sub b (indexLiteral (width - 1))) (.context 0 none) = some i ∧
      ∀ j < width, v.shiftedBit i j = v.selectedBit low j
  /-- In Verilog-2005 the target's operators are unsigned, and each bit has a computed position of its own. -/
  bits : folded? scope e t = some none → dialect = .verilog2005 →
    ∃ u, evalRequest st t (.context (max (selfWidth T t) 1) (some false)) = some u ∧
      ∀ W lsb, shiftParts e = some (W, lsb) → ∀ j < width,
        ∃ i, evalRequest st (plus lsb j) (.context 0 none) = some i ∧ u.shiftedBit i 0 = v.selectedBit low j

/-- The select has the value of the rewritten one, in every context. -/
def SelectPreserved (st : Store T) (e : Expr) (r : Rewritten) : Prop :=
  ∀ w ov, r.eval st w ov = evalRequest st e (.context w ov)

variable {f : Expr} {r : Rewritten}

/-- Extended from some bits, an expression preserves a select when the bits are the selected ones. -/
theorem Inside.preserved_iff (h : Inside st e t width low v) {o : Option Value} (hw : ∀ u, o = some u → u.width = width)
    (hr : ∀ w ov, r.eval st w ov = o.bind fun u => widen (ov.getD false) u w) :
    SelectPreserved st e r ↔ ∃ u, o = some u ∧ ∀ j < width, u.bit j = v.selectedBit low j := by
  have hwidth := selected_width v low h.selected.width_pos
  have heval := h.selected.eval h.value h.leaf.selectBase h.leaf.memoryTarget
  have hbits := eq_some_iff_bits (o := o) (s := v.selected low width) fun u hu => (hw u hu).trans hwidth.symm
  rw [hwidth] at hbits
  calc SelectPreserved st e r
      ↔ ∀ (w : Nat) (ov : Option Bool), (o.bind fun u => widen (ov.getD false) u w)
          = (some (v.selected low width)).bind fun u => widen (ov.getD false) u w := by
        simp only [SelectPreserved, hr, heval, Option.bind_some]
    _ ↔ o.map id = (some (v.selected low width)).map id := forall_widen_iff (f := id) (g := id) false
    _ ↔ ∃ u, o = some u ∧ ∀ j < width, u.bit j = (v.selected low width).bit j := by
        rw [Option.map_id_fun, id, id, hbits]
    _ ↔ ∃ u, o = some u ∧ ∀ j < width, u.bit j = v.selectedBit low j := by
        apply exists_congr
        intro u
        apply and_congr_right
        intro _
        exact forall₂_congr fun j hj => by rw [bit_selected v low hj]

/-- A folded select of a slice. -/
theorem Inside.fold_range {u em el : Expr} (h : Inside st e (.rangeSelect u em el) width low v)
    (hf : foldSelect e (.rangeSelect u em el) = some f) :
    SelectPreserved st e (.plain f) ↔
      ∀ c, foldOffset e (.rangeSelect u em el) = some c → ∀ j < width, v.bitAt (c + j) = v.selectedBit low j := by
  obtain ⟨m, l, hm, hl, h0⟩ := h.slice u em el rfl
  rw [foldSelect, hm.const, hl.const] at hf
  obtain ⟨c, hc, hc0, hcw, hsel⟩ := foldRange_selected h.selected hm.const hl.const h0 hf
  have hleaf : VectorLeaf T u := h.leaf.of_select rfl
  obtain ⟨uv, huv⟩ : ∃ uv, evalRequest st u (.context 0 none) = some uv := by
    have hv := h.value
    rw [evalRequest] at hv
    obtain ⟨uv, huv, -⟩ := Option.bind_eq_some_iff.mp hv
    exact ⟨uv, huv⟩
  -- the slice's value, and the folded select's, as bits of the vector
  have hv : v = uv.selected (some (min m l)) ((m - l).natAbs + 1) := by
    have heval := (Selected.range (t := u) hm hl).eval huv hleaf.selectBase hleaf.memoryTarget 0 none
    rw [h.value, widen_zero] at heval
    exact Option.some_inj.mp heval
  have hbit : ∀ j < width, (uv.selected (some (min m l + c)) width).bit j = v.bitAt (c + j) := by
    intro j hj
    rw [bit_selected _ _ hj, hv, bitAt_selected _ _ (by omega) (by omega), selectedBit, Option.bind_some, Int.add_assoc]
  have hwidth : ∀ a, some (uv.selected (some (min m l + c)) width) = some a → a.width = width := by
    intro a ha
    rw [← Option.some_inj.mp ha]
    exact selected_width _ _ h.selected.width_pos
  have heval : ∀ w ov, (Rewritten.plain f).eval st w ov
      = (some (uv.selected (some (min m l + c)) width)).bind fun a => widen (ov.getD false) a w :=
    hsel.eval huv hleaf.selectBase hleaf.memoryTarget
  rw [h.preserved_iff hwidth heval]
  constructor
  · rintro ⟨_, hu, hbits⟩ c' hc' j hj
    cases hu
    rw [hc, Option.some_inj] at hc'
    rw [← hc', ← hbit j hj]
    exact hbits j hj
  · intro hbits
    refine ⟨_, rfl, fun j hj => ?_⟩
    rw [hbit j hj]
    exact hbits c hc j hj

/-- A bit of a vector is one bit wide. -/
theorem width_bitSelect {u i : Expr} (hmem : memoryTarget? T u = none)
    (hv : evalRequest st (.bitSelect u i) (.context 0 none) = some v) : v.width = 1 := by
  rw [evalRequest, hmem] at hv
  obtain ⟨uv, -, hv⟩ := Option.bind_eq_some_iff.mp hv
  obtain ⟨index, -, hv⟩ := Option.bind_eq_some_iff.mp hv
  obtain ⟨b, hb, hv⟩ := Option.bind_eq_some_iff.mp hv
  rw [Request.width_context, widen_zero] at hv
  cases hv
  rw [selectBit] at hb
  split at hb
  · obtain ⟨k, -, hb⟩ := Option.bind_eq_some_iff.mp hb
    cases hb
    exact getBit_width _ _
  · cases hb
    rfl

/-- Bit 0 of one bit. -/
theorem Inside.fold_bit {u i : Expr} (h : Inside st e (.bitSelect u i) width low v)
    (hf : foldSelect e (.bitSelect u i) = some f) :
    SelectPreserved st e (.plain f) ↔
      ∀ c, foldOffset e (.bitSelect u i) = some c → ∀ j < width, v.bitAt (c + j) = v.selectedBit low j := by
  have hone : v.width = 1 := width_bitSelect (h.leaf.of_select rfl).memoryTarget h.value
  obtain rfl : f = .bitSelect u i := by
    rw [foldSelect] at hf
    cases h.selected with
    | bit | bitUnknown =>
      rw [foldBit] at hf
      split at hf
      · exact (Option.some_inj.mp hf).symm
      · cases hf
    | range | part | partUnknown => cases hf
  obtain rfl : width = 1 := by
    have := h.width_le
    have := h.selected.width_pos
    omega
  have heval : ∀ w ov, (Rewritten.plain (.bitSelect u i)).eval st w ov
      = (some v).bind fun a => widen (ov.getD false) a w := by
    intro w ov
    rw [Rewritten.eval, evalRequest_select h.leaf rfl, h.value]
  rw [h.preserved_iff (fun a ha => Option.some_inj.mp ha ▸ hone) heval]
  have hzero : v.bitAt 0 = v.bit 0 := by
    rw [bitAt, if_pos (by omega)]
    rfl
  constructor
  · rintro ⟨_, hu, hbits⟩ c hc j hj
    cases hu
    cases hc
    obtain rfl : j = 0 := by omega
    show v.bitAt 0 = _
    rw [hzero]
    exact hbits 0 hj
  · intro hbits
    refine ⟨v, rfl, fun j hj => ?_⟩
    obtain rfl : j = 0 := by omega
    rw [← hzero]
    exact hbits 0 rfl 0 hj

theorem Inside.fold (h : Inside st e t width low v) (hf : foldSelect e t = some f) : SelectPreserved st e (.plain f) ↔
      ∀ c, foldOffset e t = some c → ∀ j < width, v.bitAt (c + j) = v.selectedBit low j := by
  cases t
  case rangeSelect u em el => exact h.fold_range hf
  case bitSelect u i => exact h.fold_bit hf
  all_goals cases hf

/-- A shifted and cut target. -/
theorem Inside.shift (h : Inside st e t width low v) (lsb : Expr) :
    SelectPreserved st e (.unsignedCast width (.binary .shr t lsb)) ↔
      ∃ i, evalRequest st lsb (.context 0 none) = some i ∧ ∀ j < width, v.shiftedBit i j = v.selectedBit low j := by
  obtain ⟨a, haw, hbits, heval⟩ := eval_unsignedCast h.sized h.leaf h.value h.selected.width_pos h.width_le lsb
  have hbit : ∀ i j, j < width → ((a.rshift i).resize width).bit j = v.shiftedBit i j := by
    intro i j hj
    rw [bit_resize_rshift i haw hj, shiftedBit_congr hbits]
  have hwidth : ∀ u, (evalRequest st lsb (.context 0 none)).map (fun i => (a.rshift i).resize width) = some u →
      u.width = width := by
    intro u hu
    obtain ⟨i, -, rfl⟩ := Option.map_eq_some_iff.mp hu
    rfl
  rw [h.preserved_iff hwidth heval]
  constructor
  · rintro ⟨u, hu, hsel⟩
    obtain ⟨i, hi, rfl⟩ := Option.map_eq_some_iff.mp hu
    exact ⟨i, hi, fun j hj => (hbit i j hj).symm.trans (hsel j hj)⟩
  · rintro ⟨i, hi, hsel⟩
    exact ⟨_, congrArg _ hi, fun j hj => (hbit i j hj).trans (hsel j hj)⟩

/-- The bits of the target one by one. -/
theorem Inside.bits (h : Inside st e t width low v) (lsb : Expr) :
    SelectPreserved st e (.plain (bits2005 t lsb width)) ↔
      ∃ u, evalRequest st t (.context (max (selfWidth T t) 1) (some false)) = some u ∧
        ∀ j < width, ∃ i, evalRequest st (plus lsb j) (.context 0 none) = some i ∧
          u.shiftedBit i 0 = v.selectedBit low j := by
  have hpos := h.selected.width_pos
  have hwidth : (v.selected low width).width = width := selected_width v low hpos
  have hwide : UnsignedWide st t := h.sized.unsignedWide h.leaf
  have heval := h.selected.eval h.value h.leaf.selectBase h.leaf.memoryTarget
  have hown : SelectPreserved st e (.plain (bits2005 t lsb width)) ↔
      evalRequest st (bits2005 t lsb width) (.context 0 none) = some (v.selected low width) := by
    constructor
    · intro hall
      have hzero := hall 0 none
      rw [heval, widen_zero] at hzero
      exact hzero
    · intro hzero w ov
      rw [heval, Rewritten.eval, evalRequest_bits2005_context hwide hpos, hzero, Option.bind_some]
  have hiff := @evalRequest_bits2005_eq_some_iff T st t lsb hwide (v.selected low width) (by omega)
  rw [hwidth] at hiff
  rw [hown, hiff]
  apply exists_congr
  intro u
  apply and_congr_right
  intro hu
  have hupos : 0 < u.width := lt_of_lt_of_le (by omega) (hwide u hu)
  apply forall₂_congr
  intro j hj
  apply exists_congr
  intro i
  rw [bitValue_bit hupos, bit_selected v low hj, shiftedBit, Nat.add_zero]

variable {scope : Option DeclScope} {dialect : Dialect}

theorem foldSelect_of_folded (h : folded? scope e t = some (some f)) : foldSelect e t = some f := by
  rw [folded?] at h
  split at h
  · obtain ⟨D, -, h⟩ := Option.bind_eq_some_iff.mp h
    obtain ⟨root, -, h⟩ := Option.bind_eq_some_iff.mp h
    split at h
    · cases h
    · exact Option.some_inj.mp h
  · cases h

/-- A select is rewritten in one of two ways. -/
theorem legalSelect_eq_some (ht : target? e = some t) (h : legalSelect scope dialect e = some r) :
    (∃ f, folded? scope e t = some (some f) ∧ r = .plain f) ∨
      (folded? scope e t = some none ∧ shiftSelect dialect e t = some r) := by
  rw [legalSelect, ht] at h
  dsimp only [Option.bind_eq_bind, Option.bind_some] at h
  split at h
  · cases h
  · obtain ⟨folded, hf, h⟩ := Option.bind_eq_some_iff.mp h
    cases folded with
    | some f => exact Or.inl ⟨f, hf, (Option.some_inj.mp h).symm⟩
    | none => exact Or.inr ⟨hf, h⟩

/-- The positions of a shifted target are those of the select, but for a downward part select. -/
theorem Inside.shift_iff (h : Inside st e t width low v) {lsb : Expr}
    (hparts : shiftParts e = some ((width : Int), lsb)) :
    SelectPreserved st e (.unsignedCast width (.binary .shr t lsb)) ↔ ∀ b w, e = .partSelect t b w .down →
        ∃ i, evalRequest st (.binary .sub b (indexLiteral (width - 1))) (.context 0 none) = some i ∧
          ∀ j < width, v.shiftedBit i j = v.selectedBit low j := by
  rw [h.shift]
  constructor
  · rintro hsafe b w rfl
    obtain ⟨W, hW, hlsb⟩ := Option.bind_eq_some_iff.mp hparts
    cases hlsb
    exact hsafe
  · intro hdown
    by_cases hd : ∃ b w, e = .partSelect t b w .down
    · obtain ⟨b, w, rfl⟩ := hd
      obtain ⟨W, hW, hlsb⟩ := Option.bind_eq_some_iff.mp hparts
      cases hlsb
      exact hdown b w rfl
    · simp only [not_exists] at hd
      exact h.selected.position hd h.inside hparts

/-- Vectors `a[15:0]`, `i[2:0]` and `j[2:0]`, and a signed vector `p[3:0]`. -/
def selectSignals : SignalTable := .vectors [("a", 16, false), ("i", 3, false), ("j", 3, false), ("p", 4, true)]

/-- `a` is 5, `i` is 7, `j` is 2 and `p` is -3. -/
def selectValues : Store selectSignals :=
  .ofBits selectSignals (fun n => if n = "a" then 5 else if n = "i" then 7 else if n = "j" then 2 else 13) fun _ => 0

/-- A scope without arrays. -/
def plainScope : DeclScope where
  arrays _ := false
  decls _ := none
  arrays_of_decls _ _ h := by cases h

theorem constIndex_selectValues (n : Nat) : ConstIndex selectValues (indexLiteral n) n :=
  constIndex_indexLiteral selectValues (Int.natCast_nonneg n)

theorem constWidth_selectValues (n : Nat) : ConstWidth selectValues (indexLiteral n) n :=
  ⟨rfl, indexValue n, evalRequest_indexLiteral n, isDefined_iff.mpr (indexValue_mask n), indexValue_val n⟩

theorem vectorLeaf_selectSignals (t : Expr) : VectorLeaf selectSignals t := fun _ _ _ => ⟨rfl, rfl⟩

/-- `a[7:4][2:1]`. -/
theorem inside_range : Inside selectValues
    (.rangeSelect (.rangeSelect (.ident [] "a") (indexLiteral 7) (indexLiteral 4)) (indexLiteral 2) (indexLiteral 1))
    (.rangeSelect (.ident [] "a") (indexLiteral 7) (indexLiteral 4)) 2 (some 1) (ofInt 0 4) where
  selected := .range (constIndex_selectValues 2) (constIndex_selectValues 1)
  value := rfl
  leaf := vectorLeaf_selectSignals _
  sized := Or.inl rfl
  slice _ _ _ h := by
    cases h
    exact ⟨7, 4, constIndex_selectValues 7, constIndex_selectValues 4, by decide, by decide⟩
  width_le := by decide
  inside _ h := by
    cases h
    decide

/-- `~a`, and `(~a)[(i + j) -: 2]`. -/
def inverted : Expr := .unary .bitNot (.ident [] "a")

def wrappedBase : Expr :=
  .partSelect inverted (.binary .add (.ident [] "i") (.ident [] "j")) (indexLiteral 2) .down

/-- `a[2:3]`, and its bit 0. -/
def ascendingSlice : Expr := .rangeSelect (.ident [] "a") (indexLiteral 2) (indexLiteral 3)

def ascendingBit : Expr := .bitSelect ascendingSlice (indexLiteral 0)

/-- `p >>> 3`, and its bit 1. -/
def shifted : Expr := .binary .ashr (.ident [] "p") (indexLiteral 3)

def shiftedSign : Expr := .bitSelect shifted (indexLiteral 1)

theorem inside_wrappedBase : Inside selectValues wrappedBase inverted 2 (some 0) (ofInt 65530 16) where
  selected := by
    have hbase : evalRequest selectValues (.binary .add (.ident [] "i") (.ident [] "j")) (.context 0 none)
        = some (ofInt 1 3) := rfl
    have hlow : partBase selectSignals (.binary .add (.ident [] "i") (.ident [] "j")) (ofInt 1 3) = some 1 := rfl
    exact .part hbase (by decide) hlow (constWidth_selectValues 2) (by decide)
  value := rfl
  leaf := vectorLeaf_selectSignals _
  sized := Or.inr (by
    simp only [inverted, AllAt]
    exact ⟨⟨rfl, rfl⟩, rfl, rfl⟩)
  slice _ _ _ h := by cases h
  width_le := by decide
  inside _ h := by
    cases h
    decide

theorem inside_ascendingBit : Inside selectValues ascendingBit ascendingSlice 1 (some 0) (ofInt 1 2) where
  selected := selected_bit_indexLiteral _ (by decide)
  value := rfl
  leaf := vectorLeaf_selectSignals _
  sized := Or.inl rfl
  slice _ _ _ h := by
    cases h
    exact ⟨2, 3, constIndex_selectValues 2, constIndex_selectValues 3, by decide, by decide⟩
  width_le := by decide
  inside _ h := by
    cases h
    decide

theorem inside_shiftedSign : Inside selectValues shiftedSign shifted 1 (some 1) (ofInt 15 4) where
  selected := selected_bit_indexLiteral _ (by decide)
  value := rfl
  leaf := vectorLeaf_selectSignals _
  sized := Or.inr (by
    simp only [shifted, indexLiteral, AllAt]
    exact ⟨⟨rfl, rfl⟩, ⟨rfl, rfl⟩, rfl, rfl⟩)
  slice _ _ _ h := by cases h
  width_le := by decide
  inside _ h := by
    cases h
    decide

end Emit

end Veriforge

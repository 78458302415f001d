import Veriforge.Emit.Cast
import Veriforge.Exec.Executor
import Veriforge.Lower.Targets
import Veriforge.Lower.Widths
import Veriforge.Sim.ScopeWidth

/-! # Assignments to streaming concatenations

`lower_streaming_targets` (`sim/sv_functions.py`) on a blocking assignment: the source is cut into slices from its least
significant end, and a plain concatenation of the targets is given the slices in reverse order. `lower_ascending_ranges`
runs afterwards, over the slices too. -/

namespace Veriforge

namespace Lower

open Value Emit

/-! ## The pass -/

/-- The decimal digits of a number. -/
def decimalDigits (n : Nat) : List Digit :=
  if h : n < 10 then [.num ⟨n, by omega⟩] else decimalDigits (n / 10) ++ [.num ⟨n % 10, by omega⟩]

/-- `lit`. -/
def lit (value : Nat) : Expr :=
  .literal ⟨.int value, some 32, false, false, false, .based (some 32) false .dec (decimalDigits value)⟩

/-- The bounds `hi:lo` of the slices of `t` bits from bit `lo` on. -/
def sliceBounds (n t lo : Nat) : List (Nat × Nat) :=
  if h : n ≠ 0 ∧ lo < t then (min (lo + n) t - 1, lo) :: sliceBounds n t (min (lo + n) t - 1 + 1) else []
  termination_by t - lo
  decreasing_by omega

/-- `tmp[hi:lo]` for every slice. -/
def slices (tmp : String) (n t : Nat) : List Expr :=
  (sliceBounds n t 0).map fun b => .rangeSelect (.ident [] tmp) (lit b.1) (lit b.2)

/-- A target `{<<slice{parts}}`, or `{<<{parts}}`. -/
def stream (slice : Option Expr) (parts : List Expr) : Expr :=
  match slice with
  | some s => .streamingBy s parts
  | none => .streaming parts

section

variable (env : String → Option Int) (decls : String → Option Declared)

/-- The assignments `{<<slice{parts}} = rhs` becomes; raises when the source is too narrow or the slice size is not a
positive constant. -/
def lowerStream (tmp : String) (slice : Option Expr) (parts : List Expr) (rhs : Expr) : Option (List Assignment) := do
  let t := (parts.map (operandWidth env decls)).sum
  let w := operandWidth env decls rhs
  if w < t then none
  else
    let src := if w = t then rhs else .binary .shr rhs (lit (w - t).toNat)
    let n ← slice.elim (some 1) (Const.evalConst env)
    if n ≤ 0 then none
    else
      match src with
      | .ident [] name => return [⟨.concat false parts, .concat false (slices name n.toNat t.toNat)⟩]
      | src => return [⟨.ident [] tmp, src⟩, ⟨.concat false parts, .concat false (slices tmp n.toNat t.toNat)⟩]

end

/-! ## Running it -/

variable {T : SignalTable}

/-- What `_write_target` takes an expression for. -/
def Target.ofExpr (T : SignalTable) : Expr → Option Target
  | .ident h n => some ⟨.vector h n, .whole⟩
  | .bitSelect (.ident h n) i =>
      some (if T.isMemory (identifierName h n) then ⟨.word h n i, .whole⟩ else ⟨.vector h n, .bit i⟩)
  | .bitSelect (.bitSelect (.ident h n) i) j => some ⟨.word h n i, .bit j⟩
  | .rangeSelect (.ident h n) m l => some ⟨.vector h n, .range m l⟩
  | .rangeSelect (.bitSelect (.ident h n) i) m l => some ⟨.word h n i, .range m l⟩
  | .partSelect (.ident h n) b w d => some ⟨.vector h n, .part b w d⟩
  | .partSelect (.bitSelect (.ident h n) i) b w d => some ⟨.word h n i, .part b w d⟩
  | _ => none

/-- `execute` of a blocking assignment. -/
def execBlocking (st : Store T) (a : Assignment) : Option (Store T) :=
  match a.lhs with
  | .concat _ parts => do
      let ts ← parts.mapM (Target.ofExpr T)
      let w ← lhsWidths st ts
      let v ← evalRequest st a.rhs (.context w.toNat none)
      writeTargets v ts w st
  | lhs => do
      let t ← Target.ofExpr T lhs
      let w ← t.lhsWidth st
      let v ← evalRequest st a.rhs (.context w.toNat none)
      t.write st v

/-- The assignments one after the other, their constant ranges remapped. -/
def execLowered (asc : String → Option (Int × Int × Int)) (as : List Assignment) (st : Store T) : Option (Store T) :=
  as.foldlM (fun st a => execBlocking st ⟨Ascending.lower asc a.lhs, Ascending.lower asc a.rhs⟩) st

/-! ## Literals -/

theorem decimalInt_decimalDigits (n : Nat) : Literal.decimalInt (decimalDigits n) = some n := by
  induction n using Nat.strong_induction_on with
  | _ n ih =>
    rw [decimalDigits]
    split
    · next h =>
      show some (10 * 0 + n) = some n
      rw [Nat.mul_zero, Nat.zero_add]
    · next h =>
      have hprev := ih (n / 10) (by omega)
      rw [Literal.decimalInt] at hprev ⊢
      rw [List.foldl_append, hprev]
      show some (10 * (n / 10) + n % 10) = some n
      rw [Nat.div_add_mod]

theorem isXz_decimalDigits (n : Nat) : (decimalDigits n).any Digit.isXz = false := by
  induction n using Nat.strong_induction_on with
  | _ n ih =>
    rw [decimalDigits]
    split
    · rfl
    · next h =>
      rw [List.any_append, ih (n / 10) (by omega)]
      rfl

theorem evalRequest_lit (st : Store T) (k : Nat) : evalRequest st (lit k) (.context 0 none) = some (ofInt k 32) := by
  rw [lit, evalRequest, Request.width_context, if_neg (Nat.not_lt_zero _), Literal.evalLiteral, Literal.fromVerilog]
  dsimp only
  rw [isXz_decimalDigits, decimalInt_decimalDigits]
  rfl

theorem val_lit {k : Nat} (hk : k < 2 ^ 32) : (ofInt (k : Int) 32).val = k := by
  rw [ofInt_natCast_val, Nat.mod_eq_of_lt hk]

/-- A literal the pass writes, as an index. -/
theorem indexInt_lit {k : Nat} (hk : k < 2 ^ 32) (again : Option Value) :
    indexInt T (lit k) (ofInt k 32) again = some (k : Int) := by
  show some ((ofInt (k : Int) 32).val : Int) = _
  rw [val_lit hk]

theorem isDefined_ofInt (n : Int) (w : Nat) : (ofInt n w).isDefined = true := isDefined_iff.mpr (ofInt_mask n w)

/-- A literal `lower_ascending_ranges` writes, as an index. -/
theorem exists_indexLiteral (st : Store T) {p : Int} (hp : -2 ^ 31 ≤ p) :
    ∃ v : Value, evalRequest st (Ascending.indexLiteral p) (.context 0 none) = some v ∧ v.isDefined = true ∧
      ∀ again, indexInt T (Ascending.indexLiteral p) v again = some p := by
  rcases Int.lt_or_le p 0 with h | h
  · have hfits : Fits true 32 p := by
      rw [fits_true]
      omega
    have hvalue : ofInt (p % 2 ^ 32) 32 = ofInt p 32 := ofInt_congr (Int.emod_emod_of_dvd p dvd_rfl)
    refine ⟨ofInt (p % 2 ^ 32) 32, ?_, isDefined_ofInt _ _, fun again => ?_⟩
    · rw [Ascending.indexLiteral, if_neg (by omega), evalRequest, Request.width_context, if_neg (Nat.not_lt_zero _)]
      rfl
    · show (ofInt (p % 2 ^ 32) 32).asSigned = some p
      rw [hvalue, asSigned_ofInt (by decide) hfits]
  · obtain ⟨k, rfl⟩ := Int.eq_ofNat_of_zero_le h
    have hindex := isIndex_ascending (T := T) k
    exact ⟨_, hindex.eval st, isDefined_iff.mpr (indexValue_mask k), hindex.int⟩

/-! ## Slices -/

theorem selfWidth_slice (e : Expr) (hi lo : Nat) : selfWidth T (.rangeSelect e (lit hi) (lit lo)) ≤ hi + 1 - lo := by
  rw [lit, lit, selfWidth]
  show ((hi : Int) - lo + 1).toNat ≤ _
  omega

/-- A slice of an expression numbered from 0. -/
theorem eval_slice (st : Store T) {e : Expr} {u : Value} (hu : evalRequest st e (.context 0 none) = some u)
    (hbase : selectBase T e = 0) {hi lo : Nat} (hlo : lo ≤ hi) (hhi : hi < 2 ^ 32) :
    evalRequest st (.rangeSelect e (lit hi) (lit lo))
        (.context (selfWidth T (.rangeSelect e (lit hi) (lit lo))) none) = some (u.getRange hi lo) := by
  have hwidth : hi + 1 - lo ≤ (u.getRange (hi : Int) lo).width := by
    rw [getRange_width, orderBounds_of_le (by omega)]
    dsimp only
    omega
  rw [evalRequest, hu, evalRequest_lit, evalRequest_lit]
  simp only [Option.bind_eq_bind, Option.bind_some]
  rw [selectRange, if_pos ⟨isDefined_ofInt _ _, isDefined_ofInt _ _⟩, indexInt_lit hhi, indexInt_lit (by omega), hbase]
  show widen false (u.getRange ((hi : Int) - 0) ((lo : Int) - 0)) _ = _
  rw [Int.sub_zero, Int.sub_zero]
  exact widen_of_le (le_trans (selfWidth_slice (T := T) e hi lo) hwidth)

theorem evalParts_map {α : Type*} {st : Store T} {as : List α} {f : α → Expr} {g : α → Value}
    (h : ∀ a ∈ as, evalRequest st (f a) (.context (selfWidth T (f a)) none) = some (g a)) :
    evalParts st (as.map f) = some (as.map g) := by
  induction as with
  | nil => rfl
  | cons a as ih =>
    rw [List.forall_mem_cons] at h
    rw [List.map_cons, evalParts, h.1, ih h.2]
    rfl

theorem mem_sliceBounds {n t lo : Nat} {b : Nat × Nat} (h : b ∈ sliceBounds n t lo) :
    lo ≤ b.2 ∧ b.2 ≤ b.1 ∧ b.1 < t ∧ b.1 < b.2 + n := by
  induction lo using sliceBounds.induct n t with
  | case1 lo hlo ih =>
    rw [sliceBounds, dif_pos hlo] at h
    rcases List.mem_cons.mp h with rfl | h
    · dsimp only
      omega
    · have := ih h
      omega
  | case2 lo hlo =>
    rw [sliceBounds, dif_neg hlo] at h
    cases h

/-- The slices, put together, are the chunks from the back. -/
theorem flatten_sliceBounds {n t : Nat} (hn : n ≠ 0) {u : Value} (ht : t ≤ u.width) {lo : Nat} (hlo : lo ≤ t) :
    ((sliceBounds n t lo).map fun b => (u.getRange b.1 b.2).bits).flatten = unpackChunks n (u.segment lo t) := by
  induction lo using sliceBounds.induct n t with
  | case1 lo hlt ih =>
    have hlen : (u.segment lo t).length = t - lo := segment_length u lo t
    have hslice := bits_getRange (v := u) (show lo ≤ min (lo + n) t - 1 by omega) (by omega)
    rw [sliceBounds, dif_pos hlt, List.map_cons, List.flatten_cons, ih (by omega), hslice]
    by_cases hle : t ≤ lo + n
    · rw [show min (lo + n) t - 1 + 1 = t by omega, segment_self, unpackChunks_of_le (Nat.zero_le n), List.append_nil,
        unpackChunks_of_le (by omega)]
    · have hsplit := segment_append u (show lo ≤ lo + n by omega) (show lo + n ≤ t by omega)
      have htail : (u.segment lo t).length - n = (u.segment (lo + n) t).length := by
        rw [hlen, segment_length]
        omega
      rw [show min (lo + n) t - 1 + 1 = lo + n by omega, unpackChunks_of_lt (l := u.segment lo t) (by omega) (by omega),
        htail, ← hsplit, List.drop_left, List.take_left]
  | case2 lo hge =>
    obtain rfl : lo = t := by omega
    rw [sliceBounds, dif_neg hge, segment_self, unpackChunks_of_le (Nat.zero_le n)]
    rfl

theorem sliceBounds_ne_nil {n t lo : Nat} (hn : n ≠ 0) (hlo : lo < t) : sliceBounds n t lo ≠ [] := by
  rw [sliceBounds, dif_pos ⟨hn, hlo⟩]
  exact List.cons_ne_nil _ _

/-- What a concatenation of parts evaluates to, in a context no wider than it. -/
theorem eval_concat {st : Store T} {es : List Expr} {vs : List Value} (hne : es ≠ []) (hvs : evalParts st es = some vs)
    {k : Nat} (hk : k ≤ (concatValues vs).width) :
    evalRequest st (.concat false es) (.context k none) = some (concatValues vs) := by
  rw [evalRequest, hvs]
  show (if es.isEmpty then _ else _) = _
  rw [if_neg (by rwa [List.isEmpty_iff])]
  exact widen_of_le hk

/-- The slices of a vector numbered from 0, put together. -/
theorem exists_eval_slices {st : Store T} {name : String} {n t : Nat} (hw : T.width name = some t)
    (hbase : T.signalBase name = 0) (hn : n ≠ 0) (ht : 0 < t) (hle : t ≤ 2 ^ 32) :
    ∃ v, evalRequest st (.concat false (slices name n t)) (.context t none) = some v ∧
      v.bits = unpackChunks n (st.signal name).bits := by
  have hwidth := st.signal_width name t hw
  have hparts : evalParts st (slices name n t) =
      some ((sliceBounds n t 0).map fun b => (st.signal name).getRange b.1 b.2) := by
    refine evalParts_map fun b hb => ?_
    have hbounds := mem_sliceBounds hb
    exact eval_slice st (evalRequest_vector st (h := []) hw (Nat.zero_le t)) hbase (by omega) (by omega)
  have hbits : (concatValues ((sliceBounds n t 0).map fun b => (st.signal name).getRange b.1 b.2)).bits =
      unpackChunks n (st.signal name).bits := by
    rw [bits_concatValues, List.map_map, bits, hwidth, ← flatten_sliceBounds hn hwidth.ge (Nat.zero_le t)]
    rfl
  refine ⟨_, eval_concat ?_ hparts ?_, hbits⟩
  · rw [slices]
    exact fun h => sliceBounds_ne_nil hn ht (List.map_eq_nil_iff.mp h)
  · rw [← bits_length, hbits, (perm_unpackChunks n _).length_eq, bits_length, hwidth]

/-! ## Slices whose bounds are remapped -/

/-- Where the pass over the ranges puts bit `k` of a `[left:right]` vector. -/
def bitPosition (left right : Int) (k : Nat) : Int := if left < right then right - k else k - right

section

variable {asc : String → Option (Int × Int × Int)} {name : String}

theorem lower_slice_kept (h : asc name = none) (hi lo : Nat) :
    Ascending.lower asc (.rangeSelect (.ident [] name) (lit hi) (lit lo)) =
      .rangeSelect (.ident [] name) (lit hi) (lit lo) := by
  have hinfo : Ascending.targetInfo asc (.ident [] name) = none := by
    show (asc name).bind _ = none
    rw [h]
    rfl
  show Ascending.lowerNode asc (.rangeSelect (.ident [] name) (lit hi) (lit lo)) = _
  rw [Ascending.lowerNode, hinfo]

theorem position_lit (left right : Int) (k : Nat) :
    Ascending.position left right (lit k) = Ascending.indexLiteral (bitPosition left right k) := by
  have hconst : Ascending.constIndex (lit k) = some (k : Int) := by
    show Emit.constInt (lit k) = _
    rw [Emit.constInt, lit, Const.evalConst, Const.constLiteral]
    simp
  rw [Ascending.position, bitPosition, Ascending.flip, Ascending.offset, hconst]
  split <;> rfl

theorem lower_slice_moved {left right : Int} (h : asc name = some (left, right, 0)) (hi lo : Nat) :
    Ascending.lower asc (.rangeSelect (.ident [] name) (lit hi) (lit lo)) =
      .rangeSelect (.ident [] name) (Ascending.indexLiteral (bitPosition left right hi))
        (Ascending.indexLiteral (bitPosition left right lo)) := by
  have hinfo : Ascending.targetInfo asc (.ident [] name) = some (left, right) := by
    show (asc name).bind _ = _
    rw [h]
    rfl
  show Ascending.lowerNode asc (.rangeSelect (.ident [] name) (lit hi) (lit lo)) = _
  rw [Ascending.lowerNode, hinfo]
  dsimp only
  rw [position_lit, position_lit]

theorem lower_concat (es : List Expr) :
    Ascending.lower asc (.concat false es) = .concat false (es.map (Ascending.lower asc)) := by
  rw [Ascending.lower, Ascending.lowerList_eq_map]

theorem lower_slices_kept (h : asc name = none) (n t : Nat) :
    Ascending.lower asc (.concat false (slices name n t)) = .concat false (slices name n t) := by
  rw [lower_concat, slices, List.map_map]
  congr 1
  exact List.map_congr_left fun b _ => lower_slice_kept h b.1 b.2

end

theorem selfWidth_moved (e : Expr) (m l : Int) :
    selfWidth T (.rangeSelect e (Ascending.indexLiteral m) (Ascending.indexLiteral l)) =
      (m % 2 ^ 32 - l % 2 ^ 32 + 1).toNat := by
  rw [Ascending.indexLiteral, Ascending.indexLiteral, selfWidth]
  rfl

/-- A remapped slice has the bits at its positions, above them known zeros if it is wider. -/
theorem exists_eval_moved (st : Store T) {e : Expr} {u : Value} (hu : evalRequest st e (.context 0 none) = some u)
    (hbase : selectBase T e = 0) {m l : Int} (hm : -2 ^ 31 ≤ m) (hl : -2 ^ 31 ≤ l) :
    ∃ v, evalRequest st (.rangeSelect e (Ascending.indexLiteral m) (Ascending.indexLiteral l))
        (.context (selfWidth T (.rangeSelect e (Ascending.indexLiteral m) (Ascending.indexLiteral l))) none) = some v ∧
      v.width = max ((m - l).natAbs + 1) (m % 2 ^ 32 - l % 2 ^ 32 + 1).toNat ∧
      ∀ i < (m - l).natAbs + 1, v.bit i = u.bitAt (min m l + i) := by
  obtain ⟨vm, hvm, hdm, hintm⟩ := exists_indexLiteral st hm
  obtain ⟨vl, hvl, hdl, hintl⟩ := exists_indexLiteral st hl
  have hwidth : (u.selected (some (min m l)) ((m - l).natAbs + 1)).width = (m - l).natAbs + 1 :=
    selected_width u _ (Nat.succ_pos _)
  obtain ⟨v, hv, hle, hbit⟩ := exists_widen_false (u.selected (some (min m l)) ((m - l).natAbs + 1))
    (m % 2 ^ 32 - l % 2 ^ 32 + 1).toNat
  refine ⟨v, ?_, ?_, fun i hi => ?_⟩
  · rw [selfWidth_moved, evalRequest, hu, hvm, hvl]
    simp only [Option.bind_eq_bind, Option.bind_some]
    rw [selectRange, if_pos ⟨hdm, hdl⟩, hintm, hintl, hbase]
    show widen false (u.getRange (m - 0) (l - 0)) _ = _
    rw [Int.sub_zero, Int.sub_zero, getRange_eq_selected]
    exact hv
  · rw [widen] at hv
    split at hv
    · next h =>
      obtain rfl := Option.some.inj hv
      rw [resize_width]
      omega
    · next h =>
      obtain rfl := Option.some.inj hv
      omega
  · rw [hbit, bit_selected u _ hi]
    rfl

theorem exists_evalParts_of {α : Type*} {st : Store T} {as : List α} {f : α → Expr} {Q : α → Value → Prop}
    (h : ∀ a ∈ as, ∃ v, evalRequest st (f a) (.context (selfWidth T (f a)) none) = some v ∧ Q a v) :
    ∃ vs, evalParts st (as.map f) = some vs ∧ List.Forall₂ Q as vs := by
  induction as with
  | nil => exact ⟨[], rfl, .nil⟩
  | cons a as ih =>
    rw [List.forall_mem_cons] at h
    obtain ⟨v, hv, hq⟩ := h.1
    obtain ⟨vs, hvs, hqs⟩ := ih h.2
    refine ⟨v :: vs, ?_, .cons hq hqs⟩
    rw [List.map_cons, evalParts, hv, hvs]
    rfl

/-- Every bit is in a slice. -/
theorem exists_mem_sliceBounds {n t lo k : Nat} (hn : n ≠ 0) (hlo : lo ≤ k) (hk : k < t) :
    ∃ b ∈ sliceBounds n t lo, b.2 ≤ k ∧ k ≤ b.1 := by
  induction lo using sliceBounds.induct n t with
  | case1 lo hlt ih =>
    rw [sliceBounds, dif_pos hlt]
    by_cases hin : k ≤ min (lo + n) t - 1
    · exact ⟨_, List.mem_cons_self, hlo, hin⟩
    · obtain ⟨b, hb, hbk⟩ := ih (by omega)
      exact ⟨b, List.mem_cons_of_mem _ hb, hbk⟩
  | case2 lo hge => omega

theorem sum_sliceBounds {n t lo : Nat} (hn : n ≠ 0) (hlo : lo ≤ t) :
    ((sliceBounds n t lo).map fun b => b.1 + 1 - b.2).sum = t - lo := by
  induction lo using sliceBounds.induct n t with
  | case1 lo hlt ih =>
    rw [sliceBounds, dif_pos hlt, List.map_cons, List.sum_cons, ih (by omega)]
    omega
  | case2 lo hge =>
    rw [sliceBounds, dif_neg hge]
    show 0 = _
    omega

theorem mem_bits {v : Value} {i : Nat} (hi : i < v.width) : v.bit i ∈ v.bits := by
  rw [bits, Value.segment]
  exact List.mem_map_of_mem (by rw [List.mem_reverse, List.mem_range'_1]; omega)

theorem segment_zero_of_width {v : Value} {t : Nat} (h : v.width = t) : v.segment 0 t = v.bits := by rw [bits, h]

section

variable {asc : String → Option (Int × Int × Int)} {name : String} {n t : Nat} {left right : Int}

/-- The remapped slices of a vector with bounds from `-2 ^ 31`. -/
theorem exists_moved_slices (st : Store T) (hasc : asc name = some (left, right, 0)) (hw : T.width name = some t)
    (hbase : T.signalBase name = 0) (ht : (left - right).natAbs + 1 = t) (hleft : -2 ^ 31 ≤ left)
    (hright : -2 ^ 31 ≤ right ∧ right < 2 ^ 31) :
    ∃ vs, evalParts st ((slices name n t).map (Ascending.lower asc)) = some vs ∧
      List.Forall₂ (fun (b : Nat × Nat) (v : Value) => (b.2 ≤ b.1 ∧ b.1 < t) ∧ b.1 + 1 - b.2 ≤ v.width ∧
        (¬ (left < right ∧ left < 0) → v.width = b.1 + 1 - b.2) ∧
        ∀ i < b.1 + 1 - b.2, v.bit i =
          (st.signal name).bitAt (min (bitPosition left right b.1) (bitPosition left right b.2) + i))
        (sliceBounds n t 0) vs := by
  rw [slices, List.map_map]
  refine exists_evalParts_of fun b hb => ?_
  have hb := mem_sliceBounds hb
  rw [Function.comp_apply, lower_slice_moved hasc]
  have hdist : (bitPosition left right b.1 - bitPosition left right b.2).natAbs + 1 = b.1 + 1 - b.2 := by
    rw [bitPosition, bitPosition]
    split <;> omega
  obtain ⟨v, hv, hvw, hbit⟩ := exists_eval_moved st (evalRequest_vector st (h := []) hw (Nat.zero_le t)) hbase
    (m := bitPosition left right b.1) (l := bitPosition left right b.2)
    (by rw [bitPosition]; split <;> omega) (by rw [bitPosition]; split <;> omega)
  rw [hdist] at hvw hbit
  refine ⟨v, hv, hb.2.imp id And.left, by omega, fun hexact => ?_, hbit⟩
  rw [hvw, max_eq_left]
  by_cases hlt : left < right
  · -- both bounds are positions of the vector
    rw [bitPosition, bitPosition, if_pos hlt, if_pos hlt, Int.emod_eq_of_lt (by omega) (by omega),
      Int.emod_eq_of_lt (by omega) (by omega)]
    omega
  · rw [bitPosition, bitPosition, if_neg hlt, if_neg hlt]
    omega

/-- The last slice ends at the last bit. -/
theorem exists_last_slice (hn : n ≠ 0) {lo : Nat} (hlo : lo < t) :
    ∃ init last, last < t ∧ sliceBounds n t lo = init ++ [(t - 1, last)] := by
  induction lo using sliceBounds.induct n t with
  | case1 lo hlt ih =>
    rw [sliceBounds, dif_pos hlt]
    by_cases hmore : min (lo + n) t - 1 + 1 < t
    · obtain ⟨init, last, hlast, heq⟩ := ih hmore
      exact ⟨(min (lo + n) t - 1, lo) :: init, last, hlast, by rw [heq]; rfl⟩
    · refine ⟨[], lo, hlt.2, ?_⟩
      rw [sliceBounds, dif_neg fun h => hmore h.2, show min (lo + n) t - 1 = t - 1 by omega]
      rfl
  | case2 lo hge => exact absurd ⟨hn, hlo⟩ hge

theorem exists_of_forall₂ {α β : Type*} {Q : α → β → Prop} {as : List α} {bs : List β} (h : List.Forall₂ Q as bs)
    {a : α} (ha : a ∈ as) : ∃ b ∈ bs, Q a b := by
  induction h with
  | nil => cases ha
  | cons hq _ ih =>
    rcases List.mem_cons.mp ha with rfl | ha
    · exact ⟨_, List.mem_cons_self, hq⟩
    · obtain ⟨b, hb, hqb⟩ := ih ha
      exact ⟨b, List.mem_cons_of_mem _ hb, hqb⟩

theorem exists_last_of_forall₂ {α β : Type*} {Q : α → β → Prop} {as : List α} {a : α} {bs : List β}
    (h : List.Forall₂ Q (as ++ [a]) bs) : ∃ cs b, bs = cs ++ [b] ∧ Q a b := by
  induction as generalizing bs with
  | nil =>
    cases h with
    | @cons _ b _ bs hb hbs =>
      cases hbs
      exact ⟨[], b, rfl, hb⟩
  | cons a' as ih =>
    cases h with
    | @cons _ b' _ bs _ hbs =>
      obtain ⟨cs, b, rfl, hb⟩ := ih hbs
      exact ⟨b' :: cs, b, rfl, hb⟩

/-- From bit 0 on the remapped slices are the vector's bits in their own order. -/
theorem flatten_reversed {u : Value} {vs : List Value} {lo : Nat} (hlo : lo ≤ t) (ht : t ≤ u.width)
    (h : List.Forall₂ (fun (b : Nat × Nat) (v : Value) => v.bits = u.segment (t - 1 - b.1) (t - b.2)) (sliceBounds n t lo)
      vs) (hn : n ≠ 0) : (vs.map bits).flatten = u.segment 0 (t - lo) := by
  induction lo using sliceBounds.induct n t generalizing vs with
  | case1 lo hlt ih =>
    rw [sliceBounds, dif_pos hlt] at h
    cases h with
    | @cons _ v _ vs hv hvs =>
      rw [List.map_cons, List.flatten_cons, hv, ih (by omega) hvs]
      have hmid : t - (min (lo + n) t - 1 + 1) = t - 1 - (min (lo + n) t - 1) := by omega
      rw [hmid]
      exact segment_append u (Nat.zero_le _) (by dsimp only; omega)
  | case2 lo hge =>
    obtain rfl : lo = t := by omega
    rw [sliceBounds, dif_neg hge] at h
    cases h
    rw [Nat.sub_self, segment_self]
    rfl

/-- What the remapped slices of a vector that is not `[t-1:0]` are: its bits, undisturbed, if it is `[0:t-1]`, and
else some unknown bit. -/
theorem exists_eval_moved_slices (st : Store T) (hasc : asc name = some (left, right, 0))
    (hmoved : left < right ∨ right ≠ 0) (hw : T.width name = some t) (hbase : T.signalBase name = 0)
    (ht : (left - right).natAbs + 1 = t) (hleft : -2 ^ 31 ≤ left) (hright : -2 ^ 31 ≤ right ∧ right < 2 ^ 31)
    (hn : n ≠ 0) :
    ∃ v, evalRequest st (Ascending.lower asc (.concat false (slices name n t))) (.context t none) = some v ∧
      t ≤ v.width ∧ if left = 0 ∧ 0 < right then v.bits = (st.signal name).bits else none ∈ v.segment 0 t := by
  obtain ⟨vs, hvs, hall⟩ := exists_moved_slices (n := n) st hasc hw hbase ht hleft hright
  have hu := st.signal_width name t hw
  have hsum : t ≤ (concatValues vs).width := by
    rw [concatValues_width]
    calc t = ((sliceBounds n t 0).map fun b => b.1 + 1 - b.2).sum := (sum_sliceBounds hn (Nat.zero_le t)).symm
      _ ≤ (vs.map width).sum := by
        clear hvs
        generalize sliceBounds n t 0 = bs at hall ⊢
        induction hall with
        | nil => exact le_rfl
        | cons hb _ ih =>
          rw [List.map_cons, List.map_cons, List.sum_cons, List.sum_cons]
          exact Nat.add_le_add hb.2.1 ih
  refine ⟨concatValues vs, ?_, hsum, ?_⟩
  · rw [lower_concat]
    refine eval_concat ?_ hvs hsum
    rw [slices, List.map_map]
    exact fun h => sliceBounds_ne_nil hn (by omega) (List.map_eq_nil_iff.mp h)
  · by_cases hneg : left < right ∧ left < 0
    · -- the last slice starts below the vector
      rw [if_neg (by omega)]
      obtain ⟨init, last, hlast, hbounds⟩ := exists_last_slice hn (show 0 < t by omega)
      rw [hbounds] at hall
      obtain ⟨us, v, rfl, hv⟩ := exists_last_of_forall₂ hall
      have hlow : (concatValues (us ++ [v])).bit 0 = none := by
        have hlastbit := Scope.bit_concatValues
          (show (us ++ [v])[us.length]? = some v by rw [List.getElem?_append_right le_rfl, Nat.sub_self]; rfl)
          (show 0 < v.width from lt_of_lt_of_le (by dsimp only; omega) hv.2.1)
        rw [List.drop_eq_nil_of_le (by rw [List.length_append]; rfl)] at hlastbit
        refine hlastbit.trans ((hv.2.2.2 0 (by dsimp only; omega)).trans ?_)
        rw [bitAt, if_neg]
        dsimp only
        rw [bitPosition, bitPosition, if_pos hneg.1, if_pos hneg.1]
        omega
      rw [← hlow, Value.segment]
      exact List.mem_map_of_mem (by rw [List.mem_reverse, List.mem_range'_1]; omega)
    · -- the slices have their own widths
      have hexact : (concatValues vs).width = t := by
        rw [concatValues_width, ← Nat.sub_zero t, ← sum_sliceBounds hn (Nat.zero_le t)]
        clear hvs hsum
        generalize sliceBounds n t 0 = bs at hall ⊢
        induction hall with
        | nil => rfl
        | cons hb _ ih => rw [List.map_cons, List.map_cons, List.sum_cons, List.sum_cons, hb.2.2.1 hneg, ih]
      by_cases hzero : left = 0 ∧ 0 < right
      · rw [if_pos hzero, bits_concatValues, flatten_reversed (n := n) (Nat.zero_le t) hu.ge ?_ hn, Nat.sub_zero, bits, hu]
        refine hall.imp fun b v hv => ?_
        -- the positions run down from the last one
        have hlow : min (bitPosition left right b.1) (bitPosition left right b.2) = ((t - 1 - b.1 : Nat) : Int) := by
          rw [bitPosition, bitPosition, if_pos (by omega), if_pos (by omega)]
          omega
        have hbit : ∀ i, 0 ≤ i → i < v.width → v.bit i = (st.signal name).bit (i + (t - 1 - b.1)) := by
          intro i _ hi
          rw [hv.2.2.2 i (by have := hv.2.2.1 hneg; omega), hlow, bitAt, if_pos (by omega), Nat.add_comm,
            ← Nat.cast_add, Int.toNat_natCast]
        rw [bits, segment_congr hbit, Nat.zero_add, hv.2.2.1 hneg]
        congr 1
        omega
      · rw [if_neg hzero, segment_zero_of_width hexact, bits_concatValues]
        -- a bit whose position is not in the vector
        obtain ⟨k, hk, hout⟩ : ∃ k < t, (st.signal name).bitAt (bitPosition left right k) = none := by
          by_cases hlt : left < right
          · refine ⟨0, by omega, ?_⟩
            rw [bitAt, bitPosition, if_pos hlt, if_neg (by omega)]
          · by_cases hpos : 0 < right
            · refine ⟨0, by omega, ?_⟩
              rw [bitAt, bitPosition, if_neg hlt, if_neg (by omega)]
            · refine ⟨t - 1, by omega, ?_⟩
              rw [bitAt, bitPosition, if_neg hlt, if_neg (by omega)]
        obtain ⟨b, hb, hbk⟩ := exists_mem_sliceBounds hn (Nat.zero_le k) hk
        obtain ⟨v, hv, hbounds, hvw, hvx, hbit⟩ := exists_of_forall₂ hall hb
        rw [List.mem_flatten]
        refine ⟨v.bits, List.mem_map_of_mem hv, ?_⟩
        have hk' : (bitPosition left right k -
            min (bitPosition left right b.1) (bitPosition left right b.2)).toNat < b.1 + 1 - b.2 := by
          rw [bitPosition, bitPosition, bitPosition]
          split <;> omega
        have hpos : min (bitPosition left right b.1) (bitPosition left right b.2) + ((bitPosition left right k -
            min (bitPosition left right b.1) (bitPosition left right b.2)).toNat : Int) = bitPosition left right k := by
          rw [bitPosition, bitPosition, bitPosition]
          split <;> omega
        have hmem := mem_bits (v := v) (lt_of_lt_of_le hk' hvw)
        rw [hbit _ hk', hpos, hout] at hmem
        exact hmem

end

/-! ## Unpacking and packing again -/

/-- Everything the assignment `{<<slice{parts}} = rhs` depends on: what the passes know, where the targets are in the
stores of the run (`holds`, which no write of theirs leaves), and the source, `width` bits that can be anything. -/
structure Unpacking (T : SignalTable) where
  env : String → Option Int
  decls : String → Option Declared
  asc : String → Option (Int × Int × Int)
  tmp : String
  slice : Option Expr
  size : Nat
  parts : List Expr
  rhs : Expr
  holds : Store T → Prop
  targets : List Target
  places : List Place
  width : Nat
  source : Store T → Value
  /-- The slice size is a constant, 1 if there is none. -/
  size_pos : 0 < size
  size_const : slice.elim (some 1) (Const.evalConst env) = some (size : Int)
  size_eval : ∀ s ∈ slice, ∀ st, holds st → ∃ v, evalRequest st (Ascending.lower asc s) (.context 0 none) = some v ∧
    v.isDefined = true ∧ v.val = size
  /-- There is a target, and the targets have the widths `operand_width` gives them. -/
  targets_ne : targets ≠ []
  lowered : parts.map (Ascending.lower asc) = targets.map Target.expr
  decoded : ∀ t ∈ targets, Target.ofExpr T t.expr = some t
  placed : ∀ st, holds st → List.Forall₂ (Target.Placed st) targets places
  kept : ∀ t ∈ targets, ∀ st v st', holds st → t.write st v = some st' → holds st'
  widths : (parts.map (operandWidth env decls)).sum = ((places.map Place.width).sum : Nat)
  /-- The temporary is as wide as the targets, and new. -/
  tmp_width : T.width tmp = some (places.map Place.width).sum
  tmp_base : T.signalBase tmp = 0
  tmp_asc : asc tmp = none
  tmp_kept : ∀ st v, holds st → holds (st.setSignal tmp v)
  operand_le : operandWidth env decls rhs ≤ 2 ^ 32
  /-- The source is no narrower than the targets, and computed in a context no wider than it its low bits are those of
  its value. -/
  le_width : (places.map Place.width).sum ≤ width
  width_le : width ≤ 2 ^ 32
  source_width : ∀ st, holds st → (source st).width = width
  source_self : selfWidth T (Ascending.lower asc rhs) = width
  source_eval : ∀ st, holds st → ∀ k, 0 < k → k ≤ width → ∀ ov,
    ov = none ∨ ov = some (exprSigned T (Ascending.lower asc rhs)) →
    ∃ u, evalRequest st (Ascending.lower asc rhs) (.context k ov) = some u ∧ k ≤ u.width ∧ u.width ≤ width ∧
      ∀ i < k, u.bit i = (source st).bit i
  source_any : ∀ s : Value, s.width = width → ∃ st, holds st ∧ source st = s
  /-- A plain name is a declared vector, with constant bounds. -/
  plain : ∀ name, rhs = .ident [] name → operandWidth env decls rhs = width ∧ T.width name = some width ∧
    T.signalBase name = 0 ∧ (∀ st, holds st → source st = st.signal name) ∧
    ∀ left right unpacked, asc name = some (left, right, unpacked) → unpacked = 0 ∧ (left < right ∨ right ≠ 0) ∧
      (left - right).natAbs + 1 = width ∧ -2 ^ 31 ≤ left ∧ -2 ^ 31 ≤ right ∧ right < 2 ^ 31

namespace Unpacking

variable (U : Unpacking T)

/-- The number of bits of the targets. -/
def total : Nat := (U.places.map Place.width).sum

/-- The assignment, as the pass leaves it, run. -/
def run (st : Store T) : Option (Store T) := do
  let as ← lowerStream U.env U.decls U.tmp U.slice U.parts U.rhs
  execLowered U.asc as st

/-- `{<<slice{parts}}` as an expression. -/
def pack (st : Store T) : Option Value :=
  evalRequest st (Ascending.lower U.asc (stream U.slice U.parts)) (.context 0 none)

/-- Packing the targets after the assignment gives the source, or its most significant bits. -/
def Restores : Prop :=
  ∀ st, U.holds st → ∃ st', U.run st = some st' ∧
    U.pack st' = some ((U.source st).getRange ((U.width : Int) - 1) ((U.width : Int) - U.total))

/-- The targets are different cells, the source has the width `operand_width` gives it, and a plain name as wide as the
targets is declared `[w-1:0]`, or `[0:w-1]` and not cut. -/
def Safe : Prop :=
  none ∉ allCells U.places ∧ (allCells U.places).Nodup ∧ operandWidth U.env U.decls U.rhs = U.width ∧
    ∀ name left right unpacked, U.rhs = .ident [] name → U.width = U.total → U.asc name = some (left, right, unpacked) →
      left = 0 ∧ 0 < right ∧ U.total ≤ U.size

section

variable {U} {st : Store T}

theorem total_pos (U : Unpacking T) {st : Store T} (hst : U.holds st) : 0 < U.total := by
  have hplaced := U.placed st hst
  rw [total]
  cases htargets : U.targets with
  | nil => exact absurd htargets U.targets_ne
  | cons t ts =>
    rw [htargets] at hplaced
    obtain ⟨pl, pls, ht, -, hpls⟩ := List.forall₂_cons_left_iff.mp hplaced
    rw [hpls, List.map_cons, List.sum_cons]
    exact Nat.add_pos_left ht.width_pos _

theorem parts_ne (U : Unpacking T) : U.parts.map (Ascending.lower U.asc) ≠ [] := by
  rw [U.lowered]
  exact fun h => U.targets_ne (List.map_eq_nil_iff.mp h)

theorem decode_parts (U : Unpacking T) :
    (U.parts.map (Ascending.lower U.asc)).mapM (Target.ofExpr T) = some U.targets := by
  have hall : ∀ ts : List Target, (∀ t ∈ ts, Target.ofExpr T t.expr = some t) →
      (ts.map Target.expr).mapM (Target.ofExpr T) = some ts := by
    intro ts hts
    induction ts with
    | nil => rfl
    | cons t ts ih =>
      rw [List.forall_mem_cons] at hts
      rw [List.map_cons, List.mapM_cons, hts.1, ih hts.2]
      rfl
  rw [U.lowered]
  exact hall U.targets U.decoded

/-- Packing reads the cells of the targets and puts their chunks in reverse order. -/
theorem exists_pack (hst : U.holds st) :
    ∃ r, U.pack st = some r ∧ r.bits = packChunks U.size ((allCells U.places).map (cell? st)) := by
  obtain ⟨vs, hvs, hbits⟩ := exists_evalParts (U.placed st hst)
  rw [← U.lowered] at hvs
  have hempty : (U.parts.map (Ascending.lower U.asc)).isEmpty = false := by
    rw [List.isEmpty_eq_false_iff]
    exact U.parts_ne
  have hreverse : streamReverse (concatValues vs) U.size =
      some (concatValues (streamChunks (concatValues vs) U.size (concatValues vs).width [])) := by
    rw [streamReverse, if_neg U.size_pos.ne']
  refine ⟨concatValues (streamChunks (concatValues vs) U.size (concatValues vs).width []), ?_, ?_⟩
  · cases hslice : U.slice with
    | none =>
      have hone : (1 : Int) = U.size := by
        have hconst := U.size_const
        rw [hslice] at hconst
        exact Option.some.inj hconst
      rw [pack, hslice, stream, Ascending.lower, Ascending.lowerList_eq_map, evalRequest, hvs]
      simp only [Option.bind_eq_bind, Option.bind_some]
      rw [hempty, if_neg Bool.false_ne_true, show (1 : Nat) = U.size by omega, hreverse]
      exact widen_zero _ _
    | some s =>
      obtain ⟨v, hv, hdef, hval⟩ := U.size_eval s hslice st hst
      rw [pack, hslice, stream, Ascending.lower, Ascending.lowerList_eq_map, evalRequest, hvs, hv]
      simp only [Option.bind_eq_bind, Option.bind_some]
      rw [hempty, if_neg Bool.false_ne_true, if_pos hdef, hval, hreverse]
      exact widen_zero _ _
  · rw [bits_streamReverse U.size_pos hreverse, bits_concatValues, hbits]

/-- The targets given a value. -/
theorem execBlocking_targets (hst : U.holds st) {rhs : Expr} {v : Value}
    (hv : evalRequest st rhs (.context U.total none) = some v) :
    execBlocking st ⟨Ascending.lower U.asc (.concat false U.parts), rhs⟩ = writeTargets v U.targets U.total st := by
  rw [lower_concat, execBlocking]
  dsimp only
  rw [U.decode_parts, Option.bind_eq_bind, Option.bind_some, lhsWidths_eq (U.placed st hst), Option.bind_eq_bind,
    Option.bind_some, Int.toNat_natCast, ← total, hv]
  rfl

theorem holds_of_targets (hst : U.holds st) {rhs : Expr} {v : Value} {st' : Store T}
    (hv : evalRequest st rhs (.context U.total none) = some v)
    (h : execBlocking st ⟨Ascending.lower U.asc (.concat false U.parts), rhs⟩ = some st') : U.holds st' := by
  rw [execBlocking_targets hst hv] at h
  exact writeTargets_keeps U.kept hst h

/-- Distinct cells given a value pack to its chunks in reverse order. -/
theorem exists_assigned (hst : U.holds st) {cs : List Cell} (hcs : allCells U.places = cs.map some) (hnodup : cs.Nodup)
    {rhs : Expr} {v : Value} (hv : evalRequest st rhs (.context U.total none) = some v) (hle : U.total ≤ v.width) :
    ∃ st', execBlocking st ⟨Ascending.lower U.asc (.concat false U.parts), rhs⟩ = some st' ∧
      ∃ r, U.pack st' = some r ∧ r.bits = packChunks U.size (v.segment 0 U.total) := by
  obtain ⟨st', hst', hcell⟩ := exists_writeTargets U.placed U.kept hcs (show U.total = _ from rfl) hle hst
  rw [← execBlocking_targets hst hv] at hst'
  obtain ⟨r, hr, hbits⟩ := exists_pack (holds_of_targets hst hv hst')
  have hlen : cs.length = (v.segment 0 U.total).length := by
    rw [segment_length, Nat.sub_zero, ← List.length_map some, ← hcs, allCells_length, total]
  have hread : (allCells U.places).map (cell? st') = v.segment 0 U.total := by
    rw [hcs, List.map_map]
    show cs.map (cell st') = _
    rw [hcell, map_putCells _ hnodup hlen]
  exact ⟨st', hst', r, hr, by rw [hbits, hread]⟩

/-- The source of the temporary, `w` bits to the pass. -/
def shifted (U : Unpacking T) : Expr :=
  if operandWidth U.env U.decls U.rhs = U.total then U.rhs
  else .binary .shr U.rhs (lit (operandWidth U.env U.decls U.rhs - U.total).toNat)

/-- The temporary is given the source's bits from `w - t` on. -/
theorem exists_eval_shifted (hst : U.holds st) (hw : (U.total : Int) ≤ operandWidth U.env U.decls U.rhs) :
    ∃ v, evalRequest st (Ascending.lower U.asc U.shifted) (.context U.total none) = some v ∧
      ∀ i < U.total, v.bit i = (U.source st).bit (i + (operandWidth U.env U.decls U.rhs - U.total).toNat) := by
  have hpos := U.total_pos hst
  have hle : U.total ≤ U.width := U.le_width
  have hoperand := U.operand_le
  by_cases heq : operandWidth U.env U.decls U.rhs = U.total
  · obtain ⟨u, hu, -, -, hbit⟩ := U.source_eval st hst U.total hpos hle none (Or.inl rfl)
    refine ⟨u, ?_, fun i hi => ?_⟩
    · rw [shifted, if_pos heq]
      exact hu
    · rw [hbit i hi, heq, Int.sub_self]
      rfl
  · obtain ⟨u, hu, hwidth, hwidth', hbit⟩ := U.source_eval st hst U.width (lt_of_lt_of_le hpos hle) le_rfl _ (Or.inr rfl)
    have huw : u.width = U.width := le_antisymm hwidth' hwidth
    -- the shift, cut to the temporary
    have hcut : ∀ s : Bool, ∃ v, fit s (u.rshift (ofInt ((operandWidth U.env U.decls U.rhs - U.total).toNat : Nat) 32))
        U.total = some v ∧ ∀ i < U.total, v.bit i =
          u.bit (i + (operandWidth U.env U.decls U.rhs - U.total).toNat) := by
      intro s
      have hshift : ∀ i, (u.rshift (ofInt ((operandWidth U.env U.decls U.rhs - U.total).toNat : Nat) 32)).bit i =
          u.bit (i + (operandWidth U.env U.decls U.rhs - U.total).toNat) := by
        intro i
        rw [bit_rshift (ofInt_mask _ _), val_lit (by omega)]
      rw [fit]
      by_cases hsame : U.total ≠ 0 ∧ (u.rshift (ofInt ((operandWidth U.env U.decls U.rhs - U.total).toNat : Nat)
          32)).width ≠ U.total
      · rw [if_pos hsame]
        refine ⟨(u.rshift _).resize U.total, ?_, fun i hi => by rw [bit_resize, if_pos hi, hshift]⟩
        cases s with
        | true => exact signExtend_of_le (by rw [rshift_width, huw]; exact hle)
        | false => rfl
      · rw [if_neg hsame]
        exact ⟨_, rfl, fun i _ => hshift i⟩
    have hlower : Ascending.lower U.asc U.shifted =
        .binary .shr (Ascending.lower U.asc U.rhs) (lit (operandWidth U.env U.decls U.rhs - U.total).toNat) := by
      rw [shifted, if_neg heq, Ascending.lower]
      rfl
    obtain ⟨v, hv, hvbit⟩ := hcut (exprSigned T (.binary .shr (Ascending.lower U.asc U.rhs)
      (lit (operandWidth U.env U.decls U.rhs - U.total).toNat)))
    refine ⟨v, ?_, fun i hi => ?_⟩
    · have htarget : (if U.total ≠ 0 then max U.total U.width else U.width) = U.width := by
        rw [if_pos hpos.ne', max_eq_right hle]
      rw [hlower, evalRequest]
      rw [if_neg (show ¬ BinaryOp.shr.isLogical = true from Bool.false_ne_true),
        if_neg (show ¬ BinaryOp.shr.isComparison = true from Bool.false_ne_true),
        if_pos (show (BinaryOp.shr.isShift || BinaryOp.shr == .pow) = true from rfl)]
      dsimp only
      rw [U.source_self, Request.width_context, htarget]
      show (evalRequest st (Ascending.lower U.asc U.rhs) (.context U.width (some (exprSigned T
        (Ascending.lower U.asc U.rhs))))).bind _ = _
      rw [hu]
      simp only [Option.bind_some]
      rw [widen_of_le hwidth]
      simp only [Option.bind_eq_bind, Option.bind_some]
      show (evalRequest st (lit _) (.context 0 none)).bind _ = _
      rw [evalRequest_lit]
      exact hv
    · rw [hvbit i hi]
      by_cases hin : i + (operandWidth U.env U.decls U.rhs - U.total).toNat < U.width
      · exact hbit _ hin
      · rw [bit_of_width_le (by omega), bit_of_width_le (by rw [U.source_width st hst]; omega)]

/-- What the pass makes of an assignment that goes through the temporary. -/
theorem lowerStream_shifted (U : Unpacking T) (hw : (U.total : Int) ≤ operandWidth U.env U.decls U.rhs)
    (hplain : ∀ name, U.rhs = .ident [] name → operandWidth U.env U.decls U.rhs ≠ U.total) :
    lowerStream U.env U.decls U.tmp U.slice U.parts U.rhs =
      some [⟨.ident [] U.tmp, U.shifted⟩, ⟨.concat false U.parts, .concat false (slices U.tmp U.size U.total)⟩] := by
  have hsize := U.size_pos
  have hnot : ∀ name, U.shifted ≠ .ident [] name := by
    intro name
    rw [shifted]
    split
    · next heq => exact fun h => hplain name h heq
    · exact Expr.noConfusion
  rw [lowerStream, U.widths, ← total]
  dsimp only
  rw [if_neg (by omega), U.size_const]
  simp only [Option.bind_eq_bind, Option.bind_some]
  rw [if_neg (by omega), Int.toNat_natCast, Int.toNat_natCast, ← shifted]
  split
  · next name h => exact absurd h (hnot name)
  · rfl

/-- What the pass makes of a plain name as wide as the targets. -/
theorem lowerStream_plain (U : Unpacking T) {name : String} (hrhs : U.rhs = .ident [] name)
    (hw : operandWidth U.env U.decls U.rhs = U.total) :
    lowerStream U.env U.decls U.tmp U.slice U.parts U.rhs =
      some [⟨.concat false U.parts, .concat false (slices name U.size U.total)⟩] := by
  have hsize := U.size_pos
  rw [lowerStream, U.widths, ← total]
  dsimp only
  rw [hw, if_neg (lt_irrefl _), U.size_const, if_pos rfl]
  simp only [Option.bind_eq_bind, Option.bind_some]
  rw [if_neg (by omega), hrhs]
  rfl

/-- A value for the temporary. -/
theorem execBlocking_tmp (U : Unpacking T) {e : Expr} {v : Value}
    (hv : evalRequest st (Ascending.lower U.asc e) (.context U.total none) = some v) :
    execBlocking st ⟨Ascending.lower U.asc (.ident [] U.tmp), Ascending.lower U.asc e⟩ =
      some (st.setSignal U.tmp (v.resize U.total)) := by
  have hwidth : (st.signal U.tmp).width = U.total := st.signal_width _ _ U.tmp_width
  show (some ((st.signal U.tmp).width : Int)).bind (fun w => (evalRequest st (Ascending.lower U.asc e)
    (.context w.toNat none)).bind fun v => Target.write st v ⟨.vector [] U.tmp, .whole⟩) = _
  rw [hwidth, Option.bind_some, Int.toNat_natCast, hv, Option.bind_some]
  show some (st.setSignal U.tmp (v.resize (st.signal U.tmp).width)) = _
  rw [hwidth]

/-- Through the temporary the targets pack to the source's bits from `w - t` on. -/
theorem exists_run_shifted (hst : U.holds st) {cs : List Cell} (hcs : allCells U.places = cs.map some)
    (hnodup : cs.Nodup) (hw : (U.total : Int) ≤ operandWidth U.env U.decls U.rhs)
    (hplain : ∀ name, U.rhs = .ident [] name → operandWidth U.env U.decls U.rhs ≠ U.total) :
    ∃ st', U.run st = some st' ∧ ∃ r, U.pack st' = some r ∧
      r.bits = (U.source st).segment (operandWidth U.env U.decls U.rhs - U.total).toNat
        (U.total + (operandWidth U.env U.decls U.rhs - U.total).toNat) := by
  obtain ⟨v, hv, hbit⟩ := exists_eval_shifted hst hw
  have hpos := U.total_pos hst
  have hst₁ := U.tmp_kept st (v.resize U.total) hst
  obtain ⟨u, hu, hbits⟩ : ∃ u, evalRequest (st.setSignal U.tmp (v.resize U.total))
      (.concat false (slices U.tmp U.size U.total)) (.context U.total none) = some u ∧
      u.bits = unpackChunks U.size ((st.setSignal U.tmp (v.resize U.total)).signal U.tmp).bits :=
    exists_eval_slices U.tmp_width U.tmp_base U.size_pos.ne' hpos (U.le_width.trans U.width_le)
  have hsignal : (st.setSignal U.tmp (v.resize U.total)).signal U.tmp = v.resize U.total := by
    show (if U.tmp = U.tmp then (v.resize U.total).resize ((T.width U.tmp).getD 0) else _) = _
    rw [if_pos rfl, U.tmp_width, Option.getD_some]
    exact Value.resize_self (v.resize U.total)
  have hwidth : u.width = U.total := by
    rw [← bits_length, hbits, (perm_unpackChunks _ _).length_eq, bits_length, hsignal, resize_width]
  obtain ⟨st', hst', r, hr, hrbits⟩ := exists_assigned hst₁ hcs hnodup hu hwidth.ge
  refine ⟨st', ?_, r, hr, ?_⟩
  · rw [run, U.lowerStream_shifted hw hplain]
    show (execBlocking st ⟨Ascending.lower U.asc (.ident [] U.tmp), Ascending.lower U.asc U.shifted⟩).bind
      (fun st => (execBlocking st ⟨Ascending.lower U.asc (.concat false U.parts),
        Ascending.lower U.asc (.concat false (slices U.tmp U.size U.total))⟩).bind some) = _
    rw [U.execBlocking_tmp hv, Option.bind_some, lower_slices_kept U.tmp_asc, hst']
    rfl
  · rw [hrbits, segment_zero_of_width hwidth, hbits, hsignal, packChunks_unpackChunks U.size_pos, bits, resize_width,
      segment_congr (u := U.source st) (d := (operandWidth U.env U.decls U.rhs - U.total).toNat) fun i _ hi => by
        rw [bit_resize, if_pos hi, hbit i hi], Nat.zero_add]

theorem holds_of_exec (hst : U.holds st) {rhs : Expr} {st' : Store T}
    (h : execBlocking st ⟨Ascending.lower U.asc (.concat false U.parts), rhs⟩ = some st') : U.holds st' := by
  cases hv : evalRequest st rhs (.context U.total none) with
  | some v => exact holds_of_targets hst hv h
  | none =>
    rw [lower_concat, execBlocking] at h
    dsimp only at h
    rw [U.decode_parts, Option.bind_eq_bind, Option.bind_some, lhsWidths_eq (U.placed st hst), Option.bind_eq_bind,
      Option.bind_some, Int.toNat_natCast, ← total, hv] at h
    cases h

/-- The run ends in a store of the run. -/
theorem holds_of_run (hst : U.holds st) {st' : Store T} (h : U.run st = some st') : U.holds st' := by
  obtain ⟨as, has, h⟩ := Option.bind_eq_some_iff.mp h
  by_cases hw : operandWidth U.env U.decls U.rhs < U.total
  · rw [lowerStream, U.widths, ← total] at has
    dsimp only at has
    rw [if_pos hw] at has
    cases has
  by_cases hplain : ∃ name, U.rhs = .ident [] name ∧ operandWidth U.env U.decls U.rhs = U.total
  · obtain ⟨name, hrhs, heq⟩ := hplain
    rw [U.lowerStream_plain hrhs heq] at has
    cases has
    obtain ⟨st₁, hst₁, h⟩ := Option.bind_eq_some_iff.mp h
    cases h
    exact holds_of_exec hst hst₁
  · rw [U.lowerStream_shifted (by omega) fun name hrhs heq => hplain ⟨name, hrhs, heq⟩] at has
    cases has
    obtain ⟨st₁, hst₁, h⟩ := Option.bind_eq_some_iff.mp h
    obtain ⟨st₂, hst₂, h⟩ := Option.bind_eq_some_iff.mp h
    cases h
    obtain ⟨v, hv, -⟩ := exists_eval_shifted hst (by omega)
    obtain rfl := Option.some.inj ((U.execBlocking_tmp hv).symm.trans hst₁)
    exact holds_of_exec (U.tmp_kept st _ hst) hst₂

/-- The most significant bits of the source. -/
theorem getRange_source (hst : U.holds st) :
    ((U.source st).getRange ((U.width : Int) - 1) ((U.width : Int) - U.total)).bits =
      (U.source st).segment (U.width - U.total) U.width := by
  have hpos := U.total_pos hst
  have hle : U.total ≤ U.width := U.le_width
  have hslice := bits_getRange (v := U.source st) (show U.width - U.total ≤ U.width - 1 by omega)
    (by rw [U.source_width st hst]; omega)
  rw [Nat.sub_add_cancel (by omega)] at hslice
  rw [← hslice]
  congr 2 <;> omega

theorem restored_of_bits (hst : U.holds st) {r : Value}
    (h : r.bits = (U.source st).segment (U.width - U.total) U.width) :
    r = (U.source st).getRange ((U.width : Int) - 1) ((U.width : Int) - U.total) :=
  ext_bits (h.trans (getRange_source hst).symm)

end

/-! ### When the source comes back -/

/-- The source can have any bits on top. -/
theorem exists_source (U : Unpacking T) {l : List (Option Bool)} (hl : l.length = U.total) :
    ∃ st, U.holds st ∧ (U.source st).segment (U.width - U.total) U.width = l := by
  have hle : U.total ≤ U.width := U.le_width
  obtain ⟨s, hs⟩ := exists_bits (l ++ List.replicate (U.width - U.total) (some false))
  have hw : s.width = U.width := by
    rw [← bits_length, hs, List.length_append, hl, List.length_replicate]
    omega
  obtain ⟨st, hst, rfl⟩ := U.source_any s hw
  refine ⟨st, hst, ?_⟩
  rw [bits, hw, ← segment_append _ (Nat.zero_le (U.width - U.total)) (Nat.sub_le _ _)] at hs
  exact (List.append_inj hs (by rw [segment_length, hl]; omega)).1

/-- If the source comes back, packing a store of the run gives its most significant bits. -/
theorem Restores.bits {U : Unpacking T} (h : U.Restores) {st : Store T} (hst : U.holds st) :
    ∃ st', U.run st = some st' ∧ packChunks U.size ((allCells U.places).map (cell? st')) =
      (U.source st).segment (U.width - U.total) U.width := by
  obtain ⟨st', hrun, hpack⟩ := h st hst
  obtain ⟨r, hr, hbits⟩ := exists_pack (holds_of_run hst hrun)
  obtain rfl := Option.some.inj (hr.symm.trans hpack)
  exact ⟨st', hrun, hbits.symm.trans (getRange_source hst)⟩

theorem Restores.none_notMem {U : Unpacking T} (h : U.Restores) : none ∉ allCells U.places := by
  intro hnone
  obtain ⟨st, hst, hl⟩ := U.exists_source (List.length_replicate (n := U.total) (a := some false))
  obtain ⟨st', -, hbits⟩ := h.bits hst
  have hmem : none ∈ packChunks U.size ((allCells U.places).map (cell? st')) :=
    (perm_packChunks _ _).mem_iff.mpr (List.mem_map.mpr ⟨none, hnone, rfl⟩)
  rw [hbits, hl] at hmem
  exact Option.some_ne_none _ (List.eq_of_mem_replicate hmem).symm

theorem Restores.nodup {U : Unpacking T} (h : U.Restores) : (allCells U.places).Nodup := by
  by_contra hdup
  obtain ⟨as, hlen, -, hne⟩ := exists_ne_map_of_not_nodup hdup (a := some true) (b := some false) (by decide)
  obtain ⟨st, hst, hl⟩ := U.exists_source (l := packChunks U.size as)
    (by rw [(perm_packChunks _ _).length_eq, hlen, allCells_length, total])
  obtain ⟨st', -, hbits⟩ := h.bits hst
  apply hne (cell? st')
  rw [← unpackChunks_packChunks U.size_pos ((allCells U.places).map (cell? st')), hbits, hl,
    unpackChunks_packChunks U.size_pos]

/-- Targets without a missing cell are cells. -/
theorem exists_cells {U : Unpacking T} (hnone : none ∉ allCells U.places) (hnodup : (allCells U.places).Nodup) :
    ∃ cs : List Cell, allCells U.places = cs.map some ∧ cs.Nodup := by
  obtain ⟨cs, hcs⟩ : ∃ cs : List Cell, allCells U.places = cs.map some := by
    generalize allCells U.places = l at hnone
    induction l with
    | nil => exact ⟨[], rfl⟩
    | cons c l ih =>
      obtain ⟨cs, rfl⟩ := ih fun h => hnone (List.mem_cons_of_mem _ h)
      obtain ⟨c, rfl⟩ := Option.ne_none_iff_exists'.mp fun h : c = none => hnone (by rw [h]; exact List.mem_cons_self)
      exact ⟨c :: cs, rfl⟩
  exact ⟨cs, hcs, List.Nodup.of_map some (hcs ▸ hnodup)⟩

theorem Restores.operand_width {U : Unpacking T} (h : U.Restores) : operandWidth U.env U.decls U.rhs = U.width := by
  by_contra hne
  have hle : U.total ≤ U.width := U.le_width
  obtain ⟨cs, hcs, hnodup⟩ := exists_cells h.none_notMem h.nodup
  -- one bit of the source is set, the lowest of those that come back
  obtain ⟨st, hst, hsource⟩ := U.source_any (ofInt ((2 ^ (U.width - U.total) : Nat) : Int) U.width) rfl
  have hpos := U.total_pos hst
  obtain ⟨st', hrun, hbits⟩ := h.bits hst
  by_cases hw : operandWidth U.env U.decls U.rhs < U.total
  · rw [run, lowerStream, U.widths, ← total] at hrun
    dsimp only at hrun
    rw [if_pos hw] at hrun
    cases hrun
  · obtain ⟨st'', hrun', r, hr, hrbits⟩ := exists_run_shifted hst hcs hnodup (by omega)
      fun name hrhs _ => hne (U.plain name hrhs).1
    obtain rfl := Option.some.inj (hrun.symm.trans hrun')
    obtain ⟨r', hr', hrbits'⟩ := exists_pack (holds_of_run hst hrun)
    obtain rfl := Option.some.inj (hr.symm.trans hr')
    rw [hbits, hrbits] at hrbits'
    have hget := congrArg (fun l => l[U.total - 1]?) hrbits'
    have hleft := segment_getElem? (U.source st) (le_refl (operandWidth U.env U.decls U.rhs - U.total).toNat)
      (show _ < U.total + (operandWidth U.env U.decls U.rhs - U.total).toNat by omega)
    have hright := segment_getElem? (U.source st) (le_refl (U.width - U.total)) (show _ < U.width by omega)
    rw [show U.total + (operandWidth U.env U.decls U.rhs - U.total).toNat - 1 -
      (operandWidth U.env U.decls U.rhs - U.total).toNat = U.total - 1 by omega] at hleft
    rw [show U.width - 1 - (U.width - U.total) = U.total - 1 by omega] at hright
    rw [hleft, hright, Option.some_inj, hsource, bit_ofInt, bit_ofInt, Nat.testBit_two_pow, Nat.testBit_two_pow,
      decide_eq_false (show ¬ U.width - U.total = (operandWidth U.env U.decls U.rhs - U.total).toNat by omega),
      decide_eq_true (show U.width - U.total < U.width by omega)] at hget
    simp at hget

/-- A plain name as wide as the targets. -/
theorem run_plain {U : Unpacking T} {st : Store T} (hst : U.holds st) {cs : List Cell}
    (hcs : allCells U.places = cs.map some) (hnodup : cs.Nodup) {name : String} (hrhs : U.rhs = .ident [] name)
    (hwidth : U.width = U.total) {v : Value}
    (hv : evalRequest st (Ascending.lower U.asc (.concat false (slices name U.size U.total))) (.context U.total none) =
      some v) (hle : U.total ≤ v.width) :
    ∃ st', U.run st = some st' ∧ ∃ r, U.pack st' = some r ∧ r.bits = packChunks U.size (v.segment 0 U.total) := by
  obtain ⟨st', hst', hpack⟩ := exists_assigned hst hcs hnodup hv hle
  refine ⟨st', ?_, hpack⟩
  rw [run, U.lowerStream_plain hrhs (by rw [(U.plain name hrhs).1, hwidth])]
  show (execBlocking st ⟨Ascending.lower U.asc (.concat false U.parts),
    Ascending.lower U.asc (.concat false (slices name U.size U.total))⟩).bind some = _
  rw [hst']
  rfl

theorem Restores.range {U : Unpacking T} (h : U.Restores) {name : String} {left right unpacked : Int}
    (hrhs : U.rhs = .ident [] name) (hwidth : U.width = U.total) (hasc : U.asc name = some (left, right, unpacked)) :
    left = 0 ∧ 0 < right ∧ U.total ≤ U.size := by
  obtain ⟨cs, hcs, hnodup⟩ := exists_cells h.none_notMem h.nodup
  obtain ⟨-, hw, hbase, hsource, hranges⟩ := U.plain name hrhs
  obtain ⟨rfl, hmoved, hsize, hleft, hright⟩ := hranges left right unpacked hasc
  rw [hwidth] at hw hsize
  -- what packing gives back, for any source
  have hback : ∀ l : List (Option Bool), l.length = U.total → ∃ (st : Store T) (v : Value),
      (U.source st).bits = l ∧ U.total ≤ v.width ∧
      (if left = 0 ∧ 0 < right then v.bits = (U.source st).bits else none ∈ v.segment 0 U.total) ∧
      packChunks U.size (v.segment 0 U.total) = l := by
    intro l hl
    obtain ⟨st, hst, hbits⟩ := U.exists_source hl
    have hsw := U.source_width st hst
    obtain ⟨v, hv, hle, hvalue⟩ := exists_eval_moved_slices st hasc hmoved hw hbase hsize hleft hright U.size_pos.ne'
    obtain ⟨st', hrun, r, hr, hrbits⟩ := run_plain hst hcs hnodup hrhs hwidth hv hle
    obtain ⟨st'', hrun', hbits'⟩ := h.bits hst
    obtain rfl := Option.some.inj (hrun.symm.trans hrun')
    obtain ⟨r', hr', hrbits'⟩ := exists_pack (holds_of_run hst hrun)
    obtain rfl := Option.some.inj (hr.symm.trans hr')
    rw [← hsource st hst] at hvalue
    refine ⟨st, v, ?_, hle, hvalue, ?_⟩
    · rw [hwidth, Nat.sub_self] at hbits
      rw [Value.bits, hsw, hwidth, hbits]
    · rw [← hrbits, hrbits', hbits', hbits]
  have hzero : left = 0 ∧ 0 < right := by
    by_contra hne
    obtain ⟨st, v, -, -, hvalue, hpack⟩ := hback (List.replicate U.total (some false)) List.length_replicate
    rw [if_neg hne] at hvalue
    have hmem := (perm_packChunks U.size _).mem_iff.mpr hvalue
    rw [hpack] at hmem
    exact Option.some_ne_none _ (List.eq_of_mem_replicate hmem).symm
  refine ⟨hzero.1, hzero.2, ?_⟩
  by_contra hlt
  have hlt : U.size < U.total := by omega
  obtain ⟨st, v, hbits, hle, hvalue, hpack⟩ := hback (some true :: List.replicate (U.total - 1) (some false))
    (by rw [List.length_cons, List.length_replicate]; omega)
  rw [if_pos hzero, hbits] at hvalue
  have hwv : v.width = U.total := by
    rw [← bits_length, hvalue, List.length_cons, List.length_replicate]
    omega
  rw [segment_zero_of_width hwv, hvalue] at hpack
  exact exists_packChunks_ne U.size_pos hlt (by decide) hpack

/-- Packing after unpacking gives the source back exactly when the targets are different cells, the source's width is
counted right, and its slices are not taken of a name whose range is remapped afterwards. -/
theorem restores_iff (U : Unpacking T) : U.Restores ↔ U.Safe := by
  constructor
  · intro h
    exact ⟨h.none_notMem, h.nodup, h.operand_width, fun name left right unpacked => h.range⟩
  · rintro ⟨hnone, hnodup, hw, hrange⟩ st hst
    obtain ⟨cs, hcs, hcsnodup⟩ := exists_cells hnone hnodup
    have hle : U.total ≤ U.width := U.le_width
    have hpos := U.total_pos hst
    by_cases hplain : ∃ name, U.rhs = .ident [] name ∧ U.width = U.total
    · obtain ⟨name, hrhs, hwidth⟩ := hplain
      obtain ⟨-, hname, hbase, hsource, hranges⟩ := U.plain name hrhs
      have hsw := U.source_width st hst
      rw [hwidth] at hname hsw
      -- either way the value given to the targets packs to the source
      obtain ⟨v, hv, hvw, hpack⟩ : ∃ v, evalRequest st (Ascending.lower U.asc (.concat false
          (slices name U.size U.total))) (.context U.total none) = some v ∧ v.width = U.total ∧
          packChunks U.size v.bits = (U.source st).bits := by
        cases hasc : U.asc name with
        | none =>
            obtain ⟨v, hv, hbits⟩ := exists_eval_slices hname hbase U.size_pos.ne' hpos (hle.trans U.width_le)
            rw [← lower_slices_kept hasc] at hv
            refine ⟨v, hv, ?_, ?_⟩
            · rw [← bits_length, hbits, (perm_unpackChunks _ _).length_eq, bits_length, ← hsource st hst, hsw]
            · rw [hbits, packChunks_unpackChunks U.size_pos, hsource st hst]
        | some d =>
            obtain ⟨left, right, unpacked⟩ := d
            obtain ⟨rfl, hmoved, hsize, hleft, hright⟩ := hranges left right unpacked hasc
            rw [hwidth] at hsize
            obtain ⟨h0, hr, hn⟩ := hrange name left right 0 hrhs hwidth hasc
            obtain ⟨v, hv, -, hvalue⟩ := exists_eval_moved_slices st hasc hmoved hname hbase hsize hleft hright
              U.size_pos.ne'
            rw [if_pos ⟨h0, hr⟩, ← hsource st hst] at hvalue
            refine ⟨v, hv, by rw [← bits_length, hvalue, bits_length, hsw], ?_⟩
            rw [hvalue, packChunks_of_le (by rw [bits_length, hsw]; exact hn)]
      obtain ⟨st', hrun, r, hr, hbits⟩ := run_plain hst hcs hcsnodup hrhs hwidth hv hvw.ge
      rw [segment_zero_of_width hvw, hpack] at hbits
      refine ⟨st', hrun, hr.trans (congrArg some (restored_of_bits hst ?_))⟩
      rw [hbits, hwidth, Nat.sub_self, Value.bits, hsw]
    · obtain ⟨st', hrun, r, hr, hbits⟩ := exists_run_shifted hst hcs hcsnodup (by omega)
        fun name hrhs heq => hplain ⟨name, hrhs, by omega⟩
      refine ⟨st', hrun, hr.trans (congrArg some (restored_of_bits hst ?_))⟩
      rw [hbits, hw, show ((U.width : Int) - U.total).toNat = U.width - U.total by omega,
        show U.total + (U.width - U.total) = U.width by omega]

/-! ### A vector declared `[0:7]` -/

/-- `reg [7:0] a; reg [0:7] s;`, with the temporary. -/
def reversedSignals : SignalTable := .vectors [("a", 8, false), ("s", 8, false), ("__vf_stream0", 8, false)]

def reversedTarget : Target := ⟨.vector [] "a", .whole⟩

theorem placed_reversed (st : Store reversedSignals) :
    List.Forall₂ (Target.Placed st) [reversedTarget] [⟨some (.signal "a"), 8, some 0, 8⟩] :=
  .cons ⟨.vector (h := []) (n := "a") rfl rfl rfl, .whole⟩ .nil

/-- `{<<4{a}} = s`. -/
def reversed : Unpacking reversedSignals where
  env _ := none
  decls name := if name = "a" ∨ name = "s" then some ⟨[(7, 0)], 0, 8⟩ else none
  asc name := if name = "s" then some (0, 7, 0) else none
  tmp := "__vf_stream0"
  slice := some (indexLiteral 4)
  size := 4
  parts := [.ident [] "a"]
  rhs := .ident [] "s"
  holds _ := True
  targets := [reversedTarget]
  places := [⟨some (.signal "a"), 8, some 0, 8⟩]
  width := 8
  source st := st.signal "s"
  size_pos := by decide
  size_const := rfl
  size_eval s hs st _ := by
    obtain rfl := Option.some.inj hs
    exact ⟨_, evalRequest_indexLiteral 4, isDefined_iff.mpr (indexValue_mask 4), indexValue_val 4⟩
  targets_ne := List.cons_ne_nil _ _
  lowered := rfl
  decoded t ht := by
    obtain rfl := List.mem_singleton.mp ht
    rfl
  placed st _ := placed_reversed st
  kept _ _ _ _ _ _ _ := trivial
  widths := rfl
  tmp_width := rfl
  tmp_base := rfl
  tmp_asc := rfl
  tmp_kept _ _ _ := trivial
  operand_le := by decide
  le_width := le_rfl
  width_le := by decide
  source_width st _ := st.signal_width "s" 8 rfl
  source_self := rfl
  source_eval st _ k _ hk ov _ := by
    have hwidth : (st.signal "s").width = 8 := st.signal_width "s" 8 rfl
    refine ⟨st.signal "s", ?_, by omega, by omega, fun _ _ => rfl⟩
    show evalRequest st (.ident [] "s") (.context k ov) = _
    rw [evalRequest, Store.signal?_eq_some (show reversedSignals.width (identifierName [] "s") = some 8 from rfl)]
    exact widen_of_le (by rw [Request.width_context]; exact hk.trans hwidth.ge)
  source_any s hs := by
    have hself := resize_self s
    rw [hs] at hself
    refine ⟨(Store.ofBits reversedSignals (fun _ => 0) fun _ => 0).setSignal "s" s, trivial, ?_⟩
    rw [Store.setSignal]
    dsimp only
    rw [if_pos rfl]
    exact hself
  plain name hname := by
    cases hname
    refine ⟨rfl, rfl, rfl, fun _ _ => rfl, fun left right unpacked h => ?_⟩
    cases h
    decide

/-- The slices `s[3:0]` and `s[7:4]` of the source are its halves from the left, so they are not put in reverse order. -/
theorem reversed_lost : ¬ reversed.Restores := fun h =>
  absurd (h.range (show reversed.rhs = .ident [] "s" from rfl) rfl
    (show reversed.asc "s" = some (0, 7, 0) from rfl)).2.2 (by decide)

end Unpacking

end Lower

end Veriforge

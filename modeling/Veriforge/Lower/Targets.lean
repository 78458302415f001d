import Veriforge.Emit.Select
import Veriforge.Value.BitList

/-! # The targets of an assignment

Vectors and words of memories, whole or a bit, a range or a part of them, as `StatementExecutor._write_target` writes them
and the evaluator reads them. Each is a stretch of cells of the store, and an assignment to a concatenation of targets
writes the cells of the first one first. (Fields of structs and nested concatenations are not modelled.) -/

namespace Veriforge

namespace Lower

open Value

/-- What a target selects from: a vector, or a word of a memory. -/
inductive Base
  | vector (hierarchy : List String) (name : String)
  | word (hierarchy : List String) (name : String) (index : Expr)

/-- What a target selects. -/
inductive Sel
  | whole
  | bit (index : Expr)
  | range (msb lsb : Expr)
  | part (base width : Expr) (direction : Direction)

structure Target where
  base : Base
  sel : Sel

def Base.expr : Base → Expr
  | .vector h n => .ident h n
  | .word h n i => .bitSelect (.ident h n) i

def Sel.on (t : Expr) : Sel → Expr
  | .whole => t
  | .bit i => .bitSelect t i
  | .range m l => .rangeSelect t m l
  | .part b w d => .partSelect t b w d

def Target.expr (t : Target) : Expr := t.sel.on t.base.expr

/-- The store with one memory word replaced. -/
def setWord {T : SignalTable} (st : Store T) (name : String) (index : Nat) (v : Value) : Store T where
  signal := st.signal
  word n i := if n = name ∧ i = index then v.resize ((T.memory name).elim 0 Prod.fst) else st.word n i
  signal_width := st.signal_width
  word_width n ew d i h := by
    split
    · next hn =>
        rw [hn.1] at h
        rw [Value.resize_width, h]
        rfl
    · exact st.word_width n ew d i h

section

variable {T : SignalTable}

/-- The value with what is selected replaced, `none` where nothing is written; `low` is the declared low bound. -/
def Sel.put (st : Store T) (low : Int) (current v : Value) : Sel → Option (Option Value)
  | .whole => some (v.resize current.width)
  | .bit i => do
      let index ← evalRequest st i (.context 0 none)
      let k := (index.val : Int) - low
      if index.isDefined ∧ 0 ≤ k ∧ k < current.width then
        let updated ← current.setBit k (v.val &&& 1) (v.mask &&& 1)
        return some updated
      else return none
  | .range m l => do
      let msb ← evalRequest st m (.context 0 none)
      let lsb ← evalRequest st l (.context 0 none)
      if msb.isDefined ∧ lsb.isDefined then return some (current.setRange (msb.val - low) (lsb.val - low) v)
      else return none
  | .part b w d => do
      let base ← evalRequest st b (.context 0 none)
      let width ← evalRequest st w (.context 0 none)
      if base.isDefined ∧ width.isDefined then
        let p ← partBase T b base
        let wval := v.resize width.val
        match d with
        | .up => return some (current.setRange (p - low + width.val - 1) (p - low) wval)
        | .down => return some (current.setRange (p - low) (p - low - width.val + 1) wval)
      else return none

/-- `_write_target`, at once. -/
def Target.write (st : Store T) (v : Value) (t : Target) : Option (Store T) :=
  match t.base with
  | .vector h n => do
      let name := identifierName h n
      let updated ← t.sel.put st (T.signalBase name) (st.signal name) v
      return updated.elim st (st.setSignal name)
  | .word h n i =>
      let name := identifierName h n
      match T.memory name with
      | none => some st
      | some (ew, depth) => do
          let index ← evalRequest st i (.context 0 none)
          let updated ← t.sel.put st (T.memoryBase name) (st.readWord name ew depth index.val) v
          if index.isDefined ∧ index.val < depth then return updated.elim st (setWord st name index.val)
          else return st

/-- `_lhs_width`. -/
def Target.lhsWidth (st : Store T) (t : Target) : Option Int :=
  match t.sel with
  | .whole =>
      match t.base with
      | .vector h n => some (st.signal (identifierName h n)).width
      | .word h n _ => some ((T.memory (identifierName h n)).elim 1 fun m => (m.1 : Int))
  | .bit _ => some 1
  | .range m l => do
      let msb ← evalRequest st m (.context 0 none)
      let lsb ← evalRequest st l (.context 0 none)
      return if msb.isDefined ∧ lsb.isDefined then (msb.val : Int) - lsb.val + 1 else 1
  | .part _ w _ => do
      let width ← evalRequest st w (.context 0 none)
      return if width.isDefined then (width.val : Int) else 1

/-- The sum of the widths of concatenated targets. -/
def lhsWidths (st : Store T) : List Target → Option Int
  | [] => some 0
  | t :: ts => do return (← t.lhsWidth st) + (← lhsWidths st ts)

/-- The targets of a concatenation, each given its slice of the value from `bit_pos` down. -/
def writeTargets (v : Value) : List Target → Int → Store T → Option (Store T)
  | [], _, st => some st
  | t :: ts, bitPos, st => do
      let w ← t.lhsWidth st
      let bitPos := bitPos - w
      let st ← t.write st (v.getRange (bitPos + w - 1) bitPos)
      writeTargets v ts bitPos st

/-! ## Cells -/

/-- What holds a target's bits. -/
inductive Container
  | signal (name : String)
  | word (name : String) (index : Nat)
  deriving DecidableEq

/-- The value of a container. -/
def Container.read (st : Store T) : Container → Value
  | .signal name => st.signal name
  | .word name index => st.word name index

/-- A bit of a container. -/
abbrev Cell := Container × Nat

/-- What a cell holds. -/
def cell (st : Store T) (c : Cell) : Option Bool := (c.1.read st).bit c.2

/-- What is read, where there may be no cell to read. -/
def cell? (st : Store T) (c : Option Cell) : Option Bool := c.bind (cell st)

/-- Where a target is: what holds it and how wide that is, the position of the lowest bit, and how many bits it has.
An index that selects nothing leaves no container, or no position. -/
structure Place where
  container : Option Container
  size : Nat
  low : Option Int
  width : Nat

namespace Place

/-- The cell of bit `i`. -/
def cellAt (pl : Place) (i : Nat) : Option Cell := do
  let c ← pl.container
  let p ← pl.low
  if 0 ≤ p + i ∧ p + i < pl.size then some (c, (p + i).toNat) else none

/-- The cells, the most significant one first. -/
def cells (pl : Place) : List (Option Cell) := (List.range' 0 pl.width).reverse.map pl.cellAt

@[simp] theorem cells_length (pl : Place) : pl.cells.length = pl.width := by
  rw [cells, List.length_map, List.length_reverse, List.length_range']

theorem cells_getElem? (pl : Place) {i : Nat} (hi : i < pl.width) :
    pl.cells[pl.width - 1 - i]? = some (pl.cellAt i) := by
  rw [cells, List.getElem?_map, List.getElem?_reverse (by rw [List.length_range']; omega), List.length_range',
    show pl.width - 1 - (pl.width - 1 - i) = i by omega, List.getElem?_range' hi, Option.map_some, Nat.zero_add,
    Nat.one_mul]

theorem mem_cells {pl : Place} {c : Option Cell} : c ∈ pl.cells ↔ ∃ i < pl.width, pl.cellAt i = c := by
  rw [cells, List.mem_map]
  constructor
  · rintro ⟨i, hi, rfl⟩
    rw [List.mem_reverse, List.mem_range'_1] at hi
    exact ⟨i, by omega, rfl⟩
  · rintro ⟨i, hi, rfl⟩
    exact ⟨i, by rw [List.mem_reverse, List.mem_range'_1]; omega, rfl⟩

/-- A place whose bits all have a cell lies within what holds it. -/
theorem exists_inside {pl : Place} (hpos : 0 < pl.width) (h : none ∉ pl.cells) :
    ∃ c p, pl.container = some c ∧ pl.low = some ((p : Nat) : Int) ∧ p + pl.width ≤ pl.size := by
  have hcell : ∀ i < pl.width, pl.cellAt i ≠ none := fun i hi hnone => h (mem_cells.mpr ⟨i, hi, hnone⟩)
  obtain ⟨_ | c, size, _ | p, width⟩ := pl
  · exact absurd rfl (hcell 0 hpos)
  · exact absurd rfl (hcell 0 hpos)
  · exact absurd rfl (hcell 0 hpos)
  · have hin : ∀ i < width, 0 ≤ p + i ∧ p + i < size := by
      intro i hi
      by_contra hout
      exact hcell i hi (if_neg hout)
    have hpos : 0 < width := hpos
    have hfirst := hin 0 hpos
    have hlast := hin (width - 1) (by omega)
    refine ⟨c, p.toNat, rfl, ?_, ?_⟩
    · rw [Int.toNat_of_nonneg (by omega)]
    · show p.toNat + width ≤ size
      omega

theorem cellAt_of_inside {pl : Place} {c : Container} {p i : Nat} (hc : pl.container = some c)
    (hp : pl.low = some (p : Int)) (hi : p + i < pl.size) : pl.cellAt i = some (c, p + i) := by
  rw [cellAt, hc, hp]
  show (if (0 : Int) ≤ p + i ∧ (p : Int) + i < pl.size then some (c, ((p : Int) + i).toNat) else none) = _
  rw [if_pos (by omega), ← Nat.cast_add, Int.toNat_natCast]

end Place

/-! ## Where a target is -/

/-- The vector, or the word with the index. -/
inductive Base.Placed (st : Store T) : Base → Nat → Option Container → Prop
  | vector {h n w} (hw : T.width (identifierName h n) = some w) (hmem : T.memory (identifierName h n) = none)
      (hbase : T.signalBase (identifierName h n) = 0) : Placed st (.vector h n) w (some (.signal (identifierName h n)))
  | word {h n i ew depth v} (hmem : T.memory (identifierName h n) = some (ew, depth))
      (hbase : T.memoryBase (identifierName h n) = 0) (hi : evalRequest st i (.context 0 none) = some v)
      (hdef : v.isDefined = true)
      (hint : indexInt T i v (evalRequest st i (.context (selfWidth T i) (some true))) = some (v.val : Int))
      (hin : v.val < depth) : Placed st (.word h n i) ew (some (.word (identifierName h n) v.val))
  | outside {h n i ew depth v p} (hmem : T.memory (identifierName h n) = some (ew, depth))
      (hbase : T.memoryBase (identifierName h n) = 0) (hi : evalRequest st i (.context 0 none) = some v)
      (hdef : v.isDefined = true)
      (hint : indexInt T i v (evalRequest st i (.context (selfWidth T i) (some true))) = some p)
      (hout : ¬ (0 ≤ p ∧ p < depth)) : Placed st (.word h n i) ew none
  | unknown {h n i ew depth v} (hmem : T.memory (identifierName h n) = some (ew, depth))
      (hbase : T.memoryBase (identifierName h n) = 0) (hi : evalRequest st i (.context 0 none) = some v)
      (hdef : v.isDefined = false) : Placed st (.word h n i) ew none

/-- The bits of a container of `size` bits: how many, and from which position. -/
inductive Sel.Placed (st : Store T) (size : Nat) : Sel → Nat → Option Int → Prop
  | whole : Placed st size .whole size (some 0)
  | bit {i v} (hi : evalRequest st i (.context 0 none) = some v) (hdef : v.isDefined = true)
      (hint : indexInt T i v (evalRequest st i (.context (selfWidth T i) (some true))) = some (v.val : Int)) :
      Placed st size (.bit i) 1 (some v.val)
  | negative {i v p} (hi : evalRequest st i (.context 0 none) = some v) (hdef : v.isDefined = true)
      (hint : indexInt T i v (evalRequest st i (.context (selfWidth T i) (some true))) = some p) (hp : p < 0) :
      Placed st size (.bit i) 1 (some p)
  | unknown {i v} (hi : evalRequest st i (.context 0 none) = some v) (hdef : v.isDefined = false) :
      Placed st size (.bit i) 1 none
  | range {em el vm vl} (hm : evalRequest st em (.context 0 none) = some vm) (hdm : vm.isDefined = true)
      (hintm : indexInt T em vm (evalRequest st em (.context (selfWidth T em) (some true))) = some (vm.val : Int))
      (hl : evalRequest st el (.context 0 none) = some vl) (hdl : vl.isDefined = true)
      (hintl : indexInt T el vl (evalRequest st el (.context (selfWidth T el) (some true))) = some (vl.val : Int))
      (hle : vl.val ≤ vm.val) (hself : ∀ e, selfWidth T (.rangeSelect e em el) ≤ vm.val + 1 - vl.val) :
      Placed st size (.range em el) (vm.val + 1 - vl.val) (some vl.val)
  | part {eb ew d vb vw p} (hb : evalRequest st eb (.context 0 none) = some vb) (hdb : vb.isDefined = true)
      (hp : partBase T eb vb = some p) (hw : evalRequest st ew (.context 0 none) = some vw) (hdw : vw.isDefined = true)
      (hpos : 0 < vw.val) (hself : ∀ e, selfWidth T (.partSelect e eb ew d) ≤ vw.val) :
      Placed st size (.part eb ew d) vw.val (some (if d = .up then p else p - vw.val + 1))
  | partUnknown {eb ew d vb vw} (hb : evalRequest st eb (.context 0 none) = some vb) (hdb : vb.isDefined = false)
      (hw : evalRequest st ew (.context 0 none) = some vw) (hdw : vw.isDefined = true) (hpos : 0 < vw.val)
      (hself : ∀ e, selfWidth T (.partSelect e eb ew d) ≤ vw.val) : Placed st size (.part eb ew d) vw.val none

structure Target.Placed (st : Store T) (t : Target) (pl : Place) : Prop where
  base : t.base.Placed st pl.size pl.container
  sel : t.sel.Placed st pl.size pl.width pl.low

theorem Base.Placed.size_pos {st : Store T} {b : Base} {size : Nat} {c : Option Container} (h : b.Placed st size c) :
    0 < size := by
  cases h with
  | vector hw => exact T.width_pos _ _ hw
  | word hmem => exact T.memory_pos _ _ _ hmem
  | outside hmem => exact T.memory_pos _ _ _ hmem
  | unknown hmem => exact T.memory_pos _ _ _ hmem

theorem Target.Placed.width_pos {st : Store T} {t : Target} {pl : Place} (h : t.Placed st pl) : 0 < pl.width := by
  obtain ⟨hbase, hsel⟩ := h
  obtain ⟨base, sel⟩ := t
  obtain ⟨c, size, low, width⟩ := pl
  cases hsel with
  | whole => exact hbase.size_pos
  | bit | negative | unknown => exact Nat.one_pos
  | range _ _ _ _ _ _ hle => exact Nat.sub_pos_of_lt (Nat.lt_succ_of_le hle)
  | part _ _ _ _ _ hpos => exact hpos
  | partUnknown _ _ _ _ hpos => exact hpos

/-! ## Reading -/

theorem evalRequest_vector (st : Store T) {h : List String} {n : String} {w : Nat}
    (hw : T.width (identifierName h n) = some w) {k : Nat} (hk : k ≤ w) :
    evalRequest st (.ident h n) (.context k none) = some (st.signal (identifierName h n)) := by
  rw [evalRequest, Store.signal?_eq_some hw]
  exact widen_of_le (by rw [Request.width_context]; exact hk.trans (st.signal_width _ w hw).ge)

/-- What a base reads as, in a context no wider than it. -/
theorem Base.Placed.exists_eval {st : Store T} {b : Base} {size : Nat} {c : Option Container}
    (h : b.Placed st size c) : ∃ u : Value, u.width = size ∧ (∀ i < size, u.bit i = c.bind fun c => (c.read st).bit i) ∧
      ∀ k ≤ size, evalRequest st b.expr (.context k none) = some u := by
  have hword : ∀ (hier : List String) (n : String) (i : Expr) (ew depth k : Nat) (v : Value),
      T.memory (identifierName hier n) = some (ew, depth) → k ≤ ew → evalRequest st i (.context 0 none) = some v →
      evalRequest st (.bitSelect (.ident hier n) i) (.context k none) = (selectWord T st (identifierName hier n) ew depth
        i v (evalRequest st i (.context (selfWidth T i) (some true)))) := by
    intro hier n i ew depth k v hmem hk hi
    have htarget : memoryTarget? T (.ident hier n) = some (identifierName hier n, ew, depth) := by
      rw [memoryTarget?, hmem]
      rfl
    rw [evalRequest, htarget]
    dsimp only
    rw [hi]
    show (selectWord T st _ ew depth i v _).bind (fun r => widen _ r k) = _
    cases hsel : selectWord T st (identifierName hier n) ew depth i v
        (evalRequest st i (.context (selfWidth T i) (some true))) with
    | none => rfl
    | some r => exact widen_of_le (by rw [selectWord_width hmem hsel]; exact hk)
  cases h with
  | @vector hier n w hw hmem hbase =>
    exact ⟨_, st.signal_width _ _ hw, fun i _ => rfl, fun k hk => evalRequest_vector st hw hk⟩
  | @word hier n i _ depth v hmem hbase hi hdef hint hin =>
    refine ⟨st.word (identifierName hier n) v.val, st.word_width _ _ _ _ hmem, fun _ _ => rfl, fun k hk => ?_⟩
    rw [Base.expr, hword hier n i size depth k v hmem hk hi, selectWord, if_pos hdef, hint]
    show some (st.readWord (identifierName hier n) size depth (v.val : Int)) = _
    rw [Store.readWord, if_pos (by omega), Int.toNat_natCast]
  | @outside hier n i _ depth v p hmem hbase hi hdef hint hout =>
    refine ⟨Value.x size, x_width size, fun j hj => ?_, fun k hk => ?_⟩
    · rw [bit_x, if_pos hj]
      rfl
    · rw [Base.expr, hword hier n i size depth k v hmem hk hi, selectWord, if_pos hdef, hint]
      show some (st.readWord (identifierName hier n) size depth p) = _
      rw [Store.readWord, if_neg hout]
  | @unknown hier n i _ depth v hmem hbase hi hdef =>
    refine ⟨Value.x size, x_width size, fun j hj => ?_, fun k hk => ?_⟩
    · rw [bit_x, if_pos hj]
      rfl
    · rw [Base.expr, hword hier n i size depth k v hmem hk hi, selectWord,
        if_neg (by rw [hdef]; exact Bool.false_ne_true)]

theorem Base.Placed.selfWidth {st : Store T} {b : Base} {size : Nat} {c : Option Container} (h : b.Placed st size c) :
    Veriforge.selfWidth T b.expr = size := by
  have hword : ∀ (hier : List String) (n : String) (i : Expr) (depth : Nat),
      T.memory (identifierName hier n) = some (size, depth) →
      Veriforge.selfWidth T (.bitSelect (.ident hier n) i) = size := by
    intro hier n i depth hmem
    rw [Veriforge.selfWidth, memoryWidth?, memoryTarget?, hmem]
    rfl
  cases h with
  | vector hw =>
    rw [Base.expr, Veriforge.selfWidth, hw]
  | word hmem => exact hword _ _ _ _ hmem
  | outside hmem => exact hword _ _ _ _ hmem
  | unknown hmem => exact hword _ _ _ _ hmem

/-- What is selected from an expression numbered from 0. -/
theorem Sel.Placed.eval {st : Store T} {sel : Sel} {size width : Nat} {low : Option Int}
    (h : sel.Placed st size width low) (hsel : sel ≠ .whole) {e : Expr} {u : Value}
    (hu : evalRequest st e (.context 0 none) = some u) (hbase : selectBase T e = 0) (hmem : memoryTarget? T e = none) :
    evalRequest st (sel.on e) (.context (Veriforge.selfWidth T (sel.on e)) none) = some (u.selected low width) := by
  have hbit : ∀ i, Veriforge.selfWidth T (.bitSelect e i) = 1 := by
    intro i
    rw [Veriforge.selfWidth, memoryWidth?, hmem]
    rfl
  have hone : ∀ low, widen false (u.selected low 1) 1 = some (u.selected low 1) :=
    fun low => widen_of_le (selected_width u low Nat.one_pos).ge
  cases h with
  | whole => exact absurd rfl hsel
  | @bit i v hi hdef hint =>
    rw [Sel.on, hbit, evalRequest, hmem]
    dsimp only
    rw [hu, hi]
    show (selectBit T e u i v _).bind _ = _
    rw [selectBit, if_pos hdef, hint, hbase]
    show widen false (u.getBit ((v.val : Int) - 0)) 1 = _
    rw [Int.sub_zero, getBit_eq_selected, hone]
  | @negative i v p hi hdef hint hp =>
    rw [Sel.on, hbit, evalRequest, hmem]
    dsimp only
    rw [hu, hi]
    show (selectBit T e u i v _).bind _ = _
    rw [selectBit, if_pos hdef, hint, hbase]
    show widen false (u.getBit (p - 0)) 1 = _
    rw [Int.sub_zero, getBit_eq_selected, hone]
  | @unknown i v hi hdef =>
    rw [Sel.on, hbit, evalRequest, hmem]
    dsimp only
    rw [hu, hi]
    show (selectBit T e u i v _).bind _ = _
    rw [selectBit, if_neg (by rw [hdef]; exact Bool.false_ne_true)]
    exact hone none
  | @range em el vm vl hm hdm hintm hl hdl hintl hle hself =>
    rw [Sel.on, evalRequest, hu, hm, hl]
    show (selectRange T e u em vm _ el vl _).bind _ = _
    rw [selectRange, if_pos ⟨hdm, hdl⟩, hintm, hintl, hbase]
    show widen false (u.getRange ((vm.val : Int) - 0) ((vl.val : Int) - 0)) _ = _
    rw [Int.sub_zero, Int.sub_zero, getRange_eq_selected, show min (vm.val : Int) vl.val = vl.val by omega,
      show ((vm.val : Int) - vl.val).natAbs + 1 = vm.val + 1 - vl.val by omega]
    exact widen_of_le (by rw [selected_width u _ (by omega)]; exact hself e)
  | @part eb ew d vb vw p hb hdb hp hw hdw hpos hself =>
    rw [Sel.on, evalRequest, hu, hb, hw]
    show (selectPart T e u eb vb vw d).bind _ = _
    rw [selectPart, if_pos ⟨hdb, hdw⟩, hp, hbase]
    show widen false (getPart u (p - 0) vw.val d) _ = _
    rw [Int.sub_zero, getPart_eq_selected]
    exact widen_of_le (by rw [selected_width u _ hpos]; exact hself e)
  | @partUnknown eb ew d vb vw hb hdb hw hdw hpos hself =>
    rw [Sel.on, evalRequest, hu, hb, hw]
    show (selectPart T e u eb vb vw d).bind _ = _
    rw [selectPart, if_neg (by rw [hdb]; simp), hdw, if_pos ⟨rfl, hpos⟩]
    exact widen_of_le (by rw [x_width]; exact hself e)

theorem bits_eq_map_cells {st : Store T} {v : Value} {pl : Place} (hw : v.width = pl.width)
    (hbit : ∀ i < pl.width, v.bit i = cell? st (pl.cellAt i)) : v.bits = pl.cells.map (cell? st) := by
  rw [bits, Value.segment, Place.cells, List.map_map, hw, Nat.sub_zero]
  refine List.map_congr_left fun i hi => ?_
  rw [List.mem_reverse, List.mem_range'_1] at hi
  exact hbit i (by omega)

/-- The evaluator reads the cells of a target. -/
theorem Target.Placed.exists_eval {st : Store T} {t : Target} {pl : Place} (h : t.Placed st pl) :
    ∃ v, evalRequest st t.expr (.context (Veriforge.selfWidth T t.expr) none) = some v ∧
      v.bits = pl.cells.map (cell? st) := by
  have hpos := h.width_pos
  obtain ⟨hplaced, hsel⟩ := h
  obtain ⟨base, sel⟩ := t
  obtain ⟨c, size, low, width⟩ := pl
  dsimp only at hplaced hsel
  obtain ⟨u, hu, hubit, heval⟩ := hplaced.exists_eval
  have hread : ∀ i : Nat, u.selectedBit low i = cell? st ((Place.mk c size low width).cellAt i) := by
    intro i
    rw [selectedBit, Place.cellAt]
    cases low with
    | none => cases c <;> rfl
    | some p =>
      show u.bitAt (p + i) = _
      rw [bitAt, hu]
      by_cases hin : 0 ≤ p + i ∧ p + i < size
      · rw [if_pos hin, hubit (p + i).toNat (by omega)]
        cases c with
        | none => rfl
        | some c =>
          show (c.read st).bit _ = cell? st (if 0 ≤ p + i ∧ p + i < size then some (c, (p + i).toNat) else none)
          rw [if_pos hin]
          rfl
      · rw [if_neg hin]
        cases c with
        | none => rfl
        | some c =>
          show none = cell? st (if 0 ≤ p + i ∧ p + i < size then some (c, (p + i).toNat) else none)
          rw [if_neg hin]
          rfl
  by_cases hwhole : sel = .whole
  · -- all bits, in place
    subst hwhole
    cases hsel
    refine ⟨u, ?_, bits_eq_map_cells hu fun i hi => ?_⟩
    · show evalRequest st base.expr (.context (Veriforge.selfWidth T base.expr) none) = _
      rw [hplaced.selfWidth]
      exact heval size le_rfl
    · rw [← hread, selectedBit]
      show u.bit i = u.bitAt (0 + i)
      have hi : i < size := hi
      rw [bitAt, hu, if_pos (by omega), Int.zero_add, Int.toNat_natCast]
  · have hnumbered : selectBase T base.expr = 0 ∧ memoryTarget? T base.expr = none := by
      have hword : ∀ (hier : List String) (n : String) (i : Expr), T.memoryBase (identifierName hier n) = 0 →
          selectBase T (Base.word hier n i).expr = 0 ∧ memoryTarget? T (Base.word hier n i).expr = none := by
        intro hier n i hbase
        refine ⟨?_, rfl⟩
        show (if T.isMemory (identifierName hier n) = true then T.memoryBase (identifierName hier n) else 0) = 0
        rw [hbase, ite_self]
      cases hplaced with
      | vector hw hmem hbase => exact ⟨hbase, by rw [Base.expr, memoryTarget?, hmem]; rfl⟩
      | word _ hbase => exact hword _ _ _ hbase
      | outside _ hbase => exact hword _ _ _ hbase
      | unknown _ hbase => exact hword _ _ _ hbase
    refine ⟨_, hsel.eval hwhole (heval 0 (Nat.zero_le _)) hnumbered.1 hnumbered.2,
      bits_eq_map_cells (selected_width u low hpos) fun i hi => ?_⟩
    rw [bit_selected u low hi, hread]

/-! ## Writing -/

/-- A target within its container gives its bits and leaves the others. -/
theorem Sel.Placed.exists_put {st : Store T} {sel : Sel} {size width p : Nat}
    (h : sel.Placed st size width (some (p : Int))) (hin : p + width ≤ size) {current v : Value}
    (hcurrent : current.width = size) (hv : v.width = width) :
    ∃ u, sel.put st 0 current v = some (some u) ∧ u.width = size ∧
      ∀ i < size, u.bit i = if p ≤ i ∧ i < p + width then v.bit (i - p) else current.bit i := by
  have hrange : ∀ (m l : Int), l = p → m = p + width - 1 → ∀ i < size,
      (current.setRange m l v).bit i = if p ≤ i ∧ i < p + width then v.bit (i - p) else current.bit i := by
    rintro m l rfl rfl i hi
    rw [bit_setRange _ _ _ _ (by omega)]
    by_cases hin : p ≤ i ∧ i < p + width
    · rw [if_pos (by omega), if_pos hin, show ((i : Int) - p).toNat = i - p by omega]
    · rw [if_neg (by omega), if_neg hin]
  generalize hlow : some (p : Int) = low at h
  cases h with
  | whole =>
    have hp : p = 0 := by
      have := Option.some.inj hlow
      omega
    subst hp
    refine ⟨v.resize current.width, rfl, by rw [resize_width, hcurrent], fun i hi => ?_⟩
    rw [hcurrent, ← hv, resize_self, if_pos ⟨Nat.zero_le i, by omega⟩, Nat.sub_zero]
  | @bit i index hi hdef hint =>
    have hp : index.val = p := by
      have := Option.some.inj hlow
      omega
    obtain ⟨r, hr, hrw, hbit⟩ := exists_setBit (a := current) v (k := p) (by omega)
    refine ⟨r, ?_, hrw.trans hcurrent, fun j hj => ?_⟩
    · rw [Sel.put, hi]
      show (if index.isDefined = true ∧ 0 ≤ (index.val : Int) - 0 ∧ (index.val : Int) - 0 < current.width then
        (current.setBit ((index.val : Int) - 0) (v.val &&& 1) (v.mask &&& 1)).bind fun u => some (some u)
        else some none) = _
      rw [Int.sub_zero, hp, if_pos ⟨hdef, by omega, by omega⟩, hr]
      rfl
    · rw [hbit j (by omega)]
      by_cases hjp : j = p
      · rw [if_pos hjp, if_pos (by omega), hjp, Nat.sub_self]
      · rw [if_neg hjp, if_neg (by omega)]
  | @negative i index q hi hdef hint hq =>
    have := Option.some.inj hlow
    omega
  | unknown => cases hlow
  | partUnknown => cases hlow
  | @range em el vm vl hm hdm hintm hl hdl hintl hle hself =>
    have hp : vl.val = p := by
      have := Option.some.inj hlow
      omega
    refine ⟨current.setRange (vm.val - 0) (vl.val - 0) v, ?_, by rw [setRange_width, hcurrent],
      hrange _ _ (by omega) (by omega)⟩
    rw [Sel.put, hm, hl]
    show (if vm.isDefined = true ∧ vl.isDefined = true then some (some _) else some none) = _
    rw [if_pos ⟨hdm, hdl⟩]
  | @part eb ew d vb vw q hb hdb hq hw hdw hpos hself =>
    have hlow := Option.some.inj hlow
    have hcut : v.resize vw.val = v := by rw [← hv, resize_self]
    cases d with
    | up =>
      rw [if_pos rfl] at hlow
      refine ⟨current.setRange (q - 0 + vw.val - 1) (q - 0) v, ?_, by rw [setRange_width, hcurrent],
        hrange _ _ (by omega) (by omega)⟩
      rw [Sel.put, hb, hw]
      show (if vb.isDefined = true ∧ vw.isDefined = true then
        (partBase T eb vb).bind fun p => some (some (current.setRange (p - 0 + vw.val - 1) (p - 0) (v.resize vw.val)))
        else some none) = _
      rw [if_pos ⟨hdb, hdw⟩, hq, hcut]
      rfl
    | down =>
      rw [if_neg (by decide)] at hlow
      refine ⟨current.setRange (q - 0) (q - 0 - vw.val + 1) v, ?_, by rw [setRange_width, hcurrent],
        hrange _ _ (by omega) (by omega)⟩
      rw [Sel.put, hb, hw]
      show (if vb.isDefined = true ∧ vw.isDefined = true then
        (partBase T eb vb).bind fun p => some (some (current.setRange (p - 0) (p - 0 - vw.val + 1) (v.resize vw.val)))
        else some none) = _
      rw [if_pos ⟨hdb, hdw⟩, hq, hcut]
      rfl

theorem bit_setSignal (st : Store T) {name : String} {w : Nat} {u : Value} (hw : T.width name = some w)
    (hu : u.width = w) (c : Container) (i : Nat) :
    (c.read (st.setSignal name u)).bit i = if c = .signal name then u.bit i else (c.read st).bit i := by
  cases c with
  | word n k => rw [if_neg Container.noConfusion]; rfl
  | signal n =>
    show (if n = name then u.resize _ else st.signal n).bit i = _
    by_cases hn : n = name
    · rw [if_pos hn, if_pos (by rw [hn]), hw, Option.getD_some, ← hu, resize_self]
    · rw [if_neg hn, if_neg fun h => hn (Container.signal.inj h)]
      rfl

theorem bit_setWord (st : Store T) {name : String} {ew depth k : Nat} {u : Value}
    (hmem : T.memory name = some (ew, depth)) (hu : u.width = ew) (c : Container) (i : Nat) :
    (c.read (setWord st name k u)).bit i = if c = .word name k then u.bit i else (c.read st).bit i := by
  cases c with
  | signal n => rw [if_neg Container.noConfusion]; rfl
  | word n j =>
    show (if n = name ∧ j = k then u.resize _ else st.word n j).bit i = _
    by_cases hn : n = name ∧ j = k
    · rw [if_pos hn, if_pos (by rw [hn.1, hn.2]), hmem, Option.elim_some, ← hu, resize_self]
    · rw [if_neg hn, if_neg fun h => hn (Container.word.inj h)]
      rfl

/-- A base within its table gives all its bits. -/
theorem Target.Placed.exists_write {st : Store T} {t : Target} {pl : Place} (h : t.Placed st pl) {c : Container}
    {p : Nat} (hc : pl.container = some c) (hp : pl.low = some (p : Int)) (hin : p + pl.width ≤ pl.size) {v : Value}
    (hv : v.width = pl.width) :
    ∃ st', t.write st v = some st' ∧ ∀ d i, (Container.read st' d).bit i =
      if d = c ∧ p ≤ i ∧ i < p + pl.width then v.bit (i - p) else (d.read st).bit i := by
  obtain ⟨hplaced, hsel⟩ := h
  obtain ⟨base, sel⟩ := t
  obtain ⟨_, size, _, width⟩ := pl
  cases hc
  cases hp
  dsimp only at hplaced hsel hin hv ⊢
  -- what the container holds, and what it is left with
  have hcell : ∀ (st' : Store T) (u : Value), u.width = size → (c.read st).width = size →
      (∀ i < size, u.bit i = if p ≤ i ∧ i < p + width then v.bit (i - p) else (c.read st).bit i) →
      (∀ d i, (Container.read st' d).bit i = if d = c then u.bit i else (d.read st).bit i) →
      ∀ d i, (Container.read st' d).bit i =
        if d = c ∧ p ≤ i ∧ i < p + width then v.bit (i - p) else (d.read st).bit i := by
    intro st' u hu hold hbit hset d i
    rw [hset]
    by_cases hd : d = c
    · subst hd
      rw [if_pos rfl]
      by_cases hi : i < size
      · rw [hbit i hi]
        by_cases hpi : p ≤ i ∧ i < p + width
        · rw [if_pos hpi, if_pos ⟨rfl, hpi⟩]
        · rw [if_neg hpi, if_neg fun h => hpi h.2]
      · rw [bit_of_width_le (by omega), if_neg (by omega), bit_of_width_le (by omega)]
    · rw [if_neg hd, if_neg fun h => hd h.1]
  generalize hcontainer : some c = container at hplaced
  cases hplaced with
  | @vector hier n w hw hmem hbase =>
    obtain rfl := Option.some.inj hcontainer
    have hwidth := st.signal_width _ _ hw
    obtain ⟨u, hu, huw, hbit⟩ := hsel.exists_put hin hwidth hv
    refine ⟨st.setSignal (identifierName hier n) u, ?_,
      hcell _ u huw hwidth hbit fun d i => bit_setSignal st hw huw d i⟩
    rw [Target.write]
    dsimp only
    rw [hbase]
    show (sel.put st 0 _ v).bind _ = _
    rw [hu]
    rfl
  | @word hier n i _ depth index hmem hbase hi hdef hint hlt =>
    obtain rfl := Option.some.inj hcontainer
    have hwidth := st.word_width _ _ _ index.val hmem
    obtain ⟨u, hu, huw, hbit⟩ := hsel.exists_put hin hwidth hv
    refine ⟨setWord st (identifierName hier n) index.val u, ?_,
      hcell _ u huw hwidth hbit fun d i => bit_setWord st hmem huw d i⟩
    have hread : st.readWord (identifierName hier n) size depth index.val =
        st.word (identifierName hier n) index.val := by
      rw [Store.readWord, if_pos (by omega), Int.toNat_natCast]
    rw [Target.write]
    dsimp only
    rw [hmem]
    dsimp only
    rw [hi, hbase]
    show (sel.put st 0 (st.readWord (identifierName hier n) size depth index.val) v).bind _ = _
    rw [hread, hu]
    show (if index.isDefined = true ∧ index.val < depth then some _ else some st) = _
    rw [if_pos ⟨hdef, hlt⟩]
    rfl
  | outside => cases hcontainer
  | unknown => cases hcontainer

/-- The cells of a place within its container. -/
theorem Place.cells_eq_map_some {pl : Place} {c : Container} {p : Nat} (hc : pl.container = some c)
    (hp : pl.low = some (p : Int)) (hin : p + pl.width ≤ pl.size) :
    pl.cells = ((List.range' 0 pl.width).reverse.map fun i => (c, p + i)).map some := by
  rw [cells, List.map_map]
  refine List.map_congr_left fun i hi => ?_
  rw [List.mem_reverse, List.mem_range'_1] at hi
  exact cellAt_of_inside hc hp (by omega)

theorem Target.Placed.exists_cell {st : Store T} {t : Target} {pl : Place} (h : t.Placed st pl) {cs : List Cell}
    (hcs : pl.cells = cs.map some) {v : Value} (hv : v.width = pl.width) :
    ∃ st', t.write st v = some st' ∧ cell st' = putCells (cell st) cs v.bits := by
  obtain ⟨c, p, hc, hp, hin⟩ := Place.exists_inside h.width_pos (by rw [hcs]; simp)
  obtain ⟨st', hst', hread⟩ := h.exists_write hc hp hin hv
  have hlist : cs = (List.range' 0 pl.width).reverse.map fun i => (c, p + i) :=
    List.map_injective_iff.mpr (Option.some_injective _) (hcs.symm.trans (Place.cells_eq_map_some hc hp hin))
  have hnodup : cs.Nodup := by
    rw [hlist]
    refine List.Nodup.map (fun i j hij => Nat.add_left_cancel (Prod.mk.inj hij).2) ?_
    rw [List.nodup_reverse]
    exact List.nodup_range'
  refine ⟨st', hst', funext fun d => ?_⟩
  rw [cell, hread]
  by_cases hd : d.1 = c ∧ p ≤ d.2 ∧ d.2 < p + pl.width
  · have hget : cs[pl.width - 1 - (d.2 - p)]? = some d := by
      have hcell := pl.cells_getElem? (i := d.2 - p) (by omega)
      rw [Place.cellAt_of_inside hc hp (by omega), hcs, List.getElem?_map] at hcell
      obtain ⟨d', hd', heq⟩ := Option.map_eq_some_iff.mp hcell
      obtain rfl := Option.some.inj heq
      rw [hd', show p + (d.2 - p) = d.2 by omega, ← hd.1]
    have hbit := segment_getElem? v (Nat.zero_le (d.2 - p)) (show d.2 - p < v.width by omega)
    rw [hv] at hbit
    rw [if_pos hd]
    refine (putCells_getElem? (cell st) hnodup hget ?_).symm
    rw [bits, hv]
    exact hbit
  · rw [if_neg hd, putCells_of_notMem _ _ fun hmem => hd ?_]
    · rfl
    · rw [hlist, List.mem_map] at hmem
      obtain ⟨i, hi, rfl⟩ := hmem
      rw [List.mem_reverse, List.mem_range'_1] at hi
      exact ⟨rfl, by dsimp only; omega, by dsimp only; omega⟩

/-! ## Concatenations of targets -/

theorem Target.Placed.lhsWidth_eq {st : Store T} {t : Target} {pl : Place} (h : t.Placed st pl) :
    t.lhsWidth st = some (pl.width : Int) := by
  obtain ⟨hplaced, hsel⟩ := h
  obtain ⟨base, sel⟩ := t
  obtain ⟨c, size, low, width⟩ := pl
  dsimp only at hplaced hsel
  cases hsel with
  | whole =>
    have hword : ∀ (hier : List String) (n : String) (i : Expr) (depth : Nat),
        T.memory (identifierName hier n) = some (size, depth) →
        (Target.mk (.word hier n i) .whole).lhsWidth st = some (size : Int) := by
      intro hier n i depth hmem
      rw [lhsWidth]
      dsimp only
      rw [hmem]
      rfl
    cases hplaced with
    | vector hw =>
      rw [lhsWidth]
      dsimp only
      rw [st.signal_width _ _ hw]
    | word hmem => exact hword _ _ _ _ hmem
    | outside hmem => exact hword _ _ _ _ hmem
    | unknown hmem => exact hword _ _ _ _ hmem
  | bit | negative | unknown => rfl
  | range hm hdm hintm hl hdl hintl hle =>
    rw [lhsWidth]
    dsimp only
    rw [hm, hl]
    show some (if _ then _ else _) = _
    rw [if_pos ⟨hdm, hdl⟩]
    congr 1
    omega
  | part hb hdb hp hw hdw | partUnknown hb hdb hw hdw =>
    rw [lhsWidth]
    dsimp only
    rw [hw]
    show some (if _ then _ else _) = _
    rw [if_pos hdw]

/-- All cells of some targets, those of the first one first. -/
def allCells (pls : List Place) : List (Option Cell) := pls.flatMap Place.cells

theorem allCells_length (pls : List Place) : (allCells pls).length = (pls.map Place.width).sum := by
  rw [allCells, List.length_flatMap]
  congr 1
  exact List.map_congr_left fun pl _ => pl.cells_length

theorem lhsWidths_eq {st : Store T} {ts : List Target} {pls : List Place}
    (h : List.Forall₂ (Target.Placed st) ts pls) : lhsWidths st ts = some (((pls.map Place.width).sum : Nat) : Int) := by
  induction h with
  | nil => rfl
  | @cons t pl ts pls ht hts ih =>
    rw [lhsWidths, ht.lhsWidth_eq, ih, List.map_cons, List.sum_cons, Nat.cast_add]
    rfl

/-- The evaluator reads the cells of the targets. -/
theorem exists_evalParts {st : Store T} {ts : List Target} {pls : List Place}
    (h : List.Forall₂ (Target.Placed st) ts pls) :
    ∃ vs, evalParts st (ts.map Target.expr) = some vs ∧ (vs.map bits).flatten = (allCells pls).map (cell? st) := by
  induction h with
  | nil => exact ⟨[], rfl, rfl⟩
  | @cons t pl ts pls ht hts ih =>
    obtain ⟨v, hv, hbits⟩ := ht.exists_eval
    obtain ⟨vs, hvs, hrest⟩ := ih
    refine ⟨v :: vs, ?_, ?_⟩
    · rw [List.map_cons, evalParts, hv, hvs]
      rfl
    · rw [List.map_cons, List.flatten_cons, hbits, hrest, ← List.map_append]
      rfl

variable {P : Store T → Prop}

/-- The stores of `P` are left for no others. -/
theorem writeTargets_keeps {ts : List Target}
    (hP : ∀ t ∈ ts, ∀ st v st', P st → t.write st v = some st' → P st') {v : Value} {bitPos : Int} {st st' : Store T}
    (hst : P st) (h : writeTargets v ts bitPos st = some st') : P st' := by
  induction ts generalizing bitPos st with
  | nil =>
    cases h
    exact hst
  | cons t ts ih =>
    rw [writeTargets] at h
    obtain ⟨w, -, h⟩ := Option.bind_eq_some_iff.mp h
    obtain ⟨st₁, hst₁, h⟩ := Option.bind_eq_some_iff.mp h
    exact ih (fun u hu => hP u (List.mem_cons_of_mem _ hu)) (hP t List.mem_cons_self _ _ _ hst hst₁) h

/-- An assignment to a concatenation writes its cells in order. -/
theorem exists_writeTargets {ts : List Target} {pls : List Place}
    (hplaced : ∀ st, P st → List.Forall₂ (Target.Placed st) ts pls)
    (hP : ∀ t ∈ ts, ∀ st v st', P st → t.write st v = some st' → P st') {cs : List Cell}
    (hcs : allCells pls = cs.map some) {v : Value} {bitPos : Nat} (hpos : bitPos = (pls.map Place.width).sum)
    (hv : bitPos ≤ v.width) {st : Store T} (hst : P st) :
    ∃ st', writeTargets v ts bitPos st = some st' ∧ cell st' = putCells (cell st) cs (v.segment 0 bitPos) := by
  induction ts generalizing pls cs bitPos st with
  | nil =>
    cases hplaced st hst
    cases List.map_eq_nil_iff.mp hcs.symm
    exact ⟨st, rfl, rfl⟩
  | cons t ts ih =>
    cases pls with
    | nil => cases hplaced st hst
    | cons pl pls =>
      have ht := (List.forall₂_cons.mp (hplaced st hst)).1
      have hwidth := ht.width_pos
      rw [allCells, List.flatMap_cons] at hcs
      obtain ⟨ds, es, rfl, hds, hes⟩ := List.map_eq_append_iff.mp hcs.symm
      rw [List.map_cons, List.sum_cons] at hpos
      have hbits : (v.getRange ((bitPos - 1 : Nat) : Int) (bitPos - pl.width : Nat)).bits =
          v.segment (bitPos - pl.width) bitPos := by
        rw [bits_getRange (by omega) (by omega), Nat.sub_add_cancel (by omega)]
      have hw : (v.getRange ((bitPos - 1 : Nat) : Int) (bitPos - pl.width : Nat)).width = pl.width := by
        rw [← bits_length, hbits, segment_length]
        omega
      obtain ⟨st₁, hst₁, hcell₁⟩ := ht.exists_cell hds.symm hw
      obtain ⟨st', hst', hcell'⟩ := ih (fun st hst => (List.forall₂_cons.mp (hplaced st hst)).2)
        (fun u hu => hP u (List.mem_cons_of_mem _ hu)) hes.symm
        (show bitPos - pl.width = _ by omega) (by omega)
        (hP t List.mem_cons_self _ _ _ hst hst₁)
      refine ⟨st', ?_, ?_⟩
      · rw [writeTargets, ht.lhsWidth_eq]
        show (t.write st (v.getRange ((bitPos : Int) - pl.width + pl.width - 1) ((bitPos : Int) - pl.width))).bind _ = _
        rw [show (bitPos : Int) - pl.width + pl.width - 1 = ((bitPos - 1 : Nat) : Int) by omega,
          show (bitPos : Int) - pl.width = ((bitPos - pl.width : Nat) : Int) by omega, hst₁]
        exact hst'
      · have hlen : ds.length = (v.segment (bitPos - pl.width) bitPos).length := by
          rw [← List.length_map some, hds, pl.cells_length, segment_length]
          omega
        rw [hcell', hcell₁, hbits, ← putCells_append _ hlen, segment_append _ (Nat.zero_le _) (Nat.sub_le _ _)]

end

end Lower

end Veriforge

import Mathlib.Data.List.Basic
import Mathlib.Data.Nat.Bitwise
import Veriforge.Except

/-! # AXI-Stream frames

`AXIStreamFrame`: a frame is a list of elements; `to_beats` packs them into beats and `from_beats` unpacks
what a sink has captured. -/

namespace Veriforge.Stream

/-- The elements of a beat: how many, of how many bits, and in which order. -/
structure Layout where
  elementsPerBeat : Nat
  elementSizeBits : Nat
  little : Bool
  elementsPerBeat_pos : 0 < elementsPerBeat
  elementSizeBits_pos : 0 < elementSizeBits

namespace Layout

/-- `element_max`. -/
def elementMax (L : Layout) : Nat := (1 <<< L.elementSizeBits) - 1

/-- `beat_max`. -/
def beatMax (L : Layout) : Nat := (1 <<< (L.elementsPerBeat * L.elementSizeBits)) - 1

/-- The lane of an element of a beat. -/
def lane (L : Layout) (i : Nat) : Nat := if L.little then i else L.elementsPerBeat - i - 1

end Layout

/-- An element, with what goes with it. -/
structure Element where
  data : Nat
  keep : Bool
  dest : Int
  tid : Int
  user : Int
  last : Bool
  deriving DecidableEq

/-- A frame, whose elements fit its layout. -/
structure Frame where
  layout : Layout
  elements : List Element
  fits : ∀ e ∈ elements, e.data ≤ layout.elementMax

/-- A beat of a frame. -/
structure Beat where
  tdata : Nat
  tkeep : Nat
  tdest : Int
  tuser : Int
  tid : Int
  tlast : Bool
  deriving DecidableEq

/-- The errors of frames and sinks, with the values of their messages. -/
inductive Fault where
  | elementsPerBeat
  | elementSizeBits
  | dest
  | tid
  | user
  | beatSize (beat : Nat)
  | validDropped
  | dataChanged (before now : Nat)
  | lastChanged (before now : Bool)
  | keepChanged (before now : Nat)
  deriving DecidableEq

/-! ## Packing -/

/-- The words of a beat that is not complete; the sets have each value once. -/
structure Packing where
  dataWord : Nat
  keepWord : Nat
  beatDest : List Int
  beatTid : List Int
  beatUser : List Int
  beatIndex : Nat

namespace Packing

def empty : Packing := ⟨0, 0, [], [], [], 0⟩

def add (L : Layout) (e : Element) (p : Packing) : Packing where
  dataWord := p.dataWord ||| e.data <<< (L.lane p.beatIndex * L.elementSizeBits)
  keepWord := p.keepWord ||| e.keep.toNat <<< L.lane p.beatIndex
  beatDest := p.beatDest.insert e.dest
  beatTid := p.beatTid.insert e.tid
  beatUser := p.beatUser.insert e.user
  beatIndex := p.beatIndex + 1

/-- The beat, whose last element was `e`. -/
def beat (e : Element) (p : Packing) : Except Fault Beat :=
  match p.beatDest, p.beatTid, p.beatUser with
  | [dest], [tid], [user] => .ok ⟨p.dataWord, p.keepWord, dest, user, tid, e.last⟩
  | [_], [_], _ => .error .user
  | [_], _, _ => .error .tid
  | _, _, _ => .error .dest

end Packing

namespace Frame

/-- The loop of `to_beats`. -/
def pack (L : Layout) : Packing → List Element → Except Fault (List Beat)
  | _, [] => .ok []
  | p, e :: es =>
      let p := p.add L e
      if L.elementsPerBeat ≤ p.beatIndex ∨ es = [] then do
        let beat ← p.beat e
        let beats ← pack L .empty es
        return beat :: beats
      else pack L p es

/-- `to_beats`. -/
def toBeats (frame : Frame) : Except Fault (List Beat) := pack frame.layout .empty frame.elements

/-- The beats of a frame; a frame that has none is never sent. -/
def beats (frame : Frame) : List Beat :=
  match frame.toBeats with
  | .ok beats => beats
  | .error _ => []

theorem beats_of_ok {frame : Frame} {beats : List Beat} (h : frame.toBeats = .ok beats) : frame.beats = beats := by
  unfold Frame.beats
  rw [h]

end Frame

/-! ## Beats fit their layout -/

namespace Layout

theorem lane_lt (L : Layout) {i : Nat} (h : i < L.elementsPerBeat) : L.lane i < L.elementsPerBeat := by
  unfold lane
  split <;> omega

theorem elementMax_lt (L : Layout) : L.elementMax < 2 ^ L.elementSizeBits := by
  unfold elementMax
  rw [Nat.one_shiftLeft]
  exact Nat.sub_lt (Nat.two_pow_pos _) Nat.one_pos

/-- An element in its lane stays within the beat. -/
theorem shifted_lt (L : Layout) {x i : Nat} (hx : x ≤ L.elementMax) (hi : i < L.elementsPerBeat) :
    x <<< (L.lane i * L.elementSizeBits) < 2 ^ (L.elementsPerBeat * L.elementSizeBits) := by
  have hlane : (L.lane i + 1) * L.elementSizeBits ≤ L.elementsPerBeat * L.elementSizeBits :=
    Nat.mul_le_mul_right _ (L.lane_lt hi)
  rw [Nat.shiftLeft_eq]
  calc x * 2 ^ (L.lane i * L.elementSizeBits)
      < 2 ^ L.elementSizeBits * 2 ^ (L.lane i * L.elementSizeBits) :=
        Nat.mul_lt_mul_of_pos_right (hx.trans_lt L.elementMax_lt) (Nat.two_pow_pos _)
    _ = 2 ^ ((L.lane i + 1) * L.elementSizeBits) := by rw [← Nat.pow_add, Nat.succ_mul, Nat.add_comm]
    _ ≤ 2 ^ (L.elementsPerBeat * L.elementSizeBits) := Nat.pow_le_pow_right Nat.two_pos hlane

theorem keep_lt (L : Layout) (keep : Bool) {i : Nat} (hi : i < L.elementsPerBeat) :
    keep.toNat <<< L.lane i < 2 ^ L.elementsPerBeat := by
  rw [Nat.shiftLeft_eq]
  calc keep.toNat * 2 ^ L.lane i ≤ 1 * 2 ^ L.lane i := Nat.mul_le_mul_right _ (Bool.toNat_le keep)
    _ < 2 ^ L.elementsPerBeat := by
        rw [Nat.one_mul]
        exact Nat.pow_lt_pow_right Nat.one_lt_two (L.lane_lt hi)

end Layout

/-- The words of a beat are within its layout. -/
structure Packing.Within (L : Layout) (p : Packing) : Prop where
  data : p.dataWord < 2 ^ (L.elementsPerBeat * L.elementSizeBits)
  keep : p.keepWord < 2 ^ L.elementsPerBeat

theorem Packing.within_empty (L : Layout) : Packing.Within L .empty := ⟨Nat.two_pow_pos _, Nat.two_pow_pos _⟩

theorem Packing.Within.add {L : Layout} {p : Packing} (h : p.Within L) (hi : p.beatIndex < L.elementsPerBeat)
    {e : Element} (he : e.data ≤ L.elementMax) : (p.add L e).Within L :=
  ⟨Nat.or_lt_two_pow h.data (L.shifted_lt he hi), Nat.or_lt_two_pow h.keep (L.keep_lt e.keep hi)⟩

theorem Packing.Within.beat {L : Layout} {p : Packing} (h : p.Within L) {e : Element} {b : Beat}
    (hb : p.beat e = .ok b) :
    b.tdata < 2 ^ (L.elementsPerBeat * L.elementSizeBits) ∧ b.tkeep < 2 ^ L.elementsPerBeat := by
  unfold Packing.beat at hb
  split at hb
  · rw [← Except.ok.inj hb]
    exact ⟨h.data, h.keep⟩
  all_goals exact nomatch hb

theorem Frame.within_of_pack {L : Layout} : ∀ (es : List Element) (p : Packing) (bs : List Beat),
    (∀ e ∈ es, e.data ≤ L.elementMax) → p.Within L → p.beatIndex < L.elementsPerBeat → Frame.pack L p es = .ok bs →
      ∀ b ∈ bs, b.tdata < 2 ^ (L.elementsPerBeat * L.elementSizeBits) ∧ b.tkeep < 2 ^ L.elementsPerBeat := by
  intro es
  induction es with
  | nil =>
    intro p bs _ _ _ h b hb
    rw [← Except.ok.inj h] at hb
    exact absurd hb List.not_mem_nil
  | cons e es ih =>
    intro p bs hes hp hi h b hb
    rw [List.forall_mem_cons] at hes
    have hadd := hp.add hi hes.1
    unfold Frame.pack at h
    dsimp only at h
    split at h
    · obtain ⟨beat, hbeat, h⟩ := ok_of_bind h
      obtain ⟨rest, hrest, h⟩ := ok_of_bind h
      rw [← Except.ok.inj h, List.mem_cons] at hb
      rcases hb with rfl | hb
      · exact hadd.beat hbeat
      · exact ih _ _ hes.2 (Packing.within_empty L) L.elementsPerBeat_pos hrest b hb
    · next hmore => exact ih _ _ hes.2 hadd (Nat.not_le.mp (not_or.mp hmore).1) h b hb

/-! ## What an interface carries -/

/-- The signals of an interface besides VALID and READY, by their widths. -/
structure Interface where
  tdata : Nat
  tlast : Bool
  tkeep : Option Nat
  tdest : Option Nat
  tuser : Option Nat
  tid : Option Nat

/-- A beat as a sink reads it. -/
structure Carried where
  tdata : Nat
  tkeep : Nat
  tdest : Nat
  tuser : Nat
  tid : Nat
  tlast : Bool
  deriving DecidableEq

namespace Interface

/-- `_infer_layout`. -/
def elementsPerBeat (I : Interface) : Nat := I.tkeep.getD 1

def elementSizeBits (I : Interface) : Nat := I.tdata / I.elementsPerBeat

/-- The layout, as the constructor of a frame checks it. -/
def layout (I : Interface) (little : Bool) : Except Fault Layout :=
  if h : 0 < I.elementsPerBeat then
    if h' : 0 < I.elementSizeBits then .ok ⟨I.elementsPerBeat, I.elementSizeBits, little, h, h'⟩
    else .error .elementSizeBits
  else .error .elementsPerBeat

/-- A value on a wire of `w` bits; a sink reads 0 where there is none. -/
def onWire (x : Int) : Option Nat → Nat
  | some w => (x % 2 ^ w).toNat
  | none => 0

/-- What arrives of a beat: every value cut to its wire, and the sink's default where there is none. -/
def carry (I : Interface) (b : Beat) : Carried where
  tdata := b.tdata % 2 ^ I.tdata
  tkeep :=
    match I.tkeep with
    | some w => b.tkeep % 2 ^ w
    | none => (1 <<< I.elementsPerBeat) - 1
  tdest := onWire b.tdest I.tdest
  tuser := onWire b.tuser I.tuser
  tid := onWire b.tid I.tid
  tlast := !I.tlast || b.tlast

/-- A beat that the wires hold: what arrives of it is the beat. -/
structure Holds (I : Interface) (b : Beat) : Prop where
  tdata : b.tdata < 2 ^ I.tdata
  tkeep : ∃ w, I.tkeep = some w ∧ b.tkeep < 2 ^ w
  tdest : ∃ w, I.tdest = some w ∧ 0 ≤ b.tdest ∧ b.tdest < 2 ^ w
  tuser : ∃ w, I.tuser = some w ∧ 0 ≤ b.tuser ∧ b.tuser < 2 ^ w
  tid : ∃ w, I.tid = some w ∧ 0 ≤ b.tid ∧ b.tid < 2 ^ w
  tlast : I.tlast = true

theorem onWire_of_holds {x : Int} {w : Option Nat} (h : ∃ n, w = some n ∧ 0 ≤ x ∧ x < 2 ^ n) :
    (onWire x w : Int) = x := by
  obtain ⟨n, rfl, hpos, hlt⟩ := h
  change ((x % 2 ^ n).toNat : Int) = x
  rw [Int.emod_eq_of_lt hpos hlt, Int.toNat_of_nonneg hpos]

theorem carry_of_holds {I : Interface} {b : Beat} (h : I.Holds b) :
    (I.carry b).tdata = b.tdata ∧ (I.carry b).tkeep = b.tkeep ∧ ((I.carry b).tdest : Int) = b.tdest ∧
      ((I.carry b).tuser : Int) = b.tuser ∧ ((I.carry b).tid : Int) = b.tid ∧ (I.carry b).tlast = b.tlast := by
  refine ⟨Nat.mod_eq_of_lt h.tdata, ?_, onWire_of_holds h.tdest, onWire_of_holds h.tuser, onWire_of_holds h.tid, ?_⟩
  · obtain ⟨w, hw, hlt⟩ := h.tkeep
    unfold carry
    rw [hw]
    exact Nat.mod_eq_of_lt hlt
  · unfold carry
    rw [h.tlast]
    rfl

end Interface

/-! ## Unpacking -/

namespace Layout

/-- The elements that a captured beat keeps. -/
def unpackBeat (L : Layout) (b : Carried) : List Element :=
  (List.range L.elementsPerBeat).filterMap fun i =>
    if b.tkeep.testBit (L.lane i) then
      some ⟨b.tdata >>> (L.lane i * L.elementSizeBits) &&& L.elementMax, true, b.tdest, b.tid, b.tuser, false⟩
    else none

/-- The last of the elements is marked. -/
def markLast : List Element → List Element
  | [] => []
  | [e] => [{ e with last := true }]
  | e :: e' :: es => e :: markLast (e' :: es)

theorem data_markLast {es : List Element} {e : Element} (h : e ∈ markLast es) : ∃ e' ∈ es, e.data = e'.data := by
  induction es using markLast.induct with
  | case1 => exact absurd h List.not_mem_nil
  | case2 d => exact ⟨d, List.mem_singleton_self d, by rw [List.mem_singleton.mp h]⟩
  | case3 d d' ds ih =>
    rw [markLast, List.mem_cons] at h
    rcases h with rfl | h
    · exact ⟨e, List.mem_cons_self, rfl⟩
    · obtain ⟨e', he', hdata⟩ := ih h
      exact ⟨e', List.mem_cons_of_mem _ he', hdata⟩

/-- The elements of a captured beat. -/
def elementsOf (L : Layout) (b : Carried) : List Element :=
  if b.tlast then markLast (L.unpackBeat b) else L.unpackBeat b

theorem fits_unpackBeat (L : Layout) (b : Carried) : ∀ e ∈ L.unpackBeat b, e.data ≤ L.elementMax := by
  intro e he
  obtain ⟨i, -, hi⟩ := List.mem_filterMap.mp he
  split at hi
  · rw [← Option.some.inj hi]
    exact Nat.and_le_right
  · exact absurd hi (by simp)

theorem fits_elementsOf (L : Layout) (b : Carried) : ∀ e ∈ L.elementsOf b, e.data ≤ L.elementMax := by
  intro e he
  unfold elementsOf at he
  split at he
  · obtain ⟨e', he', hdata⟩ := data_markLast he
    rw [hdata]
    exact L.fits_unpackBeat b e' he'
  · exact L.fits_unpackBeat b e he

/-- `from_beats`; a beat that does not fit is an error. -/
def fromBeats (L : Layout) (beats : List Carried) : Except Fault Frame :=
  match beats.find? fun b => decide (L.beatMax < b.tdata) with
  | some b => .error (.beatSize b.tdata)
  | none =>
      .ok ⟨L, beats.flatMap L.elementsOf, fun e he => by
        obtain ⟨b, -, hb⟩ := List.mem_flatMap.mp he
        exact L.fits_elementsOf b e hb⟩

end Layout

end Veriforge.Stream

import Mathlib.Data.List.Induction
import Veriforge.Chunks
import Veriforge.Stream.Delivery

/-! # Frames through beats

`from_beats` on the lists that `to_beats` returns: packing into lanes and unpacking lose no element that is kept, but a
beat of null elements has no element to carry its last marker. -/

namespace Veriforge.Stream

/-! ## Unpacking lists -/

/-- The arguments of `from_beats`. -/
structure BeatLists where
  tdata : List Int
  tkeep : Option (List Nat)
  tdest : Option (List Int)
  tuser : Option (List Int)
  tid : Option (List Int)
  tlast : Option (List Bool)

/-- The errors of `from_beats`. -/
inductive BeatsFault where
  | captureTrailing
  | keepLength
  | listLength (name : String)
  | beatSize (beat : Int)
  deriving DecidableEq

/-- The lists of beats. -/
def BeatLists.of (beats : List Beat) : BeatLists where
  tdata := beats.map fun b => (b.tdata : Int)
  tkeep := some (beats.map Beat.tkeep)
  tdest := some (beats.map Beat.tdest)
  tuser := some (beats.map Beat.tuser)
  tid := some (beats.map Beat.tid)
  tlast := some (beats.map Beat.tlast)

namespace Layout

variable (L : Layout)

/-- The elements of a beat: those that are kept, or all. -/
def unpackLanes (all : Bool) (b : Beat) : List Element :=
  (List.range L.elementsPerBeat).filterMap fun i =>
    if b.tkeep.testBit (L.lane i) || all then
      some ⟨b.tdata >>> (L.lane i * L.elementSizeBits) &&& L.elementMax, b.tkeep.testBit (L.lane i), b.tdest, b.tid,
        b.tuser, false⟩
    else none

/-- The elements that a beat appends, the last of them marked if the beat is. -/
def unpackElements (all : Bool) (b : Beat) : List Element :=
  if b.tlast then markLast (L.unpackLanes all b) else L.unpackLanes all b

/-- The beat of this number. -/
def beatAt (lists : BeatLists) (tkeep : List Nat) (beat : Nat) (n : Nat) : Beat where
  tdata := beat
  tkeep := tkeep.getD n 0
  tdest := lists.tdest.elim 0 fun l => l.getD n 0
  tuser := lists.tuser.elim 0 fun l => l.getD n 0
  tid := lists.tid.elim 0 fun l => l.getD n 0
  tlast := lists.tlast.elim false fun l => l.getD n false

/-- The loop of `from_beats`, from the beat of this number on. -/
def fromBeatsLoop (lists : BeatLists) (tkeep : List Nat) (captureLeading : Bool) :
    List Int → Nat → Except BeatsFault (List Element)
  | [], _ => .ok []
  | beat :: rest, n =>
      if beat < 0 ∨ (L.beatMax : Int) < beat then .error (.beatSize beat)
      else
        (fromBeatsLoop lists tkeep captureLeading rest (n + 1)).map fun later =>
          L.unpackElements (n == 0 && captureLeading) (beatAt lists tkeep beat.toNat n) ++ later

/-- The list, if it is given, that has another length than `tdata`. -/
def badLength (lists : BeatLists) : Option String :=
  if lists.tdest.any fun l => l.length ≠ lists.tdata.length then some "tdest"
  else if lists.tuser.any fun l => l.length ≠ lists.tdata.length then some "tuser"
  else if lists.tid.any fun l => l.length ≠ lists.tdata.length then some "tid"
  else if lists.tlast.any fun l => l.length ≠ lists.tdata.length then some "tlast"
  else none

/-- `from_beats`. -/
def fromBeatLists (lists : BeatLists) (captureLeading captureTrailing : Bool) : Except BeatsFault (List Element) :=
  if captureTrailing then .error .captureTrailing
  else
    let tkeep := lists.tkeep.getD (lists.tdata.map fun _ => (1 <<< L.elementsPerBeat) - 1)
    if tkeep.length ≠ lists.tdata.length then .error .keepLength
    else
      match badLength lists with
      | some name => .error (.listLength name)
      | none =>
          (L.fromBeatsLoop lists tkeep captureLeading lists.tdata 0).map fun elements =>
            if lists.tlast.isNone then markLast elements else elements

end Layout

/-! ## The six lists -/

namespace Layout

variable {L : Layout}

theorem badLength_of (beats : List Beat) : badLength (BeatLists.of beats) = none := by
  simp [badLength, BeatLists.of]

theorem beatAt_of (before : List Beat) (b : Beat) (after : List Beat) :
    beatAt (BeatLists.of (before ++ b :: after)) ((before ++ b :: after).map Beat.tkeep) b.tdata before.length = b := by
  simp [beatAt, BeatLists.of, List.getD_eq_getElem?_getD]

/-- The lists of beats that fit are unpacked beat by beat. -/
theorem fromBeatLists_of {beats : List Beat} (h : ∀ b ∈ beats, b.tdata ≤ L.beatMax) :
    L.fromBeatLists (.of beats) false false = .ok (beats.flatMap (L.unpackElements false)) := by
  have hloop : ∀ before after, before ++ after = beats →
      L.fromBeatsLoop (.of beats) (beats.map Beat.tkeep) false (after.map fun b => (b.tdata : Int)) before.length =
        .ok (after.flatMap (L.unpackElements false)) := by
    intro before after
    induction after generalizing before with
    | nil => exact fun _ => rfl
    | cons b after ih =>
      intro hb
      have hfit : b.tdata ≤ L.beatMax := h b (by rw [← hb]; simp)
      have hlater := ih (before ++ [b]) (by rw [List.append_assoc]; exact hb)
      rw [List.length_append, List.length_singleton] at hlater
      rw [List.map_cons, fromBeatsLoop, if_neg (by omega), hlater, ← hb, Int.toNat_natCast, beatAt_of,
        Bool.and_false, List.flatMap_cons]
      rfl
  have hlen : (beats.map Beat.tkeep).length = (beats.map fun b => (b.tdata : Int)).length := by
    rw [List.length_map, List.length_map]
  rw [fromBeatLists, if_neg Bool.false_ne_true, badLength_of]
  change (if (beats.map Beat.tkeep).length ≠ (beats.map fun b => (b.tdata : Int)).length then _ else
    Except.map _ (L.fromBeatsLoop (.of beats) (beats.map Beat.tkeep) false (beats.map fun b => (b.tdata : Int)) 0)) = _
  have hall := hloop [] beats rfl
  rw [List.length_nil] at hall
  rw [if_neg (not_not.mpr hlen), hall]
  rfl

end Layout

/-! ## The words of a beat -/

/-- The words of these elements. -/
def Packing.of (L : Layout) (c : List Element) : Packing := c.foldl (fun p e => p.add L e) .empty

theorem Packing.of_concat (L : Layout) (c : List Element) (e : Element) :
    Packing.of L (c ++ [e]) = (Packing.of L c).add L e := by
  rw [of, List.foldl_append]
  rfl

theorem Packing.beatIndex_of (L : Layout) (c : List Element) : (Packing.of L c).beatIndex = c.length := by
  induction c using List.reverseRecOn with
  | nil => rfl
  | append_singleton c e ih =>
    rw [of_concat, List.length_append, ← ih]
    rfl

namespace Layout

variable {L : Layout}

theorem lane_inj {i j : Nat} (hi : i < L.elementsPerBeat) (hj : j < L.elementsPerBeat) (h : L.lane i = L.lane j) :
    i = j := by
  unfold lane at h
  split at h
  · exact h
  · omega

/-- A bit of a lane's element is a bit of its own element, and no bit of another lane's. -/
theorem testBit_shifted {x i m j : Nat} (hx : x ≤ L.elementMax) (hi : i < L.elementsPerBeat) (hm : m < L.elementsPerBeat)
    (hj : j < L.elementSizeBits) :
    (x <<< (L.lane m * L.elementSizeBits)).testBit (L.lane i * L.elementSizeBits + j) =
      (decide (m = i) && x.testBit j) := by
  rw [Nat.testBit_shiftLeft]
  rcases Nat.lt_trichotomy (L.lane i) (L.lane m) with hlt | heq | hgt
  · have hle : (L.lane i + 1) * L.elementSizeBits ≤ L.lane m * L.elementSizeBits := Nat.mul_le_mul_right _ hlt
    rw [Nat.succ_mul] at hle
    have hmi : m ≠ i := fun h => Nat.lt_irrefl _ (h ▸ hlt)
    rw [decide_eq_false (by omega), decide_eq_false hmi, Bool.false_and, Bool.false_and]
  · rw [lane_inj hi hm heq]
    simp
  · have hle : (L.lane m + 1) * L.elementSizeBits ≤ L.lane i * L.elementSizeBits := Nat.mul_le_mul_right _ hgt
    rw [Nat.succ_mul] at hle
    have hhigh : x.testBit (L.lane i * L.elementSizeBits + j - L.lane m * L.elementSizeBits) = false := by
      apply Nat.testBit_eq_false_of_lt
      refine (hx.trans_lt L.elementMax_lt).trans_le (Nat.pow_le_pow_right Nat.two_pos ?_)
      omega
    have hmi : m ≠ i := fun h => Nat.lt_irrefl _ (h ▸ hgt)
    rw [hhigh, decide_eq_false hmi, Bool.and_false, Bool.false_and]

theorem testBit_keep (keep : Bool) {i m : Nat} (hi : i < L.elementsPerBeat) (hm : m < L.elementsPerBeat) :
    (keep.toNat <<< L.lane m).testBit (L.lane i) = (decide (m = i) && keep) := by
  rw [Nat.testBit_shiftLeft]
  cases keep with
  | false => simp
  | true =>
    rw [Bool.eq_iff_iff]
    simp only [Bool.toNat_true, Bool.and_eq_true, decide_eq_true_eq, Nat.testBit_one_eq_true_iff_self_eq_zero, and_true]
    constructor
    · exact fun h => lane_inj hm hi (by omega)
    · rintro rfl
      exact ⟨Nat.le_refl _, Nat.sub_self _⟩

/-- What the words of a beat have in the lane of an element. -/
theorem testBit_packing {c : List Element} (hc : c.length ≤ L.elementsPerBeat) (hfit : ∀ e ∈ c, e.data ≤ L.elementMax)
    {i : Nat} (hi : i < L.elementsPerBeat) :
    ((Packing.of L c).keepWord.testBit (L.lane i) = ((c)[i]?).any Element.keep) ∧
      ∀ j < L.elementSizeBits, (Packing.of L c).dataWord.testBit (L.lane i * L.elementSizeBits + j) =
        ((c)[i]?).any fun e => e.data.testBit j := by
  induction c using List.reverseRecOn with
  | nil => exact ⟨Nat.zero_testBit _, fun j _ => Nat.zero_testBit _⟩
  | append_singleton c e ih =>
    rw [List.length_append, List.length_singleton] at hc
    obtain ⟨hkeep, hdata⟩ := ih (by omega) fun e' he' => hfit e' (List.mem_append_left _ he')
    have hlane : L.lane c.length < L.elementsPerBeat := L.lane_lt hc
    -- the element appended is the one at `c.length`; every other lane keeps what it has
    have hget : ∀ f : Element → Bool, ((c ++ [e])[i]?).any f = (((c)[i]?).any f || decide (c.length = i) && f e) := by
      intro f
      rcases Nat.lt_trichotomy i c.length with hlt | rfl | hgt
      · rw [List.getElem?_append_left hlt, decide_eq_false (by omega)]
        simp
      · rw [List.getElem?_concat_length]
        simp
      · rw [List.getElem?_eq_none (by simp; omega), List.getElem?_eq_none (by omega), decide_eq_false (by omega)]
        rfl
    rw [Packing.of_concat]
    unfold Packing.add
    dsimp only
    rw [Packing.beatIndex_of]
    refine ⟨?_, fun j hj => ?_⟩
    · rw [Nat.testBit_or, hkeep, hget]
      rw [testBit_keep e.keep hi hc]
    · rw [Nat.testBit_or, hdata j hj, hget, testBit_shifted (hfit e (by simp)) hi hc hj]

/-- The lane of an element holds it. -/
theorem data_packing {c : List Element} (hc : c.length ≤ L.elementsPerBeat) (hfit : ∀ e ∈ c, e.data ≤ L.elementMax)
    {i : Nat} {e : Element} (he : (c)[i]? = some e) :
    (Packing.of L c).dataWord >>> (L.lane i * L.elementSizeBits) &&& L.elementMax = e.data := by
  have hi := (List.getElem?_eq_some_iff.mp he).1
  have hdata := (testBit_packing hc hfit (Nat.lt_of_lt_of_le hi hc)).2
  rw [he] at hdata
  have hmax := hfit e (List.mem_of_getElem? he)
  apply Nat.eq_of_testBit_eq
  intro j
  rw [Nat.testBit_and, Nat.testBit_shiftRight, elementMax, Nat.one_shiftLeft, Nat.testBit_two_pow_sub_one]
  by_cases hj : j < L.elementSizeBits
  · rw [hdata j hj, decide_eq_true hj, Bool.and_true]
    rfl
  · rw [decide_eq_false hj, Bool.and_false, eq_comm]
    apply Nat.testBit_eq_false_of_lt
    exact (hmax.trans_lt L.elementMax_lt).trans_le (Nat.pow_le_pow_right Nat.two_pos (by omega))

end Layout

/-! ## Beats one by one -/

/-- The elements of one beat: their sideband values are the same, and only the last may be marked. -/
structure Packable (c : List Element) : Prop where
  dest : ∀ e ∈ c, ∀ e' ∈ c, e.dest = e'.dest
  tid : ∀ e ∈ c, ∀ e' ∈ c, e.tid = e'.tid
  user : ∀ e ∈ c, ∀ e' ∈ c, e.user = e'.user
  last : ∀ e ∈ c.dropLast, e.last = false

/-- The beat of these elements. -/
def beatOf (L : Layout) (c : List Element) : Beat where
  tdata := (Packing.of L c).dataWord
  tkeep := (Packing.of L c).keepWord
  tdest := (c.head?.map Element.dest).getD 0
  tuser := (c.head?.map Element.user).getD 0
  tid := (c.head?.map Element.tid).getD 0
  tlast := c.any Element.last

/-- A set of equal values has one. -/
theorem insert_of_all_eq {α : Type} [DecidableEq α] {f : Element → α} (x : Element) (c : List Element)
    (h : ∀ e ∈ x :: c, f e = f x) : (x :: c).foldl (fun s e => s.insert (f e)) [] = [f x] := by
  induction c using List.reverseRecOn with
  | nil => rfl
  | append_singleton c e ih =>
    have hbefore : ∀ e' ∈ x :: c, f e' = f x := by
      intro e' he'
      apply h
      rw [← List.cons_append]
      exact List.mem_append_left _ he'
    rw [← List.cons_append, List.foldl_append, ih hbefore]
    rw [List.foldl_cons, List.foldl_nil, h e (by simp)]
    exact List.insert_of_mem (List.mem_singleton_self _)

theorem Packing.sets_of (L : Layout) (c : List Element) :
    (Packing.of L c).beatDest = c.foldl (fun s e => s.insert e.dest) [] ∧
      (Packing.of L c).beatTid = c.foldl (fun s e => s.insert e.tid) [] ∧
        (Packing.of L c).beatUser = c.foldl (fun s e => s.insert e.user) [] := by
  induction c using List.reverseRecOn with
  | nil => exact ⟨rfl, rfl, rfl⟩
  | append_singleton c e ih =>
    rw [of_concat, List.foldl_append, List.foldl_append, List.foldl_append, ← ih.1, ← ih.2.1, ← ih.2.2]
    exact ⟨rfl, rfl, rfl⟩

theorem Packable.any_last {c : List Element} {e : Element} (h : Packable (c ++ [e])) :
    (c ++ [e]).any Element.last = e.last := by
  have hlast := h.last
  rw [List.dropLast_concat] at hlast
  have hnone : c.any Element.last = false := by
    rw [List.any_eq_false]
    intro d hd
    rw [hlast d hd]
    exact Bool.false_ne_true
  rw [List.any_append, hnone]
  simp

/-- The beat of elements that may share one. -/
theorem Packable.beat (L : Layout) {c : List Element} {e : Element} (h : Packable (c ++ [e])) :
    (Packing.of L (c ++ [e])).beat e = .ok (beatOf L (c ++ [e])) := by
  obtain ⟨x, xs, hx⟩ : ∃ x xs, c ++ [e] = x :: xs := List.exists_cons_of_ne_nil (by simp)
  obtain ⟨hdest, htid, huser⟩ := Packing.sets_of L (c ++ [e])
  have hmem : x ∈ c ++ [e] := by
    rw [hx]
    exact List.mem_cons_self
  rw [hx, insert_of_all_eq x xs fun d hd => h.dest d (by rw [hx]; exact hd) x hmem] at hdest
  rw [hx, insert_of_all_eq x xs fun d hd => h.tid d (by rw [hx]; exact hd) x hmem] at htid
  rw [hx, insert_of_all_eq x xs fun d hd => h.user d (by rw [hx]; exact hd) x hmem] at huser
  have hlast := h.any_last
  unfold Packing.beat beatOf
  rw [hlast, hx, hdest, htid, huser]
  rfl

/-- `to_beats` packs the elements chunk by chunk. -/
theorem pack_eq (L : Layout) {es c : List Element} (hc : c.length < L.elementsPerBeat) (hne : es ≠ [] ∨ c = [])
    (hp : ∀ d ∈ chunks L.elementsPerBeat (c ++ es), Packable d) :
    Frame.pack L (Packing.of L c) es = .ok ((chunks L.elementsPerBeat (c ++ es)).map (beatOf L)) := by
  induction es generalizing c with
  | nil =>
    obtain rfl := hne.resolve_left fun h => h rfl
    rw [List.append_nil, chunks_nil]
    rfl
  | cons e es ih =>
    have hsplit : c ++ e :: es = (c ++ [e]) ++ es := by rw [List.append_assoc, List.singleton_append]
    have hlen : (c ++ [e]).length = c.length + 1 := by rw [List.length_append, List.length_singleton]
    rw [Frame.pack, ← Packing.of_concat, Packing.beatIndex_of, hlen]
    split
    · rename_i hfull
      have hchunk : chunks L.elementsPerBeat (c ++ e :: es) = (c ++ [e]) :: chunks L.elementsPerBeat es := by
        rw [hsplit]
        apply chunks_append (by simp)
        rw [hlen]
        rcases hfull with hfull | rfl
        · exact Or.inl (by omega)
        · exact Or.inr ⟨hc, rfl⟩
      rw [hchunk] at hp ⊢
      have hrest := ih (c := []) L.elementsPerBeat_pos (Or.inr rfl)
        fun d hd => hp d (List.mem_cons_of_mem _ hd)
      rw [Packable.beat L (hp _ List.mem_cons_self)]
      change Except.bind (Frame.pack L (Packing.of L []) es) _ = _
      rw [hrest]
      rfl
    · rename_i hmore
      rw [not_or, Nat.not_le] at hmore
      rw [hsplit] at hp ⊢
      exact ih (by rw [hlen]; exact hmore.1) (Or.inl hmore.2) hp

/-! ## Unpacking a beat -/

/-- The elements of a beat that are kept, without their markers. -/
def keptOf (c : List Element) : List Element := c.filterMap fun e => if e.keep then some { e with last := false } else none

theorem filterMap_range {α β : Type} (f : α → Option β) (c : List α) (n : Nat) :
    (List.range n).filterMap (fun i => ((c)[i]?).bind f) = (c.take n).filterMap f := by
  induction n with
  | zero => rfl
  | succ n ih =>
    rw [List.range_succ, List.filterMap_append, ih, List.take_add_one, List.filterMap_append]
    congr 1
    rw [List.filterMap_cons, List.filterMap_nil]
    cases (c)[n]? with
    | none => rfl
    | some a =>
      rw [Option.bind_some, Option.toList_some, List.filterMap_cons, List.filterMap_nil]

/-- A beat is unpacked into what it keeps. -/
theorem unpackLanes_beatOf {L : Layout} {c : List Element} (hc : c.length ≤ L.elementsPerBeat)
    (hfit : ∀ e ∈ c, e.data ≤ L.elementMax) (h : Packable c) : L.unpackLanes false (beatOf L c) = keptOf c := by
  unfold Layout.unpackLanes keptOf
  have hlanes : ∀ i ∈ List.range L.elementsPerBeat, (if (beatOf L c).tkeep.testBit (L.lane i) || false then
        some (⟨(beatOf L c).tdata >>> (L.lane i * L.elementSizeBits) &&& L.elementMax,
          (beatOf L c).tkeep.testBit (L.lane i), (beatOf L c).tdest, (beatOf L c).tid, (beatOf L c).tuser,
          false⟩ : Element)
      else none) = ((c)[i]?).bind fun e => if e.keep then some { e with last := false } else none := by
    intro i hi
    rw [List.mem_range] at hi
    have hkeep := (Layout.testBit_packing hc hfit hi).1
    change (if (Packing.of L c).keepWord.testBit (L.lane i) || false then some (⟨(Packing.of L c).dataWord >>> _ &&& _,
      (Packing.of L c).keepWord.testBit (L.lane i), _, _, _, _⟩ : Element) else none) = _
    rw [hkeep]
    cases he : (c)[i]? with
    | none => rfl
    | some e =>
      rw [Layout.data_packing hc hfit he]
      have hmem := List.mem_of_getElem? he
      obtain ⟨x, xs, rfl⟩ := List.exists_cons_of_ne_nil (List.ne_nil_of_mem hmem)
      change (if e.keep || false then some (⟨e.data, e.keep, x.dest, x.tid, x.user, false⟩ : Element) else none) =
        if e.keep then some { e with last := false } else none
      rw [h.dest x List.mem_cons_self e hmem, h.tid x List.mem_cons_self e hmem, h.user x List.mem_cons_self e hmem,
        Bool.or_false]
  rw [List.filterMap_congr hlanes, filterMap_range, List.take_of_length_le hc]

/-! ## Boundaries -/

/-- The elements that are kept, a boundary after those that are separated by a last marker from the next one, or from
the end. -/
def keptWithBoundaries : List Element → List Element
  | [] => []
  | e :: es =>
      if e.keep then
        { e with last := e.last || (es.takeWhile fun d => !d.keep).any Element.last } :: keptWithBoundaries es
      else keptWithBoundaries es

/-- A beat of null elements. -/
def isNull (c : List Element) : Bool := c.all fun e => !e.keep

/-- Every beat that keeps an element and is followed, before the next such beat, by a beat of null elements with a last
marker has a last marker itself. -/
def BoundariesKept : List (List Element) → Prop
  | [] => True
  | c :: cs =>
      (isNull c = false → (cs.takeWhile isNull).any (fun d => d.any Element.last) = true → c.any Element.last = true) ∧
        BoundariesKept cs

/-- The last of the elements is marked, or is not. -/
def markIf (b : Bool) (es : List Element) : List Element := if b then Layout.markLast es else es

theorem length_markLast (es : List Element) : (Layout.markLast es).length = es.length := by
  induction es using Layout.markLast.induct with
  | case1 => rfl
  | case2 e => rfl
  | case3 e e' es ih =>
    rw [Layout.markLast, List.length_cons, ih]
    rfl

theorem length_markIf (b : Bool) (es : List Element) : (markIf b es).length = es.length := by
  cases b with
  | false => rfl
  | true => exact length_markLast es

theorem markIf_cons (b : Bool) (e : Element) {es : List Element} (h : es ≠ []) :
    markIf b (e :: es) = e :: markIf b es := by
  obtain ⟨x, xs, rfl⟩ := List.exists_cons_of_ne_nil h
  cases b <;> rfl

/-- A marker is seen. -/
theorem markLast_ne {es : List Element} (hne : es ≠ []) (h : ∀ e ∈ es, e.last = false) : Layout.markLast es ≠ es := by
  induction es using Layout.markLast.induct with
  | case1 => exact absurd rfl hne
  | case2 e =>
    intro he
    have hlast := congrArg Element.last (List.cons.inj he).1
    rw [h e List.mem_cons_self] at hlast
    cases hlast
  | case3 e e' es ih =>
    intro he
    exact ih (by simp) (fun d hd => h d (List.mem_cons_of_mem _ hd)) (List.cons.inj he).2

theorem isNull_cons (e : Element) (c : List Element) : isNull (e :: c) = (!e.keep && isNull c) := rfl

theorem keptOf_cons (e : Element) (c : List Element) :
    keptOf (e :: c) = if e.keep then { e with last := false } :: keptOf c else keptOf c := by
  unfold keptOf
  rw [List.filterMap_cons]
  cases e.keep <;> rfl

theorem keptOf_eq_nil {c : List Element} : keptOf c = [] ↔ isNull c = true := by
  induction c with
  | nil => exact ⟨fun _ => rfl, fun _ => rfl⟩
  | cons e c ih =>
    rw [keptOf_cons, isNull_cons]
    cases e.keep <;> simp [ih]

theorem last_keptOf {c : List Element} {e : Element} (h : e ∈ keptOf c) : e.last = false := by
  obtain ⟨d, -, hd⟩ := List.mem_filterMap.mp h
  split at hd
  · rw [← Option.some.inj hd]
  · cases hd

/-- The markers of null elements before the first one that is kept. -/
def leadingMarked (es : List Element) : Bool := (es.takeWhile fun d => !d.keep).any Element.last

theorem leadingMarked_cons (e : Element) (es : List Element) :
    leadingMarked (e :: es) = (!e.keep && (e.last || leadingMarked es)) := by
  unfold leadingMarked
  rw [List.takeWhile_cons]
  cases e.keep <;> simp

theorem last_of_cons {e : Element} {c : List Element} (h : ∀ d ∈ (e :: c).dropLast, d.last = false) :
    (c ≠ [] → e.last = false) ∧ ∀ d ∈ c.dropLast, d.last = false := by
  cases c with
  | nil => exact ⟨fun h => absurd rfl h, fun d hd => by cases hd⟩
  | cons x xs =>
    rw [List.dropLast_cons_cons] at h
    exact ⟨fun _ => h e List.mem_cons_self, fun d hd => h d (List.mem_cons_of_mem _ hd)⟩

/-- Of the markers before the first element that is kept, a beat has its own only if it keeps none. -/
theorem leadingMarked_append {c : List Element} (hlast : ∀ e ∈ c.dropLast, e.last = false) (rest : List Element) :
    leadingMarked (c ++ rest) = (isNull c && (c.any Element.last || leadingMarked rest)) := by
  induction c with
  | nil => rfl
  | cons e c ih =>
    obtain ⟨he, hc⟩ := last_of_cons hlast
    rw [List.cons_append, leadingMarked_cons, ih hc, isNull_cons, List.any_cons]
    cases hk : e.keep with
    | true => rfl
    | false =>
      cases hn : isNull c with
      | true => simp [Bool.or_assoc]
      | false =>
        have hne : c ≠ [] := by
          rintro rfl
          cases hn
        rw [he hne]
        rfl

/-- What a beat contributes: what it keeps, the last of it marked if a marker of the beat, or one of the null elements
behind it, follows. -/
theorem keptWithBoundaries_append {c : List Element} (hlast : ∀ e ∈ c.dropLast, e.last = false) (rest : List Element) :
    keptWithBoundaries (c ++ rest) =
      markIf (c.any Element.last || leadingMarked rest) (keptOf c) ++ keptWithBoundaries rest := by
  induction c with
  | nil =>
    cases leadingMarked rest <;> rfl
  | cons e c ih =>
    obtain ⟨he, hc⟩ := last_of_cons hlast
    rw [List.cons_append, keptWithBoundaries, keptOf_cons, List.any_cons, ih hc]
    cases hk : e.keep with
    | false =>
      rw [if_neg Bool.false_ne_true, if_neg Bool.false_ne_true]
      by_cases hne : c = []
      · subst hne
        cases e.last || [].any Element.last || leadingMarked rest <;>
          cases [].any Element.last || leadingMarked rest <;> rfl
      · rw [he hne, Bool.false_or]
    | true =>
      rw [if_pos rfl, if_pos rfl]
      have hlead : ((c ++ rest).takeWhile fun d => !d.keep).any Element.last = leadingMarked (c ++ rest) := rfl
      rw [hlead, leadingMarked_append hc rest]
      cases hn : isNull c with
      | true =>
        rw [keptOf_eq_nil.mpr hn, Bool.true_and, Bool.or_assoc]
        generalize (e.last || (c.any Element.last || leadingMarked rest)) = b
        cases b <;> cases c.any Element.last || leadingMarked rest <;> rfl
      | false =>
        have hne : c ≠ [] := by
          rintro rfl
          cases hn
        have hk' : keptOf c ≠ [] := fun h => by rw [keptOf_eq_nil.mp h] at hn; cases hn
        rw [markIf_cons _ _ hk', he hne, Bool.false_and, Bool.false_or, Bool.false_or, List.cons_append]

/-! ## Round trips -/

theorem leadingMarked_flatten {cs : List (List Element)} (h : ∀ c ∈ cs, Packable c) :
    leadingMarked cs.flatten = (cs.takeWhile isNull).any fun d => d.any Element.last := by
  induction cs with
  | nil => rfl
  | cons c cs ih =>
    rw [List.flatten_cons, leadingMarked_append (h c List.mem_cons_self).last,
      ih fun d hd => h d (List.mem_cons_of_mem _ hd), List.takeWhile_cons]
    cases isNull c <;> simp

/-- What the beats are unpacked into is what is kept, exactly if no boundary is lost. -/
theorem flatMap_markIf_iff {cs : List (List Element)} (h : ∀ c ∈ cs, Packable c) :
    cs.flatMap (fun c => markIf (c.any Element.last) (keptOf c)) = keptWithBoundaries cs.flatten ↔ BoundariesKept cs := by
  induction cs with
  | nil => exact ⟨fun _ => trivial, fun _ => rfl⟩
  | cons c cs ih =>
    have hcs := fun d hd => h d (List.mem_cons_of_mem _ hd)
    rw [List.flatMap_cons, List.flatten_cons, keptWithBoundaries_append (h c List.mem_cons_self).last,
      leadingMarked_flatten hcs, BoundariesKept, ← ih hcs]
    have hmark : markIf (c.any Element.last) (keptOf c) = markIf (c.any Element.last ||
          (cs.takeWhile isNull).any fun d => d.any Element.last) (keptOf c) ↔
        (isNull c = false → ((cs.takeWhile isNull).any fun d => d.any Element.last) = true →
          c.any Element.last = true) := by
      generalize ((cs.takeWhile isNull).any fun d => d.any Element.last) = ahead
      cases hn : isNull c with
      | true =>
        rw [keptOf_eq_nil.mpr hn]
        cases c.any Element.last <;> cases ahead <;> simp [markIf, Layout.markLast]
      | false =>
        have hne : keptOf c ≠ [] := fun hk => by rw [keptOf_eq_nil.mp hk] at hn; cases hn
        cases c.any Element.last with
        | true => simp
        | false =>
          cases ahead with
          | false => simp
          | true => simpa [markIf] using (markLast_ne hne fun e he => last_keptOf he).symm
    rw [← hmark]
    exact ⟨fun heq => List.append_inj heq (by rw [length_markIf, length_markIf]), fun heq => by rw [← heq.1, heq.2]⟩

theorem unpackElements_beatOf {L : Layout} {c : List Element} (hc : c.length ≤ L.elementsPerBeat)
    (hfit : ∀ e ∈ c, e.data ≤ L.elementMax) (h : Packable c) :
    L.unpackElements false (beatOf L c) = markIf (c.any Element.last) (keptOf c) := by
  unfold Layout.unpackElements
  rw [unpackLanes_beatOf hc hfit h]
  rfl

/-- Unpacking what a frame was packed into gives the elements that are kept, with their boundaries, exactly if no beat of
null elements carries a boundary that the last beat with a kept element does not. -/
theorem unpack_pack_iff (F : Frame) (h : ∀ c ∈ chunks F.layout.elementsPerBeat F.elements, Packable c) :
    (∃ beats, F.toBeats = .ok beats ∧
        F.layout.fromBeatLists (.of beats) false false = .ok (keptWithBoundaries F.elements)) ↔
      BoundariesKept (chunks F.layout.elementsPerBeat F.elements) := by
  have hpos := F.layout.elementsPerBeat_pos
  have hpack : F.toBeats = .ok ((chunks F.layout.elementsPerBeat F.elements).map (beatOf F.layout)) :=
    pack_eq F.layout (c := []) hpos (Or.inr rfl) h
  have hfit : ∀ b ∈ (chunks F.layout.elementsPerBeat F.elements).map (beatOf F.layout), b.tdata ≤ F.layout.beatMax := by
    intro b hb
    have hlt := (Frame.within_of_pack F.elements .empty _ F.fits (Packing.within_empty _) hpos hpack b hb).1
    unfold Layout.beatMax
    rw [Nat.one_shiftLeft]
    omega
  have hunpack : ((chunks F.layout.elementsPerBeat F.elements).map (beatOf F.layout)).flatMap
        (F.layout.unpackElements false) =
      (chunks F.layout.elementsPerBeat F.elements).flatMap fun c => markIf (c.any Element.last) (keptOf c) := by
    rw [List.flatMap_map]
    apply List.flatMap_congr
    intro c hc
    obtain ⟨-, hle, hmem⟩ := mem_chunks hpos hc
    exact unpackElements_beatOf hle (fun e he => F.fits e (hmem e he)) (h c hc)
  have hall := flatMap_markIf_iff h
  rw [flatten_chunks hpos] at hall
  rw [hpack, ← hall, ← hunpack]
  constructor
  · rintro ⟨beats, hbeats, hlists⟩
    obtain rfl := Except.ok.inj hbeats
    rw [Layout.fromBeatLists_of hfit] at hlists
    exact Except.ok.inj hlists
  · intro heq
    refine ⟨_, rfl, ?_⟩
    rw [Layout.fromBeatLists_of hfit, heq]

/-! ## A beat of a null element -/

/-- Frames of one byte a beat. -/
def byteLayout : Layout := ⟨1, 8, true, Nat.one_pos, eight_pos⟩

/-- A byte, and a null one with a last marker. -/
def nullLast : Frame where
  layout := byteLayout
  elements := [⟨5, true, 0, 0, 0, false⟩, ⟨0, false, 0, 0, 0, true⟩]
  fits := by decide

/-- A byte with a last marker. -/
def keptLast : Frame where
  layout := byteLayout
  elements := [⟨5, true, 0, 0, 0, true⟩]
  fits := by decide

theorem unpack_pack_keptLast : ∃ beats, keptLast.toBeats = .ok beats ∧
    keptLast.layout.fromBeatLists (.of beats) false false = .ok (keptWithBoundaries keptLast.elements) := by
  have hchunks : chunks keptLast.layout.elementsPerBeat keptLast.elements = [keptLast.elements] := by
    have happ := chunks_append (n := 1) (c := keptLast.elements) (l := []) (by decide) (Or.inl rfl)
    rwa [chunks_nil, List.append_nil] at happ
  refine (unpack_pack_iff keptLast fun c hc => ?_).mpr ?_
  · rw [hchunks, List.mem_singleton] at hc
    subst hc
    exact ⟨by decide, by decide, by decide, by decide⟩
  · rw [hchunks]
    exact ⟨fun _ h => (by cases h), trivial⟩

/-- The boundary after the byte is lost. -/
theorem nullLast_lost : ¬ ∃ beats, nullLast.toBeats = .ok beats ∧
    nullLast.layout.fromBeatLists (.of beats) false false = .ok (keptWithBoundaries nullLast.elements) := by
  rintro ⟨beats, hbeats, h⟩
  have hpack : nullLast.toBeats = .ok [⟨5, 1, 0, 0, 0, false⟩, ⟨0, 0, 0, 0, 0, true⟩] := rfl
  rw [hpack, Except.ok.injEq] at hbeats
  subst hbeats
  exact absurd h (by decide)

end Veriforge.Stream

import Veriforge.Axi4.Answers
import Veriforge.Handshake

/-! # The requests of the AXI4 responder

The responder takes an AW only while no burst is in flight and a W beat only while one is, although its
READY lines do not say so. A master whose requests come in that order loses none. -/

namespace Veriforge.Axi4

open AxiLite (isHigh)
open Handshake (Accepting due)

variable {ρ : Type} {rnd : Random ρ} {cfg : Options}

/-! ## Bursts and their beats -/

/-- The addresses of the beats of a burst. -/
def Burst.addresses (burst : Burst) : List Nat := (List.range burst.beats).map burst.beatAddr

/-- The W beats, assigned in order to the beats of the bursts. -/
def assigned (bursts : List Burst) (beats : List (Nat × Nat)) : List (Nat × Nat × Nat) :=
  (bursts.flatMap Burst.addresses).zip beats

/-- So many beats belong to these bursts. -/
def beatCount (bursts : List Burst) : Nat := (bursts.flatMap Burst.addresses).length

theorem beatCount_concat (bursts : List Burst) (burst : Burst) :
    beatCount (bursts ++ [burst]) = beatCount bursts + burst.beats := by
  simp [beatCount, Burst.addresses]

theorem zip_append_left {α β : Type} {as : List α} {bs : List β} (h : as.length = bs.length) (rest : List α) :
    (as ++ rest).zip bs = as.zip bs := by
  have hzip : (as ++ rest).zip (bs ++ []) = as.zip bs ++ rest.zip [] := List.zip_append h
  simpa using hzip

/-- A further burst takes no beat from the bursts before it. -/
theorem assigned_concat_burst {bursts : List Burst} {beats : List (Nat × Nat)} (h : beats.length = beatCount bursts)
    (burst : Burst) : assigned (bursts ++ [burst]) beats = assigned bursts beats := by
  unfold assigned
  rw [List.flatMap_append, zip_append_left h.symm]

/-- The next beat goes to the next address of the last burst. -/
theorem assigned_concat_beat {bursts : List Burst} {burst : Burst} {beats : List (Nat × Nat)} {done : Nat}
    (h : beats.length = beatCount bursts + done) (hdone : done < burst.beats) (beat : Nat × Nat) :
    assigned (bursts ++ [burst]) (beats ++ [beat]) =
      assigned (bursts ++ [burst]) beats ++ [(burst.beatAddr done, beat)] := by
  obtain ⟨more, hmore⟩ : ∃ more, burst.beats = done + (more + 1) := ⟨burst.beats - done - 1, by omega⟩
  have hsplit : (bursts ++ [burst]).flatMap Burst.addresses =
      (bursts.flatMap Burst.addresses ++ (List.range done).map burst.beatAddr) ++
        (burst.beatAddr done :: (List.range' (done + 1) more).map burst.beatAddr) := by
    rw [List.flatMap_append, List.flatMap_singleton, Burst.addresses, hmore, List.append_assoc, ← List.map_cons,
      ← List.map_append, List.range_eq_range', List.range_eq_range', ← List.range'_succ]
    congr 2
    have happend : List.range' 0 done 1 ++ List.range' (0 + 1 * done) (more + 1) 1 =
        List.range' 0 (done + (more + 1)) 1 := List.range'_append
    simpa using happend.symm
  have hlen : (bursts.flatMap Burst.addresses ++ (List.range done).map burst.beatAddr).length = beats.length := by
    rw [h, beatCount]
    simp
  unfold assigned
  rw [hsplit, List.zip_append hlen, zip_append_left hlen, List.zip_cons_cons, List.zip_nil_right]

/-! ## The bus -/

/-- The burst on offer on AW. -/
def Observed.aw (cfg : Options) (o : Observed) : Option Burst :=
  o.awaddr.map fun addr => burstOf cfg addr o.awlen o.awsize o.awid

/-- The beat on offer on W. -/
def Observed.w (cfg : Options) (o : Observed) : Option (Nat × Nat) := o.wdata.map fun data => (data, strobe cfg o)

/-- The burst on offer on AR. -/
def Observed.ar (cfg : Options) (o : Observed) : Option Burst :=
  o.araddr.map fun addr => burstOf cfg addr o.arlen o.arsize o.arid

/-- What a monitor of the bus knows: the offers that wait for their transfer, the last low-phase callback
since the last rising edge, and the transfers so far. -/
structure Requests where
  heldAw : Option Observed
  heldW : Option Observed
  heldAr : Option Observed
  last : Option Observed
  aw : List Burst
  w : List (Nat × Nat)
  ar : List Burst

namespace Requests

def start : Requests := ⟨none, none, none, none, [], [], []⟩

/-- A transfer, with 0 for what is not known of it. -/
def watch (cfg : Options) (s : Responder ρ) (m : Requests) : Event → Requests
  | .low o _ =>
      { m with
        heldAw := if isHigh o.awvalid then some o else none
        heldW := if isHigh o.wvalid then some o else none
        heldAr := if isHigh o.arvalid then some o else none
        last := some o }
  | .rise e _ _ =>
      { heldAw := if isHigh e.awvalid && !s.w.awFire e then some e else none
        heldW := if isHigh e.wvalid && !s.w.wFire e then some e else none
        heldAr := if isHigh e.arvalid && !s.r.arFire e then some e else none
        last := none
        aw := if s.w.awFire e then m.aw ++ [(e.aw cfg).getD ⟨0, 0, 0, 0⟩] else m.aw
        w := if s.w.wFire e then m.w ++ [(e.w cfg).getD (0, 0)] else m.w
        ar := if s.r.arFire e then m.ar ++ [(e.ar cfg).getD ⟨0, 0, 0, 0⟩] else m.ar }
  | _ => m

/-- The master keeps VALID and the payload until the transfer. -/
structure Keeps (m : Requests) (o : Observed) : Prop where
  aw : ∀ h, m.heldAw = some h → isHigh o.awvalid = true ∧ o.awaddr = h.awaddr ∧ o.awlen = h.awlen ∧
    o.awsize = h.awsize ∧ o.awid = h.awid
  w : ∀ h, m.heldW = some h → isHigh o.wvalid = true ∧ o.wdata = h.wdata ∧ o.wstrb = h.wstrb
  ar : ∀ h, m.heldAr = some h → isHigh o.arvalid = true ∧ o.araddr = h.araddr ∧ o.arlen = h.arlen ∧
    o.arsize = h.arsize ∧ o.arid = h.arid

/-- What the claim allows: the master keeps to the protocol, and a low-phase callback has seen what is
offered at a rising edge. -/
def Kept (_ : Responder ρ) (m : Requests) : Event → Prop
  | .low o _ => m.Keeps o
  | .rise e _ _ => m.Keeps e ∧ ∃ l, m.last = some l ∧ (isHigh e.awvalid = true → isHigh l.awvalid = true) ∧
      (isHigh e.wvalid = true → isHigh l.wvalid = true) ∧ (isHigh e.arvalid = true → isHigh l.arvalid = true)
  | _ => True

/-- What a low-phase callback finds ready and not yet taken: an AW while no burst is in flight, a W beat
while one is or its AW comes with it; and what it takes is known. -/
structure InOrder (s : Responder ρ) (o : Observed) : Prop where
  aw : s.w.awFire o = true → (s.w.clearSeen s.prevClk).awSeen = false → s.w.awPending = none ∧ o.awaddr.isSome = true
  w : s.w.wFire o = true → (s.w.clearSeen s.prevClk).wSeen = false →
    (s.w.awPending.isSome = true ∨ s.w.awFire o = true ∧ (s.w.clearSeen s.prevClk).awSeen = false) ∧
      o.wdata.isSome = true
  ar : s.r.arFire o = true → o.araddr.isSome = true

/-- The runs of a master that the responder serves. -/
def Served (s : Responder ρ) (m : Requests) (ev : Event) : Prop :=
  Kept s m ev ∧ ∀ o p, ev = .low o p → InOrder s o

end Requests

/-- What is transferred is consumed: the bursts are logged, the beats are assigned to them in order as far
as both have come, and the memory is what they make of it. -/
structure Consumed (cfg : Options) (memory : Nat → Option Nat) (s : Responder ρ) (aw : List Burst)
    (w : List (Nat × Nat)) (ar : List Burst) : Prop where
  bursts : s.w.writeBurstLog = aw.map Burst.entry
  beats : s.w.writeLog = assigned aw w
  memory : s.memory = s.w.writeLog.foldl (store cfg) memory
  reads : s.r.readBurstLog = ar.map Burst.entry

/-- The burst in flight is the last of `aw`, and its beats are the last of `w`. -/
def InFlightOf (s : WriteSide) (aw : List Burst) (w : List (Nat × Nat)) : Prop :=
  match s.awPending with
  | none => w.length = beatCount aw
  | some flight => ∃ before, aw = before ++ [flight.burst] ∧ w.length = beatCount before + s.wBeatsDone ∧
      s.wBeatsDone < flight.burst.beats ∧ flight.nextAddr = flight.burst.beatAddr s.wBeatsDone

/-! ## What a callback takes -/

namespace WriteSide

/-- The AW that it takes. -/
def performedAw (cfg : Options) (o : Observed) (w : WriteSide) : Option Burst :=
  if w.awFire o && !w.awSeen then o.aw cfg else none

/-- The W beat that it takes. -/
def performedW (cfg : Options) (o : Observed) (w : WriteSide) : Option (Nat × Nat) :=
  if w.wFire o && !w.wSeen then o.w cfg else none

theorem acceptAw_spec (cfg : Options) {o : Observed} {w : WriteSide}
    (horder : w.awFire o = true → w.awSeen = false → w.awPending = none ∧ o.awaddr.isSome = true) :
    (w.performedAw cfg o = none ∧ w.acceptAw cfg o = { w with awSeen := w.awFire o && w.awSeen }) ∨
      ∃ burst, w.performedAw cfg o = some burst ∧ w.awPending = none ∧ w.awFire o = true ∧ w.acceptAw cfg o = { w with
          awPending := some ⟨burst, burst.addr⟩, wBeatsDone := 0
          writeBurstLog := w.writeBurstLog ++ [burst.entry], awSeen := true } := by
  by_cases hfire : w.awFire o = true
  · by_cases hseen : w.awSeen = true
    · refine Or.inl ⟨by simp [performedAw, hseen], ?_⟩
      have hsame : w = { w with awSeen := w.awFire o && w.awSeen } := by
        rw [hfire, Bool.true_and]
      unfold acceptAw
      rw [if_pos hseen, if_pos hfire]
      split <;> exact hsame
    · obtain ⟨hpending, hsome⟩ := horder hfire (Bool.not_eq_true _ ▸ hseen)
      obtain ⟨addr, haddr⟩ := Option.isSome_iff_exists.mp hsome
      refine Or.inr ⟨burstOf cfg addr o.awlen o.awsize o.awid, ?_, hpending, hfire, ?_⟩
      · simp [performedAw, hfire, hseen, Observed.aw, haddr]
      · unfold acceptAw
        rw [hpending, hfire, if_pos rfl, if_neg hseen, haddr]
        rfl
  · refine Or.inl ⟨by simp [performedAw, hfire], ?_⟩
    unfold acceptAw
    rw [Bool.eq_false_of_not_eq_true hfire, Bool.and_false]
    rfl

theorem acceptW_spec {cycle : Nat} {o : Observed} {w w' : WriteSide} {memory memory' : Nat → Option Nat}
    (horder : w.wFire o = true → w.wSeen = false → w.awPending.isSome = true ∧ o.wdata.isSome = true)
    (h : w.acceptW cfg cycle o memory = .ok (memory', w')) :
    (w.performedW cfg o = none ∧ memory' = memory ∧ w' = { w with wSeen := w.wFire o && w.wSeen }) ∨
      ∃ flight data, w.performedW cfg o = some (data, strobe cfg o) ∧ w.awPending = some flight ∧
        w.wFire o = true ∧ memory' = store cfg memory (flight.nextAddr, data, strobe cfg o) ∧
        w' = w.takeBeat cfg cycle data (strobe cfg o) flight := by
  unfold acceptW at h
  by_cases hfire : w.wFire o = true
  · rw [hfire] at h
    by_cases hseen : w.wSeen = true
    · have hsame : (memory, w) = (memory', w') := by
        rw [hseen] at h
        split at h <;> exact Except.ok.inj h
      obtain ⟨rfl, rfl⟩ := Prod.mk.inj hsame
      refine Or.inl ⟨by simp [performedW, hseen], rfl, ?_⟩
      rw [hfire, hseen, Bool.and_true, ← hseen]
    · obtain ⟨hsome, hdata⟩ := horder hfire (Bool.not_eq_true _ ▸ hseen)
      obtain ⟨flight, hflight⟩ := Option.isSome_iff_exists.mp hsome
      obtain ⟨data, hdata⟩ := Option.isSome_iff_exists.mp hdata
      rw [hflight] at h
      dsimp only at h
      rw [if_pos rfl, if_neg hseen, hdata] at h
      obtain ⟨-, -, h⟩ := ok_of_bind h
      obtain ⟨-, -, h⟩ := ok_of_bind h
      obtain ⟨rfl, rfl⟩ := Prod.mk.inj (Except.ok.inj h)
      refine Or.inr ⟨flight, data, ?_, hflight, hfire, rfl, rfl⟩
      simp [performedW, hfire, hseen, Observed.w, hdata]
  · have hno : w.wFire o = false := Bool.not_eq_true _ ▸ hfire
    have hsame : (memory, { w with wSeen := false }) = (memory', w') := by
      rw [hno] at h
      split at h <;> exact Except.ok.inj h
    obtain ⟨rfl, rfl⟩ := Prod.mk.inj hsame
    refine Or.inl ⟨by simp [performedW, hno], rfl, ?_⟩
    rw [hno, Bool.false_and]

/-- What the requests are made of. -/
structure SameW (w w' : WriteSide) : Prop where
  awready : w'.awready = w.awready
  wready : w'.wready = w.wready
  writeLog : w'.writeLog = w.writeLog
  writeBurstLog : w'.writeBurstLog = w.writeBurstLog
  awPending : w'.awPending = w.awPending
  wBeatsDone : w'.wBeatsDone = w.wBeatsDone
  awSeen : w'.awSeen = w.awSeen
  wSeen : w'.wSeen = w.wSeen

theorem SameW.trans {w w' w'' : WriteSide} (h : SameW w w') (h' : SameW w' w'') : SameW w w'' :=
  ⟨h'.awready.trans h.awready, h'.wready.trans h.wready, h'.writeLog.trans h.writeLog,
    h'.writeBurstLog.trans h.writeBurstLog, h'.awPending.trans h.awPending, h'.wBeatsDone.trans h.wBeatsDone,
    h'.awSeen.trans h.awSeen, h'.wSeen.trans h.wSeen⟩

theorem sameW_waitB (rnd : Random ρ) (cfg : Options) (cycle : Nat) (rng : ρ) (w : WriteSide) : SameW w (w.waitB cfg cycle rnd rng).1 := by
  rcases waitB_cases rnd cfg cycle rng w with heq | ⟨next, rest, target, -, -, heq⟩ <;> rw [heq] <;>
    exact ⟨rfl, rfl, rfl, rfl, rfl, rfl, rfl, rfl⟩

theorem sameW_driveB (cycle : Nat) (paused : Bool) (w : WriteSide) : SameW w (w.driveB cycle paused) := by
  rcases driveB_cases cycle paused w with ⟨draw, heq⟩ | ⟨response, draw, -, -, heq⟩ <;> rw [heq] <;>
    exact ⟨rfl, rfl, rfl, rfl, rfl, rfl, rfl, rfl⟩

theorem sameW_retire (w : WriteSide) : SameW w w.retire := by
  unfold retire
  split <;> exact ⟨rfl, rfl, rfl, rfl, rfl, rfl, rfl, rfl⟩

theorem awFire_congr {w w' : WriteSide} (h : w'.awready = w.awready) : w'.awFire = w.awFire := by
  funext o
  unfold awFire
  rw [h]

theorem wFire_congr {w w' : WriteSide} (h : w'.wready = w.wready) : w'.wFire = w.wFire := by
  funext o
  unfold wFire
  rw [h]

end WriteSide

namespace ReadSide

theorem acceptAr_spec (cfg : Options) (cycle : Nat) (o : Observed) (r : ReadSide) (hknown : r.arFire o = true → o.araddr.isSome = true) :
    (r.acceptAr cfg cycle o).readBurstLog = r.readBurstLog ++ ((r.acceptedAr cfg o).map Burst.entry).toList ∧
      (r.acceptAr cfg cycle o).arSeen = (r.arFire o && (r.arSeen || (r.acceptedAr cfg o).isSome)) ∧
      (r.acceptAr cfg cycle o).arready = r.arready := by
  unfold acceptAr acceptedAr
  by_cases hfire : r.arFire o = true
  · obtain ⟨addr, haddr⟩ := Option.isSome_iff_exists.mp (hknown hfire)
    rw [if_pos hfire, haddr, hfire]
    by_cases hseen : r.arSeen = true
    · rw [if_pos hseen, hseen]
      exact ⟨(List.append_nil _).symm, rfl, rfl⟩
    · rw [if_neg hseen, Bool.eq_false_of_not_eq_true hseen]
      exact ⟨rfl, rfl, rfl⟩
  · rw [if_neg hfire, Bool.eq_false_of_not_eq_true hfire]
    exact ⟨(List.append_nil _).symm, rfl, rfl⟩

/-- What the requests are made of. -/
structure SameAr (r r' : ReadSide) : Prop where
  arready : r'.arready = r.arready
  readBurstLog : r'.readBurstLog = r.readBurstLog
  arSeen : r'.arSeen = r.arSeen

theorem SameAr.trans {r r' r'' : ReadSide} (h : SameAr r r') (h' : SameAr r' r'') : SameAr r r'' :=
  ⟨h'.arready.trans h.arready, h'.readBurstLog.trans h.readBurstLog, h'.arSeen.trans h.arSeen⟩

theorem sameAr_presentNext (r : ReadSide) : SameAr r r.presentNext := by
  unfold presentNext
  split
  · split <;> exact ⟨rfl, rfl, rfl⟩
  · exact ⟨rfl, rfl, rfl⟩

theorem sameAr_waitR (rnd : Random ρ) (cfg : Options) (cycle : Nat) (rng : ρ) (r : ReadSide) : SameAr r (r.waitR cfg cycle rnd rng).1 := by
  unfold waitR
  split
  · exact ⟨rfl, rfl, rfl⟩
  · split <;> exact ⟨rfl, rfl, rfl⟩

theorem sameAr_driveR {cycle : Nat} {memory : Nat → Option Nat} {paused : Bool} {r r' : ReadSide}
    (h : r.driveR cfg cycle memory paused = .ok r') : SameAr r r' := by
  unfold driveR at h
  dsimp only at h
  split at h
  · rw [← Except.ok.inj h]
    exact ⟨rfl, rfl, rfl⟩
  · obtain ⟨-, -, h⟩ := ok_of_bind h
    rw [← Except.ok.inj h]
    exact ⟨rfl, rfl, rfl⟩

theorem sameAr_retire (r : ReadSide) : SameAr r r.retire := by
  unfold retire
  split <;> exact ⟨rfl, rfl, rfl⟩

theorem arFire_congr {r r' : ReadSide} (h : r'.arready = r.arready) : r'.arFire = r.arFire := by
  funext o
  unfold arFire
  rw [h]

end ReadSide

/-! ## Every transfer is consumed -/

/-- What the write side has made of the bursts and beats that it has taken. -/
structure Writes (cfg : Options) (memory memory' : Nat → Option Nat) (s : WriteSide) (aw : List Burst)
    (w : List (Nat × Nat)) : Prop where
  bursts : s.writeBurstLog = aw.map Burst.entry
  beats : s.writeLog = assigned aw w
  all : s.writeLog.length = w.length
  memory : memory' = s.writeLog.foldl (store cfg) memory
  flight : InFlightOf s aw w

namespace Writes

variable {memory memory' memory'' : Nat → Option Nat} {s s' : WriteSide} {aw : List Burst} {w : List (Nat × Nat)}

theorem same (h : Writes cfg memory memory' s aw w) (hs : s'.writeLog = s.writeLog ∧
    s'.writeBurstLog = s.writeBurstLog ∧ s'.awPending = s.awPending ∧ s'.wBeatsDone = s.wBeatsDone) :
    Writes cfg memory memory' s' aw w := by
  obtain ⟨hlog, hbursts, hpending, hdone⟩ := hs
  refine ⟨hbursts.trans h.bursts, hlog.trans h.beats, hlog ▸ h.all, hlog ▸ h.memory, ?_⟩
  have hflight := h.flight
  unfold InFlightOf at hflight ⊢
  rw [hpending, hdone]
  exact hflight

theorem acceptAw (h : Writes cfg memory memory' s aw w) {o : Observed}
    (horder : s.awFire o = true → s.awSeen = false → s.awPending = none ∧ o.awaddr.isSome = true) :
    Writes cfg memory memory' (s.acceptAw cfg o) (aw ++ (s.performedAw cfg o).toList) w := by
  rcases WriteSide.acceptAw_spec cfg horder with ⟨hnone, heq⟩ | ⟨burst, hsome, hpending, -, heq⟩
  · rw [hnone, heq, Option.toList_none, List.append_nil]
    exact h.same ⟨rfl, rfl, rfl, rfl⟩
  · have hpos : 0 < burst.beats := by
      unfold WriteSide.performedAw Observed.aw at hsome
      split at hsome
      · obtain ⟨addr, -, rfl⟩ := Option.map_eq_some_iff.mp hsome
        exact Nat.succ_pos _
      · exact nomatch hsome
    have hflight := h.flight
    unfold InFlightOf at hflight
    rw [hpending] at hflight
    rw [hsome, heq, Option.toList_some]
    refine ⟨?_, ?_, h.all, h.memory, ?_⟩
    · dsimp only
      rw [h.bursts, List.map_append]
      rfl
    · dsimp only
      rw [h.beats, assigned_concat_burst hflight]
    · refine ⟨aw, rfl, hflight, hpos, ?_⟩
      unfold Burst.beatAddr
      rw [Nat.zero_mul, Nat.add_zero]

theorem acceptW (h : Writes cfg memory memory' s aw w) {cycle : Nat} {o : Observed}
    (horder : s.wFire o = true → s.wSeen = false → s.awPending.isSome = true ∧ o.wdata.isSome = true)
    (haccept : s.acceptW cfg cycle o memory' = .ok (memory'', s')) :
    Writes cfg memory memory'' s' aw (w ++ (s.performedW cfg o).toList) := by
  rcases WriteSide.acceptW_spec horder haccept with ⟨hnone, rfl, rfl⟩ | ⟨flight, data, hsome, hpending, -, rfl, rfl⟩
  · rw [hnone, Option.toList_none, List.append_nil]
    exact h.same ⟨rfl, rfl, rfl, rfl⟩
  · have hflight := h.flight
    unfold InFlightOf at hflight
    rw [hpending] at hflight
    obtain ⟨before, rfl, hlen, hdone, hnext⟩ := hflight
    rw [hsome, Option.toList_some]
    have hlog : (s.takeBeat cfg cycle data (strobe cfg o) flight).writeLog =
        s.writeLog ++ [(flight.nextAddr, data, strobe cfg o)] := by
      unfold WriteSide.takeBeat WriteSide.completeBurst
      dsimp only
      split <;> rfl
    have hburstLog : (s.takeBeat cfg cycle data (strobe cfg o) flight).writeBurstLog = s.writeBurstLog := by
      unfold WriteSide.takeBeat WriteSide.completeBurst
      dsimp only
      split <;> rfl
    refine ⟨hburstLog.trans h.bursts, ?_, ?_, ?_, ?_⟩
    · rw [hlog, h.beats, assigned_concat_beat hlen hdone, hnext]
    · rw [hlog, List.length_append, List.length_append, h.all]
      rfl
    · rw [hlog, List.foldl_append, ← h.memory]
      rfl
    · unfold WriteSide.takeBeat
      dsimp only
      by_cases hlast : flight.burst.beats ≤ s.wBeatsDone + 1
      · -- the burst is complete
        rw [if_pos hlast]
        change (w ++ [(data, strobe cfg o)]).length = beatCount (before ++ [flight.burst])
        rw [List.length_append, List.length_singleton, beatCount_concat, hlen]
        omega
      · rw [if_neg hlast]
        refine ⟨before, rfl, ?_, Nat.not_le.mp hlast, ?_⟩
        · rw [List.length_append, List.length_singleton, hlen, Nat.add_assoc]
        · dsimp only
          rw [hnext, Burst.beatAddr, Burst.beatAddr, Nat.succ_mul, Nat.add_assoc]

end Writes

/-- What holds between any two events, with what the responder has taken so far. -/
structure Reached (cfg : Options) (memory : Nat → Option Nat) (s : Responder ρ) (m : Requests) (aw : List Burst)
    (w : List (Nat × Nat)) (ar : List Burst) : Prop where
  writes : Writes cfg memory s.memory s.w aw w
  reads : s.r.readBurstLog = ar.map Burst.entry
  aw : Accepting s.w.awFire (Observed.aw cfg) s.w.awSeen (decide (s.prevClk ≠ 1)) m.last aw m.aw
  w : Accepting s.w.wFire (Observed.w cfg) s.w.wSeen (decide (s.prevClk ≠ 1)) m.last w m.w
  ar : Accepting s.r.arFire (Observed.ar cfg) s.r.arSeen (decide (s.prevClk ≠ 1)) m.last ar m.ar
  clk : ∀ l, m.last = some l → s.prevClk = 0
  heldAw : ∀ l, m.last = some l → isHigh l.awvalid = true → m.heldAw = some l
  heldW : ∀ l, m.last = some l → isHigh l.wvalid = true → m.heldW = some l
  heldAr : ∀ l, m.last = some l → isHigh l.arvalid = true → m.heldAr = some l

/-- At a falling edge the receiver forgets what it has seen. -/
theorem accepting_clearSeen {α : Type} {fire : Observed → Bool} {payload : Observed → Option α} {seen : Bool}
    {last : Option Observed} {log sent : List α} {prevClk : Nat}
    (h : Accepting fire payload seen (decide (prevClk ≠ 1)) last log sent) (hclk : ∀ l, last = some l → prevClk = 0) :
    Accepting fire payload (if prevClk = 1 then false else seen) true last log sent := by
  split
  · next hfall =>
    cases hl : last with
    | none =>
      rw [hl] at h
      exact h.forget
    | some l => exact absurd (hfall.symm.trans (hclk l hl)) one_ne_zero
  · next hno =>
    rw [decide_eq_true hno] at h
    exact h

namespace Reached

variable {memory : Nat → Option Nat} {s s' : Responder ρ} {m : Requests} {aw : List Burst} {w : List (Nat × Nat)}
  {ar : List Burst}

theorem start (rng : ρ) (clk awready wready arready : Option Nat) :
    Reached cfg memory (Responder.initial cfg memory rng clk awready wready arready) .start [] [] [] where
  writes := ⟨rfl, rfl, rfl, rfl, rfl⟩
  reads := rfl
  aw := Or.inl ⟨rfl, fun h => (nomatch h), fun _ h => (nomatch h)⟩
  w := Or.inl ⟨rfl, fun h => (nomatch h), fun _ h => (nomatch h)⟩
  ar := Or.inl ⟨rfl, fun h => (nomatch h), fun _ h => (nomatch h)⟩
  clk := fun _ h => nomatch h
  heldAw := fun _ h => nomatch h
  heldW := fun _ h => nomatch h
  heldAr := fun _ h => nomatch h

theorem awFire_keeps (h : Reached cfg memory s m aw w ar) {o : Observed} (hk : m.Keeps o) {l : Observed}
    (hl : m.last = some l) (hf : s.w.awFire l = true) : s.w.awFire o = true ∧ o.aw cfg = l.aw cfg := by
  simp only [WriteSide.awFire, Bool.and_eq_true] at hf ⊢
  obtain ⟨hv, haddr, hlen, hsize, hid⟩ := hk.aw l (h.heldAw l hl hf.1)
  refine ⟨⟨hv, hf.2⟩, ?_⟩
  unfold Observed.aw
  rw [haddr, hlen, hsize, hid]

theorem wFire_keeps (h : Reached cfg memory s m aw w ar) {o : Observed} (hk : m.Keeps o) {l : Observed}
    (hl : m.last = some l) (hf : s.w.wFire l = true) : s.w.wFire o = true ∧ o.w cfg = l.w cfg := by
  simp only [WriteSide.wFire, Bool.and_eq_true] at hf ⊢
  obtain ⟨hv, hdata, hstrb⟩ := hk.w l (h.heldW l hl hf.1)
  refine ⟨⟨hv, hf.2⟩, ?_⟩
  unfold Observed.w strobe
  rw [hdata, hstrb]

theorem arFire_keeps (h : Reached cfg memory s m aw w ar) {o : Observed} (hk : m.Keeps o) {l : Observed}
    (hl : m.last = some l) (hf : s.r.arFire l = true) : s.r.arFire o = true ∧ o.ar cfg = l.ar cfg := by
  simp only [ReadSide.arFire, Bool.and_eq_true] at hf ⊢
  obtain ⟨hv, haddr, hlen, hsize, hid⟩ := hk.ar l (h.heldAr l hl hf.1)
  refine ⟨⟨hv, hf.2⟩, ?_⟩
  unfold Observed.ar
  rw [haddr, hlen, hsize, hid]

theorem low (h : Reached cfg memory s m aw w ar) {o : Observed} {p : Pauses} (hk : m.Keeps o)
    (horder : Requests.InOrder s o) (hact : act rnd cfg s (.low o p) = .ok s') :
    ∃ aw' w' ar', Reached cfg memory s' (m.watch cfg s (.low o p)) aw' w' ar' := by
  obtain ⟨s₁, r', haccept, hdrive, rfl⟩ := act_low hact
  obtain ⟨memory', w₁, hw₁, rfl⟩ := acceptAll_ok haccept
  -- the write side as the low phase finds it
  obtain ⟨w₀, hw₀⟩ : ∃ w₀, w₀ = (s.w.sampleReady o).clearSeen s.prevClk := ⟨_, rfl⟩
  rw [← hw₀] at hw₁
  have hsame : w₀ = { s.w.sampleReady o with
      awSeen := if s.prevClk = 1 then false else s.w.awSeen, wSeen := if s.prevClk = 1 then false else s.w.wSeen } := by
    rw [hw₀]
    unfold WriteSide.clearSeen
    split <;> rfl
  have hclear : (s.w.clearSeen s.prevClk).awSeen = w₀.awSeen ∧ (s.w.clearSeen s.prevClk).wSeen = w₀.wSeen := by
    rw [hsame]
    unfold WriteSide.clearSeen
    split <;> exact ⟨rfl, rfl⟩
  have hawFire : w₀.awFire = s.w.awFire := WriteSide.awFire_congr (by rw [hsame]; rfl)
  have hwFire : w₀.wFire = s.w.wFire := WriteSide.wFire_congr (by rw [hsame]; rfl)
  have hpending : w₀.awPending = s.w.awPending := by rw [hsame]; rfl
  have horderAw : w₀.awFire o = true → w₀.awSeen = false → w₀.awPending = none ∧ o.awaddr.isSome = true := by
    rw [hawFire, hpending, ← hclear.1]
    exact horder.aw
  have hwrites₀ : Writes cfg memory s.memory w₀ aw w := h.writes.same (by rw [hsame]; exact ⟨rfl, rfl, rfl, rfl⟩)
  have haw₀ : Accepting s.w.awFire (Observed.aw cfg) w₀.awSeen true m.last aw m.aw := by
    rw [hsame]
    exact accepting_clearSeen h.aw h.clk
  have hw₀' : Accepting s.w.wFire (Observed.w cfg) w₀.wSeen true m.last w m.w := by
    rw [hsame]
    exact accepting_clearSeen h.w h.clk
  -- AW first
  have hwritesAw := hwrites₀.acceptAw horderAw
  have hawAccept := haw₀.low (o := o) (fun l hl hf => h.awFire_keeps hk hl hf) (fun _ => rfl)
    (fun hf hs => by
      have hknown := (horderAw (hawFire ▸ hf) hs).2
      unfold Observed.aw
      rw [Option.isSome_map]
      exact hknown)
    (show w₀.performedAw cfg o = _ by rw [WriteSide.performedAw, hawFire])
  have hspecAw := WriteSide.acceptAw_spec cfg horderAw
  have hafterAw : (w₀.acceptAw cfg o).awSeen = (s.w.awFire o && (w₀.awSeen || (w₀.performedAw cfg o).isSome)) ∧
      (w₀.acceptAw cfg o).wSeen = w₀.wSeen ∧ (w₀.acceptAw cfg o).awready = w₀.awready ∧
      (w₀.acceptAw cfg o).wready = w₀.wready := by
    rcases hspecAw with ⟨hnone, heq⟩ | ⟨burst, hsome, -, hf, heq⟩
    · rw [hnone, heq, hawFire]
      exact ⟨by simp, rfl, rfl, rfl⟩
    · rw [hsome, heq, ← hawFire, hf]
      exact ⟨by simp, rfl, rfl, rfl⟩
  -- then W
  have hwFire₁ : (w₀.acceptAw cfg o).wFire = s.w.wFire := (WriteSide.wFire_congr hafterAw.2.2.2).trans hwFire
  have horderW : (w₀.acceptAw cfg o).wFire o = true → (w₀.acceptAw cfg o).wSeen = false →
      (w₀.acceptAw cfg o).awPending.isSome = true ∧ o.wdata.isSome = true := by
    rw [hwFire₁, hafterAw.2.1, ← hclear.2]
    intro hf hs
    obtain ⟨hburst, hdata⟩ := horder.w hf hs
    refine ⟨?_, hdata⟩
    rcases hspecAw with ⟨hnone, heq⟩ | ⟨burst, -, -, -, heq⟩
    · rw [heq]
      change w₀.awPending.isSome = true
      rcases hburst with hburst | ⟨hf', hs'⟩
      · rw [hpending]
        exact hburst
      · have hknown := (horder.aw hf' hs').2
        obtain ⟨addr, haddr⟩ := Option.isSome_iff_exists.mp hknown
        rw [WriteSide.performedAw, hawFire, hf', ← hclear.1, hs', Observed.aw, haddr] at hnone
        exact nomatch hnone
    · rw [heq]
      rfl
  have hwritesW := hwritesAw.acceptW horderW hw₁
  have hperformed : (w₀.acceptAw cfg o).performedW cfg o = w₀.performedW cfg o := by
    unfold WriteSide.performedW
    rw [hwFire₁, hafterAw.2.1, hwFire]
  rw [hperformed] at hwritesW
  have hwAccept := hw₀'.low (o := o) (fun l hl hf => h.wFire_keeps hk hl hf) (fun _ => rfl)
    (fun hf hs => by
      have hknown := (horderW (hwFire₁ ▸ hf) (hafterAw.2.1.trans hs)).2
      unfold Observed.w
      rw [Option.isSome_map]
      exact hknown)
    (show w₀.performedW cfg o = _ by rw [WriteSide.performedW, hwFire])
  have hafterW : w₁.wSeen = (s.w.wFire o && (w₀.wSeen || (w₀.performedW cfg o).isSome)) ∧
      w₁.awSeen = (w₀.acceptAw cfg o).awSeen ∧ w₁.awready = (w₀.acceptAw cfg o).awready ∧
      w₁.wready = (w₀.acceptAw cfg o).wready := by
    rw [← hperformed]
    rcases WriteSide.acceptW_spec horderW hw₁ with ⟨hnone, -, rfl⟩ | ⟨flight, data, hsome, -, hf, -, rfl⟩
    · rw [hnone, hwFire₁, hafterAw.2.1]
      exact ⟨by simp, rfl, rfl, rfl⟩
    · rw [hsome, ← hwFire₁, hf]
      unfold WriteSide.takeBeat WriteSide.completeBurst
      dsimp only
      split <;> exact ⟨by simp, rfl, rfl, rfl⟩
  -- what the responses leave alone
  obtain ⟨s₂, hs₂⟩ : ∃ s₂ : Responder ρ, s₂ = { s with
      memory := memory', w := w₁
      r := (((s.r.sampleReady o).presentNext).clearSeen s.prevClk).acceptAr cfg s.cycleCount o } := ⟨_, rfl⟩
  rw [← hs₂] at hdrive ⊢
  have hsameW : WriteSide.SameW w₁ ((s₂.wait rnd cfg).w.driveB (s₂.wait rnd cfg).cycleCount p.b) := by
    rw [wait_w]
    have hw₂ : s₂.w = w₁ := by rw [hs₂]
    exact hw₂ ▸ (WriteSide.sameW_waitB rnd cfg s₂.cycleCount s₂.rng s₂.w).trans
      (WriteSide.sameW_driveB _ _ _)
  -- AR
  obtain ⟨r₀, hr₀⟩ : ∃ r₀, r₀ = ((s.r.sampleReady o).presentNext).clearSeen s.prevClk := ⟨_, rfl⟩
  have hpresent := ReadSide.sameAr_presentNext (s.r.sampleReady o)
  have hsameR : r₀.arready = s.r.arready ∧ r₀.readBurstLog = s.r.readBurstLog ∧
      r₀.arSeen = if s.prevClk = 1 then false else s.r.arSeen := by
    rw [hr₀]
    unfold ReadSide.clearSeen
    split
    · exact ⟨hpresent.arready, hpresent.readBurstLog, rfl⟩
    · exact ⟨hpresent.arready, hpresent.readBurstLog, hpresent.arSeen⟩
  have harFire : r₀.arFire = s.r.arFire := ReadSide.arFire_congr hsameR.1
  obtain ⟨hburstLog, harSeen, harready⟩ := ReadSide.acceptAr_spec cfg s.cycleCount o r₀
    (by rw [harFire]; exact horder.ar)
  have hsameAr : ReadSide.SameAr (r₀.acceptAr cfg s.cycleCount o) r' := by
    have hr₂ : s₂.r = r₀.acceptAr cfg s.cycleCount o := by rw [hs₂, hr₀]
    rw [wait_r] at hdrive
    exact hr₂ ▸ (ReadSide.sameAr_waitR rnd cfg s₂.cycleCount _ s₂.r).trans
      (ReadSide.sameAr_driveR hdrive)
  have har₀ : Accepting s.r.arFire (Observed.ar cfg) r₀.arSeen true m.last ar m.ar := by
    rw [hsameR.2.2]
    exact accepting_clearSeen h.ar h.clk
  have harAccept := har₀.low (o := o) (fun l hl hf => h.arFire_keeps hk hl hf) (fun _ => rfl)
    (fun hf _ => by
      have hknown := horder.ar hf
      unfold Observed.ar
      rw [Option.isSome_map]
      exact hknown)
    (show r₀.acceptedAr cfg o = _ by rw [ReadSide.acceptedAr, harFire]; rfl)
  refine ⟨aw ++ (w₀.performedAw cfg o).toList, w ++ (w₀.performedW cfg o).toList, ar ++ (r₀.acceptedAr cfg o).toList, ?_⟩
  constructor
  case writes =>
    have hmemory : (s₂.wait rnd cfg).memory = memory' := by rw [hs₂]; rfl
    change Writes cfg memory (s₂.wait rnd cfg).memory _ _ _
    rw [hmemory]
    exact hwritesW.same ⟨hsameW.writeLog, hsameW.writeBurstLog, hsameW.awPending, hsameW.wBeatsDone⟩
  case reads =>
    change r'.readBurstLog = _
    rw [hsameAr.readBurstLog, hburstLog, hsameR.2.1, h.reads, List.map_append]
    cases r₀.acceptedAr cfg o <;> rfl
  case aw =>
    have hfire : WriteSide.awFire ((s₂.wait rnd cfg).w.driveB (s₂.wait rnd cfg).cycleCount p.b) = s.w.awFire :=
      (WriteSide.awFire_congr ((hsameW.awready.trans hafterW.2.2.1).trans hafterAw.2.2.1)).trans hawFire
    change Accepting (WriteSide.awFire _) _ (WriteSide.awSeen _) true (some o) _ m.aw
    rw [hfire, hsameW.awSeen, hafterW.2.1, hafterAw.1]
    exact hawAccept
  case w =>
    have hfire : WriteSide.wFire ((s₂.wait rnd cfg).w.driveB (s₂.wait rnd cfg).cycleCount p.b) = s.w.wFire :=
      (WriteSide.wFire_congr ((hsameW.wready.trans hafterW.2.2.2).trans hafterAw.2.2.2)).trans hwFire
    change Accepting (WriteSide.wFire _) _ (WriteSide.wSeen _) true (some o) _ m.w
    rw [hfire, hsameW.wSeen, hafterW.1]
    exact hwAccept
  case ar =>
    have hfire : r'.arFire = s.r.arFire := (ReadSide.arFire_congr (hsameAr.arready.trans harready)).trans harFire
    change Accepting r'.arFire _ r'.arSeen true (some o) _ m.ar
    rw [hfire, hsameAr.arSeen, harSeen, harFire]
    exact harAccept
  case clk => exact fun _ _ => rfl
  case heldAw => exact fun l hl hv => Option.some.inj hl ▸ if_pos (Option.some.inj hl ▸ hv)
  case heldW => exact fun l hl hv => Option.some.inj hl ▸ if_pos (Option.some.inj hl ▸ hv)
  case heldAr => exact fun l hl hv => Option.some.inj hl ▸ if_pos (Option.some.inj hl ▸ hv)

/-- At an edge one channel has its transfer. -/
theorem accepting_rise {α : Type} {fire fire' : Observed → Bool} {payload : Observed → Option α} {seen gap : Bool}
    {l e : Observed} {log sent : List α} {x : α} (h : Accepting fire payload seen gap (some l) log sent)
    (hsaw : fire e = true → fire l = true) (hkeeps : fire l = true → fire e = true ∧ payload e = payload l) :
    Accepting fire' payload seen (decide (1 ≠ 1)) none log (if fire e then sent ++ [(payload e).getD x] else sent) := by
  have hknown := h.known
  refine (h.rise hsaw fun hl => ?_).close
  obtain ⟨hfire, hsame⟩ := hkeeps hl
  obtain ⟨y, hy⟩ := Option.isSome_iff_exists.mp (hknown hl)
  refine ⟨hfire, ?_⟩
  rw [hsame, hy]
  rfl

theorem rise (h : Reached cfg memory s m aw w ar) {e after : Observed} {p : Pauses}
    (hclk : Clocked s (.rise e after p)) (hkept : Requests.Kept s m (.rise e after p))
    (hact : act rnd cfg s (.rise e after p) = .ok s') :
    Reached cfg memory s' (m.watch cfg s (.rise e after p)) aw w ar := by
  obtain rfl := act_rise hclk hact
  obtain ⟨hk, l, hl, haw, hw, har⟩ := hkept
  obtain ⟨awready, wready, hedge⟩ := Invariant.risingEdge_w cfg p s
  obtain ⟨arready, hedgeR⟩ := Invariant.risingEdge_r cfg p s
  have hsame := WriteSide.sameW_retire { s.w with awready := awready, wready := wready }
  have hsameR := ReadSide.sameAr_retire { s.r with arready := arready }
  rw [← hedge] at hsame
  rw [← hedgeR] at hsameR
  have hmemory : (s.risingEdge cfg p).memory = s.memory := by
    unfold Responder.risingEdge
    split <;> rfl
  constructor
  case writes =>
    change Writes cfg memory (s.risingEdge cfg p).memory (s.risingEdge cfg p).w aw w
    rw [hmemory]
    exact h.writes.same ⟨hsame.writeLog, hsame.writeBurstLog, hsame.awPending, hsame.wBeatsDone⟩
  case reads => exact hsameR.readBurstLog.trans h.reads
  case aw =>
    have hbefore := hl ▸ h.aw
    change Accepting _ _ (s.risingEdge cfg p).w.awSeen _ none aw _
    rw [hsame.awSeen]
    refine accepting_rise hbefore (fun hf => ?_) (fun hf => h.awFire_keeps hk hl hf)
    simp only [WriteSide.awFire, Bool.and_eq_true] at hf ⊢
    exact ⟨haw hf.1, hf.2⟩
  case w =>
    have hbefore := hl ▸ h.w
    change Accepting _ _ (s.risingEdge cfg p).w.wSeen _ none w _
    rw [hsame.wSeen]
    refine accepting_rise hbefore (fun hf => ?_) (fun hf => h.wFire_keeps hk hl hf)
    simp only [WriteSide.wFire, Bool.and_eq_true] at hf ⊢
    exact ⟨hw hf.1, hf.2⟩
  case ar =>
    have hbefore := hl ▸ h.ar
    change Accepting _ _ (s.risingEdge cfg p).r.arSeen _ none ar _
    rw [hsameR.arSeen]
    refine accepting_rise hbefore (fun hf => ?_) (fun hf => h.arFire_keeps hk hl hf)
    simp only [ReadSide.arFire, Bool.and_eq_true] at hf ⊢
    exact ⟨har hf.1, hf.2⟩
  case clk => exact fun _ h => nomatch h
  case heldAw => exact fun _ h => nomatch h
  case heldW => exact fun _ h => nomatch h
  case heldAr => exact fun _ h => nomatch h

/-- Every event. -/
theorem step (h : Reached cfg memory s m aw w ar) {ev : Event} (hclk : Clocked s ev)
    (hserved : Requests.Served s m ev) (hact : act rnd cfg s ev = .ok s') :
    ∃ aw' w' ar', Reached cfg memory s' (m.watch cfg s ev) aw' w' ar' := by
  cases ev with
  | low o p => exact h.low hserved.1 (hserved.2 o p rfl) hact
  | rise e after p => exact ⟨aw, w, ar, h.rise hclk hserved.1 hact⟩
  | high o p =>
    have hclk : s.prevClk = 1 := hclk
    have hsame : s' = s := by
      rw [act_high hclk hact, ← hclk]
    exact ⟨aw, w, ar, hsame ▸ h⟩
  | unknown o p =>
    obtain rfl := Except.ok.inj hact
    exact ⟨aw, w, ar, h⟩
  | queueWriteResponse resp =>
    obtain rfl := Except.ok.inj hact
    exact ⟨aw, w, ar, h.writes.same ⟨rfl, rfl, rfl, rfl⟩, h.reads, h.aw, h.w, h.ar, h.clk, h.heldAw, h.heldW, h.heldAr⟩

end Reached

/-- In every run of a master whose requests come in the responder's order, all that is transferred is
consumed, in order, and no beat waits; a low-phase callback consumes what the next edge transfers. -/
theorem consumed_of_run (rnd : Random ρ) (cfg : Options) (memory : Nat → Option Nat) (rng : ρ)
    (clk awready wready arready : Option Nat) (s : Responder ρ) (m : Requests)
    (hrun : Run rnd cfg (fun s m ev => m.watch cfg s ev) Requests.Served
      (Responder.initial cfg memory rng clk awready wready arready) .start s m) :
    Consumed cfg memory s (m.aw ++ due s.w.awFire (Observed.aw cfg) m.last)
        (m.w ++ due s.w.wFire (Observed.w cfg) m.last) (m.ar ++ due s.r.arFire (Observed.ar cfg) m.last) ∧
      s.w.writeLog.length = (m.w ++ due s.w.wFire (Observed.w cfg) m.last).length := by
  obtain ⟨aw, w, ar, h⟩ : ∃ aw w ar, Reached cfg memory s m aw w ar := by
    induction hrun with
    | start => exact ⟨[], [], [], Reached.start rng clk awready wready arready⟩
    | step _ _ hclk hserved hact ih =>
        obtain ⟨aw, w, ar, h⟩ := ih
        exact h.step hclk hserved hact
  rw [← h.aw.log_eq, ← h.w.log_eq, ← h.ar.log_eq]
  exact ⟨⟨h.writes.bursts, h.writes.beats, h.writes.memory, h.reads⟩, h.writes.all⟩

/-! ## A write, and a beat before its address -/

/-- A burst of one word to 8, with its beat. -/
def writeOne : Observed :=
  { quiet with awvalid := some 1, awaddr := some 8, wvalid := some 1, wdata := some 7, wlast := some 1 }

theorem consumed_of_run_write : ∃ s m, Run leastRandom wordOptions (fun s m ev => m.watch wordOptions s ev)
      Requests.Served (Responder.initial wordOptions (fun _ => none) () (some 0) none none none) .start s m ∧
    m.last = none ∧ m.aw = [⟨8, 1, 2, 0⟩] ∧ m.w = [(7, 15)] ∧
    Consumed wordOptions (fun _ => none) s (m.aw ++ due s.w.awFire (Observed.aw wordOptions) m.last)
      (m.w ++ due s.w.wFire (Observed.w wordOptions) m.last)
      (m.ar ++ due s.r.arFire (Observed.ar wordOptions) m.last) ∧
    s.w.writeLog.length = (m.w ++ due s.w.wFire (Observed.w wordOptions) m.last).length := by
  have hnone : ∀ o, (⟨none, none, none, none, [], [], []⟩ : Requests).Keeps o :=
    fun _ => ⟨fun _ h => (nomatch h), fun _ h => (nomatch h), fun _ h => (nomatch h)⟩
  have h0 : Run leastRandom wordOptions (fun s m ev => m.watch wordOptions s ev) Requests.Served
      (Responder.initial wordOptions (fun _ => none) () (some 0) none none none) .start _ _ := .start
  have h1 := h0.step (.low writeOne unpaused) trivial ⟨hnone _, fun o p ho => by
    obtain ⟨rfl, rfl⟩ := Event.low.inj ho
    exact ⟨fun _ _ => ⟨rfl, rfl⟩, fun _ _ => ⟨Or.inr ⟨rfl, rfl⟩, rfl⟩, fun h => absurd h (by decide)⟩⟩ rfl
  have h2 := h1.step (.rise writeOne quiet unpaused) rfl
    ⟨⟨⟨fun _ h => by rw [← Option.some.inj h]; exact ⟨rfl, rfl, rfl, rfl, rfl⟩,
      fun _ h => by rw [← Option.some.inj h]; exact ⟨rfl, rfl, rfl⟩, fun _ h => (nomatch h)⟩,
      writeOne, rfl, fun h => h, fun h => h, fun h => h⟩, fun _ _ h => (nomatch h)⟩ rfl
  exact ⟨_, _, h2, rfl, rfl, rfl, consumed_of_run leastRandom wordOptions _ _ _ _ _ _ _ _ h2⟩

/-- The beat of a write, without its address. -/
def beatOnly : Observed := { quiet with wvalid := some 1, wdata := some 7, wlast := some 1 }

/-- The address of a write, without its beat. -/
def addressOnly : Observed := { quiet with awvalid := some 1, awaddr := some 8 }

/-- A W beat that is transferred before its AW is lost. -/
theorem beat_first_lost :
    ¬ ∀ (cfg : Options) (memory : Nat → Option Nat) (clk awready wready arready : Option Nat) (s : Responder Unit)
        (m : Requests), Run leastRandom cfg (fun s m ev => m.watch cfg s ev) Requests.Kept
        (Responder.initial cfg memory () clk awready wready arready) .start s m → m.last = none →
      Consumed cfg memory s m.aw m.w m.ar := by
  intro h
  have h0 : Run leastRandom wordOptions (fun s m ev => m.watch wordOptions s ev) Requests.Kept
      (Responder.initial wordOptions (fun _ => none) () (some 0) none none none) .start _ _ := .start
  have h1 := h0.step (.low beatOnly unpaused) trivial
    ⟨fun _ h => (nomatch h), fun _ h => (nomatch h), fun _ h => (nomatch h)⟩ rfl
  have h2 := h1.step (.rise beatOnly quiet unpaused) rfl
    ⟨⟨fun _ h => (nomatch h), fun _ h => by rw [← Option.some.inj h]; exact ⟨rfl, rfl, rfl⟩, fun _ h => (nomatch h)⟩,
      beatOnly, rfl, fun h => h, fun h => h, fun h => h⟩ rfl
  have h3 := h2.step (.low addressOnly unpaused) trivial
    ⟨fun _ h => (nomatch h), fun _ h => (nomatch h), fun _ h => (nomatch h)⟩ rfl
  have h4 := h3.step (.rise addressOnly quiet unpaused) rfl
    ⟨⟨fun _ h => by rw [← Option.some.inj h]; exact ⟨rfl, rfl, rfl, rfl, rfl⟩, fun _ h => (nomatch h),
      fun _ h => (nomatch h)⟩, addressOnly, rfl, fun h => h, fun h => h, fun h => h⟩ rfl
  exact absurd (h wordOptions _ _ _ _ _ _ _ h4 rfl).beats (by decide)

end Veriforge.Axi4

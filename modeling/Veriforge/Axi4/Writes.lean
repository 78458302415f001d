import Veriforge.Axi4.Bytes
import Veriforge.Axi4.Phases

/-! # A write call

`AXI4Master.write` on a responder that has nothing in hand: the address and the beats are taken, the
response comes, and the memory has stored the beats, unless the call times out. -/

namespace Veriforge.Axi4

open AxiLite (isHigh)

variable {ρ : Type} {rnd : Random ρ} {cfg : Options} {wires : Wires} {periods : Nat → Period}

/-! ## What the write side takes -/

theorem acceptAw_wSeen (cfg : Options) (o : Observed) (w : WriteSide) : (w.acceptAw cfg o).wSeen = w.wSeen := by
  unfold WriteSide.acceptAw
  split
  · split
    · rfl
    · split <;> rfl
  · split <;> rfl

section Takes

variable {s : Responder ρ} {o : Observed} {memory : Nat → Option Nat} {flight : Option (Burst × Nat)}
  {out : List (Nat × Nat)} {burst : Burst} {beat : Nat × Nat} {done : Nat}

theorem wFire_acceptAw (cfg : Options) (o : Observed) (w : WriteSide) : (w.acceptAw cfg o).wFire = w.wFire :=
  WriteSide.wFire_congr (WriteSide.ready_acceptAw cfg o w).2

theorem takes_idle (haw : s.w.awFire o = false) (hw : s.w.wFire o = false) :
    Takes cfg s o memory memory flight flight out out := by
  intro w h _ _ hawFire hwFire
  refine (h.acceptAw_idle (by rw [hawFire]; exact haw)).acceptW_idle ?_ _ _
  rw [wFire_acceptAw, hwFire]
  exact hw

/-- The write side has nothing to take. -/
theorem takes_quiet (haw : isHigh o.awvalid = false) (hw : isHigh o.wvalid = false) :
    s.w.awFire o = false ∧ Takes cfg s o memory memory flight flight out out := by
  have hawFire : s.w.awFire o = false := by
    unfold WriteSide.awFire
    rw [haw]
    rfl
  refine ⟨hawFire, takes_idle hawFire ?_⟩
  unfold WriteSide.wFire
  rw [hw]
  rfl

theorem takes_aw (haw : s.w.awFire o = true) (hburst : o.aw cfg = some burst) (hw : s.w.wFire o = false) :
    Takes cfg s o memory memory none (some (burst, 0)) out out := by
  intro w h hseen _ hawFire hwFire
  refine (h.acceptAw_burst (by rw [hawFire]; exact haw) hseen hburst).acceptW_idle ?_ _ _
  rw [wFire_acceptAw, hwFire]
  exact hw

theorem takes_w (haw : s.w.awFire o = false) (hw : s.w.wFire o = true) (hbeat : o.w cfg = some beat)
    (hrange : checkAddrInRange cfg (burst.beatAddr done) = .ok ())
    (hlast : isHigh o.wlast = decide (burst.beats ≤ done + 1)) :
    Takes cfg s o memory (store cfg memory (burst.beatAddr done, beat)) (some (burst, done))
      (progress cfg burst true (done + 1)).1 [] (progress cfg burst true (done + 1)).2 := by
  intro w h _ hseen hawFire hwFire
  refine (h.acceptAw_idle (by rw [hawFire]; exact haw)).acceptW_beat ?_ ?_ hbeat hrange hlast _ _
  · rw [wFire_acceptAw, hwFire]
    exact hw
  · rw [acceptAw_wSeen]
    exact hseen

theorem takes_both (haw : s.w.awFire o = true) (hburst : o.aw cfg = some burst) (hw : s.w.wFire o = true)
    (hbeat : o.w cfg = some beat) (hrange : checkAddrInRange cfg (burst.beatAddr 0) = .ok ())
    (hlast : isHigh o.wlast = decide (burst.beats ≤ 1)) :
    Takes cfg s o memory (store cfg memory (burst.beatAddr 0, beat)) none
      (progress cfg burst true 1).1 [] (progress cfg burst true 1).2 := by
  intro w h hawSeen hseen hawFire hwFire
  refine (h.acceptAw_burst (by rw [hawFire]; exact haw) hawSeen hburst).acceptW_beat ?_ ?_ hbeat hrange hlast _ _
  · rw [wFire_acceptAw, hwFire]
    exact hw
  · rw [acceptAw_wSeen]
    exact hseen

end Takes

/-! ## The address and the beats -/

/-- The master offers nothing and takes no line, on any channel. -/
structure Quiet (o : Observed) : Prop where
  awvalid : isHigh o.awvalid = false
  wvalid : isHigh o.wvalid = false
  arvalid : isHigh o.arvalid = false
  rready : isHigh o.rready = false
  bready : isHigh o.bready = false

/-- The master offers the address of a burst, until it is taken, and beat `done` of it. -/
structure Offering (cfg : Options) (burst : Burst) (beat : Nat → Nat × Nat) (awDone : Bool) (done : Nat) (o : Observed) :
    Prop where
  awvalid : isHigh o.awvalid = !awDone
  address : o.aw cfg = some burst
  wvalid : isHigh o.wvalid = decide (done < burst.beats)
  data : done < burst.beats → o.w cfg = some (beat done)
  last : done < burst.beats → isHigh o.wlast = decide (burst.beats ≤ done + 1)
  arvalid : isHigh o.arvalid = false
  rready : isHigh o.rready = false
  bready : isHigh o.bready = false

/-- The memory once so many beats have come. -/
def storedBeats (cfg : Options) (burst : Burst) (beat : Nat → Nat × Nat) (memory : Nat → Option Nat) (done : Nat) :
    Nat → Option Nat :=
  ((List.range done).map fun i => (burst.beatAddr i, beat i)).foldl (store cfg) memory

theorem storedBeats_succ (burst : Burst) (beat : Nat → Nat × Nat) (memory : Nat → Option Nat) (done : Nat) :
    storedBeats cfg burst beat memory (done + 1) =
      store cfg (storedBeats cfg burst beat memory done) (burst.beatAddr done, beat done) := by
  unfold storedBeats
  rw [List.range_succ, List.map_append, List.foldl_append]
  rfl

/-- A turn of the loop over AW and W. -/
theorem addressAndData_succ {call : WriteCall} {strbs : List Nat} {fuel done : Nat} {awDone : Bool} {sys : System ρ}
    {t s' : Responder ρ} (hsample : sys.toSamplePoint rnd cfg periods = .ok { sys with responder := t })
    (hstep : System.stepCycle rnd cfg periods { sys with responder := t } = .ok ⟨s', sys.bus, sys.period + 1⟩)
    {awTake wTake : Bool} (haw : (!awDone && isHigh t.w.awready) = awTake)
    (hw : (decide (done < call.data.length) && isHigh t.w.wready) = wTake) {bus : Observed} {done' : Nat}
    (hdone : done' = if wTake then done + 1 else done)
    (hbus : bus = (if wTake then Master.nextW cfg call strbs done' else id)
      (if awTake then { sys.bus with awvalid := some 0 } else sys.bus)) :
    Master.addressAndData rnd cfg periods call strbs (fuel + 1) awDone done sys =
      if (awDone || awTake) && decide (call.data.length ≤ done') then .ok ⟨s', bus, sys.period + 1⟩
      else Master.addressAndData rnd cfg periods call strbs fuel (awDone || awTake) done' ⟨s', bus, sys.period + 1⟩ := by
  rw [Master.addressAndData, hsample]
  change (do
    let sys ← raised (System.stepCycle rnd cfg periods { sys with responder := t })
    _) = _
  rw [hstep]
  subst haw hw hdone hbus
  cases (!awDone && isHigh t.w.awready) <;> cases (decide (done < call.data.length) && isHigh t.w.wready) <;>
    simp only [if_true, Bool.false_eq_true, if_false] <;> rfl

/-- What the responder takes in a turn. -/
theorem takes_turn {s : Responder ρ} {o : Observed} {burst : Burst} {beat : Nat → Nat × Nat} {awDone : Bool} {done : Nat}
    {memory : Nat → Option Nat} (hoff : Offering cfg burst beat awDone done o)
    (hready : isHigh s.w.wready = true → isHigh s.w.awready = true) (hstart : awDone = false → done = 0)
    (hlive : done < burst.beats) (hrange : burst.InRange cfg) :
    Takes cfg s o (storedBeats cfg burst beat memory done)
      (storedBeats cfg burst beat memory (if s.w.wFire o then done + 1 else done))
      (progress cfg burst awDone done).1
      (progress cfg burst (awDone || s.w.awFire o) (if s.w.wFire o then done + 1 else done)).1
      (progress cfg burst awDone done).2
      (progress cfg burst (awDone || s.w.awFire o) (if s.w.wFire o then done + 1 else done)).2 := by
  have hflight : progress cfg burst true done = (some (burst, done), []) := by
    unfold progress
    rw [if_pos rfl, if_neg (Nat.not_le.mpr hlive)]
  have hlast := hoff.last hlive
  have hdata := hoff.data hlive
  cases awDone with
  | true =>
    have haw : s.w.awFire o = false := by
      unfold WriteSide.awFire
      rw [hoff.awvalid]
      rfl
    rw [Bool.true_or, hflight]
    cases hw : s.w.wFire o with
    | true =>
      rw [if_pos rfl, storedBeats_succ]
      exact takes_w haw hw hdata (hrange done hlive) hlast
    | false =>
      rw [if_neg Bool.false_ne_true, hflight]
      exact takes_idle haw hw
  | false =>
    obtain rfl := hstart rfl
    rw [Bool.false_or]
    cases haw : s.w.awFire o with
    | true =>
      cases hw : s.w.wFire o with
      | true =>
        rw [if_pos rfl, storedBeats_succ]
        exact takes_both haw hoff.address hw hdata (hrange 0 hlive) hlast
      | false =>
        rw [if_neg Bool.false_ne_true, hflight]
        exact takes_aw haw hoff.address hw
    | false =>
      -- WREADY is not high without AWREADY
      have hw : s.w.wFire o = false := by
        unfold WriteSide.awFire at haw
        rw [hoff.awvalid, Bool.not_false, Bool.true_and] at haw
        unfold WriteSide.wFire
        cases hwready : isHigh s.w.wready with
        | true => exact absurd ((hready hwready).symm.trans haw) (by decide)
        | false => exact Bool.and_false _
      rw [hw]
      exact takes_idle haw hw

/-- The beats of a write, as they go over the wires. -/
def wireBeat (cfg : Options) (call : WriteCall) (strbs : List Nat) (i : Nat) : Nat × Nat :=
  (onWire (cfg.dataBytes * 8) (call.data.getD i 0), onWire cfg.dataBytes (strbs.getD i 0))

/-- The signals after a turn. -/
theorem Offering.next {call : WriteCall} {strbs : List Nat} {burst : Burst} {awDone : Bool} {done : Nat} {bus : Observed}
    (hoff : Offering cfg burst (wireBeat cfg call strbs) awDone done bus) (hbeats : burst.beats = call.data.length)
    (awTake wTake : Bool) (hw : wTake = true → done < burst.beats) :
    Offering cfg burst (wireBeat cfg call strbs) (awDone || awTake) (if wTake then done + 1 else done)
      ((if wTake then Master.nextW cfg call strbs (if wTake then done + 1 else done) else id)
        (if awTake then { bus with awvalid := some 0 } else bus)) := by
  -- the address first
  have haddr : Offering cfg burst (wireBeat cfg call strbs) (awDone || awTake) done
      (if awTake then { bus with awvalid := some 0 } else bus) := by
    cases awTake with
    | true =>
      exact ⟨by rw [Bool.or_true]; rfl, hoff.address, hoff.wvalid, hoff.data, hoff.last, hoff.arvalid, hoff.rready,
        hoff.bready⟩
    | false =>
      rw [Bool.or_false]
      exact hoff
  cases wTake with
  | false => exact haddr
  | true =>
    simp only [if_true]
    unfold Master.nextW
    by_cases hnext : done + 1 < call.data.length
    · rw [if_pos hnext]
      refine ⟨haddr.awvalid, haddr.address, ?_, fun _ => ?_, fun _ => ?_, haddr.arvalid, haddr.rready, haddr.bready⟩
      · refine haddr.wvalid.trans ?_
        rw [decide_eq_true (hw rfl), decide_eq_true (by rw [hbeats]; exact hnext)]
      · rfl
      · unfold Master.driveW isHigh
        rw [hbeats]
        by_cases hlast : done + 1 + 1 = call.data.length
        · rw [if_pos hlast, decide_eq_true hlast.ge]
          rfl
        · rw [if_neg hlast, decide_eq_false (by omega)]
          rfl
    · rw [if_neg hnext]
      refine ⟨haddr.awvalid, haddr.address, ?_, fun hlt => ?_, fun hlt => ?_, haddr.arvalid, haddr.rready, haddr.bready⟩
      · rw [decide_eq_false (by rw [hbeats]; exact hnext)]
        rfl
      · exact absurd (hbeats ▸ hlt) hnext
      · exact absurd (hbeats ▸ hlt) hnext

/-- The loop over AW and W: the beats are stored, and their response is there to come. -/
theorem addressAndData_stores (rnd : Random ρ) (halways : cfg.alwaysReady = true)
    (hperiods : ∀ k, (periods k).edge.aw = false) {call : WriteCall} {strbs : List Nat} {burst : Burst}
    {memory : Nat → Option Nat} (hbeats : burst.beats = call.data.length) (hrange : burst.InRange cfg) (fuel : Nat) {awDone : Bool} {done : Nat} {sys : System ρ}
    (hoff : Offering cfg burst (wireBeat cfg call strbs) awDone done sys.bus)
    (h : Phase cfg (storedBeats cfg burst (wireBeat cfg call strbs) memory done) (progress cfg burst awDone done).1
      (progress cfg burst awDone done).2 [] [] sys.responder)
    (hstart : awDone = false → done = 0) (hlive : done < burst.beats) :
    Master.addressAndData rnd cfg periods call strbs fuel awDone done sys = .error .addressTimeout ∨
      ∃ sys', Master.addressAndData rnd cfg periods call strbs fuel awDone done sys = .ok sys' ∧
        Quiet sys'.bus ∧ sys'.responder.prevClk = 1 ∧
        Phase cfg (storedBeats cfg burst (wireBeat cfg call strbs) memory burst.beats) none [(cfg.defaultWriteResp, burst.id)] [] []
          sys'.responder := by
  induction fuel generalizing awDone done sys with
  | zero => exact Or.inl rfl
  | succ fuel ih =>
    have hpending : sys.responder.w.awFire sys.bus = true → sys.responder.w.awPending = none := fun hfire => by
      have hno : awDone = false := by
        unfold WriteSide.awFire at hfire
        rw [hoff.awvalid] at hfire
        simp only [Bool.and_eq_true, Bool.not_eq_true'] at hfire
        exact hfire.1
      rw [h.w.pending, hno]
      rfl
    obtain ⟨t, s₁, s', -, -, hawready, hwready, hsample, hstep, hclk, hphase⟩ :=
      h.period_unread rnd halways hperiods hoff.arvalid hpending
        (takes_turn hoff h.w.ready hstart hlive hrange)
    -- what the master sees is what the responder takes
    have haw : (!awDone && isHigh t.w.awready) = sys.responder.w.awFire sys.bus := by
      rw [hawready, ← hoff.awvalid]
      rfl
    have hw : (decide (done < call.data.length) && isHigh t.w.wready) = sys.responder.w.wFire sys.bus := by
      rw [hwready, ← hbeats, ← hoff.wvalid]
      rfl
    rw [addressAndData_succ hsample hstep haw hw rfl rfl]
    have hoff' := hoff.next hbeats (sys.responder.w.awFire sys.bus) (sys.responder.w.wFire sys.bus) fun _ => hlive
    rw [hoff.bready, Bool.and_false, if_neg Bool.false_ne_true] at hphase
    have hboth : sys.responder.w.wFire sys.bus = true → (awDone || sys.responder.w.awFire sys.bus) = true := fun hfire => by
      unfold WriteSide.wFire at hfire
      simp only [Bool.and_eq_true] at hfire
      unfold WriteSide.awFire
      rw [hoff.awvalid, h.w.ready hfire.2]
      cases awDone <;> rfl
    obtain ⟨done', hdone'⟩ : ∃ done', done' = if sys.responder.w.wFire sys.bus then done + 1 else done := ⟨_, rfl⟩
    rw [← hdone'] at hoff' hphase ⊢
    by_cases hall : call.data.length ≤ done'
    · -- with the last beat the address is taken too
      have hfire : sys.responder.w.wFire sys.bus = true := by
        by_contra hno
        rw [if_neg hno] at hdone'
        omega
      have hfull : done' = burst.beats := by
        rw [if_pos hfire] at hdone'
        omega
      rw [hboth hfire, decide_eq_true hall, Bool.true_and, if_pos rfl]
      rw [hboth hfire, hfull] at hoff' hphase
      have hdone : progress cfg burst true burst.beats = (none, [(cfg.defaultWriteResp, burst.id)]) := by
        unfold progress
        rw [if_pos rfl, if_pos le_rfl]
      rw [hdone] at hphase
      have hw' := hoff'.wvalid
      rw [decide_eq_false (Nat.lt_irrefl _)] at hw'
      rw [hfull]
      exact Or.inr ⟨_, rfl, ⟨hoff'.awvalid, hw', hoff'.arvalid, hoff'.rready, hoff'.bready⟩, hclk, hphase⟩
    · have hstart' : (awDone || sys.responder.w.awFire sys.bus) = false → done' = 0 := fun hno => by
        have hidle : sys.responder.w.wFire sys.bus = false := by
          cases hfire : sys.responder.w.wFire sys.bus with
          | true => exact absurd ((hboth hfire).symm.trans hno) (by decide)
          | false => rfl
        rw [hidle, if_neg Bool.false_ne_true] at hdone'
        rw [hdone']
        exact hstart (Bool.or_eq_false_iff.mp hno).1
      rw [decide_eq_false hall, Bool.and_false, if_neg Bool.false_ne_true]
      exact ih hoff' hphase hstart' (by omega)

/-! ## The response -/

theorem quiet_idle (wires : Wires) (bus : Observed) : Quiet (Master.idle wires bus) := ⟨rfl, rfl, rfl, rfl, rfl⟩

/-- A turn of the loop over B. -/
theorem writeResponse_succ {call : WriteCall} {fuel : Nat} {sys : System ρ} {t s' : Responder ρ}
    (hsample : sys.toSamplePoint rnd cfg periods = .ok { sys with responder := t })
    (hstep : System.stepCycle rnd cfg periods { sys with responder := t } = .ok ⟨s', sys.bus, sys.period + 1⟩) :
    Master.writeResponse rnd cfg wires periods call (fuel + 1) sys = if t.w.bvalid then
        if t.w.bLines.1 ≠ call.expectedResp then .error (.response call.expectedResp t.w.bLines.1)
        else .ok (t.w.bLines.1, ⟨s', Master.idle wires sys.bus, sys.period + 1⟩)
      else Master.writeResponse rnd cfg wires periods call fuel ⟨s', sys.bus, sys.period + 1⟩ := by
  rw [Master.writeResponse, hsample]
  change (if t.w.bvalid then
      raised (System.stepCycle rnd cfg periods { sys with responder := t }) >>= _
    else raised (System.stepCycle rnd cfg periods { sys with responder := t }) >>= _) = _
  rw [hstep]
  rfl

/-- The loop over B. -/
theorem writeResponse_takes (rnd : Random ρ) (wires : Wires) (halways : cfg.alwaysReady = true)
    (hperiods : ∀ k, (periods k).edge.aw = false) {call : WriteCall} {memory : Nat → Option Nat} {resp id : Nat}
    (hresp : call.expectedResp = resp) (fuel : Nat) {sys : System ρ}
    (hbus : Quiet { sys.bus with bready := some 0 }) (hbready : isHigh sys.bus.bready = true)
    (hclk : sys.responder.prevClk = 1) (h : Phase cfg memory none [(resp, id)] [] [] sys.responder) :
    Master.writeResponse rnd cfg wires periods call fuel sys = .error .responseTimeout ∨
      ∃ sys', Master.writeResponse rnd cfg wires periods call fuel sys = .ok (resp, sys') ∧ Quiet sys'.bus ∧
        Phase cfg memory none [] [] [] sys'.responder := by
  induction fuel generalizing sys with
  | zero => exact Or.inl rfl
  | succ fuel ih =>
    obtain ⟨haw, htakes⟩ : sys.responder.w.awFire sys.bus = false ∧
        Takes cfg sys.responder sys.bus memory memory none none [(resp, id)] [(resp, id)] :=
      takes_quiet hbus.awvalid hbus.wvalid
    obtain ⟨t, s₁, s', hwriting, ht, -, -, hsample, hstep, hclk', hphase⟩ :=
      h.period_unread rnd halways hperiods hbus.arvalid (fun hfire => absurd (haw.symm.trans hfire) (by decide))
        htakes
    -- the clock was high, so the master sees the low phase
    obtain rfl : t = s₁ := by
      rcases ht with rfl | ⟨hlow, -⟩
      · rfl
      · exact absurd (hclk.symm.trans hlow) one_ne_zero
    rw [hbready, Bool.and_true] at hphase
    rw [writeResponse_succ hsample hstep]
    rcases hwriting.lines with ⟨hno, -⟩ | ⟨hyes, rest, hrest⟩
    · rw [hno, if_neg Bool.false_ne_true] at hphase ⊢
      exact ih hbus hbready hclk' hphase
    · obtain ⟨hlines, rfl⟩ := List.cons.inj hrest
      rw [hyes, if_pos rfl] at hphase ⊢
      rw [← hlines, hresp, if_neg (not_not_intro rfl)]
      exact Or.inr ⟨_, rfl, quiet_idle wires sys.bus, hphase⟩

/-! ## The call -/

/-- The first signals of a write. -/
theorem offering_driveAw (hconn : Connected cfg wires) {call : WriteCall} (strbs : List Nat)
    (hburst : WholeBurst cfg wires call.addr call.data.length call.size) {bus : Observed} (hbus : Quiet bus) :
    Offering cfg (callBurst cfg wires call.addr call.data.length call.txnId) (wireBeat cfg call strbs) false 0
      (Master.driveAw cfg wires call strbs bus) where
  awvalid := rfl
  address := congrArg some (hconn.burstOf_eq call.txnId hburst)
  wvalid := (decide_eq_true (show 0 < call.data.length from hburst.pos)).symm
  data := fun _ => rfl
  last := fun _ => by
    have hpos := hburst.pos
    change isHigh (some (if 0 + 1 = call.data.length then 1 else 0)) = decide (call.data.length ≤ 0 + 1)
    by_cases hone : 0 + 1 = call.data.length
    · rw [if_pos hone, decide_eq_true hone.ge]
      rfl
    · rw [if_neg hone, decide_eq_false (by omega)]
      rfl
  arvalid := hbus.arvalid
  rready := hbus.rready
  bready := hbus.bready

/-- `write`, on a responder that has nothing in hand, stores its beats, unless it times out. -/
theorem write_stores (rnd : Random ρ) (hconn : Connected cfg wires) (hperiods : ∀ k, (periods k).edge.aw = false)
    {call : WriteCall} (hburst : WholeBurst cfg wires call.addr call.data.length call.size)
    (hresp : call.expectedResp = cfg.defaultWriteResp) {strbs : List Nat} (hstrbs : Master.strbs cfg call = .ok strbs)
    {memory : Nat → Option Nat} {sys : System ρ} (hbus : Quiet sys.bus)
    (h : Phase cfg memory none [] [] [] sys.responder) :
    (∃ e : CallError, Master.write rnd cfg wires periods call sys = .error e ∧ e.isTimeout = true) ∨
      ∃ sys', Master.write rnd cfg wires periods call sys = .ok (cfg.defaultWriteResp, sys') ∧ Quiet sys'.bus ∧
        Phase cfg (storedBeats cfg (callBurst cfg wires call.addr call.data.length call.txnId) (wireBeat cfg call strbs)
          memory call.data.length) none [] [] [] sys'.responder := by
  have hne : call.data ≠ [] := List.ne_nil_of_length_pos hburst.pos
  have hwrite : Master.write rnd cfg wires periods call sys = (do
      let sys ← Master.addressAndData rnd cfg periods call strbs (call.timeout * (call.data.length + 1)) false 0
        (sys.drive (Master.driveAw cfg wires call strbs))
      Master.writeResponse rnd cfg wires periods call call.timeout
        (sys.drive fun bus => { bus with bready := some 1 })) := by
    unfold Master.write
    rw [if_neg hne, hstrbs]
    rfl
  have hrange : (callBurst cfg wires call.addr call.data.length call.txnId).InRange cfg := fun i hi => by
    rw [hconn.beatAddr_eq]
    exact hburst.range i hi
  -- the signals are driven, then the loop over AW and W runs
  have hoff : Offering cfg (callBurst cfg wires call.addr call.data.length call.txnId) (wireBeat cfg call strbs) false 0
      (sys.drive (Master.driveAw cfg wires call strbs)).bus := offering_driveAw hconn strbs hburst hbus
  have hphase : Phase cfg (storedBeats cfg (callBurst cfg wires call.addr call.data.length call.txnId)
        (wireBeat cfg call strbs) memory 0)
      (progress cfg (callBurst cfg wires call.addr call.data.length call.txnId) false 0).1
      (progress cfg (callBurst cfg wires call.addr call.data.length call.txnId) false 0).2 [] []
      (sys.drive (Master.driveAw cfg wires call strbs)).responder := h
  rw [hwrite]
  rcases addressAndData_stores rnd hconn.alwaysReady hperiods rfl hrange (call.timeout * (call.data.length + 1)) hoff
    hphase (fun _ => rfl) hburst.pos with hlate | ⟨sys₁, hdone, hquiet, hclk, hphase₁⟩
  · rw [hlate]
    exact Or.inl ⟨.addressTimeout, rfl, rfl⟩
  · rw [hdone]
    have hquiet₁ : Quiet { (sys₁.drive fun bus => { bus with bready := some 1 }).bus with bready := some 0 } :=
      ⟨hquiet.awvalid, hquiet.wvalid, hquiet.arvalid, hquiet.rready, rfl⟩
    rcases writeResponse_takes rnd wires hconn.alwaysReady hperiods hresp call.timeout hquiet₁ rfl hclk hphase₁ with
      hlate | ⟨sys₂, htaken, hquiet₂, hphase₂⟩
    · exact Or.inl ⟨.responseTimeout, hlate, rfl⟩
    · exact Or.inr ⟨sys₂, htaken, hquiet₂, hphase₂⟩

end Veriforge.Axi4

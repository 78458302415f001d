import Veriforge.Axi4.Writes

/-! # A read call

`AXI4Master.read` on a responder that has nothing in hand: the address is taken, and the beats are what the
memory has, unless the call times out. -/

namespace Veriforge.Axi4

open AxiLite (isHigh)

variable {ρ : Type} {rnd : Random ρ} {cfg : Options} {wires : Wires} {periods : Nat → Period}

/-! ## The address -/

/-- A burst that has been asked for, with its lines once it has started. -/
def Answered (cfg : Options) (memory : Nat → Option Nat) (burst : Burst) (asked : List Burst) (left : List RLines) :
    Prop :=
  asked = [burst] ∧ left = [] ∨ asked = [] ∧ left = burstLines cfg (burst, memory)

/-- A turn of the loop over AR. -/
theorem readAddress_succ {fuel : Nat} {sys : System ρ} {t s' : Responder ρ}
    (hsample : sys.toSamplePoint rnd cfg periods = .ok { sys with responder := t })
    (hstep : System.stepCycle rnd cfg periods { sys with responder := t } = .ok ⟨s', sys.bus, sys.period + 1⟩) :
    Master.readAddress rnd cfg periods (fuel + 1) sys =
      if isHigh t.r.arready then .ok ⟨s', { sys.bus with arvalid := some 0 }, sys.period + 1⟩
      else Master.readAddress rnd cfg periods fuel ⟨s', sys.bus, sys.period + 1⟩ := by
  rw [Master.readAddress, hsample]
  change (raised (System.stepCycle rnd cfg periods { sys with responder := t }) >>= fun sys =>
    if isHigh t.r.arready then _ else _) = _
  rw [hstep]
  rfl

/-- The loop over AR. -/
theorem readAddress_asks (rnd : Random ρ) (halways : cfg.alwaysReady = true)
    (hperiods : ∀ k, (periods k).edge.aw = false) {memory : Nat → Option Nat} {burst : Burst}
    (hrange : burst.InRange cfg) (fuel : Nat) {sys : System ρ} (hbus : Quiet { sys.bus with arvalid := some 0 })
    (harvalid : isHigh sys.bus.arvalid = true) (har : sys.bus.ar cfg = some burst)
    (h : Phase cfg memory none [] [] [] sys.responder) :
    Master.readAddress rnd cfg periods fuel sys = .error .addressTimeout ∨
      ∃ sys' asked left, Master.readAddress rnd cfg periods fuel sys = .ok sys' ∧ Quiet sys'.bus ∧
        sys'.responder.prevClk = 1 ∧ Answered cfg memory burst asked left ∧
        Phase cfg memory none [] asked left sys'.responder := by
  induction fuel generalizing sys with
  | zero => exact Or.inl rfl
  | succ fuel ih =>
    obtain ⟨hawFire, htakes⟩ : sys.responder.w.awFire sys.bus = false ∧
        Takes cfg sys.responder sys.bus memory memory none none [] [] := takes_quiet hbus.awvalid hbus.wvalid
    have htaken : sys.responder.takesAr cfg sys.bus = if isHigh sys.responder.r.arready then some burst else none := by
      unfold Responder.takesAr ReadSide.arFire
      rw [harvalid, har, Bool.true_and]
    obtain ⟨t, s₁, s', begun, asked', hasked, -, -, -, -, harready, hsample, hstep, hclk, hphase⟩ :=
      h.period rnd halways hperiods (fun hfire => absurd (hawFire.symm.trans hfire) (by decide)) htakes
        (fun b hb => by
          rw [htaken] at hb
          split at hb
          · rw [List.mem_singleton.mp hb]
            exact hrange
          · exact absurd hb List.not_mem_nil)
    rw [htaken, ← harready] at hasked
    have hrready : isHigh sys.bus.rready = false := hbus.rready
    rw [hrready, Bool.and_false, if_neg Bool.false_ne_true] at hphase
    have hout : (if s₁.w.bvalid && isHigh sys.bus.bready then ([] : List (Nat × Nat)).tail else []) = [] := by
      split <;> rfl
    rw [hout] at hphase
    rw [readAddress_succ hsample hstep]
    cases hready : isHigh t.r.arready with
    | false =>
      rw [hready] at hasked
      obtain ⟨hbegun, rfl⟩ := List.append_eq_nil_iff.mp hasked.symm
      rw [hbegun] at hphase
      exact ih hbus harvalid har hphase
    | true =>
      rw [hready] at hasked
      refine Or.inr ⟨_, _, _, rfl, hbus, hclk, ?_, hphase⟩
      -- the burst has started in the same low phase, or waits
      cases begun with
      | none => exact Or.inl ⟨hasked.symm, rfl⟩
      | some b =>
        obtain ⟨rfl, hrest⟩ := List.cons.inj hasked
        exact Or.inr ⟨hrest.symm, List.append_nil _⟩

/-! ## The data -/

/-- A turn of the loop over R. -/
theorem readData_succ {call : ReadCall} {fuel : Nat} {beats : List Nat} {sys : System ρ} {t s' : Responder ρ}
    (hsample : sys.toSamplePoint rnd cfg periods = .ok { sys with responder := t })
    (hstep : System.stepCycle rnd cfg periods { sys with responder := t } = .ok ⟨s', sys.bus, sys.period + 1⟩)
    (hresp : t.r.rvalid = true → t.r.rLines.resp = call.expectedResp) :
    Master.readData rnd cfg wires periods call (fuel + 1) beats sys = if t.r.rvalid then
        if t.r.rLines.last then
          if (beats ++ [t.r.rLines.data]).length ≠ call.length then
            .error (.readLast (beats ++ [t.r.rLines.data]).length call.length)
          else .ok (beats ++ [t.r.rLines.data], ⟨s', Master.idle wires sys.bus, sys.period + 1⟩)
        else Master.readData rnd cfg wires periods call fuel (beats ++ [t.r.rLines.data]) ⟨s', sys.bus, sys.period + 1⟩
      else Master.readData rnd cfg wires periods call fuel beats ⟨s', sys.bus, sys.period + 1⟩ := by
  rw [Master.readData, hsample]
  cases hvalid : t.r.rvalid with
  | false =>
    change (if t.r.rvalid then _ else
      raised (System.stepCycle rnd cfg periods { sys with responder := t }) >>= _) = _
    rw [hvalid, hstep]
    rfl
  | true =>
    change (if t.r.rvalid then (if t.r.rLines.resp ≠ call.expectedResp then _ else
      (raised (System.stepCycle rnd cfg periods { sys with responder := t }) >>= _)) else _) = _
    rw [hvalid, if_pos rfl, if_neg (not_not_intro (hresp hvalid)), hstep, if_pos rfl]
    rfl

theorem length_burstLines (memory : Nat → Option Nat) (burst : Burst) :
    (burstLines cfg (burst, memory)).length = burst.beats := by
  unfold burstLines
  rw [List.length_map, List.length_range]

theorem getElem_burstLines {memory : Nat → Option Nat} {burst : Burst} {k : Nat}
    (hk : k < (burstLines cfg (burst, memory)).length) :
    (burstLines cfg (burst, memory))[k] =
      ⟨(readBeat cfg memory burst k).1, cfg.defaultReadResp, burst.id, decide (k + 1 = burst.beats)⟩ := by
  simp [burstLines, readBeat]

/-- The loop over R, with the beats so far: it returns the data of all lines. -/
theorem readData_returns (rnd : Random ρ) (wires : Wires) (halways : cfg.alwaysReady = true)
    (hperiods : ∀ k, (periods k).edge.aw = false) {call : ReadCall} {memory : Nat → Option Nat} {burst : Burst}
    (hresp : call.expectedResp = cfg.defaultReadResp) (hlength : burst.beats = call.length)
    (hrange : burst.InRange cfg) (fuel : Nat) {k : Nat} (hk : k < burst.beats) {sys : System ρ}
    (hbus : Quiet { sys.bus with rready := some 0 }) (hrready : isHigh sys.bus.rready = true)
    (hclk : sys.responder.prevClk = 1) {asked : List Burst} {left : List RLines}
    (hleft : asked = [burst] ∧ left = [] ∧ k = 0 ∨ asked = [] ∧ left = (burstLines cfg (burst, memory)).drop k)
    (h : Phase cfg memory none [] asked left sys.responder) :
    Master.readData rnd cfg wires periods call fuel (((burstLines cfg (burst, memory)).take k).map RLines.data) sys =
        .error .responseTimeout ∨
      ∃ sys', Master.readData rnd cfg wires periods call fuel
          (((burstLines cfg (burst, memory)).take k).map RLines.data) sys =
            .ok ((burstLines cfg (burst, memory)).map RLines.data, sys') ∧
        Quiet sys'.bus ∧ Phase cfg memory none [] [] [] sys'.responder := by
  induction fuel generalizing k sys asked left with
  | zero => exact Or.inl rfl
  | succ fuel ih =>
    have hlen : k < (burstLines cfg (burst, memory)).length := by
      rw [length_burstLines]
      exact hk
    obtain ⟨hawFire, htakes⟩ : sys.responder.w.awFire sys.bus = false ∧
        Takes cfg sys.responder sys.bus memory memory none none [] [] := takes_quiet hbus.awvalid hbus.wvalid
    have hnone : sys.responder.takesAr cfg sys.bus = none := by
      unfold Responder.takesAr ReadSide.arFire
      rw [show isHigh sys.bus.arvalid = false from hbus.arvalid]
      rfl
    obtain ⟨t, s₁, s', begun, asked', hasked, hsampled, ht, -, -, -, hsample, hstep, hclk', hphase⟩ :=
      h.period rnd halways hperiods (fun hfire => absurd (hawFire.symm.trans hfire) (by decide)) htakes
        (fun b hb => by
          rw [hnone, Option.toList_none, List.append_nil] at hb
          rcases hleft with ⟨rfl, -, -⟩ | ⟨rfl, -⟩
          · rw [List.mem_singleton.mp hb]
            exact hrange
          · exact absurd hb List.not_mem_nil)
    -- the clock was high, so the master sees the low phase
    obtain rfl : t = s₁ := by
      rcases ht with rfl | ⟨hlow, -⟩
      · rfl
      · exact absurd (hclk.symm.trans hlow) one_ne_zero
    rw [hnone, Option.toList_none, List.append_nil] at hasked
    obtain ⟨left', hleft'⟩ : ∃ left', left' =
        left ++ begun.toList.flatMap fun burst => burstLines cfg (burst, memory) := ⟨_, rfl⟩
    rw [← hleft'] at hsampled hphase
    -- what is left once the burst may have started
    have hafter : asked' = [burst] ∧ left' = [] ∧ k = 0 ∨
        asked' = [] ∧ left' = (burstLines cfg (burst, memory)).drop k := by
      rcases hleft with ⟨rfl, rfl, rfl⟩ | ⟨rfl, rfl⟩
      · cases begun with
        | none => exact Or.inl ⟨hasked.symm, hleft', rfl⟩
        | some b =>
          obtain ⟨rfl, hrest⟩ := List.cons.inj hasked
          exact Or.inr ⟨hrest.symm, hleft'.trans (List.append_nil _)⟩
      · obtain ⟨hbegun, rfl⟩ := List.append_eq_nil_iff.mp hasked.symm
        rw [hbegun] at hleft'
        exact Or.inr ⟨rfl, hleft'.trans (List.append_nil _)⟩
    rw [hrready, Bool.and_true] at hphase
    have hout : (if t.w.bvalid && isHigh sys.bus.bready then ([] : List (Nat × Nat)).tail else []) = [] := by
      split <;> rfl
    rw [hout] at hphase
    have hdrop : (burstLines cfg (burst, memory)).drop k =
        (burstLines cfg (burst, memory))[k] :: (burstLines cfg (burst, memory)).drop (k + 1) :=
      List.drop_eq_getElem_cons hlen
    rcases hsampled.r.lines hsampled.settled.needs with ⟨hno, hnil⟩ | ⟨hyes, rest, hrest⟩
    · -- no beat yet
      rw [readData_succ hsample hstep fun hv => absurd (hno.symm.trans hv) (by decide)]
      rw [hno, if_neg Bool.false_ne_true] at hphase ⊢
      exact ih hk hbus hrready hclk' hafter hphase
    · -- beat `k`
      obtain ⟨rfl, hcur⟩ : asked' = [] ∧ left' = (burstLines cfg (burst, memory)).drop k := by
        rcases hafter with ⟨-, hnil, -⟩ | hafter
        · exact absurd (hrest.symm.trans hnil) (List.cons_ne_nil _ _)
        · exact hafter
      have hlines : t.r.rLines = (burstLines cfg (burst, memory))[k] ∧
          rest = (burstLines cfg (burst, memory)).drop (k + 1) := by
        have hcons := hrest.symm.trans (hcur.trans hdrop)
        exact ⟨(List.cons.inj hcons).1, (List.cons.inj hcons).2⟩
      have hbeat := getElem_burstLines hlen
      have htake : ((burstLines cfg (burst, memory)).take k).map RLines.data ++ [t.r.rLines.data] =
          ((burstLines cfg (burst, memory)).take (k + 1)).map RLines.data := by
        rw [List.take_succ_eq_append_getElem hlen, List.map_append, hlines.1]
        rfl
      rw [readData_succ hsample hstep fun _ => by rw [hlines.1, hbeat, hresp]]
      rw [hyes, if_pos rfl, hrest, List.tail_cons, hlines.2] at hphase
      rw [hyes, if_pos rfl, htake, hlines.1, hbeat]
      by_cases hlast : k + 1 = burst.beats
      · have hall : (burstLines cfg (burst, memory)).length = k + 1 := (length_burstLines memory burst).trans hlast.symm
        rw [decide_eq_true hlast, if_pos rfl, List.take_of_length_le hall.le, List.length_map, hall,
          if_neg (not_not_intro (hlast.trans hlength))]
        rw [List.drop_of_length_le hall.le] at hphase
        exact Or.inr ⟨_, rfl, quiet_idle wires sys.bus, hphase⟩
      · rw [decide_eq_false hlast, if_neg Bool.false_ne_true]
        exact ih (by omega) hbus hrready hclk' (Or.inr ⟨rfl, rfl⟩) hphase

/-! ## The call -/

/-- `read`, on a responder that has nothing in hand, returns the data of its beats, unless it times out. -/
theorem read_returns (rnd : Random ρ) (hconn : Connected cfg wires) (hperiods : ∀ k, (periods k).edge.aw = false)
    {call : ReadCall} (hburst : WholeBurst cfg wires call.addr call.length call.size)
    (hresp : call.expectedResp = cfg.defaultReadResp) {memory : Nat → Option Nat} {sys : System ρ}
    (hbus : Quiet sys.bus) (h : Phase cfg memory none [] [] [] sys.responder) :
    (∃ e : CallError, Master.read rnd cfg wires periods call sys = .error e ∧ e.isTimeout = true) ∨
      ∃ sys', Master.read rnd cfg wires periods call sys = .ok ((burstLines cfg
          (callBurst cfg wires call.addr call.length call.txnId, memory)).map RLines.data, sys') ∧
        Quiet sys'.bus ∧ Phase cfg memory none [] [] [] sys'.responder := by
  have hread : Master.read rnd cfg wires periods call sys = (do
      let sys ← Master.readAddress rnd cfg periods call.timeout (sys.drive (Master.driveAr cfg wires call))
      Master.readData rnd cfg wires periods call (call.timeout * call.length) []
        (sys.drive fun bus => { bus with rready := some 1 })) := by
    unfold Master.read
    rw [if_neg (Nat.not_lt.mpr hburst.pos)]
  have hrange : (callBurst cfg wires call.addr call.length call.txnId).InRange cfg := fun i hi => by
    rw [hconn.beatAddr_eq]
    exact hburst.range i hi
  have har : (sys.drive (Master.driveAr cfg wires call)).bus.ar cfg =
      some (callBurst cfg wires call.addr call.length call.txnId) :=
    congrArg some (hconn.burstOf_eq call.txnId hburst)
  have hquiet : Quiet { (sys.drive (Master.driveAr cfg wires call)).bus with arvalid := some 0 } :=
    ⟨hbus.awvalid, hbus.wvalid, rfl, hbus.rready, hbus.bready⟩
  rw [hread]
  rcases readAddress_asks rnd hconn.alwaysReady hperiods hrange call.timeout hquiet rfl har h with
    hlate | ⟨sys₁, asked, left, hasked, hquiet₁, hclk, hanswered, hphase⟩
  · rw [hlate]
    exact Or.inl ⟨.addressTimeout, rfl, rfl⟩
  · rw [hasked]
    have hquiet₂ : Quiet { (sys₁.drive fun bus => { bus with rready := some 1 }).bus with rready := some 0 } :=
      ⟨hquiet₁.awvalid, hquiet₁.wvalid, hquiet₁.arvalid, rfl, hquiet₁.bready⟩
    rcases readData_returns (k := 0) rnd wires hconn.alwaysReady hperiods hresp rfl hrange
      (call.timeout * call.length) hburst.pos hquiet₂ rfl hclk (hanswered.imp (fun hw => ⟨hw.1, hw.2, rfl⟩) id) hphase with
      hlate | ⟨sys₂, hdone, hquiet₃, hphase₂⟩
    · exact Or.inl ⟨.responseTimeout, hlate, rfl⟩
    · exact Or.inr ⟨sys₂, hdone, hquiet₃, hphase₂⟩

end Veriforge.Axi4

import Mathlib.Data.List.Basic
import Veriforge.Except
import Veriforge.Axi4.Responder

/-! # The answers of the AXI4 responder

A read burst passes from the requests to the waiting slot, from there to the beats, and from these to the
bus one by one; a B response passes through a queue and a slot of its own. Nothing is lost, repeated or
reordered on the way, and what is on the lines stays there until it is transferred. -/

namespace Veriforge.Axi4

open AxiLite (isHigh)

/-! ## Runs -/

/-- What happens to the responder: its callback runs in the low phase, at a rising edge (before which the
master's signals were `edge`, and after which they are `after`), in the high phase or with an unknown
clock; or a test sets the next write response. -/
inductive Event where
  | low (o : Observed) (p : Pauses)
  | rise (edge after : Observed) (p : Pauses)
  | high (o : Observed) (p : Pauses)
  | unknown (o : Observed) (p : Pauses)
  | queueWriteResponse (resp : Nat)

section Runs

variable {ρ μ : Type} (rnd : Random ρ) (cfg : Options)

/-- What the event makes of the responder. -/
def act (s : Responder ρ) : Event → Except Fault (Responder ρ)
  | .low o p => s.onTimeStep rnd cfg (some 0) o p
  | .rise _ after p => s.onTimeStep rnd cfg (some 1) after p
  | .high o p => s.onTimeStep rnd cfg (some 1) o p
  | .unknown o p => s.onTimeStep rnd cfg none o p
  | .queueWriteResponse resp => .ok { s with w := { s.w with nextWriteResp := some resp } }

/-- The clock before the event. -/
def Clocked (s : Responder ρ) : Event → Prop
  | .rise _ _ _ => s.prevClk = 0
  | .high _ _ => s.prevClk = 1
  | _ => True

/-- The runs whose events all meet `P`, under an observer who sees each event. -/
inductive Run (watch : Responder ρ → μ → Event → μ) (P : Responder ρ → μ → Event → Prop) (s₀ : Responder ρ)
    (m₀ : μ) : Responder ρ → μ → Prop where
  | start : Run watch P s₀ m₀ s₀ m₀
  | step {s s' : Responder ρ} {m : μ} (h : Run watch P s₀ m₀ s m) (ev : Event) (hclk : Clocked s ev) (hP : P s m ev)
      (hact : act rnd cfg s ev = .ok s') : Run watch P s₀ m₀ s' (watch s m ev)

end Runs

variable {ρ : Type} {rnd : Random ρ} {cfg : Options}

/-- What a low-phase callback does. -/
theorem act_low {s s' : Responder ρ} {o : Observed} {p : Pauses} (h : act rnd cfg s (.low o p) = .ok s') :
    ∃ s₁ r, s.acceptAll cfg o = .ok s₁ ∧
      (s₁.wait rnd cfg).r.driveR cfg (s₁.wait rnd cfg).cycleCount (s₁.wait rnd cfg).memory p.r = .ok r ∧
      s' = { s₁.wait rnd cfg with
        w := (s₁.wait rnd cfg).w.driveB (s₁.wait rnd cfg).cycleCount p.b, r := r, prevClk := 0 } := by
  unfold act Responder.onTimeStep Responder.lowPhase at h
  simp only [if_true, zero_ne_one, and_false, if_false] at h
  obtain ⟨low, hlow, h⟩ := ok_of_bind h
  obtain ⟨s₁, haccept, hlow⟩ := ok_of_bind hlow
  obtain ⟨r, hdrive, hlow⟩ := ok_of_bind hlow
  refine ⟨s₁, r, haccept, hdrive, ?_⟩
  rw [← Except.ok.inj h, ← Except.ok.inj hlow]

/-- A rising edge. -/
theorem act_rise {s s' : Responder ρ} {e after : Observed} {p : Pauses} (hclk : Clocked s (.rise e after p))
    (h : act rnd cfg s (.rise e after p) = .ok s') : s' = { s.risingEdge cfg p with prevClk := 1 } := by
  have hclk : s.prevClk = 0 := hclk
  unfold act Responder.onTimeStep at h
  simp only [one_ne_zero, if_false, hclk, and_self, if_true] at h
  exact (Except.ok.inj h).symm

/-- Nothing happens in the high phase. -/
theorem act_high {s s' : Responder ρ} {o : Observed} {p : Pauses} (hclk : Clocked s (.high o p))
    (h : act rnd cfg s (.high o p) = .ok s') : s' = { s with prevClk := 1 } := by
  have hclk : s.prevClk = 1 := hclk
  unfold act Responder.onTimeStep at h
  simp only [one_ne_zero, if_false, hclk, false_and] at h
  exact (Except.ok.inj h).symm

/-- What the callback accepts in the low phase. -/
theorem acceptAll_ok {s s' : Responder ρ} {o : Observed} (h : s.acceptAll cfg o = .ok s') :
    ∃ memory w, (((s.w.sampleReady o).clearSeen s.prevClk).acceptAw cfg o).acceptW cfg s.cycleCount o s.memory =
        .ok (memory, w) ∧
      s' = { s with
        memory := memory, w := w
        r := (((s.r.sampleReady o).presentNext).clearSeen s.prevClk).acceptAr cfg s.cycleCount o } := by
  unfold Responder.acceptAll at h
  obtain ⟨⟨memory, w⟩, hw, h⟩ := ok_of_bind h
  exact ⟨memory, w, hw, (Except.ok.inj h).symm⟩

theorem wait_w (s : Responder ρ) : (s.wait rnd cfg).w = (s.w.waitB cfg s.cycleCount rnd s.rng).1 := rfl

theorem wait_r (s : Responder ρ) : (s.wait rnd cfg).r =
    (s.r.waitR cfg s.cycleCount rnd (s.w.waitB cfg s.cycleCount rnd s.rng).2).1 := rfl

/-! ## Reads -/

/-- The beats that are left, as the lines will have them. -/
def marked : List (Nat × Nat × Nat) → List RLines
  | [] => []
  | beat :: rest => linesOf beat rest :: marked rest

/-- The answer to a burst that starts with this memory: a beat for each address, RLAST on the last. -/
def burstLines (cfg : Options) (start : Burst × (Nat → Option Nat)) : List RLines :=
  (List.range start.1.beats).map fun i =>
    ⟨(start.2 (start.1.beatAddr i)).getD cfg.defaultReadValue &&& ((1 <<< (cfg.dataBytes * 8)) - 1),
      cfg.defaultReadResp, start.1.id, decide (i + 1 = start.1.beats)⟩

theorem marked_map_range (f : Nat → Nat × Nat × Nat) (n k : Nat) : marked ((List.range' k n).map f) =
      (List.range' k n).map fun i => ⟨(f i).1, (f i).2.1, (f i).2.2, decide (i + 1 = k + n)⟩ := by
  induction n generalizing k with
  | zero => rfl
  | succ n ih =>
    rw [List.range'_succ, List.map_cons, marked, ih, List.map_cons]
    congr 1
    · unfold linesOf
      congr 1
      cases n with
      | zero => simp
      | succ n => simp [List.range'_succ]
    · refine List.map_congr_left fun i _ => ?_
      congr 2
      exact propext ⟨fun h => by omega, fun h => by omega⟩

theorem marked_readBeats (cfg : Options) (memory : Nat → Option Nat) (burst : Burst) :
    marked ((List.range burst.beats).map (readBeat cfg memory burst)) = burstLines cfg (burst, memory) := by
  rw [List.range_eq_range', marked_map_range, Nat.zero_add]
  rw [burstLines, List.range_eq_range']
  rfl

/-- How a burst is logged. -/
def Burst.entry (burst : Burst) : Nat × Nat × Nat := (burst.addr, burst.beats, burst.id)

namespace ReadSide

/-- The AR that a low-phase callback accepts. -/
def acceptedAr (cfg : Options) (o : Observed) (r : ReadSide) : Option Burst :=
  if r.arFire o && !r.arSeen then o.araddr.map fun addr => burstOf cfg addr o.arlen o.arsize o.arid else none

/-- Between the bursts that have started, whose beats are `sent` up to those that are left, and those
that are recorded. -/
structure Sound (cfg : Options) (recorded : List Burst) (started : List (Burst × (Nat → Option Nat)))
    (sent : List RLines) (r : ReadSide) : Prop where
  requests : started.map Prod.fst ++ r.rWaiting.toList ++ r.arPending = recorded
  logged : r.readBurstLog = recorded.map Burst.entry
  positive : ∀ burst ∈ recorded, 0 < burst.beats
  answers : sent ++ marked r.rBeats = started.flatMap (burstLines cfg)
  idle : r.rActive = false → r.rBeats = [] ∧ r.rNeedsPresent = false
  valid : r.rvalid = r.rActive
  lines : r.rActive = true → r.rNeedsPresent = false → ∃ beat rest, r.rBeats = beat :: rest ∧ r.rLines = linesOf beat rest

variable {recorded : List Burst} {started : List (Burst × (Nat → Option Nat))} {sent : List RLines} {r : ReadSide}

theorem Sound.sampleReady (h : Sound cfg recorded started sent r) (o : Observed) :
    Sound cfg recorded started sent (r.sampleReady o) :=
  ⟨h.requests, h.logged, h.positive, h.answers, h.idle, h.valid, h.lines⟩

theorem Sound.clearSeen (h : Sound cfg recorded started sent r) (prevClk : Nat) :
    Sound cfg recorded started sent (r.clearSeen prevClk) := by
  unfold ReadSide.clearSeen
  split
  · exact ⟨h.requests, h.logged, h.positive, h.answers, h.idle, h.valid, h.lines⟩
  · exact h

theorem Sound.presentNext (h : Sound cfg recorded started sent r) : Sound cfg recorded started sent r.presentNext := by
  unfold ReadSide.presentNext
  split
  · next hneeds =>
    have hactive : r.rActive = true := by
      by_contra hno
      rw [(h.idle (Bool.not_eq_true _ ▸ hno)).2] at hneeds
      exact Bool.false_ne_true hneeds
    split
    · next beat rest hbeats =>
      exact ⟨h.requests, h.logged, h.positive, h.answers, fun ha => absurd (hactive.symm.trans ha) (by decide),
        hactive.symm, fun _ _ => ⟨beat, rest, hbeats, rfl⟩⟩
    · next hbeats =>
      exact ⟨h.requests, h.logged, h.positive, h.answers, fun _ => ⟨hbeats, rfl⟩, rfl, fun ha => (nomatch ha)⟩
  · exact h

theorem presentNext_needs (r : ReadSide) : r.presentNext.rNeedsPresent = false := by
  unfold presentNext
  split
  · split <;> rfl
  · next h => exact Bool.not_eq_true _ ▸ h

theorem Sound.acceptAr (h : Sound cfg recorded started sent r) (cycle : Nat) (o : Observed) :
    Sound cfg (recorded ++ (r.acceptedAr cfg o).toList) started sent (r.acceptAr cfg cycle o) := by
  have hnone : r.acceptedAr cfg o = none → recorded ++ (r.acceptedAr cfg o).toList = recorded := by
    intro hn
    rw [hn]
    exact List.append_nil _
  unfold ReadSide.acceptAr
  split
  · next hfire =>
    split
    · next hseen =>
      rw [hnone (by unfold acceptedAr; rw [if_neg (by simp [hseen])])]
      exact h
    · next hseen =>
      cases haddr : o.araddr with
      | none =>
        rw [hnone (by unfold acceptedAr; simp [haddr])]
        exact ⟨h.requests, h.logged, h.positive, h.answers, h.idle, h.valid, h.lines⟩
      | some addr =>
        have haccepted : r.acceptedAr cfg o = some (burstOf cfg addr o.arlen o.arsize o.arid) := by
          unfold acceptedAr
          rw [if_pos (by simp [hfire, hseen]), haddr]
          rfl
        rw [haccepted]
        refine ⟨?_, ?_, fun burst hb => ?_, h.answers, h.idle, h.valid, h.lines⟩
        · dsimp only
          rw [← h.requests, List.append_assoc, List.append_assoc, List.append_assoc]
          rfl
        · dsimp only
          rw [h.logged, List.map_append]
          rfl
        · rcases List.mem_append.mp hb with hb | hb
          · exact h.positive burst hb
          · rw [List.mem_singleton.mp hb]
            exact Nat.succ_pos _
  · next hfire =>
    rw [hnone (by unfold acceptedAr; rw [if_neg (by simp [hfire])])]
    exact ⟨h.requests, h.logged, h.positive, h.answers, h.idle, h.valid, h.lines⟩

theorem Sound.waitR (h : Sound cfg recorded started sent r) (cycle : Nat) (rng : ρ) :
    Sound cfg recorded started sent (r.waitR cfg cycle rnd rng).1 := by
  unfold ReadSide.waitR
  split
  · exact h
  · next next rest hpending =>
    split
    · next hc =>
      simp only [Bool.and_eq_true, Option.isNone_iff_eq_none] at hc
      refine ⟨?_, h.logged, h.positive, h.answers, h.idle, h.valid, h.lines⟩
      rw [← h.requests, hpending, hc.2]
      simp
    · exact h

/-- The burst that starts is the one that waits, and none is active. -/
theorem starting_some {cycle : Nat} {paused : Bool} {burst : Burst} (h : r.starting cycle paused = some burst) :
    r.rWaiting = some burst ∧ r.rActive = false := by
  unfold starting at h
  split at h
  · next hc =>
    simp only [Bool.and_eq_true, Bool.not_eq_true'] at hc
    exact ⟨h, hc.1.1⟩
  · exact nomatch h

theorem Sound.driveR (h : Sound cfg recorded started sent r) {cycle : Nat} {memory : Nat → Option Nat} {paused : Bool}
    {r' : ReadSide} (hdrive : r.driveR cfg cycle memory paused = .ok r') :
    Sound cfg recorded (started ++ ((r.starting cycle paused).map fun burst => (burst, memory)).toList) sent r' := by
  unfold ReadSide.driveR at hdrive
  dsimp only at hdrive
  split at hdrive
  · next hnone =>
    obtain rfl := Except.ok.inj hdrive
    rw [hnone]
    simp only [Option.map_none, Option.toList_none, List.append_nil]
    exact ⟨h.requests, h.logged, h.positive, h.answers, h.idle, h.valid, h.lines⟩
  · next burst hsome =>
    obtain ⟨hwaiting, hidle⟩ := starting_some hsome
    obtain ⟨hbeats, hneeds⟩ := h.idle hidle
    have hpos : 0 < burst.beats := by
      refine h.positive burst ?_
      rw [← h.requests, hwaiting]
      simp
    obtain ⟨n, hn⟩ := Nat.exists_eq_succ_of_ne_zero hpos.ne'
    have hr' : r' = { r.start cfg memory burst with
        pauseDraw := if (r.rWaiting.isSome && !r.rActive && decide (r.rWaitTargetCycle ≤ cycle)) = true then
          some (pausedThisCycle cycle r.pauseDraw paused) else r.pauseDraw } := by
      obtain ⟨-, -, hdrive⟩ := ok_of_bind hdrive
      exact (Except.ok.inj hdrive).symm
    subst hr'
    rw [hsome]
    refine ⟨?_, h.logged, h.positive, ?_, fun ha => (nomatch ha), rfl, fun _ _ => ?_⟩
    · change (started ++ [(burst, memory)]).map Prod.fst ++ [] ++ r.arPending = recorded
      rw [← h.requests, hwaiting]
      simp
    · change sent ++ marked (r.rBeats ++ (List.range burst.beats).map (readBeat cfg memory burst)) =
        (started ++ [(burst, memory)]).flatMap (burstLines cfg)
      have hanswers := h.answers
      rw [hbeats, marked, List.append_nil] at hanswers
      rw [hbeats, List.nil_append, marked_readBeats, List.flatMap_append, List.flatMap_singleton, ← hanswers]
    · refine ⟨readBeat cfg memory burst 0, ((List.range n).map Nat.succ).map (readBeat cfg memory burst), ?_, ?_⟩
      · change r.rBeats ++ (List.range burst.beats).map (readBeat cfg memory burst) = _
        rw [hbeats, hn, List.range_succ_eq_map]
        rfl
      · change linesOf ((r.rBeats ++ (List.range burst.beats).map (readBeat cfg memory burst)).headD (0, 0, 0))
          (r.rBeats ++ (List.range burst.beats).map (readBeat cfg memory burst)).tail = _
        rw [hbeats, hn, List.range_succ_eq_map]
        rfl

/-- At an edge the beat on the lines goes to the bus, if READY is as it was sampled. -/
theorem Sound.retire (h : Sound cfg recorded started sent r) (hneeds : r.rNeedsPresent = false) :
    Sound cfg recorded started (if r.rvalid && r.rReadySampled then sent ++ [r.rLines] else sent) r.retire := by
  rw [h.valid]
  unfold ReadSide.retire
  split
  · next hc =>
    simp only [Bool.and_eq_true] at hc
    obtain ⟨beat, rest, hbeats, hlines⟩ := h.lines hc.1 hneeds
    refine ⟨h.requests, h.logged, h.positive, ?_, fun ha => absurd (hc.1.symm.trans ha) (by decide), h.valid,
      fun _ hno => (nomatch hno)⟩
    change sent ++ [r.rLines] ++ marked r.rBeats.tail = _
    rw [← h.answers, hbeats, hlines, List.append_assoc]
    rfl
  · exact h

end ReadSide

/-! ## Writes -/

namespace WriteSide

/-- The ids of the completed write bursts, in order: all that are logged but the one in flight. -/
def completedIds (w : WriteSide) : List Nat :=
  if w.awPending.isSome then (w.writeBurstLog.map fun entry => entry.2.2).dropLast
  else w.writeBurstLog.map fun entry => entry.2.2

theorem completedIds_none {w : WriteSide} (h : w.awPending = none) :
    w.completedIds = w.writeBurstLog.map fun entry => entry.2.2 := by
  unfold completedIds
  rw [h]
  rfl

theorem completedIds_some {w : WriteSide} {flight : InFlight} {before : List (Nat × Nat × Nat)}
    {entry : Nat × Nat × Nat} (h : w.awPending = some flight) (hlog : w.writeBurstLog = before ++ [entry]) :
    w.completedIds = before.map fun entry => entry.2.2 := by
  unfold completedIds
  rw [h, hlog]
  simp

/-- The response on the lines, and those that wait behind it. -/
def outstanding (w : WriteSide) : List (Nat × Nat) :=
  (if w.bActive then [w.bLines] else []) ++ w.bWaiting.toList ++ w.pendingB

/-- What `waitB` does: nothing, or the next response goes to the slot. -/
theorem waitB_cases (rnd : Random ρ) (cfg : Options) (cycle : Nat) (rng : ρ) (w : WriteSide) :
    (w.waitB cfg cycle rnd rng).1 = w ∨ ∃ next rest target, w.pendingB = next :: rest ∧ w.bWaiting = none ∧
      (w.waitB cfg cycle rnd rng).1 = { w with
        bWaiting := some next, pendingB := rest, wrPrimed := true, bWaitTargetCycle := target } := by
  unfold waitB
  split
  · exact Or.inl rfl
  · next next rest hpending =>
    split
    · next hc =>
      simp only [Bool.and_eq_true, Option.isNone_iff_eq_none] at hc
      exact Or.inr ⟨next, rest, _, hpending, hc.2, rfl⟩
    · exact Or.inl rfl

/-- What `driveB` does: at most a draw, or the response in the slot goes to the lines. -/
theorem driveB_cases (cycle : Nat) (paused : Bool) (w : WriteSide) :
    (∃ draw, w.driveB cycle paused = { w with pauseDraw := draw }) ∨
      ∃ response draw, w.bWaiting = some response ∧ w.bActive = false ∧ w.driveB cycle paused = { w with
        pauseDraw := draw, bWaiting := none, bLines := response, bvalid := true, bActive := true } := by
  unfold driveB
  split
  · exact Or.inl ⟨w.pauseDraw, rfl⟩
  · next response hwaiting =>
    split
    · next hc =>
      simp only [Bool.and_eq_true, Bool.not_eq_true'] at hc
      dsimp only
      split
      · exact Or.inl ⟨_, rfl⟩
      · exact Or.inr ⟨response, _, hwaiting, hc.1, rfl⟩
    · exact Or.inl ⟨w.pauseDraw, rfl⟩

theorem outstanding_waitB (rnd : Random ρ) (cfg : Options) (cycle : Nat) (rng : ρ) (w : WriteSide) :
    (w.waitB cfg cycle rnd rng).1.outstanding = w.outstanding := by
  rcases waitB_cases rnd cfg cycle rng w with heq | ⟨next, rest, target, hpending, hnone, heq⟩
  · rw [heq]
  · rw [heq]
    unfold outstanding
    rw [hpending, hnone]
    simp

theorem outstanding_driveB (cycle : Nat) (paused : Bool) (w : WriteSide) :
    (w.driveB cycle paused).outstanding = w.outstanding := by
  rcases driveB_cases cycle paused w with ⟨draw, heq⟩ | ⟨response, draw, hsome, hidle, heq⟩
  · rw [heq]
    rfl
  · rw [heq]
    unfold outstanding
    rw [hsome, hidle]
    simp

/-- Between callbacks, with the responses `sent` so far. -/
structure Sound (sent : List (Nat × Nat)) (w : WriteSide) : Prop where
  answers : (sent ++ w.outstanding).map Prod.snd = w.completedIds
  current : ∀ flight, w.awPending = some flight →
    ∃ before addr beats, w.writeBurstLog = before ++ [(addr, beats, flight.burst.id)]
  valid : w.bvalid = w.bActive

variable {sent : List (Nat × Nat)} {w : WriteSide}

theorem Sound.sampleReady (h : Sound sent w) (o : Observed) : Sound sent (w.sampleReady o) :=
  ⟨h.answers, h.current, h.valid⟩

theorem Sound.clearSeen (h : Sound sent w) (prevClk : Nat) : Sound sent (w.clearSeen prevClk) := by
  unfold WriteSide.clearSeen
  split
  · exact ⟨h.answers, h.current, h.valid⟩
  · exact h

theorem Sound.acceptAw (h : Sound sent w) (o : Observed) : Sound sent (w.acceptAw cfg o) := by
  unfold WriteSide.acceptAw
  split
  · next hc =>
    simp only [Bool.and_eq_true, Option.isNone_iff_eq_none] at hc
    split
    · exact h
    · split
      · exact ⟨h.answers, h.current, h.valid⟩
      · next addr _ =>
        refine ⟨?_, fun flight hf => ?_, h.valid⟩
        · exact (h.answers.trans (completedIds_none hc.1)).trans (completedIds_some rfl rfl).symm
        · obtain rfl := Option.some.inj hf
          exact ⟨_, _, _, rfl⟩
  · split
    · exact h
    · exact ⟨h.answers, h.current, h.valid⟩

theorem Sound.takeBeat (h : Sound sent w) (cycle data strb : Nat) {flight : InFlight}
    (hflight : w.awPending = some flight) : Sound sent (w.takeBeat cfg cycle data strb flight) := by
  obtain ⟨before, addr, beats, hlog⟩ := h.current flight hflight
  have hdone := h.answers.trans (completedIds_some hflight hlog)
  unfold WriteSide.takeBeat
  dsimp only
  split
  · refine ⟨?_, fun flight hf => (nomatch hf), h.valid⟩
    rw [completedIds_none rfl]
    have hout : (sent ++ (w.outstanding ++ [(w.nextWriteResp.getD cfg.defaultWriteResp, flight.burst.id)])).map
        Prod.snd = w.writeBurstLog.map fun entry => entry.2.2 := by
      rw [← List.append_assoc, List.map_append, hdone, hlog]
      simp
    refine Eq.trans ?_ hout
    unfold completeBurst outstanding
    simp
  · refine ⟨?_, fun flight' hf => ?_, h.valid⟩
    · refine hdone.trans (Eq.symm ?_)
      exact completedIds_some rfl hlog
    · obtain rfl := Option.some.inj hf
      exact ⟨before, addr, beats, hlog⟩

theorem Sound.acceptW (h : Sound sent w) {cycle : Nat} {o : Observed} {memory memory' : Nat → Option Nat}
    {w' : WriteSide} (haccept : w.acceptW cfg cycle o memory = .ok (memory', w')) : Sound sent w' := by
  unfold WriteSide.acceptW at haccept
  split at haccept
  · next flight hflight =>
    split at haccept
    · split at haccept
      · obtain rfl := congrArg Prod.snd (Except.ok.inj haccept)
        exact h
      · split at haccept
        · obtain rfl := congrArg Prod.snd (Except.ok.inj haccept)
          exact ⟨h.answers, h.current, h.valid⟩
        · obtain ⟨-, -, haccept⟩ := ok_of_bind haccept
          obtain ⟨-, -, haccept⟩ := ok_of_bind haccept
          obtain rfl := congrArg Prod.snd (Except.ok.inj haccept)
          exact h.takeBeat cycle _ _ hflight
    · obtain rfl := congrArg Prod.snd (Except.ok.inj haccept)
      exact ⟨h.answers, h.current, h.valid⟩
  · split at haccept
    · obtain rfl := congrArg Prod.snd (Except.ok.inj haccept)
      exact h
    · obtain rfl := congrArg Prod.snd (Except.ok.inj haccept)
      exact ⟨h.answers, h.current, h.valid⟩

theorem Sound.waitB (h : Sound sent w) (cycle : Nat) (rng : ρ) : Sound sent (w.waitB cfg cycle rnd rng).1 := by
  have hout := outstanding_waitB rnd cfg cycle rng w
  rcases waitB_cases rnd cfg cycle rng w with heq | ⟨next, rest, target, -, -, heq⟩
  · rw [heq]
    exact h
  · rw [heq] at hout ⊢
    refine ⟨?_, h.current, h.valid⟩
    rw [hout]
    exact h.answers

theorem Sound.driveB (h : Sound sent w) (cycle : Nat) (paused : Bool) : Sound sent (w.driveB cycle paused) := by
  have hout := outstanding_driveB cycle paused w
  rcases driveB_cases cycle paused w with ⟨draw, heq⟩ | ⟨response, draw, -, -, heq⟩
  · rw [heq]
    exact ⟨h.answers, h.current, h.valid⟩
  · rw [heq] at hout ⊢
    refine ⟨?_, h.current, rfl⟩
    rw [hout]
    exact h.answers

/-- At an edge the response on the lines goes to the bus, if READY is as it was sampled. -/
theorem Sound.retire (h : Sound sent w) :
    Sound (if w.bvalid && w.bReadySampled then sent ++ [w.bLines] else sent) w.retire := by
  rw [h.valid]
  unfold WriteSide.retire
  split
  · next hc =>
    simp only [Bool.and_eq_true] at hc
    have hout : w.outstanding = w.bLines :: ({ w with bvalid := false, bActive := false } : WriteSide).outstanding := by
      unfold outstanding
      rw [hc.1]
      simp
    refine ⟨?_, h.current, rfl⟩
    rw [List.append_assoc, List.singleton_append, ← hout]
    exact h.answers
  · exact h

end WriteSide

/-! ## The bus -/

/-- What a monitor knows: the last low-phase callback since the last rising edge, whether the beat on the
R lines was transferred at that edge, the transfers so far; and the read bursts recorded and started, these
with the memory that they find. -/
structure Answers where
  last : Option Observed
  taken : Bool
  rs : List RLines
  bs : List (Nat × Nat)
  recorded : List Burst
  started : List (Burst × (Nat → Option Nat))

namespace Answers

def start : Answers := ⟨none, false, [], [], [], []⟩

/-- The burst that a low-phase callback starts, with the memory. -/
def startedAt (rnd : Random ρ) (cfg : Options) (s : Responder ρ) (o : Observed) (p : Pauses) :
    Option (Burst × (Nat → Option Nat)) :=
  match s.acceptAll cfg o with
  | .error _ => none
  | .ok s₁ =>
      ((s₁.wait rnd cfg).r.starting (s₁.wait rnd cfg).cycleCount p.r).map fun burst =>
        (burst, (s₁.wait rnd cfg).memory)

def watch (rnd : Random ρ) (cfg : Options) (s : Responder ρ) (m : Answers) : Event → Answers
  | .low o p =>
      { m with
        last := some o
        taken := false
        recorded := m.recorded ++ ((((s.r.sampleReady o).presentNext).clearSeen s.prevClk).acceptedAr cfg o).toList
        started := m.started ++ (startedAt rnd cfg s o p).toList }
  | .rise e _ _ =>
      { m with
        last := none
        taken := s.r.rvalid && isHigh e.rready
        rs := if s.r.rvalid && isHigh e.rready then m.rs ++ [s.r.rLines] else m.rs
        bs := if s.w.bvalid && isHigh e.bready then m.bs ++ [s.w.bLines] else m.bs }
  | _ => m

/-- BREADY and RREADY are stable between the last low-phase callback and the rising edge. -/
def Steady (_ : Responder ρ) (m : Answers) : Event → Prop
  | .rise e _ _ => ∃ l, m.last = some l ∧ isHigh e.bready = isHigh l.bready ∧ isHigh e.rready = isHigh l.rready
  | _ => True

end Answers

/-- A response stays on its lines until the edge at which READY is high. -/
structure Holds (s : Responder ρ) (m : Answers) (ev : Event) (s' : Responder ρ) : Prop where
  b : s.w.bvalid = true → (s'.w.bvalid = true ∧ s'.w.bLines = s.w.bLines) ∨
    ∃ e after p, ev = .rise e after p ∧ isHigh e.bready = true
  r : s.r.rvalid = true → m.taken = false → s'.r.rvalid = true ∧ s'.r.rLines = s.r.rLines

/-- The bursts that are recorded have started, in order, or wait to; the beats that are transferred are
theirs, in order, up to those that are left; and each completed write burst has one response. -/
structure Answering (cfg : Options) (s : Responder ρ) (m : Answers) : Prop where
  recorded : s.r.readBurstLog = m.recorded.map Burst.entry
  started : m.started.map Prod.fst ++ s.r.rWaiting.toList ++ s.r.arPending = m.recorded
  reads : m.rs ++ marked s.r.rBeats = m.started.flatMap (burstLines cfg)
  writes : (m.bs ++ s.w.outstanding).map Prod.snd = s.w.completedIds

/-- What holds between any two events. -/
structure Invariant (cfg : Options) (s : Responder ρ) (m : Answers) : Prop where
  w : s.w.Sound m.bs
  r : s.r.Sound cfg m.recorded m.started m.rs
  taken : m.taken = s.r.rNeedsPresent
  sampled : ∀ l, m.last = some l → s.w.bReadySampled = isHigh l.bready ∧ s.r.rReadySampled = isHigh l.rready ∧
    s.r.rNeedsPresent = false

/-! ## What a callback leaves alone -/

namespace WriteSide

/-- The B lines and what goes with them. -/
structure SameB (w w' : WriteSide) : Prop where
  valid : w'.bvalid = w.bvalid
  lines : w'.bLines = w.bLines
  active : w'.bActive = w.bActive
  sampled : w'.bReadySampled = w.bReadySampled

theorem SameB.trans {w w' w'' : WriteSide} (h : SameB w w') (h' : SameB w' w'') : SameB w w'' :=
  ⟨h'.valid.trans h.valid, h'.lines.trans h.lines, h'.active.trans h.active, h'.sampled.trans h.sampled⟩

theorem sameB_clearSeen (prevClk : Nat) (w : WriteSide) : SameB w (w.clearSeen prevClk) := by
  unfold clearSeen
  split <;> exact ⟨rfl, rfl, rfl, rfl⟩

theorem sameB_acceptAw (cfg : Options) (o : Observed) (w : WriteSide) : SameB w (w.acceptAw cfg o) := by
  unfold acceptAw
  split
  · split
    · exact ⟨rfl, rfl, rfl, rfl⟩
    · split <;> exact ⟨rfl, rfl, rfl, rfl⟩
  · split <;> exact ⟨rfl, rfl, rfl, rfl⟩

theorem sameB_takeBeat (cycle data strb : Nat) (flight : InFlight) (w : WriteSide) :
    SameB w (w.takeBeat cfg cycle data strb flight) := by
  unfold takeBeat completeBurst
  dsimp only
  split <;> exact ⟨rfl, rfl, rfl, rfl⟩

theorem sameB_acceptW {cycle : Nat} {o : Observed} {memory memory' : Nat → Option Nat} {w w' : WriteSide}
    (haccept : w.acceptW cfg cycle o memory = .ok (memory', w')) : SameB w w' := by
  unfold acceptW at haccept
  split at haccept
  · split at haccept
    · split at haccept
      · obtain rfl := congrArg Prod.snd (Except.ok.inj haccept)
        exact ⟨rfl, rfl, rfl, rfl⟩
      · split at haccept
        · obtain rfl := congrArg Prod.snd (Except.ok.inj haccept)
          exact ⟨rfl, rfl, rfl, rfl⟩
        · obtain ⟨-, -, haccept⟩ := ok_of_bind haccept
          obtain ⟨-, -, haccept⟩ := ok_of_bind haccept
          obtain rfl := congrArg Prod.snd (Except.ok.inj haccept)
          exact sameB_takeBeat _ _ _ _ _
    · obtain rfl := congrArg Prod.snd (Except.ok.inj haccept)
      exact ⟨rfl, rfl, rfl, rfl⟩
  · split at haccept
    · obtain rfl := congrArg Prod.snd (Except.ok.inj haccept)
      exact ⟨rfl, rfl, rfl, rfl⟩
    · obtain rfl := congrArg Prod.snd (Except.ok.inj haccept)
      exact ⟨rfl, rfl, rfl, rfl⟩

theorem sameB_waitB (rnd : Random ρ) (cfg : Options) (cycle : Nat) (rng : ρ) (w : WriteSide) : SameB w (w.waitB cfg cycle rnd rng).1 := by
  rcases waitB_cases rnd cfg cycle rng w with heq | ⟨next, rest, target, -, -, heq⟩ <;> rw [heq] <;> exact ⟨rfl, rfl, rfl, rfl⟩

theorem driveB_sampled (cycle : Nat) (paused : Bool) (w : WriteSide) :
    (w.driveB cycle paused).bReadySampled = w.bReadySampled := by
  rcases driveB_cases cycle paused w with ⟨draw, heq⟩ | ⟨response, draw, -, -, heq⟩ <;> rw [heq]

/-- A response on the lines stays. -/
theorem driveB_active {cycle : Nat} {paused : Bool} {w : WriteSide} (h : w.bActive = true) :
    w.driveB cycle paused = w := by
  unfold driveB
  rw [h]
  split <;> rfl

end WriteSide

namespace ReadSide

/-- The R lines and what goes with them. -/
structure SameR (r r' : ReadSide) : Prop where
  valid : r'.rvalid = r.rvalid
  lines : r'.rLines = r.rLines
  active : r'.rActive = r.rActive
  needs : r'.rNeedsPresent = r.rNeedsPresent
  sampled : r'.rReadySampled = r.rReadySampled

theorem SameR.trans {r r' r'' : ReadSide} (h : SameR r r') (h' : SameR r' r'') : SameR r r'' :=
  ⟨h'.valid.trans h.valid, h'.lines.trans h.lines, h'.active.trans h.active, h'.needs.trans h.needs,
    h'.sampled.trans h.sampled⟩

theorem sameR_clearSeen (prevClk : Nat) (r : ReadSide) : SameR r (r.clearSeen prevClk) := by
  unfold clearSeen
  split <;> exact ⟨rfl, rfl, rfl, rfl, rfl⟩

theorem sameR_acceptAr (cfg : Options) (cycle : Nat) (o : Observed) (r : ReadSide) : SameR r (r.acceptAr cfg cycle o) := by
  unfold acceptAr
  split
  · split
    · exact ⟨rfl, rfl, rfl, rfl, rfl⟩
    · split <;> exact ⟨rfl, rfl, rfl, rfl, rfl⟩
  · exact ⟨rfl, rfl, rfl, rfl, rfl⟩

theorem sameR_waitR (rnd : Random ρ) (cfg : Options) (cycle : Nat) (rng : ρ) (r : ReadSide) : SameR r (r.waitR cfg cycle rnd rng).1 := by
  unfold waitR
  split
  · exact ⟨rfl, rfl, rfl, rfl, rfl⟩
  · split <;> exact ⟨rfl, rfl, rfl, rfl, rfl⟩

theorem presentNext_sampled (r : ReadSide) : r.presentNext.rReadySampled = r.rReadySampled := by
  unfold presentNext
  split
  · split <;> rfl
  · rfl

theorem presentNext_of_not_needs {r : ReadSide} (h : r.rNeedsPresent = false) : r.presentNext = r := by
  unfold presentNext
  rw [h]
  rfl

theorem driveR_needs {cycle : Nat} {memory : Nat → Option Nat} {paused : Bool} {r r' : ReadSide}
    (h : r.driveR cfg cycle memory paused = .ok r') :
    r'.rNeedsPresent = r.rNeedsPresent ∧ r'.rReadySampled = r.rReadySampled := by
  unfold driveR at h
  dsimp only at h
  split at h
  · rw [← Except.ok.inj h]
    exact ⟨rfl, rfl⟩
  · obtain ⟨-, -, h⟩ := ok_of_bind h
    rw [← Except.ok.inj h]
    exact ⟨rfl, rfl⟩

/-- A beat on the lines stays. -/
theorem driveR_active {cycle : Nat} {memory : Nat → Option Nat} {paused : Bool} {r r' : ReadSide}
    (hactive : r.rActive = true) (h : r.driveR cfg cycle memory paused = .ok r') :
    r'.rvalid = r.rvalid ∧ r'.rLines = r.rLines := by
  have hnone : r.starting cycle paused = none := by
    unfold starting
    rw [hactive]
    rfl
  unfold driveR at h
  rw [hnone] at h
  rw [← Except.ok.inj h]
  exact ⟨rfl, rfl⟩

end ReadSide

namespace Invariant

variable {s s' : Responder ρ} {m : Answers}

theorem start (memory : Nat → Option Nat) (rng : ρ) (clk aw w ar : Option Nat) :
    Invariant cfg (Responder.initial cfg memory rng clk aw w ar) .start where
  w := ⟨rfl, fun _ h => (nomatch h), rfl⟩
  r := ⟨rfl, rfl, fun _ h => absurd h List.not_mem_nil, rfl, fun _ => ⟨rfl, rfl⟩, rfl, fun h => (nomatch h)⟩
  taken := rfl
  sampled := fun _ h => nomatch h

/-- What a low-phase callback does to either side. -/
theorem sides_of_low {o : Observed} {p : Pauses} (hact : act rnd cfg s (.low o p) = .ok s') :
    ∃ memory' w₁ r₁ cycle rng rng' memory,
      (((s.w.sampleReady o).clearSeen s.prevClk).acceptAw cfg o).acceptW cfg s.cycleCount o s.memory = .ok (memory', w₁) ∧
      s'.w = ((w₁.waitB cfg cycle rnd rng).1).driveB cycle p.b ∧
      r₁ = (((s.r.sampleReady o).presentNext).clearSeen s.prevClk).acceptAr cfg s.cycleCount o ∧
      ((r₁.waitR cfg cycle rnd rng').1).driveR cfg cycle memory p.r = .ok s'.r ∧
      Answers.startedAt rnd cfg s o p =
        (((r₁.waitR cfg cycle rnd rng').1).starting cycle p.r).map fun burst => (burst, memory) := by
  obtain ⟨s₁, r, haccept, hdrive, rfl⟩ := act_low hact
  obtain ⟨memory', w₁, hw, rfl⟩ := acceptAll_ok haccept
  refine ⟨memory', w₁, _, _, _, _, _, hw, rfl, rfl, hdrive, ?_⟩
  unfold Answers.startedAt
  rw [haccept]
  rfl

theorem low (h : Invariant cfg s m) {o : Observed} {p : Pauses} (hact : act rnd cfg s (.low o p) = .ok s') :
    Invariant cfg s' (m.watch rnd cfg s (.low o p)) := by
  obtain ⟨memory', w₁, r₁, cycle, rng, rng', memory, hw, hw', hr, hdrive, hstarted⟩ := sides_of_low hact
  have hneeds : s'.r.rNeedsPresent = false ∧ s'.r.rReadySampled = isHigh o.rready := by
    obtain ⟨hn, hs⟩ := ReadSide.driveR_needs hdrive
    have hsame := ((ReadSide.sameR_clearSeen s.prevClk (s.r.sampleReady o).presentNext).trans
      (ReadSide.sameR_acceptAr cfg s.cycleCount o _)).trans
      (ReadSide.sameR_waitR rnd cfg cycle rng' _)
    rw [hr] at hn hs
    refine ⟨hn.trans (hsame.needs.trans (ReadSide.presentNext_needs _)), hs.trans (hsame.sampled.trans ?_)⟩
    rw [ReadSide.presentNext_sampled]
    rfl
  have hbsampled : s'.w.bReadySampled = isHigh o.bready := by
    rw [hw', WriteSide.driveB_sampled]
    exact ((((WriteSide.sameB_clearSeen s.prevClk (s.w.sampleReady o)).trans
      (WriteSide.sameB_acceptAw cfg o _)).trans (WriteSide.sameB_acceptW hw)).trans
      (WriteSide.sameB_waitB rnd cfg cycle rng _)).sampled
  constructor
  case w =>
    rw [hw']
    exact ((((h.w.sampleReady o).clearSeen s.prevClk).acceptAw o).acceptW hw |>.waitB cycle rng).driveB cycle p.b
  case r =>
    change ReadSide.Sound cfg _ (m.started ++ (Answers.startedAt rnd cfg s o p).toList) m.rs s'.r
    rw [hstarted]
    rw [hr] at hdrive ⊢
    exact (((((h.r.sampleReady o).presentNext).clearSeen s.prevClk).acceptAr s.cycleCount o).waitR cycle rng').driveR
      hdrive
  case taken => exact hneeds.1.symm
  case sampled =>
    intro l hl
    obtain rfl := Option.some.inj hl
    exact ⟨hbsampled, hneeds.2, hneeds.1⟩

theorem risingEdge_w (cfg : Options) (p : Pauses) (s : Responder ρ) : ∃ aw w,
    (s.risingEdge cfg p).w = ({ s.w with awready := aw, wready := w } : WriteSide).retire := by
  unfold Responder.risingEdge
  cases cfg.alwaysReady
  · exact ⟨s.w.awready, s.w.wready, rfl⟩
  · exact ⟨_, _, rfl⟩

theorem risingEdge_r (cfg : Options) (p : Pauses) (s : Responder ρ) : ∃ ar,
    (s.risingEdge cfg p).r = ({ s.r with arready := ar } : ReadSide).retire := by
  unfold Responder.risingEdge
  cases cfg.alwaysReady
  · exact ⟨s.r.arready, rfl⟩
  · exact ⟨_, rfl⟩

theorem rise (h : Invariant cfg s m) {e after : Observed} {p : Pauses} (hclk : Clocked s (.rise e after p))
    (hsteady : Answers.Steady s m (.rise e after p)) (hact : act rnd cfg s (.rise e after p) = .ok s') :
    Invariant cfg s' (m.watch rnd cfg s (.rise e after p)) := by
  obtain rfl := act_rise hclk hact
  obtain ⟨l, hl, hb, hr⟩ := hsteady
  obtain ⟨hbs, hrs, hneeds⟩ := h.sampled l hl
  obtain ⟨aw, w, hw'⟩ := risingEdge_w cfg p s
  obtain ⟨ar, hr'⟩ := risingEdge_r cfg p s
  have hw : WriteSide.Sound m.bs { s.w with awready := aw, wready := w } := ⟨h.w.answers, h.w.current, h.w.valid⟩
  have hrsound : ReadSide.Sound cfg m.recorded m.started m.rs { s.r with arready := ar } :=
    ⟨h.r.requests, h.r.logged, h.r.positive, h.r.answers, h.r.idle, h.r.valid, h.r.lines⟩
  constructor
  case w =>
    change WriteSide.Sound (if s.w.bvalid && isHigh e.bready then _ else _) (s.risingEdge cfg p).w
    rw [hw', hb, ← hbs]
    exact hw.retire
  case r =>
    change ReadSide.Sound cfg _ _ (if s.r.rvalid && isHigh e.rready then _ else _) (s.risingEdge cfg p).r
    rw [hr', hr, ← hrs]
    exact hrsound.retire hneeds
  case taken =>
    change (s.r.rvalid && isHigh e.rready) = (s.risingEdge cfg p).r.rNeedsPresent
    rw [hr', hr, ← hrs, h.r.valid]
    unfold ReadSide.retire
    dsimp only
    split
    · next hc => exact hc
    · next hc => exact (Bool.not_eq_true _ ▸ hc).trans hneeds.symm
  case sampled => exact fun l hl => nomatch hl

/-- Every event. -/
theorem step (h : Invariant cfg s m) {ev : Event} (hclk : Clocked s ev) (hsteady : Answers.Steady s m ev)
    (hact : act rnd cfg s ev = .ok s') : Invariant cfg s' (m.watch rnd cfg s ev) := by
  cases ev with
  | low o p => exact h.low hact
  | rise e after p => exact h.rise hclk hsteady hact
  | high o p =>
    obtain rfl := act_high hclk hact
    exact ⟨h.w, h.r, h.taken, h.sampled⟩
  | unknown o p =>
    obtain rfl := Except.ok.inj hact
    exact h
  | queueWriteResponse resp =>
    obtain rfl := Except.ok.inj hact
    exact ⟨⟨h.w.answers, h.w.current, h.w.valid⟩, h.r, h.taken, h.sampled⟩

theorem holds (h : Invariant cfg s m) {ev : Event} (hclk : Clocked s ev) (hsteady : Answers.Steady s m ev)
    (hact : act rnd cfg s ev = .ok s') : Holds s m ev s' := by
  cases ev with
  | low o p =>
    obtain ⟨memory', w₁, r₁, cycle, rng, rng', memory, hw, hw', hr, hdrive, -⟩ := sides_of_low hact
    constructor
    case b =>
      intro hv
      have hsame := (((WriteSide.sameB_clearSeen s.prevClk (s.w.sampleReady o)).trans
        (WriteSide.sameB_acceptAw cfg o _)).trans (WriteSide.sameB_acceptW hw)).trans
        (WriteSide.sameB_waitB rnd cfg cycle rng _)
      have hactive : ((w₁.waitB cfg cycle rnd rng).1).bActive = true :=
        hsame.active.trans (h.w.valid.symm.trans hv)
      rw [WriteSide.driveB_active hactive] at hw'
      rw [hw']
      exact Or.inl ⟨hsame.valid.trans hv, hsame.lines⟩
    case r =>
      intro hv htaken
      have hsame := ((ReadSide.sameR_clearSeen s.prevClk (s.r.sampleReady o)).trans
        (ReadSide.sameR_acceptAr cfg s.cycleCount o _)).trans
        (ReadSide.sameR_waitR rnd cfg cycle rng' _)
      have hpresent : (s.r.sampleReady o).presentNext = s.r.sampleReady o :=
        ReadSide.presentNext_of_not_needs (h.taken.symm.trans htaken)
      rw [hpresent] at hr
      rw [← hr] at hsame
      obtain ⟨hvalid, hlines⟩ := ReadSide.driveR_active (hsame.active.trans (h.r.valid.symm.trans hv)) hdrive
      exact ⟨hvalid.trans (hsame.valid.trans hv), hlines.trans hsame.lines⟩
  | rise e after p =>
    obtain rfl := act_rise hclk hact
    obtain ⟨l, hl, hb, -⟩ := hsteady
    obtain ⟨hbs, -, -⟩ := h.sampled l hl
    obtain ⟨aw, w, hw'⟩ := risingEdge_w cfg p s
    obtain ⟨ar, hr'⟩ := risingEdge_r cfg p s
    constructor
    case b =>
      intro hv
      by_cases hready : isHigh e.bready = true
      · exact Or.inr ⟨e, after, p, rfl, hready⟩
      · have hno : s.w.bReadySampled = false := hbs.trans (hb.symm.trans (Bool.not_eq_true _ ▸ hready))
        refine Or.inl ?_
        change (s.risingEdge cfg p).w.bvalid = true ∧ (s.risingEdge cfg p).w.bLines = s.w.bLines
        rw [hw']
        unfold WriteSide.retire
        dsimp only
        rw [hno, Bool.and_false]
        exact ⟨hv, rfl⟩
    case r =>
      intro hv _
      change (s.risingEdge cfg p).r.rvalid = true ∧ (s.risingEdge cfg p).r.rLines = s.r.rLines
      rw [hr']
      unfold ReadSide.retire
      dsimp only
      split <;> exact ⟨hv, rfl⟩
  | high o p =>
    obtain rfl := act_high hclk hact
    exact ⟨fun hv => Or.inl ⟨hv, rfl⟩, fun hv _ => ⟨hv, rfl⟩⟩
  | unknown o p =>
    obtain rfl := Except.ok.inj hact
    exact ⟨fun hv => Or.inl ⟨hv, rfl⟩, fun hv _ => ⟨hv, rfl⟩⟩
  | queueWriteResponse resp =>
    obtain rfl := Except.ok.inj hact
    exact ⟨fun hv => Or.inl ⟨hv, rfl⟩, fun hv _ => ⟨hv, rfl⟩⟩

end Invariant

/-- In every run with READY stable up to the edge the responder answers what is recorded, exactly once
and in order, and holds each answer until it is transferred. -/
theorem answering_of_run (rnd : Random ρ) (cfg : Options) (memory : Nat → Option Nat) (rng : ρ)
    (clk aw w ar : Option Nat) (s : Responder ρ) (m : Answers)
    (hrun : Run rnd cfg (fun s m ev => m.watch rnd cfg s ev) Answers.Steady
      (Responder.initial cfg memory rng clk aw w ar) .start s m) :
    Answering cfg s m ∧ ∀ (ev : Event) (s' : Responder ρ), Clocked s ev → Answers.Steady s m ev →
      act rnd cfg s ev = .ok s' → Holds s m ev s' := by
  have h : Invariant cfg s m := by
    induction hrun with
    | start => exact Invariant.start memory rng clk aw w ar
    | step _ _ hclk hsteady hact ih => exact ih.step hclk hsteady hact
  exact ⟨⟨h.r.logged, h.r.requests, h.r.answers, h.w.answers⟩, fun ev s' hclk hsteady hact => h.holds hclk hsteady hact⟩

/-! ## A read -/

/-- A generator that draws the least and never stalls. -/
def leastRandom : Random Unit := ⟨fun u low _ => (low, u), fun u _ => (false, u)⟩

/-- An always-ready responder of a 32-bit bus, without latency. -/
def wordOptions : Options where
  dataBytes := 4
  memoryDepth := none
  defaultReadValue := 0
  defaultWriteResp := 0
  defaultReadResp := 0
  alwaysReady := true
  storeWrites := true
  strict := false
  hasWlast := true
  rdLatencyCycles := 1
  wrLatencyCycles := 1
  maxBwPercent := 100
  wrMaxBwPercent := 100

/-- Nothing is paused. -/
def unpaused : Pauses := ⟨false, false, false, false, false, false⟩

/-- The master offers nothing, and is ready. -/
def quiet : Observed where
  awvalid := some 0
  awaddr := some 0
  awlen := some 0
  awsize := some 2
  awid := some 0
  wvalid := some 0
  wdata := some 0
  wstrb := some 15
  wlast := some 0
  bready := some 1
  arvalid := some 0
  araddr := some 0
  arlen := some 0
  arsize := some 2
  arid := some 0
  rready := some 1

/-- A read of two words from 8, with ID 3. -/
def readTwo : Observed := { quiet with arvalid := some 1, araddr := some 8, arlen := some 1, arid := some 3 }

theorem answering_of_run_read : ∃ s m, Run leastRandom wordOptions (fun s m ev => m.watch leastRandom wordOptions s ev)
      Answers.Steady (Responder.initial wordOptions (fun a => if a = 8 then some 5 else none) () (some 0) none none none)
      .start s m ∧
    m.rs = [⟨5, 0, 3, false⟩] ∧ Answering wordOptions s m := by
  have h0 : Run leastRandom wordOptions (fun s m ev => m.watch leastRandom wordOptions s ev) Answers.Steady
      (Responder.initial wordOptions (fun a => if a = 8 then some 5 else none) () (some 0) none none none) .start _ _ :=
    .start
  have h1 := h0.step (.low readTwo unpaused) trivial trivial rfl
  have h2 := h1.step (.rise readTwo quiet unpaused) rfl ⟨readTwo, rfl, rfl, rfl⟩ rfl
  exact ⟨_, _, h2, rfl, (answering_of_run leastRandom wordOptions _ _ _ _ _ _ _ _ h2).1⟩

end Veriforge.Axi4

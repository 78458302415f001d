import Veriforge.Axi4.Cycle

/-! # The phases of a call

What the responder has in hand while a master makes one call at a time: at most one write burst with the
beats that have come, the responses and the lines that are left, and the read bursts that have not started.
A period of the clock takes one such phase to the next. -/

namespace Veriforge.Axi4

open AxiLite (isHigh)

variable {ρ : Type} {rnd : Random ρ} {cfg : Options}

/-! ## The write side -/

/-- The burst in flight with the number of its beats that have come, and the responses that are left. -/
structure Writing (flight : Option (Burst × Nat)) (out : List (Nat × Nat)) (w : WriteSide) : Prop where
  pending : w.awPending = flight.map fun f => ⟨f.1, f.1.beatAddr f.2⟩
  done : ∀ f, flight = some f → w.wBeatsDone = f.2
  responses : w.outstanding = out
  resp : w.nextWriteResp = none
  valid : w.bvalid = w.bActive
  ready : isHigh w.wready = true → isHigh w.awready = true

/-- The burst in flight and the response, with the address taken or not and so many beats. -/
def progress (cfg : Options) (burst : Burst) (awDone : Bool) (done : Nat) : Option (Burst × Nat) × List (Nat × Nat) :=
  if awDone then
    if burst.beats ≤ done then (none, [(cfg.defaultWriteResp, burst.id)]) else (some (burst, done), [])
  else (none, [])

namespace Writing

variable {flight : Option (Burst × Nat)} {out : List (Nat × Nat)} {w : WriteSide} {o : Observed}

theorem sampleReady (h : Writing flight out w) (o : Observed) : Writing flight out (w.sampleReady o) :=
  ⟨h.pending, h.done, h.responses, h.resp, h.valid, h.ready⟩

theorem clearSeen (h : Writing flight out w) (prevClk : Nat) : Writing flight out (w.clearSeen prevClk) := by
  unfold WriteSide.clearSeen
  split
  · exact ⟨h.pending, h.done, h.responses, h.resp, h.valid, h.ready⟩
  · exact h

theorem acceptAw_idle (h : Writing flight out w) (hfire : w.awFire o = false) :
    Writing flight out (w.acceptAw cfg o) := by
  unfold WriteSide.acceptAw
  rw [hfire, Bool.and_false]
  exact ⟨h.pending, h.done, h.responses, h.resp, h.valid, h.ready⟩

theorem acceptAw_burst (h : Writing none out w) (hfire : w.awFire o = true) (hseen : w.awSeen = false) {burst : Burst}
    (haw : o.aw cfg = some burst) : Writing (some (burst, 0)) out (w.acceptAw cfg o) := by
  obtain ⟨addr, haddr, rfl⟩ := Option.map_eq_some_iff.mp haw
  unfold WriteSide.acceptAw
  rw [h.pending, hfire, hseen, haddr]
  refine ⟨?_, fun f hf => ?_, h.responses, h.resp, h.valid, h.ready⟩
  · change some (InFlight.mk _ addr) = some (InFlight.mk _ _)
    rw [Burst.beatAddr, Nat.zero_mul, Nat.add_zero]
    rfl
  · rw [← Option.some.inj hf]
    rfl

theorem acceptW_idle (h : Writing flight out w) (hfire : w.wFire o = false) (cycle : Nat) (memory : Nat → Option Nat) :
    ∃ w', w.acceptW cfg cycle o memory = .ok (memory, w') ∧ Writing flight out w' := by
  refine ⟨{ w with wSeen := false }, ?_, h.pending, h.done, h.responses, h.resp, h.valid, h.ready⟩
  unfold WriteSide.acceptW
  rw [hfire]
  split <;> rfl

theorem acceptW_beat {burst : Burst} {done : Nat} (h : Writing (some (burst, done)) [] w) (hfire : w.wFire o = true)
    (hseen : w.wSeen = false) {beat : Nat × Nat} (hw : o.w cfg = some beat)
    (hrange : checkAddrInRange cfg (burst.beatAddr done) = .ok ())
    (hlast : isHigh o.wlast = decide (burst.beats ≤ done + 1)) (cycle : Nat) (memory : Nat → Option Nat) :
    ∃ w', w.acceptW cfg cycle o memory = .ok (store cfg memory (burst.beatAddr done, beat), w') ∧
      Writing (progress cfg burst true (done + 1)).1 (progress cfg burst true (done + 1)).2 w' := by
  obtain ⟨data, hdata, rfl⟩ := Option.map_eq_some_iff.mp hw
  have hdone : w.wBeatsDone = done := h.done _ rfl
  have hcheck : checkWlast cfg o (w.wBeatsDone + 1) burst.beats = .ok () := by
    unfold checkWlast
    rw [hlast, hdone]
    by_cases hle : burst.beats ≤ done + 1
    · simp [hle, Nat.not_lt.mpr hle]
    · simp [hle]
  refine ⟨w.takeBeat cfg cycle data (strobe cfg o) ⟨burst, burst.beatAddr done⟩, ?_, ?_⟩
  · unfold WriteSide.acceptW
    rw [h.pending, hfire, hseen, hdata]
    change (do
      checkAddrInRange cfg (burst.beatAddr done)
      checkWlast cfg o (w.wBeatsDone + 1) burst.beats
      return (_, _)) = _
    rw [hrange, hcheck]
    rfl
  · unfold WriteSide.takeBeat progress
    dsimp only
    rw [hdone, if_pos rfl]
    split
    · refine ⟨rfl, fun f hf => (nomatch hf), ?_, rfl, h.valid, h.ready⟩
      have hout := h.responses
      unfold WriteSide.completeBurst
      unfold WriteSide.outstanding at hout ⊢
      dsimp only
      rw [← List.append_assoc, hout, h.resp]
      rfl
    · refine ⟨?_, fun f hf => ?_, h.responses, h.resp, h.valid, h.ready⟩
      · change some (InFlight.mk _ _) = some (InFlight.mk _ _)
        rw [Burst.beatAddr, Burst.beatAddr, Nat.succ_mul, Nat.add_assoc]
      · rw [← Option.some.inj hf]

theorem waitB (h : Writing flight out w) (cycle : Nat) (rng : ρ) :
    Writing flight out (w.waitB cfg cycle rnd rng).1 := by
  have hout := WriteSide.outstanding_waitB rnd cfg cycle rng w
  rcases WriteSide.waitB_cases rnd cfg cycle rng w with heq | ⟨next, rest, target, -, -, heq⟩
  · rw [heq]
    exact h
  · rw [heq] at hout ⊢
    exact ⟨h.pending, h.done, hout.trans h.responses, h.resp, h.valid, h.ready⟩

theorem driveB (h : Writing flight out w) (cycle : Nat) (paused : Bool) :
    Writing flight out (w.driveB cycle paused) := by
  have hout := WriteSide.outstanding_driveB cycle paused w
  rcases WriteSide.driveB_cases cycle paused w with ⟨draw, heq⟩ | ⟨response, draw, -, -, heq⟩
  · rw [heq]
    exact ⟨h.pending, h.done, h.responses, h.resp, h.valid, h.ready⟩
  · rw [heq] at hout ⊢
    exact ⟨h.pending, h.done, hout.trans h.responses, h.resp, rfl, h.ready⟩

/-- What is on the B lines. -/
theorem lines (h : Writing flight out w) :
    w.bvalid = false ∧ w.bActive = false ∨ w.bvalid = true ∧ ∃ rest, out = w.bLines :: rest := by
  rw [← h.responses, h.valid]
  unfold WriteSide.outstanding
  cases w.bActive with
  | false => exact Or.inl ⟨rfl, rfl⟩
  | true => exact Or.inr ⟨rfl, w.bWaiting.toList ++ w.pendingB, rfl⟩

/-- At an edge the response on the lines is gone, if it was taken. -/
theorem edge (h : Writing flight out w) {awready wready : Option Nat}
    (hready : isHigh wready = true → isHigh awready = true) :
    Writing flight (if w.bvalid && w.bReadySampled then out.tail else out)
      (WriteSide.retire { w with awready := awready, wready := wready }) := by
  have hcond : (w.bvalid && w.bReadySampled) = (w.bActive && w.bReadySampled) := by rw [h.valid]
  rw [hcond]
  unfold WriteSide.retire
  dsimp only
  split
  · next hc =>
    simp only [Bool.and_eq_true] at hc
    refine ⟨h.pending, h.done, ?_, h.resp, rfl, hready⟩
    rw [← h.responses]
    unfold WriteSide.outstanding
    rw [hc.1]
    rfl
  · exact ⟨h.pending, h.done, h.responses, h.resp, h.valid, hready⟩

end Writing

/-! ## The read side -/

/-- The bursts that have been asked for and not started, and the lines that are left of those that have. -/
def Reading (cfg : Options) (asked : List Burst) (left : List RLines) (r : ReadSide) : Prop :=
  ∃ started sent, r.Sound cfg (started.map Prod.fst ++ asked) started sent ∧
    started.flatMap (burstLines cfg) = sent ++ left

namespace Reading

variable {asked : List Burst} {left : List RLines} {r r' : ReadSide} {o : Observed}

/-- What is on the lines, once the beat that was retired has made room. -/
theorem lines (h : Reading cfg asked left r) (hneeds : r.rNeedsPresent = false) :
    r.rvalid = false ∧ left = [] ∨ r.rvalid = true ∧ ∃ rest, left = r.rLines :: rest := by
  obtain ⟨started, sent, hsound, hleft⟩ := h
  have hmarked : marked r.rBeats = left := List.append_cancel_left (hsound.answers.trans hleft)
  rw [hsound.valid]
  cases hactive : r.rActive with
  | false =>
    rw [(hsound.idle hactive).1] at hmarked
    exact Or.inl ⟨rfl, hmarked.symm⟩
  | true =>
    obtain ⟨beat, rest, hbeats, hlines⟩ := hsound.lines hactive hneeds
    rw [hbeats] at hmarked
    exact Or.inr ⟨rfl, marked rest, by rw [← hmarked, hlines]; rfl⟩

/-- A low phase takes the AR that it accepts, and starts at most one burst. -/
theorem low (h : Reading cfg asked left r) (prevClk cycle : Nat) (rng : ρ) (o : Observed)
    {memory : Nat → Option Nat} {paused : Bool} {accepted : Option Burst}
    (haccepted : (((r.sampleReady o).presentNext).clearSeen prevClk).acceptedAr cfg o = accepted)
    (hdrive : (((((r.sampleReady o).presentNext).clearSeen prevClk).acceptAr cfg cycle o).waitR cfg cycle rnd rng).1.driveR
      cfg cycle memory paused = .ok r') :
    ∃ (begun : Option Burst) (asked' : List Burst), asked ++ accepted.toList = begun.toList ++ asked' ∧
      Reading cfg asked' (left ++ begun.toList.flatMap fun burst => burstLines cfg (burst, memory)) r' := by
  obtain ⟨started, sent, hsound, hleft⟩ := h
  have hlow : ReadSide.Sound cfg _ started sent
      (((((r.sampleReady o).presentNext).clearSeen prevClk).acceptAr cfg cycle o).waitR cfg cycle rnd rng).1 :=
    ((((hsound.sampleReady o).presentNext).clearSeen prevClk).acceptAr cycle o).waitR cycle rng
  have hafter := hlow.driveR hdrive
  rw [haccepted] at hlow hafter
  obtain ⟨begun, hbegun⟩ : ∃ begun, begun = ((((((r.sampleReady o).presentNext).clearSeen prevClk).acceptAr cfg cycle
    o).waitR cfg cycle rnd rng).1).starting cycle paused := ⟨_, rfl⟩
  rw [← hbegun] at hafter
  have hasked : asked ++ accepted.toList = begun.toList ++ (r'.rWaiting.toList ++ r'.arPending) := by
    have hrequests := hafter.requests
    rw [List.map_append, List.append_assoc, List.append_assoc, List.append_assoc] at hrequests
    have hcancel := List.append_cancel_left hrequests
    rw [← hcancel]
    cases begun <;> rfl
  have hrecorded : (started ++ (begun.map fun burst => (burst, memory)).toList).map Prod.fst ++
      (r'.rWaiting.toList ++ r'.arPending) = started.map Prod.fst ++ asked ++ accepted.toList := by
    rw [List.append_assoc, hasked, List.map_append, List.append_assoc]
    cases begun <;> rfl
  refine ⟨begun, r'.rWaiting.toList ++ r'.arPending, hasked,
    started ++ (begun.map fun burst => (burst, memory)).toList, sent, ?_, ?_⟩
  · rw [hrecorded]
    exact hafter
  · rw [List.flatMap_append, hleft, List.append_assoc]
    cases begun <;> simp

/-- What starts is in range. -/
theorem low_total (h : Reading cfg asked left r) (rnd : Random ρ) (prevClk cycle : Nat) (rng : ρ) (o : Observed)
    (memory : Nat → Option Nat) (paused : Bool) {accepted : Option Burst}
    (haccepted : (((r.sampleReady o).presentNext).clearSeen prevClk).acceptedAr cfg o = accepted)
    (hrange : ∀ burst ∈ asked ++ accepted.toList, burst.InRange cfg) :
    ∃ r', (((((r.sampleReady o).presentNext).clearSeen prevClk).acceptAr cfg cycle o).waitR cfg cycle rnd rng).1.driveR
      cfg cycle memory paused = .ok r' := by
  obtain ⟨started, sent, hsound, -⟩ := h
  have hlow : ReadSide.Sound cfg _ started sent
      (((((r.sampleReady o).presentNext).clearSeen prevClk).acceptAr cfg cycle o).waitR cfg cycle rnd rng).1 :=
    ((((hsound.sampleReady o).presentNext).clearSeen prevClk).acceptAr cycle o).waitR cycle rng
  rw [haccepted] at hlow
  refine ReadSide.driveR_total fun burst hwaiting => hrange burst ?_
  have hrequests := hlow.requests
  rw [hwaiting, List.append_assoc, List.append_assoc] at hrequests
  rw [← List.append_cancel_left hrequests]
  exact List.mem_cons_self

/-- At an edge the line on the bus is gone, if it was taken. -/
theorem edge (h : Reading cfg asked left r) (hneeds : r.rNeedsPresent = false) (arready : Option Nat) :
    Reading cfg asked (if r.rvalid && r.rReadySampled then left.tail else left)
      (ReadSide.retire { r with arready := arready }) := by
  have hlines := h.lines hneeds
  obtain ⟨started, sent, hsound, hleft⟩ := h
  have hready : ReadSide.Sound cfg (started.map Prod.fst ++ asked) started sent { r with arready := arready } :=
    ⟨hsound.requests, hsound.logged, hsound.positive, hsound.answers, hsound.idle, hsound.valid, hsound.lines⟩
  have hafter := hready.retire hneeds
  refine ⟨started, _, hafter, ?_⟩
  dsimp only
  split
  · next hc =>
    simp only [Bool.and_eq_true] at hc
    rcases hlines with ⟨hno, -⟩ | ⟨-, rest, hrest⟩
    · exact absurd (hno.symm.trans hc.1) (by decide)
    · rw [hleft, hrest, List.append_assoc]
      rfl
  · exact hleft

end Reading

/-! ## From phase to phase -/

/-- What the responder has in hand before a low phase. -/
structure Phase (cfg : Options) (memory : Nat → Option Nat) (flight : Option (Burst × Nat)) (out : List (Nat × Nat))
    (asked : List Burst) (left : List RLines) (s : Responder ρ) : Prop where
  clk : s.prevClk = 0 ∧ s.w.awSeen = false ∧ s.w.wSeen = false ∧ s.r.arSeen = false ∨ s.prevClk = 1
  memory : s.memory = memory
  w : Writing flight out s.w
  r : Reading cfg asked left s.r

/-- And in the low phase, where `s` is the responder before it. -/
structure Sampled (cfg : Options) (memory : Nat → Option Nat) (flight : Option (Burst × Nat)) (out : List (Nat × Nat))
    (asked : List Burst) (left : List RLines) (o : Observed) (s₁ : Responder ρ) : Prop where
  settled : Settled o s₁
  memory : s₁.memory = memory
  w : Writing flight out s₁.w
  r : Reading cfg asked left s₁.r

section Steps

variable {memory memory' : Nat → Option Nat} {flight flight' : Option (Burst × Nat)} {out out' : List (Nat × Nat)}
  {asked : List Burst} {left : List RLines} {s s₁ : Responder ρ} {o : Observed}

/-- What the write side takes of the signals. -/
def Takes (cfg : Options) (s : Responder ρ) (o : Observed) (memory memory' : Nat → Option Nat)
    (flight flight' : Option (Burst × Nat)) (out out' : List (Nat × Nat)) : Prop :=
  ∀ w : WriteSide, Writing flight out w → w.awSeen = false → w.wSeen = false → w.awFire = s.w.awFire →
    w.wFire = s.w.wFire →
    ∃ w', (w.acceptAw cfg o).acceptW cfg s.cycleCount o memory = .ok (memory', w') ∧ Writing flight' out' w'

/-- The AR that is on offer, if it is transferred. -/
def Responder.takesAr (cfg : Options) (s : Responder ρ) (o : Observed) : Option Burst :=
  if s.r.arFire o then o.ar cfg else none

theorem Phase.acceptedAr (h : Phase cfg memory flight out asked left s) (o : Observed) :
    (((s.r.sampleReady o).presentNext).clearSeen s.prevClk).acceptedAr cfg o = s.takesAr cfg o := by
  have hpresent := ReadSide.sameAr_presentNext (s.r.sampleReady o)
  have hfire : (((s.r.sampleReady o).presentNext).clearSeen s.prevClk).arFire = s.r.arFire :=
    ReadSide.arFire_congr ((ReadSide.ready_clearSeen _ _).trans hpresent.arready)
  have hseen : (((s.r.sampleReady o).presentNext).clearSeen s.prevClk).arSeen = false := by
    unfold ReadSide.clearSeen
    rcases h.clk with ⟨hclk, -, -, har⟩ | hclk
    · rw [hclk, if_neg zero_ne_one]
      exact hpresent.arSeen.trans har
    · rw [if_pos hclk]
  unfold ReadSide.acceptedAr Responder.takesAr Observed.ar
  rw [hfire, hseen, Bool.not_false, Bool.and_true]

/-- The low phase. -/
theorem Phase.low (h : Phase cfg memory flight out asked left s) (rnd : Random ρ)
    (haw : s.w.awFire o = true → s.w.awPending = none) (htakes : Takes cfg s o memory memory' flight flight' out out')
    (hrange : ∀ burst ∈ asked ++ (s.takesAr cfg o).toList, burst.InRange cfg) (p : Pauses) :
    ∃ s₁ begun asked', act rnd cfg s (.low o p) = .ok s₁ ∧
      asked ++ (s.takesAr cfg o).toList = Option.toList begun ++ asked' ∧
      Sampled cfg memory' flight' out' asked'
        (left ++ begun.toList.flatMap fun burst => burstLines cfg (burst, memory')) o s₁ := by
  have hw₀ := (h.w.sampleReady o).clearSeen s.prevClk
  have hready₀ := WriteSide.ready_clearSeen s.prevClk (s.w.sampleReady o)
  have hseen : ((s.w.sampleReady o).clearSeen s.prevClk).awSeen = false ∧
      ((s.w.sampleReady o).clearSeen s.prevClk).wSeen = false := by
    unfold WriteSide.clearSeen
    rcases h.clk with ⟨hclk, haw, hw, -⟩ | hclk
    · rw [hclk, if_neg zero_ne_one]
      exact ⟨haw, hw⟩
    · rw [if_pos hclk]
      exact ⟨rfl, rfl⟩
  obtain ⟨w₁, hw₁, hwriting⟩ := htakes _ hw₀ hseen.1 hseen.2 (WriteSide.awFire_congr hready₀.1)
    (WriteSide.wFire_congr hready₀.2)
  rw [← h.memory] at hw₁
  obtain ⟨r', hr⟩ := h.r.low_total rnd s.prevClk s.cycleCount (w₁.waitB cfg s.cycleCount rnd s.rng).2 o memory' p.r
    (h.acceptedAr o) hrange
  obtain ⟨begun, asked', hasked, hreading⟩ := h.r.low s.prevClk s.cycleCount _ o (h.acceptedAr o) hr
  have hact := low_eq p hw₁ hr
  refine ⟨_, begun, asked', hact, hasked, settled_of_low haw hact, rfl, ?_, hreading⟩
  exact (hwriting.waitB s.cycleCount s.rng).driveB s.cycleCount p.b

/-- The rising edge: what is on the lines and taken is gone. -/
theorem Sampled.edge (halways : cfg.alwaysReady = true) {p : Pauses} (hp : p.aw = false)
    (h : Sampled cfg memory flight out asked left o s₁) :
    Phase cfg memory flight (if s₁.w.bvalid && isHigh o.bready then out.tail else out) asked
      (if s₁.r.rvalid && isHigh o.rready then left.tail else left) (afterEdge cfg p s₁) := by
  have hedgeW : (s₁.risingEdge cfg p).w = WriteSide.retire { s₁.w with
      awready := Responder.readyLine (p.pause || p.aw), wready := Responder.readyLine (p.pause || p.w) } := by
    unfold Responder.risingEdge
    dsimp only
    rw [if_pos halways]
  obtain ⟨arready, hedgeR⟩ := Invariant.risingEdge_r cfg p s₁
  have hready : isHigh (Responder.readyLine (p.pause || p.w)) = true →
      isHigh (Responder.readyLine (p.pause || p.aw)) = true := by
    rw [hp]
    cases p.pause <;> cases p.w <;> decide
  have hmemory : (s₁.risingEdge cfg p).memory = s₁.memory := by
    unfold Responder.risingEdge
    dsimp only
    rw [if_pos halways]
  have hsettled := h.settled
  refine ⟨Or.inr rfl, hmemory.trans h.memory, ?_, ?_⟩
  · change Writing flight _ (s₁.risingEdge cfg p).w
    rw [hedgeW, ← hsettled.bready]
    exact h.w.edge hready
  · change Reading cfg asked _ (s₁.risingEdge cfg p).r
    rw [hedgeR, ← hsettled.rready]
    exact h.r.edge hsettled.needs arready

/-! ## A period -/

/-- A period of a master that offers what the responder can take: the low phase, what the master samples of
it, and the edge. -/
theorem Phase.period (rnd : Random ρ) (halways : cfg.alwaysReady = true) {periods : Nat → Period}
    (hperiods : ∀ k, (periods k).edge.aw = false) {sys : System ρ}
    (h : Phase cfg memory flight out asked left sys.responder)
    (haw : sys.responder.w.awFire sys.bus = true → sys.responder.w.awPending = none)
    (htakes : Takes cfg sys.responder sys.bus memory memory' flight flight' out out')
    (hrange : ∀ burst ∈ asked ++ (sys.responder.takesAr cfg sys.bus).toList, burst.InRange cfg) :
    ∃ t s₁ s' begun asked', asked ++ (sys.responder.takesAr cfg sys.bus).toList = Option.toList begun ++ asked' ∧
      Sampled cfg memory' flight' out' asked'
        (left ++ begun.toList.flatMap fun burst => burstLines cfg (burst, memory')) sys.bus s₁ ∧
      (t = s₁ ∨ sys.responder.prevClk = 0 ∧ t = sys.responder) ∧
      t.w.awready = sys.responder.w.awready ∧ t.w.wready = sys.responder.w.wready ∧
      t.r.arready = sys.responder.r.arready ∧
      sys.toSamplePoint rnd cfg periods = .ok { sys with responder := t } ∧
      System.stepCycle rnd cfg periods { sys with responder := t } = .ok ⟨s', sys.bus, sys.period + 1⟩ ∧
      s'.prevClk = 1 ∧
      Phase cfg memory' flight' (if s₁.w.bvalid && isHigh sys.bus.bready then out'.tail else out') asked'
        (if s₁.r.rvalid && isHigh sys.bus.rready then
          (left ++ begun.toList.flatMap fun burst => burstLines cfg (burst, memory')).tail
        else left ++ begun.toList.flatMap fun burst => burstLines cfg (burst, memory')) s' := by
  have hclk : sys.responder.prevClk = 0 ∨ sys.responder.prevClk = 1 := h.clk.imp And.left id
  have hlow : ∀ p, ∃ s₁, act rnd cfg sys.responder (.low sys.bus p) = .ok s₁ := fun p => by
    obtain ⟨s₁, -, -, hact, -⟩ := h.low rnd haw htakes hrange p
    exact ⟨s₁, hact⟩
  obtain ⟨p, s₁, t, hact, ht, hsample, hstep⟩ := System.period_eq periods hclk haw hlow
  obtain ⟨s₁', begun, asked', hact', hasked, hsampled⟩ := h.low rnd haw htakes hrange p
  obtain rfl := Except.ok.inj (hact.symm.trans hact')
  have hready := ready_of_low hact
  refine ⟨t, s₁, _, begun, asked', hasked, hsampled, ht, ?_, ?_, ?_, hsample, hstep, rfl,
    hsampled.edge halways (hperiods sys.period)⟩
  · rcases ht with rfl | ⟨-, rfl⟩
    exacts [hready.1, rfl]
  · rcases ht with rfl | ⟨-, rfl⟩
    exacts [hready.2.1, rfl]
  · rcases ht with rfl | ⟨-, rfl⟩
    exacts [hready.2.2, rfl]

/-- While nothing is read. -/
theorem Phase.period_unread (rnd : Random ρ) (halways : cfg.alwaysReady = true) {periods : Nat → Period}
    (hperiods : ∀ k, (periods k).edge.aw = false) {sys : System ρ}
    (h : Phase cfg memory flight out [] [] sys.responder) (har : isHigh sys.bus.arvalid = false)
    (haw : sys.responder.w.awFire sys.bus = true → sys.responder.w.awPending = none)
    (htakes : Takes cfg sys.responder sys.bus memory memory' flight flight' out out') :
    ∃ t s₁ s', Writing flight' out' s₁.w ∧ (t = s₁ ∨ sys.responder.prevClk = 0 ∧ t = sys.responder) ∧
      t.w.awready = sys.responder.w.awready ∧ t.w.wready = sys.responder.w.wready ∧
      sys.toSamplePoint rnd cfg periods = .ok { sys with responder := t } ∧
      System.stepCycle rnd cfg periods { sys with responder := t } = .ok ⟨s', sys.bus, sys.period + 1⟩ ∧
      s'.prevClk = 1 ∧
      Phase cfg memory' flight' (if s₁.w.bvalid && isHigh sys.bus.bready then out'.tail else out') [] [] s' := by
  have hnone : sys.responder.takesAr cfg sys.bus = none := by
    unfold Responder.takesAr ReadSide.arFire
    rw [har]
    rfl
  obtain ⟨t, s₁, s', begun, asked', hasked, hsampled, ht, hawready, hwready, -, hsample, hstep, hclk, hphase⟩ :=
    h.period rnd halways hperiods haw htakes (by rw [hnone]; exact fun _ hb => absurd hb List.not_mem_nil)
  rw [hnone] at hasked
  obtain ⟨hbegun, rfl⟩ := List.append_eq_nil_iff.mp hasked.symm
  rw [hbegun] at hphase
  refine ⟨t, s₁, s', hsampled.w, ht, hawready, hwready, hsample, hstep, hclk, ?_⟩
  have hleft : (if s₁.r.rvalid && isHigh sys.bus.rready then
      ([] ++ ([] : List Burst).flatMap fun burst => burstLines cfg (burst, memory')).tail
      else [] ++ ([] : List Burst).flatMap fun burst => burstLines cfg (burst, memory')) = [] := by
    split <;> rfl
  rw [hleft] at hphase
  exact hphase

end Steps

end Veriforge.Axi4

import Veriforge.Axi4.Master
import Veriforge.Axi4.Requests

/-! # A clock period of the AXI4 responder

A master that changes its signals only after a rising edge sees the responder act once in a low phase: a
further callback of the same low phase changes nothing, so what the master samples is what the edge
transfers. -/

namespace Veriforge.Axi4

open AxiLite (isHigh)

variable {ρ : Type} {rnd : Random ρ} {cfg : Options}

/-! ## A low phase -/

/-- What the low phase makes of the write side that has accepted. -/
def lowW (rnd : Random ρ) (cfg : Options) (s : Responder ρ) (p : Pauses) (w₁ : WriteSide) : WriteSide :=
  ((w₁.waitB cfg s.cycleCount rnd s.rng).1).driveB s.cycleCount p.b

/-- The read side up to the beat that starts. -/
def lowAr (rnd : Random ρ) (cfg : Options) (s : Responder ρ) (o : Observed) (w₁ : WriteSide) : ReadSide × ρ :=
  ((((s.r.sampleReady o).presentNext).clearSeen s.prevClk).acceptAr cfg s.cycleCount o).waitR cfg s.cycleCount rnd
    (w₁.waitB cfg s.cycleCount rnd s.rng).2

/-- A callback whose requests are in order and in range. -/
theorem low_eq {s : Responder ρ} {o : Observed} (p : Pauses) {memory' : Nat → Option Nat} {w₁ : WriteSide}
    {r' : ReadSide}
    (hw : (((s.w.sampleReady o).clearSeen s.prevClk).acceptAw cfg o).acceptW cfg s.cycleCount o s.memory =
      .ok (memory', w₁))
    (hr : (lowAr rnd cfg s o w₁).1.driveR cfg s.cycleCount memory' p.r = .ok r') :
    act rnd cfg s (.low o p) = .ok {
      memory := memory'
      rng := (lowAr rnd cfg s o w₁).2
      cycleCount := s.cycleCount
      prevClk := 0
      w := lowW rnd cfg s p w₁
      r := r' } := by
  have haccept : s.acceptAll cfg o = .ok { s with
      memory := memory', w := w₁
      r := (((s.r.sampleReady o).presentNext).clearSeen s.prevClk).acceptAr cfg s.cycleCount o } := by
    unfold Responder.acceptAll
    rw [hw]
    rfl
  unfold act Responder.onTimeStep Responder.lowPhase
  simp only [if_true, zero_ne_one, and_false, if_false]
  rw [haccept]
  change ((do
    let r ← (lowAr rnd cfg s o w₁).1.driveR cfg s.cycleCount memory' p.r
    _) >>= _) = _
  rw [hr]
  rfl

theorem forM_ok {ε α : Type} {f : α → Except ε Unit} {xs : List α} (h : ∀ x ∈ xs, f x = .ok ()) :
    xs.forM f = .ok () := by
  induction xs with
  | nil => rfl
  | cons x xs ih =>
    change (f x >>= fun _ => xs.forM f) = _
    rw [h x List.mem_cons_self]
    exact ih fun y hy => h y (List.mem_cons_of_mem x hy)

/-- No beat of the burst is out of range. -/
def Burst.InRange (cfg : Options) (burst : Burst) : Prop :=
  ∀ i < burst.beats, checkAddrInRange cfg (burst.beatAddr i) = .ok ()

theorem ReadSide.driveR_total {cycle : Nat} {memory : Nat → Option Nat} {paused : Bool} {r : ReadSide}
    (h : ∀ burst, r.rWaiting = some burst → burst.InRange cfg) : ∃ r', r.driveR cfg cycle memory paused = .ok r' := by
  unfold ReadSide.driveR
  cases hstart : r.starting cycle paused with
  | none => exact ⟨_, rfl⟩
  | some burst =>
    dsimp only
    rw [forM_ok fun i hi => h burst (ReadSide.starting_some hstart).1 i (List.mem_range.mp hi)]
    exact ⟨_, rfl⟩

/-! ## A further callback of the low phase -/

/-- What a low-phase callback leaves to a further one with the same signals: nothing to accept, nothing to
start before the next cycle. -/
structure Settled (o : Observed) (s : Responder ρ) : Prop where
  clk : s.prevClk = 0
  bready : s.w.bReadySampled = isHigh o.bready
  rready : s.r.rReadySampled = isHigh o.rready
  needs : s.r.rNeedsPresent = false
  aw : s.w.awSeen = s.w.awFire o
  w : s.w.wFire o = true → s.w.awPending = none ∨ s.w.wSeen = true
  wIdle : s.w.wFire o = false → s.w.wSeen = false
  ar : s.r.arSeen = s.r.arFire o
  b : s.w.pendingB = [] ∨ s.w.bActive = true ∨ s.w.bWaiting.isSome = true
  bWaiting : s.w.bWaiting.isSome = true → s.w.bActive = true ∨ s.cycleCount < s.w.bWaitTargetCycle ∨
    s.w.pauseDraw = some (s.cycleCount, true)
  r : s.r.arPending = [] ∨ s.r.rActive = true ∨ s.r.rWaiting.isSome = true
  rWaiting : s.r.rWaiting.isSome = true → s.r.rActive = true ∨ s.cycleCount < s.r.rWaitTargetCycle ∨
    s.r.pauseDraw = some (s.cycleCount, true)

theorem pausedThisCycle_cycle (cycle : Nat) (drawn : Option (Nat × Bool)) (answer : Bool) :
    (pausedThisCycle cycle drawn answer).1 = cycle := by
  unfold pausedThisCycle
  split
  · split
    · assumption
    · rfl
  · rfl

theorem pausedThisCycle_drawn (cycle : Nat) (paused answer : Bool) :
    pausedThisCycle cycle (some (cycle, paused)) answer = (cycle, paused) := by
  unfold pausedThisCycle
  exact if_pos rfl

namespace Settled

variable {o : Observed} {s : Responder ρ}

theorem sampled_w (h : Settled o s) : (s.w.sampleReady o).clearSeen s.prevClk = s.w := by
  unfold WriteSide.clearSeen WriteSide.sampleReady
  rw [h.clk, if_neg zero_ne_one, ← h.bready]

theorem acceptAw (h : Settled o s) : s.w.acceptAw cfg o = s.w := by
  have hseen := h.aw
  unfold WriteSide.acceptAw
  cases hf : s.w.awFire o with
  | true =>
    rw [hf] at hseen
    rw [hseen]
    simp
  | false =>
    rw [hf] at hseen
    have hsame : { s.w with awSeen := false } = s.w := by rw [← hseen]
    rw [Bool.and_false]
    exact hsame

theorem acceptW (h : Settled o s) : s.w.acceptW cfg s.cycleCount o s.memory = .ok (s.memory, s.w) := by
  unfold WriteSide.acceptW
  cases hf : s.w.wFire o with
  | true =>
    rcases h.w hf with hnone | hseen
    · rw [hnone]
      rfl
    · rw [hseen]
      split <;> rfl
  | false =>
    have hsame : { s.w with wSeen := false } = s.w := by rw [← h.wIdle hf]
    split
    · exact congrArg (fun w => Except.ok (s.memory, w)) hsame
    · exact congrArg (fun w => Except.ok (s.memory, w)) hsame

theorem waitB (h : Settled o s) (rng : ρ) : s.w.waitB cfg s.cycleCount rnd rng = (s.w, rng) := by
  unfold WriteSide.waitB
  split
  · rfl
  · next hpending =>
    rw [if_neg]
    rcases h.b with hnil | hactive | hwaiting
    · exact absurd (hpending.symm.trans hnil) (List.cons_ne_nil _ _)
    · simp [hactive]
    · simp [Option.isSome_iff_ne_none.mp hwaiting]

theorem driveB (h : Settled o s) (paused : Bool) : s.w.driveB s.cycleCount paused = s.w := by
  unfold WriteSide.driveB
  split
  · rfl
  · next hwaiting =>
    rcases h.bWaiting (by rw [hwaiting]; rfl) with hactive | hlate | hdraw
    · rw [hactive]
      rfl
    · rw [decide_eq_false (Nat.not_le.mpr hlate), Bool.and_false]
      rfl
    · rw [hdraw, pausedThisCycle_drawn]
      have hsame : { s.w with pauseDraw := some (s.cycleCount, true) } = s.w := by rw [← hdraw]
      split
      · exact hsame
      · rfl

theorem acceptAr (h : Settled o s) :
    (((s.r.sampleReady o).presentNext).clearSeen s.prevClk).acceptAr cfg s.cycleCount o = s.r := by
  have hsampled : s.r.sampleReady o = s.r := by
    unfold ReadSide.sampleReady
    rw [← h.rready]
  have hseen := h.ar
  unfold ReadSide.clearSeen
  rw [hsampled, ReadSide.presentNext_of_not_needs h.needs, h.clk, if_neg zero_ne_one]
  unfold ReadSide.acceptAr
  cases hf : s.r.arFire o with
  | true =>
    rw [hf] at hseen
    rw [if_pos rfl, if_pos hseen]
  | false =>
    rw [hf] at hseen
    have hsame : { s.r with arSeen := false } = s.r := by rw [← hseen]
    exact hsame

theorem waitR (h : Settled o s) (rng : ρ) : s.r.waitR cfg s.cycleCount rnd rng = (s.r, rng) := by
  unfold ReadSide.waitR
  split
  · rfl
  · next hpending =>
    rw [if_neg]
    rcases h.r with hnil | hactive | hwaiting
    · exact absurd (hpending.symm.trans hnil) (List.cons_ne_nil _ _)
    · simp [hactive]
    · simp [Option.isSome_iff_ne_none.mp hwaiting]

theorem driveR (h : Settled o s) (memory : Nat → Option Nat) (paused : Bool) :
    s.r.driveR cfg s.cycleCount memory paused = .ok s.r := by
  have hstart : s.r.starting s.cycleCount paused = none := by
    unfold ReadSide.starting
    cases hwaiting : s.r.rWaiting with
    | none => simp
    | some burst =>
      rcases h.rWaiting (by rw [hwaiting]; rfl) with hactive | hlate | hdraw
      · simp [hactive]
      · simp [hlate]
      · simp [hdraw, pausedThisCycle_drawn]
  have hdrawn : (if (s.r.rWaiting.isSome && !s.r.rActive && decide (s.r.rWaitTargetCycle ≤ s.cycleCount)) = true then
      some (pausedThisCycle s.cycleCount s.r.pauseDraw paused) else s.r.pauseDraw) = s.r.pauseDraw := by
    split
    · next hasked =>
      simp only [Bool.and_eq_true, Bool.not_eq_true', decide_eq_true_eq] at hasked
      rcases h.rWaiting hasked.1.1 with hactive | hlate | hdraw
      · exact absurd (hactive.symm.trans hasked.1.2) (by decide)
      · exact absurd hasked.2 (Nat.not_le.mpr hlate)
      · rw [hdraw, pausedThisCycle_drawn]
    · rfl
  unfold ReadSide.driveR
  dsimp only
  rw [hstart, hdrawn]

/-- A further callback changes nothing. -/
theorem low (h : Settled o s) (p : Pauses) : act rnd cfg s (.low o p) = .ok s := by
  have hw : (((s.w.sampleReady o).clearSeen s.prevClk).acceptAw cfg o).acceptW cfg s.cycleCount o s.memory =
      .ok (s.memory, s.w) := by
    rw [h.sampled_w, h.acceptAw, h.acceptW]
  have har : lowAr rnd cfg s o s.w = (s.r, s.rng) := by
    unfold lowAr
    rw [h.waitB, h.acceptAr, h.waitR]
  have hr : (lowAr rnd cfg s o s.w).1.driveR cfg s.cycleCount s.memory p.r = .ok s.r := by
    rw [har]
    exact h.driveR s.memory p.r
  rw [low_eq p hw hr, har, lowW, h.waitB, h.driveB, ← h.clk]

end Settled

/-! ## What a callback of the low phase leaves -/

namespace WriteSide

variable {o : Observed} {w w' : WriteSide} {cycle : Nat}

theorem ready_clearSeen (prevClk : Nat) (w : WriteSide) :
    (w.clearSeen prevClk).awready = w.awready ∧ (w.clearSeen prevClk).wready = w.wready := by
  unfold clearSeen
  split <;> exact ⟨rfl, rfl⟩

theorem ready_acceptAw (cfg : Options) (o : Observed) (w : WriteSide) :
    (w.acceptAw cfg o).awready = w.awready ∧ (w.acceptAw cfg o).wready = w.wready := by
  unfold acceptAw
  split
  · split
    · exact ⟨rfl, rfl⟩
    · split <;> exact ⟨rfl, rfl⟩
  · split <;> exact ⟨rfl, rfl⟩

/-- An AW is accepted only while no burst is in flight, but then it is seen. -/
theorem acceptAw_seen (h : w.awFire o = true → w.awPending = none) : (w.acceptAw cfg o).awSeen = w.awFire o := by
  unfold acceptAw
  cases hf : w.awFire o with
  | true =>
    rw [h hf]
    split
    · split
      · assumption
      · split <;> rfl
    · next hno => exact absurd rfl hno
  | false =>
    rw [Bool.and_false]
    rfl

theorem takeBeat_seen (cfg : Options) (cycle data strb : Nat) (flight : InFlight) (w : WriteSide) :
    (w.takeBeat cfg cycle data strb flight).awSeen = w.awSeen ∧ (w.takeBeat cfg cycle data strb flight).wSeen = true ∧
      (w.takeBeat cfg cycle data strb flight).awready = w.awready ∧
      (w.takeBeat cfg cycle data strb flight).wready = w.wready := by
  unfold takeBeat completeBurst
  dsimp only
  split <;> exact ⟨rfl, rfl, rfl, rfl⟩

theorem acceptW_seen {memory memory' : Nat → Option Nat} (h : w.acceptW cfg cycle o memory = .ok (memory', w')) :
    w'.awSeen = w.awSeen ∧ w'.awready = w.awready ∧ w'.wready = w.wready ∧
      (w.wFire o = true → w'.awPending = none ∨ w'.wSeen = true) ∧ (w.wFire o = false → w'.wSeen = false) := by
  unfold acceptW at h
  cases hf : w.wFire o with
  | true =>
    rw [hf] at h
    split at h
    · rw [if_pos rfl] at h
      split at h
      · next hseen =>
        obtain rfl := congrArg Prod.snd (Except.ok.inj h)
        exact ⟨rfl, rfl, rfl, fun _ => Or.inr hseen, fun hno => absurd hno (by decide)⟩
      · split at h
        · obtain rfl := congrArg Prod.snd (Except.ok.inj h)
          exact ⟨rfl, rfl, rfl, fun _ => Or.inr rfl, fun hno => absurd hno (by decide)⟩
        · obtain ⟨-, -, h⟩ := ok_of_bind h
          obtain ⟨-, -, h⟩ := ok_of_bind h
          obtain rfl := congrArg Prod.snd (Except.ok.inj h)
          obtain ⟨haw, hw, hready⟩ := takeBeat_seen cfg cycle _ _ _ w
          exact ⟨haw, hready.1, hready.2, fun _ => Or.inr hw, fun hno => absurd hno (by decide)⟩
    · next hnone =>
      rw [if_pos rfl] at h
      obtain rfl := congrArg Prod.snd (Except.ok.inj h)
      exact ⟨rfl, rfl, rfl, fun _ => Or.inl hnone, fun hno => absurd hno (by decide)⟩
  | false =>
    rw [hf] at h
    have hw' : w' = { w with wSeen := false } := by
      split at h <;> exact (congrArg Prod.snd (Except.ok.inj h)).symm
    rw [hw']
    exact ⟨rfl, rfl, rfl, fun hno => absurd hno (by decide), fun _ => rfl⟩

/-- There is a response in the slot or on the lines, if there is one. -/
theorem waitB_settled (rnd : Random ρ) (cfg : Options) (cycle : Nat) (rng : ρ) (w : WriteSide) :
    (w.waitB cfg cycle rnd rng).1.pendingB = [] ∨ (w.waitB cfg cycle rnd rng).1.bActive = true ∨
      (w.waitB cfg cycle rnd rng).1.bWaiting.isSome = true := by
  unfold waitB
  split
  · next hnil => exact Or.inl hnil
  · split
    · exact Or.inr (Or.inr rfl)
    · next hc =>
      cases hactive : w.bActive with
      | true => exact Or.inr (Or.inl rfl)
      | false =>
        cases hwaiting : w.bWaiting with
        | some response => exact Or.inr (Or.inr rfl)
        | none => exact absurd (by rw [hactive, hwaiting]; rfl) hc

theorem driveB_settled (cycle : Nat) (paused : Bool) {w : WriteSide}
    (h : w.pendingB = [] ∨ w.bActive = true ∨ w.bWaiting.isSome = true) :
    ((w.driveB cycle paused).pendingB = [] ∨ (w.driveB cycle paused).bActive = true ∨
        (w.driveB cycle paused).bWaiting.isSome = true) ∧
      ((w.driveB cycle paused).bWaiting.isSome = true → (w.driveB cycle paused).bActive = true ∨
        cycle < (w.driveB cycle paused).bWaitTargetCycle ∨
        (w.driveB cycle paused).pauseDraw = some (cycle, true)) := by
  unfold driveB
  split
  · next hnone => exact ⟨h, fun hsome => absurd hsome (by rw [hnone]; decide)⟩
  · next response hsome =>
    split
    · dsimp only
      split
      · next hpaused =>
        exact ⟨h, fun _ => Or.inr (Or.inr (congrArg some (Prod.ext (pausedThisCycle_cycle _ _ _) hpaused)))⟩
      · exact ⟨Or.inr (Or.inl rfl), fun _ => Or.inl rfl⟩
    · next hc =>
      refine ⟨h, fun _ => ?_⟩
      cases hactive : w.bActive with
      | true => exact Or.inl rfl
      | false =>
        refine Or.inr (Or.inl ?_)
        by_contra hle
        exact hc (by rw [hactive, decide_eq_true (Nat.not_lt.mp hle)]; rfl)

end WriteSide

namespace ReadSide

variable {o : Observed} {r r' : ReadSide} {cycle : Nat}

theorem acceptAr_seen (cfg : Options) (cycle : Nat) (o : Observed) (r : ReadSide) :
    (r.acceptAr cfg cycle o).arSeen = r.arFire o := by
  unfold acceptAr
  cases hf : r.arFire o with
  | true =>
    rw [if_pos rfl]
    split
    · assumption
    · split <;> rfl
  | false => rfl

theorem ready_acceptAr (cfg : Options) (cycle : Nat) (o : Observed) (r : ReadSide) :
    (r.acceptAr cfg cycle o).arready = r.arready := by
  unfold acceptAr
  split
  · split
    · rfl
    · split <;> rfl
  · rfl

theorem ready_clearSeen (prevClk : Nat) (r : ReadSide) : (r.clearSeen prevClk).arready = r.arready := by
  unfold clearSeen
  split <;> rfl

/-- There is a burst in the slot or on the lines, if there is one. -/
theorem waitR_settled (rnd : Random ρ) (cfg : Options) (cycle : Nat) (rng : ρ) (r : ReadSide) :
    (r.waitR cfg cycle rnd rng).1.arPending = [] ∨ (r.waitR cfg cycle rnd rng).1.rActive = true ∨
      (r.waitR cfg cycle rnd rng).1.rWaiting.isSome = true := by
  unfold waitR
  split
  · next hnil => exact Or.inl hnil
  · split
    · exact Or.inr (Or.inr rfl)
    · next hc =>
      cases hactive : r.rActive with
      | true => exact Or.inr (Or.inl rfl)
      | false =>
        cases hwaiting : r.rWaiting with
        | some burst => exact Or.inr (Or.inr rfl)
        | none => exact absurd (by rw [hactive, hwaiting]; rfl) hc

theorem driveR_settled {memory : Nat → Option Nat} {paused : Bool}
    (h : r.arPending = [] ∨ r.rActive = true ∨ r.rWaiting.isSome = true)
    (hdrive : r.driveR cfg cycle memory paused = .ok r') :
    (r'.arPending = [] ∨ r'.rActive = true ∨ r'.rWaiting.isSome = true) ∧
      (r'.rWaiting.isSome = true → r'.rActive = true ∨ cycle < r'.rWaitTargetCycle ∨
        r'.pauseDraw = some (cycle, true)) := by
  unfold driveR at hdrive
  dsimp only at hdrive
  split at hdrive
  · next hnone =>
    obtain rfl := Except.ok.inj hdrive
    refine ⟨h, fun hsome => ?_⟩
    dsimp only at hsome ⊢
    cases hactive : r.rActive with
    | true => exact Or.inl rfl
    | false =>
      by_cases hle : r.rWaitTargetCycle ≤ cycle
      · -- it is its time, but the cycle is paused
        refine Or.inr (Or.inr ?_)
        rw [hsome, decide_eq_true hle]
        obtain ⟨burst, hburst⟩ := Option.isSome_iff_exists.mp hsome
        unfold starting at hnone
        rw [hactive, decide_eq_true hle, hburst] at hnone
        have hpaused : (pausedThisCycle cycle r.pauseDraw paused).2 = true := by
          cases hp : (pausedThisCycle cycle r.pauseDraw paused).2 with
          | true => rfl
          | false =>
            rw [hp] at hnone
            exact absurd hnone (Option.some_ne_none _)
        exact congrArg some (Prod.ext (pausedThisCycle_cycle _ _ _) hpaused)
      · exact Or.inr (Or.inl (Nat.not_le.mp hle))
  · obtain ⟨-, -, hdrive⟩ := ok_of_bind hdrive
    obtain rfl := Except.ok.inj hdrive
    exact ⟨Or.inr (Or.inl rfl), fun _ => Or.inl rfl⟩

end ReadSide

/-- The READY lines change at an edge only. -/
theorem ready_of_low {s s' : Responder ρ} {o : Observed} {p : Pauses} (hact : act rnd cfg s (.low o p) = .ok s') :
    s'.w.awready = s.w.awready ∧ s'.w.wready = s.w.wready ∧ s'.r.arready = s.r.arready := by
  obtain ⟨s₁, r', haccept, hdrive, rfl⟩ := act_low hact
  obtain ⟨memory', w₁, hw₁, rfl⟩ := acceptAll_ok haccept
  rw [wait_r] at hdrive
  have hclear := WriteSide.ready_clearSeen s.prevClk (s.w.sampleReady o)
  have haw := WriteSide.ready_acceptAw cfg o ((s.w.sampleReady o).clearSeen s.prevClk)
  obtain ⟨-, hawready, hwready, -, -⟩ := WriteSide.acceptW_seen hw₁
  have hsame := (WriteSide.sameW_waitB rnd cfg s.cycleCount s.rng w₁).trans (WriteSide.sameW_driveB s.cycleCount p.b _)
  have hpresent := (ReadSide.sameAr_presentNext (s.r.sampleReady o)).arready
  have har := (ReadSide.sameAr_waitR rnd cfg s.cycleCount _ _).trans (ReadSide.sameAr_driveR hdrive)
  exact ⟨hsame.awready.trans (hawready.trans (haw.1.trans hclear.1)),
    hsame.wready.trans (hwready.trans (haw.2.trans hclear.2)),
    har.arready.trans ((ReadSide.ready_acceptAr cfg _ o _).trans ((ReadSide.ready_clearSeen _ _).trans hpresent))⟩

/-- A callback of the low phase leaves nothing to a further one, unless an AW fires while a burst is in
flight. -/
theorem settled_of_low {s s' : Responder ρ} {o : Observed} {p : Pauses}
    (haw : s.w.awFire o = true → s.w.awPending = none) (hact : act rnd cfg s (.low o p) = .ok s') : Settled o s' := by
  obtain ⟨hawready, hwready, harready⟩ := ready_of_low hact
  obtain ⟨s₁, r', haccept, hdrive, rfl⟩ := act_low hact
  obtain ⟨memory', w₁, hw₁, rfl⟩ := acceptAll_ok haccept
  rw [wait_r] at hdrive
  dsimp only at hdrive
  -- the write side, function by function
  obtain ⟨w₀, hw₀⟩ : ∃ w₀, w₀ = (s.w.sampleReady o).clearSeen s.prevClk := ⟨_, rfl⟩
  rw [← hw₀] at hw₁
  have hready₀ := WriteSide.ready_clearSeen s.prevClk (s.w.sampleReady o)
  rw [← hw₀] at hready₀
  have hpending : w₀.awPending = s.w.awPending := by
    rw [hw₀]
    unfold WriteSide.clearSeen
    split <;> rfl
  have hawFire₀ : w₀.awFire = s.w.awFire := WriteSide.awFire_congr hready₀.1
  have hwFire₀ : (w₀.acceptAw cfg o).wFire = s.w.wFire :=
    WriteSide.wFire_congr ((WriteSide.ready_acceptAw cfg o w₀).2.trans hready₀.2)
  have haw₀ : (w₀.acceptAw cfg o).awSeen = w₀.awFire o := WriteSide.acceptAw_seen (by rw [hawFire₀, hpending]; exact haw)
  obtain ⟨hseenAw, -, -, hw, hwIdle⟩ := WriteSide.acceptW_seen hw₁
  rw [hwFire₀] at hw hwIdle
  have hsame := (WriteSide.sameW_waitB rnd cfg s.cycleCount s.rng w₁).trans (WriteSide.sameW_driveB s.cycleCount p.b _)
  have hbsampled : ((w₁.waitB cfg s.cycleCount rnd s.rng).1.driveB s.cycleCount p.b).bReadySampled = isHigh o.bready := by
    rw [WriteSide.driveB_sampled]
    exact ((((WriteSide.sameB_clearSeen s.prevClk (s.w.sampleReady o)).trans
      (WriteSide.sameB_acceptAw cfg o _)).trans (WriteSide.sameB_acceptW (hw₀ ▸ hw₁))).trans
      (WriteSide.sameB_waitB rnd cfg s.cycleCount s.rng _)).sampled
  obtain ⟨hb, hbWaiting⟩ := WriteSide.driveB_settled s.cycleCount p.b
    (WriteSide.waitB_settled rnd cfg s.cycleCount s.rng w₁)
  -- and the read side
  obtain ⟨rng, hrng⟩ : ∃ rng, rng = (w₁.waitB cfg s.cycleCount rnd s.rng).2 := ⟨_, rfl⟩
  obtain ⟨r₀, hr₀⟩ : ∃ r₀, r₀ = ((s.r.sampleReady o).presentNext).clearSeen s.prevClk := ⟨_, rfl⟩
  have hdrive : (((r₀.acceptAr cfg s.cycleCount o).waitR cfg s.cycleCount rnd rng).1).driveR cfg s.cycleCount memory' p.r =
      .ok r' := by
    rw [hrng, hr₀]
    exact hdrive
  have hsameAr := (ReadSide.sameAr_waitR rnd cfg s.cycleCount rng (r₀.acceptAr cfg s.cycleCount o)).trans
    (ReadSide.sameAr_driveR hdrive)
  have harFire : r₀.arFire = r'.arFire :=
    (ReadSide.arFire_congr (hsameAr.arready.trans (ReadSide.ready_acceptAr cfg s.cycleCount o r₀))).symm
  have hsameR := ((ReadSide.sameR_clearSeen s.prevClk (s.r.sampleReady o).presentNext).trans
    (ReadSide.sameR_acceptAr cfg s.cycleCount o _)).trans (ReadSide.sameR_waitR rnd cfg s.cycleCount rng _)
  rw [← hr₀] at hsameR
  obtain ⟨hneeds, hrsampled⟩ := ReadSide.driveR_needs hdrive
  obtain ⟨hr, hrWaiting⟩ := ReadSide.driveR_settled
    (ReadSide.waitR_settled rnd cfg s.cycleCount rng (r₀.acceptAr cfg s.cycleCount o)) hdrive
  exact {
    clk := rfl
    bready := hbsampled
    rready := hrsampled.trans (hsameR.sampled.trans (ReadSide.presentNext_sampled _))
    needs := hneeds.trans (hsameR.needs.trans (ReadSide.presentNext_needs _))
    aw := by
      rw [WriteSide.awFire_congr hawready, ← hawFire₀]
      exact hsame.awSeen.trans (hseenAw.trans haw₀)
    w := fun hf => by
      rw [WriteSide.wFire_congr hwready] at hf
      exact (hw hf).imp hsame.awPending.trans hsame.wSeen.trans
    wIdle := fun hf => by
      rw [WriteSide.wFire_congr hwready] at hf
      exact hsame.wSeen.trans (hwIdle hf)
    ar := hsameAr.arSeen.trans ((ReadSide.acceptAr_seen cfg s.cycleCount o r₀).trans (congrFun harFire o))
    b := hb
    bWaiting := hbWaiting
    r := hr
    rWaiting := hrWaiting }

/-! ## A period -/

theorem callbacks_high {s : Responder ρ} (hclk : s.prevClk = 1) (o : Observed) (ps : List Pauses) :
    callbacks rnd cfg 1 o ps s = .ok s := by
  induction ps with
  | nil => rfl
  | cons p ps ih =>
    have hone : s.onTimeStep rnd cfg (some 1) o p = .ok s := by
      unfold Responder.onTimeStep
      simp only [one_ne_zero, if_false, hclk, false_and]
      change Except.ok { s with prevClk := 1 } = _
      rw [← hclk]
    unfold callbacks at ih ⊢
    rw [List.foldlM_cons, hone]
    exact ih

theorem callbacks_settled {s : Responder ρ} {o : Observed} (h : Settled o s) (ps : List Pauses) :
    callbacks rnd cfg 0 o ps s = .ok s := by
  induction ps with
  | nil => rfl
  | cons p ps ih =>
    have hone : s.onTimeStep rnd cfg (some 0) o p = .ok s := h.low p
    unfold callbacks at ih ⊢
    rw [List.foldlM_cons, hone]
    exact ih

/-- The rising edge after a low phase. -/
def afterEdge (cfg : Options) (p : Pauses) (s : Responder ρ) : Responder ρ := { s.risingEdge cfg p with prevClk := 1 }

theorem onTimeStep_edge {s : Responder ρ} (hclk : s.prevClk = 0) (o : Observed) (p : Pauses) :
    s.onTimeStep rnd cfg (some 1) o p = .ok (afterEdge cfg p s) := by
  unfold Responder.onTimeStep
  simp only [one_ne_zero, if_false, hclk, and_self, if_true]
  rfl

/-- The master goes through a period: the responder acts once in the low phase, which makes `s₁` of it, and
then at the edge; what the master samples is `s₁`, unless the clock was low already. -/
theorem System.period_eq (periods : Nat → Period) {sys : System ρ}
    (hclk : sys.responder.prevClk = 0 ∨ sys.responder.prevClk = 1)
    (haw : sys.responder.w.awFire sys.bus = true → sys.responder.w.awPending = none)
    (hlow : ∀ p, ∃ s₁, act rnd cfg sys.responder (.low sys.bus p) = .ok s₁) :
    ∃ p s₁ t, act rnd cfg sys.responder (.low sys.bus p) = .ok s₁ ∧
      (t = s₁ ∨ sys.responder.prevClk = 0 ∧ t = sys.responder) ∧
      sys.toSamplePoint rnd cfg periods = .ok { sys with responder := t } ∧
      System.stepCycle rnd cfg periods { sys with responder := t } =
        .ok ⟨afterEdge cfg (periods sys.period).edge s₁, sys.bus, sys.period + 1⟩ := by
  rcases hclk with hclk | hclk
  · -- the first callback of the list acts
    obtain ⟨p, ps, hps⟩ : ∃ p ps, (periods sys.period).low ++ [(periods sys.period).preStep] = p :: ps := by
      cases (periods sys.period).low with
      | nil => exact ⟨_, _, rfl⟩
      | cons p ps => exact ⟨_, _, rfl⟩
    obtain ⟨s₁, hs₁⟩ := hlow p
    have hsettled := settled_of_low haw hs₁
    have hone : sys.responder.onTimeStep rnd cfg (some 0) sys.bus p = .ok s₁ := hs₁
    refine ⟨p, s₁, sys.responder, hs₁, Or.inr ⟨hclk, rfl⟩, ?_, ?_⟩
    · unfold System.toSamplePoint
      rw [hclk, if_neg zero_ne_one]
      rfl
    · unfold System.stepCycle
      dsimp only
      rw [hps, callbacks, List.foldlM_cons, hone]
      change ((callbacks rnd cfg 0 sys.bus ps s₁) >>= _) = _
      rw [callbacks_settled hsettled]
      change (do
        let s ← s₁.onTimeStep rnd cfg (some 1) sys.bus (periods sys.period).edge
        pure (⟨s, sys.bus, sys.period + 1⟩ : System ρ)) = _
      rw [onTimeStep_edge hsettled.clk]
      rfl
  · obtain ⟨s₁, hs₁⟩ := hlow (periods sys.period).falling
    have hsettled := settled_of_low haw hs₁
    have hone : sys.responder.onTimeStep rnd cfg (some 0) sys.bus (periods sys.period).falling = .ok s₁ := hs₁
    refine ⟨_, s₁, s₁, hs₁, Or.inl rfl, ?_, ?_⟩
    · unfold System.toSamplePoint
      rw [if_pos hclk, callbacks_high hclk]
      change ((sys.responder.onTimeStep rnd cfg (some 0) sys.bus (periods sys.period).falling) >>= _) = _
      rw [hone]
      rfl
    · unfold System.stepCycle
      dsimp only
      rw [callbacks_settled hsettled]
      change (do
        let s ← s₁.onTimeStep rnd cfg (some 1) sys.bus (periods sys.period).edge
        pure (⟨s, sys.bus, sys.period + 1⟩ : System ρ)) = _
      rw [onTimeStep_edge hsettled.clk]
      rfl

end Veriforge.Axi4

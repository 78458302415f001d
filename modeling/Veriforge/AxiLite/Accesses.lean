import Veriforge.AxiLite.Responder
import Veriforge.Handshake
import Mathlib.Logic.Function.Basic
import Mathlib.Tactic.ByContra

/-! # What the AXI4-Lite responder performs

The responder performs a write when AW and W are both offered and ready at once, and performs no other
before that condition goes away. So it performs what is transferred when address and data go together and
no two transfers follow each other without a gap. -/

namespace Veriforge.AxiLite

open Handshake (Accepting)

/-- What happens to the responder: its callback runs in the low phase, at a rising edge (before which the
master's signals were `edge`, and after which they are `after`), or in the high phase; or a test queues a
response. -/
inductive Event where
  | low (o : Observed) (paused : Bool)
  | rise (edge after : Observed) (paused : Bool)
  | high (o : Observed) (paused : Bool)
  | unknown (o : Observed) (paused : Bool)
  | queueWriteResponse (resp : Nat)
  | queueReadResponse (data resp : Nat)

/-- What a monitor of the bus knows: the offers that wait for their transfer, the last low-phase callback
since the last rising edge, whether a callback has seen no write (no read) on offer since the last
transfer, and the transfers so far; and the responses that the responder has decided on. -/
structure Monitor where
  heldAw : Option Observed
  heldW : Option Observed
  heldAr : Option Observed
  last : Option Observed
  writeGap : Bool
  readGap : Bool
  aw : List Nat
  w : List (Nat × Nat)
  ar : List Nat
  bs : List Nat
  rs : List (Nat × Nat)
  writeResponses : List Nat
  readResponses : List (Nat × Nat)

namespace Monitor

def start : Monitor := ⟨none, none, none, none, true, true, [], [], [], [], [], [], []⟩

/-- A low-phase callback. -/
def low (cfg : Options) (s : Responder) (o : Observed) (m : Monitor) : Monitor :=
  { m with
    heldAw := if isHigh o.awvalid then some o else none
    heldW := if isHigh o.wvalid then some o else none
    heldAr := if isHigh o.arvalid then some o else none
    last := some o
    writeGap := m.writeGap || !s.writeFire o
    readGap := m.readGap || !s.readFire o
    writeResponses := m.writeResponses ++ ((s.performedWrite o).map fun _ => (s.nextWriteResp cfg).1).toList
    readResponses := m.readResponses ++
      ((s.performedRead o).map fun addr => ((s.acceptWrite cfg o).nextReadResponse cfg addr).1).toList }

/-- A rising edge. -/
def rise (s : Responder) (e : Observed) (m : Monitor) : Monitor :=
  let aw := isHigh e.awvalid && isHigh s.awready
  let w := isHigh e.wvalid && isHigh s.wready
  let ar := isHigh e.arvalid && isHigh s.arready
  { m with
    heldAw := if isHigh e.awvalid && !aw then some e else none
    heldW := if isHigh e.wvalid && !w then some e else none
    heldAr := if isHigh e.arvalid && !ar then some e else none
    last := none
    writeGap := m.writeGap && !(aw && w)
    readGap := m.readGap && !ar
    aw := if aw then m.aw ++ [e.awaddr.getD 0] else m.aw
    w := if w then m.w ++ [(e.wdata.getD 0, e.wstrb.getD 0)] else m.w
    ar := if ar then m.ar ++ [e.araddr.getD 0] else m.ar
    bs := if s.b.valid && isHigh e.bready then m.bs ++ [s.b.payload] else m.bs
    rs := if s.r.valid && isHigh e.rready then m.rs ++ [s.r.payload] else m.rs }

def step (cfg : Options) (s : Responder) (m : Monitor) : Event → Monitor
  | .low o _ => m.low cfg s o
  | .rise e _ _ => m.rise s e
  | _ => m

end Monitor

/-- The master keeps VALID and the payload until the transfer. -/
structure Keeps (m : Monitor) (o : Observed) : Prop where
  aw : ∀ h, m.heldAw = some h → isHigh o.awvalid = true ∧ o.awaddr = h.awaddr
  w : ∀ h, m.heldW = some h → isHigh o.wvalid = true ∧ o.wdata = h.wdata ∧ o.wstrb = h.wstrb
  ar : ∀ h, m.heldAr = some h → isHigh o.arvalid = true ∧ o.araddr = h.araddr

/-- The response on the lines, and what waits behind it. -/
def Responding.outstanding {ρ : Type} (c : Responding ρ) : List ρ :=
  (if c.active then [c.payload] else []) ++ c.pending

/-- What a run allows: the master keeps to the protocol, and the clock is high in the high phase. -/
def Legitimate (s : Responder) (m : Monitor) : Event → Prop
  | .low o _ => Keeps m o
  | .rise e _ _ => s.prevClk = 0 ∧ Keeps m e
  | .high _ _ => s.prevClk = 1
  | _ => True

/-- An answer is withdrawn at the edge if and only if the master takes it there. -/
def Answered {ρ : Type} (c : Responding ρ) (ready : Option Nat) : Prop :=
  c.active = true → (c.clearAfterEdges.isSome = true ↔ isHigh ready = true)

/-- The master that the responder serves: address and data of a write are transferred at the same edge,
a callback sees a gap between two writes and between two reads, every offer is known and seen in a
low-phase callback before the edge, and BREADY and RREADY are as the callbacks have seen them. -/
def Served (s : Responder) (m : Monitor) : Event → Prop
  | .low o _ =>
      (s.writeFire o = true → m.writeGap = true ∧ o.write.isSome) ∧
        (s.readFire o = true → m.readGap = true ∧ o.araddr.isSome)
  | .rise e _ _ =>
      (∃ l, m.last = some l ∧ (isHigh e.awvalid = true → isHigh l.awvalid = true) ∧
        (isHigh e.wvalid = true → isHigh l.wvalid = true) ∧ (isHigh e.arvalid = true → isHigh l.arvalid = true)) ∧
      ((isHigh e.awvalid && isHigh s.awready) = (isHigh e.wvalid && isHigh s.wready)) ∧
      Answered s.b e.bready ∧ Answered s.r e.rready
  | _ => True

/-- What the event makes of the responder. -/
def act (cfg : Options) (s : Responder) : Event → Except ProtocolError Responder
  | .low o paused => s.onTimeStep cfg (some 0) o paused
  | .rise _ after paused => s.onTimeStep cfg (some 1) after paused
  | .high o paused => s.onTimeStep cfg (some 1) o paused
  | .unknown o paused => s.onTimeStep cfg none o paused
  | .queueWriteResponse resp => .ok { s with queuedWriteResponses := s.queuedWriteResponses ++ [resp] }
  | .queueReadResponse data resp => .ok { s with queuedReadResponses := s.queuedReadResponses ++ [(data, resp)] }

/-- The runs whose events all meet `P`. -/
inductive Run (cfg : Options) (P : Responder → Monitor → Event → Prop) (s₀ : Responder) :
    Responder → Monitor → Prop where
  | start : Run cfg P s₀ s₀ .start
  | step {s s' : Responder} {m : Monitor} (h : Run cfg P s₀ s m) (ev : Event) (hlegit : Legitimate s m ev)
      (hP : P s m ev) (hact : act cfg s ev = .ok s') : Run cfg P s₀ s' (m.step cfg s ev)

/-- What has been performed is what has been transferred, and each access has one response. -/
structure Exact (cfg : Options) (memory : Nat → Option Nat) (s : Responder) (m : Monitor) : Prop where
  paired : m.aw.length = m.w.length
  writes : s.writeLog = m.aw.zip m.w
  memory : s.memory = s.writeLog.foldl (store cfg) memory
  reads : s.readLog = m.ar
  writeResponses : m.writeResponses.length = s.writeLog.length ∧ m.bs ++ s.b.outstanding = m.writeResponses
  readResponses : m.readResponses.length = s.readLog.length ∧ m.rs ++ s.r.outstanding = m.readResponses

/-! ## A response channel -/

namespace Responding

variable {ρ : Type}

/-- Between callbacks: VALID is up while a response is active, and at most one edge away from its end. -/
structure Sound (c : Responding ρ) : Prop where
  valid : c.valid = c.active
  armed : ∀ k, c.clearAfterEdges = some k → k = 1 ∧ c.active = true

theorem Sound.push {c : Responding ρ} (h : c.Sound) (xs : List ρ) : Sound { c with pending := c.pending ++ xs } :=
  ⟨h.valid, h.armed⟩

theorem Sound.present {c : Responding ρ} (h : c.Sound) (allowed : Bool) : (c.present allowed).Sound := by
  unfold Responding.present
  split
  · exact h
  · split
    · exact ⟨rfl, fun k hk => nomatch hk⟩
    · exact h

theorem Sound.arm {c : Responding ρ} (h : c.Sound) (ready : Bool) : (c.arm 0 ready).Sound := by
  unfold Responding.arm
  split
  · next hc =>
    refine ⟨h.valid, fun k hk => ⟨(Option.some.inj hk).symm, ?_⟩⟩
    simp only [Bool.and_eq_true] at hc
    exact hc.1.1
  · exact h

theorem outstanding_push (c : Responding ρ) (xs : List ρ) :
    ({ c with pending := c.pending ++ xs } : Responding ρ).outstanding = c.outstanding ++ xs := by
  unfold outstanding
  rw [List.append_assoc]

@[simp] theorem outstanding_present (c : Responding ρ) (allowed : Bool) :
    (c.present allowed).outstanding = c.outstanding := by
  unfold present
  split
  · rfl
  · next next rest hp =>
    split
    · next hc =>
      simp only [Bool.and_eq_true, Bool.not_eq_true'] at hc
      simp [outstanding, hp, hc.1]
    · rfl

@[simp] theorem outstanding_arm (c : Responding ρ) (hold : Nat) (ready : Bool) :
    (c.arm hold ready).outstanding = c.outstanding := by
  unfold arm
  split <;> rfl

theorem Sound.retire {c : Responding ρ} (h : c.Sound) : c.retire.Sound := by
  unfold Responding.retire
  split
  · exact h
  · next k hk =>
    rw [(h.armed k hk).1, if_pos rfl]
    exact ⟨rfl, fun k hk => nomatch hk⟩

/-- An edge takes the response off the lines if and only if it is transferred. -/
theorem transfer_retire {c : Responding ρ} (h : c.Sound) {ready : Option Nat} (ha : Answered c ready) (sent : List ρ) :
    (if c.valid && isHigh ready then sent ++ [c.payload] else sent) ++ c.retire.outstanding =
      sent ++ c.outstanding := by
  rw [h.valid]
  by_cases hactive : c.active = true
  · by_cases hready : isHigh ready = true
    · obtain ⟨k, hk⟩ := Option.isSome_iff_exists.mp ((ha hactive).mpr hready)
      have hretire : c.retire.outstanding = c.pending := by
        unfold Responding.retire
        rw [hk]
        simp [(h.armed k hk).1, outstanding]
      rw [hactive, hready, Bool.and_self, if_pos rfl, hretire, outstanding, hactive, if_pos rfl, List.append_assoc]
    · have hk : c.clearAfterEdges = none := by
        rw [← Option.not_isSome_iff_eq_none]
        exact fun hs => hready ((ha hactive).mp hs)
      have hretire : c.retire = c := by
        unfold Responding.retire
        rw [hk]
      rw [hretire, if_neg]
      simp [hready]
  · have hk : c.clearAfterEdges = none := by
      by_contra hne
      obtain ⟨k, hk⟩ := Option.ne_none_iff_exists'.mp hne
      exact hactive (h.armed k hk).2
    have hretire : c.retire = c := by
      unfold Responding.retire
      rw [hk]
    rw [hretire, if_neg]
    simp [hactive]

end Responding

/-! ## A callback -/

namespace Responder

variable {cfg : Options}

theorem acceptWrite_writeLog (o : Observed) (s : Responder) :
    (s.acceptWrite cfg o).writeLog = s.writeLog ++ (s.performedWrite o).toList := by
  unfold acceptWrite
  split
  · next h => rw [h]; rfl
  · next h => rw [h]; split <;> simp

theorem acceptWrite_memory (o : Observed) (s : Responder) :
    (s.acceptWrite cfg o).memory = (s.performedWrite o).toList.foldl (store cfg) s.memory := by
  unfold acceptWrite
  split
  · next h => rw [h]; rfl
  · next h => rw [h]; split <;> rfl

theorem acceptWrite_b (o : Observed) (s : Responder) : (s.acceptWrite cfg o).b =
    { s.b with pending := s.b.pending ++ ((s.performedWrite o).map fun _ => (s.nextWriteResp cfg).1).toList } := by
  unfold acceptWrite
  split
  · next h => rw [h]; rfl
  · next h => rw [h]; split <;> simp

/-- A write is seen as long as it is on offer. -/
theorem acceptWrite_writeSeen (o : Observed) (s : Responder) : (s.acceptWrite cfg o).writeSeen =
    (s.writeFire o && (s.writeSeen || (s.performedWrite o).isSome)) := by
  unfold acceptWrite
  split
  · next h =>
    have hfire : s.writeFire o = true := by
      by_contra hno
      unfold performedWrite at h
      rw [if_neg (by simp [hno])] at h
      exact nomatch h
    simp [h, hfire]
  · next h => rw [h]; split <;> simp [*]

theorem acceptWrite_rest (cfg : Options) (o : Observed) (s : Responder) :
    (s.acceptWrite cfg o).readLog = s.readLog ∧ (s.acceptWrite cfg o).readSeen = s.readSeen ∧
      (s.acceptWrite cfg o).r = s.r ∧ (s.acceptWrite cfg o).awready = s.awready ∧
      (s.acceptWrite cfg o).wready = s.wready ∧ (s.acceptWrite cfg o).arready = s.arready := by
  unfold acceptWrite
  split
  · exact ⟨rfl, rfl, rfl, rfl, rfl, rfl⟩
  · split <;> exact ⟨rfl, rfl, rfl, rfl, rfl, rfl⟩

theorem acceptRead_readLog (o : Observed) (s : Responder) :
    (s.acceptRead cfg o).readLog = s.readLog ++ (s.performedRead o).toList := by
  unfold acceptRead
  split
  · next h => rw [h]; rfl
  · next h => rw [h]; split <;> simp

theorem acceptRead_r (o : Observed) (s : Responder) : (s.acceptRead cfg o).r = { s.r with
      pending := s.r.pending ++ ((s.performedRead o).map fun addr => (s.nextReadResponse cfg addr).1).toList } := by
  unfold acceptRead
  split
  · next h => rw [h]; rfl
  · next h => rw [h]; split <;> simp

theorem acceptRead_readSeen (o : Observed) (s : Responder) : (s.acceptRead cfg o).readSeen =
    (s.readFire o && (s.readSeen || (s.performedRead o).isSome)) := by
  unfold acceptRead
  split
  · next h =>
    have hfire : s.readFire o = true := by
      by_contra hno
      unfold performedRead at h
      rw [if_neg (by simp [hno])] at h
      exact nomatch h
    simp [h, hfire]
  · next h => rw [h]; split <;> simp [*]

theorem acceptRead_rest (cfg : Options) (o : Observed) (s : Responder) :
    (s.acceptRead cfg o).writeLog = s.writeLog ∧ (s.acceptRead cfg o).memory = s.memory ∧
      (s.acceptRead cfg o).writeSeen = s.writeSeen ∧ (s.acceptRead cfg o).b = s.b ∧
      (s.acceptRead cfg o).awready = s.awready ∧ (s.acceptRead cfg o).wready = s.wready ∧
      (s.acceptRead cfg o).arready = s.arready := by
  unfold acceptRead
  split
  · exact ⟨rfl, rfl, rfl, rfl, rfl, rfl, rfl⟩
  · split <;> exact ⟨rfl, rfl, rfl, rfl, rfl, rfl, rfl⟩

theorem performedRead_acceptWrite (cfg : Options) (o : Observed) (s : Responder) :
    (s.acceptWrite cfg o).performedRead o = s.performedRead o := by
  obtain ⟨-, hseen, -, -, -, har⟩ := acceptWrite_rest cfg o s
  unfold performedRead readFire
  rw [hseen, har]

theorem readFire_acceptWrite (o : Observed) (s : Responder) : (s.acceptWrite cfg o).readFire o = s.readFire o := by
  obtain ⟨-, -, -, -, -, har⟩ := acceptWrite_rest cfg o s
  unfold readFire
  rw [har]

theorem lowPhase_b (o : Observed) (s : Responder) : (s.lowPhase cfg o).b = (({ s.b with pending :=
          s.b.pending ++ ((s.performedWrite o).map fun _ => (s.nextWriteResp cfg).1).toList } : Responding Nat).present
      (!cfg.waitForWriteReady || isHigh o.bready)).arm cfg.writeHoldCycles (isHigh o.bready) := by
  obtain ⟨-, -, -, hb, -⟩ := acceptRead_rest cfg o (s.acceptWrite cfg o)
  rw [← acceptWrite_b, ← hb]
  rfl

theorem lowPhase_r (o : Observed) (s : Responder) : (s.lowPhase cfg o).r = (({ s.r with pending := s.r.pending ++
          ((s.performedRead o).map fun addr => ((s.acceptWrite cfg o).nextReadResponse cfg addr).1).toList } :
        Responding (Nat × Nat)).present
      (!cfg.waitForReadReady || isHigh o.rready)).arm cfg.readHoldCycles (isHigh o.rready) := by
  obtain ⟨-, -, hr, -⟩ := acceptWrite_rest cfg o s
  rw [← hr, ← performedRead_acceptWrite cfg, ← acceptRead_r]
  rfl

theorem lowPhase_eq (o : Observed) (s : Responder) (paused : Bool) :
    s.onTimeStep cfg (some 0) o paused = .ok { s.lowPhase cfg o with prevClk := 0 } := by
  unfold onTimeStep
  simp
  rfl

/-- A rising edge changes READY, what strict mode remembers, and the responses on the lines. -/
theorem risingEdge_ok {o : Observed} {paused : Bool} {s s' : Responder} (hclk : s.prevClk = 0)
    (h : s.onTimeStep cfg (some 1) o paused = .ok s') :
    ∃ aw w ar u v x, s' = { s with
      awready := aw, wready := w, arready := ar, strictAw := u, strictW := v, strictAr := x
      b := s.b.retire, r := s.r.retire, prevClk := 1 } := by
  unfold onTimeStep risingEdge at h
  simp only [hclk, one_ne_zero, if_false, and_self, if_true] at h
  by_cases hstrict : cfg.strict = true
  · cases hcheck : s.checkChannelStability o with
    | error err =>
      rw [hstrict, hcheck] at h
      exact nomatch h
    | ok u =>
      rw [hstrict, hcheck] at h
      cases hready : cfg.alwaysReady <;> rw [hready] at h <;>
        exact ⟨_, _, _, _, _, _, (Except.ok.inj h).symm⟩
  · have hno : cfg.strict = false := Bool.not_eq_true _ ▸ hstrict
    rw [hno] at h
    cases hready : cfg.alwaysReady <;> rw [hready] at h <;>
      exact ⟨_, _, _, _, _, _, (Except.ok.inj h).symm⟩

end Responder

/-! ## Performing what is transferred -/

/-- What holds between any two events. -/
structure Invariant (cfg : Options) (memory : Nat → Option Nat) (s : Responder) (m : Monitor) : Prop where
  paired : m.aw.length = m.w.length
  writes : Accepting s.writeFire Observed.write s.writeSeen m.writeGap m.last s.writeLog (m.aw.zip m.w)
  reads : Accepting s.readFire Observed.araddr s.readSeen m.readGap m.last s.readLog m.ar
  memory : s.memory = s.writeLog.foldl (store cfg) memory
  heldAw : ∀ l, m.last = some l → isHigh l.awvalid = true → m.heldAw = some l
  heldW : ∀ l, m.last = some l → isHigh l.wvalid = true → m.heldW = some l
  heldAr : ∀ l, m.last = some l → isHigh l.arvalid = true → m.heldAr = some l
  b : s.b.Sound
  r : s.r.Sound
  writeResponses : m.writeResponses.length = s.writeLog.length ∧ m.bs ++ s.b.outstanding = m.writeResponses
  readResponses : m.readResponses.length = s.readLog.length ∧ m.rs ++ s.r.outstanding = m.readResponses

namespace Invariant

variable {cfg : Options} {memory : Nat → Option Nat} {s s' : Responder} {m : Monitor}

theorem start (clk : Option Nat) (aw w ar : Option Nat) :
    Invariant cfg memory (Responder.initial cfg memory clk aw w ar) .start where
  paired := rfl
  writes := Or.inl ⟨rfl, fun _ => by contradiction, fun _ h => nomatch h⟩
  reads := Or.inl ⟨rfl, fun _ => by contradiction, fun _ h => nomatch h⟩
  memory := rfl
  heldAw := fun _ h => nomatch h
  heldW := fun _ h => nomatch h
  heldAr := fun _ h => nomatch h
  b := ⟨rfl, fun _ h => nomatch h⟩
  r := ⟨rfl, fun _ h => nomatch h⟩
  writeResponses := ⟨rfl, rfl⟩
  readResponses := ⟨rfl, rfl⟩

/-- A write that the last callback saw on offer is still on offer. -/
theorem writeFire_keeps (h : Invariant cfg memory s m) {o : Observed} (hk : Keeps m o) {l : Observed}
    (hl : m.last = some l) (hf : s.writeFire l = true) : s.writeFire o = true ∧ o.write = l.write := by
  simp only [Responder.writeFire, Bool.and_eq_true] at hf ⊢
  obtain ⟨⟨⟨haw, hw⟩, hawready⟩, hwready⟩ := hf
  obtain ⟨haw', haddr⟩ := hk.aw l (h.heldAw l hl haw)
  obtain ⟨hw', hdata, hstrb⟩ := hk.w l (h.heldW l hl hw)
  refine ⟨⟨⟨⟨haw', hw'⟩, hawready⟩, hwready⟩, ?_⟩
  unfold Observed.write
  rw [haddr, hdata, hstrb]

theorem readFire_keeps (h : Invariant cfg memory s m) {o : Observed} (hk : Keeps m o) {l : Observed}
    (hl : m.last = some l) (hf : s.readFire l = true) : s.readFire o = true ∧ o.araddr = l.araddr := by
  simp only [Responder.readFire, Bool.and_eq_true] at hf ⊢
  obtain ⟨har, harready⟩ := hf
  obtain ⟨har', haddr⟩ := hk.ar l (h.heldAr l hl har)
  exact ⟨⟨har', harready⟩, haddr⟩

theorem low (h : Invariant cfg memory s m) (hcfg : cfg.writeHoldCycles = 0 ∧ cfg.readHoldCycles = 0)
    {o : Observed} {paused : Bool} (hk : Keeps m o) (hs : Served s m (.low o paused)) :
    Invariant cfg memory { s.lowPhase cfg o with prevClk := 0 } (m.low cfg s o) := by
  obtain ⟨hread, hreadSeen, hr, haw, hw, har⟩ := Responder.acceptWrite_rest cfg o s
  obtain ⟨hwrite, hmem, hwriteSeen, hb, haw', hw', har'⟩ :=
    Responder.acceptRead_rest cfg o (s.acceptWrite cfg o)
  have hfire : Responder.writeFire { s.lowPhase cfg o with prevClk := 0 } = s.writeFire := by
    funext l
    simp only [Responder.writeFire, Responder.lowPhase, haw', haw, hw', hw]
  have hrfire : Responder.readFire { s.lowPhase cfg o with prevClk := 0 } = s.readFire := by
    funext l
    simp only [Responder.readFire, Responder.lowPhase, har', har]
  have hseen : (s.lowPhase cfg o).writeSeen = (s.writeFire o && (s.writeSeen || (s.performedWrite o).isSome)) :=
    hwriteSeen.trans (Responder.acceptWrite_writeSeen o s)
  have hrseen : (s.lowPhase cfg o).readSeen = (s.readFire o && (s.readSeen || (s.performedRead o).isSome)) := by
    refine (Responder.acceptRead_readSeen o (s.acceptWrite cfg o)).trans ?_
    rw [hreadSeen, Responder.performedRead_acceptWrite, Responder.readFire_acceptWrite]
  have hlog : (s.lowPhase cfg o).writeLog = s.writeLog ++ (s.performedWrite o).toList :=
    hwrite.trans (Responder.acceptWrite_writeLog o s)
  have hrlog : (s.lowPhase cfg o).readLog = s.readLog ++ (s.performedRead o).toList := by
    refine (Responder.acceptRead_readLog o (s.acceptWrite cfg o)).trans ?_
    rw [hread, Responder.performedRead_acceptWrite]
  have hmemory : (s.lowPhase cfg o).memory = (s.performedWrite o).toList.foldl (store cfg) s.memory :=
    hmem.trans (Responder.acceptWrite_memory o s)
  have hbsound : (s.lowPhase cfg o).b.Sound := by
    rw [Responder.lowPhase_b, hcfg.1]
    exact ((h.b.push _).present _).arm _
  have hrsound : (s.lowPhase cfg o).r.Sound := by
    rw [Responder.lowPhase_r, hcfg.2]
    exact ((h.r.push _).present _).arm _
  have hbout : (s.lowPhase cfg o).b.outstanding =
      s.b.outstanding ++ ((s.performedWrite o).map fun _ => (s.nextWriteResp cfg).1).toList := by
    rw [Responder.lowPhase_b, Responding.outstanding_arm, Responding.outstanding_present, Responding.outstanding_push]
  have hrout : (s.lowPhase cfg o).r.outstanding = s.r.outstanding ++
      ((s.performedRead o).map fun addr => ((s.acceptWrite cfg o).nextReadResponse cfg addr).1).toList := by
    rw [Responder.lowPhase_r, Responding.outstanding_arm, Responding.outstanding_present, Responding.outstanding_push]
  constructor
  case paired => exact h.paired
  case writes =>
    change Accepting _ _ (s.lowPhase cfg o).writeSeen (m.writeGap || !s.writeFire o) (some o) (s.lowPhase cfg o).writeLog
      (m.aw.zip m.w)
    rw [hfire, hseen, hlog]
    exact h.writes.low (fun l hl hf => h.writeFire_keeps hk hl hf) (fun hf => (hs.1 hf).1) (fun hf _ => (hs.1 hf).2) rfl
  case reads =>
    change Accepting _ _ (s.lowPhase cfg o).readSeen (m.readGap || !s.readFire o) (some o) (s.lowPhase cfg o).readLog
      m.ar
    rw [hrfire, hrseen, hrlog]
    exact h.reads.low (fun l hl hf => h.readFire_keeps hk hl hf) (fun hf => (hs.2 hf).1) (fun hf _ => (hs.2 hf).2) rfl
  case memory =>
    change (s.lowPhase cfg o).memory = (s.lowPhase cfg o).writeLog.foldl (store cfg) memory
    rw [hmemory, hlog, List.foldl_append, ← h.memory]
  case heldAw => exact fun l hl hv => Option.some.inj hl ▸ if_pos (Option.some.inj hl ▸ hv)
  case heldW => exact fun l hl hv => Option.some.inj hl ▸ if_pos (Option.some.inj hl ▸ hv)
  case heldAr => exact fun l hl hv => Option.some.inj hl ▸ if_pos (Option.some.inj hl ▸ hv)
  case b => exact hbsound
  case r => exact hrsound
  case writeResponses =>
    change (m.writeResponses ++ _).length = (s.lowPhase cfg o).writeLog.length ∧
      m.bs ++ (s.lowPhase cfg o).b.outstanding = m.writeResponses ++ _
    rw [hlog, hbout, List.length_append, List.length_append, ← List.append_assoc, h.writeResponses.2]
    refine ⟨?_, rfl⟩
    rw [h.writeResponses.1]
    cases s.performedWrite o <;> rfl
  case readResponses =>
    change (m.readResponses ++ _).length = (s.lowPhase cfg o).readLog.length ∧
      m.rs ++ (s.lowPhase cfg o).r.outstanding = m.readResponses ++ _
    rw [hrlog, hrout, List.length_append, List.length_append, ← List.append_assoc, h.readResponses.2]
    refine ⟨?_, rfl⟩
    rw [h.readResponses.1]
    cases s.performedRead o <;> rfl

theorem rise (h : Invariant cfg memory s m) {e after : Observed} {paused : Bool} (hclk : s.prevClk = 0)
    (hk : Keeps m e) (hs : Served s m (.rise e after paused))
    (hact : s.onTimeStep cfg (some 1) after paused = .ok s') : Invariant cfg memory s' (m.rise s e) := by
  obtain ⟨aw, w, ar, u, v, x, rfl⟩ := Responder.risingEdge_ok hclk hact
  obtain ⟨⟨l, hl, hseenAw, hseenW, hseenAr⟩, htogether, hb, hr⟩ := hs
  have hfire : (isHigh e.awvalid && isHigh s.awready) = true ↔ s.writeFire l = true := by
    constructor
    · intro ht
      have ht' := htogether ▸ ht
      simp only [Bool.and_eq_true] at ht ht'
      simp only [Responder.writeFire, Bool.and_eq_true]
      exact ⟨⟨⟨hseenAw ht.1, hseenW ht'.1⟩, ht.2⟩, ht'.2⟩
    · intro hf
      have hkept := (h.writeFire_keeps hk hl hf).1
      simp only [Responder.writeFire, Bool.and_eq_true] at hkept ⊢
      exact ⟨hkept.1.1.1, hkept.1.2⟩
  have hrfire : (isHigh e.arvalid && isHigh s.arready) = true ↔ s.readFire l = true := by
    constructor
    · intro ht
      simp only [Responder.readFire, Bool.and_eq_true] at ht ⊢
      exact ⟨hseenAr ht.1, ht.2⟩
    · exact fun hf => (h.readFire_keeps hk hl hf).1
  have hwrites := h.writes
  have hreads := h.reads
  rw [hl] at hwrites hreads
  constructor
  case paired =>
    change (if _ then _ else _ : List Nat).length = (if _ then _ else _ : List (Nat × Nat)).length
    rw [htogether]
    split
    · rw [List.length_append, List.length_append, h.paired]
      rfl
    · exact h.paired
  case writes =>
    have hzip : (m.rise s e).aw.zip (m.rise s e).w = if (isHigh e.awvalid && isHigh s.awready) = true then
        m.aw.zip m.w ++ [(e.awaddr.getD 0, e.wdata.getD 0, e.wstrb.getD 0)] else m.aw.zip m.w := by
      change (if _ then _ else _ : List Nat).zip (if _ then _ else _ : List (Nat × Nat)) = _
      rw [htogether]
      split
      · exact List.zip_append h.paired
      · rfl
    have hgap : (m.rise s e).writeGap = (m.writeGap && !(isHigh e.awvalid && isHigh s.awready)) := by
      change (m.writeGap && !(_ && _)) = _
      rw [← htogether, Bool.and_self]
    rw [hzip, hgap]
    refine hwrites.rise hfire.mp fun hf => ⟨hfire.mpr hf, ?_⟩
    obtain ⟨-, hsame⟩ := h.writeFire_keeps hk hl hf
    rcases hwrites with ⟨-, -, hno⟩ | ⟨l', y, hl', -, -, hy, -⟩
    · exact absurd ((hno l rfl).symm.trans hf) Bool.false_ne_true
    · obtain rfl := Option.some.inj hl'
      rw [← hsame, Observed.write] at hy
      obtain ⟨addr, haddr, hy⟩ := Option.bind_eq_some_iff.mp hy
      obtain ⟨data, hdata, hy⟩ := Option.bind_eq_some_iff.mp hy
      obtain ⟨strb, hstrb, -⟩ := Option.map_eq_some_iff.mp hy
      rw [← hsame, Observed.write, haddr, hdata, hstrb]
      rfl
  case reads =>
    refine hreads.rise hrfire.mp fun hf => ⟨hrfire.mpr hf, ?_⟩
    obtain ⟨-, hsame⟩ := h.readFire_keeps hk hl hf
    rcases hreads with ⟨-, -, hno⟩ | ⟨l', y, hl', -, -, hy, -⟩
    · exact absurd ((hno l rfl).symm.trans hf) Bool.false_ne_true
    · obtain rfl := Option.some.inj hl'
      rw [hsame, hy]
      rfl
  case memory => exact h.memory
  case heldAw => exact fun l h => nomatch h
  case heldW => exact fun l h => nomatch h
  case heldAr => exact fun l h => nomatch h
  case b => exact h.b.retire
  case r => exact h.r.retire
  case writeResponses =>
    refine ⟨h.writeResponses.1, ?_⟩
    exact (Responding.transfer_retire h.b hb m.bs).trans h.writeResponses.2
  case readResponses =>
    refine ⟨h.readResponses.1, ?_⟩
    exact (Responding.transfer_retire h.r hr m.rs).trans h.readResponses.2

/-- Every event. -/
theorem step (h : Invariant cfg memory s m) (hcfg : cfg.writeHoldCycles = 0 ∧ cfg.readHoldCycles = 0) {ev : Event}
    (hlegit : Legitimate s m ev) (hs : Served s m ev) (hact : act cfg s ev = .ok s') :
    Invariant cfg memory s' (m.step cfg s ev) := by
  cases ev with
  | low o paused =>
    obtain rfl := Except.ok.inj ((Responder.lowPhase_eq o s paused).symm.trans hact)
    exact h.low hcfg hlegit hs
  | rise e after paused => exact h.rise hlegit.1 hlegit.2 hs hact
  | high o paused =>
    have hclk : s.prevClk = 1 := hlegit
    have heq : s.onTimeStep cfg (some 1) o paused = .ok { s with prevClk := 1 } := by
      unfold Responder.onTimeStep
      simp [hclk]
      rfl
    obtain rfl := Except.ok.inj (heq.symm.trans hact)
    exact ⟨h.paired, h.writes, h.reads, h.memory, h.heldAw, h.heldW, h.heldAr, h.b, h.r, h.writeResponses,
      h.readResponses⟩
  | unknown o paused =>
    obtain rfl := Except.ok.inj hact
    exact h
  | queueWriteResponse resp =>
    obtain rfl := Except.ok.inj hact
    exact ⟨h.paired, h.writes, h.reads, h.memory, h.heldAw, h.heldW, h.heldAr, h.b, h.r, h.writeResponses,
      h.readResponses⟩
  | queueReadResponse data resp =>
    obtain rfl := Except.ok.inj hact
    exact ⟨h.paired, h.writes, h.reads, h.memory, h.heldAw, h.heldW, h.heldAr, h.b, h.r, h.writeResponses,
      h.readResponses⟩

end Invariant

/-- In every run of a master that the responder serves, after each rising edge the accesses performed are
the transfers, in order, and each has exactly one response, transferred or still to come. -/
theorem exact_of_run (cfg : Options) (hcfg : cfg.writeHoldCycles = 0 ∧ cfg.readHoldCycles = 0)
    (memory : Nat → Option Nat) (clk aw w ar : Option Nat) (s : Responder) (m : Monitor)
    (hrun : Run cfg Served (Responder.initial cfg memory clk aw w ar) s m) (hedge : m.last = none) :
    Exact cfg memory s m := by
  have h : Invariant cfg memory s m := by
    clear hedge
    induction hrun with
    | start => exact Invariant.start clk aw w ar
    | step _ _ hlegit hs hact ih => exact ih.step hcfg hlegit hs hact
  have hwrites := h.writes
  have hreads := h.reads
  rw [hedge] at hwrites hreads
  exact ⟨h.paired, hwrites.even, h.memory, hreads.even, h.writeResponses, h.readResponses⟩

/-! ## Address before data -/

/-- The edge finds the master's signals as the last low-phase callback has seen them. -/
def Sampled (_ : Responder) (m : Monitor) : Event → Prop
  | .rise e _ _ => m.last = some e
  | _ => True

/-- An always-ready responder of a 32-bit bus. -/
def wordOptions : Options where
  dataBytes := 4
  defaultReadValue := 0
  defaultWriteResp := 0
  defaultReadResp := 0
  writeHoldCycles := 0
  readHoldCycles := 0
  waitForWriteReady := false
  waitForReadReady := false
  alwaysReady := true
  storeWrites := true
  strict := false

/-- The master offers nothing. -/
def quiet : Observed := ⟨some 0, some 0, some 0, some 0, some 0, some 1, some 0, some 0, some 1⟩

/-- An address, without data. -/
def addressOnly : Observed := { quiet with awvalid := some 1, awaddr := some 16 }

/-- The data of a write, without its address. -/
def dataOnly : Observed := { quiet with wvalid := some 1, wdata := some 7, wstrb := some 15 }

/-- Both. -/
def addressAndData : Observed := { dataOnly with awvalid := some 1, awaddr := some 16 }

/-- A write whose address is transferred one cycle before its data is never performed. -/
theorem address_first_lost :
    ¬ ∀ (cfg : Options) (_ : cfg.writeHoldCycles = 0 ∧ cfg.readHoldCycles = 0) (memory : Nat → Option Nat)
        (clk aw w ar : Option Nat) (s : Responder) (m : Monitor),
        Run cfg Sampled (Responder.initial cfg memory clk aw w ar) s m → m.last = none → Exact cfg memory s m := by
  intro h
  have h0 : Run wordOptions Sampled (Responder.initial wordOptions (fun _ => none) (some 0) none none none) _ _ := .start
  have h1 := h0.step (.low addressOnly false) ⟨(fun _ h => nomatch h), (fun _ h => nomatch h), (fun _ h => nomatch h)⟩ trivial rfl
  have h2 := h1.step (.rise addressOnly quiet false)
    ⟨rfl, fun _ h => ⟨rfl, by rw [← Option.some.inj h]⟩, (fun _ h => nomatch h), (fun _ h => nomatch h)⟩ rfl rfl
  have h3 := h2.step (.low dataOnly false)
    ⟨(fun _ h => nomatch h), (fun _ h => nomatch h), (fun _ h => nomatch h)⟩ trivial rfl
  have h4 := h3.step (.rise dataOnly quiet false)
    ⟨rfl, (fun _ h => nomatch h), fun _ h => ⟨rfl, by rw [← Option.some.inj h]; exact ⟨rfl, rfl⟩⟩, (fun _ h => nomatch h)⟩
    rfl rfl
  exact absurd (h wordOptions ⟨rfl, rfl⟩ _ _ _ _ _ _ _ h4 rfl).writes (by decide)

/-- Address and data together are written, and answered at the same edge. -/
theorem exact_of_run_write : ∃ s m, Run wordOptions Served
      (Responder.initial wordOptions (fun _ => none) (some 0) none none none) s m ∧
    m.aw = [16] ∧ m.bs = [0] ∧ Exact wordOptions (fun _ => none) s m := by
  have h0 : Run wordOptions Served (Responder.initial wordOptions (fun _ => none) (some 0) none none none) _ _ := .start
  have h1 := h0.step (.low addressAndData false) ⟨(fun _ h => nomatch h), (fun _ h => nomatch h), (fun _ h => nomatch h)⟩
    ⟨fun _ => ⟨rfl, rfl⟩, fun h => absurd h (by decide)⟩ rfl
  have h2 := h1.step (.rise addressAndData quiet false)
    ⟨rfl, fun _ h => ⟨rfl, by rw [← Option.some.inj h]⟩,
      fun _ h => ⟨rfl, by rw [← Option.some.inj h]; exact ⟨rfl, rfl⟩⟩, (fun _ h => nomatch h)⟩
    ⟨⟨_, rfl, fun _ => rfl, fun _ => rfl, fun h => absurd h (by decide)⟩, rfl, fun _ => by decide,
      fun h => absurd h (by decide)⟩ rfl
  exact ⟨_, _, h2, rfl, rfl, exact_of_run wordOptions ⟨rfl, rfl⟩ _ _ _ _ _ _ _ h2 rfl⟩

end Veriforge.AxiLite

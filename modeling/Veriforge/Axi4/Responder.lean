import Veriforge.AxiLite.Responder

/-! # The AXI4 responder

`AXI4Responder._on_time_step`, one function for each of its parts. A signal is what `_read_known` makes
of it: a number, or nothing when it is unknown or missing. The jitter and the stalls of the latency model
are drawn from a generator that may say anything. -/

namespace Veriforge.Axi4

open AxiLite (isHigh applyWriteStrobes)

/-- What the responder reads of the master. -/
structure Observed where
  awvalid : Option Nat
  awaddr : Option Nat
  awlen : Option Nat
  awsize : Option Nat
  awid : Option Nat
  wvalid : Option Nat
  wdata : Option Nat
  wstrb : Option Nat
  wlast : Option Nat
  bready : Option Nat
  arvalid : Option Nat
  araddr : Option Nat
  arlen : Option Nat
  arsize : Option Nat
  arid : Option Nat
  rready : Option Nat
  deriving DecidableEq

/-- `random.Random`: `randint`, and whether `random()` is below the share of stalled cycles that a
bandwidth of so many percent leaves. -/
structure Random (ρ : Type) where
  randint : ρ → Nat → Nat → Nat × ρ
  stalls : ρ → Nat → Bool × ρ

/-- The options of the responder; `dataBytes` is the width of the data bus in bytes. -/
structure Options where
  dataBytes : Nat
  memoryDepth : Option Nat
  defaultReadValue : Nat
  defaultWriteResp : Nat
  defaultReadResp : Nat
  alwaysReady : Bool
  storeWrites : Bool
  strict : Bool
  hasWlast : Bool
  rdLatencyCycles : Nat
  wrLatencyCycles : Nat
  maxBwPercent : Nat
  wrMaxBwPercent : Nat

/-- What the pause attributes say when they are asked. -/
structure Pauses where
  pause : Bool
  aw : Bool
  w : Bool
  ar : Bool
  b : Bool
  r : Bool

/-- A burst, with its size as a power of two. -/
structure Burst where
  addr : Nat
  beats : Nat
  size : Nat
  id : Nat
  deriving DecidableEq

/-- The address of a beat. -/
def Burst.beatAddr (burst : Burst) (i : Nat) : Nat := burst.addr + i * 1 <<< burst.size

/-- An accepted AW that awaits W beats. -/
structure InFlight where
  burst : Burst
  nextAddr : Nat

/-- The lines of the R channel. -/
structure RLines where
  data : Nat
  resp : Nat
  id : Nat
  last : Bool
  deriving DecidableEq

/-- `AXI4ProtocolError` and the `ValueError` of an address out of range, with the values of the message. -/
inductive Fault where
  | wlastEarly (beat expected : Nat)
  | wlastMissing (beat expected : Nat)
  | outOfRange (addr limit : Nat)
  deriving DecidableEq

/-- The write channels; READY, `bvalid` and `bLines` are lines. -/
structure WriteSide where
  awready : Option Nat
  wready : Option Nat
  writeLog : List (Nat × Nat × Nat)
  writeBurstLog : List (Nat × Nat × Nat)
  awPending : Option InFlight
  wBeatsDone : Nat
  awSeen : Bool
  wSeen : Bool
  pendingB : List (Nat × Nat)
  nextWriteResp : Option Nat
  wrPrimed : Bool
  wrLastArrivalCycle : Option Nat
  bWaiting : Option (Nat × Nat)
  bWaitTargetCycle : Nat
  pauseDraw : Option (Nat × Bool)
  bActive : Bool
  bReadySampled : Bool
  bvalid : Bool
  bLines : Nat × Nat

/-- The read channels; READY, `rvalid` and `rLines` are lines. -/
structure ReadSide where
  arready : Option Nat
  readLog : List Nat
  readBurstLog : List (Nat × Nat × Nat)
  arPending : List Burst
  arSeen : Bool
  rdPrimed : Bool
  rLastArrivalCycle : Option Nat
  rWaiting : Option Burst
  rWaitTargetCycle : Nat
  pauseDraw : Option (Nat × Bool)
  rActive : Bool
  rBeats : List (Nat × Nat × Nat)
  rNeedsPresent : Bool
  rReadySampled : Bool
  rvalid : Bool
  rLines : RLines

/-- The responder. -/
structure Responder (ρ : Type) where
  memory : Nat → Option Nat
  rng : ρ
  cycleCount : Nat
  prevClk : Nat
  w : WriteSide
  r : ReadSide

/-! ## Latency, bandwidth and pauses -/

section Draws

variable {ρ : Type} (rnd : Random ρ)

/-- `_draw_latency_cycles`. -/
def drawLatencyCycles (rng : ρ) (meanCycles : Nat) : Nat × ρ :=
  if meanCycles ≤ 1 then (0, rng)
  else
    let half := max 1 (meanCycles / 2)
    let drawn := rnd.randint rng (max 1 (meanCycles - half)) (meanCycles + half)
    (drawn.1 - 1, drawn.2)

/-- The loop of `_draw_bw_stall_cycles`, with the turns left. -/
def countStalls (bwPercent : Nat) : Nat → Nat → ρ → Nat × ρ
  | 0, stall, rng => (stall, rng)
  | fuel + 1, stall, rng =>
      let drawn := rnd.stalls rng bwPercent
      if drawn.1 then countStalls bwPercent fuel (stall + 1) drawn.2 else (stall, drawn.2)

/-- `_draw_bw_stall_cycles`. -/
def drawBwStallCycles (rng : ρ) (bwPercent : Nat) : Nat × ρ :=
  if 100 ≤ bwPercent then (0, rng) else countStalls rnd bwPercent 100000 0 rng

/-- An idle pipeline pays the latency, a primed one the bandwidth. -/
def drawWait (rng : ρ) (primed : Bool) (meanCycles bwPercent : Nat) : Nat × ρ :=
  if primed then drawBwStallCycles rnd rng bwPercent else drawLatencyCycles rnd rng meanCycles

end Draws

/-- `_paused_this_cycle`: the draw of this cycle, or a new one. -/
def pausedThisCycle (cycle : Nat) (drawn : Option (Nat × Bool)) (answer : Bool) : Nat × Bool :=
  match drawn with
  | some (c, paused) => if c = cycle then (c, paused) else (cycle, answer)
  | none => (cycle, answer)

/-- A pipeline whose last arrival is more than a cycle ago pays the latency again. -/
def stillPrimed (cycle : Nat) (lastArrival : Option Nat) (primed : Bool) : Bool :=
  match lastArrival with
  | some c => if 1 < cycle - c then false else primed
  | none => primed

/-! ## Requests -/

section Requests

variable (cfg : Options)

/-- `_check_addr_in_range`. -/
def checkAddrInRange (addr : Nat) : Except Fault Unit :=
  match cfg.memoryDepth with
  | none => .ok ()
  | some depth =>
      if addr < depth * cfg.dataBytes then .ok () else .error (.outOfRange addr (depth * cfg.dataBytes))

/-- The number of bytes of the bus as a power of two, which stands in for an unknown size. -/
def busSize : Nat := if cfg.dataBytes = 0 then 0 else cfg.dataBytes.log2

/-- A burst as its address channel describes it. -/
def burstOf (addr : Nat) (len size id : Option Nat) : Burst :=
  ⟨addr, len.getD 0 + 1, size.getD (busSize cfg), id.getD 0⟩

/-- A write beat, as `store_writes` has it. -/
def store (memory : Nat → Option Nat) (beat : Nat × Nat × Nat) : Nat → Option Nat :=
  if cfg.storeWrites then
    Function.update memory beat.1
      (some (applyWriteStrobes ((memory beat.1).getD 0) beat.2.1 beat.2.2 cfg.dataBytes))
  else memory

/-- The strobes of a beat; without WSTRB every byte is written. -/
def strobe (o : Observed) : Nat := o.wstrb.getD ((1 <<< cfg.dataBytes) - 1)

/-- In strict mode WLAST comes with the last beat. -/
def checkWlast (o : Observed) (done expected : Nat) : Except Fault Unit :=
  if cfg.strict && cfg.hasWlast then
    if isHigh o.wlast && decide (done < expected) then .error (.wlastEarly done expected)
    else if decide (expected ≤ done) && !isHigh o.wlast then .error (.wlastMissing done expected)
    else .ok ()
  else .ok ()

/-- A beat of a read burst: the word of the memory, masked to the bus, or the default. -/
def readBeat (memory : Nat → Option Nat) (burst : Burst) (i : Nat) : Nat × Nat × Nat :=
  ((memory (burst.beatAddr i)).getD cfg.defaultReadValue &&& ((1 <<< (cfg.dataBytes * 8)) - 1), cfg.defaultReadResp,
    burst.id)

end Requests

/-! ## Writes -/

namespace WriteSide

variable (cfg : Options) (cycle : Nat)

def awFire (w : WriteSide) (o : Observed) : Bool := isHigh o.awvalid && isHigh w.awready
def wFire (w : WriteSide) (o : Observed) : Bool := isHigh o.wvalid && isHigh w.wready

/-- BREADY as the low phase has it, for the next rising edge. -/
def sampleReady (o : Observed) (w : WriteSide) : WriteSide := { w with bReadySampled := isHigh o.bready }

/-- A new low phase, at a falling edge. -/
def clearSeen (prevClk : Nat) (w : WriteSide) : WriteSide :=
  if prevClk = 1 then { w with awSeen := false, wSeen := false } else w

def acceptAw (o : Observed) (w : WriteSide) : WriteSide :=
  if w.awPending.isNone && w.awFire o then
    if w.awSeen then w
    else
      match o.awaddr with
      | none => { w with awSeen := true }
      | some addr =>
          let burst := burstOf cfg addr o.awlen o.awsize o.awid
          { w with
            awPending := some ⟨burst, addr⟩
            wBeatsDone := 0
            writeBurstLog := w.writeBurstLog ++ [(addr, burst.beats, burst.id)]
            awSeen := true }
  else if w.awFire o then w
  else { w with awSeen := false }

/-- The last beat of a burst has come: its response is queued. -/
def completeBurst (burst : Burst) (w : WriteSide) : WriteSide :=
  { w with
    wrPrimed := stillPrimed cycle w.wrLastArrivalCycle w.wrPrimed
    wrLastArrivalCycle := some cycle
    nextWriteResp := none
    pendingB := w.pendingB ++ [(w.nextWriteResp.getD cfg.defaultWriteResp, burst.id)]
    awPending := none
    wBeatsDone := 0 }

/-- A W beat of the burst in flight. -/
def takeBeat (data strb : Nat) (flight : InFlight) (w : WriteSide) : WriteSide :=
  let w := { w with
    writeLog := w.writeLog ++ [(flight.nextAddr, data, strb)]
    wBeatsDone := w.wBeatsDone + 1
    awPending := some { flight with nextAddr := flight.nextAddr + 1 <<< flight.burst.size }
    wSeen := true }
  if flight.burst.beats ≤ w.wBeatsDone then w.completeBurst cfg cycle flight.burst else w

def acceptW (o : Observed) (memory : Nat → Option Nat) (w : WriteSide) :
    Except Fault ((Nat → Option Nat) × WriteSide) :=
  match w.awPending with
  | some flight =>
      if w.wFire o then
        if w.wSeen then .ok (memory, w)
        else
          match o.wdata with
          | none => .ok (memory, { w with wSeen := true })
          | some data => do
              checkAddrInRange cfg flight.nextAddr
              checkWlast cfg o (w.wBeatsDone + 1) flight.burst.beats
              return (store cfg memory (flight.nextAddr, data, strobe cfg o),
                w.takeBeat cfg cycle data (strobe cfg o) flight)
      else .ok (memory, { w with wSeen := false })
  | none => if w.wFire o then .ok (memory, w) else .ok (memory, { w with wSeen := false })

/-- The next completed write waits out its latency. -/
def waitB {ρ : Type} (rnd : Random ρ) (rng : ρ) (w : WriteSide) : WriteSide × ρ :=
  match w.pendingB with
  | [] => (w, rng)
  | next :: rest =>
      if !w.bActive && w.bWaiting.isNone then
        let wait := drawWait rnd rng w.wrPrimed cfg.wrLatencyCycles cfg.wrMaxBwPercent
        ({ w with
            bWaiting := some next, pendingB := rest, wrPrimed := true, bWaitTargetCycle := cycle + wait.1 }, wait.2)
      else (w, rng)

/-- It is answered when its time has come, unless B is paused in this cycle. -/
def driveB (paused : Bool) (w : WriteSide) : WriteSide :=
  match w.bWaiting with
  | none => w
  | some response =>
      if !w.bActive && decide (w.bWaitTargetCycle ≤ cycle) then
        let draw := pausedThisCycle cycle w.pauseDraw paused
        if draw.2 then { w with pauseDraw := some draw }
        else { w with pauseDraw := some draw, bWaiting := none, bLines := response, bvalid := true, bActive := true }
      else w

/-- A B response is retired at the edge. -/
def retire (w : WriteSide) : WriteSide :=
  if w.bActive && w.bReadySampled then { w with bvalid := false, bActive := false } else w

end WriteSide

/-! ## Reads -/

/-- The lines for the first of the beats that are left. -/
def linesOf (beat : Nat × Nat × Nat) (rest : List (Nat × Nat × Nat)) : RLines :=
  ⟨beat.1, beat.2.1, beat.2.2, rest.isEmpty⟩

namespace ReadSide

variable (cfg : Options) (cycle : Nat)

def arFire (r : ReadSide) (o : Observed) : Bool := isHigh o.arvalid && isHigh r.arready

/-- RREADY as the low phase has it, for the next rising edge. -/
def sampleReady (o : Observed) (r : ReadSide) : ReadSide := { r with rReadySampled := isHigh o.rready }

/-- After a beat has been retired, the next one is presented, or the burst is over. -/
def presentNext (r : ReadSide) : ReadSide :=
  if r.rNeedsPresent then
    match r.rBeats with
    | beat :: rest => { r with rNeedsPresent := false, rLines := linesOf beat rest, rvalid := true }
    | [] =>
        { r with
          rNeedsPresent := false, rvalid := false, rLines := { r.rLines with last := false }, rActive := false }
  else r

/-- A new low phase, at a falling edge. -/
def clearSeen (prevClk : Nat) (r : ReadSide) : ReadSide := if prevClk = 1 then { r with arSeen := false } else r

def acceptAr (o : Observed) (r : ReadSide) : ReadSide :=
  if r.arFire o then
    if r.arSeen then r
    else
      match o.araddr with
      | none => { r with arSeen := true }
      | some addr =>
          let burst := burstOf cfg addr o.arlen o.arsize o.arid
          { r with
            arPending := r.arPending ++ [burst]
            readBurstLog := r.readBurstLog ++ [(addr, burst.beats, burst.id)]
            rdPrimed := stillPrimed cycle r.rLastArrivalCycle r.rdPrimed
            rLastArrivalCycle := some cycle
            arSeen := true }
  else { r with arSeen := false }

/-- The next read burst waits out its latency. -/
def waitR {ρ : Type} (rnd : Random ρ) (rng : ρ) (r : ReadSide) : ReadSide × ρ :=
  match r.arPending with
  | [] => (r, rng)
  | next :: rest =>
      if !r.rActive && r.rWaiting.isNone then
        let wait := drawWait rnd rng r.rdPrimed cfg.rdLatencyCycles cfg.maxBwPercent
        ({ r with
            rWaiting := some next, arPending := rest, rdPrimed := true, rWaitTargetCycle := cycle + wait.1 }, wait.2)
      else (r, rng)

/-- The burst that starts now, if any. -/
def starting (paused : Bool) (r : ReadSide) : Option Burst :=
  if !r.rActive && decide (r.rWaitTargetCycle ≤ cycle) && !(pausedThisCycle cycle r.pauseDraw paused).2 then r.rWaiting
  else none

/-- All beats of a burst are read when it starts, and its first beat is driven. -/
def start (memory : Nat → Option Nat) (burst : Burst) (r : ReadSide) : ReadSide :=
  let beats := r.rBeats ++ (List.range burst.beats).map (readBeat cfg memory burst)
  { r with
    rWaiting := none
    readLog := r.readLog ++ (List.range burst.beats).map burst.beatAddr
    rBeats := beats
    rActive := true
    rLines := linesOf (beats.headD (0, 0, 0)) beats.tail
    rvalid := true }

def driveR (memory : Nat → Option Nat) (paused : Bool) (r : ReadSide) : Except Fault ReadSide :=
  -- the pause of this cycle is drawn once the time of the burst has come
  let asked := r.rWaiting.isSome && !r.rActive && decide (r.rWaitTargetCycle ≤ cycle)
  let drawn := if asked then some (pausedThisCycle cycle r.pauseDraw paused) else r.pauseDraw
  match r.starting cycle paused with
  | none => .ok { r with pauseDraw := drawn }
  | some burst => do
      (List.range burst.beats).forM fun i => checkAddrInRange cfg (burst.beatAddr i)
      return { r.start cfg memory burst with pauseDraw := drawn }

/-- An R beat is retired at the edge; the next one is presented in the next low phase. -/
def retire (r : ReadSide) : ReadSide :=
  if r.rActive && r.rReadySampled then { r with rBeats := r.rBeats.tail, rNeedsPresent := true } else r

end ReadSide

/-! ## The callback -/

namespace Responder

variable {ρ : Type} (rnd : Random ρ) (cfg : Options)

/-- The low phase up to the response channels. -/
def acceptAll (o : Observed) (s : Responder ρ) : Except Fault (Responder ρ) := do
  let (memory, w) ← (((s.w.sampleReady o).clearSeen s.prevClk).acceptAw cfg o).acceptW cfg s.cycleCount o s.memory
  let r := (((s.r.sampleReady o).presentNext).clearSeen s.prevClk).acceptAr cfg s.cycleCount o
  return { s with memory := memory, w := w, r := r }

/-- The responses that wait. -/
def wait (s : Responder ρ) : Responder ρ :=
  let (w, rng) := s.w.waitB cfg s.cycleCount rnd s.rng
  let (r, rng) := s.r.waitR cfg s.cycleCount rnd rng
  { s with w := w, r := r, rng := rng }

/-- The part of `_on_time_step` for a low clock. -/
def lowPhase (o : Observed) (p : Pauses) (s : Responder ρ) : Except Fault (Responder ρ) := do
  let s ← s.acceptAll cfg o
  let s := s.wait rnd cfg
  let r ← s.r.driveR cfg s.cycleCount s.memory p.r
  return { s with w := s.w.driveB s.cycleCount p.b, r := r }

/-- READY for the next cycle. -/
def readyLine (paused : Bool) : Option Nat := some (if paused then 0 else 1)

/-- The part of `_on_time_step` for a rising edge. -/
def risingEdge (p : Pauses) (s : Responder ρ) : Responder ρ :=
  let s := { s with cycleCount := s.cycleCount + 1 }
  let s := if cfg.alwaysReady then
      { s with
        w := { s.w with awready := readyLine (p.pause || p.aw), wready := readyLine (p.pause || p.w) }
        r := { s.r with arready := readyLine (p.pause || p.ar) } }
    else s
  { s with w := s.w.retire, r := s.r.retire }

/-- `_on_time_step`. -/
def onTimeStep (clk : Option Nat) (o : Observed) (p : Pauses) (s : Responder ρ) : Except Fault (Responder ρ) :=
  match clk with
  | none => return s
  | some clk => do
      let low ← if clk = 0 then s.lowPhase rnd cfg o p else pure s
      let s := if s.prevClk = 0 ∧ clk = 1 then low.risingEdge cfg p else low
      return { s with prevClk := clk }

/-- `__init__`; with `always_ready` the READY lines are driven high. -/
def initial (memory : Nat → Option Nat) (rng : ρ) (clk : Option Nat) (awready wready arready : Option Nat) :
    Responder ρ where
  memory := memory
  rng := rng
  cycleCount := 0
  prevClk := clk.getD 0
  w :=
    { awready := if cfg.alwaysReady then some 1 else awready
      wready := if cfg.alwaysReady then some 1 else wready
      writeLog := [], writeBurstLog := [], awPending := none, wBeatsDone := 0, awSeen := false, wSeen := false
      pendingB := [], nextWriteResp := none, wrPrimed := false, wrLastArrivalCycle := none
      bWaiting := none, bWaitTargetCycle := 0, pauseDraw := none
      bActive := false, bReadySampled := false, bvalid := false, bLines := (0, 0) }
  r :=
    { arready := if cfg.alwaysReady then some 1 else arready
      readLog := [], readBurstLog := [], arPending := [], arSeen := false
      rdPrimed := false, rLastArrivalCycle := none
      rWaiting := none, rWaitTargetCycle := 0, pauseDraw := none
      rActive := false, rBeats := [], rNeedsPresent := false, rReadySampled := false
      rvalid := false, rLines := ⟨0, 0, 0, false⟩ }

end Responder

end Veriforge.Axi4

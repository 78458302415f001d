import Mathlib.Data.Nat.Bitwise

/-! # The AXI4-Lite responder

`AXILiteResponder._on_time_step` and what it reads and writes. A signal is what `_read_known` makes of
it: a number, or nothing when a bit of it is unknown. -/

namespace Veriforge.AxiLite

/-- What the responder reads of the master. -/
structure Observed where
  awvalid : Option Nat
  awaddr : Option Nat
  wvalid : Option Nat
  wdata : Option Nat
  wstrb : Option Nat
  bready : Option Nat
  arvalid : Option Nat
  araddr : Option Nat
  rready : Option Nat
  deriving DecidableEq

/-- The write on offer, when all of it is known. -/
def Observed.write (o : Observed) : Option (Nat × Nat × Nat) :=
  o.awaddr.bind fun addr => o.wdata.bind fun data => o.wstrb.map fun strb => (addr, data, strb)

/-- `_is_high`. -/
def isHigh (signal : Option Nat) : Bool := signal == some 1

/-- The options of the responder; `dataBytes` is the width of WDATA in bytes. -/
structure Options where
  dataBytes : Nat
  defaultReadValue : Nat
  defaultWriteResp : Nat
  defaultReadResp : Nat
  writeHoldCycles : Nat
  readHoldCycles : Nat
  waitForWriteReady : Bool
  waitForReadReady : Bool
  alwaysReady : Bool
  storeWrites : Bool
  strict : Bool

/-- A response channel: `valid` and `payload` are its lines. -/
structure Responding (ρ : Type) where
  pending : List ρ
  active : Bool
  clearAfterEdges : Option Nat
  valid : Bool
  payload : ρ

/-- What strict mode remembers of a channel: VALID was seen without READY, with this payload. -/
structure Unacked (α : Type) where
  unacked : Bool
  snapshot : α

/-- The responder. Its memory is keyed by the address of the access. -/
structure Responder where
  memory : Nat → Option Nat
  writeLog : List (Nat × Nat × Nat)
  readLog : List Nat
  queuedWriteResponses : List Nat
  queuedReadResponses : List (Nat × Nat)
  b : Responding Nat
  r : Responding (Nat × Nat)
  writeSeen : Bool
  readSeen : Bool
  prevClk : Nat
  awready : Option Nat
  wready : Option Nat
  arready : Option Nat
  strictAw : Unacked Nat
  strictW : Unacked (Nat × Nat)
  strictAr : Unacked Nat

/-- `AXILiteProtocolError`, with the values of its message. -/
inductive ProtocolError where
  | deasserted (signal : String)
  | changed (signal : String) (before after : Nat)
  deriving DecidableEq

/-- The bits of `value` outside `mask`. -/
def clearBits (value mask : Nat) : Nat := value ^^^ (value &&& mask)

/-- `_apply_write_strobes`. -/
def applyWriteStrobes (current data strobe byteCount : Nat) : Nat :=
  ((List.range byteCount).foldl (fun updated i =>
    if strobe &&& (1 <<< i) ≠ 0 then
      clearBits updated (0xFF <<< (i * 8)) ||| (((data >>> (i * 8)) &&& 0xFF) <<< (i * 8))
    else updated) current) &&& ((1 <<< (byteCount * 8)) - 1)

/-- A write, as `store_writes` has it. -/
def store (cfg : Options) (memory : Nat → Option Nat) (access : Nat × Nat × Nat) : Nat → Option Nat :=
  if cfg.storeWrites then
    Function.update memory access.1
      (some (applyWriteStrobes ((memory access.1).getD 0) access.2.1 access.2.2 cfg.dataBytes))
  else memory

namespace Responding

variable {ρ : Type}

/-- A response is put on the lines. -/
def present (c : Responding ρ) (allowed : Bool) : Responding ρ :=
  match c.pending with
  | [] => c
  | next :: rest =>
      if !c.active && allowed then
        { pending := rest, active := true, clearAfterEdges := none, valid := true, payload := next }
      else c

/-- READY is high: the response ends some edges later. -/
def arm (c : Responding ρ) (hold : Nat) (ready : Bool) : Responding ρ :=
  if c.active && ready && c.clearAfterEdges.isNone then { c with clearAfterEdges := some (hold + 1) } else c

/-- An edge. -/
def retire (c : Responding ρ) : Responding ρ :=
  match c.clearAfterEdges with
  | none => c
  | some edges =>
      if edges - 1 = 0 then { c with valid := false, active := false, clearAfterEdges := none }
      else { c with clearAfterEdges := some (edges - 1) }

end Responding

namespace Responder

variable (cfg : Options)

/-- `_next_write_resp`, and the queue that it leaves. -/
def nextWriteResp (s : Responder) : Nat × List Nat :=
  match s.queuedWriteResponses with
  | [] => (cfg.defaultWriteResp, [])
  | resp :: rest => (resp, rest)

/-- `_next_read_response`, and the queue that it leaves. -/
def nextReadResponse (s : Responder) (addr : Nat) : (Nat × Nat) × List (Nat × Nat) :=
  match s.queuedReadResponses with
  | [] =>
      (((s.memory addr).getD cfg.defaultReadValue &&& ((1 <<< (cfg.dataBytes * 8)) - 1), cfg.defaultReadResp), [])
  | response :: rest => (response, rest)

/-- Both channels of a write say VALID and READY. -/
def writeFire (s : Responder) (o : Observed) : Bool :=
  isHigh o.awvalid && isHigh o.wvalid && isHigh s.awready && isHigh s.wready

def readFire (s : Responder) (o : Observed) : Bool := isHigh o.arvalid && isHigh s.arready

/-- The write that a low-phase callback performs. -/
def performedWrite (s : Responder) (o : Observed) : Option (Nat × Nat × Nat) :=
  if s.writeFire o && !s.writeSeen then o.write else none

/-- The read that it performs. -/
def performedRead (s : Responder) (o : Observed) : Option Nat :=
  if s.readFire o && !s.readSeen then o.araddr else none

def acceptWrite (o : Observed) (s : Responder) : Responder :=
  match s.performedWrite o with
  | some access =>
      { s with
        writeLog := s.writeLog ++ [access]
        memory := store cfg s.memory access
        queuedWriteResponses := (s.nextWriteResp cfg).2
        b := { s.b with pending := s.b.pending ++ [(s.nextWriteResp cfg).1] }
        writeSeen := true }
  | none => if s.writeFire o then s else { s with writeSeen := false }

def acceptRead (o : Observed) (s : Responder) : Responder :=
  match s.performedRead o with
  | some addr =>
      { s with
        readLog := s.readLog ++ [addr]
        queuedReadResponses := (s.nextReadResponse cfg addr).2
        r := { s.r with pending := s.r.pending ++ [(s.nextReadResponse cfg addr).1] }
        readSeen := true }
  | none => if s.readFire o then s else { s with readSeen := false }

/-- The part of `_on_time_step` for a low clock. -/
def lowPhase (o : Observed) (s : Responder) : Responder :=
  let s := acceptRead cfg o (acceptWrite cfg o s)
  { s with
    b := (s.b.present (!cfg.waitForWriteReady || isHigh o.bready)).arm cfg.writeHoldCycles (isHigh o.bready)
    r := (s.r.present (!cfg.waitForReadReady || isHigh o.rready)).arm cfg.readHoldCycles (isHigh o.rready) }

/-- `_check_channel_stability`. -/
def checkChannelStability (o : Observed) (s : Responder) : Except ProtocolError Unit := do
  if s.strictAw.unacked then
    if o.awvalid = none ∨ o.awvalid = some 0 then throw (.deasserted "AWVALID")
    if o.awaddr.getD 0 ≠ s.strictAw.snapshot then
      throw (.changed "AWADDR" s.strictAw.snapshot (o.awaddr.getD 0))
  if s.strictW.unacked then
    if o.wvalid = none ∨ o.wvalid = some 0 then throw (.deasserted "WVALID")
    if o.wdata.getD 0 ≠ s.strictW.snapshot.1 then
      throw (.changed "WDATA" s.strictW.snapshot.1 (o.wdata.getD 0))
    if o.wstrb.getD 0 ≠ s.strictW.snapshot.2 then
      throw (.changed "WSTRB" s.strictW.snapshot.2 (o.wstrb.getD 0))
  if s.strictAr.unacked then
    if o.arvalid = none ∨ o.arvalid = some 0 then throw (.deasserted "ARVALID")
    if o.araddr.getD 0 ≠ s.strictAr.snapshot then
      throw (.changed "ARADDR" s.strictAr.snapshot (o.araddr.getD 0))

/-- `bool` of a signal that is read. -/
def truthy (signal : Option Nat) : Bool := signal.getD 0 != 0

/-- What strict mode remembers of one channel. -/
def remember {α : Type} (valid ready : Option Nat) (payload : α) (u : Unacked α) : Unacked α :=
  if truthy valid && !truthy ready then ⟨true, payload⟩ else { u with unacked := false }

/-- `_update_strict_state`. -/
def updateStrictState (o : Observed) (s : Responder) : Responder :=
  { s with
    strictAw := remember o.awvalid s.awready (o.awaddr.getD 0) s.strictAw
    strictW := remember o.wvalid s.wready (o.wdata.getD 0, o.wstrb.getD 0) s.strictW
    strictAr := remember o.arvalid s.arready (o.araddr.getD 0) s.strictAr }

/-- The part of `_on_time_step` for a rising edge; `paused` is what `pause` says. -/
def risingEdge (o : Observed) (paused : Bool) (s : Responder) : Except ProtocolError Responder := do
  if cfg.strict then s.checkChannelStability o
  let s := if cfg.strict then s.updateStrictState o else s
  let ready := some (if paused then 0 else 1)
  let s := if cfg.alwaysReady then { s with awready := ready, wready := ready, arready := ready } else s
  return { s with b := s.b.retire, r := s.r.retire }

/-- `_on_time_step`. -/
def onTimeStep (clk : Option Nat) (o : Observed) (paused : Bool) (s : Responder) : Except ProtocolError Responder :=
  match clk with
  | none => return s
  | some clk => do
      let low := if clk = 0 then s.lowPhase cfg o else s
      let s ← if s.prevClk = 0 ∧ clk = 1 then low.risingEdge cfg o paused else pure low
      return { s with prevClk := clk }

/-- `__init__`; with `always_ready` the three READY lines are driven high. -/
def initial (memory : Nat → Option Nat) (clk : Option Nat) (awready wready arready : Option Nat) : Responder where
  memory := memory
  writeLog := []
  readLog := []
  queuedWriteResponses := []
  queuedReadResponses := []
  b := ⟨[], false, none, false, 0⟩
  r := ⟨[], false, none, false, (0, 0)⟩
  writeSeen := false
  readSeen := false
  prevClk := clk.getD 0
  awready := if cfg.alwaysReady then some 1 else awready
  wready := if cfg.alwaysReady then some 1 else wready
  arready := if cfg.alwaysReady then some 1 else arready
  strictAw := ⟨false, 0⟩
  strictW := ⟨false, (0, 0)⟩
  strictAr := ⟨false, 0⟩

end Responder

end Veriforge.AxiLite

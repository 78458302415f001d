import Veriforge.AxiLite.Master
import Veriforge.AxiLite.Responder

/-! # The memory-bus endpoints

`MemBusMaster` and `MemBusResponder` on the same wires. The responder samples the wires at a rising edge;
a call of the master takes one rising edge. -/

namespace Veriforge.MemBus

open AxiLite (Clock applyWriteStrobes isHigh)

/-- The wires between the endpoints: which of the optional ones there are, and their widths. -/
structure Bus where
  addrWidth : Nat
  dataWidth : Nat
  ren : Bool
  be : Option Nat
  rvalid : Bool

/-- `data_bytes`. -/
def Bus.dataBytes (bus : Bus) : Nat := max 1 (bus.dataWidth / 8)

/-- Every byte. -/
def Bus.allBytes (bus : Bus) : Nat := (1 <<< bus.dataBytes) - 1

/-- What is on the wires. Those that the master drives may still be unknown. -/
structure Wires where
  addr : Option Nat
  wdata : Option Nat
  wen : Option Nat
  ren : Option Nat
  be : Option Nat
  rdata : Nat
  rvalid : Nat

/-- The options of the responder. -/
structure Options where
  defaultReadValue : Nat
  storeWrites : Bool

/-- `MemBusResponder`. -/
structure Responder where
  memory : Nat → Option Nat
  writeLog : List (Nat × Nat × Nat)
  readLog : List Nat
  prevClk : Nat

/-- The simulator with both endpoints. The wires are the same at both ends, and every drive is settled
before anything is read, so that it takes effect at once. -/
structure Bench where
  time : Nat
  wires : Wires
  responder : Responder

namespace Bench

variable (c : Clock) (bus : Bus) (o : Options)

/-! ## The responder -/

/-- The strobes of a write: an unknown byte enable counts as all bytes, and so does 0. -/
def strobe (b : Bench) : Nat :=
  if bus.be.isSome then
    if b.wires.be.getD 0 ≠ 0 then b.wires.be.getD 0 else bus.allBytes
  else bus.allBytes

/-- The write of a rising edge. -/
def acceptWrite (addr : Nat) (b : Bench) : Bench :=
  if isHigh b.wires.wen then
    match b.wires.wdata with
    | none => b
    | some data =>
        let memory :=
          if o.storeWrites then
            Function.update b.responder.memory addr
              (some (applyWriteStrobes ((b.responder.memory addr).getD 0) data (b.strobe bus) bus.dataBytes))
          else b.responder.memory
        { b with
          responder := { b.responder with
            memory := memory, writeLog := b.responder.writeLog ++ [(addr, data, b.strobe bus)] } }
  else b

/-- What a read of the responder drives. -/
def readValue (addr : Nat) (b : Bench) : Nat :=
  ((b.responder.memory addr).getD o.defaultReadValue &&& ((1 <<< (bus.dataBytes * 8)) - 1)) % 2 ^ bus.dataWidth

/-- The read of a rising edge. -/
def answerRead (addr : Nat) (b : Bench) : Bench :=
  if !bus.ren || isHigh b.wires.ren then
    { b with
      wires := { b.wires with
        rdata := b.readValue bus o addr, rvalid := if bus.rvalid then 1 else b.wires.rvalid }
      responder := { b.responder with readLog := b.responder.readLog ++ [addr] } }
  else { b with wires := { b.wires with rvalid := if bus.rvalid then 0 else b.wires.rvalid } }

/-- What the responder does at a rising edge. -/
def onEdge (b : Bench) : Bench :=
  match b.wires.addr with
  | none => b
  | some addr => (b.acceptWrite bus o addr).answerRead bus o addr

/-- `_on_time_step`, with the clock as it is read. -/
def onTimeStep (clk : Option Nat) (b : Bench) : Bench :=
  match clk with
  | none => b
  | some clk =>
      let isPosedge := b.responder.prevClk == 0 && clk == 1
      let b := { b with responder := { b.responder with prevClk := clk } }
      if isPosedge then b.onEdge bus o else b

/-! ## The master -/

/-- The clock, as a signal. -/
def clk (t : Nat) : Option Nat := some (c.level t).toNat

/-- `Simulator.run_step`: the responder's callback runs before the step and after it. -/
def runStep (b : Bench) : Bench :=
  let b := b.onTimeStep bus o (clk c b.time)
  { b with time := b.time + 1 }.onTimeStep bus o (clk c (b.time + 1))

/-- The loop of `_step_cycle`, with the turns left. -/
def runToRise : Nat → Bench → Bench
  | 0, b => b
  | fuel + 1, b =>
      if c.level b.time = false ∧ c.level (b.time + 1) = true then b.runStep c bus o
      else runToRise fuel (b.runStep c bus o)

/-- `_step_cycle`: the clock rises after as many turns as `c.rises` says. -/
def stepCycle (b : Bench) : Bench := b.runToRise c bus o (Nat.find (c.rises b.time) + 1 - b.time)

/-- `_drive`, for all the wires that a call drives. -/
def drive (b : Bench) (f : Wires → Wires) : Bench := { b with wires := f b.wires }

/-- `_drive_idle`. -/
def driveIdle (b : Bench) : Bench :=
  b.drive fun w =>
    { w with
      addr := some 0, wdata := some 0, wen := some 0
      ren := if bus.ren then some 0 else w.ren
      be := if bus.be.isSome then some 0 else w.be }

/-- What `MemBusMaster.write` drives on the byte enables. -/
def driveBe (be : Option Nat) (w : Wires) : Option Nat :=
  match bus.be with
  | none => w.be
  | some width => some ((be.getD ((1 <<< width) - 1)) % 2 ^ width)

/-- `MemBusMaster.write`. -/
def write (addr data : Nat) (be : Option Nat) (b : Bench) : Bench :=
  let b := b.drive fun w =>
    { w with
      addr := some (addr % 2 ^ bus.addrWidth), wdata := some (data % 2 ^ bus.dataWidth), wen := some 1
      be := driveBe bus be w }
  (b.stepCycle c bus o).driveIdle bus

/-- The outcome of a call. -/
inductive Outcome where
  | done
  | returned (value : Nat)
  | timedOut
  deriving DecidableEq

/-- The loop of `MemBusMaster.read`, which waits for `rvalid`. -/
def waitValid : Nat → Bench → Outcome × Bench
  | 0, b => (.timedOut, b)
  | timeout + 1, b =>
      let b := b.stepCycle c bus o
      if b.wires.rvalid = 1 then (.returned b.wires.rdata, b) else waitValid timeout b

/-- `MemBusMaster.read`. -/
def read (addr timeout : Nat) (b : Bench) : Outcome × Bench :=
  let b := b.drive fun w =>
    { w with addr := some (addr % 2 ^ bus.addrWidth), ren := if bus.ren then some 1 else w.ren }
  let b := (b.stepCycle c bus o).drive fun w => { w with ren := if bus.ren then some 0 else w.ren }
  if bus.rvalid then
    if b.wires.rvalid = 1 then (.returned b.wires.rdata, b) else b.waitValid c bus o timeout
  else (.returned b.wires.rdata, b)

end Bench

/-- A call of the master. -/
inductive Call where
  | write (addr data : Nat) (be : Option Nat)
  | read (addr timeout : Nat)

namespace Bench

variable (c : Clock) (bus : Bus) (o : Options)

def call (b : Bench) : Call → Outcome × Bench
  | .write addr data be => (.done, b.write c bus o addr data be)
  | .read addr timeout => b.read c bus o addr timeout

/-- The calls, one after another. -/
def calls (b : Bench) (cs : List Call) : Bench := cs.foldl (fun b call => (b.call c bus o call).2) b

/-- Both endpoints have been built: the wires of the master are idle, and those of the responder 0. -/
def start (memory : Nat → Option Nat) (t : Nat) (w : Wires) : Bench :=
  driveIdle bus
    { time := t
      wires := { w with rdata := 0, rvalid := if bus.rvalid then 0 else w.rvalid }
      responder := { memory := memory, writeLog := [], readLog := [], prevClk := (clk c t).getD 0 } }

end Bench

end Veriforge.MemBus

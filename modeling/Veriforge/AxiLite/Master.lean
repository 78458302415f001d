import Mathlib.Data.Nat.Find
import Veriforge.Handshake

/-! # The AXI4-Lite master

`AXILiteMaster.write` and `AXILiteMaster.read` on a simulator whose design is a subordinate that acts at
rising edges. -/

namespace Veriforge.AxiLite

/-- The signals that the master drives. -/
structure Driven where
  awaddr : Nat
  awprot : Nat
  awvalid : Bool
  wdata : Nat
  wstrb : Nat
  wvalid : Bool
  bready : Bool
  araddr : Nat
  arprot : Nat
  arvalid : Bool
  rready : Bool
  deriving DecidableEq

/-- `_drive_idle`. -/
def Driven.idle : Driven := ⟨0, 0, false, 0, 0, false, false, 0, 0, false, false⟩

/-- The response channels, as the subordinate drives them. -/
structure Responses where
  bvalid : Bool
  bresp : Nat
  rvalid : Bool
  rdata : Nat
  rresp : Nat
  deriving DecidableEq

/-- The signals that the subordinate drives. -/
structure Wires extends Responses where
  awready : Bool
  wready : Bool
  arready : Bool
  deriving DecidableEq

/-- A subordinate. Its READY outputs may depend on the master's signals combinationally; a response is
offered whether or not the master is ready for it, and so is a function of the state. -/
structure Subordinate (σ : Type) where
  awready : σ → Driven → Bool
  wready : σ → Driven → Bool
  arready : σ → Driven → Bool
  responses : σ → Responses
  /-- What a rising edge makes of the state. -/
  next : σ → Driven → σ

/-- The settled outputs. -/
def Subordinate.out {σ : Type} (D : Subordinate σ) (s : σ) (m : Driven) : Wires :=
  { D.responses s with awready := D.awready s m, wready := D.wready s m, arready := D.arready s m }

/-- The clock after each `run_step`; it keeps rising. -/
structure Clock where
  level : Nat → Bool
  rises : ∀ n, ∃ m, n ≤ m ∧ level m = false ∧ level (m + 1) = true

/-- What the wires were just before a rising edge. -/
abbrev Edge := Driven × Wires

/-- The simulator: `seen` is what the subordinate's signals were when the design was last evaluated,
`edges` the rising edges so far. -/
structure Bench (σ : Type) where
  time : Nat
  state : σ
  driven : Driven
  seen : Wires
  edges : List Edge

namespace Bench

variable {σ : Type} (c : Clock) (D : Subordinate σ)

/-- `_drive`: the design is not evaluated yet. -/
def drive (b : Bench σ) (f : Driven → Driven) : Bench σ := { b with driven := f b.driven }

/-- `_settle_current_time`. -/
def settle (b : Bench σ) : Bench σ := { b with seen := D.out b.state b.driven }

/-- `Simulator.run_step`. -/
def runStep (b : Bench σ) : Bench σ :=
  if c.level b.time = false ∧ c.level (b.time + 1) = true then
    { time := b.time + 1
      state := D.next b.state b.driven
      driven := b.driven
      seen := D.out (D.next b.state b.driven) b.driven
      edges := b.edges ++ [(b.driven, b.seen)] }
  else { b with time := b.time + 1 }

/-- The loop of `_step_cycle`, with the turns left. -/
def runToRise : Nat → Bench σ → Bench σ
  | 0, b => b
  | fuel + 1, b =>
      if c.level b.time = false ∧ c.level (b.time + 1) = true then b.runStep c D
      else runToRise fuel (b.runStep c D)

/-- `_step_cycle`: the clock rises after as many turns as `c.rises` says. -/
def stepCycle (b : Bench σ) : Bench σ :=
  runToRise c D (Nat.find (c.rises b.time) + 1 - b.time) (b.settle D)

end Bench

/-- The channels on which the master sends. -/
inductive Channel where
  | aw
  | w
  | ar
  deriving DecidableEq

namespace Channel

def valid : Channel → Driven → Bool
  | .aw, m => m.awvalid
  | .w, m => m.wvalid
  | .ar, m => m.arvalid

def ready : Channel → Wires → Bool
  | .aw, out => out.awready
  | .w, out => out.wready
  | .ar, out => out.arready

def payload : Channel → Driven → Nat × Nat
  | .aw, m => (m.awaddr, m.awprot)
  | .w, m => (m.wdata, m.wstrb)
  | .ar, m => (m.araddr, m.arprot)

/-- VALID is driven low. -/
def lower : Channel → Driven → Driven
  | .aw, m => { m with awvalid := false }
  | .w, m => { m with wvalid := false }
  | .ar, m => { m with arvalid := false }

end Channel

/-- A call with its arguments. -/
inductive Call where
  | write (addr data : Nat) (strb : Option Nat) (prot expectedResp : Nat)
  | read (addr prot expectedResp : Nat)
  deriving DecidableEq

namespace Call

def expectedResp : Call → Nat
  | .write _ _ _ _ expected => expected
  | .read _ _ expected => expected

/-- The channels that the call sends on. -/
def channels : Call → List Channel
  | .write .. => [.aw, .w]
  | .read .. => [.ar]

/-- What the call drives at its start; a write strobes every byte unless told otherwise. -/
def start (wstrbWidth : Nat) (m : Driven) : Call → Driven
  | .write addr data strb prot _ =>
      { m with
        awaddr := addr, awprot := prot, awvalid := true
        wdata := data, wstrb := strb.getD ((1 <<< wstrbWidth) - 1), wvalid := true }
  | .read addr prot _ => { m with araddr := addr, arprot := prot, arvalid := true }

/-- BREADY or RREADY. -/
def setReady (r : Bool) : Call → Driven → Driven
  | .write .., m => { m with bready := r }
  | .read .., m => { m with rready := r }

def ready : Call → Driven → Bool
  | .write .., m => m.bready
  | .read .., m => m.rready

/-- BVALID or RVALID. -/
def responded : Call → Responses → Bool
  | .write .., r => r.bvalid
  | .read .., r => r.rvalid

/-- BRESP or RRESP. -/
def resp : Call → Responses → Nat
  | .write .., r => r.bresp
  | .read .., r => r.rresp

/-- What the call returns: the response code of a write, the data of a read. -/
def result : Call → Responses → Nat
  | .write .., r => r.bresp
  | .read .., r => r.rdata

def requestTimeout : Call → String
  | .write .. => "AXI-Lite write address/data handshake timed out"
  | .read .. => "AXI-Lite read address handshake timed out"

def responseTimeout : Call → String
  | .write .. => "AXI-Lite write response timed out"
  | .read .. => "AXI-Lite read response timed out"

end Call

/-- How a call ends. -/
inductive Outcome where
  | returned (value : Nat)
  | mismatch (expected got : Nat)
  | timeout (message : String)
  deriving DecidableEq

namespace Bench

variable {σ : Type} (c : Clock) (D : Subordinate σ)

/-- The first loop of `write` and of `read`, with the channels that still wait: READY counts as the end
of a transfer when it is high before the step or after it. -/
def request : Nat → List Channel → Bench σ → Bool × Bench σ
  | 0, _, b => (false, b)
  | fuel + 1, waiting, b =>
      let before := b.settle D
      let after := before.stepCycle c D
      let taken := fun ch : Channel => ch.ready before.seen || ch.ready after.seen
      let b := (waiting.filter taken).foldl (fun b ch => b.drive ch.lower) after
      let waiting := waiting.filter fun ch => !taken ch
      if waiting = [] then (true, b) else request fuel waiting b

/-- The second loop: a response is looked for before each step. -/
def awaitResponse (call : Call) : Nat → Bench σ → Outcome × Bench σ
  | 0, b => (.timeout call.responseTimeout, b.drive fun _ => .idle)
  | fuel + 1, b =>
      if call.responded b.seen.toResponses then
        let got := call.resp b.seen.toResponses
        let value := call.result b.seen.toResponses
        let b := ((b.stepCycle c D).drive (call.setReady false)).drive fun _ => .idle
        (if got ≠ call.expectedResp then .mismatch call.expectedResp got else .returned value, b)
      else awaitResponse call fuel (b.stepCycle c D)

/-- `write` and `read`. -/
def perform (wstrbWidth timeout : Nat) (call : Call) (b : Bench σ) : Outcome × Bench σ :=
  let r := request c D timeout call.channels (b.drive fun m => call.start wstrbWidth m)
  if r.1 then awaitResponse c D call timeout (r.2.drive (call.setReady true))
  else (.timeout call.requestTimeout, r.2.drive fun _ => .idle)

end Bench

end Veriforge.AxiLite

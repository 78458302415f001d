import Veriforge.Axi4.Responder

/-! # The AXI4 master

`AXI4Master.write` and `AXI4Master.read`, connected wire to wire to the responder. What happens in a period
of the clock is where the callbacks of the responder run and what its pause attributes say there. -/

namespace Veriforge.Axi4

open AxiLite (isHigh)

/-- The callbacks of a clock period: any number while the clock is high, one when it falls, any number
while it is low and one before the step in which it rises, and the one at that edge. -/
structure Period where
  high : List Pauses
  falling : Pauses
  low : List Pauses
  preStep : Pauses
  edge : Pauses

/-- The widths of the address channels; the data bus has the bytes of the responder. -/
structure Wires where
  addr : Nat
  len : Nat
  size : Nat
  id : Option Nat

/-- A value on a wire. -/
def onWire (width x : Nat) : Nat := x % 2 ^ width

/-- `AXI4ResponseError`, `TimeoutError`, `ValueError`, and what the responder raises. -/
inductive CallError where
  | noBeats
  | strbLength
  | readLength
  | addressTimeout
  | responseTimeout
  | response (expected got : Nat)
  | readResponse (beat expected got : Nat)
  | readLast (beats expected : Nat)
  | fault (fault : Fault)

def CallError.isTimeout : CallError → Bool
  | .addressTimeout => true
  | .responseTimeout => true
  | _ => false

/-- The `strb` of a write. -/
inductive Strobes where
  | full
  | same (strb : Nat)
  | each (strbs : List Nat)

/-- The arguments of `write` that the responder sees or that the master checks. -/
structure WriteCall where
  addr : Nat
  data : List Nat
  strb : Strobes
  size : Option Nat
  txnId : Nat
  expectedResp : Nat
  timeout : Nat

/-- Those of `read`. -/
structure ReadCall where
  addr : Nat
  length : Nat
  size : Option Nat
  txnId : Nat
  expectedResp : Nat
  timeout : Nat

/-- The responder, the master's lines, and how many periods have passed. -/
structure System (ρ : Type) where
  responder : Responder ρ
  bus : Observed
  period : Nat

section Steps

variable {ρ : Type} (rnd : Random ρ) (cfg : Options) (periods : Nat → Period)

/-- Callbacks with the clock at one level. -/
def callbacks (clk : Nat) (o : Observed) (ps : List Pauses) (s : Responder ρ) : Except Fault (Responder ρ) :=
  ps.foldlM (fun s p => s.onTimeStep rnd cfg (some clk) o p) s

/-- `_to_sample_point`: to the low phase, unless the clock is low. -/
def System.toSamplePoint (sys : System ρ) : Except Fault (System ρ) :=
  if sys.responder.prevClk = 1 then do
    let s ← callbacks rnd cfg 1 sys.bus (periods sys.period).high sys.responder
    let s ← s.onTimeStep rnd cfg (some 0) sys.bus (periods sys.period).falling
    return { sys with responder := s }
  else return sys

/-- `_step_cycle`, from the low phase. -/
def System.stepCycle (sys : System ρ) : Except Fault (System ρ) := do
  let s ← callbacks rnd cfg 0 sys.bus ((periods sys.period).low ++ [(periods sys.period).preStep]) sys.responder
  let s ← s.onTimeStep rnd cfg (some 1) sys.bus (periods sys.period).edge
  return { sys with responder := s, period := sys.period + 1 }

/-- `_drive`. -/
def System.drive (f : Observed → Observed) (sys : System ρ) : System ρ := { sys with bus := f sys.bus }

end Steps

/-- What the responder raises stops the call. -/
def raised {α : Type} : Except Fault α → Except CallError α
  | .ok a => .ok a
  | .error fault => .error (.fault fault)

namespace Master

section Lines

variable (cfg : Options) (wires : Wires)

/-- `_drive_idle`. -/
def idle (_ : Observed) : Observed where
  awvalid := some 0
  awaddr := some 0
  awlen := some 0
  awsize := some 0
  awid := wires.id.map fun _ => 0
  wvalid := some 0
  wdata := some 0
  wstrb := some 0
  wlast := some 0
  bready := some 0
  arvalid := some 0
  araddr := some 0
  arlen := some 0
  arsize := some 0
  arid := wires.id.map fun _ => 0
  rready := some 0

/-- The least size in which a beat has so many bytes, with the turns left. -/
def sizeLoop (bytes : Nat) : Nat → Nat → Nat
  | 0, size => size
  | fuel + 1, size => if 1 <<< size < bytes then sizeLoop bytes fuel (size + 1) else size

/-- `_default_size`; there are no more turns than bytes. -/
def defaultSize : Nat := sizeLoop cfg.dataBytes cfg.dataBytes 0

/-- The strobes of the beats. -/
def strbs (call : WriteCall) : Except CallError (List Nat) :=
  match call.strb with
  | .full => .ok (List.replicate call.data.length ((1 <<< cfg.dataBytes) - 1))
  | .same strb => .ok (List.replicate call.data.length strb)
  | .each strbs => if strbs.length ≠ call.data.length then .error .strbLength else .ok strbs

/-- A W beat. -/
def driveW (call : WriteCall) (strbs : List Nat) (i : Nat) (bus : Observed) : Observed :=
  { bus with
    wdata := some (onWire (cfg.dataBytes * 8) (call.data.getD i 0))
    wstrb := some (onWire cfg.dataBytes (strbs.getD i 0))
    wlast := some (if i + 1 = call.data.length then 1 else 0) }

/-- The address of a write, with its first beat. -/
def driveAw (call : WriteCall) (strbs : List Nat) (bus : Observed) : Observed :=
  { driveW cfg call strbs 0 bus with
    awaddr := some (onWire wires.addr call.addr)
    awlen := some (onWire wires.len (call.data.length - 1))
    awsize := some (onWire wires.size (call.size.getD (defaultSize cfg)))
    awid := wires.id.map fun width => onWire width call.txnId
    awvalid := some 1
    wvalid := some 1 }

/-- After a W beat the next one, if there is one. -/
def nextW (call : WriteCall) (strbs : List Nat) (done : Nat) (bus : Observed) : Observed :=
  if done < call.data.length then driveW cfg call strbs done bus
  else { bus with wvalid := some 0, wlast := some 0 }

/-- The address of a read. -/
def driveAr (call : ReadCall) (bus : Observed) : Observed :=
  { bus with
    araddr := some (onWire wires.addr call.addr)
    arlen := some (onWire wires.len (call.length - 1))
    arsize := some (onWire wires.size (call.size.getD (defaultSize cfg)))
    arid := wires.id.map fun width => onWire width call.txnId
    arvalid := some 1 }

end Lines

section Calls

variable {ρ : Type} (rnd : Random ρ) (cfg : Options) (wires : Wires) (periods : Nat → Period)

/-- The loop over AW and W, with the turns left. -/
def addressAndData (call : WriteCall) (strbs : List Nat) : Nat → Bool → Nat → System ρ → Except CallError (System ρ)
  | 0, _, _, _ => .error .addressTimeout
  | fuel + 1, awDone, done, sys => do
      let sys ← raised (sys.toSamplePoint rnd cfg periods)
      let awTake := !awDone && isHigh sys.responder.w.awready
      let wTake := decide (done < call.data.length) && isHigh sys.responder.w.wready
      let sys ← raised (sys.stepCycle rnd cfg periods)
      let sys := if awTake then sys.drive fun bus => { bus with awvalid := some 0 } else sys
      let done' := if wTake then done + 1 else done
      let sys := if wTake then sys.drive (nextW cfg call strbs done') else sys
      if (awDone || awTake) && decide (call.data.length ≤ done') then return sys
      else addressAndData call strbs fuel (awDone || awTake) done' sys

/-- The loop over B. -/
def writeResponse (call : WriteCall) : Nat → System ρ → Except CallError (Nat × System ρ)
  | 0, _ => .error .responseTimeout
  | fuel + 1, sys => do
      let sys ← raised (sys.toSamplePoint rnd cfg periods)
      if sys.responder.w.bvalid then
        let bresp := sys.responder.w.bLines.1
        let sys ← raised (sys.stepCycle rnd cfg periods)
        let sys := sys.drive (idle wires)
        if bresp ≠ call.expectedResp then .error (.response call.expectedResp bresp) else return (bresp, sys)
      else
        let sys ← raised (sys.stepCycle rnd cfg periods)
        writeResponse call fuel sys

/-- `write`. -/
def write (call : WriteCall) (sys : System ρ) : Except CallError (Nat × System ρ) := do
  if call.data = [] then .error .noBeats
  let strbs ← strbs cfg call
  let sys := sys.drive (driveAw cfg wires call strbs)
  let sys ← addressAndData rnd cfg periods call strbs (call.timeout * (call.data.length + 1)) false 0 sys
  writeResponse rnd cfg wires periods call call.timeout (sys.drive fun bus => { bus with bready := some 1 })

/-- The loop over AR. -/
def readAddress : Nat → System ρ → Except CallError (System ρ)
  | 0, _ => .error .addressTimeout
  | fuel + 1, sys => do
      let sys ← raised (sys.toSamplePoint rnd cfg periods)
      let arTake := isHigh sys.responder.r.arready
      let sys ← raised (sys.stepCycle rnd cfg periods)
      if arTake then return sys.drive fun bus => { bus with arvalid := some 0 }
      else readAddress fuel sys

/-- The loop over R. -/
def readData (call : ReadCall) : Nat → List Nat → System ρ → Except CallError (List Nat × System ρ)
  | 0, _, _ => .error .responseTimeout
  | fuel + 1, beats, sys => do
      let sys ← raised (sys.toSamplePoint rnd cfg periods)
      if sys.responder.r.rvalid then
        let lines := sys.responder.r.rLines
        if lines.resp ≠ call.expectedResp then .error (.readResponse beats.length call.expectedResp lines.resp)
        let beats := beats ++ [lines.data]
        let sys ← raised (sys.stepCycle rnd cfg periods)
        if lines.last then
          let sys := sys.drive (idle wires)
          if beats.length ≠ call.length then .error (.readLast beats.length call.length) else return (beats, sys)
        else readData call fuel beats sys
      else
        let sys ← raised (sys.stepCycle rnd cfg periods)
        readData call fuel beats sys

/-- `read`. -/
def read (call : ReadCall) (sys : System ρ) : Except CallError (List Nat × System ρ) := do
  if call.length < 1 then .error .readLength
  let sys := sys.drive (driveAr cfg wires call)
  let sys ← readAddress rnd cfg periods call.timeout sys
  readData rnd cfg wires periods call (call.timeout * call.length) [] (sys.drive fun bus => { bus with rready := some 1 })

end Calls

end Master

/-- A call, or a clock period without one. -/
inductive Call where
  | write (call : WriteCall)
  | read (call : ReadCall)
  | wait

section Sequences

variable {ρ : Type} (rnd : Random ρ) (cfg : Options) (wires : Wires) (periods : Nat → Period)

/-- A call, with the data that it returns. -/
def perform (sys : System ρ) : Call → Except CallError (List Nat × System ρ)
  | .write call => do
      let (bresp, sys) ← Master.write rnd cfg wires periods call sys
      return ([bresp], sys)
  | .read call => Master.read rnd cfg wires periods call sys
  | .wait => do
      let sys ← raised (sys.toSamplePoint rnd cfg periods)
      let sys ← raised (sys.stepCycle rnd cfg periods)
      return ([], sys)

/-- A sequence of calls, up to the first that raises. -/
def performAll : List Call → System ρ → Except CallError (List (List Nat) × System ρ)
  | [], sys => .ok ([], sys)
  | call :: calls, sys => do
      let (result, sys) ← perform rnd cfg wires periods sys call
      let (results, sys) ← performAll calls sys
      return (result :: results, sys)

end Sequences

/-- Signals that nothing drives. -/
def undriven : Observed :=
  ⟨none, none, none, none, none, none, none, none, none, none, none, none, none, none, none, none⟩

/-- Both ends, when they have been made. -/
def System.initial {ρ : Type} (cfg : Options) (wires : Wires) (memory : Nat → Option Nat) (rng : ρ) (clk : Nat)
    (awready wready arready : Option Nat) : System ρ where
  responder := Responder.initial cfg memory rng (some clk) awready wready arready
  bus := Master.idle wires undriven
  period := 0

/-! ## The calls of a memory -/

/-- A responder that stores what is written and drives its READY lines, on a bus of a power of two of bytes,
and wires that carry a burst of 256 beats and the size of its beats. -/
structure Connected (cfg : Options) (wires : Wires) : Prop where
  alwaysReady : cfg.alwaysReady = true
  storeWrites : cfg.storeWrites = true
  bus : ∃ k, cfg.dataBytes = 2 ^ k ∧ k < 2 ^ wires.size
  len : 8 ≤ wires.len

/-- The address of a beat of a burst of the whole bus. -/
def beatAt (cfg : Options) (wires : Wires) (addr i : Nat) : Nat := onWire wires.addr addr + i * cfg.dataBytes

/-- A burst of 1 to 256 beats of the whole bus, from an aligned address on, in the range of the memory. -/
structure WholeBurst (cfg : Options) (wires : Wires) (addr beats : Nat) (size : Option Nat) : Prop where
  pos : 1 ≤ beats
  le : beats ≤ 256
  size : size.getD (Master.defaultSize cfg) = Master.defaultSize cfg
  aligned : cfg.dataBytes ∣ addr
  range : ∀ i < beats, checkAddrInRange cfg (beatAt cfg wires addr i) = .ok ()

/-- The calls of such bursts, which expect the response of the memory. -/
def Call.Legal (cfg : Options) (wires : Wires) : Call → Prop
  | .write call => WholeBurst cfg wires call.addr call.data.length call.size ∧
      call.expectedResp = cfg.defaultWriteResp ∧ ∀ strbs, call.strb = .each strbs → strbs.length = call.data.length
  | .read call => WholeBurst cfg wires call.addr call.length call.size ∧ call.expectedResp = cfg.defaultReadResp
  | .wait => True

/-- The burst that goes over the wires. -/
def callBurst (cfg : Options) (wires : Wires) (addr beats txnId : Nat) : Burst :=
  ⟨onWire wires.addr addr, beats, Master.defaultSize cfg, (wires.id.map fun width => onWire width txnId).getD 0⟩

namespace Connected

variable {cfg : Options} {wires : Wires}

theorem sizeLoop_eq {k : Nat} (fuel size : Nat) (hle : size ≤ k) (hfuel : k ≤ size + fuel) :
    Master.sizeLoop (2 ^ k) fuel size = k := by
  induction fuel generalizing size with
  | zero => exact Nat.le_antisymm hle hfuel
  | succ fuel ih =>
    unfold Master.sizeLoop
    rw [Nat.one_shiftLeft]
    by_cases hlt : size < k
    · rw [if_pos (Nat.pow_lt_pow_right (by decide) hlt)]
      exact ih (size + 1) hlt (by omega)
    · have heq : size = k := Nat.le_antisymm hle (Nat.not_lt.mp hlt)
      rw [heq, if_neg (Nat.lt_irrefl _)]

/-- The size of the whole bus. -/
theorem dataBytes_eq (h : Connected cfg wires) :
    cfg.dataBytes = 2 ^ Master.defaultSize cfg ∧ Master.defaultSize cfg < 2 ^ wires.size := by
  obtain ⟨k, hk, hlt⟩ := h.bus
  have hsize : Master.defaultSize cfg = k := by
    unfold Master.defaultSize
    rw [hk]
    exact sizeLoop_eq _ 0 (Nat.zero_le k) (by rw [Nat.zero_add]; exact Nat.lt_two_pow_self.le)
  rw [hsize]
  exact ⟨hk, hlt⟩

theorem beatAddr_eq (h : Connected cfg wires) (addr beats txnId i : Nat) :
    (callBurst cfg wires addr beats txnId).beatAddr i = beatAt cfg wires addr i := by
  unfold Burst.beatAddr callBurst beatAt
  dsimp only
  rw [Nat.one_shiftLeft, ← h.dataBytes_eq.1]

/-- What goes over the wires is the burst. -/
theorem burstOf_eq (h : Connected cfg wires) {addr beats : Nat} {size : Option Nat} (txnId : Nat)
    (hburst : WholeBurst cfg wires addr beats size) :
    burstOf cfg (onWire wires.addr addr) (some (onWire wires.len (beats - 1)))
      (some (onWire wires.size (size.getD (Master.defaultSize cfg))))
      (wires.id.map fun width => onWire width txnId) = callBurst cfg wires addr beats txnId := by
  have hlen : onWire wires.len (beats - 1) = beats - 1 := by
    unfold onWire
    have hpow : 2 ^ 8 ≤ 2 ^ wires.len := Nat.pow_le_pow_right (by decide) h.len
    exact Nat.mod_eq_of_lt (by have := hburst.le; have := hburst.pos; omega)
  have hsize : onWire wires.size (Master.defaultSize cfg) = Master.defaultSize cfg := Nat.mod_eq_of_lt h.dataBytes_eq.2
  unfold burstOf callBurst
  rw [hlen, hburst.size, hsize, Option.getD_some, Option.getD_some, Nat.sub_add_cancel hburst.pos]

/-- An aligned address stays aligned on the wires. -/
theorem aligned (h : Connected cfg wires) {addr : Nat} (haddr : cfg.dataBytes ∣ addr) (i : Nat) :
    cfg.dataBytes ∣ beatAt cfg wires addr i := by
  obtain ⟨k, hk, -⟩ := h.bus
  refine Nat.dvd_add ?_ (Nat.dvd_mul_left _ _)
  unfold onWire
  rw [hk] at haddr ⊢
  rcases Nat.le_total k wires.addr with hle | hle
  · exact (Nat.dvd_mod_iff (Nat.pow_dvd_pow 2 hle)).mpr haddr
  · rw [Nat.mod_eq_zero_of_dvd ((Nat.pow_dvd_pow 2 hle).trans haddr)]
    exact Nat.dvd_zero _

end Connected

end Veriforge.Axi4

import Mathlib.Logic.Function.Basic

/-! # Clocks in the event queue

`Simulator.fork`, `schedule_clock`, `run` and `run_step` on the reference engine. The processes of the design
are left abstract: a time step hands them the events of its time and gets back at which delays they are to
run again. -/

namespace Veriforge.Sched

/-- `Clock`; `scaled` is `int(period * duty)`. -/
structure Clock where
  signal : String
  period : Nat
  scaled : Nat
  deriving DecidableEq

namespace Clock

def highTime (c : Clock) : Nat := max 1 c.scaled

def lowTime (c : Clock) : Nat := max 1 (c.period - c.highTime)

end Clock

/-- What the event queue holds: a `_ClockToggle` or a process. -/
inductive Timed (Proc : Type) where
  | toggle (signal : String) (value : Bool)
  | process (p : Proc)
  deriving DecidableEq

/-- The processes of the design: which of them wake up when the drives from outside are processed, and what a
time step makes of the state, after which delays processes are to run again, and whether `$finish` is
executed. -/
structure Processes (σ Proc : Type) where
  wake : σ → σ × List Proc
  react : σ → Nat → List (Timed Proc) → σ × List (Nat × Proc) × Bool

/-- The simulator with its scheduler. `queue` is in the order of scheduling and `idle` holds the processes that
have not run yet. The last three fields are history: the times of the executed steps, the changes of the
clock signals, and when each was first scheduled. -/
structure Simulator (σ Proc : Type) where
  time : Nat
  queue : List (Nat × Timed Proc)
  clocks : List Clock
  nextEdge : String → Option Nat
  idle : List Proc
  finished : Bool
  state : σ
  level : String → Bool
  steps : List Nat
  edges : List (String × Nat × Bool)
  firstAt : String → Option Nat

/-- The toggles of a clock from `t` on until `maxTime`, and the time of the next: the turns of the loop are at
most as many as given. -/
def togglesUpTo {Proc : Type} (c : Clock) (maxTime : Nat) : Nat → Nat → List (Nat × Timed Proc) × Nat
  | 0, t => ([], t)
  | turns + 1, t =>
      if t ≤ maxTime then
        let rest := togglesUpTo c maxTime turns (t + c.highTime + c.lowTime)
        ((t, .toggle c.signal true) :: (t + c.highTime, .toggle c.signal false) :: rest.1, rest.2)
      else ([], t)

namespace Simulator

variable {σ Proc : Type} [DecidableEq Proc] (P : Processes σ Proc)

/-- A simulator that has not done anything. -/
def start (state : σ) (idle : List Proc) : Simulator σ Proc where
  time := 0
  queue := []
  clocks := []
  nextEdge _ := none
  idle := idle
  finished := false
  state := state
  level _ := false
  steps := []
  edges := []
  firstAt _ := none

/-- `fork`. -/
def fork (c : Clock) (s : Simulator σ Proc) : Simulator σ Proc := { s with clocks := s.clocks ++ [c] }

/-- Where `_schedule_clock_events` continues. -/
def continues (s : Simulator σ Proc) (c : Clock) : Nat := (s.nextEdge c.signal).getD 0

/-- `_schedule_clock_events`. The first call for a signal drives it low. -/
def scheduleClockEvents (c : Clock) (maxTime : Nat) (s : Simulator σ Proc) : Simulator σ Proc :=
  let first := (s.nextEdge c.signal).isNone
  let t := s.continues c
  let toggles := togglesUpTo c maxTime (maxTime + 1 - t) t
  { s with
    queue := s.queue ++ toggles.1
    nextEdge := Function.update s.nextEdge c.signal (some toggles.2)
    level := if first then Function.update s.level c.signal false else s.level
    firstAt := if first then Function.update s.firstAt c.signal (some s.time) else s.firstAt }

/-- `EventQueue.peek_time`. -/
def peekTime (s : Simulator σ Proc) : Option Nat := (s.queue.map Prod.fst).min?

/-- A toggle writes its value to the signal. -/
def toggleAt (time : Nat) (s : (String → Bool) × List (String × Nat × Bool)) :
    Timed Proc → (String → Bool) × List (String × Nat × Bool)
  | .toggle signal value =>
      (Function.update s.1 signal value, if s.1 signal = value then s.2 else s.2 ++ [(signal, time, value)])
  | .process _ => s

/-- `_run_single_step`. -/
def singleStep (next : Nat) (s : Simulator σ Proc) : Simulator σ Proc :=
  let popped := (s.queue.filter fun e => e.1 = next).map Prod.snd
  let reacted := P.react s.state next popped
  let toggled := popped.foldl (toggleAt next) (s.level, s.edges)
  let finished := s.finished || reacted.2.2
  { s with
    time := next
    queue :=
      if finished then []
      else (s.queue.filter fun e => e.1 ≠ next) ++ reacted.2.1.map fun p => (next + p.1, .process p.2)
    idle := s.idle.filter fun p => .process p ∉ popped
    finished := finished
    state := reacted.1
    level := toggled.1
    steps := s.steps ++ [next]
    edges := toggled.2 }

/-- `_run_time_step`, with the turns of its loop that are taken. -/
def runTimeStep (maxTime : Nat) : Nat → Simulator σ Proc → Simulator σ Proc
  | 0, s => s
  | turns + 1, s =>
      match s.peekTime with
      | none => s
      | some next =>
          if maxTime < next then s
          else if (s.singleStep P next).finished then s.singleStep P next
          else runTimeStep maxTime turns (s.singleStep P next)

/-- `run`, before the loop: the forked clocks are scheduled, the processes that have not run yet at time 0, and
those that wake up now. -/
def beforeLoop (maxTime : Nat) (s : Simulator σ Proc) : Simulator σ Proc :=
  let s := s.clocks.foldl (fun s c => s.scheduleClockEvents c maxTime) s
  let woken := P.wake s.state
  { s with
    queue := s.queue ++ (s.idle.map fun p => (0, .process p)) ++ woken.2.map fun p => (s.time, .process p)
    state := woken.1 }

/-- `run`. -/
def run (maxTime turns : Nat) (s : Simulator σ Proc) : Simulator σ Proc :=
  (s.beforeLoop P maxTime).runTimeStep P maxTime turns

/-- `run_step`. -/
def runStep (s : Simulator σ Proc) : Simulator σ Proc :=
  match s.peekTime with
  | none => s
  | some next => s.singleStep P next

end Simulator

/-- A call of the test bench. The loop of `run` takes any number of turns: a state in which it has not ended is
a state of the run too. -/
inductive SimCall where
  | fork (c : Clock)
  | scheduleClock (c : Clock) (maxTime : Nat)
  | run (maxTime turns : Nat)
  | runStep

namespace Simulator

variable {σ Proc : Type} [DecidableEq Proc] (P : Processes σ Proc)

def call (s : Simulator σ Proc) : SimCall → Simulator σ Proc
  | .fork c => s.fork c
  | .scheduleClock c maxTime => s.scheduleClockEvents c maxTime
  | .run maxTime turns => s.run P maxTime turns
  | .runStep => s.runStep P

/-- The calls, one after another. -/
def calls (s : Simulator σ Proc) (cs : List SimCall) : Simulator σ Proc := cs.foldl (call P) s

end Simulator

end Veriforge.Sched

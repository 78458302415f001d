import Veriforge.Trace.Changes

/-! # Capture sessions

`CaptureSession` keeps the changes of the last `pre` time units and writes a window around an event to a
file of its own. Of the signals of a session the first `vcd` are written. -/

namespace Veriforge.Trace

/-- An entry of `_ring`: a change and the value before it. -/
structure Recorded where
  time : Nat
  signal : Nat
  old : Nat × Nat
  new : Nat × Nat
  deriving DecidableEq

/-- A change at its time. -/
def Recorded.change (r : Recorded) : Nat × Change := (r.time, ⟨r.signal, r.new⟩)

inductive Severity where
  | error
  | fatal
  deriving DecidableEq

/-- What `_on_severity` queues. -/
structure Event where
  time : Nat
  severity : Severity
  message : String

/-- Why a capture is written. -/
inductive Reason where
  | trigger (text : String)
  | manual (text : String)
  | error (message : String)
  | fatal (message : String)
  | failure (text : String)

namespace Reason

def text : Reason → String
  | .trigger text => "trigger " ++ text
  | .manual text => text
  | .error message => "$error: " ++ message
  | .fatal message => "$fatal: " ++ message
  | .failure text => "failure: " ++ text

/-- The window of a failure ends with it. -/
def isFailure : Reason → Bool
  | .fatal _ | .failure _ => true
  | _ => false

end Reason

/-- A capture file: for which event it is, its window, the values it starts with, what is written to it
after them, and the comments. -/
structure Capture where
  time : Nat
  reason : Reason
  start : Nat
  stop : Nat
  initial : List (Nat × Nat)
  blocks : List (Nat × List Change)
  comments : List String

/-- The arguments of the session that do not change. The condition is given the time and the values after
and before: a trigger expression ignores the time, a callable the values before. -/
structure Options where
  vcd : Nat
  pre : Nat
  post : Nat
  maxCaptures : Nat
  onFailure : Bool
  onError : Bool
  condition : Option (Nat → Values → Values → Bool)
  triggerReason : String

/-- `CaptureSession`. -/
structure Session where
  cur : Values
  attachTime : Nat
  ring : List Recorded
  writer : Option Capture
  captureEnd : Option Nat
  /-- The files that are finished. -/
  finished : List Capture
  /-- `len(self.files)`. -/
  files : Nat
  cond : Bool
  pending : List Event
  /-- `_failed`: an exception stands for itself. -/
  failed : Option Nat
  closed : Bool

namespace Session

variable (o : Options)

/-! ## Captures -/

/-- The values at `start`: every buffered change after it is undone. -/
def undo (start : Nat) : List Recorded → Values → Values
  | [], state => state
  | r :: newestFirst, state =>
      if r.time ≤ start then state else undo start newestFirst (Function.update state r.signal r.old)

/-- The loop of `_start_capture` over the ring: what is written, the open block and its time. -/
def blocksOf (start stop : Nat) :
    List Recorded → (blocks : List (Nat × List Change)) → (blockT : Nat) → (block : List Change) →
      List (Nat × List Change)
  | [], blocks, blockT, block => if block = [] then blocks else blocks ++ [(blockT, block)]
  | r :: ring, blocks, blockT, block =>
      if r.time ≤ start then blocksOf start stop ring blocks blockT block
      else if stop < r.time then if block = [] then blocks else blocks ++ [(blockT, block)]
      else if r.time ≠ blockT ∧ block ≠ [] then
        blocksOf start stop ring (blocks ++ [(blockT, block)]) r.time [⟨r.signal, r.new⟩]
      else blocksOf start stop ring blocks r.time (block ++ [⟨r.signal, r.new⟩])

/-- `_start_capture`. -/
def startCapture (time : Nat) (reason : Reason) (post : Nat) (s : Session) : Session :=
  let start := max (time - o.pre) s.attachTime
  let stop := time + post
  let state := undo start s.ring.reverse s.cur
  { s with
    writer := some
      { time := time
        reason := reason
        start := start
        stop := stop
        initial := (List.range o.vcd).map state
        blocks := blocksOf start stop s.ring [] start []
        comments := ["capture " ++ toString s.files ++ ": " ++ reason.text ++ " at " ++ toString time] }
    captureEnd := some stop
    files := s.files + 1 }

/-- `_finish_capture`. -/
def finishCapture (s : Session) : Session :=
  { s with writer := none, captureEnd := none, finished := s.finished ++ s.writer.toList }

/-- `self._writer is None and len(self.files) < self._max`. -/
def canStart (s : Session) : Bool := s.writer.isNone && decide (s.files < o.maxCaptures)

/-- `_fail_at`. -/
def failAt (time : Nat) (reason : Reason) (s : Session) : Session :=
  match s.writer with
  | none => if o.maxCaptures ≤ s.files then s else (s.startCapture o time reason 0).finishCapture
  | some capture =>
      finishCapture
        { s with writer := some { capture with
            comments := capture.comments ++ [reason.text ++ " at " ++ toString time] } }

/-- The window of the open file has passed. -/
def expired (time : Nat) (s : Session) : Bool := s.captureEnd.any fun stop => decide (stop < time)

/-- What `_take_pending` does with an event. -/
def act (e : Event) (s : Session) : Session :=
  let s := if s.expired e.time then s.finishCapture else s
  match e.severity with
  | .fatal => s.failAt o e.time (.fatal e.message)
  | .error => if s.canStart o then s.startCapture o e.time (.error e.message) o.post else s

/-- `_take_pending`, with the queue taken out of the session. -/
def takeEvents (upto : Nat) (fatalAtUpto : Bool) : List Event → Session → Session
  | [], s => { s with pending := [] }
  | e :: queue, s =>
      if upto < e.time ∨ (e.time = upto ∧ e.severity = .fatal ∧ fatalAtUpto = false) then
        { s with pending := e :: queue }
      else takeEvents upto fatalAtUpto queue (s.act o e)

/-- `_take_pending`. -/
def takePending (upto : Nat) (fatalAtUpto : Bool) (s : Session) : Session :=
  s.takeEvents o upto fatalAtUpto s.pending

/-! ## The change stream -/

/-- The loop of `on_changes`: the values, the ring and the values before the delivery of the signals it
changes. -/
def applyChange (time : Nat) (s : Session × (Nat → Option (Nat × Nat))) (c : Change) :
    Session × (Nat → Option (Nat × Nat)) :=
  ({ s.1 with
      cur := Function.update s.1.cur c.signal c.value
      ring :=
        if c.signal < o.vcd then s.1.ring ++ [⟨time, c.signal, s.1.cur c.signal, c.value⟩] else s.1.ring },
    Function.update s.2 c.signal (some (s.1.cur c.signal)))

def applyChanges (time : Nat) (changes : List Change) (s : Session) : Session × (Nat → Option (Nat × Nat)) :=
  changes.foldl (applyChange o time) (s, fun _ => none)

/-- The changes of traced signals are written to the open file. -/
def writeLive (time : Nat) (changes : List Change) (s : Session) : Session :=
  match s.writer with
  | none => s
  | some capture =>
      let written := changes.filter fun c => c.signal < o.vcd
      if written = [] then s
      else { s with writer := some { capture with blocks := capture.blocks ++ [(time, written)] } }

/-- `_eval_at`. -/
def evalAt (time : Nat) (old : Nat → Option (Nat × Nat)) (s : Session) : Bool :=
  match o.condition with
  | none => false
  | some condition => condition time s.cur fun k => (old k).getD (s.cur k)

/-- `_trim`. -/
def trim (time : Nat) (s : Session) : Session :=
  if s.writer.isSome then s else { s with ring := s.ring.dropWhile fun r => decide (r.time + o.pre < time) }

/-- The part of `on_changes` before the changes are applied. -/
def opened (time : Nat) (s : Session) : Session :=
  let s := s.takePending o time false
  if s.expired time then s.finishCapture else s

/-- The part until they are written. -/
def fed (time : Nat) (changes : List Change) (s : Session) : Session :=
  ((s.opened o time).applyChanges o time changes).1.writeLive o time changes

/-- The part before the trigger is evaluated. -/
def receive (time : Nat) (changes : List Change) (s : Session) : Session :=
  (s.fed o time changes).takePending o time true

/-- The condition as a delivery finds it. -/
def seen (time : Nat) (changes : List Change) (s : Session) : Bool :=
  (s.receive o time changes).evalAt o time ((s.opened o time).applyChanges o time changes).2

/-- `fired`: the trigger fires at a delivery. -/
def fired (time : Nat) (changes : List Change) (s : Session) : Bool :=
  o.condition.isSome && s.seen o time changes && !s.cond

/-- `on_changes`. -/
def onChanges (time : Nat) (changes : List Change) (s : Session) : Session :=
  let received := s.receive o time changes
  let s' := if o.condition.isSome then { received with cond := s.seen o time changes } else received
  let s' :=
    if s.fired o time changes && s'.canStart o then s'.startCapture o time (.trigger o.triggerReason) o.post else s'
  s'.trim o time

/-- `TraceHub.dispatch`, for the changes of one sink. -/
def dispatch (time : Nat) (changes : List Change) (s : Session) : Session :=
  if changes = [] then s else s.onChanges o time changes

/-- The state of a session that is attached at a time. -/
def attach (time : Nat) (cur : Values) : Session where
  cur := cur
  attachTime := time
  ring := []
  writer := none
  captureEnd := none
  finished := []
  files := 0
  cond := match o.condition with
    | none => false
    | some condition => condition time cur cur
  pending := []
  failed := none
  closed := false

/-! ## The other calls -/

/-- `_on_severity`. -/
def onSeverity (e : Event) (s : Session) : Session :=
  if (e.severity = .fatal ∧ o.onFailure = true) ∨ (e.severity = .error ∧ o.onError = true) then
    { s with pending := s.pending ++ [e] }
  else s

/-- `_sync`, with what the hub polls. -/
def sync (now : Nat) (polled : List Change) (s : Session) : Session :=
  (s.dispatch o now polled).takePending o now true

/-- `trigger`. -/
def trigger (now : Nat) (polled : List Change) (reason : String) (s : Session) : Session :=
  let s := s.sync o now polled
  if s.canStart o then s.startCapture o now (.manual reason) o.post else s

/-- `failure`. -/
def failure (now : Nat) (polled : List Change) (exc : Nat) (text : String) (s : Session) : Session :=
  if o.onFailure = false ∨ s.closed = true ∨ s.failed = some exc then s
  else
    ({ s with failed := some exc }.sync o now polled).failAt o now (.failure text)

/-- `close`. -/
def close (now : Nat) (polled : List Change) (s : Session) : Session :=
  if s.closed then s else { (s.sync o now polled).finishCapture with closed := true }

end Session

end Veriforge.Trace

import Veriforge.Trace.Changes

/-! # Windowed dumps

`VcdTraceSession` writes the changes of a time window to a file and can be paused. The file is the list of
its sections. -/

namespace Veriforge.Trace

inductive Keyword where
  | dumpvars
  | dumpoff
  | dumpon
  | dumpall

/-- What is written at once: a section with a value of every signal, the changes of a delivery, or a
comment. -/
inductive Section where
  | dump (keyword : Keyword) (time : Nat) (values : List (Nat × Nat))
  | changes (time : Nat) (changes : List Change)
  | comment (text : String)

/-- The arguments of a session: the widths of the signals and the window; `size` counts the characters of
the sections. -/
structure DumpOptions where
  widths : List Nat
  start : Option Nat
  stop : Option Nat
  limit : Option Nat
  size : List Section → Nat

/-- The values that `write_section` takes without any: every signal is x. -/
def DumpOptions.unknown (o : DumpOptions) : List (Nat × Nat) := o.widths.map fun w => (0, (1 <<< w) - 1)

/-- `VcdTraceSession`. -/
structure DumpSession where
  cur : Values
  paused : Bool
  limited : Bool
  closed : Bool
  started : Bool
  file : List Section

namespace DumpSession

variable (o : DumpOptions)

/-- `_values`. -/
def values (s : DumpSession) : List (Nat × Nat) := (List.range o.widths.length).map s.cur

/-- `write_section`. -/
def writeSection (keyword : Keyword) (time : Nat) (values : List (Nat × Nat)) (s : DumpSession) : DumpSession :=
  { s with file := s.file ++ [.dump keyword time values] }

/-- The session that is attached at a time. -/
def attach (time : Nat) (initial : Values) : DumpSession :=
  let s : DumpSession :=
    { cur := initial, paused := false, limited := false, closed := false
      started := o.start.all fun start => decide (start ≤ time)
      file := [] }
  if s.started then s.writeSection .dumpvars time (s.values o) else s

/-- `_writing`. -/
def writing (time : Nat) (s : DumpSession) : Bool :=
  s.started && !s.paused && !s.limited && o.stop.all fun stop => decide (time ≤ stop)

/-- `_check_limit`. -/
def checkLimit (s : DumpSession) : DumpSession :=
  if (o.limit.any fun limit => decide (limit ≤ o.size s.file)) && !s.limited then
    { s with limited := true, file := s.file ++ [.comment "$dumplimit reached"] }
  else s

/-- The window is due, and not open. -/
def due (time : Nat) (s : DumpSession) : Bool := !s.started && o.start.any fun start => decide (start ≤ time)

/-- The changes that `on_changes` writes. -/
def writeChanges (time : Nat) (changes : List Change) (s : DumpSession) : DumpSession :=
  if s.writing o time then
    ({ s with file := s.file ++ [Section.changes time changes] } : DumpSession).checkLimit o
  else s

/-- `on_changes`. -/
def onChanges (time : Nat) (changes : List Change) (s : DumpSession) : DumpSession :=
  if s.due o time then
    let start := o.start.getD 0
    let opened := if start < time then s.writeSection .dumpvars start (s.values o) else s
    let opened := { opened with cur := applied changes opened.cur }
    if time = start then { opened.writeSection .dumpvars time (opened.values o) with started := true }
    else { opened with started := true }.writeChanges o time changes
  else { s with cur := applied changes s.cur }.writeChanges o time changes

/-- `TraceHub.dispatch`, for the changes of one sink. -/
def dispatch (time : Nat) (changes : List Change) (s : DumpSession) : DumpSession :=
  if changes = [] then s else s.onChanges o time changes

/-- `pause`, with what the hub polls. -/
def pause (now : Nat) (polled : List Change) (s : DumpSession) : DumpSession :=
  let s := s.dispatch o now polled
  { if s.writing o now then s.writeSection .dumpoff now o.unknown else s with paused := true }

/-- `resume`. -/
def resume (now : Nat) (polled : List Change) (s : DumpSession) : DumpSession :=
  let s := s.dispatch o now polled
  let resumed := { s with paused := false }
  if s.paused && resumed.writing o now then resumed.writeSection .dumpon now (resumed.values o) else resumed

/-- `dump_all`. -/
def dumpAll (now : Nat) (polled : List Change) (s : DumpSession) : DumpSession :=
  let s := s.dispatch o now polled
  if s.writing o now then s.writeSection .dumpall now (s.values o) else s

/-- `close`. -/
def close (now : Nat) (polled : List Change) (s : DumpSession) : DumpSession :=
  if s.closed then s
  else
    let s := s.dispatch o now polled
    { if s.due o now then s.writeSection .dumpvars (o.start.getD 0) (s.values o) else s with closed := true }

end DumpSession

end Veriforge.Trace

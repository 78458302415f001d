import Veriforge.Sched.Continuous

/-! # The reference scheduler

`Scheduler._run_active_region`, `StatementExecutor.apply_nba`, `Scheduler._collect_triggered` and the
delta loop of `_run_single_step` and `settle` (`sim/scheduler.py`), for processes without timing
control. A state also keeps two things that no function of the source has and none here reads: the
store at the start of the time step and the store each block left when its last execution ended. -/

namespace Veriforge.Sched

variable {Name : Type} [DecidableEq Name]

/-- What an active region executes. -/
inductive Task (Name : Type) where
  /-- A popped event: a clock toggle, a drive. -/
  | event (body : Store Name → Effect Name)
  | block (p : Always Name)

/-- An active region under way. -/
structure Region (Name : Type) where
  store : Store Name
  queue : List (Update Name)
  /-- `originals`: the slots before the first write of the region. -/
  originals : List (Name × Slot)
  /-- `own`: who first wrote a signal of its own sensitivity, and the object it left there. -/
  own : Name → Option (Nat × Slot)
  /-- History: the store when a block ended. -/
  ended : Nat → Option (Store Name)

namespace Region

/-- `ctx.write_signal`. -/
def write (r : Region Name) (w : Name × Slot) : Region Name :=
  { r with
    store := Function.update r.store w.1 w.2
    originals :=
      if (dictGet w.1 r.originals).isSome then r.originals
      else dictSet w.1 (r.store w.1) r.originals }

/-- `_execute_process`. -/
def execute (r : Region Name) (e : Effect Name) : Region Name :=
  { e.writes.foldl write r with queue := r.queue ++ e.queued }

/-- One turn of the loop over the processes. -/
def run (r : Region Name) : Task Name → Region Name
  | .event body => r.execute (body r.store)
  | .block p =>
      let r' := r.execute (p.body r.store)
      { r' with
        own := fun n =>
          if n ∈ p.selfSens ∧ dictGet n r.originals = none ∧ (dictGet n r'.originals).isSome
          then some (p.id, r'.store n) else r.own n
        ended := Function.update r.ended p.id (some r'.store) }

/-- `_own_changes`: the object is still there; a memory has none to compare. -/
def ownChanges (D : Design Name) (r : Region Name) (n : Name) : Option Nat :=
  (r.own n).bind fun o => if D.memory n ∨ r.store n = o.2 then some o.1 else none

/-- The true dirty set: final against original; a memory counts as changed. -/
def dirty (D : Design Name) (r : Region Name) : Finset Name :=
  ((r.originals.filter fun o => D.memory o.1 || decide (o.2.bits ≠ (r.store o.1).bits)).map
    (·.1)).toFinset

end Region

/-- The scheduler between the parts of a time step. -/
structure Kernel (Name : Type) where
  store : Store Name
  /-- `executor.nba_queue`. -/
  queue : List (Update Name)
  /-- `active_dirty`. -/
  active : Finset Name
  /-- `_own_changes`. -/
  own : Name → Option Nat
  /-- `_prev_signals`, if there is a snapshot. -/
  prev : Option (Store Name)
  /-- `_edge_changed`. -/
  edgeChanged : Finset Name
  /-- `_triggered_seq_procs`. -/
  triggeredSeq : Finset Nat
  /-- History: the store before the step's first change. -/
  start : Store Name
  /-- History: the store when a block's last execution in this step ended. -/
  endedAt : Nat → Option (Store Name)

/-- An entry of `apply_nba`. -/
def applyUpdate (p : Store Name × Finset Name) (u : Update Name) : Store Name × Finset Name :=
  if (u.commit (p.1 u.name)).bits ≠ (p.1 u.name).bits then
    (Function.update p.1 u.name (u.commit (p.1 u.name)), insert u.name p.2)
  else p

/-- `apply_nba`: the store and the names that changed. -/
def applyNba (σ : Store Name) (queue : List (Update Name)) : Store Name × Finset Name :=
  queue.foldl applyUpdate (σ, ∅)

namespace Design

variable (D : Design Name)

/-- The processes of a region, one after the other. -/
def runTasks (K : Kernel Name) (ts : List (Task Name)) : Region Name :=
  ts.foldl Region.run ⟨K.store, K.queue, [], fun _ => none, fun _ => none⟩

/-- `_run_active_region`. -/
def runActiveRegion (limit : Nat) (K : Kernel Name) (ts : List (Task Name)) : Kernel Name :=
  let r := runTasks K ts
  let p := if (r.dirty D).Nonempty then D.propagate limit r.store (r.dirty D) else (r.store, r.dirty D)
  { K with
    store := p.1
    queue := r.queue
    active := p.2
    own := r.ownChanges D
    endedAt := fun i => (r.ended i).or (K.endedAt i) }

/-- The snapshot's edge on a signal. -/
def edge (K : Kernel Name) (n : Name) : Option Edge :=
  K.prev.bind fun prev => D.edgeDirection prev K.store n

/-- Some dirty signal of its sensitivity is not its own change. -/
def wakes (own : Name → Option Nat) (dirty : Finset Name) (c : Always Name) : Bool :=
  decide (∃ n ∈ c.sens ∩ dirty, own n ≠ some c.id)

/-- One of the block's edges is there. -/
def fires (K : Kernel Name) (p : Always Name) : Bool :=
  p.edges.any fun e => decide (e.1 ∈ K.edgeChanged) && decide (D.edge K e.1 = some e.2)

/-- `_collect_triggered`: the combinational blocks in process order, then the edge-triggered ones. -/
def collectTriggered (K : Kernel Name) (dirty others : Finset Name) : Kernel Name × List (Always Name) :=
  let own := fun n => if n ∈ others then none else K.own n
  let combos := D.combos.filter (wakes own dirty)
  let K' := { K with
    own := fun _ => none
    edgeChanged := K.edgeChanged ∪ (dirty ∩ D.seqEdgeNames) }
  let seqs := D.seqs.filter fun p => D.fires K' p && decide (p.id ∉ K.triggeredSeq)
  ({ K' with triggeredSeq := K.triggeredSeq ∪ (seqs.map (·.id)).toFinset }, combos ++ seqs)

/-- The first half of a delta cycle: apply the updates, propagate them and see who is triggered. -/
def commit (limit : Nat) (K : Kernel Name) : Kernel Name × List (Always Name) :=
  let p := applyNba K.store K.queue
  let q := if p.2.Nonempty then D.propagate limit p.1 p.2 else p
  D.collectTriggered { K with store := q.1, queue := [] } (K.active ∪ q.2) q.2

/-- `settle` runs the assigns once more after each region. -/
def again (limit : Nat) (K : Kernel Name) : Kernel Name :=
  { K with
    store := (D.propagate limit K.store K.active).1
    active := (D.propagate limit K.store K.active).2 }

/-- The second half: run what was triggered. -/
def runTriggered (extra : Bool) (limit : Nat) (K : Kernel Name) (ts : List (Task Name)) : Kernel Name :=
  if extra then D.again limit (D.runActiveRegion limit K ts) else D.runActiveRegion limit K ts

/-- A delta cycle. The region is skipped when it is empty and no update changed anything. -/
def deltaCycle (extra : Bool) (limit : Nat) (K : Kernel Name) : Kernel Name :=
  let c := D.commit limit K
  if c.2 ≠ [] ∨ (applyNba K.store K.queue).2.Nonempty then
    D.runTriggered extra limit c.1 (c.2.map .block)
  else { c.1 with active := ∅ }

/-- The condition of the delta loop. -/
def busy (K : Kernel Name) : Bool := decide (K.active.Nonempty) || !K.queue.isEmpty

/-- The delta loop with the cycles left: `none` where the source raises. -/
def deltaLoop (extra : Bool) (limit : Nat) : Nat → Kernel Name → Option (Kernel Name)
  | fuel, K =>
      if busy K then
        match fuel with
        | 0 => none
        | fuel + 1 => deltaLoop extra limit fuel (D.deltaCycle extra limit K)
      else some K

/-- The scheduler at the start of a time step. -/
def atStep (σ : Store Name) : Kernel Name where
  store := σ
  queue := []
  active := ∅
  own := fun _ => none
  prev := some σ
  edgeChanged := ∅
  triggeredSeq := ∅
  start := σ
  endedAt := fun _ => none

/-- `_run_single_step` with the popped events. -/
def runSingleStep (limit : Nat) (σ : Store Name) (events : List (Store Name → Effect Name)) : Option (Kernel Name) :=
  D.deltaLoop false limit limit (D.runActiveRegion limit (atStep σ) (events.map .event))

end Design

end Veriforge.Sched

import Mathlib.Logic.Function.Basic
import Mathlib.Data.List.Dedup
import Mathlib.Data.List.Pairwise

/-! # The generated delta loop

The `delta_loop` that `sim/compiled/_gen_sections.py` generates, with its two engines: `_gen_delta_loop_scan`
visits every ranked process in each iteration, `_gen_delta_loop_queue` keeps bitmaps of the ranks that are
pending. A cell is one bit of a signal or of a memory word; its owner is the sid that is marked dirty when it is
written, the marker for the words of a memory. What else a process reads and changes (`$finish`, its output, the
snapshots of the memories) is the environment. -/

namespace Veriforge.Compiled

/-! ## The context -/

/-- One bit of `val` and of `mask`. -/
structure Bit where
  val : Bool
  mask : Bool
  deriving DecidableEq

/-- `ERR_NONE` and the other codes. -/
inductive ErrorCode
  | none | whileLoopLimit | foreverLoopLimit | deltaLimit | nbaMemOverflow
  deriving DecidableEq

/-- The staged signals of `nba_list`, the entries of the memory queue, and `nba_pending`. -/
structure Nba (Cell : Type) where
  signals : List (List (Cell × Bit))
  memRange : List (List (Cell × Bit))
  pending : Bool
  deriving DecidableEq

/-- `SimCtx` -/
structure SimCtx (Sid Cell World : Type) where
  value : Cell → Bit
  /-- The sids that are marked, in the order of their first mark. -/
  dlist : List Sid
  boot : Bool
  nba : Nba Cell
  world : World
  errorCode : ErrorCode

variable {Sid Cell World : Type} [DecidableEq Sid] [DecidableEq Cell]

/-- `mark_dirty` -/
def SimCtx.markDirty (c : SimCtx Sid Cell World) (s : Sid) : SimCtx Sid Cell World :=
  if s ∈ c.dlist then c else { c with dlist := c.dlist ++ [s] }

/-- What the body of a process does, one after the other. -/
inductive Effect (Cell World : Type)
  /-- A write to a signal, which stores and marks only where the value differs. -/
  | write (cell : Cell) (v : Bit)
  /-- A write to a memory word, which always marks. -/
  | writeMem (cell : Cell) (v : Bit)
  | stage (nba : Nba Cell)
  | world (w : World)
  | error (code : ErrorCode)

section Effects

variable (owner : Cell → Sid)

/-- The sid that is marked. -/
def Effect.marks (c : SimCtx Sid Cell World) : Effect Cell World → Option Sid
  | .write cell v => if c.value cell = v then none else some (owner cell)
  | .writeMem cell _ => some (owner cell)
  | _ => none

def Effect.exec (c : SimCtx Sid Cell World) : Effect Cell World → SimCtx Sid Cell World
  | .write cell v =>
      if c.value cell = v then c
      else ({ c with value := Function.update c.value cell v } : SimCtx Sid Cell World).markDirty (owner cell)
  | .writeMem cell v =>
      ({ c with value := Function.update c.value cell v } : SimCtx Sid Cell World).markDirty (owner cell)
  | .stage nba => { c with nba }
  | .world w => { c with world := w }
  | .error code => { c with errorCode := code }

/-- The call of a process that does these things, and the `wlog` of the call. -/
def run (c : SimCtx Sid Cell World) : List (Effect Cell World) → SimCtx Sid Cell World × List Sid
  | [] => (c, [])
  | e :: es => ((run (e.exec owner c) es).1, (e.marks owner c).toList ++ (run (e.exec owner c) es).2)

end Effects

/-! ## Processes -/

/-- A continuous assignment that `_cont_assign_is_rerun_pure` accepts: what it writes to signals depends on the
signals of its sensitivity set only. -/
structure ContAssign (Sid Cell : Type) (owner : Cell → Sid) where
  sens : List Sid
  drive : (Cell → Bit) → List (Cell × Bit)
  sens_ne_nil : sens ≠ []
  drive_eq : ∀ s s' : Cell → Bit, (∀ cell, owner cell ∈ sens → s cell = s' cell) → drive s = drive s'

/-- A combinational block. -/
structure Combo (Sid Cell World : Type) where
  sens : List Sid
  /-- `always_comb` or `always_latch`. -/
  start : Bool
  body : SimCtx Sid Cell World → List (Effect Cell World)

/-- An edge-triggered block: its edges, a rising one being `true`, and its body, which also reads the snapshot. -/
structure Seq (Sid Cell World : Type) where
  edges : List (Sid × Bool)
  body : (Cell → Bit) → SimCtx Sid Cell World → List (Effect Cell World)

/-- What the delta loop is generated from. -/
structure Circuit (Sid Cell World : Type) where
  owner : Cell → Sid
  /-- The lowest bit of a signal. -/
  bit0 : Sid → Cell
  /-- The bits of the signals that are not markers of memories. -/
  signals : List Cell
  /-- In dependency order. -/
  conts : List (ContAssign Sid Cell owner)
  combos : List (Combo Sid Cell World)
  seqs : List (Seq Sid Cell World)
  deltaLimit : Nat

/-- A process of `_delta_ranked_processes`. -/
inductive Ranked (Sid Cell World : Type) (owner : Cell → Sid)
  | cont (a : ContAssign Sid Cell owner)
  | combo (p : Combo Sid Cell World)

section Ranks

variable {owner : Cell → Sid}

def Ranked.sens : Ranked Sid Cell World owner → List Sid
  | .cont a => a.sens
  | .combo p => p.sens

/-- `_delta_start_ranks` -/
def Ranked.start : Ranked Sid Cell World owner → Bool
  | .cont _ => true
  | .combo p => p.start

def Ranked.pure : Ranked Sid Cell World owner → Bool
  | .cont _ => true
  | .combo _ => false

def Ranked.body (c : SimCtx Sid Cell World) : Ranked Sid Cell World owner → List (Effect Cell World)
  | .cont a => (a.drive c.value).map fun cv => .write cv.1 cv.2
  | .combo p => p.body c

/-- The call of the process. -/
def Ranked.call (p : Ranked Sid Cell World owner) (c : SimCtx Sid Cell World) : SimCtx Sid Cell World × List Sid :=
  run owner c (p.body c)

/-- Whether the process reads one of the sids. -/
def Ranked.reads (p : Ranked Sid Cell World owner) (sids : List Sid) : Bool := p.sens.any (· ∈ sids)

/-- A process without sensitivity set that starts runs in every iteration. -/
def Ranked.always (p : Ranked Sid Cell World owner) : Bool := p.sens.isEmpty && p.start

end Ranks

variable (k : Circuit Sid Cell World)

/-- `_delta_ranked_processes` -/
def Circuit.ranked : List (Ranked Sid Cell World k.owner) := k.conts.map .cont ++ k.combos.map .combo

/-- `_delta_interesting_sids` -/
def Circuit.interesting : List Sid :=
  k.conts.flatMap (·.sens) ++ k.combos.flatMap (·.sens) ++ k.seqs.flatMap fun p => p.edges.map Prod.fst

/-- `DELTA_CONV_CHECK_START` -/
def Circuit.convCheckStart : Nat := min 16 (k.deltaLimit - 2)

/-! ## What the engines share -/

/-- `_qpos` and `_qneg`: an edge of the signal against the snapshot. -/
def edge (snap value : Bit) : Bool → Bool
  | true => (!value.mask && value.val && (snap.mask || !snap.val)) || (value.mask && !snap.mask && !snap.val)
  | false => (!value.mask && !value.val && (snap.mask || snap.val)) || (value.mask && !snap.mask && snap.val)

/-- `DL_SEQ_EDGE_SID` -/
def Circuit.edgeSids : List Sid := (k.seqs.flatMap fun p => p.edges.map Prod.fst).dedup

/-- The blocks that fire and are not done yet, in declaration order. The shorter of the dirty sids and the edge
signals is looked at. -/
def Circuit.fired (snap : Cell → Bit) (trigger : List Sid) (done : List Nat) (c : SimCtx Sid Cell World) :
    List (Seq Sid Cell World × Nat) :=
  let scanned := if trigger.length < k.edgeSids.length then trigger else k.edgeSids
  k.seqs.zipIdx.filter fun q => decide (q.2 ∉ done) && scanned.any fun s =>
    q.1.edges.any fun e => decide (e.1 = s) && edge (snap (k.bit0 s)) (c.value (k.bit0 s)) e.2

/-- The calls of the fired blocks: `_sdone` afterwards, or the context in which the loop returns. -/
def runSeqs (snap : Cell → Bit) : List (Seq Sid Cell World × Nat) → SimCtx Sid Cell World → List Nat →
      Except (SimCtx Sid Cell World) (SimCtx Sid Cell World × List Nat)
  | [], c, done => .ok (c, done)
  | q :: qs, c, done =>
      let c' := (run k.owner c (q.1.body snap c)).1
      if c'.errorCode = .none then runSeqs snap qs c' (q.2 :: done) else .error c'

/-- `_delta_nba_apply_lines` -/
def Circuit.nbaApply (c : SimCtx Sid Cell World) : SimCtx Sid Cell World :=
  if k.seqs.isEmpty || !c.nba.pending then c
  else
    { (run k.owner c (c.nba.signals.flatten.map (fun cv => .write cv.1 cv.2) ++
        c.nba.memRange.flatten.map fun cv => .writeMem cv.1 cv.2)).1 with nba := ⟨[], [], false⟩ }

/-- How an iteration ends: in a `return`, in a `break`, or with the next one. -/
inductive Step (Sid Cell World : Type)
  | ret (c : SimCtx Sid Cell World)
  | stop (c : SimCtx Sid Cell World)
  | next (c : SimCtx Sid Cell World) (done : List Nat) (pnext : Nat → Bool)

/-- The end of an iteration that began with the values `before`: the early exit and the convergence of the values. -/
def Circuit.conclude (it : Nat) (before : Cell → Bit) (c : SimCtx Sid Cell World) (done : List Nat)
    (pnext : Nat → Bool) : Step Sid Cell World :=
  if c.dlist.any (· ∈ k.interesting) then
    if k.convCheckStart ≤ it ∧ (k.seqs.isEmpty || !c.nba.pending) ∧ k.signals.all fun cell => c.value cell = before cell
    then .stop c
    else .next c done pnext
  else .stop c

/-- How an engine runs the ranked processes in an iteration: from the number of the iteration, `_bootit`, the
sids that were dirty, and `_pnext`. -/
abbrev Pass (Sid Cell World : Type) :=
  Nat → Bool → List Sid → (Nat → Bool) → SimCtx Sid Cell World →
    Except (SimCtx Sid Cell World) (SimCtx Sid Cell World × (Nat → Bool))

/-- `_bootit` -/
def bootIt (it : Nat) (c : SimCtx Sid Cell World) : Bool := it == 0 && (c.boot || c.dlist.isEmpty)

/-- The context in which the edges are detected. -/
def taken (it : Nat) (c : SimCtx Sid Cell World) : SimCtx Sid Cell World :=
  { c with dlist := [], boot := c.boot && !bootIt it c }

/-- One iteration. -/
def Circuit.iteration (pass : Pass Sid Cell World) (snap : Cell → Bit) (it : Nat) (done : List Nat)
    (pnext : Nat → Bool) (c : SimCtx Sid Cell World) : Step Sid Cell World :=
  if c.dlist.isEmpty && !bootIt it c then .stop c
  else
    match runSeqs k snap (k.fired snap c.dlist done (taken it c)) (taken it c) done with
    | .error c' => .ret c'
    | .ok (c', done') =>
        match pass it (bootIt it c) c.dlist pnext (k.nbaApply c') with
        | .error c'' => .ret c''
        | .ok (c'', pnext') => k.conclude it c.value c'' done' pnext'

/-- The iterations that are left, with the number of the next one: the context and the count that is returned. -/
def Circuit.deltaLoop (pass : Pass Sid Cell World) (snap : Cell → Bit) :
    Nat → Nat → List Nat → (Nat → Bool) → SimCtx Sid Cell World → SimCtx Sid Cell World × Nat
  | 0, it, _, _, c => ({ c with dlist := [], errorCode := .deltaLimit }, it - 1)
  | n + 1, it, done, pnext, c =>
      match k.iteration pass snap it done pnext c with
      | .ret c' => (c', it)
      | .stop c' => ({ c' with dlist := [] }, it)
      | .next c' done' pnext' => deltaLoop pass snap n (it + 1) done' pnext' c'

/-! ## The scan engine -/

/-- Whether the scan runs the process when it comes to it. -/
def scanFires (boot : Bool) (trigger : List Sid) (c : SimCtx Sid Cell World) (p : Ranked Sid Cell World k.owner) : Bool :=
  p.always || (boot && p.start) || p.reads trigger || p.reads c.dlist

def scanPass (boot : Bool) (trigger : List Sid) : List (Ranked Sid Cell World k.owner) → SimCtx Sid Cell World →
    Except (SimCtx Sid Cell World) (SimCtx Sid Cell World)
  | [], c => .ok c
  | p :: ps, c =>
      if scanFires k boot trigger c p then
        if (p.call c).1.errorCode = .none then scanPass boot trigger ps (p.call c).1 else .error (p.call c).1
      else scanPass boot trigger ps c

/-- The pass of `_gen_delta_loop_scan`. -/
def Circuit.scan : Pass Sid Cell World := fun _ boot trigger pnext c =>
  match scanPass k boot trigger k.ranked c with
  | .ok c' => .ok (c', pnext)
  | .error c' => .error c'

/-- `_gen_delta_loop_scan` -/
def Circuit.scanLoop (snap : Cell → Bit) (c : SimCtx Sid Cell World) : SimCtx Sid Cell World × Nat :=
  k.deltaLoop k.scan snap k.deltaLimit 0 [] (fun _ => false) c

/-! ## The queue engine -/

/-- `_pend` at the start of the pass: the seeds of the iteration and of the sids that the edge-triggered blocks
and the commit marked. -/
def seeds (it : Nat) (boot : Bool) (trigger : List Sid) (pnext : Nat → Bool) (c : SimCtx Sid Cell World) (r : Nat) :
    Bool :=
  match k.ranked[r]? with
  | none => false
  | some p =>
      (if it = 0 then (boot && p.start) || p.reads trigger else (!p.pure && p.reads trigger) || pnext r) ||
        p.always || p.reads c.dlist

/-- `_pend` after the call at rank `r` with this `wlog`. -/
def pendAfter (r : Nat) (wlog : List Sid) (pend : Nat → Bool) (q : Nat) : Bool :=
  pend q || (decide (r < q) && (k.ranked[q]?).any fun p => p.reads wlog)

/-- `_pnext` after the call at rank `r` with this `wlog`. -/
def pnextAfter (r : Nat) (wlog : List Sid) (pnext : Nat → Bool) (q : Nat) : Bool :=
  pnext q || (decide (q ≤ r) && (k.ranked[q]?).any fun p => p.pure && p.reads wlog)

/-- The pending ranks in order, from rank `r` on. -/
def queuePass : List (Ranked Sid Cell World k.owner) → Nat → (Nat → Bool) → (Nat → Bool) → SimCtx Sid Cell World →
    Except (SimCtx Sid Cell World) (SimCtx Sid Cell World × (Nat → Bool))
  | [], _, _, pnext, c => .ok (c, pnext)
  | p :: ps, r, pend, pnext, c =>
      if pend r then
        if (p.call c).1.errorCode = .none then
          queuePass ps (r + 1) (pendAfter k r (p.call c).2 pend) (pnextAfter k r (p.call c).2 pnext) (p.call c).1
        else .error (p.call c).1
      else queuePass ps (r + 1) pend pnext c

/-- The pass of `_gen_delta_loop_queue`. -/
def Circuit.queue : Pass Sid Cell World := fun it boot trigger pnext c =>
  queuePass k k.ranked 0 (seeds k it boot trigger pnext c) (fun _ => false) c

/-- `_gen_delta_loop_queue` -/
def Circuit.queueLoop (snap : Cell → Bit) (c : SimCtx Sid Cell World) : SimCtx Sid Cell World × Nat :=
  k.deltaLoop k.queue snap k.deltaLimit 0 [] (fun _ => false) c

end Veriforge.Compiled

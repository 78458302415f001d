import Veriforge.Sched.Tracking

/-! # Driving and settling

`Scheduler.drive_signal` and `Scheduler.settle`: the drives of a batch are propagated through the
assigns, wake their readers and fire the edges they make against the state before the batch. The
first `settle` of a run starts with `_bootstrap_combos`. `Runs` names the active regions of the
kernel: the ones a delta loop begins with, and how one leads to the next. -/

namespace Veriforge.Sched

variable {Name : Type} [DecidableEq Name]

/-- The scheduler between calls. -/
structure Rest (Name : Type) where
  store : Store Name
  own : Name → Option Nat
  /-- `_combo_bootstrapped`. -/
  bootstrapped : Bool
  /-- `_pending_drives`. -/
  pending : Finset Name
  /-- `_settle_snapshot`: the store before the first pending drive. -/
  snapshot : Store Name
  /-- What differs from the snapshot was driven. -/
  driven : ∀ n, store n ≠ snapshot n → n ∈ pending

/-- `drive_signal`. -/
def driveSignal (S : Rest Name) (w : Name × Slot) : Rest Name where
  store := Function.update S.store w.1 w.2
  own := S.own
  bootstrapped := S.bootstrapped
  pending := insert w.1 S.pending
  snapshot := if S.pending.Nonempty then S.snapshot else S.store
  driven := by
    intro n hn
    by_cases h : n = w.1
    · exact h ▸ Finset.mem_insert_self _ _
    · rw [Function.update_of_ne h] at hn
      split at hn
      · exact Finset.mem_insert_of_mem (S.driven n hn)
      · exact absurd rfl hn

namespace Design

variable (D : Design Name)

/-- `_start_procs`. -/
def startProcs : List (Always Name) := D.combos.filter (·.atStart)

/-- The fan-out of the drives before the bootstrap. -/
def fanOut (limit : Nat) (S : Rest Name) : Store Name × Finset Name :=
  if S.pending.Nonempty then D.propagate limit S.store S.pending else (S.store, ∅)

/-- Before anything has run: there is no snapshot yet, and no change is anybody's own. -/
def unstarted (σ : Store Name) : Kernel Name where
  store := σ
  queue := []
  active := ∅
  own := fun _ => none
  prev := none
  edgeChanged := ∅
  triggeredSeq := ∅
  start := σ
  endedAt := fun _ => none

/-- `_bootstrap_combos`. -/
def bootstrap (limit : Nat) (K : Kernel Name) : Option (Kernel Name) :=
  D.deltaLoop false limit limit
    (if D.startProcs ≠ [] then D.runActiveRegion limit K (D.startProcs.map .block) else K)

/-- The drives of a batch on the kernel `K`, propagated; `drives` holds their names. -/
def driven (limit : Nat) (K : Kernel Name) (drives : Finset Name) : Kernel Name × List (Always Name) :=
  let p := D.propagate limit K.store drives
  D.collectTriggered { K with store := p.1, edgeChanged := ∅, triggeredSeq := ∅ } p.2 p.2

/-- Between two batches of a started simulation. -/
def atSettle (S : Rest Name) : Kernel Name where
  store := S.store
  queue := []
  active := ∅
  own := S.own
  prev := some S.snapshot
  edgeChanged := ∅
  triggeredSeq := ∅
  start := S.snapshot
  endedAt := fun _ => none

/-- The first batch: a drive is a starting value, not an edge. -/
def atFirstSettle (S : Rest Name) (K : Kernel Name) : Kernel Name :=
  { K with prev := some K.store, start := S.snapshot }

/-- The rest of a batch: the triggered blocks, and the delta loop. -/
def settleLoop (limit : Nat) (K : Kernel Name) (ts : List (Always Name)) : Option (Kernel Name) :=
  if ts ≠ [] then D.deltaLoop true limit limit (D.runTriggered true limit K (ts.map .block)) else some K

/-- The state a kernel leaves between calls. -/
def resting (K : Kernel Name) : Rest Name where
  store := K.store
  own := K.own
  bootstrapped := true
  pending := ∅
  snapshot := K.store
  driven := fun _ h => absurd rfl h

/-- The first batch after the bootstrap: the blocks it started do not run again. -/
def drivenFirst (limit : Nat) (S : Rest Name) (K : Kernel Name) (boot : Finset Name) :
    Kernel Name × List (Always Name) :=
  let c := D.driven limit (atFirstSettle S K) (S.pending ∪ boot)
  (c.1, if D.combos ≠ [] then c.2.filter fun p => decide (p.id ∉ D.startProcs.map (·.id)) else c.2)

/-- The bootstrap of the first `settle`, and the fan-out of the drives it started from. -/
def boot (limit : Nat) (S : Rest Name) : Option (Kernel Name × Finset Name) :=
  if D.combos ≠ [] then
    (D.bootstrap limit (unstarted (D.fanOut limit S).1)).map fun K => (K, (D.fanOut limit S).2)
  else some (unstarted S.store, ∅)

/-- `settle`. -/
def settle (limit : Nat) (S : Rest Name) : Option (Rest Name) :=
  if S.bootstrapped then
    if S.pending.Nonempty then
      let c := D.driven limit (atSettle S) S.pending
      (D.settleLoop limit c.1 c.2).map resting
    else some S
  else
    (D.boot limit S).bind fun b =>
      if S.pending.Nonempty then
        let c := D.drivenFirst limit S b.1 b.2
        (D.settleLoop limit c.1 c.2).map resting
      else some (resting b.1)

/-- The delta loops of the kernel run the region `ts` in the state `K`. `extra` is set in the loop of
`settle`, which propagates twice. -/
inductive Runs (limit : Nat) : Bool → Kernel Name → List (Task Name) → Prop where
  | step (σ : Store Name) (es : List (Store Name → Effect Name)) : Runs limit false (atStep σ) (es.map .event)
  | boot (S : Rest Name) (hS : S.bootstrapped = false) :
      Runs limit false (unstarted (D.fanOut limit S).1) (D.startProcs.map .block)
  | settle (S : Rest Name) (hS : S.bootstrapped = true) :
      Runs limit true (D.driven limit (atSettle S) S.pending).1
        ((D.driven limit (atSettle S) S.pending).2.map .block)
  | first (S : Rest Name) (hS : S.bootstrapped = false) (b : Kernel Name × Finset Name)
      (hb : D.boot limit S = some b) :
      Runs limit true (D.drivenFirst limit S b.1 b.2).1 ((D.drivenFirst limit S b.1 b.2).2.map .block)
  | round {extra : Bool} {K : Kernel Name} {ts : List (Task Name)} (h : Runs limit extra K ts)
      (hbusy : busy (D.runTriggered extra limit K ts) = true) :
      Runs limit extra (D.commit limit (D.runTriggered extra limit K ts)).1
        ((D.commit limit (D.runTriggered extra limit K ts)).2.map .block)

variable {D}

/-- An invariant of the delta cycles holds where the loop ends, and nothing is left to do there. -/
theorem deltaLoop_induct {extra : Bool} {limit : Nat} {P : Kernel Name → Prop}
    (hstep : ∀ K, P K → busy K = true → P (D.deltaCycle extra limit K)) {fuel : Nat} {K K' : Kernel Name}
    (h : D.deltaLoop extra limit fuel K = some K') (h0 : P K) : P K' ∧ busy K' = false := by
  induction fuel generalizing K with
  | zero =>
    rw [deltaLoop] at h
    split at h
    · exact nomatch h
    · next hb => exact Option.some.inj h ▸ ⟨h0, Bool.not_eq_true _ ▸ hb⟩
  | succ fuel ih =>
    rw [deltaLoop] at h
    split at h
    · next hb => exact ih h (hstep K h0 hb)
    · next hb => exact Option.some.inj h ▸ ⟨h0, Bool.not_eq_true _ ▸ hb⟩

/-- A region without processes does nothing. -/
theorem runActiveRegion_nil (limit : Nat) (K : Kernel Name) :
    D.runActiveRegion limit K [] = { K with active := ∅, own := fun _ => none } := rfl

/-- The region that a cycle skips would have done nothing. -/
theorem deltaCycle_eq (extra : Bool) (limit : Nat) (K : Kernel Name) : D.deltaCycle extra limit K
      = D.runTriggered extra limit (D.commit limit K).1 ((D.commit limit K).2.map .block) := by
  unfold deltaCycle
  dsimp only
  split
  · rfl
  · next h =>
    push Not at h
    rw [h.1, List.map_nil]
    cases extra with
    | false => rfl
    | true =>
      change _ = D.again limit { (D.commit limit K).1 with active := ∅, own := fun _ => none }
      unfold again
      rw [propagate_empty]
      rfl

end Design

end Veriforge.Sched

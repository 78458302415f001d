import Veriforge.Sched.Commit

/-! # The VM scheduler

The Python delta loop of `VMScheduler._run_event_loop` and of `VMScheduler.settle`
(`sim/vm/vm_scheduler.py`), on the same designs. The interpreter records every name a store changes,
so `interpreter.dirty` is exact where the reference scheduler compares before and after; the assigns
wait until the updates are applied; and the processes come in the order of a set's iteration. -/

namespace Veriforge.Sched

variable {Name : Type} [DecidableEq Name]

/-- The order in which a set is iterated over. -/
structure SetOrder (Name : Type) where
  list : Finset Name → List Name
  mem_list : ∀ s n, n ∈ list s ↔ n ∈ s

/-- The elements that come first with their id, those with an id in `seen` left out. -/
def firstsBy {α : Type} (f : α → Nat) : List Nat → List α → List α
  | _, [] => []
  | seen, a :: as => if f a ∈ seen then firstsBy f seen as else a :: firstsBy f (f a :: seen) as

theorem firstsBy_spec {α : Type} (f : α → Nat) (as : List α) :
    ∀ seen, firstsBy f seen as ⊆ as ∧ ((firstsBy f seen as).map f).Nodup ∧ (∀ a ∈ firstsBy f seen as, f a ∉ seen) ∧
      ∀ a ∈ as, f a ∈ seen ∨ ∃ b ∈ firstsBy f seen as, f b = f a := by
  induction as with
  | nil => exact fun seen => ⟨List.Subset.refl _, List.nodup_nil, by simp [firstsBy], by simp⟩
  | cons a as ih =>
    intro seen
    rw [firstsBy]
    split
    · next h =>
      obtain ⟨hsub, hnd, hnew, hall⟩ := ih seen
      refine ⟨List.Subset.trans hsub (List.subset_cons_self _ _), hnd, hnew, ?_⟩
      intro b hb
      rcases List.mem_cons.mp hb with rfl | hb
      · exact Or.inl h
      · exact hall b hb
    · next h =>
      obtain ⟨hsub, hnd, hnew, hall⟩ := ih (f a :: seen)
      refine ⟨List.cons_subset_cons _ hsub, ?_, ?_, ?_⟩
      · refine List.nodup_cons.mpr ⟨fun hin => ?_, hnd⟩
        obtain ⟨b, hb, hba⟩ := List.mem_map.mp hin
        exact hnew b hb (hba ▸ List.mem_cons_self)
      · intro b hb
        rcases List.mem_cons.mp hb with rfl | hb
        · exact h
        · exact fun hin => hnew b hb (List.mem_cons_of_mem _ hin)
      · intro b hb
        rcases List.mem_cons.mp hb with rfl | hb
        · exact Or.inr ⟨b, List.mem_cons_self, rfl⟩
        · rcases hall b hb with hs | ⟨c, hc, hcb⟩
          · rcases List.mem_cons.mp hs with hs | hs
            · exact Or.inr ⟨a, List.mem_cons_self, hs.symm⟩
            · exact Or.inl hs
          · exact Or.inr ⟨c, List.mem_cons_of_mem _ hc, hcb⟩

/-! ## Stores -/

/-- `Op.STORE_SIG` and its kind: a store that changes nothing leaves `dirty` alone. -/
def vmWrite (p : Store Name × Finset Name) (w : Name × Slot) : Store Name × Finset Name :=
  if w.2.bits ≠ (p.1 w.1).bits then (Function.update p.1 w.1 w.2, insert w.1 p.2) else p

/-- The stores of a program. -/
def vmExecute (p : Store Name × Finset Name) (ws : List (Name × Slot)) : Store Name × Finset Name :=
  ws.foldl vmWrite p

/-- What the stores change is dirty, and nothing else becomes so. -/
theorem vmExecute_spec (ws : List (Name × Slot)) : ∀ p : Store Name × Finset Name,
    p.2 ⊆ (vmExecute p ws).2 ∧ (∀ n, n ∈ (vmExecute p ws).2 → n ∈ p.2 ∨ n ∈ ws.map (·.1)) ∧
      ∀ n, (vmExecute p ws).1 n ≠ p.1 n → n ∈ (vmExecute p ws).2 ∧ n ∈ ws.map (·.1) := by
  induction ws with
  | nil => exact fun p => ⟨Finset.Subset.refl _, fun n h => Or.inl h, fun n h => absurd rfl h⟩
  | cons w ws ih =>
    intro p
    obtain ⟨hsub, hmem, hch⟩ := ih (vmWrite p w)
    change p.2 ⊆ (vmExecute (vmWrite p w) ws).2 ∧ (∀ n, n ∈ (vmExecute (vmWrite p w) ws).2 → _)
      ∧ ∀ n, (vmExecute (vmWrite p w) ws).1 n ≠ p.1 n → n ∈ (vmExecute (vmWrite p w) ws).2 ∧ _
    have hone : p.2 ⊆ (vmWrite p w).2 ∧ (∀ n, n ∈ (vmWrite p w).2 → n ∈ p.2 ∨ n = w.1) ∧
        ∀ n, (vmWrite p w).1 n ≠ p.1 n → n ∈ (vmWrite p w).2 ∧ n = w.1 := by
      unfold vmWrite
      split
      · refine ⟨Finset.subset_insert _ _, fun n h => (Finset.mem_insert.mp h).symm, fun n hn => ?_⟩
        have hw : n = w.1 := by
          by_contra hne
          exact hn (Function.update_of_ne hne _ _)
        exact ⟨Finset.mem_insert.mpr (Or.inl hw), hw⟩
      · exact ⟨Finset.Subset.refl _, fun n h => Or.inl h, fun n h => absurd rfl h⟩
    rw [List.map_cons]
    refine ⟨hone.1.trans hsub, fun n hn => ?_, fun n hn => ?_⟩
    · rw [List.mem_cons]
      rcases hmem n hn with h | h
      · exact (hone.2.1 n h).imp_right Or.inl
      · exact Or.inr (Or.inr h)
    · rw [List.mem_cons]
      by_cases hw : (vmWrite p w).1 n = p.1 n
      · exact (hch n (hw ▸ hn)).imp_right Or.inr
      · obtain ⟨hin, he⟩ := hone.2.2 n hw
        exact ⟨hsub hin, Or.inl he⟩

/-- `_apply_nbas`: a memory update marks the memory whether it changes it or not. -/
def vmApplyUpdate (D : Design Name) (p : Store Name × Finset Name) (u : Update Name) : Store Name × Finset Name :=
  if D.memory u.name ∨ (u.commit (p.1 u.name)).bits ≠ (p.1 u.name).bits then
    (Function.update p.1 u.name (u.commit (p.1 u.name)), insert u.name p.2)
  else p

def vmApplyNbas (D : Design Name) (σ : Store Name) (queue : List (Update Name)) : Store Name × Finset Name :=
  queue.foldl (vmApplyUpdate D) (σ, ∅)

/-- A name that the updates change is in the result. -/
theorem mem_vmApplyNbas {D : Design Name} {σ : Store Name} {queue : List (Update Name)} {n : Name}
    (h : (vmApplyNbas D σ queue).1 n ≠ σ n) : n ∈ (vmApplyNbas D σ queue).2 := by
  have hall : ∀ (us : List (Update Name)) (p : Store Name × Finset Name), p.2 ⊆ (us.foldl (vmApplyUpdate D) p).2 ∧
        ((us.foldl (vmApplyUpdate D) p).1 n ≠ p.1 n → n ∈ (us.foldl (vmApplyUpdate D) p).2) := by
    intro us
    induction us with
    | nil => exact fun p => ⟨Finset.Subset.refl _, fun h => absurd rfl h⟩
    | cons u us ih =>
      intro p
      obtain ⟨hsub, hch⟩ := ih (vmApplyUpdate D p u)
      rw [List.foldl_cons]
      have hone : p.2 ⊆ (vmApplyUpdate D p u).2 ∧
          ((vmApplyUpdate D p u).1 n ≠ p.1 n → n ∈ (vmApplyUpdate D p u).2) := by
        unfold vmApplyUpdate
        split
        · refine ⟨Finset.subset_insert _ _, fun hb => ?_⟩
          by_contra hni
          exact hb (Function.update_of_ne (fun he => hni (Finset.mem_insert.mpr (Or.inl he))) _ _)
        · exact ⟨Finset.Subset.refl _, fun hb => absurd rfl hb⟩
      refine ⟨hone.1.trans hsub, fun hb => ?_⟩
      by_cases hu : (vmApplyUpdate D p u).1 n = p.1 n
      · exact hch (hu ▸ hb)
      · exact hsub (hone.2 hu)
  exact (hall queue (σ, ∅)).2 h

/-! ## Processes -/

/-- A process list under way. -/
structure VmRegion (Name : Type) where
  store : Store Name
  queue : List (Update Name)
  /-- `own` and `changed` of `_run_process_list`. -/
  own : Name → Option Nat
  changed : Finset Name
  /-- History: the store when a block ended. -/
  ended : Nat → Option (Store Name)

/-- One process of `_run_process_list`. -/
def VmRegion.run (r : VmRegion Name) (p : Always Name) : VmRegion Name :=
  let e := p.body r.store
  let q := vmExecute (r.store, ∅) e.writes
  { store := q.1
    queue := r.queue ++ e.queued
    own := fun n =>
      if n ∈ q.2 then if n ∈ p.selfSens ∧ n ∉ r.changed then some p.id else none else r.own n
    changed := r.changed ∪ q.2
    ended := Function.update r.ended p.id (some q.1) }

namespace Design

variable (D : Design Name) (o : SetOrder Name)

def vmRunAll (K : Kernel Name) (ps : List (Always Name)) : VmRegion Name :=
  ps.foldl VmRegion.run ⟨K.store, K.queue, fun _ => none, ∅, fun _ => none⟩

/-- `_run_process_list`; `active` is `interpreter.dirty`. -/
def vmRunProcessList (K : Kernel Name) (ps : List (Always Name)) : Kernel Name :=
  let r := vmRunAll K ps
  { K with
    store := r.store
    queue := r.queue
    active := r.changed
    own := r.own
    endedAt := fun i => (r.ended i).or (K.endedAt i) }

/-- `_run_dirty_continuous_assigns`: the store, and what the assigns changed. -/
def vmRunDirty (σ : Store Name) (work : Finset Name) : Store Name × Finset Name :=
  (firstsBy (·.id) [] ((o.list work).flatMap fun n => D.assigns.filter fun a => decide (n ∈ a.sens))).foldl
    (fun p a => vmExecute p (a.drive p.1)) (σ, ∅)

/-- `_propagate_continuous`: `work` is what the last pass changed, `dirty` accumulates. -/
def vmPropagate : Nat → Store Name → Finset Name → Finset Name → Store Name × Finset Name
  | 0, σ, _, dirty => (σ, dirty)
  | k + 1, σ, work, dirty =>
      if work.Nonempty then
        let p := D.vmRunDirty o σ work
        vmPropagate k p.1 p.2 (dirty ∪ p.2)
      else (σ, dirty)

/-- `_edge_fired` for one edge signal. -/
def edgeFiredAt (K : Kernel Name) (e : Name × Edge) : Bool :=
  !D.memory e.1 && K.prev.any fun prev => wordsFired (prev e.1).words (K.store e.1).words e.2

/-- `_collect_triggered`. -/
def vmCollectTriggered (K : Kernel Name) (changed others : Finset Name) : Kernel Name × List (Always Name) :=
  let own := fun n => if n ∈ others then none else K.own n
  let combos := firstsBy (·.id) [] ((o.list changed).flatMap fun n =>
    D.combos.filter fun c => decide (n ∈ c.sens) && decide (own n ≠ some c.id))
  let seqs := D.seqs.filter fun p =>
    decide (p.id ∉ K.triggeredSeq) && p.edges.any fun e => D.edgeFiredAt K e
  ({ K with own := fun _ => none, triggeredSeq := K.triggeredSeq ∪ (seqs.map (·.id)).toFinset }, combos ++ seqs)

/-- Between two process lists: apply the updates, propagate, see who is triggered. -/
def vmCommit (limit : Nat) (K : Kernel Name) : Kernel Name × List (Always Name) :=
  let p := vmApplyNbas D K.store K.queue
  let changed := K.active ∪ p.2
  let q := if changed.Nonempty then D.vmPropagate o limit p.1 changed changed else (p.1, changed)
  D.vmCollectTriggered o { K with store := q.1, queue := [] } q.2 p.2

/-- The delta loop, with the cycles left, on a collected list. -/
def vmDeltaLoop (limit : Nat) : Nat → Kernel Name × List (Always Name) → Option (Kernel Name)
  | fuel, c =>
      if c.2 = [] then some c.1
      else match fuel with
        | 0 => none
        | fuel + 1 => vmDeltaLoop limit fuel (D.vmCommit o limit (vmRunProcessList c.1 c.2))

/-- The changes of the events or drives, propagated; none of them is a process's own. -/
def vmDriven (limit : Nat) (K : Kernel Name) (changed : Finset Name) : Kernel Name × List (Always Name) :=
  let p := D.vmPropagate o limit K.store changed changed
  D.vmCollectTriggered o { K with store := p.1 } p.2 p.2

/-- A time step of `_run_event_loop` after its events have made the writes `ws`. -/
def vmStep (limit : Nat) (σ : Store Name) (ws : List (Name × Slot)) : Kernel Name × List (Always Name) :=
  let p := vmExecute (σ, ∅) ws
  D.vmDriven o limit { atStep σ with store := p.1 } p.2

/-- The first batch: the blocks that run at the start come first. -/
def vmDrivenFirst (limit : Nat) (S : Rest Name) : Kernel Name × List (Always Name) :=
  let c := D.vmDriven o limit { atSettle S with prev := some S.store } S.pending
  (c.1, D.startProcs ++ c.2.filter fun p => decide (p.id ∉ D.startProcs.map (·.id)))

/-- The process lists that the delta loop runs. -/
inductive VmRuns (limit : Nat) : Kernel Name → List (Always Name) → Prop where
  | step (σ : Store Name) (ws : List (Name × Slot)) :
      VmRuns limit (D.vmStep o limit σ ws).1 (D.vmStep o limit σ ws).2
  | settle (S : Rest Name) (hS : S.bootstrapped = true) :
      VmRuns limit (D.vmDriven o limit (atSettle S) S.pending).1
        (D.vmDriven o limit (atSettle S) S.pending).2
  | first (S : Rest Name) (hS : S.bootstrapped = false) :
      VmRuns limit (D.vmDrivenFirst o limit S).1 (D.vmDrivenFirst o limit S).2
  | round {K : Kernel Name} {ps : List (Always Name)} (h : VmRuns limit K ps) :
      VmRuns limit (D.vmCommit o limit (vmRunProcessList K ps)).1
        (D.vmCommit o limit (vmRunProcessList K ps)).2

end Design

end Veriforge.Sched

import Mathlib.Data.Finset.Basic
import Mathlib.Data.Finset.Lattice.Basic
import Veriforge.Value.Basic
import Veriforge.Dict

/-! # Elaborated designs

What the two Python kernels (`sim/scheduler.py`, `sim/vm/vm_scheduler.py`) keep of a design without
timing control: continuous assigns, combinational blocks and edge-triggered blocks, each with the
sensitivity the kernel computed for it. Bodies and right-hand sides are functions of the store: the
kernels only see what they write and what they queue. -/

namespace Veriforge.Sched

/-- What the store holds under a name: the `Value` object of a signal, or the words of a memory. -/
structure Slot where
  /-- Which Python object a signal holds (`is` compares these). -/
  obj : Nat
  words : List Value
  deriving DecidableEq

/-- What the kernels compare of a slot: `val` and `mask`. -/
def Slot.bits (s : Slot) : List (Nat × Nat) := s.words.map fun v => (v.val, v.mask)

/-- `ctx._signals` and `ctx._memories`. -/
abbrev Store (Name : Type) := Name → Slot

variable {Name : Type} [DecidableEq Name]

/-- The blocking writes of a body or of an assign, in order. -/
def writeAll (σ : Store Name) (ws : List (Name × Slot)) : Store Name :=
  ws.foldl (fun σ w => Function.update σ w.1 w.2) σ

@[simp] theorem writeAll_nil (σ : Store Name) : writeAll σ [] = σ := rfl

theorem writeAll_cons (σ : Store Name) (w : Name × Slot) (ws : List (Name × Slot)) :
    writeAll σ (w :: ws) = writeAll (Function.update σ w.1 w.2) ws := rfl

/-- A name that is not written keeps its slot. -/
theorem writeAll_of_notMem {ws : List (Name × Slot)} {n : Name} (h : n ∉ ws.map (·.1)) (σ : Store Name) :
    writeAll σ ws n = σ n := by
  induction ws generalizing σ with
  | nil => rfl
  | cons w ws ih =>
    rw [List.map_cons, List.mem_cons, not_or] at h
    rw [writeAll_cons, ih h.2, Function.update_of_ne h.1]

/-! ## Edges -/

/-- `posedge` and `negedge`. -/
inductive Edge where
  | posedge
  | negedge
  deriving DecidableEq

/-- `_edge_direction` on the values at the snapshot and now. -/
def edgeDirection (old new : Value) : Option Edge :=
  if new.mask.testBit 0 then
    if old.mask.testBit 0 then none
    else if old.val.testBit 0 then some .negedge else some .posedge
  else if new.val.testBit 0 && (old.mask.testBit 0 || !old.val.testBit 0) then some .posedge
  else if !new.val.testBit 0 && (old.mask.testBit 0 || old.val.testBit 0) then some .negedge
  else none

/-- The test of `VMScheduler._edge_fired` for one edge. -/
def edgeFired (old new : Value) : Edge → Bool
  | .posedge =>
      (!new.mask.testBit 0 && new.val.testBit 0 && (old.mask.testBit 0 || !old.val.testBit 0))
        || (new.mask.testBit 0 && !old.mask.testBit 0 && !old.val.testBit 0)
  | .negedge =>
      (!new.mask.testBit 0 && !new.val.testBit 0 && (old.mask.testBit 0 || old.val.testBit 0))
        || (new.mask.testBit 0 && !old.mask.testBit 0 && old.val.testBit 0)

/-- Both kernels see the same edges. -/
theorem edgeFired_iff (old new : Value) (e : Edge) : edgeFired old new e = true ↔ edgeDirection old new = some e := by
  unfold edgeDirection
  cases e <;> rw [edgeFired] <;>
    cases new.mask.testBit 0 <;> cases new.val.testBit 0 <;>
    cases old.mask.testBit 0 <;> cases old.val.testBit 0 <;> decide

/-- The edge of a signal, whose value is its only word. -/
def wordsDirection : List Value → List Value → Option Edge
  | old :: _, new :: _ => edgeDirection old new
  | _, _ => none

/-- The VM's test on the same words. -/
def wordsFired : List Value → List Value → Edge → Bool
  | old :: _, new :: _, e => edgeFired old new e
  | _, _, _ => false

theorem wordsFired_iff (old new : List Value) (e : Edge) :
    wordsFired old new e = true ↔ wordsDirection old new = some e := by
  cases old with
  | nil => exact ⟨fun h => absurd h Bool.false_ne_true, fun h => nomatch h⟩
  | cons o _ =>
    cases new with
    | nil => exact ⟨fun h => absurd h Bool.false_ne_true, fun h => nomatch h⟩
    | cons v _ => exact edgeFired_iff o v e

/-- A signal that has its old value has no edge. -/
theorem wordsDirection_self (ws : List Value) : wordsDirection ws ws = none := by
  cases ws with
  | nil => rfl
  | cons v _ =>
    change edgeDirection v v = none
    unfold edgeDirection
    cases v.mask.testBit 0 <;> cases v.val.testBit 0 <;> rfl

/-- The edge depends on the bits of the new value only. -/
theorem wordsDirection_congr (old : List Value) {s s' : Slot} (h : s.bits = s'.bits) :
    wordsDirection old s.words = wordsDirection old s'.words := by
  obtain ⟨_, ws⟩ := s
  obtain ⟨_, ws'⟩ := s'
  cases ws with
  | nil => rw [List.map_eq_nil_iff.mp h.symm]
  | cons v vs =>
    obtain ⟨v', vs', rfl, hv, -⟩ := List.map_eq_cons_iff.mp h.symm
    obtain ⟨hv, hm⟩ := Prod.mk.inj hv
    cases old with
    | nil => rfl
    | cons o _ =>
      change edgeDirection o v = edgeDirection o v'
      unfold edgeDirection
      rw [hv, hm]

/-- Nor does it depend on more than the bits of the old value. -/
theorem wordsDirection_congr_old (ws : List Value) {s s' : Slot} (h : s.bits = s'.bits) :
    wordsDirection s.words ws = wordsDirection s'.words ws := by
  obtain ⟨_, os⟩ := s
  obtain ⟨_, os'⟩ := s'
  cases os with
  | nil => rw [List.map_eq_nil_iff.mp h.symm]
  | cons o os =>
    obtain ⟨o', os', rfl, ho, -⟩ := List.map_eq_cons_iff.mp h.symm
    obtain ⟨ho, hm⟩ := Prod.mk.inj ho
    cases ws with
    | nil => rfl
    | cons v _ =>
      change edgeDirection o v = edgeDirection o' v
      unfold edgeDirection
      rw [ho, hm]

/-! ## Processes -/

/-- An entry of the queue of non-blocking updates: what `apply_nba` makes of the slot it finds. -/
structure Update (Name : Type) where
  name : Name
  commit : Slot → Slot

/-- What one execution of a body does. -/
structure Effect (Name : Type) where
  /-- The blocking writes, in order. -/
  writes : List (Name × Slot)
  /-- The entries it appends to `nba_queue`. -/
  queued : List (Update Name)

/-- `ContinuousProcess`. -/
structure Continuous (Name : Type) where
  id : Nat
  /-- `sensitivity`: what `_collect_reads` finds in the right-hand side. -/
  sens : Finset Name
  /-- `_lhs_base_names` of the left-hand side. -/
  targets : Finset Name
  /-- `_read_lhs`: the bits under the left-hand side, `None` for the shapes it does not know. -/
  readLhs : Store Name → Option (List (Nat × Nat))
  /-- The writes of one evaluation. -/
  drive : Store Name → List (Name × Slot)

/-- `AlwaysProcess`. -/
structure Always (Name : Type) where
  id : Nat
  sens : Finset Name
  /-- `self_sens`: the sensitivity signals the block also writes. -/
  selfSens : Finset Name
  /-- `edge_signals`. -/
  edges : List (Name × Edge)
  /-- An `always_comb` or `always_latch`, which runs once at the start. -/
  atStart : Bool
  body : Store Name → Effect Name

/-- An elaborated design: the process lists of the scheduler. -/
structure Design (Name : Type) where
  /-- The names of `ctx._memories`. -/
  memory : Name → Bool
  /-- `_continuous_procs`. -/
  assigns : List (Continuous Name)
  /-- `_combo_procs`. -/
  combos : List (Always Name)
  /-- `_seq_procs`. -/
  seqs : List (Always Name)
  /-- `Process._next_id` numbers every process once. -/
  ids_nodup : (assigns.map (·.id) ++ (combos ++ seqs).map (·.id)).Nodup

/-- The evaluation writes `n` in some store. -/
def Continuous.Writes (a : Continuous Name) (n : Name) : Prop := ∃ σ, n ∈ (a.drive σ).map (·.1)

/-- The body writes or queues `n` in some store. -/
def Always.Writes (p : Always Name) (n : Name) : Prop :=
  ∃ σ, n ∈ (p.body σ).writes.map (·.1) ∨ n ∈ (p.body σ).queued.map (·.name)

namespace Design

variable (D : Design Name)

/-- `_edge_direction`: memories are not in the snapshot. -/
def edgeDirection (prev σ : Store Name) (n : Name) : Option Edge :=
  if D.memory n then none else wordsDirection (prev n).words (σ n).words

/-- `_seq_edge_names`. -/
def seqEdgeNames : Finset Name := (D.seqs.flatMap fun p => p.edges.map (·.1)).toFinset

theorem mem_seqEdgeNames {n : Name} : n ∈ D.seqEdgeNames ↔ ∃ p ∈ D.seqs, n ∈ p.edges.map (·.1) := by
  rw [seqEdgeNames, List.mem_toFinset, List.mem_flatMap]

/-- A name without a change has no edge. -/
theorem edgeDirection_of_bits {prev σ : Store Name} {n : Name} (h : (σ n).bits = (prev n).bits) :
    D.edgeDirection prev σ n = none := by
  unfold edgeDirection
  split
  · rfl
  · exact (wordsDirection_congr _ h).trans (wordsDirection_self _)

/-- The direction depends on the bits only. -/
theorem edgeDirection_congr {prev σ σ' : Store Name} {n : Name} (h : (σ n).bits = (σ' n).bits) :
    D.edgeDirection prev σ n = D.edgeDirection prev σ' n := by
  unfold edgeDirection
  rw [wordsDirection_congr _ h]

/-- Two processes with one `id` are the same process. -/
theorem eq_of_id {p q : Always Name} (hp : p ∈ D.combos ++ D.seqs) (hq : q ∈ D.combos ++ D.seqs)
    (h : p.id = q.id) : p = q :=
  List.inj_on_of_nodup_map (List.nodup_append.mp D.ids_nodup).2.1 hp hq h

/-- A process is combinational or edge-triggered, not both. -/
theorem notMem_combos {p : Always Name} (hp : p ∈ D.seqs) : p ∉ D.combos := by
  intro hc
  have h := (List.nodup_append.mp D.ids_nodup).2.1
  rw [List.map_append] at h
  exact List.disjoint_of_nodup_append h (List.mem_map_of_mem hc) (List.mem_map_of_mem hp)

end Design

end Veriforge.Sched

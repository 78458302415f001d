import Mathlib.Data.Finset.Dedup
import Mathlib.Order.Bounds.Basic
import Veriforge.Graph.Kahn
import Veriforge.Vm.Run

/-! # Scheduling plans for continuous assignments

`plan_continuous_order` of `sim/vm/propagation.py`: an order in which every continuous program has to be executed once
only, for designs whose assignments are pure, have one writer for each signal and disturb no other process. -/

namespace Veriforge.Vm

/-- The instructions of a process: those of the machine, `FUNC_CLOG2`, the stores to a part of a signal, and any
other one. -/
inductive Instr
  | op (op : Op)
  | funcClog2
  | storeBit (name : String)
  | nbaBit (name : String)
  | storeRange (name : String)
  | nbaRange (name : String)
  | other
  deriving DecidableEq

/-- `ProcessType`. -/
inductive ProcessType
  | continuous | combinational | sequential | initial
  deriving DecidableEq

/-- `CompiledProcess`. -/
structure CompiledProcess where
  processType : ProcessType
  program : List Instr
  /-- `sensitivity`, in the order of the signal ids. -/
  sensitivity : List String
  sensitivity_nodup : sensitivity.Nodup
  /-- The signals of `edge_signals`. -/
  edgeSignals : List String
  hasTiming : Bool

/-- `_PURE_EXPRESSION_OPS`. -/
def Instr.isPure : Instr → Bool
  | .op (.loadSig _) | .op (.loadConst _) | .op (.resize _) | .op (.signExt _)
  | .op .add | .op .sub | .op .mul | .op .div | .op .mod | .op .pow | .op .sdiv | .op .smod | .op .spow
  | .op .bitAnd | .op .bitOr | .op .bitXor | .op .bitXnor | .op .bitNot
  | .op .shl | .op .shr | .op .ashl | .op .ashr
  | .op .cmpEq | .op .cmpNe | .op .cmpLt | .op .cmpLe | .op .cmpGt | .op .cmpGe | .op .cmpCaseEq | .op .cmpCaseNe
  | .op .cmpSlt | .op .cmpSle | .op .cmpSgt | .op .cmpSge
  | .op .logAnd | .op .logOr | .op .logNot | .op .neg | .op .uplus
  | .op .redAnd | .op .redOr | .op .redXor | .op .redNand | .op .redNor | .op .redXnor
  | .op .bitSelect | .op .rangeSelect | .op .partSelUp | .op .partSelDown | .op (.concat _) | .op .replicate
  | .op .ternary | .op (.streamReverse _) | .funcClog2 => true
  | _ => false

/-- The signal that a `LOAD_SIG` loads. -/
def Instr.loaded? : Instr → Option String
  | .op (.loadSig name) => some name
  | _ => none

/-- The signal that an instruction of `_SIGNAL_WRITES` writes. -/
def Instr.written? : Instr → Option String
  | .op (.storeSig name) | .op (.nbaSig name) | .storeBit name | .nbaBit name | .storeRange name | .nbaRange name =>
      some name
  | _ => none

/-- The signals a program loads. -/
def loads (program : List Instr) : List String := program.filterMap Instr.loaded?

/-- The destination of a continuous process, if its program is a pure expression stored in a signal, and reads what
the compiler says it reads. -/
def CompiledProcess.destination? (p : CompiledProcess) : Option String :=
  match p.program.reverse with
  | .op .procEnd :: .op (.storeSig dest) :: body =>
      if body ≠ [] ∧ body.all Instr.isPure = true ∧ (loads body).toFinset = p.sensitivity.toFinset then some dest
      else none
  | _ => none

/-- `writers`: the destinations of the continuous processes, in their order; none of them has two writers. -/
def destinations : List CompiledProcess → List String → Option (List String)
  | [], dests => some dests
  | p :: ps, dests =>
      match p.destination? with
      | none => none
      | some dest => if dest ∈ dests then none else destinations ps (dests ++ [dest])

/-- A process is triggered by a destination, or writes one. -/
def CompiledProcess.disturbs (dests : List String) (p : CompiledProcess) : Bool :=
  dests.any (fun d => d ∈ p.sensitivity || d ∈ p.edgeSignals) ||
    p.program.any fun i => i.written?.any fun d => d ∈ dests

/-- The indices of the writers that process `i` reads from, in the order of the signals. -/
def writersOf (continuous : List CompiledProcess) (dests : List String) (i : Nat) : List Nat :=
  (continuous[i]?.elim [] CompiledProcess.sensitivity).filterMap fun name => dests.idxOf? name

theorem mem_writersOf {continuous : List CompiledProcess} {dests : List String} {i j : Nat} :
    j ∈ writersOf continuous dests i ↔
      ∃ p name, continuous[i]? = some p ∧ name ∈ p.sensitivity ∧ dests.idxOf? name = some j := by
  rw [writersOf, List.mem_filterMap]
  cases continuous[i]? <;> simp

theorem getElem?_of_idxOf? {dests : List String} {name : String} {j : Nat} (h : dests.idxOf? name = some j) :
    dests[j]? = some name := by
  obtain ⟨hj, heq, -⟩ := List.idxOf?_eq_some_iff.mp h
  rw [List.getElem?_eq_getElem hj]
  exact congrArg some (by simpa using heq)

/-- The graph of the dependencies (`dependents` and `pending`). -/
def dependencies (continuous : List CompiledProcess) (dests : List String) : Graph.Parents where
  size := dests.length
  parents := writersOf continuous dests
  nodup i := by
    refine List.Nodup.filterMap ?_ ?_
    · intro a b j ha hb
      have ha' := getElem?_of_idxOf? ha
      rw [getElem?_of_idxOf? hb] at ha'
      exact (Option.some_inj.mp ha').symm
    · cases continuous[i]? with
      | none => exact List.nodup_nil
      | some p => exact p.sensitivity_nodup
  lt i j hj := by
    obtain ⟨p, name, -, -, hidx⟩ := mem_writersOf.mp hj
    exact (List.getElem?_eq_some_iff.mp (getElem?_of_idxOf? hidx)).1

/-- `max(depth)`. -/
def maxDepth (G : Graph.Parents) : Nat := ((List.range G.size).map G.kahn.depth).foldr max 0

/-- `plan_continuous_order`. -/
def planContinuousOrder (processes : List CompiledProcess) : Option (List Nat × Nat) :=
  let continuous := processes.filter fun p => p.processType = .continuous
  if continuous.length < 2 ∨ processes.any CompiledProcess.hasTiming = true then none
  else
    match destinations continuous [] with
    | none => none
    | some dests =>
        if processes.any (fun p => p.processType ≠ .continuous && p.disturbs dests) then none
        else
          let G := dependencies continuous dests
          if G.kahn.order.length ≠ continuous.length ∨ maxDepth G = 1 then none
          else if continuous.any (fun p => decide (1 < p.sensitivity.length) && p.sensitivity.any (· ∈ dests)) then
            some (G.kahn.order, maxDepth G)
          else none

/-! ## What the checks establish -/

/-- The program reads the signal. -/
def CompiledProcess.Reads (p : CompiledProcess) (name : String) : Prop := name ∈ loads p.program

/-- The program writes the signal. -/
def CompiledProcess.Writes (p : CompiledProcess) (name : String) : Prop := ∃ i ∈ p.program, i.written? = some name

/-- A pure expression stored in a signal. -/
structure CompiledProcess.Assigns (p : CompiledProcess) (dest : String) (body : List Instr) : Prop where
  program : p.program = body ++ [.op (.storeSig dest), .op .procEnd]
  isPure : ∀ i ∈ body, i.isPure = true
  sensitivity : ∀ name, name ∈ loads body ↔ name ∈ p.sensitivity

theorem Instr.not_written_of_isPure {i : Instr} (h : i.isPure = true) : i.written? = none := by
  unfold isPure at h
  split at h <;> first | rfl | cases h

namespace CompiledProcess

variable {p : CompiledProcess} {dest : String} {body : List Instr}

theorem assigns_of_destination? (h : p.destination? = some dest) : ∃ body, p.Assigns dest body := by
  unfold destination? at h
  split at h
  · next dest' body hrev =>
    rw [Option.ite_none_right_eq_some] at h
    obtain ⟨⟨-, hpure, hreads⟩, heq⟩ := h
    cases heq
    refine ⟨body.reverse, ?_, fun i hi => List.all_eq_true.mp hpure i (List.mem_reverse.mp hi), fun name => ?_⟩
    · rw [← List.reverse_reverse p.program, hrev]
      simp
    · have hmem := congrArg (name ∈ ·) hreads
      simp only [List.mem_toFinset, eq_iff_iff] at hmem
      rw [← hmem, loads, loads, List.filterMap_reverse, List.mem_reverse]
  · cases h

theorem Assigns.reads_iff (h : p.Assigns dest body) {name : String} : p.Reads name ↔ name ∈ p.sensitivity := by
  rw [← h.sensitivity, Reads, h.program, loads, loads, List.filterMap_append]
  simp [Instr.loaded?]

theorem Assigns.writes_iff (h : p.Assigns dest body) {name : String} : p.Writes name ↔ name = dest := by
  rw [Writes, h.program]
  constructor
  · rintro ⟨i, hi, hw⟩
    rcases List.mem_append.mp hi with hi | hi
    · rw [Instr.not_written_of_isPure (h.isPure i hi)] at hw
      cases hw
    · simp only [List.mem_cons, List.not_mem_nil, or_false] at hi
      rcases hi with rfl | rfl <;> cases hw
      rfl
  · rintro rfl
    exact ⟨.op (.storeSig name), by simp, rfl⟩

end CompiledProcess

/-- The destinations are those of the processes in their order, each once. -/
theorem destinations_eq_some {ps : List CompiledProcess} {dests dests' : List String}
    (h : destinations ps dests = some dests') (hnodup : dests.Nodup) :
    dests'.Nodup ∧ ∃ more, dests' = dests ++ more ∧ ps.map CompiledProcess.destination? = more.map some := by
  induction ps generalizing dests with
  | nil =>
    cases h
    exact ⟨hnodup, [], by simp, rfl⟩
  | cons p ps ih =>
    rw [destinations] at h
    cases hd : p.destination? with
    | none =>
      rw [hd] at h
      cases h
    | some dest =>
      rw [hd] at h
      obtain ⟨hnot, h⟩ := Option.ite_none_left_eq_some.mp h
      have hnodup' : (dests ++ [dest]).Nodup :=
        hnodup.append (List.nodup_singleton dest) (by simpa using hnot)
      obtain ⟨hres, more, rfl, hmap⟩ := ih h hnodup'
      exact ⟨hres, dest :: more, by simp, by rw [List.map_cons, List.map_cons, hd, hmap]⟩

/-- What a plan knows of a list of processes: the continuous ones, and their destinations in the same order. -/
structure Planned (processes continuous : List CompiledProcess) (dests : List String) : Prop where
  continuous_eq : continuous = processes.filter fun p => p.processType = .continuous
  nodup : dests.Nodup
  length_eq : continuous.length = dests.length
  assigns : ∀ (i : Nat) (p : CompiledProcess), continuous[i]? = some p → ∃ dest body, dests[i]? = some dest ∧ p.Assigns dest body
  undisturbed : ∀ p ∈ processes, p.processType ≠ .continuous → p.disturbs dests = false
  ordered : (dependencies continuous dests).kahn.order.length = (dependencies continuous dests).size

theorem planned_of_plan {processes : List CompiledProcess} {order : List Nat} {depth : Nat}
    (h : planContinuousOrder processes = some (order, depth)) :
    ∃ continuous dests, Planned processes continuous dests ∧ 2 ≤ continuous.length ∧
      order = (dependencies continuous dests).kahn.order ∧ depth = maxDepth (dependencies continuous dests) := by
  unfold planContinuousOrder at h
  extract_lets continuous at h
  obtain ⟨hlen, h⟩ := Option.ite_none_left_eq_some.mp h
  rw [not_or, not_lt] at hlen
  cases hd : destinations continuous [] with
  | none =>
    rw [hd] at h
    cases h
  | some dests =>
    rw [hd] at h
    dsimp only at h
    obtain ⟨hdisturb, h⟩ := Option.ite_none_left_eq_some.mp h
    obtain ⟨horder, h⟩ := Option.ite_none_left_eq_some.mp h
    obtain ⟨-, h⟩ := Option.ite_none_right_eq_some.mp h
    cases h
    obtain ⟨hnodup, more, hmore, hmap⟩ := destinations_eq_some hd List.nodup_nil
    obtain rfl : dests = more := hmore
    have hlength : continuous.length = dests.length := by simpa using congrArg List.length hmap
    rw [not_or, not_ne_iff] at horder
    refine ⟨continuous, dests, ⟨rfl, hnodup, hlength, fun i p hp => ?_, fun p hp hne => ?_, ?_⟩, hlen.1, rfl, rfl⟩
    · have hi := congrArg (fun l => l[i]?) hmap
      simp only [List.getElem?_map, hp, Option.map_some] at hi
      cases hdi : dests[i]? with
      | none =>
        rw [hdi] at hi
        cases hi
      | some dest =>
        rw [hdi] at hi
        obtain ⟨body, hbody⟩ := CompiledProcess.assigns_of_destination? (Option.some_inj.mp hi)
        exact ⟨dest, body, rfl, hbody⟩
    · rw [List.any_eq_true, not_exists] at hdisturb
      have hnot := hdisturb p
      simpa [hp, hne] using hnot
    · exact horder.1.trans hlength

/-! ## Order and depth -/

/-- Process `j` reads a signal that process `i` writes. -/
def DependsOn (continuous : List CompiledProcess) (i j : Nat) : Prop :=
  ∃ p q name, continuous[i]? = some p ∧ continuous[j]? = some q ∧ p.Writes name ∧ q.Reads name

/-- Assignments each of which reads the one before. -/
def IsDependencyPath (continuous : List CompiledProcess) (path : List Nat) : Prop :=
  path ≠ [] ∧ (∀ i ∈ path, i < continuous.length) ∧ path.IsChain (DependsOn continuous)

theorem le_foldr_max {l : List Nat} {n : Nat} (h : n ∈ l) : n ≤ l.foldr max 0 := by
  induction l with
  | nil => exact absurd h List.not_mem_nil
  | cons m l ih =>
    rw [List.foldr_cons]
    rcases List.mem_cons.mp h with rfl | h
    · exact le_max_left _ _
    · exact (ih h).trans (le_max_right _ _)

theorem foldr_max_mem {l : List Nat} (h : l ≠ []) : l.foldr max 0 ∈ l := by
  induction l with
  | nil => exact absurd rfl h
  | cons m l ih =>
    rw [List.foldr_cons]
    rcases le_total (l.foldr max 0) m with hle | hle
    · rw [max_eq_left hle]
      exact List.mem_cons_self
    · rw [max_eq_right hle]
      cases l with
      | nil =>
        obtain rfl : m = 0 := Nat.le_zero.mp hle
        exact List.mem_cons_self
      | cons m' l => exact List.mem_cons_of_mem _ (ih (List.cons_ne_nil _ _))

namespace Planned

variable {processes continuous : List CompiledProcess} {dests : List String}

theorem idxOf?_eq (h : Planned processes continuous dests) {i : Nat} {dest : String} (hi : dests[i]? = some dest) :
    dests.idxOf? dest = some i := by
  obtain ⟨hlt, heq⟩ := List.getElem?_eq_some_iff.mp hi
  refine List.idxOf?_eq_some_iff.mpr ⟨hlt, heq, fun j hj hjd => ?_⟩
  have := (List.Nodup.getElem_inj_iff h.nodup).mp (hjd.trans heq.symm)
  omega

/-- The graph is the one of the dependencies. -/
theorem dependsOn_iff (h : Planned processes continuous dests) {i j : Nat} :
    DependsOn continuous i j ↔ i ∈ writersOf continuous dests j := by
  rw [mem_writersOf]
  constructor
  · rintro ⟨p, q, name, hp, hq, hw, hr⟩
    obtain ⟨dest, body, hdest, ha⟩ := h.assigns i p hp
    obtain ⟨_, _, -, hb⟩ := h.assigns j q hq
    obtain rfl := ha.writes_iff.mp hw
    exact ⟨q, name, hq, hb.reads_iff.mp hr, h.idxOf?_eq hdest⟩
  · rintro ⟨q, name, hq, hs, hidx⟩
    have hdest := getElem?_of_idxOf? hidx
    have hlt : i < continuous.length := by
      rw [h.length_eq]
      exact (List.getElem?_eq_some_iff.mp hdest).1
    obtain ⟨dest, body, hdest', ha⟩ := h.assigns i _ (List.getElem?_eq_getElem hlt)
    obtain rfl : name = dest := Option.some_inj.mp (hdest.symm.trans hdest')
    obtain ⟨_, _, -, hb⟩ := h.assigns j q hq
    exact ⟨_, q, name, List.getElem?_eq_getElem hlt, hq, ha.writes_iff.mpr rfl, hb.reads_iff.mpr hs⟩

theorem isPath_iff (h : Planned processes continuous dests) (path : List Nat) :
    (dependencies continuous dests).IsPath path ↔ IsDependencyPath continuous path := by
  have hrel : DependsOn continuous = fun i j => i ∈ writersOf continuous dests j := by
    funext i j
    exact propext h.dependsOn_iff
  rw [Graph.Parents.IsPath, IsDependencyPath, hrel, h.length_eq]
  rfl

theorem perm (h : Planned processes continuous dests) :
    (dependencies continuous dests).kahn.order.Perm (List.range continuous.length) := by
  rw [h.length_eq]
  exact Graph.Parents.order_perm h.ordered

/-- A process comes after all writers of the signals it reads. -/
theorem before (h : Planned processes continuous dests) {pre post : List Nat} {i j : Nat}
    (heq : (dependencies continuous dests).kahn.order = pre ++ i :: post) (hj : DependsOn continuous j i) : j ∈ pre :=
  (Graph.Parents.kahn_ordered _).1.before pre i post heq j (h.dependsOn_iff.mp hj)

/-- The depth is the number of assignments on the longest path. -/
theorem isGreatest_depth (h : Planned processes continuous dests) (hpos : 0 < continuous.length) :
    IsGreatest {n | ∃ path, IsDependencyPath continuous path ∧ path.length = n}
      (maxDepth (dependencies continuous dests)) := by
  have hsize : (dependencies continuous dests).size = continuous.length := h.length_eq.symm
  constructor
  · have hne : ((List.range (dependencies continuous dests).size).map (dependencies continuous dests).kahn.depth) ≠ [] := by
      intro hnil
      have hlen := congrArg List.length hnil
      rw [List.length_map, List.length_range] at hlen
      exact absurd (hsize.symm.trans hlen) hpos.ne'
    obtain ⟨i, hi, heq⟩ := List.mem_map.mp (foldr_max_mem hne)
    obtain ⟨path, hpath, hlen⟩ := Graph.Parents.exists_path (List.mem_range.mp hi)
    exact ⟨path ++ [i], (h.isPath_iff _).mp hpath, hlen.trans heq⟩
  · rintro n ⟨path, hpath, rfl⟩
    rcases List.eq_nil_or_concat' path with rfl | ⟨path, i, rfl⟩
    · exact absurd rfl hpath.1
    · have hle := Graph.Parents.length_le_depth h.ordered ((h.isPath_iff _).mpr hpath)
      refine hle.trans (le_foldr_max (List.mem_map_of_mem (List.mem_range.mpr ?_)))
      exact hsize ▸ hpath.2.1 i (List.mem_append_right _ (List.mem_singleton_self i))

/-- No other process is triggered by a destination, or writes one. -/
theorem not_disturbs (h : Planned processes continuous dests) {p q : CompiledProcess} {name : String}
    (hp : p ∈ continuous) (hw : p.Writes name) (hq : q ∈ processes) (hne : q.processType ≠ .continuous) :
    name ∉ q.sensitivity ∧ name ∉ q.edgeSignals ∧ ¬ q.Writes name := by
  obtain ⟨i, hi⟩ := List.getElem?_of_mem hp
  obtain ⟨dest, body, hdest, ha⟩ := h.assigns i p hi
  obtain rfl := ha.writes_iff.mp hw
  have hmem : name ∈ dests := List.mem_of_getElem? hdest
  have hq := h.undisturbed q hq hne
  rw [CompiledProcess.disturbs, Bool.or_eq_false_iff, List.any_eq_false, List.any_eq_false] at hq
  have htrigger := hq.1 name hmem
  rw [Bool.or_eq_true, decide_eq_true_eq, decide_eq_true_eq, not_or] at htrigger
  refine ⟨htrigger.1, htrigger.2, ?_⟩
  rintro ⟨i, hi, hwrite⟩
  refine hq.2 i hi ?_
  rw [hwrite]
  exact decide_eq_true hmem

end Planned

end Veriforge.Vm

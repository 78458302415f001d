import Veriforge.Vm.Propagation

/-! # One pass in dependency order

Executing every continuous program once, in the order of a plan, ends in a store that no continuous program changes
any more: a program is executed after the writers of what it reads, and nothing it reads is written later. -/

namespace Veriforge.Vm

open Value

variable {T : SignalTable}

/-- `FUNC_CLOG2`. -/
def clog2 (v : Value) : Value :=
  if v.isDefined then ofInt (if v.val ≤ 1 then 0 else (Literal.bitLength (v.val - 1) : Int)) 32 else x 32

/-- The effect of an instruction on the stack, for those that touch nothing else. -/
def execInstr (st : Store T) (i : Instr) (stack : List Value) : Option (List Value) :=
  match i, stack with
  | .funcClog2, v :: stack => some (clog2 v :: stack)
  | .op o, stack => execData st o stack
  | _, _ => none

/-- A straight run of such instructions. -/
def runInstrs (st : Store T) : List Instr → List Value → Option (List Value)
  | [], stack => some stack
  | i :: is, stack => (execInstr st i stack).bind (runInstrs st is)

/-- `Interpreter.execute` on a program without jumps: the store it ends in; `none` where it raises. -/
def execFrom (st : Store T) : List Instr → List Value → Option (Store T)
  | [], _ => some st
  | i :: is, stack =>
      match i, stack with
      | .op .procEnd, _ => some st
      | .op (.storeSig name), v :: stack => execFrom (st.setSignal name v) is stack
      | i, stack => (execInstr st i stack).bind (execFrom st is)

/-- A continuous process is executed. -/
def CompiledProcess.exec (p : CompiledProcess) (st : Store T) : Option (Store T) := execFrom st p.program []

/-- Each process is executed once, in the given order. -/
def singlePass (continuous : List CompiledProcess) : List Nat → Store T → Option (Store T)
  | [], st => some st
  | i :: order, st =>
      match continuous[i]? with
      | none => none
      | some p => (p.exec st).bind (singlePass continuous order)

/-! ## The machine on a straight program -/

section Straight

variable {st st' : Store T} {op : Op} {is : List Instr} {stack : List Value}

/-- What the recursion does with one instruction of the machine. -/
theorem execFrom_op_cases (h : execFrom st (.op op :: is) stack = some st') : (op = .procEnd ∧ st = st') ∨
    (∃ name v rest, op = .storeSig name ∧ stack = v :: rest ∧ execFrom (st.setSignal name v) is rest = some st') ∨
    (∃ stack', execData st op stack = some stack' ∧ execFrom st is stack' = some st') := by
  unfold execFrom at h
  split at h
  · next heq =>
    cases heq
    exact Or.inl ⟨rfl, Option.some_inj.mp h⟩
  · next name v rest heq =>
    cases heq
    exact Or.inr (Or.inl ⟨name, v, rest, rfl, rfl, h⟩)
  · obtain ⟨stack', hexec, hrest⟩ := Option.bind_eq_some_iff.mp h
    exact Or.inr (Or.inr ⟨stack', hexec, hrest⟩)

/-- The machine does on a straight program what the recursion says. -/
theorem reaches_of_execFrom (loopLimit : Nat) {pre code : List Op} {s : State T} (hpc : s.pc = pre.length)
    (h : execFrom s.store (code.map Instr.op) s.stack = some st') :
    ∃ s', Reaches loopLimit (pre ++ code) s s' ∧ s'.store = st' ∧
      ((pre ++ code)[s'.pc]? = none ∨ (pre ++ code)[s'.pc]? = some .procEnd) := by
  induction code generalizing pre s with
  | nil =>
    cases h
    exact ⟨s, Reaches.refl s, rfl, Or.inl (by simp [hpc])⟩
  | cons op code ih =>
    have hop : (pre ++ op :: code)[s.pc]? = some op := by simp [hpc]
    have hassoc : pre ++ op :: code = (pre ++ [op]) ++ code := by simp
    have hpc' : s.pc + 1 = (pre ++ [op]).length := by simp [hpc]
    rcases execFrom_op_cases h with ⟨rfl, hst⟩ | ⟨name, v, rest, rfl, hstack, hrest⟩ | ⟨stack', hdata, hrest⟩
    · exact ⟨s, Reaches.refl s, hst, Or.inr hop⟩
    · have hexec : execOp loopLimit (.storeSig name) { s with pc := s.pc + 1 } =
          some { s with pc := s.pc + 1, stack := rest, store := s.store.setSignal name v } := by
        simp [execOp, hstack]
      obtain ⟨s', hreach, hs', hend⟩ := ih
        (s := { s with pc := s.pc + 1, stack := rest, store := s.store.setSignal name v }) hpc' hrest
      rw [← hassoc] at hreach hend
      exact ⟨s', (Reaches.step hop (by simp) hexec).trans hreach, hs', hend⟩
    · obtain ⟨hexec, hne⟩ := execOp_of_execData loopLimit (s := { s with pc := s.pc + 1 }) hdata
      obtain ⟨s', hreach, hs', hend⟩ := ih (s := { s with pc := s.pc + 1, stack := stack' }) hpc' hrest
      rw [← hassoc] at hreach hend
      exact ⟨s', (Reaches.step hop hne hexec).trans hreach, hs', hend⟩

end Straight

/-! ## Pure programs -/

/-- A pure instruction reads nothing of the store but the signal it loads. -/
theorem execInstr_congr {i : Instr} (hi : i.isPure = true) {st st' : Store T}
    (h : ∀ name, i.loaded? = some name → st.signal? name = st'.signal? name) (stack : List Value) :
    execInstr st i stack = execInstr st' i stack := by
  cases i with
  | op o =>
    cases o with
    | loadSig name => exact congrArg (Option.map (· :: stack)) (h name rfl)
    | loadMem => cases hi
    | _ => rcases stack with _ | ⟨_, _ | ⟨_, _ | ⟨_, _⟩⟩⟩ <;> rfl
  | _ => cases stack <;> rfl

theorem runInstrs_congr {body : List Instr} (hb : ∀ i ∈ body, i.isPure = true) {st st' : Store T}
    (h : ∀ name ∈ loads body, st.signal? name = st'.signal? name) (stack : List Value) :
    runInstrs st body stack = runInstrs st' body stack := by
  induction body generalizing stack with
  | nil => rfl
  | cons i body ih =>
    have hi : execInstr st i stack = execInstr st' i stack := by
      apply execInstr_congr (hb i List.mem_cons_self)
      intro name hname
      exact h name (List.mem_filterMap.mpr ⟨i, List.mem_cons_self, hname⟩)
    have hbody : runInstrs st body = runInstrs st' body := by
      funext stack'
      refine ih (fun j hj => hb j (List.mem_cons_of_mem _ hj)) (fun name hname => h name ?_) stack'
      obtain ⟨j, hj, hl⟩ := List.mem_filterMap.mp hname
      exact List.mem_filterMap.mpr ⟨j, List.mem_cons_of_mem _ hj, hl⟩
    rw [runInstrs, runInstrs, hi, hbody]

theorem execFrom_pure {body rest : List Instr} (hb : ∀ i ∈ body, i.isPure = true) (st : Store T)
    (stack : List Value) :
    execFrom st (body ++ rest) stack = (runInstrs st body stack).bind (execFrom st rest) := by
  induction body generalizing stack with
  | nil => rfl
  | cons i body ih =>
    have hi := hb i List.mem_cons_self
    have hstep : execFrom st (i :: (body ++ rest)) stack =
        (execInstr st i stack).bind (execFrom st (body ++ rest)) := by
      cases i with
      | op o => cases o <;> first | rfl | cases hi
      | _ => rfl
    rw [List.cons_append, hstep, runInstrs, Option.bind_assoc]
    congr 1
    funext stack'
    exact ih (fun j hj => hb j (List.mem_cons_of_mem _ hj)) stack'

namespace CompiledProcess.Assigns

variable {p : CompiledProcess} {dest : String} {body : List Instr}

/-- An assignment stores the value its expression leaves on top of the stack. -/
theorem exec_eq_some (h : p.Assigns dest body) {st st' : Store T} :
    p.exec st = some st' ↔ ∃ v stack, runInstrs st body [] = some (v :: stack) ∧ st' = st.setSignal dest v := by
  rw [exec, h.program, execFrom_pure h.isPure, Option.bind_eq_some_iff]
  constructor
  · rintro ⟨stack, hrun, hstore⟩
    rcases execFrom_op_cases hstore with ⟨hop, -⟩ | ⟨name, v, rest, hop, rfl, hend⟩ | ⟨stack', hdata, -⟩
    · cases hop
    · cases hop
      exact ⟨v, rest, hrun, (Option.some_inj.mp hend).symm⟩
    · simp [execData, binaryOp, unaryOp] at hdata
  · rintro ⟨v, stack, hrun, rfl⟩
    exact ⟨v :: stack, hrun, rfl⟩

end CompiledProcess.Assigns

/-! ## Writes to other signals -/

section SetSignal

variable (st : Store T) {name other : String} (v : Value)

theorem signal_setSignal_self : (st.setSignal name v).signal name = v.resize ((T.width name).getD 0) := if_pos rfl

theorem signal_setSignal_of_ne (h : other ≠ name) : (st.setSignal name v).signal other = st.signal other := if_neg h

theorem signal?_congr {st st' : Store T} (h : st.signal name = st'.signal name) : st.signal? name = st'.signal? name := by
  rw [Store.signal?, Store.signal?, h]

theorem setSignal_eq_self_iff : st.setSignal name v = st ↔ st.signal name = v.resize ((T.width name).getD 0) := by
  constructor
  · intro h
    rw [← signal_setSignal_self st v, h]
  · intro h
    apply Store.ext
    · funext n
      by_cases hn : n = name
      · subst hn
        rw [signal_setSignal_self, h]
      · exact signal_setSignal_of_ne st v hn
    · rfl

end SetSignal

/-! ## The pass -/

namespace CompiledProcess.Assigns

variable {p : CompiledProcess} {dest : String} {body : List Instr} {st st' : Store T}

/-- Executing an assignment again changes nothing exactly when its destination holds the value of its expression. -/
theorem exec_self_iff (h : p.Assigns dest body) : p.exec st = some st ↔
    ∃ v stack, runInstrs st body [] = some (v :: stack) ∧ st.signal dest = v.resize ((T.width dest).getD 0) := by
  rw [h.exec_eq_some]
  refine exists_congr fun v => exists_congr fun stack => and_congr_right fun _ => ?_
  rw [← setSignal_eq_self_iff, eq_comm]

/-- Stores that agree on what an assignment reads give its expression one value. -/
theorem runInstrs_congr (h : p.Assigns dest body) (hreads : ∀ name, p.Reads name → st.signal name = st'.signal name) :
    runInstrs st body [] = runInstrs st' body [] := by
  apply Vm.runInstrs_congr h.isPure
  intro name hname
  exact signal?_congr (hreads name (h.reads_iff.mpr ((h.sensitivity name).mp hname)))

/-- An assignment that reads neither its own destination nor a later one stays settled. -/
theorem exec_setSignal (h : p.Assigns dest body) {other : String} (v : Value) (hs : p.exec st = some st)
    (hne : dest ≠ other) (hreads : ¬ p.Reads other) : p.exec (st.setSignal other v) = some (st.setSignal other v) := by
  obtain ⟨v', stack, hrun, hval⟩ := h.exec_self_iff.mp hs
  refine h.exec_self_iff.mpr ⟨v', stack, ?_, ?_⟩
  · rw [← hrun]
    refine h.runInstrs_congr fun name hname => signal_setSignal_of_ne st v ?_
    rintro rfl
    exact hreads hname
  · rw [signal_setSignal_of_ne st v hne, hval]

/-- An assignment that does not read its own destination is settled when it has been executed. -/
theorem exec_idem (h : p.Assigns dest body) (hexec : p.exec st = some st') (hreads : ¬ p.Reads dest) :
    p.exec st' = some st' := by
  obtain ⟨v, stack, hrun, rfl⟩ := h.exec_eq_some.mp hexec
  refine h.exec_self_iff.mpr ⟨v, stack, ?_, signal_setSignal_self st v⟩
  rw [← hrun]
  refine h.runInstrs_congr fun name hname => signal_setSignal_of_ne st v ?_
  rintro rfl
  exact hreads hname

end CompiledProcess.Assigns

/-- A topological order of the processes, each once. -/
structure TopologicalOrder (continuous : List CompiledProcess) (order : List Nat) : Prop where
  nodup : order.Nodup
  before : ∀ pre i post, order = pre ++ i :: post → ∀ j, DependsOn continuous j i → j ∈ pre

/-- The processes at these positions are settled. -/
def Settled (continuous : List CompiledProcess) (st : Store T) (is : List Nat) : Prop :=
  ∀ i ∈ is, ∀ p, continuous[i]? = some p → p.exec st = some st

namespace Planned

variable {processes continuous : List CompiledProcess} {dests : List String}

theorem topologicalOrder (h : Planned processes continuous dests) :
    TopologicalOrder continuous (dependencies continuous dests).kahn.order where
  nodup := h.perm.nodup_iff.mpr List.nodup_range
  before _ _ _ heq _ hj := h.before heq hj

/-- Executing the next process keeps the earlier ones settled, and settles it. -/
theorem settled_step (h : Planned processes continuous dests) {order pre post : List Nat} {j : Nat}
    (ho : TopologicalOrder continuous order) (heq : order = pre ++ j :: post) {st st' : Store T}
    (hs : Settled continuous st pre) {p : CompiledProcess} (hp : continuous[j]? = some p) (hexec : p.exec st = some st') :
    Settled continuous st' (pre ++ [j]) := by
  obtain ⟨dest, body, hdest, ha⟩ := h.assigns j p hp
  have hnodup := ho.nodup
  rw [heq, List.nodup_append] at hnodup
  have hjpre : j ∉ pre := fun hmem => hnodup.2.2 j hmem j List.mem_cons_self rfl
  intro i hi q hq
  rcases List.mem_append.mp hi with hi | hi
  · obtain ⟨dest', body', hdest', hb⟩ := h.assigns i q hq
    obtain ⟨v, stack, -, rfl⟩ := ha.exec_eq_some.mp hexec
    refine hb.exec_setSignal v (hs i hi q hq) ?_ ?_
    · rintro rfl
      have hidx := h.idxOf?_eq hdest
      rw [h.idxOf?_eq hdest'] at hidx
      exact hjpre (Option.some_inj.mp hidx ▸ hi)
    · -- a process that reads the destination comes later
      intro hreads
      obtain ⟨pre₁, pre₂, rfl⟩ := List.append_of_mem hi
      have hmem := ho.before pre₁ i (pre₂ ++ j :: post) (by rw [heq]; simp) j
        ⟨p, q, dest, hp, hq, ha.writes_iff.mpr rfl, hreads⟩
      exact hjpre (List.mem_append_left _ hmem)
  · obtain rfl := List.mem_singleton.mp hi
    rw [hp] at hq
    cases hq
    refine ha.exec_idem hexec fun hreads => hjpre ?_
    exact ho.before pre i post heq i ⟨p, p, dest, hp, hp, ha.writes_iff.mpr rfl, hreads⟩

/-- A pass settles all processes of its order. -/
theorem settled_singlePass (h : Planned processes continuous dests) {order pre post : List Nat}
    (ho : TopologicalOrder continuous order) (heq : order = pre ++ post) {st st' : Store T}
    (hs : Settled continuous st pre) (hpass : singlePass continuous post st = some st') :
    Settled continuous st' order := by
  induction post generalizing pre st with
  | nil =>
    cases hpass
    rw [heq, List.append_nil]
    exact hs
  | cons j post ih =>
    rw [singlePass] at hpass
    cases hp : continuous[j]? with
    | none =>
      rw [hp] at hpass
      cases hpass
    | some p =>
      rw [hp] at hpass
      obtain ⟨st₁, hexec, hrest⟩ := Option.bind_eq_some_iff.mp hpass
      exact ih (by rw [heq]; simp) (h.settled_step ho heq hs hp hexec) hrest

/-- A settled store is determined by the signals that no continuous process writes, and by the memories. -/
theorem settled_unique (h : Planned processes continuous dests) {st st' : Store T}
    (hs : Settled continuous st (List.range continuous.length))
    (hs' : Settled continuous st' (List.range continuous.length))
    (hsignal : ∀ name, name ∉ dests → st.signal name = st'.signal name) (hword : st.word = st'.word) : st = st' := by
  have ho := h.topologicalOrder
  have hperm := h.perm
  generalize (dependencies continuous dests).kahn.order = order at ho hperm
  -- along the order, by what each process reads
  have hdest : ∀ pre post, order = pre ++ post → ∀ i ∈ pre, ∀ dest, dests[i]? = some dest →
      st.signal dest = st'.signal dest := by
    intro pre
    induction pre using List.reverseRecOn with
    | nil => exact fun _ _ i hi => absurd hi List.not_mem_nil
    | append_singleton pre j ih =>
      intro post heq i hi dest hd
      have heq' : order = pre ++ j :: post := by
        rw [heq]
        simp
      have hpre := ih (j :: post) heq'
      rcases List.mem_append.mp hi with hi | hi
      · exact hpre i hi dest hd
      · obtain rfl := List.mem_singleton.mp hi
        have hlt : i < continuous.length := by
          rw [h.length_eq]
          exact (List.getElem?_eq_some_iff.mp hd).1
        have hp := List.getElem?_eq_getElem hlt
        obtain ⟨dest', body, hd', ha⟩ := h.assigns i _ hp
        obtain rfl : dest = dest' := Option.some_inj.mp (hd.symm.trans hd')
        obtain ⟨v, stack, hrun, hval⟩ := ha.exec_self_iff.mp (hs i (List.mem_range.mpr hlt) _ hp)
        obtain ⟨v', stack', hrun', hval'⟩ := ha.exec_self_iff.mp (hs' i (List.mem_range.mpr hlt) _ hp)
        have hsame : runInstrs st body [] = runInstrs st' body [] := by
          refine ha.runInstrs_congr fun name hname => ?_
          by_cases hmem : name ∈ dests
          · obtain ⟨j, hj⟩ := List.getElem?_of_mem hmem
            have hjlt : j < continuous.length := by
              rw [h.length_eq]
              exact (List.getElem?_eq_some_iff.mp hj).1
            obtain ⟨dest', _, hj', hb⟩ := h.assigns j _ (List.getElem?_eq_getElem hjlt)
            obtain rfl : name = dest' := Option.some_inj.mp (hj.symm.trans hj')
            have hjpre := ho.before pre i post heq' j
              ⟨_, _, name, List.getElem?_eq_getElem hjlt, hp, hb.writes_iff.mpr rfl, hname⟩
            exact hpre j hjpre name hj
          · exact hsignal name hmem
        rw [hrun, hrun'] at hsame
        cases hsame
        rw [hval, hval']
  apply Store.ext
  · funext name
    by_cases hmem : name ∈ dests
    · obtain ⟨i, hi⟩ := List.getElem?_of_mem hmem
      have hlt : i < continuous.length := by
        rw [h.length_eq]
        exact (List.getElem?_eq_some_iff.mp hi).1
      exact hdest order [] (List.append_nil order).symm i (hperm.mem_iff.mpr (List.mem_range.mpr hlt)) name hi
    · exact hsignal name hmem
  · exact hword

/-- A pass changes the destinations only. -/
theorem singlePass_frame (h : Planned processes continuous dests) {order : List Nat} {st st' : Store T}
    (hpass : singlePass continuous order st = some st') :
    st'.word = st.word ∧ ∀ name, name ∉ dests → st'.signal name = st.signal name := by
  induction order generalizing st with
  | nil =>
    cases hpass
    exact ⟨rfl, fun _ _ => rfl⟩
  | cons i order ih =>
    rw [singlePass] at hpass
    cases hp : continuous[i]? with
    | none =>
      rw [hp] at hpass
      cases hpass
    | some p =>
      rw [hp] at hpass
      obtain ⟨st₁, hexec, hrest⟩ := Option.bind_eq_some_iff.mp hpass
      obtain ⟨dest, body, hdest, ha⟩ := h.assigns i p hp
      obtain ⟨v, stack, -, rfl⟩ := ha.exec_eq_some.mp hexec
      obtain ⟨hword, hsignal⟩ := ih hrest
      refine ⟨hword, fun name hname => (hsignal name hname).trans (signal_setSignal_of_ne st v ?_)⟩
      rintro rfl
      exact hname (List.mem_of_getElem? hdest)

theorem mem_dests_iff (h : Planned processes continuous dests) {name : String} :
    name ∈ dests ↔ ∃ p ∈ continuous, p.Writes name := by
  constructor
  · intro hmem
    obtain ⟨i, hi⟩ := List.getElem?_of_mem hmem
    have hlt : i < continuous.length := by
      rw [h.length_eq]
      exact (List.getElem?_eq_some_iff.mp hi).1
    obtain ⟨dest, body, hdest, ha⟩ := h.assigns i _ (List.getElem?_eq_getElem hlt)
    obtain rfl : name = dest := Option.some_inj.mp (hi.symm.trans hdest)
    exact ⟨_, List.getElem_mem hlt, ha.writes_iff.mpr rfl⟩
  · rintro ⟨p, hp, hw⟩
    obtain ⟨i, hi⟩ := List.getElem?_of_mem hp
    obtain ⟨dest, body, hdest, ha⟩ := h.assigns i p hi
    rw [ha.writes_iff.mp hw]
    exact List.mem_of_getElem? hdest

theorem settled_range_iff {st : Store T} :
    Settled continuous st (List.range continuous.length) ↔ ∀ p ∈ continuous, p.exec st = some st := by
  constructor
  · intro hs p hp
    obtain ⟨i, hi⟩ := List.getElem?_of_mem hp
    exact hs i (List.mem_range.mpr (List.getElem?_eq_some_iff.mp hi).1) p hi
  · exact fun hs i _ p hp => hs p (List.mem_of_getElem? hp)

/-- A pass ends if no program raises. -/
theorem singlePass_isSome {order : List Nat} (horder : ∀ i ∈ order, i < continuous.length)
    (hexec : ∀ p ∈ continuous, ∀ st : Store T, (p.exec st).isSome = true) (st : Store T) :
    (singlePass continuous order st).isSome = true := by
  induction order generalizing st with
  | nil => rfl
  | cons i order ih =>
    have hp := List.getElem?_eq_getElem (horder i List.mem_cons_self)
    obtain ⟨st₁, hst₁⟩ := Option.isSome_iff_exists.mp (hexec _ (List.mem_of_getElem? hp) st)
    rw [singlePass, hp]
    dsimp only
    rw [hst₁]
    exact ih (fun j hj => horder j (List.mem_cons_of_mem _ hj)) st₁

end Planned

variable (T) in
/-- What a plan for the continuous processes promises of the batch execution. -/
structure CorrectPlan (processes continuous : List CompiledProcess) (order : List Nat) (depth : Nat) : Prop where
  /-- Every continuous process stands in the order once. -/
  perm : order.Perm (List.range continuous.length)
  /-- It comes after all writers of what it reads. -/
  before : ∀ pre i post, order = pre ++ i :: post → ∀ j, DependsOn continuous j i → j ∈ pre
  /-- The depth is the number of assignments on the longest path. -/
  depth : IsGreatest {n | ∃ path, IsDependencyPath continuous path ∧ path.length = n} depth
  /-- A pass ends if no program raises. -/
  ends : (∀ p ∈ continuous, ∀ st : Store T, (p.exec st).isSome = true) →
    ∀ st : Store T, (singlePass continuous order st).isSome = true
  /-- It ends in a store that no continuous program changes. -/
  settled : ∀ st st' : Store T, singlePass continuous order st = some st' → ∀ p ∈ continuous, p.exec st' = some st'
  /-- There is no other such store with the same signals outside the destinations. -/
  unique : ∀ st st' : Store T, singlePass continuous order st = some st' → ∀ fixed : Store T,
    (∀ p ∈ continuous, p.exec fixed = some fixed) → fixed.word = st.word →
    (∀ name, (∀ p ∈ continuous, ¬ p.Writes name) → fixed.signal name = st.signal name) → fixed = st'
  /-- No destination triggers another process, or is stored to by one. -/
  undisturbed : ∀ p ∈ continuous, ∀ name, p.Writes name → ∀ q ∈ processes, q.processType ≠ .continuous →
    name ∉ q.sensitivity ∧ name ∉ q.edgeSignals ∧ ¬ q.Writes name

/-- A plan that is returned is correct. -/
theorem planContinuousOrder_correct (T : SignalTable) {processes : List CompiledProcess} {order : List Nat}
    {depth : Nat} (h : planContinuousOrder processes = some (order, depth)) :
    CorrectPlan T processes (processes.filter fun p => p.processType = .continuous) order depth := by
  obtain ⟨continuous, dests, hplan, hlen, rfl, rfl⟩ := planned_of_plan h
  rw [← hplan.continuous_eq]
  have hperm := hplan.perm
  have hsettled : ∀ st st' : Store T,
      singlePass continuous (dependencies continuous dests).kahn.order st = some st' →
      ∀ p ∈ continuous, p.exec st' = some st' := by
    intro st st' hpass
    have hall := hplan.settled_singlePass hplan.topologicalOrder (List.nil_append _).symm (fun _ hi => nomatch hi) hpass
    exact Planned.settled_range_iff.mp fun i hi => hall i (hperm.mem_iff.mpr hi)
  refine ⟨hperm, fun pre i post heq j hj => hplan.before heq hj, hplan.isGreatest_depth (by omega), ?_, hsettled, ?_,
    fun p hp name hw q hq hne => hplan.not_disturbs hp hw hq hne⟩
  · exact fun hexec => Planned.singlePass_isSome (fun i hi => List.mem_range.mp (hperm.mem_iff.mp hi)) hexec
  · intro st st' hpass fixed hfixed hword hsignal
    obtain ⟨hword', hsignal'⟩ := hplan.singlePass_frame hpass
    refine hplan.settled_unique (Planned.settled_range_iff.mpr hfixed)
      (Planned.settled_range_iff.mpr (hsettled st st' hpass)) (fun name hname => ?_) (hword.trans hword'.symm)
    rw [hsignal' name hname]
    refine hsignal name fun p hp hw => hname (hplan.mem_dests_iff.mpr ⟨p, hp, hw⟩)

/-! ## A plan -/

/-- `assign b = x & a` before `assign a = ~x`. -/
def twoAssigns : List CompiledProcess :=
  [⟨.continuous, [.op (.loadSig "x"), .op (.loadSig "a"), .op .bitAnd, .op (.storeSig "b"), .op .procEnd],
      ["x", "a"], by decide, [], false⟩,
    ⟨.continuous, [.op (.loadSig "x"), .op .bitNot, .op (.storeSig "a"), .op .procEnd], ["x"], by decide, [], false⟩]

theorem planContinuousOrder_twoAssigns :
    planContinuousOrder twoAssigns = some ([1, 0], 2) ∧
      CorrectPlan (.vectors [("x", 1, false), ("a", 1, false), ("b", 1, false)]) twoAssigns
        (twoAssigns.filter fun p => p.processType = .continuous) [1, 0] 2 := by
  have hplan : planContinuousOrder twoAssigns = some ([1, 0], 2) := rfl
  exact ⟨hplan, planContinuousOrder_correct _ hplan⟩

end Veriforge.Vm

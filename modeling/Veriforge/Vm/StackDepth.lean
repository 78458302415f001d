import Mathlib.Algebra.Order.BigOperators.Group.Finset
import Mathlib.Logic.Relation
import Veriforge.Value.Ops

/-! # The stack depth of a program

`max_stack_depth` (`sim/vm/opcodes.py`) follows the jumps of a bytecode program with the fixed stack effect of each
opcode, beside the stack of `Interpreter.execute` (`sim/vm/interpreter.py`). What an opcode computes is left open, since
only how many values it takes and leaves matters; the jumps go where the values on the stack send them. Operands are
arbitrary integers, so program points are read as Python reads list indices. -/

namespace Veriforge.Vm.StackDepth

/-! ## Programs -/

/-- `Op`, and any integer that is no opcode. -/
inductive Opcode
  | loadSig | loadConst | storeSig | nbaSig | storeBit | nbaBit | storeRange | nbaRange | resize
  | add | sub | mul | div | mod | pow
  | bitAnd | bitOr | bitXor | bitXnor | bitNot | shl | shr | ashl | ashr
  | cmpEq | cmpNe | cmpLt | cmpLe | cmpGt | cmpGe | cmpCaseEq | cmpCaseNe
  | logAnd | logOr | logNot | neg | uplus
  | redAnd | redOr | redXor | redNand | redNor | redXnor
  | bitSelect | rangeSelect | partSelUp | partSelDown | concat | replicate
  | jump | jumpIfZero | jumpIfNonzero | dup | pop | nop
  | sysDisplay | sysFinish | sysTime | procEnd | funcClog2
  | cmpCasex | cmpCasez | cmpSlt | cmpSle | cmpSgt | cmpSge
  | loadMem | storeMem | nbaMem | storeMemRange | nbaMemRange
  | funcRandom | signExt | sysReadmem | ternary | sysMonitor
  | sysFopen | sysFclose | sysFdisplay | sysFwrite | sysFeof
  | sdiv | smod | spow | streamReverse | clearMask | funcReal1 | funcReal2
  | other (code : Int)
  deriving DecidableEq

/-- An instruction tuple. -/
structure Instr where
  op : Opcode
  arg1 : Int
  arg2 : Int := 0

/-- The place of index `i` in a list of `n` elements, counted from the end when negative; `none` is an `IndexError`. -/
def pyIndex (n : Nat) (i : Int) : Option Nat :=
  if 0 ≤ i then if i < n then some i.toNat else none
  else if -n ≤ i then some (n + i).toNat
  else none

/-- `program[pc]` -/
def instrAt (program : List Instr) (pc : Int) : Option Instr := (pyIndex program.length pc).bind (program[·]?)

/-! ## The interpreter -/

/-- How the branch of an opcode uses the stack. -/
inductive Branch
  /-- So many pops, then the result is appended. -/
  | compute (pops : Nat)
  /-- So many pops. -/
  | consume (pops : Nat)
  | keep
  | dup
  | pop
  | jump
  | jumpIfZero
  | jumpIfNonzero
  /-- `StopSimulation`, or the end of the process. -/
  | stop

/-- The branches of `Interpreter.execute`. -/
def branch : Opcode → Int → Branch
  | .loadSig, _ | .loadConst, _ | .sysTime, _ | .funcRandom, _ | .sysFopen, _ => .compute 0
  | .resize, _ | .signExt, _ | .streamReverse, _ | .clearMask, _ | .bitNot, _ | .logNot, _ | .neg, _
  | .redAnd, _ | .redOr, _ | .redXor, _ | .redNand, _ | .redNor, _ | .redXnor, _
  | .funcClog2, _ | .funcReal1, _ | .loadMem, _ | .sysFeof, _ => .compute 1
  | .add, _ | .sub, _ | .mul, _ | .div, _ | .mod, _ | .sdiv, _ | .smod, _ | .pow, _ | .spow, _
  | .bitAnd, _ | .bitOr, _ | .bitXor, _ | .bitXnor, _ | .shl, _ | .shr, _ | .ashl, _ | .ashr, _
  | .cmpEq, _ | .cmpNe, _ | .cmpLt, _ | .cmpLe, _ | .cmpGt, _ | .cmpGe, _ | .cmpCaseEq, _ | .cmpCaseNe, _
  | .cmpSlt, _ | .cmpSle, _ | .cmpSgt, _ | .cmpSge, _ | .cmpCasex, _ | .cmpCasez, _
  | .logAnd, _ | .logOr, _ | .bitSelect, _ | .replicate, _ | .funcReal2, _ => .compute 2
  | .rangeSelect, _ | .partSelUp, _ | .partSelDown, _ | .ternary, _ => .compute 3
  | .concat, parts => .compute parts.toNat
  | .storeSig, _ | .nbaSig, _ | .sysFclose, _ => .consume 1
  | .storeBit, _ | .nbaBit, _ | .storeMem, _ | .nbaMem, _ => .consume 2
  | .storeRange, _ | .nbaRange, _ => .consume 3
  | .storeMemRange, _ | .nbaMemRange, _ => .consume 4
  | .sysDisplay, arg1 | .sysMonitor, arg1 => .consume (arg1 % 0x10000).toNat
  | .sysFdisplay, arg1 | .sysFwrite, arg1 => .consume ((arg1 % 0x10000).toNat + 1)
  | .sysReadmem, _ => .consume 0
  | .uplus, _ | .nop, _ | .other _, _ => .keep
  | .dup, _ => .dup
  | .pop, _ => .pop
  | .jump, _ => .jump
  | .jumpIfZero, _ => .jumpIfZero
  | .jumpIfNonzero, _ => .jumpIfNonzero
  | .sysFinish, _ | .procEnd, _ => .stop

/-- What the opcodes compute from the values popped, the last one first, and from the rest of the interpreter: signals,
memories, queues, output, files, time. `none` is an exception. -/
structure Interpreter (σ : Type) where
  result : Instr → List Value → σ → Option (Value × σ)
  effect : Instr → List Value → σ → Option σ
  loopLimit : Nat

/-- The local variables of `execute`, and the rest of the interpreter. -/
structure State (σ : Type) where
  pc : Int
  stack : List Value
  loopIters : Nat
  rest : σ

/-- The state at the start of `execute`. -/
def State.start {σ : Type} (rest : σ) : State σ := ⟨0, [], 0, rest⟩

variable {σ : Type} (M : Interpreter σ)

/-- One instruction, the program counter already past it; `none` where the run ends. -/
def exec (i : Instr) (s : State σ) : Option (State σ) :=
  match branch i.op i.arg1, s.stack with
  | .compute pops, stack =>
      if pops ≤ stack.length then do
        let (v, rest) ← M.result i (stack.take pops) s.rest
        return { s with stack := v :: stack.drop pops, rest := rest }
      else none
  | .consume pops, stack =>
      if pops ≤ stack.length then do
        let rest ← M.effect i (stack.take pops) s.rest
        return { s with stack := stack.drop pops, rest := rest }
      else none
  | .keep, _ => some s
  | .dup, top :: stack => some { s with stack := top :: top :: stack }
  | .dup, [] => none
  | .pop, stack => some { s with stack := stack.tail }
  | .jump, _ =>
      if i.arg1 ≤ s.pc - 1 then
        if s.loopIters + 1 > M.loopLimit then none
        else some { s with pc := i.arg1, loopIters := s.loopIters + 1 }
      else some { s with pc := i.arg1 }
  | .jumpIfZero, v :: stack => some { s with pc := if v.knownOne then s.pc else i.arg1, stack := stack }
  | .jumpIfZero, [] => none
  | .jumpIfNonzero, v :: stack => some { s with pc := if v.knownOne then i.arg1 else s.pc, stack := stack }
  | .jumpIfNonzero, [] => none
  | .stop, _ => none

/-- One round of the loop of `execute`. -/
def step (program : List Instr) (s : State σ) : Option (State σ) :=
  if s.pc < program.length then (instrAt program s.pc).bind fun i => exec M i { s with pc := s.pc + 1 } else none

/-- A run of the loop. -/
def Reaches (program : List Instr) : State σ → State σ → Prop :=
  Relation.ReflTransGen fun s s' => step M program s = some s'

/-! ## The analysis -/

/-- `_stack_effect`: pops and pushes. -/
def stackEffect : Opcode → Int → Int × Int
  | .concat, arg1 => (arg1, 1)
  | .sysDisplay, arg1 | .sysMonitor, arg1 => (arg1 % 0x10000, 0)
  | .sysFdisplay, arg1 | .sysFwrite, arg1 => (arg1 % 0x10000 + 1, 0)
  | .loadSig, _ | .loadConst, _ | .dup, _ | .sysTime, _ | .funcRandom, _ | .sysFopen, _ => (0, 1)
  | .resize, _ | .signExt, _ | .streamReverse, _ | .clearMask, _ | .funcReal1, _ | .bitNot, _ | .logNot, _
  | .neg, _ | .uplus, _ | .redAnd, _ | .redOr, _ | .redXor, _ | .redNand, _ | .redNor, _ | .redXnor, _
  | .funcClog2, _ | .loadMem, _ | .sysFeof, _ => (1, 1)
  | .add, _ | .sub, _ | .mul, _ | .div, _ | .mod, _ | .pow, _ | .sdiv, _ | .smod, _ | .funcReal2, _ | .spow, _
  | .bitAnd, _ | .bitOr, _ | .bitXor, _ | .bitXnor, _ | .shl, _ | .shr, _ | .ashl, _ | .ashr, _
  | .cmpEq, _ | .cmpNe, _ | .cmpLt, _ | .cmpLe, _ | .cmpGt, _ | .cmpGe, _ | .cmpCaseEq, _ | .cmpCaseNe, _
  | .cmpCasex, _ | .cmpCasez, _ | .cmpSlt, _ | .cmpSle, _ | .cmpSgt, _ | .cmpSge, _
  | .logAnd, _ | .logOr, _ | .bitSelect, _ | .replicate, _ => (2, 1)
  | .rangeSelect, _ | .partSelUp, _ | .partSelDown, _ | .ternary, _ => (3, 1)
  | .storeSig, _ | .nbaSig, _ | .jumpIfZero, _ | .jumpIfNonzero, _ | .pop, _ | .sysFclose, _ => (1, 0)
  | .storeBit, _ | .nbaBit, _ | .storeMem, _ | .nbaMem, _ => (2, 0)
  | .storeRange, _ | .nbaRange, _ => (3, 0)
  | .storeMemRange, _ | .nbaMemRange, _ => (4, 0)
  | .jump, _ | .nop, _ | .sysFinish, _ | .procEnd, _ | .sysReadmem, _ => (0, 0)
  | .other _, _ => (0, 1)

/-- `max(depth - pops, 0) + pushes` -/
def depthAfter (effect : Int × Int) (depth : Int) : Int := max (depth - effect.1) 0 + effect.2

/-- The variables of the worklist loop. `depthAt` is the list `depth_at` by its places, `work` has its last item first,
and `current` is the item that the inner loop follows. -/
structure Config where
  depthAt : Nat → Int
  worst : Int
  work : List (Int × Int)
  current : Option (Int × Int)

/-- What `max_stack_depth` ends with. -/
inductive Answer
  | depth (d : Int)
  /-- `IndexError` -/
  | raised

/-- The values before the loop. -/
def Config.start : Config := ⟨fun _ => -1, 0, [(0, 0)], none⟩

def isConditional (op : Opcode) : Bool := op == .jumpIfZero || op == .jumpIfNonzero

def isStop (op : Opcode) : Bool := op == .procEnd || op == .sysFinish

/-- The body of the inner loop at an instruction that is reached deeper than before. -/
def visit (n : Nat) (c : Config) (place : Nat) (pc depth : Int) (i : Instr) : Config ⊕ Answer :=
  let depth' := depthAfter (stackEffect i.op i.arg1) depth
  let worst := max c.worst depth'
  if (n : Int) < worst then .inr (.depth (n + 1))
  else
    .inl {
      depthAt := Function.update c.depthAt place depth
      worst := worst
      work := if isConditional i.op then (i.arg1, depth') :: c.work else c.work
      current :=
        if isStop i.op then none
        else if i.op == .jump then some (i.arg1, depth')
        else some (pc + 1, depth') }

/-- One round: an item is taken from the worklist, or the inner loop makes a step with the item or leaves it. -/
def Config.step (program : List Instr) (c : Config) : Config ⊕ Answer :=
  match c.current with
  | none =>
      match c.work with
      | [] => .inr (.depth c.worst)
      | item :: work => .inl { c with work := work, current := some item }
  | some (pc, depth) =>
      if pc < program.length then
        match pyIndex (program.length + 1) pc with
        | none => .inr .raised
        | some place =>
            if depth ≤ c.depthAt place then .inl { c with current := none }
            else
              match instrAt program pc with
              | none => .inr .raised
              | some i => visit program.length c place pc depth i
      else .inl { c with current := none }

/-- So many rounds of `max_stack_depth`. -/
def analyse (program : List Instr) : Nat → Config → Option Answer
  | 0, _ => none
  | rounds + 1, c =>
      match c.step program with
      | .inl c => analyse program rounds c
      | .inr answer => some answer

/-! ## What a round does -/

theorem pyIndex_lt {n place : Nat} {i : Int} (h : pyIndex n i = some place) : place < n := by
  unfold pyIndex at h
  split at h
  · split at h
    · obtain rfl := Option.some.inj h
      omega
    · cases h
  · split at h
    · obtain rfl := Option.some.inj h
      omega
    · cases h

/-- The variables after a visit that does not return. -/
def visited (c : Config) (place : Nat) (pc depth : Int) (i : Instr) : Config where
  depthAt := Function.update c.depthAt place depth
  worst := max c.worst (depthAfter (stackEffect i.op i.arg1) depth)
  work :=
    if isConditional i.op then (i.arg1, depthAfter (stackEffect i.op i.arg1) depth) :: c.work else c.work
  current :=
    if isStop i.op then none
    else if i.op == .jump then some (i.arg1, depthAfter (stackEffect i.op i.arg1) depth)
    else some (pc + 1, depthAfter (stackEffect i.op i.arg1) depth)

/-- The rounds after which the loop goes on. -/
inductive Config.Round (program : List Instr) (c : Config) : Config → Prop
  | take {item : Int × Int} {work : List (Int × Int)} (hcurrent : c.current = none) (hwork : c.work = item :: work) :
      Round program c { c with work := work, current := some item }
  | leave {pc depth : Int} (hcurrent : c.current = some (pc, depth))
      (h : pc < program.length → ∃ place, pyIndex (program.length + 1) pc = some place ∧ depth ≤ c.depthAt place) :
      Round program c { c with current := none }
  | visit {pc depth : Int} {place : Nat} {i : Instr} (hcurrent : c.current = some (pc, depth))
      (hpc : pc < program.length) (hplace : pyIndex (program.length + 1) pc = some place)
      (hdeeper : c.depthAt place < depth) (hi : instrAt program pc = some i)
      (hworst : max c.worst (depthAfter (stackEffect i.op i.arg1) depth) ≤ program.length) :
      Round program c (visited c place pc depth i)

variable {program : List Instr} {c c' : Config}

theorem Config.round_of_step (h : c.step program = .inl c') : c.Round program c' := by
  unfold step at h
  split at h
  · next hcurrent =>
    split at h
    · cases h
    · next item work hwork =>
      obtain rfl := Sum.inl.inj h
      exact .take hcurrent hwork
  · next pc depth hcurrent =>
    split at h
    · next hpc =>
      split at h
      · cases h
      · next place hplace =>
        split at h
        · next hle =>
          obtain rfl := Sum.inl.inj h
          exact .leave hcurrent fun _ => ⟨place, hplace, hle⟩
        · next hdeeper =>
          split at h
          · cases h
          · next i hi =>
            unfold StackDepth.visit at h
            dsimp only at h
            split at h
            · cases h
            · next hworst =>
              obtain rfl := Sum.inl.inj h
              exact .visit hcurrent hpc hplace (not_le.mp hdeeper) hi (not_lt.mp hworst)
    · next hpc =>
      obtain rfl := Sum.inl.inj h
      exact .leave hcurrent fun h => absurd h hpc

/-- An answer is the worst depth once nothing is left to follow, or one more than the program is long. -/
theorem Config.answer_of_step {d : Int} (h : c.step program = .inr (.depth d)) :
    c.current = none ∧ c.work = [] ∧ d = c.worst ∨ d = program.length + 1 := by
  unfold step at h
  split at h
  · next hcurrent =>
    split at h
    · next hwork =>
      cases h
      exact Or.inl ⟨hcurrent, hwork, rfl⟩
    · cases h
  · split at h
    · split at h
      · cases h
      · split at h
        · cases h
        · split at h
          · cases h
          · unfold visit at h
            dsimp only at h
            split at h
            · cases h
              exact Or.inr rfl
            · cases h
    · cases h

/-! ## Termination -/

/-- No depth that is followed is larger than the program is long. -/
def Config.Bounded (n : Nat) (c : Config) : Prop :=
  (∀ item ∈ c.work, item.2 ≤ n) ∧ ∀ item, c.current = some item → item.2 ≤ n

/-- By how much the depths found can still grow, and the items still to be followed. -/
def Config.potential (n : Nat) (c : Config) : Nat :=
  3 * ∑ place ∈ Finset.range (n + 1), ((n : Int) - c.depthAt place).toNat + 2 * c.work.length
    + if c.current.isSome then 1 else 0

/-- A deeper visit takes some of the growth that is left. -/
theorem sum_update_lt {n place : Nat} {depthAt : Nat → Int} {depth : Int} (hplace : place < n + 1)
    (hdeeper : depthAt place < depth) (hdepth : depth ≤ n) :
    ∑ k ∈ Finset.range (n + 1), ((n : Int) - Function.update depthAt place depth k).toNat
      < ∑ k ∈ Finset.range (n + 1), ((n : Int) - depthAt k).toNat := by
  apply Finset.sum_lt_sum
  · intro k _
    by_cases hk : k = place
    · rw [hk, Function.update_self]
      omega
    · rw [Function.update_of_ne hk]
  · refine ⟨place, Finset.mem_range.mpr hplace, ?_⟩
    rw [Function.update_self]
    omega

theorem Config.Round.bounded (h : c.Round program c') (hc : c.Bounded program.length) : c'.Bounded program.length := by
  cases h with
  | take _ hwork =>
    rw [Config.Bounded, hwork] at hc
    refine ⟨fun item hitem => hc.1 item (List.mem_cons_of_mem _ hitem), fun item hitem => ?_⟩
    obtain rfl := Option.some.inj hitem
    exact hc.1 _ List.mem_cons_self
  | leave => exact ⟨hc.1, fun _ hitem => by cases hitem⟩
  | visit _ _ _ _ _ hworst =>
    have hdepth := le_trans (le_max_right _ _) hworst
    constructor
    · intro item hitem
      dsimp only [visited] at hitem
      split at hitem
      · rcases List.mem_cons.mp hitem with rfl | hitem
        · exact hdepth
        · exact hc.1 item hitem
      · exact hc.1 item hitem
    · intro item hitem
      dsimp only [visited] at hitem
      split at hitem
      · cases hitem
      · split at hitem <;> obtain rfl := Option.some.inj hitem <;> exact hdepth

theorem Config.Round.potential_lt (h : c.Round program c') (hc : c.Bounded program.length) :
    c'.potential program.length < c.potential program.length := by
  unfold potential
  cases h with
  | take hcurrent hwork =>
    rw [hcurrent, hwork, List.length_cons]
    simp only [Option.isSome_some, Option.isSome_none, if_true, Bool.false_eq_true, if_false]
    omega
  | leave hcurrent =>
    rw [hcurrent]
    simp
  | @visit pc depth place i hcurrent hpc hplace hdeeper hi hworst =>
    have hsum := sum_update_lt (pyIndex_lt hplace) hdeeper (hc.2 _ hcurrent)
    have hwork : (visited c place pc depth i).work.length ≤ c.work.length + 1 := by
      dsimp only [visited]
      split
      · exact le_of_eq (List.length_cons ..)
      · omega
    have hcurrent' : (if (visited c place pc depth i).current.isSome = true then 1 else 0) ≤ 1 := by
      split <;> omega
    rw [hcurrent]
    simp only [Option.isSome_some, if_true]
    change 3 * ∑ k ∈ Finset.range (program.length + 1),
      ((program.length : Int) - Function.update c.depthAt place depth k).toNat + _ + _ < _
    omega

/-- The worklist is worked off. -/
theorem exists_answer (program : List Instr) {c : Config} (hc : c.Bounded program.length) :
    ∃ rounds answer, analyse program rounds c = some answer := by
  induction hn : c.potential program.length using Nat.strong_induction_on generalizing c with
  | _ n ih =>
    cases hstep : c.step program with
    | inr answer => exact ⟨1, answer, by rw [analyse, hstep]⟩
    | inl c' =>
      have hround := Config.round_of_step hstep
      obtain ⟨rounds, answer, h⟩ := ih _ (hn ▸ hround.potential_lt hc) (hround.bounded hc) rfl
      exact ⟨rounds + 1, answer, by rw [analyse, hstep]; exact h⟩

theorem Config.bounded_start (n : Nat) : Config.start.Bounded n := by
  refine ⟨fun item hitem => ?_, fun _ hitem => by cases hitem⟩
  obtain rfl := List.mem_singleton.mp hitem
  exact Int.natCast_nonneg n

/-! ## The interpreter against the table -/

/-- The pops and pushes of a branch. -/
def Branch.effect : Branch → Int × Int
  | .compute pops => (pops, 1)
  | .consume pops => (pops, 0)
  | .keep | .jump | .stop => (0, 0)
  | .dup => (0, 1)
  | .pop | .jumpIfZero | .jumpIfNonzero => (1, 0)

/-- The table leaves room for what the interpreter does, opcode by opcode. -/
theorem depthAfter_branch_le (op : Opcode) (arg1 : Int) {depth : Int} (h : 0 ≤ depth) :
    depthAfter (branch op arg1).effect depth ≤ depthAfter (stackEffect op arg1) depth := by
  cases op <;> simp only [branch, Branch.effect, stackEffect, depthAfter] <;> omega

theorem depthAfter_mono (effect : Int × Int) {depth depth' : Int} (h : depth ≤ depth') :
    depthAfter effect depth ≤ depthAfter effect depth' := by
  unfold depthAfter
  omega

/-- Where an instruction can lead. -/
def successors (i : Instr) (pc : Int) : List Int :=
  if isStop i.op then []
  else if i.op == .jump then [i.arg1]
  else if isConditional i.op then [i.arg1, pc + 1]
  else [pc + 1]

theorem branch_eq_jump {op : Opcode} {arg1 : Int} (h : branch op arg1 = .jump) : op = .jump := by
  cases op <;> first | rfl | cases h

theorem branch_eq_jumpIfZero {op : Opcode} {arg1 : Int} (h : branch op arg1 = .jumpIfZero) : op = .jumpIfZero := by
  cases op <;> first | rfl | cases h

theorem branch_eq_jumpIfNonzero {op : Opcode} {arg1 : Int} (h : branch op arg1 = .jumpIfNonzero) :
    op = .jumpIfNonzero := by
  cases op <;> first | rfl | cases h

theorem mem_successors_next {i : Instr} {pc : Int} (hjump : branch i.op i.arg1 ≠ .jump)
    (hstop : branch i.op i.arg1 ≠ .stop) : pc + 1 ∈ successors i pc := by
  have hnotStop : isStop i.op = false := by
    by_contra h
    rw [Bool.not_eq_false, isStop, Bool.or_eq_true, beq_iff_eq, beq_iff_eq] at h
    rcases h with h | h <;> rw [h] at hstop <;> exact hstop rfl
  have hnotJump : (i.op == .jump) = false := by
    by_contra h
    rw [Bool.not_eq_false, beq_iff_eq] at h
    rw [h] at hjump
    exact hjump rfl
  unfold successors
  rw [hnotStop, hnotJump]
  cases isConditional i.op <;> simp

/-- An instruction leaves no more values than the table says, and leads to one of its successors. -/
theorem exec_spec {i : Instr} {s s' : State σ} (h : exec M i s = some s') :
    (s'.stack.length : Int) ≤ depthAfter (stackEffect i.op i.arg1) s.stack.length ∧
      s'.pc ∈ successors i (s.pc - 1) := by
  have hroom := depthAfter_branch_le i.op i.arg1 (Int.natCast_nonneg s.stack.length)
  suffices hbranch : (s'.stack.length : Int) ≤ depthAfter (branch i.op i.arg1).effect s.stack.length ∧
      s'.pc ∈ successors i (s.pc - 1) from ⟨hbranch.1.trans hroom, hbranch.2⟩
  have hnext : branch i.op i.arg1 ≠ .jump → branch i.op i.arg1 ≠ .stop → s.pc ∈ successors i (s.pc - 1) :=
    fun hjump hstop => by
      have hmem : s.pc - 1 + 1 ∈ successors i (s.pc - 1) := mem_successors_next hjump hstop
      rwa [sub_add_cancel] at hmem
  unfold exec at h
  split at h
  · next pops hb =>
    split at h
    · next hlen =>
      obtain ⟨⟨v, rest⟩, -, h⟩ := Option.bind_eq_some_iff.mp h
      obtain rfl := Option.some.inj h
      refine ⟨?_, hnext (by rw [hb]; exact nofun) (by rw [hb]; exact nofun)⟩
      rw [hb, List.length_cons, List.length_drop]
      simp only [Branch.effect, depthAfter]
      omega
    · cases h
  · next pops hb =>
    split at h
    · next hlen =>
      obtain ⟨rest, -, h⟩ := Option.bind_eq_some_iff.mp h
      obtain rfl := Option.some.inj h
      refine ⟨?_, hnext (by rw [hb]; exact nofun) (by rw [hb]; exact nofun)⟩
      rw [hb, List.length_drop]
      simp only [Branch.effect, depthAfter]
      omega
    · cases h
  · next hb =>
    obtain rfl := Option.some.inj h
    refine ⟨?_, hnext (by rw [hb]; exact nofun) (by rw [hb]; exact nofun)⟩
    rw [hb]
    simp only [Branch.effect, depthAfter]
    omega
  · next top stack hb hs =>
    obtain rfl := Option.some.inj h
    refine ⟨?_, hnext (by rw [hb]; exact nofun) (by rw [hb]; exact nofun)⟩
    rw [hb, hs]
    simp only [Branch.effect, depthAfter, List.length_cons]
    omega
  · cases h
  · next hb =>
    obtain rfl := Option.some.inj h
    refine ⟨?_, hnext (by rw [hb]; exact nofun) (by rw [hb]; exact nofun)⟩
    rw [hb, List.length_tail]
    simp only [Branch.effect, depthAfter]
    omega
  · next hb =>
    have hjump : i.arg1 ∈ successors i (s.pc - 1) := by
      rw [successors, branch_eq_jump hb]
      exact List.mem_singleton_self _
    have hlength : (s.stack.length : Int) ≤ depthAfter (branch i.op i.arg1).effect s.stack.length := by
      rw [hb]
      simp only [Branch.effect, depthAfter]
      omega
    split at h
    · split at h
      · cases h
      · obtain rfl := Option.some.inj h
        exact ⟨hlength, hjump⟩
    · obtain rfl := Option.some.inj h
      exact ⟨hlength, hjump⟩
  · next v stack hb hs =>
    obtain rfl := Option.some.inj h
    constructor
    · rw [hb, hs]
      simp only [Branch.effect, depthAfter, List.length_cons]
      omega
    · dsimp only
      split
      · exact hnext (by rw [hb]; exact nofun) (by rw [hb]; exact nofun)
      · rw [successors, branch_eq_jumpIfZero hb]
        exact List.mem_cons_self
  · cases h
  · next v stack hb hs =>
    obtain rfl := Option.some.inj h
    constructor
    · rw [hb, hs]
      simp only [Branch.effect, depthAfter, List.length_cons]
      omega
    · dsimp only
      split
      · rw [successors, branch_eq_jumpIfNonzero hb]
        exact List.mem_cons_self
      · exact hnext (by rw [hb]; exact nofun) (by rw [hb]; exact nofun)
  · cases h
  · cases h

/-! ## Soundness -/

/-- The jumps go to addresses, or at most to one place in front of the program: `program[-1]` has the place of
`depth_at` that no address uses, and a more negative index shares the place of another instruction. -/
def JumpsForward (program : List Instr) : Prop :=
  ∀ i ∈ program, i.op = .jump ∨ isConditional i.op = true → -1 ≤ i.arg1

/-- The place of `depth_at` for a program point. -/
def place (n : Nat) (pc : Int) : Nat := (if 0 ≤ pc then pc else n + 1 + pc).toNat

theorem pyIndex_eq_place {n : Nat} {pc : Int} (hlow : -1 ≤ pc) (hhigh : pc < n) :
    pyIndex (n + 1) pc = some (place n pc) := by
  unfold pyIndex place
  by_cases h : 0 ≤ pc
  · rw [if_pos h, if_pos h, if_pos (by omega)]
  · rw [if_neg h, if_neg h, if_pos (by omega)]
    congr 1

theorem place_injective {n : Nat} {pc pc' : Int} (hlow : -1 ≤ pc) (hhigh : pc < n) (hlow' : -1 ≤ pc') (hhigh' : pc' < n)
    (h : place n pc = place n pc') : pc = pc' := by
  unfold place at h
  split at h <;> split at h <;> omega

/-- The depth of the item is accounted for at its program point. -/
def Config.Covers (n : Nat) (c : Config) (item : Int × Int) : Prop :=
  (n : Int) ≤ item.1 ∨ item.2 ≤ c.depthAt (place n item.1)

/-- The item is still to be followed. -/
def Config.Pending (c : Config) (item : Int × Int) : Prop := item ∈ c.work ∨ c.current = some item

/-- The invariant of the worklist. -/
structure Config.Closed (program : List Instr) (c : Config) : Prop where
  start : c.Covers program.length (0, 0) ∨ c.Pending (0, 0)
  low : ∀ item, c.Pending item → -1 ≤ item.1
  nonneg : ∀ item, c.Pending item → 0 ≤ item.2
  worst_nonneg : 0 ≤ c.worst
  worst : ∀ (pc : Int) i, -1 ≤ pc → pc < program.length → instrAt program pc = some i →
    0 ≤ c.depthAt (place program.length pc) →
      depthAfter (stackEffect i.op i.arg1) (c.depthAt (place program.length pc)) ≤ c.worst
  closed : ∀ (pc : Int) i, -1 ≤ pc → pc < program.length → instrAt program pc = some i →
    0 ≤ c.depthAt (place program.length pc) → ∀ next ∈ successors i pc,
      let item := (next, depthAfter (stackEffect i.op i.arg1) (c.depthAt (place program.length pc)))
      c.Covers program.length item ∨ c.Pending item

theorem mem_of_instrAt {pc : Int} {i : Instr} (h : instrAt program pc = some i) : i ∈ program := by
  obtain ⟨k, -, hk⟩ := Option.bind_eq_some_iff.mp h
  exact List.mem_of_getElem? hk

theorem low_of_mem_successors (hjumps : JumpsForward program) {i : Instr} (hi : i ∈ program) {pc next : Int}
    (hpc : -1 ≤ pc) (h : next ∈ successors i pc) : -1 ≤ next := by
  unfold successors at h
  split at h
  · cases h
  · split at h
    · next hjump =>
      obtain rfl := List.mem_singleton.mp h
      exact hjumps i hi (Or.inl (beq_iff_eq.mp hjump))
    · split at h
      · next hconditional =>
        rcases List.mem_cons.mp h with rfl | h
        · exact hjumps i hi (Or.inr hconditional)
        · obtain rfl := List.mem_singleton.mp h
          omega
      · obtain rfl := List.mem_singleton.mp h
        omega

/-- What a visit leaves to be followed: the successors, and what was left before apart from the item visited. -/
theorem pending_visited {pc depth : Int} {k : Nat} {i : Instr} {item : Int × Int} :
    (visited c k pc depth i).Pending item ↔
      item ∈ c.work ∨ ∃ next ∈ successors i pc, item = (next, depthAfter (stackEffect i.op i.arg1) depth) := by
  have hexclusive : isConditional i.op = true → isStop i.op = false ∧ (i.op == .jump) = false := by
    intro h
    rw [isConditional, Bool.or_eq_true, beq_iff_eq, beq_iff_eq] at h
    rcases h with h | h <;> rw [h] <;> exact ⟨rfl, rfl⟩
  unfold Config.Pending visited successors
  dsimp only
  by_cases hconditional : isConditional i.op = true
  · obtain ⟨hstop, hjump⟩ := hexclusive hconditional
    simp only [hconditional, hstop, hjump, if_true, Bool.false_eq_true, if_false, List.mem_cons, Option.some.injEq,
      List.not_mem_nil, or_false, exists_eq_or_imp, exists_eq_left]
    constructor
    · rintro ((rfl | h) | rfl)
      · exact Or.inr (Or.inl rfl)
      · exact Or.inl h
      · exact Or.inr (Or.inr rfl)
    · rintro (h | rfl | rfl)
      · exact Or.inl (Or.inr h)
      · exact Or.inl (Or.inl rfl)
      · exact Or.inr rfl
  · simp only [hconditional]
    by_cases hstop : isStop i.op = true
    · simp [hstop]
    · by_cases hjump : (i.op == .jump) = true
      · simp [hstop, hjump, eq_comm]
      · simp [hstop, hjump, eq_comm]

theorem depthAfter_nonneg (op : Opcode) (arg1 : Int) {depth : Int} (h : 0 ≤ depth) :
    0 ≤ depthAfter (stackEffect op arg1) depth := by
  refine le_trans ?_ (depthAfter_branch_le op arg1 h)
  cases branch op arg1 <;> simp only [Branch.effect, depthAfter] <;> omega

/-- A round keeps the invariant. -/
theorem Config.Round.closed (hjumps : JumpsForward program) (h : c.Round program c') (hc : c.Closed program) :
    c'.Closed program := by
  cases h with
  | @take item work hcurrent hwork =>
    have hpending : ∀ x, c.Pending x ↔ Config.Pending { c with work := work, current := some item } x := by
      intro x
      simp [Config.Pending, hcurrent, hwork, eq_comm, or_comm]
    exact ⟨hc.start.imp id (hpending _).mp, fun x hx => hc.low x ((hpending x).mpr hx),
      fun x hx => hc.nonneg x ((hpending x).mpr hx), hc.worst_nonneg, hc.worst,
      fun pc i hlow hhigh hi hdepth next hnext =>
        (hc.closed pc i hlow hhigh hi hdepth next hnext).imp id (hpending _).mp⟩
  | @leave pc depth hcurrent hcovered =>
    -- the item that is left is covered already
    have hitem : c.Covers program.length (pc, depth) := by
      by_cases hpc : pc < program.length
      · obtain ⟨k, hk, hle⟩ := hcovered hpc
        rw [pyIndex_eq_place (hc.low _ (Or.inr hcurrent)) hpc] at hk
        exact Or.inr (Option.some.inj hk ▸ hle)
      · exact Or.inl (not_lt.mp hpc)
    have hkeep : ∀ x, c.Covers program.length x ∨ c.Pending x →
        Config.Covers program.length { c with current := none } x ∨ Config.Pending { c with current := none } x := by
      rintro x (hx | hx | hx)
      · exact Or.inl hx
      · exact Or.inr (Or.inl hx)
      · obtain rfl := Option.some.inj (hcurrent.symm.trans hx)
        exact Or.inl hitem
    have hless : ∀ x, Config.Pending { c with current := none } x → c.Pending x := by
      rintro x (hx | hx)
      · exact Or.inl hx
      · cases hx
    exact ⟨hkeep _ hc.start, fun x hx => hc.low x (hless x hx), fun x hx => hc.nonneg x (hless x hx), hc.worst_nonneg,
      hc.worst, fun pc i hlow hhigh hi hdepth next hnext => hkeep _ (hc.closed pc i hlow hhigh hi hdepth next hnext)⟩
  | @visit pc depth k i hcurrent hpc hplace hdeeper hi hworst =>
    have hlow := hc.low _ (Or.inr hcurrent)
    have hnonneg := hc.nonneg _ (Or.inr hcurrent)
    dsimp only at hlow hnonneg
    obtain rfl : place program.length pc = k := by
      rw [pyIndex_eq_place hlow hpc] at hplace
      exact Option.some.inj hplace
    have hgrows : ∀ l, c.depthAt l ≤ (visited c (place program.length pc) pc depth i).depthAt l := by
      intro l
      dsimp only [visited]
      by_cases hl : l = place program.length pc
      · rw [hl, Function.update_self]
        exact hdeeper.le
      · rw [Function.update_of_ne hl]
    have hself : (visited c (place program.length pc) pc depth i).depthAt (place program.length pc) = depth :=
      Function.update_self ..
    have hother : ∀ {pc' : Int}, -1 ≤ pc' → pc' < program.length → pc' ≠ pc →
        (visited c (place program.length pc) pc depth i).depthAt (place program.length pc')
          = c.depthAt (place program.length pc') := fun hlow' hhigh' hne =>
      Function.update_of_ne (fun h => hne (place_injective hlow' hhigh' hlow hpc h)) ..
    have hkeep : ∀ x, c.Covers program.length x ∨ c.Pending x →
        (visited c (place program.length pc) pc depth i).Covers program.length x ∨
          (visited c (place program.length pc) pc depth i).Pending x := by
      rintro x ((hx | hx) | hx | hx)
      · exact Or.inl (Or.inl hx)
      · exact Or.inl (Or.inr (hx.trans (hgrows _)))
      · exact Or.inr (pending_visited.mpr (Or.inl hx))
      · obtain rfl := Option.some.inj (hcurrent.symm.trans hx)
        exact Or.inl (Or.inr hself.ge)
    refine ⟨hkeep _ hc.start, fun x hx => ?_, fun x hx => ?_, hc.worst_nonneg.trans (le_max_left _ _), ?_, ?_⟩
    · rcases pending_visited.mp hx with hx | ⟨next, hnext, rfl⟩
      · exact hc.low x (Or.inl hx)
      · exact low_of_mem_successors hjumps (mem_of_instrAt hi) hlow hnext
    · rcases pending_visited.mp hx with hx | ⟨next, hnext, rfl⟩
      · exact hc.nonneg x (Or.inl hx)
      · exact depthAfter_nonneg _ _ hnonneg
    · intro pc' i' hlow' hhigh' hi' hdepth'
      by_cases hpc' : pc' = pc
      · subst hpc'
        obtain rfl := Option.some.inj (hi.symm.trans hi')
        rw [hself]
        exact le_max_right _ _
      · rw [hother hlow' hhigh' hpc'] at hdepth' ⊢
        exact (hc.worst pc' i' hlow' hhigh' hi' hdepth').trans (le_max_left _ _)
    · intro pc' i' hlow' hhigh' hi' hdepth' next hnext
      dsimp only
      by_cases hpc' : pc' = pc
      · subst hpc'
        obtain rfl := Option.some.inj (hi.symm.trans hi')
        rw [hself]
        exact Or.inr (pending_visited.mpr (Or.inr ⟨next, hnext, rfl⟩))
      · rw [hother hlow' hhigh' hpc'] at hdepth' ⊢
        exact hkeep _ (hc.closed pc' i' hlow' hhigh' hi' hdepth' next hnext)

theorem Config.closed_start (program : List Instr) : Config.start.Closed program := by
  have hpending : ∀ item, Config.start.Pending item → item = (0, 0) := by
    rintro item (hitem | hitem)
    · exact List.mem_singleton.mp hitem
    · cases hitem
  refine ⟨Or.inr (Or.inl (List.mem_singleton_self _)), fun item hitem => ?_, fun item hitem => ?_, le_rfl, ?_, ?_⟩
  · rw [hpending item hitem]
    decide
  · rw [hpending item hitem]
  · intro _ _ _ _ _ hdepth
    exact absurd hdepth (not_le.mpr neg_one_lt_zero)
  · intro _ _ _ _ _ hdepth
    exact absurd hdepth (not_le.mpr neg_one_lt_zero)

/-- What holds when the analysis answers with a depth within the program's length. -/
theorem exists_final (hjumps : JumpsForward program) {rounds : Nat} {c : Config} {d : Int} (hc : c.Closed program)
    (h : analyse program rounds c = some (.depth d)) (hd : d ≤ program.length) :
    ∃ c' : Config, c'.Closed program ∧ (∀ item, ¬c'.Pending item) ∧ c'.worst = d := by
  induction rounds generalizing c with
  | zero => cases h
  | succ rounds ih =>
    unfold analyse at h
    split at h
    · next c' hstep => exact ih ((Config.round_of_step hstep).closed hjumps hc) h
    · next answer hstep =>
      obtain rfl := Option.some.inj h
      rcases Config.answer_of_step hstep with ⟨hcurrent, hwork, rfl⟩ | rfl
      · refine ⟨c, hc, ?_, rfl⟩
        rintro item (hitem | hitem)
        · rw [hwork] at hitem
          cases hitem
        · rw [hcurrent] at hitem
          cases hitem
      · omega

/-- The interpreter is at a point in front of which the analysis knows at least as many values. -/
structure Config.Bounds (program : List Instr) (c : Config) (s : State σ) : Prop where
  low : -1 ≤ s.pc
  covers : c.Covers program.length (s.pc, s.stack.length)
  worst : (s.stack.length : Int) ≤ c.worst

variable {M}

/-- A step of the interpreter stays within the depths of a finished analysis. -/
theorem Config.Bounds.step (hjumps : JumpsForward program) (hc : c.Closed program) (hfinal : ∀ item, ¬c.Pending item)
    {s s' : State σ} (hs : c.Bounds program s) (h : StackDepth.step M program s = some s') :
    c.Bounds program s' := by
  unfold StackDepth.step at h
  split at h
  · next hpc =>
    obtain ⟨i, hi, h⟩ := Option.bind_eq_some_iff.mp h
    obtain ⟨hlength, hnext⟩ := exec_spec M h
    dsimp only at hlength hnext
    rw [add_sub_cancel_right] at hnext
    have hdepth : (s.stack.length : Int) ≤ c.depthAt (place program.length s.pc) :=
      hs.covers.resolve_left (not_le.mpr hpc)
    have hvisited : 0 ≤ c.depthAt (place program.length s.pc) := (Int.natCast_nonneg _).trans hdepth
    have hafter := hlength.trans (depthAfter_mono _ hdepth)
    refine ⟨low_of_mem_successors hjumps (mem_of_instrAt hi) hs.low hnext, ?_,
      hafter.trans (hc.worst _ i hs.low hpc hi hvisited)⟩
    have hcovers := (hc.closed _ i hs.low hpc hi hvisited _ hnext).resolve_right (hfinal _)
    exact hcovers.imp id hafter.trans
  · cases h

/-- `max_stack_depth` ends, and its answer bounds the stack of every run, unless it is larger than the program. -/
theorem maxStackDepth_sound (program : List Instr) :
    (∃ rounds answer, analyse program rounds .start = some answer) ∧
      ∀ rounds d, analyse program rounds .start = some (.depth d) → d ≤ program.length → JumpsForward program →
        ∀ (σ : Type) (M : Interpreter σ) (rest : σ) (s : State σ), Reaches M program (.start rest) s →
          (s.stack.length : Int) ≤ d := by
  refine ⟨exists_answer program (Config.bounded_start _), ?_⟩
  intro rounds d hanswer hd hjumps σ M rest s hreaches
  obtain ⟨c, hc, hfinal, rfl⟩ := exists_final hjumps (Config.closed_start program) hanswer hd
  suffices hbounds : c.Bounds program s from hbounds.worst
  induction hreaches with
  | refl => exact ⟨neg_one_lt_zero.le, hc.start.resolve_right (hfinal _), hc.worst_nonneg⟩
  | tail _ hstep ih => exact ih.step hjumps hc hfinal hstep

/-- Two values are pushed, and a jump leads in front of the program. -/
def pushAndJump (target : Int) : List Instr := [⟨.loadConst, 0, 0⟩, ⟨.loadConst, 0, 0⟩, ⟨.jump, target, 0⟩]

/-- An interpreter of constants. -/
def constants : Interpreter Unit where
  result _ _ _ := some (.ofInt 0 1, ())
  effect _ _ _ := some ()
  loopLimit := 100000

/-- `program[-2]` is the second instruction, but its place in `depth_at` is the third one's: the push is not seen. -/
theorem maxStackDepth_unsound_below_start :
    (∃ rounds, analyse (pushAndJump (-2)) rounds .start = some (.depth 2)) ∧
      (2 : Int) ≤ (pushAndJump (-2)).length ∧
        ∃ s, Reaches constants (pushAndJump (-2)) (.start ()) s ∧ s.stack.length = 3 := by
  refine ⟨⟨7, rfl⟩, by decide, ⟨-1, List.replicate 3 (.ofInt 0 1), 1, ()⟩, ?_, rfl⟩
  have h0 : step constants (pushAndJump (-2)) (.start ()) = some ⟨1, [.ofInt 0 1], 0, ()⟩ := rfl
  have h1 : step constants (pushAndJump (-2)) ⟨1, [.ofInt 0 1], 0, ()⟩ = some ⟨2, [.ofInt 0 1, .ofInt 0 1], 0, ()⟩ :=
    rfl
  have h2 : step constants (pushAndJump (-2)) ⟨2, [.ofInt 0 1, .ofInt 0 1], 0, ()⟩
      = some ⟨-2, [.ofInt 0 1, .ofInt 0 1], 1, ()⟩ := rfl
  have h3 : step constants (pushAndJump (-2)) ⟨-2, [.ofInt 0 1, .ofInt 0 1], 1, ()⟩
      = some ⟨-1, [.ofInt 0 1, .ofInt 0 1, .ofInt 0 1], 1, ()⟩ := rfl
  exact .tail (.tail (.tail (.tail .refl h0) h1) h2) h3

end Veriforge.Vm.StackDepth

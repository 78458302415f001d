import Veriforge.Sim.Eval

/-! # The bytecode machine

The stack machine of `sim/vm/interpreter.py`. A program is a list of instructions; `Interpreter.execute`
runs it from instruction 0 to `PROC_END` or the end of the list. Constants stand in the instructions
themselves and signals and memories are named, where the source goes through tables of indices. -/

namespace Veriforge.Vm

open Value

/-- The opcodes (`sim/vm/opcodes.py`) the compiler emits for expressions and timing-free statements. -/
inductive Op
  -- data movement
  | loadSig (name : String)
  | loadConst (v : Value)
  | loadMem (name : String)
  | storeSig (name : String)
  | nbaSig (name : String)
  | resize (width : Nat)
  | signExt (width : Nat)
  | streamReverse (sliceSize : Nat)
  -- arithmetic
  | add | sub | mul | div | mod | sdiv | smod | pow | spow
  -- bitwise
  | bitAnd | bitOr | bitXor | bitXnor | bitNot | shl | shr | ashl | ashr
  -- comparison
  | cmpEq | cmpNe | cmpLt | cmpLe | cmpGt | cmpGe | cmpCaseEq | cmpCaseNe
  | cmpSlt | cmpSle | cmpSgt | cmpSge
  | cmpCasex | cmpCasez
  -- logical, unary and reduction
  | logAnd | logOr | logNot | neg | uplus
  | redAnd | redOr | redXor | redNand | redNor | redXnor
  -- special expression operations
  | bitSelect | rangeSelect | partSelUp | partSelDown
  | concat (parts : Nat)
  | replicate
  | ternary
  -- control flow
  | jump (target : Nat)
  | jumpIfZero (target : Nat)
  | jumpIfNonzero (target : Nat)
  | dup | pop
  | procEnd
  deriving DecidableEq

/-- `_pos`: a select position; 64-bit positions are signed. -/
def pos (v : Value) : Int :=
  if v.width = 64 ∧ v.val >>> 63 ≠ 0 then (v.val : Int) - 2 ^ 64 else v.val

/-- `SDIV`. -/
def sdiv (a b : Value) : Option Value :=
  if a.mask ≠ 0 ∨ b.mask ≠ 0 ∨ b.val = 0 then some (x a.width)
  else do
    let sa ← a.asSigned
    let sb ← b.asSigned
    let q ← TrueDiv.intTrueDiv sa sb
    return ofInt q a.width

/-- `SMOD`. -/
def smod (a b : Value) : Option Value :=
  if a.mask ≠ 0 ∨ b.mask ≠ 0 ∨ b.val = 0 then some (x a.width)
  else do
    let sa ← a.asSigned
    let sb ← b.asSigned
    let q ← TrueDiv.intTrueDiv sa sb
    return ofInt (sa - sb * q) a.width

/-- `BIT_SELECT`: the index is read unsigned. -/
def bitSelect (target index : Value) : Value :=
  if index.isDefined then target.getBit index.val else x 1

/-- `RANGE_SELECT`. -/
def rangeSelect (target msb lsb : Value) : Value :=
  if msb.isDefined ∧ lsb.isDefined then target.getRange (pos msb) (pos lsb) else x 1

/-- `PART_SEL_UP` and `PART_SEL_DOWN`. -/
def partSelect (d : Direction) (target base width : Value) : Value :=
  if base.isDefined ∧ width.isDefined then getPart target (pos base) width.val d
  else x (if width.isDefined ∧ 0 < width.val then width.val else 1)

/-- `TERNARY`. -/
def ternary (cond t f : Value) : Value :=
  if cond.knownOne then t
  else if cond.mask = 0 then f
  else mergeXz (t.resize (max t.width f.width)) (f.resize (max t.width f.width))

/-- `CMP_CASEX` and `CMP_CASEZ`: the bits unknown on either side match anything. -/
def caseMatch (a b : Value) : Bool :=
  let w := max a.width b.width
  (a.val ^^^ b.val) &&& lnot w (a.mask ||| b.mask) = 0

/-- `LOAD_MEM`. -/
def loadMem {T : SignalTable} (st : Store T) (name : String) (idx : Value) : Option Value :=
  match T.memory name with
  | some (ew, depth) => some (if idx.isDefined then st.readWord name ew depth idx.val else x ew)
  | none => none

/-- The operators that pop their right operand, then their left one. -/
def binaryOp : Op → Option (Value → Value → Option Value)
  | .add => some fun a b => some (a.add b)
  | .sub => some fun a b => some (a.sub b)
  | .mul => some fun a b => some (a.mul b)
  | .div => some fun a b => some (a.floordiv b)
  | .mod => some fun a b => some (a.mod b)
  | .sdiv => some sdiv
  | .smod => some smod
  | .pow => some fun a b => some (a.pow b)
  | .spow => some evalSignedPow
  | .bitAnd => some fun a b => some (a.and b)
  | .bitOr => some fun a b => some (a.or b)
  | .bitXor => some fun a b => some (a.xor b)
  | .bitXnor => some fun a b => some (a.xor b).invert
  | .shl | .ashl => some fun a b => some (a.lshift b)
  | .shr => some fun a b => some (a.rshift b)
  | .ashr => some Veriforge.ashr
  | .cmpEq => some fun a b => some (a.eq b)
  | .cmpNe => some fun a b => some (a.ne b)
  | .cmpLt => some fun a b => some (cmp (fun p q => decide (p < q)) a b)
  | .cmpLe => some fun a b => some (cmp (fun p q => decide (p ≤ q)) a b)
  | .cmpGt => some fun a b => some (cmp (fun p q => decide (p > q)) a b)
  | .cmpGe => some fun a b => some (cmp (fun p q => decide (p ≥ q)) a b)
  | .cmpCaseEq => some fun a b => some (a.caseEq b)
  | .cmpCaseNe => some fun a b => some (a.caseNe b)
  | .cmpSlt => some (evalSignedCmp .lt)
  | .cmpSle => some (evalSignedCmp .le)
  | .cmpSgt => some (evalSignedCmp .gt)
  | .cmpSge => some (evalSignedCmp .ge)
  | .cmpCasex | .cmpCasez => some fun a b => some (ofBool (caseMatch a b))
  | .logAnd => some fun a b => some (a.logicalAnd b)
  | .logOr => some fun a b => some (a.logicalOr b)
  | .bitSelect => some fun target index => some (Vm.bitSelect target index)
  | .replicate => some fun count v =>
      some (if count.isDefined then v.replicate count.val else x v.width)
  | _ => none

/-- The operators that replace the top of the stack. -/
def unaryOp : Op → Option (Value → Option Value)
  | .resize w => some fun a => some (a.resize w)
  | .signExt w => some fun a => a.signExtend w
  | .streamReverse n => some fun a => Veriforge.streamReverse a n
  | .bitNot => some fun a => some a.invert
  | .logNot => some fun a => some a.logicalNot
  | .neg => some fun a => some a.neg
  | .uplus => some some
  | .redAnd => some fun a => some a.reduceAnd
  | .redOr => some fun a => some a.reduceOr
  | .redXor => some fun a => some a.reduceXor
  | .redNand => some fun a => some a.reduceNand
  | .redNor => some fun a => some a.reduceNor
  | .redXnor => some fun a => some a.reduceXnor
  | _ => none

/-- The effect of a data instruction on the stack, whose head is its top; `none` where it raises (an
empty stack included), and for the instructions that touch more than the stack. -/
def execData {T : SignalTable} (st : Store T) (op : Op) (stack : List Value) : Option (List Value) :=
  match op, stack with
  | .loadSig name, stack => (st.signal? name).map (· :: stack)
  | .loadConst v, stack => some (v :: stack)
  | .loadMem name, idx :: stack => (Vm.loadMem st name idx).map (· :: stack)
  | .rangeSelect, lsb :: msb :: target :: stack => some (rangeSelect target msb lsb :: stack)
  | .partSelUp, width :: base :: target :: stack => some (partSelect .up target base width :: stack)
  | .partSelDown, width :: base :: target :: stack =>
      some (partSelect .down target base width :: stack)
  | .ternary, f :: t :: cond :: stack => some (Vm.ternary cond t f :: stack)
  | .concat n, stack =>
      if n ≤ stack.length then some (concatValues (stack.take n).reverse :: stack.drop n) else none
  | .dup, a :: stack => some (a :: a :: stack)
  | .pop, stack => some stack.tail
  | op, stack =>
      match binaryOp op, unaryOp op, stack with
      | some f, _, b :: a :: stack => (f a b).map (· :: stack)
      | _, some f, a :: stack => (f a).map (· :: stack)
      | _, _, _ => none

/-- A straight run of data instructions. -/
def runData {T : SignalTable} (st : Store T) : List Op → List Value → Option (List Value)
  | [], stack => some stack
  | op :: ops, stack => (execData st op stack).bind (runData st ops)

theorem runData_append {T : SignalTable} (st : Store T) (p q : List Op) (stack : List Value) :
    runData st (p ++ q) stack = (runData st p stack).bind (runData st q) := by
  induction p generalizing stack with
  | nil => rfl
  | cons op p ih =>
    rw [List.cons_append, runData, runData]
    cases execData st op stack with
    | none => rfl
    | some stack' => exact ih stack'

/-! ## The machine -/

/-- The machine's state while a program runs. -/
structure State (T : SignalTable) where
  pc : Nat
  stack : List Value
  store : Store T
  /-- `nba_queue`, oldest entry first. -/
  nba : List (String × Value)
  /-- Backward jumps taken so far. -/
  loopIters : Nat

/-- What becomes of a run. -/
inductive Outcome (T : SignalTable)
  /-- Still running when the fuel ran out. -/
  | running (s : State T)
  /-- `PROC_END`, or past the last instruction. -/
  | halted (s : State T)
  | raised

variable {T : SignalTable}

/-- One instruction, the program counter already past it; `none` where it raises. -/
def execOp (loopLimit : Nat) (op : Op) (s : State T) : Option (State T) :=
  match op, s.stack with
  | .storeSig name, v :: stack =>
      some { s with stack := stack, store := s.store.setSignal name v }
  | .nbaSig name, v :: stack =>
      some { s with stack := stack, nba := s.nba ++ [(name, v.resize ((T.width name).getD 0))] }
  | .jump target, _ =>
      if target ≤ s.pc - 1 then
        if s.loopIters + 1 > loopLimit then none
        else some { s with pc := target, loopIters := s.loopIters + 1 }
      else some { s with pc := target }
  | .jumpIfZero target, v :: stack =>
      some { s with pc := if v.knownOne then s.pc else target, stack := stack }
  | .jumpIfNonzero target, v :: stack =>
      some { s with pc := if v.knownOne then target else s.pc, stack := stack }
  | op, stack => (execData s.store op stack).map fun stack => { s with stack := stack }

/-- The machine's loop, from a state on. -/
def run (loopLimit : Nat) (program : List Op) : Nat → State T → Outcome T
  | 0, s => .running s
  | fuel + 1, s =>
      match program[s.pc]? with
      | none | some .procEnd => .halted s
      | some op =>
          match execOp loopLimit op { s with pc := s.pc + 1 } with
          | none => .raised
          | some s' => run loopLimit program fuel s'

/-- `Interpreter.execute`: from instruction 0 and an empty stack. -/
def execute (loopLimit : Nat) (program : List Op) (store : Store T) (fuel : Nat) : Outcome T :=
  run loopLimit program fuel ⟨0, [], store, [], 0⟩

section

-- derived here once, not by every proof
attribute [local simp] runData run

end

end Veriforge.Vm

import Veriforge.Vm.Machine

/-! # Runs of the machine

`Reaches` relates two states of which the machine goes from the first to the second in some number of
instructions. Code is located in a program by its start, so that the code of a construct can be followed
wherever the compiler put it. -/

namespace Veriforge.Vm

variable {T : SignalTable} {loopLimit : Nat} {program : List Op}

/-- The machine gets from `s` to `s'`. -/
def Reaches (loopLimit : Nat) (program : List Op) (s s' : State T) : Prop :=
  ∃ n, ∀ fuel, run loopLimit program (fuel + n) s = run loopLimit program fuel s'

theorem Reaches.refl (s : State T) : Reaches loopLimit program s s := ⟨0, fun _ => rfl⟩

theorem Reaches.trans {s s' s'' : State T} (h : Reaches loopLimit program s s')
    (h' : Reaches loopLimit program s' s'') : Reaches loopLimit program s s'' := by
  obtain ⟨n, hn⟩ := h
  obtain ⟨n', hn'⟩ := h'
  refine ⟨n' + n, fun fuel => ?_⟩
  rw [← Nat.add_assoc, hn, hn']

/-- One instruction. -/
theorem Reaches.step {s s' : State T} {op : Op} (hop : program[s.pc]? = some op)
    (hend : op ≠ .procEnd) (h : execOp loopLimit op { s with pc := s.pc + 1 } = some s') :
    Reaches loopLimit program s s' := by
  refine ⟨1, fun fuel => ?_⟩
  rw [run, hop]
  cases op with
  | procEnd => exact absurd rfl hend
  | _ =>
    dsimp only
    rw [h]

/-! ## Code within a program -/

/-- The program has the code at `pc`. -/
def CodeAt (program : List Op) (pc : Nat) (code : List Op) : Prop := code <+: program.drop pc

theorem codeAt_self (code : List Op) : CodeAt code 0 code := List.prefix_rfl

theorem codeAt_append {pc : Nat} {p q : List Op} :
    CodeAt program pc (p ++ q) ↔ CodeAt program pc p ∧ CodeAt program (pc + p.length) q := by
  constructor
  · rintro ⟨r, hr⟩
    refine ⟨⟨q ++ r, by rw [← hr, List.append_assoc]⟩, ⟨r, ?_⟩⟩
    rw [← List.drop_drop, ← hr, List.append_assoc, List.drop_left]
  · rintro ⟨⟨r, hr⟩, ⟨r', hr'⟩⟩
    refine ⟨r', ?_⟩
    rw [← List.drop_drop, ← hr, List.drop_left] at hr'
    rw [← hr, ← hr', List.append_assoc]

theorem codeAt_cons {pc : Nat} {op : Op} {q : List Op} :
    CodeAt program pc (op :: q) ↔ program[pc]? = some op ∧ CodeAt program (pc + 1) q := by
  rw [← List.singleton_append, codeAt_append, List.length_singleton]
  refine and_congr_left fun _ => ?_
  rw [CodeAt, List.singleton_prefix_iff_head?_eq_some, List.head?_drop]

/-- A data instruction changes the stack only. -/
theorem execOp_of_execData (loopLimit : Nat) {op : Op} {s : State T} {stack : List Value}
    (h : execData s.store op s.stack = some stack) :
    execOp loopLimit op s = some { s with stack := stack } ∧ op ≠ .procEnd := by
  have hdata : execOp loopLimit op s
      = (execData s.store op s.stack).map fun stack => { s with stack := stack } := by
    cases op with
    | storeSig | nbaSig | jump | jumpIfZero | jumpIfNonzero | procEnd =>
      simp [execData, binaryOp, unaryOp] at h
    | _ => rfl
  refine ⟨by rw [hdata, h]; rfl, ?_⟩
  rintro rfl
  simp [execData, binaryOp, unaryOp] at h

/-- The machine runs through a straight piece of code. -/
theorem Reaches.data {s : State T} {code : List Op} {stack : List Value}
    (hcode : CodeAt program s.pc code) (h : runData s.store code s.stack = some stack) :
    Reaches loopLimit program s { s with pc := s.pc + code.length, stack := stack } := by
  induction code generalizing s with
  | nil =>
    cases h
    exact Reaches.refl _
  | cons op code ih =>
    rw [codeAt_cons] at hcode
    rw [runData, Option.bind_eq_some_iff] at h
    obtain ⟨stack', h, hrest⟩ := h
    have hexec := execOp_of_execData loopLimit (s := { s with pc := s.pc + 1 }) h
    refine (Reaches.step hcode.1 hexec.2 hexec.1).trans ?_
    have := ih (s := { s with pc := s.pc + 1, stack := stack' }) hcode.2 hrest
    rw [List.length_cons, Nat.add_comm code.length, ← Nat.add_assoc]
    exact this

/-- A run that gets to the end of its program, or to `PROC_END`, halts. -/
theorem Reaches.halts {s s' : State T} (h : Reaches loopLimit program s s')
    (hend : program[s'.pc]? = none ∨ program[s'.pc]? = some .procEnd) :
    ∃ fuel, run loopLimit program fuel s = .halted s' := by
  obtain ⟨n, hn⟩ := h
  refine ⟨1 + n, ?_⟩
  rw [hn, run]
  rcases hend with hend | hend
  · rw [hend]
  · rw [hend]

/-- However much fuel it is given, a run that halts halts in one state. -/
theorem run_halted_unique {n m : Nat} {s a b : State T} (ha : run loopLimit program n s = .halted a)
    (hb : run loopLimit program m s = .halted b) : a = b := by
  induction n generalizing s m with
  | zero => cases ha
  | succ n ih =>
    cases m with
    | zero => cases hb
    | succ m =>
      rw [run] at ha hb
      split at ha
      · rw [‹program[s.pc]? = _›] at hb
        cases ha
        cases hb
        rfl
      · rw [‹program[s.pc]? = _›] at hb
        cases ha
        cases hb
        rfl
      · next op hend hop =>
        rw [hop] at hb
        cases hexec : execOp loopLimit op { s with pc := s.pc + 1 } with
        | none =>
          rw [hexec] at ha
          cases ha
        | some s' =>
          rw [hexec] at ha
          simp only [hexec] at hb
          exact ih ha hb

end Veriforge.Vm

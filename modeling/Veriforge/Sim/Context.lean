import Veriforge.Value.Order
import Veriforge.Sim.Expr

/-! # Signal tables and stores

What elaboration declares (`SignalTable`: widths, signedness, memories, declared low bounds) and what a
run changes (`Store`: the values). A store always fits its table, as every write path resizes to the
declared width. The table stands for the static fields of `EvalContext` and for the compiler's
`signal_map`, `sig_width`, `sig_signed`, `mem_info` and base tables, which elaboration fills from the
same declarations. -/

namespace Veriforge

/-- The declarations of a design, by dotted name. -/
structure SignalTable where
  /-- The width of a declared vector. -/
  width : String → Option Nat
  /-- `_signal_signed`: declared `signed` (vectors and memories). -/
  signed : String → Bool
  /-- A memory's element width and depth. -/
  memory : String → Option (Nat × Nat)
  /-- `_signal_bases`: the low bound of a packed range not ending at 0. -/
  signalBase : String → Int
  /-- `_memory_bases`: the same for the elements of a memory. -/
  memoryBase : String → Int
  /-- A declared range has at least one bit. -/
  width_pos : ∀ n w, width n = some w → 0 < w
  memory_pos : ∀ n ew d, memory n = some (ew, d) → 0 < ew

/-- A 4-state value for every signal and memory word of a table. -/
@[ext] structure Store (T : SignalTable) where
  signal : String → Value
  word : String → Nat → Value
  signal_width : ∀ n w, T.width n = some w → (signal n).width = w
  word_width : ∀ n ew d i, T.memory n = some (ew, d) → (word n i).width = ew

/-- The table of a design with vectors only: name, width (at least 1) and signedness. -/
def SignalTable.vectors (decls : List (String × Nat × Bool)) : SignalTable where
  width n := (decls.lookup n).map fun d => max 1 d.1
  signed n := (decls.lookup n).any fun d => d.2
  memory _ := none
  signalBase _ := 0
  memoryBase _ := 0
  width_pos n w h := by
    obtain ⟨d, -, rfl⟩ := Option.map_eq_some_iff.mp h
    exact lt_of_lt_of_le Nat.one_pos (le_max_left _ _)
  memory_pos _ _ _ h := nomatch h

variable {T : SignalTable}

/-- The store with the given integers, cut to the declared widths, in signals and memory words. -/
def Store.ofBits (T : SignalTable) (val mask : String → Nat) : Store T where
  signal n := Value.init (val n) ((T.width n).getD 0) (mask n)
  word n _ := Value.init (val n) ((T.memory n).elim 0 Prod.fst) (mask n)
  signal_width n w h := by rw [Value.init_width, h, Option.getD_some]
  word_width n ew d i h := by rw [Value.init_width, h, Option.elim_some]

/-- `name in ctx._memory_names`. -/
def SignalTable.isMemory (T : SignalTable) (name : String) : Bool := (T.memory name).isSome

/-- `ctx._signals.get(name)`. -/
def Store.signal? (st : Store T) (name : String) : Option Value :=
  (T.width name).map fun _ => st.signal name

/-- `_read_whole_memory`, most significant element first: elements `k` down to 0 after `acc`. -/
def Store.readWholeMemoryFrom (st : Store T) (name : String) (acc : Value) : Nat → Value
  | 0 => acc
  | k + 1 => readWholeMemoryFrom st name (acc.concat (st.word name k)) k

/-- `_read_whole_memory`: a memory as one flat vector. -/
def Store.readWholeMemory (st : Store T) (name : String) : Option Value :=
  match T.memory name with
  | none => none
  | some (_, 0) => some (Value.x 0)
  | some (_, d + 1) => some (st.readWholeMemoryFrom name (st.word name d) d)

/-- The store with one signal replaced by a value cut to the declared width (`write_signal`). -/
def Store.setSignal (st : Store T) (name : String) (v : Value) : Store T where
  signal n := if n = name then v.resize ((T.width name).getD 0) else st.signal n
  word := st.word
  signal_width n w h := by
    by_cases hn : n = name
    · rw [if_pos hn, Value.resize_width, ← hn, h, Option.getD_some]
    · rw [if_neg hn]
      exact st.signal_width n w h
  word_width := st.word_width

/-- A memory element, `x` past the depth. -/
def Store.readWord (st : Store T) (name : String) (ew depth : Nat) (idx : Int) : Value :=
  if 0 ≤ idx ∧ idx < depth then st.word name idx.toNat else Value.x ew

theorem Store.signal?_eq_some {st : Store T} {n : String} {w : Nat} (h : T.width n = some w) :
    st.signal? n = some (st.signal n) := by
  rw [signal?, h]
  rfl

theorem Store.readWord_width {st : Store T} {n : String} {ew d : Nat}
    (h : T.memory n = some (ew, d)) (idx : Int) : (st.readWord n ew d idx).width = ew := by
  unfold readWord
  split
  · exact st.word_width n ew d _ h
  · exact Value.x_width ew

/-! ## Knowing more of a store -/

/-- `st ≤ st'`: `st'` is `st` with some `x` bits replaced. -/
instance : LE (Store T) :=
  ⟨fun st st' => (∀ n, st.signal n ≤ st'.signal n) ∧ ∀ n i, st.word n i ≤ st'.word n i⟩

/-- Clearing mask bits reveals the bits under them. -/
theorem Store.ofBits_le {val mask mask' : String → Nat}
    (h : ∀ n i, (mask' n).testBit i = true → (mask n).testBit i = true) :
    ofBits T val mask ≤ ofBits T val mask' := by
  have hinit : ∀ n w, Value.init (val n) w (mask n) ≤ Value.init (val n) w (mask' n) := fun n w => by
    refine Value.le_of_bit_lt rfl fun i hi => ?_
    rw [Value.init_width] at hi
    rw [Value.bit_init, Value.bit_init, if_pos hi, if_pos hi]
    by_cases hm : (mask n).testBit i = true
    · rw [if_pos hm]
      exact Kleene.Le.none_left _
    · rw [if_neg hm, if_neg fun h' => hm (h n i h')]
      exact Kleene.Le.refl _
  exact ⟨fun n => hinit n _, fun n _ => hinit n _⟩

theorem Store.readWholeMemoryFrom_mono {st st' : Store T} (h : st ≤ st') (n : String) (k : Nat)
    {acc acc' : Value} (ha : acc ≤ acc') :
    st.readWholeMemoryFrom n acc k ≤ st'.readWholeMemoryFrom n acc' k := by
  induction k generalizing acc acc' with
  | zero => exact ha
  | succ k ih => exact ih (Value.concat_mono ha (h.2 n k))

theorem Store.readWholeMemory_mono {st st' : Store T} (h : st ≤ st') {n : String} {v v' : Value}
    (hv : st.readWholeMemory n = some v) (hv' : st'.readWholeMemory n = some v') : v ≤ v' := by
  unfold readWholeMemory at hv hv'
  split at hv
  · cases hv
  · next hm =>
    rw [hm] at hv'
    cases hv
    cases hv'
    exact le_rfl
  · next hm =>
    rw [hm] at hv'
    cases hv
    cases hv'
    exact readWholeMemoryFrom_mono h n _ (h.2 n _)

theorem Store.readWord_mono {st st' : Store T} (h : st ≤ st') (n : String) (ew d : Nat) (idx : Int) :
    st.readWord n ew d idx ≤ st'.readWord n ew d idx := by
  unfold readWord
  split
  · exact h.2 n _
  · exact le_rfl

end Veriforge

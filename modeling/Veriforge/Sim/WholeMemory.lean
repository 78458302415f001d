import Veriforge.Value.BitList

/-! # Memories as one vector

The entry of a memory in `EvalContext._memories`, and its reading and writing as one flat vector (`sim/evaluator.py`).
The element with the highest index is the most significant one. -/

namespace Veriforge

open Value

/-- An entry of `_memories`: the elements, and how wide each of them is. -/
structure Memory where
  data : List Value
  elemWidth : Nat
  elemWidth_pos : 0 < elemWidth
  width_eq : ∀ v ∈ data, v.width = elemWidth

namespace Memory

/-- Two memories with the same elements. An entry's width is not changed by a write. -/
theorem ext_data {m m' : Memory} (hw : m.elemWidth = m'.elemWidth) (hd : m.data = m'.data) : m = m' := by
  cases m
  cases m'
  congr

/-- `depth * elem_width` -/
def fullWidth (m : Memory) : Nat := m.data.length * m.elemWidth

/-- The elements put together, from the last one down to the first. -/
def read (m : Memory) : Value :=
  match m.data.reverse with
  | [] => x 0
  | last :: rest => rest.foldl concat last

/-- The slice of a vector that goes to element `k`. -/
def slice (elemWidth : Nat) (value : Value) (k : Nat) : Value :=
  let lsb := k * elemWidth
  let msb := lsb + elemWidth - 1
  value.getRange (msb : Nat) (lsb : Nat)

theorem slice_width {elemWidth : Nat} (h : 0 < elemWidth) (value : Value) (k : Nat) :
    (slice elemWidth value k).width = elemWidth := by
  rw [slice, getRange_width, orderBounds_of_le (by omega)]
  dsimp only
  omega

/-- Every element replaced by its slice of the vector, which is first brought to the width of the memory. -/
def write (m : Memory) (value : Value) : Memory where
  data :=
    let value := if value.width ≠ m.fullWidth then value.resize m.fullWidth else value
    (List.range m.data.length).map (slice m.elemWidth value)
  elemWidth := m.elemWidth
  elemWidth_pos := m.elemWidth_pos
  width_eq v hv := by
    obtain ⟨k, -, rfl⟩ := List.mem_map.mp hv
    exact slice_width m.elemWidth_pos _ k

end Memory

/-- `_read_whole_memory`, `none` for a name that is not a memory's. -/
def readWholeMemory (memories : String → Option Memory) (name : String) : Option Value :=
  (memories name).map Memory.read

/-- `_write_whole_memory`: the memories afterwards, `none` where it returns `False`. -/
def writeWholeMemory (memories : String → Option Memory) (name : String) (value : Value) :
    Option (String → Option Memory) :=
  (memories name).map fun m => Function.update memories name (some (m.write value))

namespace Memory

/-! ## The bits of a memory -/

theorem read_eq_concatValues (m : Memory) : m.read = concatValues m.data.reverse := by
  unfold read
  split
  · next h => rw [h]; rfl
  · next h => rw [h]; rfl

theorem bits_read (m : Memory) : m.read.bits = (m.data.reverse.map bits).flatten := by
  rw [read_eq_concatValues, bits_concatValues]

/-- Elements of one width have as many bits as they are times it. -/
theorem length_flatten_bits {w : Nat} {vs : List Value} (h : ∀ v ∈ vs, v.width = w) :
    (vs.map bits).flatten.length = vs.length * w := by
  induction vs with
  | nil => simp
  | cons v vs ih =>
    have hvs := ih fun u hu => h u (List.mem_cons_of_mem _ hu)
    rw [List.map_cons, List.flatten_cons, List.length_append, bits_length, hvs, h v List.mem_cons_self,
      List.length_cons, Nat.add_mul, Nat.one_mul, Nat.add_comm]

theorem read_width (m : Memory) : m.read.width = m.fullWidth := by
  have h := length_flatten_bits fun v hv => m.width_eq v (List.mem_reverse.mp hv)
  rw [← bits_read, bits_length, List.length_reverse] at h
  exact h

/-- The slices below `d` are the low bits of the vector. -/
theorem flatten_slices {w : Nat} (hw : 0 < w) {value : Value} (d : Nat) (hd : d * w ≤ value.width) :
    (((List.range d).map (slice w value)).reverse.map bits).flatten = value.segment 0 (d * w) := by
  induction d with
  | zero => rw [Nat.zero_mul, segment_self]; rfl
  | succ d ih =>
    have hsucc : (d + 1) * w = d * w + w := by ring
    rw [hsucc] at hd ⊢
    have hslice : (slice w value d).bits = value.segment (d * w) (d * w + w) := by
      rw [slice, bits_getRange (by omega) (by omega), Nat.sub_add_cancel (by omega)]
    rw [List.range_succ, List.map_append, List.reverse_append, List.map_append, List.flatten_append, ih (by omega)]
    simp only [List.map_cons, List.map_nil, List.reverse_cons, List.reverse_nil, List.nil_append, List.flatten_cons,
      List.flatten_nil, List.append_nil]
    rw [hslice, segment_append _ (Nat.zero_le _) (Nat.le_add_right _ _)]

/-! ## Stores -/

variable {T : SignalTable}

/-- The entry of a memory that a store keeps as a function. -/
def ofStore (st : Store T) {name : String} {elemWidth depth : Nat} (h : T.memory name = some (elemWidth, depth))
    (hpos : 0 < elemWidth) : Memory where
  data := (List.range depth).map (st.word name)
  elemWidth := elemWidth
  elemWidth_pos := hpos
  width_eq v hv := by
    obtain ⟨i, -, rfl⟩ := List.mem_map.mp hv
    exact st.word_width name elemWidth depth i h

theorem readWholeMemoryFrom_eq (st : Store T) (name : String) (acc : Value) (k : Nat) :
    st.readWholeMemoryFrom name acc k = ((List.range k).map (st.word name)).reverse.foldl concat acc := by
  induction k generalizing acc with
  | zero => rfl
  | succ k ih =>
    rw [Store.readWholeMemoryFrom, ih, List.range_succ, List.map_append, List.reverse_append]
    rfl

/-- The evaluator reads a memory of its store as its entry is read. -/
theorem readWholeMemory_ofStore (st : Store T) {name : String} {elemWidth depth : Nat}
    (h : T.memory name = some (elemWidth, depth)) (hpos : 0 < elemWidth) :
    st.readWholeMemory name = some (ofStore st h hpos).read := by
  rw [Store.readWholeMemory, h]
  cases depth with
  | zero => rfl
  | succ d =>
    have hdata : (ofStore st h hpos).data = (List.range (d + 1)).map (st.word name) := rfl
    rw [read, hdata, List.range_succ, List.map_append, List.reverse_append]
    exact congrArg some (readWholeMemoryFrom_eq st name _ d)

/-! ## Round trips -/

/-- What is read after a write is the vector at the width of the memory. -/
theorem read_write (m : Memory) (value : Value) : (m.write value).read = value.resize m.fullWidth := by
  have hvalue : (if value.width ≠ m.fullWidth then value.resize m.fullWidth else value) = value.resize m.fullWidth := by
    split
    · rfl
    · next h => exact (resize_of_width (not_not.mp h)).symm
  refine ext_bits ?_
  rw [bits_read, write]
  dsimp only
  rw [hvalue, flatten_slices m.elemWidth_pos _ (by rw [resize_width, fullWidth]), bits, resize_width, fullWidth]

/-- Memories of one shape that are read alike have the same elements. -/
theorem data_eq_of_read {m m' : Memory} (hw : m.elemWidth = m'.elemWidth) (hlen : m.data.length = m'.data.length)
    (h : m.read = m'.read) : m.data = m'.data := by
  have hbits : m.data.reverse.map bits = m'.data.reverse.map bits := by
    refine List.eq_iff_flatten_eq.mpr ⟨?_, ?_⟩
    · rw [← bits_read, ← bits_read, h]
    · have hlengths : ∀ m : Memory, (m.data.reverse.map bits).map List.length
          = List.replicate m.data.length m.elemWidth := fun m => by
        refine List.eq_replicate_iff.mpr ⟨by simp, fun n hn => ?_⟩
        obtain ⟨v, hv, rfl⟩ := List.mem_map.mp (List.map_map ▸ hn)
        rw [Function.comp_apply, bits_length]
        exact m.width_eq v (List.mem_reverse.mp hv)
      rw [hlengths, hlengths, hw, hlen]
  exact List.reverse_injective ((List.map_injective_iff.mpr fun _ _ => ext_bits) hbits)

theorem write_read (m : Memory) : m.write m.read = m := by
  refine ext_data rfl (data_eq_of_read rfl ?_ ?_)
  · exact (List.length_map _).trans List.length_range
  · rw [read_write, ← read_width, resize_self]

/-- Only the bits within the memory count, the missing ones as known zeros. -/
theorem write_resize (m : Memory) (value : Value) : m.write (value.resize m.fullWidth) = m.write value := by
  refine ext_data rfl (data_eq_of_read rfl (by simp [write]) ?_)
  rw [read_write, read_write]
  exact resize_resize_of_le _ le_rfl

end Memory

/-- The two functions are inverse to each other, for a memory of any depth. -/
theorem wholeMemory_inverse {memories : String → Option Memory} {name : String} {m : Memory}
    (h : memories name = some m) :
    (∀ value, ∃ memories', writeWholeMemory memories name value = some memories' ∧
      readWholeMemory memories' name = some (value.resize m.fullWidth) ∧
      (value.width = m.fullWidth → readWholeMemory memories' name = some value)) ∧
      (∀ value, readWholeMemory memories name = some value → writeWholeMemory memories name value = some memories) ∧
      ∀ value, writeWholeMemory memories name (value.resize m.fullWidth) = writeWholeMemory memories name value := by
  refine ⟨fun value => ⟨Function.update memories name (some (m.write value)), by rw [writeWholeMemory, h]; rfl, ?_⟩,
    fun value hvalue => ?_, fun value => ?_⟩
  · have hread : readWholeMemory (Function.update memories name (some (m.write value))) name
        = some (value.resize m.fullWidth) := by
      rw [readWholeMemory, Function.update_self, Option.map_some, Memory.read_write]
    exact ⟨hread, fun hw => by rw [hread, resize_of_width hw]⟩
  · rw [readWholeMemory, h] at hvalue
    obtain rfl := Option.some.inj hvalue
    rw [writeWholeMemory, h, Option.map_some, Memory.write_read, ← h, Function.update_eq_self]
  · rw [writeWholeMemory, writeWholeMemory, h, Option.map_some, Option.map_some, Memory.write_resize]

/-- A nibble-wide memory of two elements, one of them partly unknown. -/
def nibblePair : Memory where
  data := [init 5 4 2, ofInt 9 4]
  elemWidth := 4
  elemWidth_pos := Nat.succ_pos _
  width_eq := by decide

theorem wholeMemory_inverse_nibblePair :
    (∃ memories', writeWholeMemory (fun _ => some nibblePair) "m" (ofInt 165 8) = some memories' ∧
      readWholeMemory memories' "m" = some ((ofInt 165 8).resize nibblePair.fullWidth) ∧
      ((ofInt 165 8).width = nibblePair.fullWidth → readWholeMemory memories' "m" = some (ofInt 165 8))) :=
  (@wholeMemory_inverse (fun _ => some nibblePair) "m" nibblePair rfl).1 (ofInt 165 8)

end Veriforge

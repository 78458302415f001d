import Veriforge.Value.Basic
import Veriforge.Comment.Pattern

/-! # Memory files

`readmem.load` of `sim/readmem.py`: the words of a `$readmemh` or `$readmemb` file are stored one after another, up or
down, from the start address or from the last `@` directive on. -/

namespace Veriforge.Readmem

/-! ## The words of a file -/

/-- `_tokens` -/
def tokens (text : Line) : List Line := words (comment.sub (fun _ => [' ']) text)

/-- `int(ch, 16 if is_hex else 2)` -/
def digit (isHex : Bool) (c : Char) : Option Nat :=
  if isHex then hexDigit c else if c = '0' then some 0 else if c = '1' then some 1 else none

/-- A number of hexadecimal digits. -/
def hexNumber (s : Line) : Option Nat :=
  if s = [] then none
  else s.foldl (fun acc c => acc.bind fun n => (hexDigit c).map (16 * n + ·)) (some 0)

/-- `int(s, 16)`: a sign and a prefix `0x` may stand before the digits. -/
def hexInt (s : Line) : Option Int :=
  let magnitude := fun s : Line =>
    if ['0', 'x'].isPrefixOf s || ['0', 'X'].isPrefixOf s then hexNumber (s.drop 2) else hexNumber s
  match s with
  | '-' :: s => (magnitude s).map fun n => -(n : Int)
  | '+' :: s => (magnitude s).map Int.ofNat
  | s => (magnitude s).map Int.ofNat

/-- One digit of `_word`: shifted into the value or, for an unknown digit, into the mask. -/
def pushDigit (isHex : Bool) (acc : Option (Nat × Nat)) (c : Char) : Option (Nat × Nat) :=
  let bits := if isHex then 4 else 1
  acc.bind fun (val, mask) =>
    if c ∈ ['x', 'X', 'z', 'Z', '?'] then some (val <<< bits, (mask <<< bits) ||| (2 ^ bits - 1))
    else (digit isHex c).map fun d => ((val <<< bits) ||| d, mask <<< bits)

/-- `_word` -/
def word (isHex : Bool) (width : Nat) (token : Line) : Option (Nat × Nat) :=
  ((token.filter (· ≠ '_')).foldl (pushDigit isHex) (some (0, 0))).map
    fun (val, mask) => (val % 2 ^ width, mask % 2 ^ width)

/-! ## Loading -/

/-- A call `store(slot, value, mask)`. -/
structure Store where
  slot : Int
  val : Nat
  mask : Nat
  deriving DecidableEq

/-- The arguments of `load`. -/
structure Request where
  isHex : Bool
  width : Nat
  depth : Nat
  base : Int
  start : Option Int
  finish : Option Int

namespace Request

variable (q : Request)

def low : Int := q.base

def high : Int := q.base + q.depth - 1

def first : Int := q.start.getD q.low

def last : Int := q.finish.getD q.high

def step : Int := if q.last ≥ q.first then 1 else -1

/-- The loop of `load`: the stores made, and whether a `ValueError` ended it. -/
def loadFrom : Int → List Line → List Store × Bool
  | _, [] => ([], false)
  | addr, token :: rest =>
      if token.head? = some '@' then
        match hexInt (token.tail.filter (· ≠ '_')) with
        | some a => loadFrom a rest
        | none => ([], true)
      -- past the last address, or outside the memory
      else if (addr - q.last) * q.step > 0 ∨ ¬ (q.low ≤ addr ∧ addr ≤ q.high) then loadFrom (addr + q.step) rest
      else
        match word q.isHex q.width token with
        | some (val, mask) =>
            let (stores, raised) := loadFrom (addr + q.step) rest
            (⟨addr - q.base, val, mask⟩ :: stores, raised)
        | none => ([], true)

/-- `load` -/
def load (text : Line) : List Store × Bool := q.loadFrom q.first (tokens text)

end Request

/-- The executor's `store`. -/
def store (width : Nat) (memory : List Value) (s : Store) : List Value :=
  if 0 ≤ s.slot ∧ s.slot < memory.length then memory.set s.slot.toNat (Value.init s.val width s.mask) else memory

/-- The memory after a load. -/
def memoryAfter (width : Nat) (memory : List Value) (stores : List Store) : List Value :=
  stores.foldl (store width) memory

/-! ## What a file asks for -/

/-- A token that is read without error: a data word or an `@` directive. -/
inductive Command
  | address (a : Int)
  | word (val mask : Nat)
  deriving DecidableEq

def Command.address? : Command → Option Int
  | address a => some a
  | word _ _ => none

def Command.isWord : Command → Bool
  | address _ => false
  | word _ _ => true

/-- The command that a token spells. -/
def Request.command (q : Request) (token : Line) : Option Command :=
  if token.head? = some '@' then (hexInt (token.tail.filter (· ≠ '_'))).map .address
  else (Readmem.word q.isHex q.width token).map fun (val, mask) => .word val mask

namespace Request

variable (q : Request)

/-- The address of a word behind these commands: as many steps from the last directive, or from the start of the
file, as there are words since. -/
def addressAfter (before : List Command) : Int :=
  (before.filterMap Command.address?).getLast?.getD q.first +
    q.step * (before.reverse.takeWhile Command.isWord).length

/-- The words of a file with their addresses. -/
def addressed : List Command → List Command → List (Int × Nat × Nat)
  | _, [] => []
  | before, .word val mask :: cs => (q.addressAfter before, val, mask) :: addressed (before ++ [.word val mask]) cs
  | before, .address a :: cs => addressed (before ++ [.address a]) cs

/-- The address lies inside the memory. -/
def InMemory (a : Int) : Prop := q.low ≤ a ∧ a ≤ q.high

/-- The address lies between the start and the end. -/
def InRange (a : Int) : Prop := min q.first q.last ≤ a ∧ a ≤ max q.first q.last

instance (a : Int) : Decidable (q.InMemory a) := inferInstanceAs (Decidable (_ ∧ _))

instance (a : Int) : Decidable (q.InRange a) := inferInstanceAs (Decidable (_ ∧ _))

/-- The store of an addressed word. -/
def storeOf (w : Int × Nat × Nat) : Store := ⟨w.1 - q.base, w.2.1, w.2.2⟩

/-- The stores a file asks for: every word whose address is in the memory and in the range. -/
def wanted (cs : List Command) : List Store :=
  ((q.addressed [] cs).filter fun w => q.InMemory w.1 ∧ q.InRange w.1).map q.storeOf

/-- What a memory holds after the stores: the last word stored to a slot, and what was there otherwise. -/
def Holds (memory memory' : List Value) (stores : List Store) : Prop :=
  memory'.length = memory.length ∧ ∀ k < memory.length,
    memory'[k]? = match (stores.filter fun s => s.slot = (k : Int)).getLast? with
      | some s => some (Value.init s.val q.width s.mask)
      | none => memory[k]?

/-- A load stores the words asked for and no other. -/
def Loads (text : Line) (cs : List Command) : Prop :=
  q.load text = (q.wanted cs, false) ∧ ∀ memory : List Value, memory.length = q.depth →
      q.Holds memory (memoryAfter q.width memory (q.load text).1) (q.wanted cs)

/-! ## The running address -/

@[simp] theorem addressAfter_nil : q.addressAfter [] = q.first := by
  simp [addressAfter]

@[simp] theorem addressAfter_word (before : List Command) (val mask : Nat) :
    q.addressAfter (before ++ [.word val mask]) = q.addressAfter before + q.step := by
  have hreverse : (before ++ [Command.word val mask]).reverse = .word val mask :: before.reverse := by simp
  rw [addressAfter, hreverse, List.takeWhile_cons_of_pos rfl, List.length_cons, List.filterMap_append,
    show List.filterMap Command.address? [.word val mask] = [] from rfl, List.append_nil, addressAfter]
  push_cast
  ring

@[simp] theorem addressAfter_address (before : List Command) (a : Int) :
    q.addressAfter (before ++ [.address a]) = a := by
  have hreverse : (before ++ [Command.address a]).reverse = .address a :: before.reverse := by simp
  rw [addressAfter, hreverse, List.takeWhile_cons_of_neg Bool.false_ne_true, List.filterMap_append,
    show List.filterMap Command.address? [.address a] = [a] from rfl, List.getLast?_concat]
  simp

/-- The address is one that the guard of the loop lets through. -/
def Passes (a : Int) : Prop := ¬ ((a - q.last) * q.step > 0 ∨ ¬ (q.low ≤ a ∧ a ≤ q.high))

instance (a : Int) : Decidable (q.Passes a) := inferInstanceAs (Decidable (¬ _))

theorem step_cases : q.step = 1 ∧ q.first ≤ q.last ∨ q.step = -1 ∧ q.last < q.first := by
  rw [step]
  split
  · next h => exact .inl ⟨rfl, h⟩
  · next h => exact .inr ⟨rfl, by omega⟩

/-- What the guard misses: that an address may lie before the start. -/
theorem inRange_iff (a : Int) : q.InMemory a ∧ q.InRange a ↔ q.Passes a ∧ 0 ≤ (a - q.first) * q.step := by
  rw [InMemory, InRange, Passes]
  rcases q.step_cases with ⟨hs, h⟩ | ⟨hs, h⟩ <;> rw [hs] <;> omega

/-- The loop stores the words whose addresses pass its guard. -/
theorem loadFrom_eq {ts : List Line} {cs : List Command} (h : ts.mapM q.command = some cs) (before : List Command) :
    q.loadFrom (q.addressAfter before) ts =
      (((q.addressed before cs).filter fun w => q.Passes w.1).map q.storeOf, false) := by
  induction ts generalizing cs before with
  | nil =>
    cases h
    rfl
  | cons t ts ih =>
    rw [List.mapM_cons] at h
    obtain ⟨c, hc, h⟩ := Option.bind_eq_some_iff.mp h
    obtain ⟨cs', hcs, h⟩ := Option.bind_eq_some_iff.mp h
    cases h
    rw [command] at hc
    rw [loadFrom]
    by_cases hat : t.head? = some '@'
    · rw [if_pos hat] at hc ⊢
      obtain ⟨a, ha, rfl⟩ := Option.map_eq_some_iff.mp hc
      have ih := ih hcs (before ++ [.address a])
      rw [addressAfter_address] at ih
      rw [ha, addressed]
      exact ih
    · rw [if_neg hat] at hc ⊢
      obtain ⟨⟨val, mask⟩, hw, rfl⟩ := Option.map_eq_some_iff.mp hc
      have ih := ih hcs (before ++ [.word val mask])
      rw [addressAfter_word] at ih
      rw [addressed, List.filter_cons]
      by_cases hp : q.Passes (q.addressAfter before)
      · rw [if_neg hp, hw, if_pos (decide_eq_true hp)]
        show (_ :: (q.loadFrom _ ts).1, (q.loadFrom _ ts).2) = _
        rw [ih]
        rfl
      · rw [if_pos (not_not.mp hp), if_neg (by simpa using hp), ih]

/-! ## The memory -/

/-- A memory holds the last word stored to each slot. -/
theorem holds_memoryAfter {memory : List Value} {stores : List Store}
    (h : ∀ s ∈ stores, 0 ≤ s.slot ∧ s.slot < memory.length) :
    q.Holds memory (memoryAfter q.width memory stores) stores := by
  induction stores using List.reverseRecOn with
  | nil => exact ⟨rfl, fun k _ => rfl⟩
  | append_singleton stores s ih =>
    obtain ⟨hlen, hget⟩ := ih fun s' hs' => h s' (List.mem_append_left _ hs')
    obtain ⟨h0, hlt⟩ := h s (List.mem_append_right _ List.mem_cons_self)
    have hmem : memoryAfter q.width memory (stores ++ [s]) =
        (memoryAfter q.width memory stores).set s.slot.toNat (Value.init s.val q.width s.mask) := by
      rw [memoryAfter, List.foldl_append]
      refine if_pos ⟨h0, ?_⟩
      rw [show (stores.foldl (store q.width) memory).length = memory.length from hlen]
      exact hlt
    rw [hmem]
    refine ⟨by rw [List.length_set, hlen], fun k hk => ?_⟩
    rw [List.filter_append]
    by_cases hslot : s.slot = k
    · rw [List.filter_cons, if_pos (decide_eq_true hslot), List.filter_nil, List.getLast?_concat, hslot,
        Int.toNat_natCast, List.getElem?_set_self (by rw [hlen]; exact hk)]
    · rw [List.filter_cons, if_neg (by simpa using hslot), List.filter_nil, List.append_nil,
        List.getElem?_set_ne (by omega), hget k hk]

/-- A word in the memory has a slot in it. -/
theorem slot_of_inMemory {a : Int} (h : q.InMemory a) : 0 ≤ a - q.base ∧ a - q.base < q.depth := by
  rw [InMemory, low, high] at h
  omega

/-! ## When the right words are stored -/

/-- A file is loaded as asked exactly when no directive puts a word into the memory before the start address. -/
theorem loads_iff {text : Line} {cs : List Command} (h : (tokens text).mapM q.command = some cs) :
    q.Loads text cs ↔ ∀ w ∈ q.addressed [] cs, q.InMemory w.1 → 0 ≤ (w.1 - q.first) * q.step := by
  have hload : q.load text = (((q.addressed [] cs).filter fun w => q.Passes w.1).map q.storeOf, false) := by
    have := q.loadFrom_eq h []
    rwa [addressAfter_nil] at this
  have hwanted : (q.addressed [] cs).filter (fun w => q.InMemory w.1 ∧ q.InRange w.1) =
      ((q.addressed [] cs).filter fun w => q.Passes w.1).filter fun w => 0 ≤ (w.1 - q.first) * q.step := by
    rw [List.filter_filter]
    refine List.filter_congr fun w _ => ?_
    rw [← Bool.decide_and]
    exact decide_eq_decide.mpr ((q.inRange_iff w.1).trans And.comm)
  constructor
  · rintro ⟨hstores, -⟩ w hw hin
    -- a word before the start passes the guard, so the loop would make one store more
    by_contra hbefore
    have hlen := congrArg (fun r => r.1.length) hstores
    simp only [hload, wanted, hwanted, List.length_map] at hlen
    have hpass : q.Passes w.1 := by
      rw [InMemory] at hin
      rw [Passes]
      rcases q.step_cases with ⟨hs, h⟩ | ⟨hs, h⟩ <;> rw [hs] at hbefore ⊢ <;> omega
    have hall := List.length_filter_eq_length_iff.mp hlen.symm w (List.mem_filter.mpr ⟨hw, decide_eq_true hpass⟩)
    exact hbefore (of_decide_eq_true hall)
  · intro hall
    have heq : q.load text = (q.wanted cs, false) := by
      rw [hload, wanted, hwanted]
      refine congrArg (fun l => (List.map q.storeOf l, false)) (List.filter_eq_self.mpr fun w hw => ?_).symm
      obtain ⟨hmem, hpass⟩ := List.mem_filter.mp hw
      exact decide_eq_true (hall w hmem (not_not.mp (not_or.mp (of_decide_eq_true hpass)).2))
    refine ⟨heq, fun memory hdepth => ?_⟩
    rw [heq]
    refine q.holds_memoryAfter fun s hs => ?_
    obtain ⟨w, hw, rfl⟩ := List.mem_map.mp hs
    have hin := (of_decide_eq_true (List.mem_filter.mp hw).2).1
    rw [hdepth]
    exact q.slot_of_inMemory hin

end Request

/-- Four words of which the last three are asked for. -/
def lastThree : Request := ⟨true, 8, 4, 0, some 1, none⟩

/-- Two words in turn, from the start address on. -/
theorem loads_lastThree : lastThree.Loads "a b".toList [.word 10 0, .word 11 0] :=
  (lastThree.loads_iff (by decide)).mpr (by decide)

/-- A directive that goes back before the start address is followed, and the word stored there. -/
theorem load_before_start :
    ¬ lastThree.Loads "@0 a".toList [.address 0, .word 10 0] ∧
      lastThree.load "@0 a".toList = ([⟨0, 10, 0⟩], false) := by
  refine ⟨fun h => ?_, by decide⟩
  exact absurd h.1 (by decide)

end Veriforge.Readmem

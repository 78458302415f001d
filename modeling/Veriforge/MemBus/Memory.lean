import Veriforge.Axi4.Bytes
import Veriforge.AxiLite.Call
import Veriforge.MemBus.Endpoints
import Veriforge.Runs

/-! # The memory behind the memory bus

A bit of the memory is the one last written by a write that enables its byte. The responder takes a write
without strobes for one with all of them, and starts a word that is not kept yet at 0, also where reads
have found another default. -/

namespace Veriforge.MemBus

open AxiLite (Clock applyWriteStrobes isHigh)
open Axi4 (byteOf testBit_byteOf byteOf_applyWriteStrobes)

/-! ## A byte-enabled memory -/

/-- Whether a write enables a byte. -/
def enables (be : Option Nat) (i : Nat) : Bool := be.all fun m => m.testBit i

/-- What a call writes to a bit of the word at an address. -/
def Call.bit (bus : Bus) (a j : Nat) : Call → Option Bool
  | .write addr data be =>
      if addr % 2 ^ bus.addrWidth = a ∧ enables be (j / 8) = true then some (data.testBit j) else none
  | .read _ _ => none

/-- A bit of the memory after the calls: the last one written, or the one that was there at first. -/
def lastBit (bus : Bus) (o : Options) (memory : Nat → Option Nat) (calls : List Call) (a j : Nat) : Bool :=
  ((calls.filterMap (Call.bit bus a j)).getLast?).getD (((memory a).getD o.defaultReadValue).testBit j)

variable {bus : Bus} {o : Options} {memory : Nat → Option Nat}

theorem lastBit_concat (calls : List Call) (call : Call) (a j : Nat) :
    lastBit bus o memory (calls ++ [call]) a j = (call.bit bus a j).getD (lastBit bus o memory calls a j) := by
  unfold lastBit
  rw [List.filterMap_append]
  cases hbit : call.bit bus a j with
  | none => simp [hbit]
  | some bit => simp [hbit]

/-- A word of whole bytes, or less than one byte. -/
def Bus.Whole (bus : Bus) : Prop := bus.dataWidth < 8 ∨ 8 ∣ bus.dataWidth

instance (bus : Bus) : Decidable bus.Whole := inferInstanceAs (Decidable (_ ∨ _))

/-- The strobes that the responder takes are those of the call. -/
def Strobed (bus : Bus) (be : Option Nat) : Prop :=
  match bus.be with
  | none => ∀ i < bus.dataBytes, enables be i = true
  | some width => (be.getD ((1 <<< width) - 1)) % 2 ^ width ≠ 0 ∧ ∀ i < bus.dataBytes, enables be i = true → i < width

/-- A call that the responder serves as a byte-enabled memory: a write has strobes, and its word is kept
already or starts with zeros where the write leaves it alone. -/
def Served (bus : Bus) (o : Options) (memory : Nat → Option Nat) : Call → Prop
  | .write addr _ be =>
      Strobed bus be ∧ ((memory (addr % 2 ^ bus.addrWidth)).isSome = true ∨
        ∀ j < bus.dataWidth, enables be (j / 8) = false → o.defaultReadValue.testBit j = false)
  | .read _ _ => True

/-! ## A cycle -/

namespace Bench

variable (c : Clock) (bus : Bus) (o : Options)

/-- The bench at another time, the responder having seen the clock there. -/
def stamp (b : Bench) (t clk : Nat) : Bench :=
  { b with time := t, responder := { b.responder with prevClk := clk } }

/-- The responder has seen the clock as it is. -/
def Synced (b : Bench) : Prop := b.responder.prevClk = (c.level b.time).toNat

variable {c bus o}

theorem acceptWrite_at (b : Bench) (addr t clk : Nat) :
    (b.stamp t clk).acceptWrite bus o addr = (b.acceptWrite bus o addr).stamp t clk := by
  cases hwen : isHigh b.wires.wen with
  | false => simp [acceptWrite, stamp, hwen]
  | true =>
    cases hdata : b.wires.wdata with
    | none => simp [acceptWrite, stamp, hwen, hdata]
    | some data =>
      simp only [acceptWrite, stamp, hwen, hdata, if_true]
      rfl

theorem answerRead_at (b : Bench) (addr t clk : Nat) :
    (b.stamp t clk).answerRead bus o addr = (b.answerRead bus o addr).stamp t clk := by
  unfold answerRead
  change (if !bus.ren || isHigh b.wires.ren then _ else _) = _
  split <;> rfl

/-- What happens at an edge does not depend on its time. -/
theorem onEdge_at (b : Bench) (t clk : Nat) : (b.stamp t clk).onEdge bus o = (b.onEdge bus o).stamp t clk := by
  cases haddr : b.wires.addr with
  | none => simp [onEdge, stamp, haddr]
  | some addr =>
    have hb : b.onEdge bus o = (b.acceptWrite bus o addr).answerRead bus o addr := by simp [onEdge, haddr]
    rw [hb, ← answerRead_at, ← acceptWrite_at]
    simp [onEdge, stamp, haddr]

theorem Synced.onTimeStep {b : Bench} (h : b.Synced c) : b.onTimeStep bus o (clk c b.time) = b := by
  unfold Bench.onTimeStep clk
  have hno : (b.responder.prevClk == 0 && (c.level b.time).toNat == 1) = false := by
    rw [h]
    cases c.level b.time <;> rfl
  dsimp only
  rw [hno, ← h]
  rfl

/-- A step that is no rising edge changes nothing. -/
theorem runStep_quiet {b : Bench} (h : b.Synced c) (hno : ¬ (c.level b.time = false ∧ c.level (b.time + 1) = true)) :
    b.runStep c bus o = b.stamp (b.time + 1) (c.level (b.time + 1)).toNat := by
  have hedge : (b.responder.prevClk == 0 && (c.level (b.time + 1)).toNat == 1) = false := by
    rw [h]
    revert hno
    cases c.level b.time <;> cases c.level (b.time + 1) <;> simp
  unfold runStep
  rw [h.onTimeStep]
  unfold Bench.onTimeStep clk
  dsimp only
  rw [hedge]
  rfl

theorem runStep_rise {b : Bench} (h : b.Synced c) (hrise : c.level b.time = false ∧ c.level (b.time + 1) = true) :
    b.runStep c bus o = (b.onEdge bus o).stamp (b.time + 1) 1 := by
  have hedge : (b.responder.prevClk == 0 && (c.level (b.time + 1)).toNat == 1) = true := by
    rw [h, hrise.1, hrise.2]
    rfl
  unfold runStep
  rw [h.onTimeStep, ← onEdge_at]
  unfold Bench.onTimeStep clk
  dsimp only
  rw [hedge, hrise.2]
  rfl

theorem runToRise_eq {m : Nat} (hm : c.level m = false ∧ c.level (m + 1) = true) (fuel : Nat) :
    ∀ b : Bench, b.Synced c → b.time ≤ m → fuel = m + 1 - b.time →
      (∀ k, b.time ≤ k → k < m → ¬ (c.level k = false ∧ c.level (k + 1) = true)) →
      b.runToRise c bus o fuel = (b.onEdge bus o).stamp (m + 1) 1 := by
  induction fuel with
  | zero =>
    intro b _ hle hfuel _
    omega
  | succ fuel ih =>
    intro b hb hle hfuel hfirst
    rw [runToRise]
    by_cases ht : b.time = m
    · rw [if_pos (ht ▸ hm), runStep_rise hb (ht ▸ hm), ht]
    · have hno := hfirst b.time le_rfl (by omega)
      have hsynced : (b.stamp (b.time + 1) (c.level (b.time + 1)).toNat).Synced c := rfl
      rw [if_neg hno, runStep_quiet hb hno, ih _ hsynced (by change b.time + 1 ≤ m; omega)
        (by change fuel = m + 1 - (b.time + 1); omega)
        fun k hk => hfirst k (by change b.time + 1 ≤ k at hk; omega), onEdge_at]
      rfl

/-- `_step_cycle` is one rising edge. -/
theorem Synced.stepCycle (bus : Bus) (o : Options) {b : Bench} (h : b.Synced c) :
    ∃ t, b.stepCycle c bus o = (b.onEdge bus o).stamp t 1 ∧ c.level t = true := by
  obtain ⟨hle, hrise⟩ := Nat.find_spec (c.rises b.time)
  refine ⟨_, runToRise_eq hrise _ b h hle rfl fun k hk hkm hr => ?_, hrise.2⟩
  exact Nat.find_min (c.rises b.time) hkm ⟨hk, hr⟩

/-! ## The calls -/

/-- Between two calls: the clock is known and no write is on the wires. -/
structure Idle (c : Clock) (b : Bench) : Prop where
  synced : b.Synced c
  wen : b.wires.wen = some 0

theorem idle_start (c : Clock) (bus : Bus) (memory : Nat → Option Nat) (t : Nat) (w : Wires) :
    (start c bus memory t w).Idle c := ⟨rfl, rfl⟩

/-- The word that a write leaves. -/
def written (bus : Bus) (memory : Nat → Option Nat) (addr data : Nat) (be : Option Nat) : Nat :=
  applyWriteStrobes ((memory (addr % 2 ^ bus.addrWidth)).getD 0) (data % 2 ^ bus.dataWidth)
    (match bus.be with
      | none => bus.allBytes
      | some width =>
          if (be.getD ((1 <<< width) - 1)) % 2 ^ width ≠ 0 then (be.getD ((1 <<< width) - 1)) % 2 ^ width
          else bus.allBytes)
    bus.dataBytes

theorem answerRead_memory (b : Bench) (addr : Nat) : (b.answerRead bus o addr).responder.memory = b.responder.memory := by
  unfold answerRead
  split <;> rfl

theorem Idle.write (bus : Bus) {b : Bench} (h : b.Idle c) (hstore : o.storeWrites = true) (addr data : Nat)
    (be : Option Nat) :
    (b.write c bus o addr data be).Idle c ∧ (b.write c bus o addr data be).responder.memory =
        Function.update b.responder.memory (addr % 2 ^ bus.addrWidth)
          (some (written bus b.responder.memory addr data be)) := by
  unfold Bench.write
  obtain ⟨t, ht, hlevel⟩ := Synced.stepCycle bus o (b := b.drive fun w =>
    { w with
      addr := some (addr % 2 ^ bus.addrWidth), wdata := some (data % 2 ^ bus.dataWidth), wen := some 1
      be := driveBe bus be w }) h.synced
  dsimp only
  rw [ht]
  refine ⟨⟨?_, rfl⟩, ?_⟩
  · change 1 = (c.level t).toNat
    rw [hlevel]
    rfl
  · change (Bench.onEdge bus o _).responder.memory = _
    unfold onEdge
    change (Bench.answerRead bus o _ _).responder.memory = _
    rw [answerRead_memory]
    unfold acceptWrite written
    cases hbe : bus.be with
    | none => simp [drive, strobe, hbe, hstore, isHigh]
    | some width => simp [drive, strobe, hbe, driveBe, hstore, isHigh]

/-- The edge of a read. -/
theorem onEdge_read {b : Bench} (hwen : b.wires.wen = some 0) {addr : Nat} (haddr : b.wires.addr = some addr) :
    b.onEdge bus o = b.answerRead bus o addr := by
  simp [onEdge, haddr, acceptWrite, hwen, isHigh]

theorem Idle.read (bus : Bus) (o : Options) {b : Bench} (h : b.Idle c) (addr timeout : Nat) :
    ((b.read c bus o addr timeout).2).Idle c ∧
      ((b.read c bus o addr timeout).2).responder.memory = b.responder.memory ∧
      (b.read c bus o addr timeout).1 = .returned (b.readValue bus o (addr % 2 ^ bus.addrWidth)) := by
  set b' : Bench := b.drive fun w =>
    { w with addr := some (addr % 2 ^ bus.addrWidth), ren := if bus.ren then some 1 else w.ren } with hb'
  obtain ⟨t, ht, hlevel⟩ := Synced.stepCycle bus o (b := b') h.synced
  rw [onEdge_read (b := b') h.wen rfl] at ht
  have hread : b'.answerRead bus o (addr % 2 ^ bus.addrWidth) = { b' with
        wires := { b'.wires with
          rdata := b'.readValue bus o (addr % 2 ^ bus.addrWidth), rvalid := if bus.rvalid then 1 else b'.wires.rvalid }
        responder := { b'.responder with readLog := b'.responder.readLog ++ [addr % 2 ^ bus.addrWidth] } } := by
    unfold answerRead
    rw [if_pos]
    cases hren : bus.ren <;> simp [hb', drive, hren, isHigh]
  rw [hread] at ht
  have hclk : 1 = (c.level t).toNat := by rw [hlevel]; rfl
  unfold Bench.read
  dsimp only
  rw [← hb', ht]
  cases hrvalid : bus.rvalid with
  | false => exact ⟨⟨hclk, h.wen⟩, rfl, rfl⟩
  | true => exact ⟨⟨hclk, h.wen⟩, rfl, rfl⟩

end Bench

/-! ## Bits of the memory -/

theorem Bus.Whole.byte_lt (h : bus.Whole) {j : Nat} (hj : j < bus.dataWidth) : j / 8 < bus.dataBytes := by
  unfold Bus.dataBytes
  rcases h with h | ⟨k, hk⟩ <;> omega

theorem testBit_allBytes {i : Nat} (hi : i < bus.dataBytes) : bus.allBytes.testBit i = true := by
  unfold Bus.allBytes
  rw [Nat.one_shiftLeft, Nat.testBit_two_pow_sub_one, decide_eq_true hi]

/-- `_apply_write_strobes`, bit by bit. -/
theorem testBit_applyWriteStrobes (current data strobe : Nat) {n j : Nat} (h : j / 8 < n) :
    (applyWriteStrobes current data strobe n).testBit j =
      if strobe.testBit (j / 8) then data.testBit j else current.testBit j := by
  have hbit : ∀ word : Nat, (byteOf word (j / 8)).testBit (j % 8) = word.testBit j := by
    intro word
    rw [testBit_byteOf, decide_eq_true (by omega), Bool.true_and, Nat.mul_comm, Nat.div_add_mod]
  rw [← hbit (applyWriteStrobes current data strobe n), byteOf_applyWriteStrobes _ _ _ h]
  split
  · exact hbit data
  · exact hbit current

/-- With strobes, the bytes that the write enables are written, and the others stay. -/
theorem Strobed.testBit_written (hwhole : bus.Whole) {be : Option Nat} (h : Strobed bus be) (memory : Nat → Option Nat)
    (addr data : Nat) {j : Nat} (hj : j < bus.dataWidth) :
    (Bench.written bus memory addr data be).testBit j =
      if enables be (j / 8) then data.testBit j else ((memory (addr % 2 ^ bus.addrWidth)).getD 0).testBit j := by
  have hbyte := hwhole.byte_lt hj
  have hdata : (data % 2 ^ bus.dataWidth).testBit j = data.testBit j := by
    rw [Nat.testBit_mod_two_pow, decide_eq_true hj, Bool.true_and]
  unfold Strobed at h
  unfold Bench.written
  rw [testBit_applyWriteStrobes _ _ _ hbyte, hdata]
  congr 2
  cases hbe : bus.be with
  | none =>
    rw [hbe] at h
    rw [testBit_allBytes hbyte, h _ hbyte]
  | some width =>
    rw [hbe] at h
    dsimp only
    rw [if_pos h.1, Nat.testBit_mod_two_pow]
    cases hm : be with
    | none =>
      have hlt := h.2 _ hbyte (by rw [hm]; rfl)
      rw [Option.getD_none, Nat.one_shiftLeft, Nat.testBit_two_pow_sub_one, decide_eq_true hlt]
      rfl
    | some m =>
      have hlt := h.2 _ hbyte
      rw [hm] at hlt
      change (decide (j / 8 < width) && m.testBit (j / 8)) = m.testBit (j / 8)
      by_cases hbit : m.testBit (j / 8) = true
      · rw [decide_eq_true (hlt hbit), Bool.true_and]
      · rw [Bool.eq_false_of_not_eq_true hbit, Bool.and_false]

/-! ## Runs -/

variable {c : Clock}

/-- After some calls the memory has the last bit written, everywhere. -/
structure Stands (c : Clock) (bus : Bus) (o : Options) (memory : Nat → Option Nat) (calls : List Call) (b : Bench) :
    Prop where
  idle : b.Idle c
  bits : ∀ a, ∀ j < bus.dataWidth,
    ((b.responder.memory a).getD o.defaultReadValue).testBit j = lastBit bus o memory calls a j

theorem Stands.start (t : Nat) (w : Wires) : Stands c bus o memory [] (Bench.start c bus memory t w) :=
  ⟨Bench.idle_start c bus memory t w, fun _ _ _ => rfl⟩

/-- A call that is served leaves the last bits written. -/
theorem Stands.call (hstore : o.storeWrites = true) (hwhole : bus.Whole) {calls : List Call} {b : Bench}
    (h : Stands c bus o memory calls b) {call : Call} (hs : Served bus o b.responder.memory call) :
    Stands c bus o memory (calls ++ [call]) (b.call c bus o call).2 := by
  cases call with
  | write addr data be =>
    obtain ⟨hidle, hmemory⟩ := h.idle.write bus hstore addr data be
    refine ⟨hidle, fun a j hj => ?_⟩
    change (((b.write c bus o addr data be).responder.memory a).getD _).testBit j = _
    rw [hmemory, lastBit_concat, Call.bit]
    by_cases ha : addr % 2 ^ bus.addrWidth = a
    · subst ha
      rw [Function.update_self, Option.getD_some, hs.1.testBit_written hwhole _ _ _ hj]
      by_cases hen : enables be (j / 8) = true
      · rw [if_pos hen, if_pos ⟨rfl, hen⟩, Option.getD_some]
      · rw [if_neg hen, if_neg fun hc => hen hc.2, Option.getD_none, ← h.bits _ j hj]
        -- where the write leaves the word alone, it must not have started from another default
        cases hmem : b.responder.memory (addr % 2 ^ bus.addrWidth) with
        | some word => rfl
        | none =>
          have hzero := hs.2.resolve_left (by rw [hmem]; exact Bool.false_ne_true)
          rw [Option.getD_none, Option.getD_none, Nat.zero_testBit, hzero j hj (Bool.eq_false_of_not_eq_true hen)]
    · rw [Function.update_of_ne (Ne.symm ha), if_neg fun hc => ha hc.1, Option.getD_none]
      exact h.bits a j hj
  | read addr timeout =>
    obtain ⟨hidle, hmemory, -⟩ := h.idle.read bus o addr timeout
    refine ⟨hidle, fun a j hj => ?_⟩
    change (((b.read c bus o addr timeout).2.responder.memory a).getD _).testBit j = _
    rw [hmemory, lastBit_concat]
    exact h.bits a j hj

theorem calls_concat (b : Bench) (cs : List Call) (call : Call) :
    b.calls c bus o (cs ++ [call]) = ((b.calls c bus o cs).call c bus o call).2 := by
  unfold Bench.calls
  rw [List.foldl_append]
  rfl

theorem stands_calls (hstore : o.storeWrites = true) (hwhole : bus.Whole) (t : Nat) (w : Wires) (cs : List Call)
    (hs : EachStep (fun before call =>
      Served bus o (((Bench.start c bus memory t w).calls c bus o before).responder.memory) call) cs) :
    Stands c bus o memory cs ((Bench.start c bus memory t w).calls c bus o cs) := by
  induction cs using List.reverseRecOn with
  | nil => exact Stands.start t w
  | append_singleton cs call ih =>
    rw [eachStep_concat] at hs
    rw [calls_concat]
    exact (ih hs.1).call hstore hwhole hs.2

/-- A bit of what a read returns. -/
theorem testBit_readValue (hwhole : bus.Whole) (b : Bench) (addr : Nat) {j : Nat} (hj : j < bus.dataWidth) :
    (b.readValue bus o addr).testBit j = ((b.responder.memory addr).getD o.defaultReadValue).testBit j := by
  have hbyte := hwhole.byte_lt hj
  unfold Bench.readValue
  rw [Nat.testBit_mod_two_pow, decide_eq_true hj, Bool.true_and, Nat.testBit_and, Nat.one_shiftLeft,
    Nat.testBit_two_pow_sub_one, decide_eq_true (by omega), Bool.and_true]

/-- Where the responder serves every call, each read returns, bit by bit, what was last written. -/
theorem read_lastBit (c : Clock) (bus : Bus) (o : Options) (hstore : o.storeWrites = true) (hwhole : bus.Whole)
    (memory : Nat → Option Nat) (t : Nat) (w : Wires) (calls : List Call)
    (hs : EachStep (fun before call =>
      Served bus o (((Bench.start c bus memory t w).calls c bus o before).responder.memory) call) calls)
    (addr timeout : Nat) :
    ∃ v, (((Bench.start c bus memory t w).calls c bus o calls).call c bus o (.read addr timeout)).1 = .returned v ∧
      v < 2 ^ bus.dataWidth ∧
      ∀ j < bus.dataWidth, v.testBit j = lastBit bus o memory calls (addr % 2 ^ bus.addrWidth) j := by
  have h := stands_calls hstore hwhole t w calls hs
  obtain ⟨-, -, hread⟩ := h.idle.read bus o addr timeout
  refine ⟨_, hread, Nat.mod_lt _ (Nat.two_pow_pos _), fun j hj => ?_⟩
  rw [testBit_readValue hwhole _ _ hj]
  exact h.bits _ j hj

/-- A 16-bit bus with all the optional wires. -/
def halfword : Bus := ⟨8, 16, true, some 2, true⟩

/-- A memory that reads as 0. -/
def zeroed : Options := ⟨0, true⟩

/-- The wires before anything is driven. -/
def undriven : Wires := ⟨none, none, none, none, none, 0, 0⟩

/-- A halfword is written, and then its high byte. -/
theorem read_lastBit_highByte : ∃ v,
    (((Bench.start AxiLite.toggling halfword (fun _ => none) 0 undriven).calls AxiLite.toggling halfword zeroed
      [.write 4 0x1234 none, .write 4 0xABCD (some 2)]).call AxiLite.toggling halfword zeroed (.read 4 0)).1 =
        .returned v ∧
      v < 2 ^ 16 ∧ ∀ j < 16, v.testBit j = (0xAB34).testBit j := by
  obtain ⟨v, hread, hlt, hbits⟩ := read_lastBit AxiLite.toggling halfword zeroed rfl (by decide) (fun _ => none) 0 undriven
    [.write 4 0x1234 none, .write 4 0xABCD (some 2)]
    (by
      have hserved : ∀ memory call, call ∈ [Call.write 4 0x1234 none, .write 4 0xABCD (some 2)] →
          Served halfword zeroed memory call := by
        intro memory call hcall
        rcases List.mem_pair.mp hcall with rfl | rfl
        · exact ⟨⟨by decide, by decide⟩, Or.inr fun j _ _ => Nat.zero_testBit j⟩
        · exact ⟨⟨by decide, by decide⟩, Or.inr fun j _ _ => Nat.zero_testBit j⟩
      exact fun k call hcall => hserved _ call (List.mem_of_getElem? hcall))
    4 0
  exact ⟨v, hread, hlt, fun j hj => (hbits j hj).trans (by revert j; decide)⟩

/-- A write that enables no byte writes them all. -/
theorem noByte_written :
    ¬ ∀ (c : Clock) (bus : Bus) (o : Options) (_ : o.storeWrites = true) (memory : Nat → Option Nat) (t : Nat)
        (w : Wires) (calls : List Call) (addr timeout : Nat),
      ∃ v, (((Bench.start c bus memory t w).calls c bus o calls).call c bus o (.read addr timeout)).1 = .returned v ∧
        v < 2 ^ bus.dataWidth ∧
        ∀ j < bus.dataWidth, v.testBit j = lastBit bus o memory calls (addr % 2 ^ bus.addrWidth) j := by
  intro h
  obtain ⟨v, hread, -, hbits⟩ := h AxiLite.toggling halfword zeroed rfl (fun _ => none) 0 undriven
    [.write 4 1 (some 0)] 4 0
  have hidle := Bench.idle_start AxiLite.toggling halfword (fun _ => none) 0 undriven
  obtain ⟨hidle', hmemory⟩ := hidle.write (o := zeroed) halfword rfl 4 1 (some 0)
  obtain ⟨-, -, hreturned⟩ := hidle'.read halfword zeroed 4 0
  have hv := Bench.Outcome.returned.inj (hread.symm.trans hreturned)
  have hbit := hbits 0 (by decide)
  rw [hv, Bench.readValue, hmemory] at hbit
  exact absurd hbit (by decide)

end Veriforge.MemBus

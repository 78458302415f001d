import Veriforge.Axi4.Responder

/-! # The memory of the AXI4 responder, byte by byte

The responder keeps a word for each bus-aligned address that was given or written. A byte of a word that
is not kept is one of the default, until a strobed write puts 0 in its place. -/

namespace Veriforge.Axi4

open AxiLite (applyWriteStrobes clearBits)

/-- A byte of a word. -/
def byteOf (word j : Nat) : Nat := word >>> (j * 8) &&& 0xFF

theorem testBit_byteOf (word j b : Nat) : (byteOf word j).testBit b = (decide (b < 8) && word.testBit (j * 8 + b)) := by
  unfold byteOf
  rw [Nat.testBit_and, Nat.testBit_shiftRight, show 0xFF = 2 ^ 8 - 1 from rfl, Nat.testBit_two_pow_sub_one, Bool.and_comm]

theorem byteOf_ext {x y j : Nat} (h : ∀ b < 8, x.testBit (j * 8 + b) = y.testBit (j * 8 + b)) : byteOf x j = byteOf y j := by
  apply Nat.eq_of_testBit_eq
  intro b
  rw [testBit_byteOf, testBit_byteOf]
  by_cases hb : b < 8
  · rw [h b hb]
  · simp [hb]

theorem byteOf_zero (j : Nat) : byteOf 0 j = 0 := by simp [byteOf]

/-- A mask of whole bytes leaves its bytes alone. -/
theorem byteOf_mask {word n j : Nat} (h : j < n) : byteOf (word &&& ((1 <<< (n * 8)) - 1)) j = byteOf word j := by
  apply byteOf_ext
  intro b hb
  rw [Nat.testBit_and, Nat.one_shiftLeft, Nat.testBit_two_pow_sub_one, decide_eq_true (by omega), Bool.and_true]

/-- A strobe. -/
theorem strobe_iff (strobe i : Nat) : strobe &&& (1 <<< i) ≠ 0 ↔ strobe.testBit i = true := by
  rw [Nat.one_shiftLeft, Nat.and_two_pow]
  cases strobe.testBit i <;> simp

/-- Writing byte `i`. -/
theorem testBit_writeByte (current data i m : Nat) :
    (clearBits current (0xFF <<< (i * 8)) ||| (((data >>> (i * 8)) &&& 0xFF) <<< (i * 8))).testBit m =
      if m / 8 = i then data.testBit m else current.testBit m := by
  have hmask : (0xFF <<< (i * 8)).testBit m = decide (m / 8 = i) := by
    rw [Nat.testBit_shiftLeft, show 0xFF = 2 ^ 8 - 1 from rfl, Nat.testBit_two_pow_sub_one, ← Bool.decide_and]
    exact decide_eq_decide.mpr (by omega)
  have hbyte : ((((data >>> (i * 8)) &&& 0xFF) <<< (i * 8)).testBit m) = (decide (m / 8 = i) && data.testBit m) := by
    by_cases hm : i * 8 ≤ m
    · have hback : i * 8 + (m - i * 8) = m := Nat.add_sub_cancel' hm
      rw [Nat.testBit_shiftLeft, decide_eq_true hm, Bool.true_and]
      change (byteOf data i).testBit _ = _
      rw [testBit_byteOf, hback, decide_eq_decide.mpr (show m - i * 8 < 8 ↔ m / 8 = i by omega)]
    · rw [Nat.testBit_shiftLeft, decide_eq_false hm, decide_eq_false (by omega : ¬ m / 8 = i), Bool.false_and,
        Bool.false_and]
  unfold clearBits
  rw [Nat.testBit_or, Nat.testBit_xor, Nat.testBit_and, hmask, hbyte]
  by_cases hm : m / 8 = i <;> simp [hm]

/-- `_apply_write_strobes`: the strobed bytes are written, the others stay. -/
theorem byteOf_applyWriteStrobes (current data strobe : Nat) {n j : Nat} (h : j < n) :
    byteOf (applyWriteStrobes current data strobe n) j =
      if strobe.testBit j then byteOf data j else byteOf current j := by
  -- after `k` turns of the loop
  have hloop : ∀ k m, ((List.range k).foldl (fun updated i =>
      if strobe &&& (1 <<< i) ≠ 0 then
        clearBits updated (0xFF <<< (i * 8)) ||| (((data >>> (i * 8)) &&& 0xFF) <<< (i * 8))
      else updated) current).testBit m =
        if m / 8 < k ∧ strobe.testBit (m / 8) = true then data.testBit m else current.testBit m := by
    intro k m
    induction k with
    | zero => simp
    | succ k ih =>
      rw [List.range_succ, List.foldl_append, List.foldl_cons, List.foldl_nil]
      by_cases hs : strobe.testBit k = true
      · rw [if_pos ((strobe_iff strobe k).mpr hs), testBit_writeByte, ih]
        by_cases hm : m / 8 = k
        · rw [if_pos hm, if_pos ⟨by omega, hm ▸ hs⟩]
        · rw [if_neg hm]
          exact if_congr (and_congr_left fun _ => by omega) rfl rfl
      · rw [if_neg (mt (strobe_iff strobe k).mp hs), ih]
        refine if_congr ⟨fun hk => ⟨by omega, hk.2⟩, fun hk => ⟨?_, hk.2⟩⟩ rfl rfl
        have hne : m / 8 ≠ k := fun he => hs (he ▸ hk.2)
        omega
  unfold applyWriteStrobes
  rw [byteOf_mask h]
  split
  · next hs =>
    apply byteOf_ext
    intro b hb
    rw [hloop, show (j * 8 + b) / 8 = j by omega, if_pos ⟨h, hs⟩]
  · next hs =>
    apply byteOf_ext
    intro b hb
    rw [hloop, show (j * 8 + b) / 8 = j by omega, if_neg fun hk => hs hk.2]

/-! ## The bytes that are read and written -/

section Memory

variable {cfg : Options} {memory : Nat → Option Nat} {bytes : Nat → Nat}

/-- A write beat, byte by byte: the strobed bytes of the word at `addr` are written. -/
def writeBytes (n : Nat) (bytes : Nat → Nat) (beat : Nat × Nat × Nat) : Nat → Nat := fun a =>
  if beat.1 ≤ a ∧ a < beat.1 + n ∧ beat.2.2.testBit (a - beat.1) = true then byteOf beat.2.1 (a - beat.1) else bytes a

/-- What a read finds is what the bytes say. -/
def Agrees (cfg : Options) (memory : Nat → Option Nat) (bytes : Nat → Nat) : Prop :=
  ∀ addr, cfg.dataBytes ∣ addr → ∀ j < cfg.dataBytes,
    byteOf ((memory addr).getD cfg.defaultReadValue) j = bytes (addr + j)

/-- The bytes that the memory has at first. -/
def initialBytes (cfg : Options) (memory : Nat → Option Nat) (a : Nat) : Nat :=
  byteOf ((memory (a / cfg.dataBytes * cfg.dataBytes)).getD cfg.defaultReadValue) (a % cfg.dataBytes)

theorem agrees_initial (cfg : Options) (memory : Nat → Option Nat) : Agrees cfg memory (initialBytes cfg memory) := by
  rintro addr ⟨k, rfl⟩ j hj
  have hpos : 0 < cfg.dataBytes := Nat.zero_lt_of_lt hj
  unfold initialBytes
  rw [Nat.mul_add_div hpos, Nat.div_eq_of_lt hj, Nat.add_zero, Nat.mul_add_mod, Nat.mod_eq_of_lt hj, Nat.mul_comm]

/-- Two aligned words share a byte only if they are the same. -/
theorem aligned_eq {n a b j : Nat} (ha : n ∣ a) (hb : n ∣ b) (hle : a ≤ b + j) (hlt : b + j < a + n) (hj : j < n) :
    b = a := by
  obtain ⟨k, rfl⟩ := ha
  obtain ⟨l, rfl⟩ := hb
  have hkl : k = l := by
    rcases Nat.lt_trichotomy k l with h | h | h
    · have hmul : n * (k + 1) ≤ n * l := Nat.mul_le_mul_left n h
      rw [Nat.mul_succ] at hmul
      omega
    · exact h
    · have hmul : n * (l + 1) ≤ n * k := Nat.mul_le_mul_left n h
      rw [Nat.mul_succ] at hmul
      omega
  rw [hkl]

/-- What the memory must have for a write beat: its word, or a default of which only zero bytes are kept. -/
def Covered (cfg : Options) (memory : Nat → Option Nat) (beat : Nat × Nat × Nat) : Prop :=
  (memory beat.1).isSome = true ∨ ∀ j < cfg.dataBytes, beat.2.2.testBit j = false → byteOf cfg.defaultReadValue j = 0

/-- A write beat is a write of its strobed bytes exactly if it is covered. -/
theorem agrees_store_iff (hstore : cfg.storeWrites = true) (h : Agrees cfg memory bytes) {beat : Nat × Nat × Nat}
    (hbeat : cfg.dataBytes ∣ beat.1) :
    Agrees cfg (store cfg memory beat) (writeBytes cfg.dataBytes bytes beat) ↔ Covered cfg memory beat := by
  -- a byte of the word, after the write
  have hword : ∀ j < cfg.dataBytes, byteOf ((store cfg memory beat beat.1).getD cfg.defaultReadValue) j =
      if beat.2.2.testBit j then byteOf beat.2.1 j else byteOf ((memory beat.1).getD 0) j := by
    intro j hj
    unfold store
    rw [if_pos hstore, Function.update_self, Option.getD_some, byteOf_applyWriteStrobes _ _ _ hj]
  have hbytes : ∀ j < cfg.dataBytes, writeBytes cfg.dataBytes bytes beat (beat.1 + j) =
      if beat.2.2.testBit j then byteOf beat.2.1 j else byteOf ((memory beat.1).getD cfg.defaultReadValue) j := by
    intro j hj
    unfold writeBytes
    rw [Nat.add_sub_cancel_left]
    by_cases hs : beat.2.2.testBit j = true
    · rw [if_pos ⟨Nat.le_add_right _ _, Nat.add_lt_add_left hj _, hs⟩, if_pos hs]
    · rw [if_neg fun hc => hs hc.2.2, if_neg hs, h beat.1 hbeat j hj]
  constructor
  · intro hafter
    unfold Covered
    cases hmem : memory beat.1 with
    | some word => exact Or.inl rfl
    | none =>
      refine Or.inr fun j hj hs => ?_
      have heq := hafter beat.1 hbeat j hj
      rw [hword j hj, hbytes j hj, if_neg (by simp [hs]), if_neg (by simp [hs]), hmem, Option.getD_none,
        Option.getD_none, byteOf_zero] at heq
      exact heq.symm
  · intro hcovered addr haddr j hj
    by_cases hsame : addr = beat.1
    · subst hsame
      rw [hword j hj, hbytes j hj]
      by_cases hs : beat.2.2.testBit j = true
      · rw [if_pos hs, if_pos hs]
      · rw [if_neg hs, if_neg hs]
        rcases hcovered with hsome | hzero
        · obtain ⟨word, hword⟩ := Option.isSome_iff_exists.mp hsome
          rw [hword]
          rfl
        · cases hmem : memory beat.1 with
          | some word => rfl
          | none =>
            rw [Option.getD_none, Option.getD_none, byteOf_zero, hzero j hj (Bool.eq_false_of_not_eq_true hs)]
    · have hother : store cfg memory beat addr = memory addr := by
        unfold store
        rw [if_pos hstore, Function.update_of_ne hsame]
      have hout : ¬ (beat.1 ≤ addr + j ∧ addr + j < beat.1 + cfg.dataBytes ∧
          beat.2.2.testBit (addr + j - beat.1) = true) := fun hc =>
        hsame (aligned_eq hbeat haddr hc.1 hc.2.1 hj)
      unfold writeBytes
      rw [hother, if_neg hout]
      exact h addr haddr j hj

/-- A beat of a read is made of the bytes from its address on. -/
theorem byteOf_readBeat (h : Agrees cfg memory bytes) {burst : Burst} {i j : Nat}
    (haddr : cfg.dataBytes ∣ burst.beatAddr i) (hj : j < cfg.dataBytes) :
    byteOf (readBeat cfg memory burst i).1 j = bytes (burst.beatAddr i + j) := by
  unfold readBeat
  rw [byteOf_mask hj]
  exact h _ haddr j hj

end Memory

end Veriforge.Axi4

import Veriforge.Dsl.Module
import Veriforge.Ring

/-! # The synchronous FIFO

`sync_fifo` of `dsl/lib/fifo.py`: a ring of words between a write and a read pointer, each of which has one bit more
than an address, so that a full ring can be told from an empty one. -/

namespace Veriforge.Dsl

open Value Exec Literal

/-- `sig[addr_width - 1 : 0]` -/
def addressOf (name : String) (addrWidth : Nat) : Expr :=
  .rangeSelect (sig name) (int ((addrWidth : Int) - 1)) (int 0)

/-- `m.assign(full, …)` -/
def fifoFull (addrWidth : Nat) : Expr :=
  .binary .bitAnd
    (.binary .ne (.bitSelect (sig "wr_ptr") (int addrWidth)) (.bitSelect (sig "rd_ptr") (int addrWidth)))
    (.binary .eq (addressOf "wr_ptr" addrWidth) (addressOf "rd_ptr" addrWidth))

/-- The body of `with m.always(posedge(clk))`. -/
def fifoProcess (addrWidth : Nat) : Block Expr :=
  .ofList [
    .if_ (sig "rst") (.ofList [
      .assign false (sig "wr_ptr") (int 0),
      .assign false (sig "rd_ptr") (int 0)]),
    .else_ (.ofList [
      .if_ (.binary .bitAnd (sig "wr_en") (.unary .bitNot (sig "full"))) (.ofList [
        .assign false (.bitSelect (sig "mem") (addressOf "wr_ptr" addrWidth)) (sig "din"),
        .assign false (sig "wr_ptr") (.binary .add (sig "wr_ptr") (int 1))]),
      .if_ (.binary .bitAnd (sig "rd_en") (.unary .bitNot (sig "empty"))) (.ofList [
        .assign false (sig "dout") (.bitSelect (sig "mem") (addressOf "rd_ptr" addrWidth)),
        .assign false (sig "rd_ptr") (.binary .add (sig "rd_ptr") (int 1))])])]

/-- `sync_fifo` -/
def syncFifo (dataWidth depth : Nat) : Except String Module :=
  if depth < 2 ∨ depth &&& (depth - 1) ≠ 0 then
    .error s!"FIFO depth must be a power of 2 (>= 2), got {depth}"
  else do
    let addrWidth := bitLength (depth - 1)
    let ptrWidth := addrWidth + 1
    let process ← always (fifoProcess addrWidth)
    .ok {
      vectors := [("clk", 1), ("rst", 1), ("wr_en", 1), ("rd_en", 1), ("din", dataWidth), ("dout", dataWidth),
        ("full", 1), ("empty", 1), ("count", ptrWidth), ("wr_ptr", ptrWidth), ("rd_ptr", ptrWidth)]
      memories := [("mem", dataWidth, depth)]
      assigns := [⟨sig "full", fifoFull addrWidth⟩, ⟨sig "empty", .binary .eq (sig "wr_ptr") (sig "rd_ptr")⟩,
        ⟨sig "count", .binary .sub (sig "wr_ptr") (sig "rd_ptr")⟩]
      processes := process.toList.map Statement.toStmt }

/-! ## What is built -/

section

variable (dataWidth addrWidth : Nat)

/-- The statement of the block. -/
def fifoStmt : Stmt :=
  .ifStatement (sig "rst")
    (some (.seqBlock none [.nonblockingAssign ⟨sig "wr_ptr", int 0⟩, .nonblockingAssign ⟨sig "rd_ptr", int 0⟩]))
    (some (.seqBlock none [
      .ifStatement (.binary .bitAnd (sig "wr_en") (.unary .bitNot (sig "full")))
        (some (.seqBlock none [
          .nonblockingAssign ⟨.bitSelect (sig "mem") (addressOf "wr_ptr" addrWidth), sig "din"⟩,
          .nonblockingAssign ⟨sig "wr_ptr", .binary .add (sig "wr_ptr") (int 1)⟩])) none,
      .ifStatement (.binary .bitAnd (sig "rd_en") (.unary .bitNot (sig "empty")))
        (some (.seqBlock none [
          .nonblockingAssign ⟨sig "dout", .bitSelect (sig "mem") (addressOf "rd_ptr" addrWidth)⟩,
          .nonblockingAssign ⟨sig "rd_ptr", .binary .add (sig "rd_ptr") (int 1)⟩])) none]))

/-- The module with `2 ^ addrWidth` words. -/
def fifo : Module where
  vectors := [("clk", 1), ("rst", 1), ("wr_en", 1), ("rd_en", 1), ("din", dataWidth), ("dout", dataWidth),
    ("full", 1), ("empty", 1), ("count", addrWidth + 1), ("wr_ptr", addrWidth + 1), ("rd_ptr", addrWidth + 1)]
  memories := [("mem", dataWidth, 2 ^ addrWidth)]
  assigns := [⟨sig "full", fifoFull addrWidth⟩, ⟨sig "empty", .binary .eq (sig "wr_ptr") (sig "rd_ptr")⟩,
    ⟨sig "count", .binary .sub (sig "wr_ptr") (sig "rd_ptr")⟩]
  processes := [fifoStmt addrWidth]

theorem always_fifoProcess :
    ∃ statement, always (fifoProcess addrWidth) = .ok (some statement) ∧ statement.toStmt = fifoStmt addrWidth :=
  ⟨_, rfl, rfl⟩

theorem bitLength_two_pow_sub_one : bitLength (2 ^ addrWidth - 1) = addrWidth := by
  rw [bitLength]
  cases addrWidth with
  | zero => rfl
  | succ n =>
    have hpos : 0 < 2 ^ n := by positivity
    have hne : 2 ^ (n + 1) - 1 ≠ 0 := by
      rw [pow_succ]
      omega
    have hlog : Nat.log2 (2 ^ (n + 1) - 1) = n := (Nat.log2_eq_iff hne).mpr ⟨by rw [pow_succ]; omega, by omega⟩
    rw [if_neg hne, hlog]

/-- The depths that are powers of two from 2 on are taken. -/
theorem syncFifo_eq (h : 1 ≤ addrWidth) : syncFifo dataWidth (2 ^ addrWidth) = .ok (fifo dataWidth addrWidth) := by
  have hge : 2 ≤ 2 ^ addrWidth := by
    have hle := Nat.pow_le_pow_right (n := 2) (by norm_num) h
    simpa using hle
  have hand : 2 ^ addrWidth &&& (2 ^ addrWidth - 1) = 0 := by
    rw [Nat.and_two_pow_sub_one_eq_mod, Nat.mod_self]
  obtain ⟨statement, hprocess, hstmt⟩ := always_fifoProcess addrWidth
  rw [syncFifo, if_neg (by omega), bitLength_two_pow_sub_one]
  show (always (fifoProcess addrWidth) >>= _) = _
  rw [hprocess]
  show Except.ok _ = _
  rw [Option.toList_some, List.map_singleton, hstmt]
  rfl

end

/-! ## The flags -/

/-- What the assignments drive for two pointers. -/
def fifoFlags (addrWidth : Nat) (wr rd : Value) : List (String × Value) :=
  [("full", ((wr.getBit addrWidth).ne (rd.getBit addrWidth)).and ((wr.resize addrWidth).eq (rd.resize addrWidth))),
    ("empty", wr.eq rd), ("count", wr.sub rd)]

@[simp] theorem eq_width (a b : Value) : (a.eq b).width = 1 := by
  rw [Value.eq]
  split
  · rfl
  · split <;> rfl

@[simp] theorem ne_width (a b : Value) : (a.ne b).width = 1 := by
  rw [Value.ne]
  split
  · rfl
  · split <;> rfl

section

variable {dataWidth addrWidth : Nat} (st : Store (fifo dataWidth addrWidth).table)

theorem gives_pointer {name : String} (h : name = "wr_ptr" ∨ name = "rd_ptr") :
    Gives st (sig name) (addrWidth + 1) fun W => (st.signal name).resize W := by
  rcases h with rfl | rfl
  · exact gives_ident st rfl rfl
  · exact gives_ident st rfl rfl

theorem pointer_width {name : String} (h : name = "wr_ptr" ∨ name = "rd_ptr") :
    (st.signal name).width = addrWidth + 1 := by
  rcases h with rfl | rfl
  · exact st.signal_width _ _ rfl
  · exact st.signal_width _ _ rfl

/-- The slot that a pointer stands at. -/
theorem gives_address (haddr : 1 ≤ addrWidth) {name : String} (h : name = "wr_ptr" ∨ name = "rd_ptr") :
    Gives st (addressOf name addrWidth) addrWidth fun W => ((st.signal name).resize addrWidth).resize W := by
  rcases h with rfl | rfl
  · exact gives_low st rfl rfl rfl haddr (Nat.le_succ _)
  · exact gives_low st rfl rfl rfl haddr (Nat.le_succ _)

/-- The bit above the slot's. -/
theorem gives_top {name : String} (h : name = "wr_ptr" ∨ name = "rd_ptr") :
    Gives st (.bitSelect (sig name) (int addrWidth)) 1 fun W => ((st.signal name).getBit addrWidth).resize W := by
  rcases h with rfl | rfl
  · exact gives_bitSelect st rfl rfl rfl rfl (Int.natCast_nonneg _)
  · exact gives_bitSelect st rfl rfl rfl rfl (Int.natCast_nonneg _)

theorem gives_full (haddr : 1 ≤ addrWidth) : Gives st (fifoFull addrWidth) 1 fun W =>
      (((st.signal "wr_ptr").getBit addrWidth).ne ((st.signal "rd_ptr").getBit addrWidth)).resize W |>.and
        ((((st.signal "wr_ptr").resize addrWidth).eq ((st.signal "rd_ptr").resize addrWidth)).resize W) := by
  have hbits := gives_comparison (gives_top st (.inl rfl)) (gives_top st (.inr rfl)) rfl .ne (.inr rfl) rfl
    (ne_width _ _)
  have hslots := gives_comparison (gives_address st haddr (.inl rfl)) (gives_address st haddr (.inr rfl)) rfl .eq
    (.inl rfl) rfl (eq_width _ _)
  have h := gives_and hbits hslots rfl
  rw [fifoFull]
  simpa only [max_self, resize_of_width (getBit_width _ _), resize_of_width (resize_width _ _)] using h

theorem gives_empty : Gives st (.binary .eq (sig "wr_ptr") (sig "rd_ptr")) 1 fun W =>
    ((st.signal "wr_ptr").eq (st.signal "rd_ptr")).resize W := by
  have h := gives_comparison (gives_pointer st (.inl rfl)) (gives_pointer st (.inr rfl)) rfl .eq (.inl rfl) rfl
    (eq_width _ _)
  simpa only [max_self, resize_of_width (pointer_width st (.inl rfl)),
    resize_of_width (pointer_width st (.inr rfl))] using h

theorem gives_count : Gives st (.binary .sub (sig "wr_ptr") (sig "rd_ptr")) (addrWidth + 1) fun W =>
    ((st.signal "wr_ptr").resize W).sub ((st.signal "rd_ptr").resize W) := by
  have h := gives_arithmetic (gives_pointer st (.inl rfl)) (gives_pointer st (.inr rfl)) rfl .sub rfl rfl
    fun a b hab => by rw [sub_width, hab, max_self]
  simpa only [max_self] using h

variable (dataWidth) in
theorem fifoFlags_width {wr rd : Value} (hwr : wr.width = addrWidth + 1) (hrd : rd.width = addrWidth + 1) :
    ∀ write ∈ fifoFlags addrWidth wr rd, (fifo dataWidth addrWidth).table.width write.1 = some write.2.width := by
  intro write hwrite
  simp only [fifoFlags, List.mem_cons, List.not_mem_nil, or_false] at hwrite
  rcases hwrite with rfl | rfl | rfl
  · simp only [and_width, ne_width, eq_width, max_self]
    rfl
  · simp only [eq_width]
    rfl
  · simp only [sub_width, hwr, hrd, max_self]
    rfl

theorem fifoFlags_nodup (wr rd : Value) : ((fifoFlags addrWidth wr rd).map Prod.fst).Nodup :=
  show ["full", "empty", "count"].Nodup by decide

/-- The assignments drive the flags of the pointers. -/
theorem drives_fifo (haddr : 1 ≤ addrWidth) : List.Forall₂ (Drives st ["full", "empty", "count"])
    (fifo dataWidth addrWidth).assigns (fifoFlags addrWidth (st.signal "wr_ptr") (st.signal "rd_ptr")) := by
  have hwidth := fifoFlags_width dataWidth (pointer_width st (.inl rfl)) (pointer_width st (.inr rfl))
  simp only [fifoFlags, List.forall_mem_cons] at hwidth
  refine .cons ⟨rfl, hwidth.1, rfl, ?_⟩ (.cons ⟨rfl, hwidth.2.1, rfl, ?_⟩ (.cons ⟨rfl, hwidth.2.2.1, rfl, ?_⟩ .nil))
  · intro st' hst _
    have h := (gives_full st' haddr).eval_of_le (w := 1) le_rfl
    rw [hst "wr_ptr" (by decide), hst "rd_ptr" (by decide), resize_of_width (ne_width _ _),
      resize_of_width (eq_width _ _)] at h
    simpa only [and_width, ne_width, eq_width, max_self] using h
  · intro st' hst _
    have h := (gives_empty st').eval_of_le (w := 1) le_rfl
    rw [hst "wr_ptr" (by decide), hst "rd_ptr" (by decide), resize_of_width (eq_width _ _)] at h
    simpa only [eq_width] using h
  · intro st' hst _
    have h := (gives_count st').eval_of_le (w := addrWidth + 1) le_rfl
    rw [hst "wr_ptr" (by decide), hst "rd_ptr" (by decide), resize_of_width (pointer_width st (.inl rfl)),
      resize_of_width (pointer_width st (.inr rfl))] at h
    simpa only [sub_width, pointer_width st (.inl rfl), pointer_width st (.inr rfl), max_self] using h

theorem settle_fifo (haddr : 1 ≤ addrWidth) :
    (fifo dataWidth addrWidth).circuit.executor.settle (fifo dataWidth addrWidth).assigns Circuit.deltaLimit
        ⟨st, [], ()⟩ =
      (.ok (), ⟨st.setSignals (fifoFlags addrWidth (st.signal "wr_ptr") (st.signal "rd_ptr")), [], ()⟩) := by
  exact settle_of_drives _ (drives_fifo st haddr) (fifoFlags_nodup _ _)
    (fifoFlags_width dataWidth (pointer_width st (.inl rfl)) (pointer_width st (.inr rfl))) [] () 9998

end

/-! ## Known pointers -/

theorem getBit_ofInt (n k : Nat) : (ofInt n (k + 1)).getBit k = ofInt (n / 2 ^ k % 2 : Nat) 1 := by
  have hval : (n % 2 ^ (k + 1)) >>> k &&& 1 = n / 2 ^ k % 2 := by
    rw [Nat.shiftRight_eq_div_pow, Nat.and_one_is_mod, pow_succ, Nat.mod_mul_right_div_self, Nat.mod_mod]
  rw [getBit, if_neg (by simp), Int.toNat_natCast, ofInt_natCast_val, ofInt_mask, hval, Nat.zero_shiftRight,
    Nat.zero_and]

theorem ofInt_natCast_mod (n w : Nat) : ofInt n w = ofInt (n % 2 ^ w : Nat) w :=
  ofInt_congr (by push_cast; rw [Int.emod_emod_of_dvd _ (dvd_refl _)])

/-- Integers below the range of the width are compared exactly. -/
theorem eq_ofInt_mod (a b w : Nat) : (ofInt a w).eq (ofInt b w) = ofBool (a % 2 ^ w = b % 2 ^ w) := by
  have hlt : ∀ n : Nat, ((n % 2 ^ w : Nat) : Int) < 2 ^ w := fun n => by
    exact_mod_cast Nat.mod_lt n (Nat.two_pow_pos w)
  rw [ofInt_natCast_mod a, ofInt_natCast_mod b, eq_ofInt]
  · simp only [Int.natCast_inj]
  · exact abs_sub_lt_of_nonneg_of_lt (Int.natCast_nonneg _) (hlt a) (Int.natCast_nonneg _) (hlt b)

theorem ofBool_and (p q : Bool) : (ofBool p).and (ofBool q) = ofBool (p && q) := by
  cases p <;> cases q <;> rfl

/-- The flags of pointers that have come to `r` and `w`. -/
theorem fifoFlags_ofInt {addrWidth r w : Nat} (hle : r ≤ w) (hmax : w - r ≤ 2 ^ addrWidth) :
    fifoFlags addrWidth (ofInt w (addrWidth + 1)) (ofInt r (addrWidth + 1)) =
      [("full", ofBool (w - r = 2 ^ addrWidth)), ("empty", ofBool (w = r)),
        ("count", ofInt (w - r : Nat) (addrWidth + 1))] := by
  have hpos : 0 < 2 ^ addrWidth := by positivity
  have hfull := Ring.full_iff hle hmax hpos
  have hempty := Ring.empty_iff hle hmax hpos
  have hbits : ((ofInt (w / 2 ^ addrWidth % 2 : Nat) 1).ne (ofInt (r / 2 ^ addrWidth % 2 : Nat) 1)) =
      ofBool (w / 2 ^ addrWidth % 2 ≠ r / 2 ^ addrWidth % 2) := by
    rw [ne_ofInt]
    · simp only [ne_eq, Int.natCast_inj]
    · rw [abs_lt]
      constructor
      · omega
      · omega
  rw [fifoFlags, getBit_ofInt, getBit_ofInt, hbits, ofInt_resize _ (Nat.le_succ _), ofInt_resize _ (Nat.le_succ _),
    eq_ofInt_mod, eq_ofInt_mod, ofBool_and, sub_ofInt, ← Int.ofNat_sub hle, ← Bool.decide_and]
  rw [pow_succ, Nat.mul_comm _ 2]
  simp only [hfull, hempty]

/-! ## A cycle -/

/-- What is driven before a rising edge of the clock. -/
structure FifoCycle where
  rst : Bool
  wrEn : Bool
  rdEn : Bool
  din : Nat

/-- The inputs of the module. -/
def FifoCycle.inputs (dataWidth : Nat) (c : FifoCycle) : List (String × Value) :=
  [("rst", ofBool c.rst), ("wr_en", ofBool c.wrEn), ("rd_en", ofBool c.rdEn), ("din", ofInt c.din dataWidth)]

section

variable {dataWidth addrWidth : Nat} {s : Store (fifo dataWidth addrWidth).table}

/-- A flag of the module. -/
theorem gives_flag {name : String} (h : (fifo dataWidth addrWidth).table.width name = some 1) :
    Gives s (sig name) 1 fun W => (s.signal name).resize W := gives_ident s h rfl

theorem width_data (hdata : 1 ≤ dataWidth) {name : String} (h : name = "din" ∨ name = "dout") :
    (fifo dataWidth addrWidth).table.width name = some dataWidth := by
  have hmax : some (max 1 dataWidth) = some dataWidth := by rw [max_eq_right hdata]
  rw [← hmax]
  rcases h with rfl | rfl
  · rfl
  · rfl

theorem memory_fifo (hdata : 1 ≤ dataWidth) :
    (fifo dataWidth addrWidth).table.memory "mem" = some (dataWidth, 2 ^ addrWidth) := by
  have hmax : some (max 1 dataWidth, 2 ^ addrWidth) = some (dataWidth, 2 ^ addrWidth) := by rw [max_eq_right hdata]
  rw [← hmax]
  rfl

theorem gives_data (hdata : 1 ≤ dataWidth) {name : String} (h : name = "din" ∨ name = "dout") :
    Gives s (sig name) dataWidth fun W => (s.signal name).resize W := gives_ident s (width_data hdata h) rfl

/-- An enable and the negation of a flag. -/
theorem test_enabled {en flag : String} (hen : (fifo dataWidth addrWidth).table.width en = some 1)
    (hflag : (fifo dataWidth addrWidth).table.width flag = some 1) {p q : Bool} (hp : s.signal en = ofBool p)
    (hq : s.signal flag = ofBool q) (queue : List NbaEntry) (output : Unit) :
    (fifo dataWidth addrWidth).circuit.executor.test (.binary .bitAnd (sig en) (.unary .bitNot (sig flag)))
      ⟨s, queue, output⟩ = (.ok (p && !q), ⟨s, queue, output⟩) := by
  refine test_of_bool _ (gives_and (gives_flag hen) (gives_not (gives_flag hflag)) rfl) ?_ queue output
  simp only [hp, hq]
  cases p <;> cases q <;> rfl

/-- What the block queues in a cycle with `rst`. -/
theorem queues_reset (hrst : s.signal "rst" = ofBool true) :
    Queues s ((fifo dataWidth addrWidth).circuit.executor.executeAll (fifo dataWidth addrWidth).processes)
      [.signal "wr_ptr" (ofInt 0 (addrWidth + 1)), .signal "rd_ptr" (ofInt 0 (addrWidth + 1))] := by
  have htest : ∀ queue output, (fifo dataWidth addrWidth).circuit.executor.test (sig "rst") ⟨s, queue, output⟩ = _ :=
    test_sig _ rfl rfl hrst
  have hwr : Queues s ((fifo dataWidth addrWidth).circuit.executor.execute (.nonblockingAssign ⟨sig "wr_ptr", int 0⟩))
      [.signal "wr_ptr" (ofInt 0 (addrWidth + 1))] := queues_int _ rfl rfl 0
  have hrd : Queues s ((fifo dataWidth addrWidth).circuit.executor.execute (.nonblockingAssign ⟨sig "rd_ptr", int 0⟩))
      [.signal "rd_ptr" (ofInt 0 (addrWidth + 1))] := queues_int _ rfl rfl 0
  exact .executeAll_cons (.ifStatement htest (.body (.seqBlock (.executeAll_cons hwr (.executeAll_cons hrd
    .executeAll_nil))))) .executeAll_nil

/-- The updates of a write. -/
theorem queues_write (hdata : 1 ≤ dataWidth) (haddr : 1 ≤ addrWidth) {w din : Nat}
    (hw : s.signal "wr_ptr" = ofInt w (addrWidth + 1)) (hdin : s.signal "din" = ofInt din dataWidth) :
    Queues s ((fifo dataWidth addrWidth).circuit.executor.execute (.seqBlock none [
        .nonblockingAssign ⟨.bitSelect (sig "mem") (addressOf "wr_ptr" addrWidth), sig "din"⟩,
        .nonblockingAssign ⟨sig "wr_ptr", .binary .add (sig "wr_ptr") (int 1)⟩]))
      [.mem "mem" (w % 2 ^ addrWidth : Nat) (ofInt din dataWidth),
        .signal "wr_ptr" (ofInt (w + 1) (addrWidth + 1))] := by
  have hslot : eval s (addressOf "wr_ptr" addrWidth) 0 none = some (ofInt w addrWidth) := by
    refine (gives_address s haddr (.inl rfl)).own.trans ?_
    rw [hw, ofInt_resize _ (Nat.le_succ _), ofInt_resize _ le_rfl]
  have hvalue : eval s (sig "din") dataWidth none = some (ofInt din dataWidth) := by
    refine ((gives_data hdata (.inl rfl)).eval_of_le le_rfl).trans ?_
    rw [hdin, ofInt_resize _ le_rfl]
  have hmem : Queues s ((fifo dataWidth addrWidth).circuit.executor.execute
      (.nonblockingAssign ⟨.bitSelect (sig "mem") (addressOf "wr_ptr" addrWidth), sig "din"⟩))
      [.mem "mem" (w % 2 ^ addrWidth : Nat) (ofInt din dataWidth)] := by
    have hq := queues_word 100000 (memory_fifo hdata) hslot (by simp [isDefined])
      (by rw [ofInt_natCast_val]; exact Nat.mod_lt _ (by positivity)) hvalue le_rfl
    rwa [ofInt_natCast_val, ofInt_resize _ le_rfl] at hq
  exact .seqBlock (.executeAll_cons hmem (.executeAll_cons (queues_next _ rfl rfl rfl hw) .executeAll_nil))

/-- The updates of a read. -/
theorem queues_read (hdata : 1 ≤ dataWidth) (haddr : 1 ≤ addrWidth) {r : Nat}
    (hr : s.signal "rd_ptr" = ofInt r (addrWidth + 1)) :
    Queues s ((fifo dataWidth addrWidth).circuit.executor.execute (.seqBlock none [
        .nonblockingAssign ⟨sig "dout", .bitSelect (sig "mem") (addressOf "rd_ptr" addrWidth)⟩,
        .nonblockingAssign ⟨sig "rd_ptr", .binary .add (sig "rd_ptr") (int 1)⟩]))
      [.signal "dout" (s.word "mem" (r % 2 ^ addrWidth)), .signal "rd_ptr" (ofInt (r + 1) (addrWidth + 1))] := by
  have hslot : (((s.signal "rd_ptr").resize addrWidth).resize addrWidth) = ofInt r addrWidth := by
    rw [hr, ofInt_resize _ (Nat.le_succ _), ofInt_resize _ le_rfl]
  have hlt : r % 2 ^ addrWidth < 2 ^ addrWidth := Nat.mod_lt _ (by positivity)
  have hgives := gives_word s (memory_fifo hdata) rfl (gives_address s haddr (.inr rfl)) rfl
  rw [hslot, if_pos (by simp [isDefined]), ofInt_natCast_val, Store.readWord,
    if_pos ⟨Int.natCast_nonneg _, by exact_mod_cast hlt⟩, Int.toNat_natCast] at hgives
  have hdout := queues_of_gives 100000 (width_data hdata (.inr rfl)) rfl hgives le_rfl
  rw [resize_of_width (s.word_width _ _ _ _ (memory_fifo hdata))] at hdout
  exact .seqBlock (.executeAll_cons hdout (.executeAll_cons (queues_next _ rfl rfl rfl hr) .executeAll_nil))

/-- What the block queues in a cycle without `rst`. -/
theorem queues_run (hdata : 1 ≤ dataWidth) (haddr : 1 ≤ addrWidth) {w r din : Nat} {wrEn rdEn full empty : Bool}
    (hrst : s.signal "rst" = ofBool false) (hwrEn : s.signal "wr_en" = ofBool wrEn)
    (hrdEn : s.signal "rd_en" = ofBool rdEn) (hdin : s.signal "din" = ofInt din dataWidth)
    (hfull : s.signal "full" = ofBool full) (hempty : s.signal "empty" = ofBool empty)
    (hw : s.signal "wr_ptr" = ofInt w (addrWidth + 1)) (hr : s.signal "rd_ptr" = ofInt r (addrWidth + 1)) :
    Queues s ((fifo dataWidth addrWidth).circuit.executor.executeAll (fifo dataWidth addrWidth).processes)
      ((if wrEn && !full then [.mem "mem" (w % 2 ^ addrWidth : Nat) (ofInt din dataWidth),
          .signal "wr_ptr" (ofInt (w + 1) (addrWidth + 1))] else []) ++
        (if rdEn && !empty then [.signal "dout" (s.word "mem" (r % 2 ^ addrWidth)),
          .signal "rd_ptr" (ofInt (r + 1) (addrWidth + 1))] else [])) := by
  have htest : ∀ queue output, (fifo dataWidth addrWidth).circuit.executor.test (sig "rst") ⟨s, queue, output⟩ = _ :=
    test_sig _ rfl rfl hrst
  have hwrite : Queues s ((fifo dataWidth addrWidth).circuit.executor.executeBody
      (if wrEn && !full then some (.seqBlock none [
        .nonblockingAssign ⟨.bitSelect (sig "mem") (addressOf "wr_ptr" addrWidth), sig "din"⟩,
        .nonblockingAssign ⟨sig "wr_ptr", .binary .add (sig "wr_ptr") (int 1)⟩]) else none)) _ :=
    .ite (.body (queues_write hdata haddr hw hdin)) .noBody
  have hread : Queues s ((fifo dataWidth addrWidth).circuit.executor.executeBody
      (if rdEn && !empty then some (.seqBlock none [
        .nonblockingAssign ⟨sig "dout", .bitSelect (sig "mem") (addressOf "rd_ptr" addrWidth)⟩,
        .nonblockingAssign ⟨sig "rd_ptr", .binary .add (sig "rd_ptr") (int 1)⟩]) else none)) _ :=
    .ite (.body (queues_read hdata haddr hr)) .noBody
  have hboth := Queues.executeAll_cons (.ifStatement (test_enabled rfl rfl hwrEn hfull) hwrite)
    (.executeAll_cons (.ifStatement (test_enabled rfl rfl hrdEn hempty) hread) .executeAll_nil)
  rw [List.append_nil] at hboth
  have hall : Queues s
      ((fifo dataWidth addrWidth).circuit.executor.executeAll (fifo dataWidth addrWidth).processes) _ :=
    .executeAll_cons (.ifStatement htest (.body (.seqBlock hboth))) .executeAll_nil
  rwa [List.append_nil] at hall

end

/-! ## The queue -/

/-- The words that were written and not yet read, the oldest first, and the output. -/
structure FifoQueue where
  words : List Nat
  dout : Value

namespace FifoQueue

variable (q : FifoQueue) (c : FifoCycle) (dataWidth depth : Nat)

def full : Bool := decide (q.words.length = depth)

def empty : Bool := decide (q.words.length = 0)

/-- A write is taken. -/
def writes : Bool := !c.rst && (c.wrEn && !q.full depth)

/-- A read is taken. -/
def reads : Bool := !c.rst && (c.rdEn && !q.empty)

/-- One cycle: `rst` empties the queue, a read takes the oldest word to the output, a write adds a word. -/
def step : FifoQueue where
  words :=
    if c.rst then []
    else (if q.reads c then q.words.tail else q.words) ++ (if q.writes c depth then [c.din] else [])
  dout := if q.reads c then ofInt (q.words.headD 0) dataWidth else q.dout

variable {q c depth}

theorem length_ne_of_writes (h : q.writes c depth = true) : q.words.length ≠ depth := by
  simp only [writes, full, Bool.and_eq_true, Bool.not_eq_true', decide_eq_false_iff_not] at h
  exact h.2.2

theorem length_pos_of_reads (h : q.reads c = true) : 0 < q.words.length := by
  simp only [reads, empty, Bool.and_eq_true, Bool.not_eq_true', decide_eq_false_iff_not] at h
  exact Nat.pos_of_ne_zero h.2.2

end FifoQueue

section

variable {dataWidth addrWidth : Nat}

/-- The pointers have come to the two ends of the queue, whose words are in the slots between them. -/
def Represents (st : Store (fifo dataWidth addrWidth).table) (q : FifoQueue) : Prop :=
  ∃ r w : Nat, r ≤ w ∧ w - r ≤ 2 ^ addrWidth ∧ st.signal "wr_ptr" = ofInt w (addrWidth + 1) ∧
    st.signal "rd_ptr" = ofInt r (addrWidth + 1) ∧
    (q.words.map fun d : Nat => ofInt d dataWidth) = Ring.contents (st.word "mem") (2 ^ addrWidth) r (w - r)

/-- The outputs show the queue. -/
structure Shows (st : Store (fifo dataWidth addrWidth).table) (q : FifoQueue) : Prop where
  count_known : (st.signal "count").isDefined = true
  count : (st.signal "count").val = q.words.length
  bounded : q.words.length ≤ 2 ^ addrWidth
  full : st.signal "full" = ofBool (q.words.length = 2 ^ addrWidth)
  empty : st.signal "empty" = ofBool (q.words.length = 0)
  dout : st.signal "dout" = q.dout

/-- The store once its assignments have settled. -/
def fifoSettled (st : Store (fifo dataWidth addrWidth).table) : Store (fifo dataWidth addrWidth).table :=
  st.setSignals (fifoFlags addrWidth (st.signal "wr_ptr") (st.signal "rd_ptr"))

variable {st : Store (fifo dataWidth addrWidth).table} {q : FifoQueue} {c : FifoCycle}

theorem fifoSettled_signal {n : String} (h : n ∉ ["full", "empty", "count"]) :
    (fifoSettled st).signal n = st.signal n := st.setSignals_signal_of_notMem h

theorem fifoSettled_flag {n : String} {v : Value}
    (h : (n, v) ∈ fifoFlags addrWidth (st.signal "wr_ptr") (st.signal "rd_ptr")) : (fifoSettled st).signal n = v := by
  have hwidth := fifoFlags_width dataWidth (pointer_width st (.inl rfl)) (pointer_width st (.inr rfl)) _ h
  rw [fifoSettled, Store.setSignals_signal_of_mem st (fifoFlags_nodup _ _) h, hwidth, Option.getD_some, resize_self]

/-- The flags of pointers that have come to `r` and `w`. -/
theorem fifoSettled_flags {r w : Nat} (hle : r ≤ w) (hmax : w - r ≤ 2 ^ addrWidth)
    (hwr : st.signal "wr_ptr" = ofInt w (addrWidth + 1)) (hrd : st.signal "rd_ptr" = ofInt r (addrWidth + 1)) :
    (fifoSettled st).signal "full" = ofBool (w - r = 2 ^ addrWidth) ∧
      (fifoSettled st).signal "empty" = ofBool (w = r) ∧
      (fifoSettled st).signal "count" = ofInt (w - r : Nat) (addrWidth + 1) := by
  have hflag : ∀ n v, (n, v) ∈ [("full", ofBool (w - r = 2 ^ addrWidth)), ("empty", ofBool (w = r)),
      ("count", ofInt (w - r : Nat) (addrWidth + 1))] → (fifoSettled st).signal n = v := by
    intro n v hmem
    apply fifoSettled_flag
    rwa [hwr, hrd, fifoFlags_ofInt hle hmax]
  exact ⟨hflag _ _ (by simp), hflag _ _ (by simp), hflag _ _ (by simp)⟩

/-- There are as many words as there are between the pointers. -/
theorem length_eq {mem : Nat → Value} {r n depth : Nat}
    (hwords : (q.words.map fun d : Nat => ofInt d dataWidth) = Ring.contents mem depth r n) : q.words.length = n := by
  have h := congrArg List.length hwords
  rwa [List.length_map, Ring.contents_length] at h

/-- A settled store shows the queue it represents. -/
theorem shows_of_represents (h : Represents st q) (hdout : st.signal "dout" = q.dout) : Shows (fifoSettled st) q := by
  obtain ⟨r, w, hle, hmax, hwr, hrd, hwords⟩ := h
  have hlength := length_eq hwords
  obtain ⟨hfull, hempty, hcount⟩ := fifoSettled_flags hle hmax hwr hrd
  have hlt : w - r < 2 ^ (addrWidth + 1) := by
    have hpos : 0 < 2 ^ addrWidth := by positivity
    rw [pow_succ]
    omega
  refine ⟨?_, ?_, by omega, ?_, ?_, ?_⟩
  · rw [hcount]
    simp [isDefined]
  · rw [hcount, ofInt_natCast_val, Nat.mod_eq_of_lt hlt, hlength]
  · rw [hfull, hlength]
  · rw [hempty, hlength]
    congr 1
    rw [decide_eq_decide]
    omega
  · rw [fifoSettled_signal (by decide), hdout]

/-! ## What a cycle does -/

/-- The store in which the block is run. -/
def fifoDriven (st : Store (fifo dataWidth addrWidth).table) (c : FifoCycle) : Store (fifo dataWidth addrWidth).table :=
  fifoSettled (st.setSignals (c.inputs dataWidth))

theorem fifoDriven_signal {n : String} (h : n ∉ ["rst", "wr_en", "rd_en", "din", "full", "empty", "count"]) :
    (fifoDriven st c).signal n = st.signal n := by
  simp only [List.mem_cons, List.not_mem_nil, or_false, not_or] at h
  rw [fifoDriven, fifoSettled_signal (by simp [h])]
  apply Store.setSignals_signal_of_notMem
  show n ∉ ["rst", "wr_en", "rd_en", "din"]
  simp [h]

theorem fifoDriven_input (hdata : 1 ≤ dataWidth) {n : String} {v : Value} (h : (n, v) ∈ c.inputs dataWidth) :
    (fifoDriven st c).signal n = v := by
  have hnodup : ((c.inputs dataWidth).map Prod.fst).Nodup := show ["rst", "wr_en", "rd_en", "din"].Nodup by decide
  have hname : n ∈ (c.inputs dataWidth).map Prod.fst := List.mem_map_of_mem h
  have hwidth : (fifo dataWidth addrWidth).table.width n = some v.width := by
    simp only [FifoCycle.inputs, List.mem_cons, Prod.mk.injEq, List.not_mem_nil, or_false] at h
    rcases h with ⟨rfl, rfl⟩ | ⟨rfl, rfl⟩ | ⟨rfl, rfl⟩ | ⟨rfl, rfl⟩
    · rfl
    · rfl
    · rfl
    · exact width_data hdata (.inl rfl)
  have hout : n ∉ ["full", "empty", "count"] := by
    simp only [FifoCycle.inputs, List.map_cons, List.map_nil, List.mem_cons, List.not_mem_nil, or_false] at hname
    rcases hname with rfl | rfl | rfl | rfl <;> decide
  rw [fifoDriven, fifoSettled_signal hout, Store.setSignals_signal_of_mem st hnodup h, hwidth, Option.getD_some,
    resize_self]

theorem fifoDriven_word (n : String) : (fifoDriven st c).word n = st.word n := by
  rw [fifoDriven, fifoSettled, Store.setSignals_word, Store.setSignals_word]

/-- A cycle whose block queues the entries. -/
theorem cycle_fifo (haddr : 1 ≤ addrWidth) {entries : List NbaEntry}
    (h : Queues (fifoDriven st c)
      ((fifo dataWidth addrWidth).circuit.executor.executeAll (fifo dataWidth addrWidth).processes) entries) :
    (fifo dataWidth addrWidth).circuit.cycle st (c.inputs dataWidth) =
      .ok (fifoSettled (applyNba entries (fifoDriven st c))) :=
  Circuit.cycle_eq _ (settle_fifo _ haddr) h (settle_fifo _ haddr)

/-- The updates of a write. -/
theorem applyNba_write (hdata : 1 ≤ dataWidth) {s : Store (fifo dataWidth addrWidth).table} {w : Nat}
    (hw : s.signal "wr_ptr" = ofInt w (addrWidth + 1)) (din : Nat) (writes : Bool)
    (s' : Store (fifo dataWidth addrWidth).table)
    (hs' : s' = applyNba (if writes then [.mem "mem" (w % 2 ^ addrWidth : Nat) (ofInt din dataWidth),
      .signal "wr_ptr" (ofInt (w + 1) (addrWidth + 1))] else []) s) :
    s'.signal "wr_ptr" = ofInt (if writes then w + 1 else w : Nat) (addrWidth + 1) ∧
      (∀ n, n ≠ "wr_ptr" → s'.signal n = s.signal n) ∧
      s'.word "mem" = if writes then Function.update (s.word "mem") (w % 2 ^ addrWidth) (ofInt din dataWidth)
        else s.word "mem" := by
  have hlt : w % 2 ^ addrWidth < 2 ^ addrWidth := Nat.mod_lt _ (by positivity)
  cases writes with
  | false =>
    subst hs'
    exact ⟨hw, fun _ _ => rfl, rfl⟩
  | true =>
    have hmem : s' = (s.setWord "mem" (w % 2 ^ addrWidth) (ofInt din dataWidth)).setSignal "wr_ptr"
        (ofInt (w + 1) (addrWidth + 1)) := by
      rw [hs', if_pos rfl, applyNba_cons, applyNba_cons, applyNba_nil]
      simp only [NbaEntry.apply, memory_fifo hdata]
      rw [if_pos ⟨Int.natCast_nonneg _, by exact_mod_cast hlt⟩, Int.toNat_natCast]
    refine ⟨?_, fun n hn => ?_, ?_⟩
    · rw [hmem, Store.setSignal_signal_self]
      exact ofInt_resize _ le_rfl
    · rw [hmem, Store.setSignal_signal_of_ne _ _ _ hn, Store.setWord_signal]
    · have hword := Store.setWord_word s "mem" (ofInt din dataWidth) (memory_fifo hdata) (w % 2 ^ addrWidth)
      rw [ofInt_resize _ le_rfl] at hword
      rw [hmem, if_pos rfl]
      exact hword

/-- The updates of a read. -/
theorem applyNba_read (hdata : 1 ≤ dataWidth) {s : Store (fifo dataWidth addrWidth).table} {r : Nat} {v : Value}
    (hr : s.signal "rd_ptr" = ofInt r (addrWidth + 1)) (hv : v.width = dataWidth) (reads : Bool)
    (s' : Store (fifo dataWidth addrWidth).table)
    (hs' : s' = applyNba
      (if reads then [.signal "dout" v, .signal "rd_ptr" (ofInt (r + 1) (addrWidth + 1))] else []) s) :
    s'.signal "rd_ptr" = ofInt (if reads then r + 1 else r : Nat) (addrWidth + 1) ∧
      s'.signal "dout" = (if reads then v else s.signal "dout") ∧
      (∀ n, n ≠ "rd_ptr" → n ≠ "dout" → s'.signal n = s.signal n) ∧ s'.word "mem" = s.word "mem" := by
  cases reads with
  | false =>
    subst hs'
    exact ⟨hr, rfl, fun _ _ _ => rfl, rfl⟩
  | true =>
    have hread : s' = (s.setSignal "dout" v).setSignal "rd_ptr" (ofInt (r + 1) (addrWidth + 1)) := by
      rw [hs', if_pos rfl]
      rfl
    refine ⟨?_, ?_, fun n hn hn' => ?_, ?_⟩
    · rw [hread, Store.setSignal_signal_self]
      exact ofInt_resize _ le_rfl
    · rw [hread, Store.setSignal_signal_of_ne _ _ _ (by decide), Store.setSignal_signal_self,
        width_data hdata (.inr rfl), Option.getD_some, if_pos rfl, ← hv, resize_self]
    · rw [hread, Store.setSignal_signal_of_ne _ _ _ hn, Store.setSignal_signal_of_ne _ _ _ hn']
    · rw [hread]
      rfl

/-- The words that a cycle without `rst` leaves. -/
theorem words_step (hrst : c.rst = false) {mem : Nat → Value} {r w depth : Nat} (hle : r ≤ w) (hmax : w - r ≤ depth)
    (hwords : (q.words.map fun d : Nat => ofInt d dataWidth) = Ring.contents mem depth r (w - r)) :
    ((q.step c dataWidth depth).words.map fun d : Nat => ofInt d dataWidth) = Ring.contents
        (if q.writes c depth then Function.update mem (w % depth) (ofInt c.din dataWidth) else mem) depth
        (if q.reads c then r + 1 else r)
        ((if q.writes c depth then w + 1 else w) - (if q.reads c then r + 1 else r)) := by
  have hlength := length_eq hwords
  have hwrite : q.writes c depth = true → w - r < depth := fun h => by
    have hnotFull := FifoQueue.length_ne_of_writes h
    omega
  have hread : q.reads c = true → r < w := fun h => by
    have hnotEmpty := FifoQueue.length_pos_of_reads h
    omega
  rw [Ring.contents_step mem _ hle hwrite hread, ← hwords, FifoQueue.step]
  simp only [hrst, Bool.false_eq_true, if_false, List.map_append, apply_ite (List.map _), List.map_tail, List.map_cons,
    List.map_nil]

/-- What is read is the oldest word. -/
theorem head_eq {mem : Nat → Value} {r w depth : Nat}
    (hwords : (q.words.map fun d : Nat => ofInt d dataWidth) = Ring.contents mem depth r (w - r)) (hlt : r < w) :
    ofInt (q.words.headD 0) dataWidth = mem (r % depth) := by
  have h : (Ring.contents mem depth r (w - r)).head? = _ := Ring.contents_head? mem (by omega)
  rw [← hwords, List.head?_map] at h
  obtain ⟨d, hd, hv⟩ := Option.map_eq_some_iff.mp h
  rw [List.headD_eq_head?_getD, hd, Option.getD_some]
  exact hv

/-- One cycle without `rst`, from a store that represents a queue. -/
theorem cycle_run (hdata : 1 ≤ dataWidth) (haddr : 1 ≤ addrWidth) (hrst : c.rst = false) (h : Represents st q)
    (hdout : st.signal "dout" = q.dout) :
    ∃ st', (fifo dataWidth addrWidth).circuit.cycle st (c.inputs dataWidth) = .ok (fifoSettled st') ∧
      Represents st' (q.step c dataWidth (2 ^ addrWidth)) ∧
      st'.signal "dout" = (q.step c dataWidth (2 ^ addrWidth)).dout := by
  obtain ⟨r, w, hle, hmax, hwr, hrd, hwords⟩ := h
  have hlength := length_eq hwords
  have hwr' : (st.setSignals (c.inputs dataWidth)).signal "wr_ptr" = ofInt w (addrWidth + 1) := by
    rw [← hwr]
    exact st.setSignals_signal_of_notMem (show "wr_ptr" ∉ ["rst", "wr_en", "rd_en", "din"] by decide)
  have hrd' : (st.setSignals (c.inputs dataWidth)).signal "rd_ptr" = ofInt r (addrWidth + 1) := by
    rw [← hrd]
    exact st.setSignals_signal_of_notMem (show "rd_ptr" ∉ ["rst", "wr_en", "rd_en", "din"] by decide)
  obtain ⟨hfull, hempty, -⟩ := fifoSettled_flags hle hmax hwr' hrd'
  have hwrS : (fifoDriven st c).signal "wr_ptr" = ofInt w (addrWidth + 1) := by
    rw [fifoDriven_signal (by decide), hwr]
  have hrdS : (fifoDriven st c).signal "rd_ptr" = ofInt r (addrWidth + 1) := by
    rw [fifoDriven_signal (by decide), hrd]
  have hrstS : (fifoDriven st c).signal "rst" = ofBool false := by
    rw [← hrst]
    exact fifoDriven_input hdata (by simp [FifoCycle.inputs])
  have hwrEnS : (fifoDriven st c).signal "wr_en" = ofBool c.wrEn :=
    fifoDriven_input hdata (by simp [FifoCycle.inputs])
  have hrdEnS : (fifoDriven st c).signal "rd_en" = ofBool c.rdEn :=
    fifoDriven_input hdata (by simp [FifoCycle.inputs])
  have hdinS : (fifoDriven st c).signal "din" = ofInt c.din dataWidth :=
    fifoDriven_input hdata (by simp [FifoCycle.inputs])
  have hqueues := queues_run hdata haddr hrstS hwrEnS hrdEnS hdinS hfull hempty hwrS hrdS
  -- the flags decide as the queue does
  have hwrites : (c.wrEn && !decide (w - r = 2 ^ addrWidth)) = q.writes c (2 ^ addrWidth) := by
    rw [FifoQueue.writes, FifoQueue.full, hrst, hlength]
    rfl
  have hreads : (c.rdEn && !decide (w = r)) = q.reads c := by
    have hiff : decide (w = r) = decide (w - r = 0) := by
      rw [decide_eq_decide]
      omega
    rw [FifoQueue.reads, FifoQueue.empty, hrst, hlength, hiff]
    rfl
  rw [hwrites, hreads] at hqueues
  refine ⟨_, cycle_fifo haddr hqueues, ?_⟩
  rw [applyNba_append]
  obtain ⟨hwr₁, hother₁, hword₁⟩ := applyNba_write hdata hwrS c.din (q.writes c (2 ^ addrWidth)) _ rfl
  have hword : ((fifoDriven st c).word "mem" (r % 2 ^ addrWidth)).width = dataWidth :=
    (fifoDriven st c).word_width _ _ _ _ (memory_fifo hdata)
  obtain ⟨hrd₂, hdout₂, hother₂, hword₂⟩ := applyNba_read hdata ((hother₁ "rd_ptr" (by decide)).trans hrdS) hword
    (q.reads c) _ rfl
  rw [fifoDriven_word] at hword₁
  have hwrite : q.writes c (2 ^ addrWidth) = true → w - r ≠ 2 ^ addrWidth := fun h =>
    hlength ▸ FifoQueue.length_ne_of_writes h
  have hread : q.reads c = true → r < w := fun h => by
    have hnotEmpty := FifoQueue.length_pos_of_reads h
    omega
  refine ⟨⟨if q.reads c then r + 1 else r, if q.writes c (2 ^ addrWidth) then w + 1 else w, ?_, ?_, ?_, hrd₂, ?_⟩, ?_⟩
  · split <;> split <;> grind
  · split <;> split <;> grind
  · rw [hother₂ _ (by decide) (by decide), hwr₁]
  · rw [hword₂, hword₁]
    exact words_step hrst hle hmax hwords
  · rw [hdout₂, hother₁ "dout" (by decide), fifoDriven_signal (by decide), hdout, fifoDriven_word, FifoQueue.step]
    split
    · next h => exact (head_eq hwords (hread h)).symm
    · rfl

/-- One cycle with `rst`, from any store. -/
theorem cycle_reset (hdata : 1 ≤ dataWidth) (haddr : 1 ≤ addrWidth) (hrst : c.rst = true)
    (hdout : st.signal "dout" = q.dout) :
    ∃ st', (fifo dataWidth addrWidth).circuit.cycle st (c.inputs dataWidth) = .ok (fifoSettled st') ∧
      Represents st' (q.step c dataWidth (2 ^ addrWidth)) ∧
      st'.signal "dout" = (q.step c dataWidth (2 ^ addrWidth)).dout := by
  have hrstS : (fifoDriven st c).signal "rst" = ofBool true := by
    rw [← hrst]
    exact fifoDriven_input hdata (by simp [FifoCycle.inputs])
  have hstep : q.step c dataWidth (2 ^ addrWidth) = ⟨[], q.dout⟩ := by
    simp [FifoQueue.step, FifoQueue.reads, hrst]
  rw [hstep]
  refine ⟨_, cycle_fifo haddr (queues_reset hrstS), ⟨0, 0, le_rfl, by simp, ?_, ?_, rfl⟩, ?_⟩
  · show (((fifoDriven st c).setSignal _ _).setSignal _ _).signal "wr_ptr" = _
    rw [Store.setSignal_signal_of_ne _ _ _ (by decide), Store.setSignal_signal_self]
    exact ofInt_resize _ le_rfl
  · show (((fifoDriven st c).setSignal _ _).setSignal _ _).signal "rd_ptr" = _
    rw [Store.setSignal_signal_self]
    exact ofInt_resize _ le_rfl
  · show (((fifoDriven st c).setSignal _ _).setSignal _ _).signal "dout" = _
    rw [Store.setSignal_signal_of_ne _ _ _ (by decide), Store.setSignal_signal_of_ne _ _ _ (by decide),
      fifoDriven_signal (by decide), hdout]

/-- One cycle, from a store that represents a queue or with `rst`. -/
theorem cycle_step (hdata : 1 ≤ dataWidth) (haddr : 1 ≤ addrWidth) (h : c.rst = true ∨ Represents st q)
    (hdout : st.signal "dout" = q.dout) :
    ∃ st', (fifo dataWidth addrWidth).circuit.cycle st (c.inputs dataWidth) = .ok st' ∧
      Represents st' (q.step c dataWidth (2 ^ addrWidth)) ∧ Shows st' (q.step c dataWidth (2 ^ addrWidth)) := by
  have hstep : ∃ st', (fifo dataWidth addrWidth).circuit.cycle st (c.inputs dataWidth) = .ok (fifoSettled st') ∧
      Represents st' (q.step c dataWidth (2 ^ addrWidth)) ∧
      st'.signal "dout" = (q.step c dataWidth (2 ^ addrWidth)).dout := by
    cases hrst : c.rst with
    | true => exact cycle_reset hdata haddr hrst hdout
    | false => exact cycle_run hdata haddr hrst (h.resolve_left (by simp [hrst])) hdout
  obtain ⟨st', hcycle, hrep, hdout'⟩ := hstep
  refine ⟨_, hcycle, ?_, shows_of_represents hrep hdout'⟩
  obtain ⟨r, w, hle, hmax, hwr, hrd, hwords⟩ := hrep
  refine ⟨r, w, hle, hmax, ?_, ?_, ?_⟩
  · rw [fifoSettled_signal (by decide), hwr]
  · rw [fifoSettled_signal (by decide), hrd]
  · rw [fifoSettled, Store.setSignals_word, hwords]

/-- A run from a store that shows and represents a queue. -/
theorem run_step (hdata : 1 ≤ dataWidth) (haddr : 1 ≤ addrWidth) (cycles : List FifoCycle) (hrep : Represents st q)
    (hshows : Shows st q) :
    ∃ st', (fifo dataWidth addrWidth).circuit.run st (cycles.map (FifoCycle.inputs dataWidth)) = .ok st' ∧
      Shows st' (cycles.foldl (fun q c => q.step c dataWidth (2 ^ addrWidth)) q) := by
  induction cycles generalizing st q with
  | nil => exact ⟨st, rfl, hshows⟩
  | cons c rest ih =>
    obtain ⟨st₁, hcycle, hrep₁, hshows₁⟩ := cycle_step hdata haddr (.inr hrep) hshows.dout
    obtain ⟨st', hrun, hshows'⟩ := ih hrep₁ hshows₁
    refine ⟨st', ?_, hshows'⟩
    refine (Circuit.run_cons _ _ _ _).trans ?_
    rw [hcycle]
    exact hrun

end

/-- **The module is a bounded queue.** From any store, after any cycles of which the first has `rst` high, it shows the
queue that the cycles make: the count is the number of words and at most the depth, `full` and `empty` say whether it
is the depth or 0, and the output is the word read last. -/
theorem syncFifo_bounded_queue {dataWidth depth : Nat} (hdata : 1 ≤ dataWidth) (hdepth : ∃ k, 1 ≤ k ∧ depth = 2 ^ k) :
    ∃ m, syncFifo dataWidth depth = .ok m ∧
      ∀ (st : Store m.circuit.table) (first : FifoCycle) (rest : List FifoCycle), first.rst = true →
        ∃ st', m.circuit.run st ((first :: rest).map (FifoCycle.inputs dataWidth)) = .ok st' ∧
          let q := (first :: rest).foldl (fun q c => FifoQueue.step q c dataWidth depth) ⟨[], st.signal "dout"⟩
          (st'.signal "count").isDefined = true ∧ (st'.signal "count").val = q.words.length ∧
            q.words.length ≤ depth ∧ st'.signal "full" = ofBool (q.words.length = depth) ∧
            st'.signal "empty" = ofBool (q.words.length = 0) ∧ st'.signal "dout" = q.dout := by
  obtain ⟨addrWidth, haddr, rfl⟩ := hdepth
  refine ⟨_, syncFifo_eq dataWidth addrWidth haddr, fun st first rest hrst => ?_⟩
  obtain ⟨st₁, hcycle, hrep, hshows⟩ := cycle_step (q := ⟨[], st.signal "dout"⟩) hdata haddr (.inl hrst) rfl
  obtain ⟨st', hrun, h⟩ := run_step hdata haddr rest hrep hshows
  refine ⟨st', ?_, h.count_known, h.count, h.bounded, h.full, h.empty, h.dout⟩
  refine (Circuit.run_cons _ _ _ _).trans ?_
  rw [hcycle]
  exact hrun

theorem syncFifo_bounded_queue_eight_by_four :
    ∃ m, syncFifo 8 4 = .ok m ∧
      ∀ (st : Store m.circuit.table) (first : FifoCycle) (rest : List FifoCycle), first.rst = true →
        ∃ st', m.circuit.run st ((first :: rest).map (FifoCycle.inputs 8)) = .ok st' ∧
          let q := (first :: rest).foldl (fun q c => FifoQueue.step q c 8 4) ⟨[], st.signal "dout"⟩
          (st'.signal "count").isDefined = true ∧ (st'.signal "count").val = q.words.length ∧
            q.words.length ≤ 4 ∧ st'.signal "full" = ofBool (q.words.length = 4) ∧
            st'.signal "empty" = ofBool (q.words.length = 0) ∧ st'.signal "dout" = q.dout :=
  syncFifo_bounded_queue (by decide) ⟨2, by decide, rfl⟩

/-! ## The order of the words -/

/-- What has been written and what has been read since the last reset. -/
structure FifoLog where
  written : List Value
  read : List Value

/-- A cycle as it is seen at the ports: a word is taken while `full` is low, and one is shown where `empty` was. -/
def FifoLog.step (log : FifoLog) (dataWidth : Nat) (c : FifoCycle) (full empty dout : Value) : FifoLog :=
  if c.rst then ⟨[], []⟩
  else
    ⟨log.written ++ (if c.wrEn && full == ofBool false then [ofInt c.din dataWidth] else []),
      log.read ++ (if c.rdEn && empty == ofBool false then [dout] else [])⟩

/-- A run and its log. -/
def runLogged (C : Circuit) (dataWidth : Nat) (cycles : List FifoCycle) (s : Store C.table × FifoLog) :
    Except Exit (Store C.table × FifoLog) :=
  cycles.foldlM (fun s c => (C.cycle s.1 (c.inputs dataWidth)).map fun st =>
    (st, s.2.step dataWidth c (s.1.signal "full") (s.1.signal "empty") (st.signal "dout"))) s

/-- What was written is what was read and what is in the queue. -/
def FifoLog.Keeps (log : FifoLog) (dataWidth : Nat) (q : FifoQueue) : Prop :=
  log.written = log.read ++ q.words.map fun d : Nat => ofInt d dataWidth

theorem ofBool_beq (b : Bool) : (ofBool b == ofBool false) = !b := by cases b <;> rfl

theorem FifoLog.Keeps.step {log : FifoLog} {dataWidth : Nat} {q : FifoQueue} (h : log.Keeps dataWidth q)
    (c : FifoCycle) (depth : Nat) : (log.step dataWidth c (ofBool (q.full depth)) (ofBool q.empty)
      (q.step c dataWidth depth).dout).Keeps dataWidth (q.step c dataWidth depth) := by
  rw [Keeps] at h ⊢
  rw [FifoLog.step, FifoQueue.step, FifoQueue.reads, FifoQueue.writes, ofBool_beq, ofBool_beq]
  cases c.rst with
  | true => rfl
  | false =>
    cases hwords : q.words with
    | nil => simp [h, hwords, FifoQueue.empty, apply_ite]
    | cons d rest => cases c.rdEn && !q.empty <;> simp [h, hwords, apply_ite]

theorem runLogged_step {dataWidth addrWidth : Nat} (hdata : 1 ≤ dataWidth) (haddr : 1 ≤ addrWidth)
    {st : Store (fifo dataWidth addrWidth).table} {q : FifoQueue} (cycles : List FifoCycle) (hrep : Represents st q)
    (hshows : Shows st q) {log : FifoLog} (h : log.Keeps dataWidth q) :
    ∃ s, runLogged (fifo dataWidth addrWidth).circuit dataWidth cycles (st, log) = .ok s ∧
      ∃ q', Shows s.1 q' ∧ s.2.Keeps dataWidth q' := by
  induction cycles generalizing st q log with
  | nil => exact ⟨_, rfl, q, hshows, h⟩
  | cons c rest ih =>
    obtain ⟨st₁, hcycle, hrep₁, hshows₁⟩ := cycle_step (c := c) hdata haddr (.inr hrep) hshows.dout
    have hstep := h.step c (2 ^ addrWidth)
    rw [FifoQueue.full, FifoQueue.empty, ← hshows.full, ← hshows.empty, ← hshows₁.dout] at hstep
    obtain ⟨s, hrun, hs⟩ := ih hrep₁ hshows₁ hstep
    refine ⟨s, ?_, hs⟩
    rw [runLogged, List.foldlM_cons, hcycle]
    exact hrun

/-- **First in, first out.** From any store, after any cycles of which the first has `rst` high, the words that were
written since the last reset are those that were read, in their order, and after them as many as `count` says. -/
theorem syncFifo_order (dataWidth addrWidth : Nat) : ∃ m, syncFifo (dataWidth + 1) (2 ^ (addrWidth + 1)) = .ok m ∧
      ∀ (st : Store m.circuit.table) (first : FifoCycle) (rest : List FifoCycle) (log : FifoLog),
        ∃ s, runLogged m.circuit (dataWidth + 1) ({ first with rst := true } :: rest) (st, log) = .ok s ∧
          ∃ left, s.2.written = s.2.read ++ left ∧ left.length = (s.1.signal "count").val := by
  refine ⟨_, syncFifo_eq _ _ (Nat.succ_pos _), fun st first rest log => ?_⟩
  have hdata := Nat.succ_pos dataWidth
  obtain ⟨st₁, hcycle, hrep, hshows⟩ := cycle_step (q := ⟨[], st.signal "dout"⟩) (c := { first with rst := true }) hdata
    (Nat.succ_pos addrWidth) (.inl rfl) rfl
  obtain ⟨s, hrun, q, hq, hkeeps⟩ := runLogged_step hdata (Nat.succ_pos addrWidth) rest hrep hshows
    (show FifoLog.Keeps ⟨[], []⟩ _ _ from rfl)
  refine ⟨s, ?_, _, hkeeps, by rw [List.length_map, hq.count]⟩
  rw [runLogged, List.foldlM_cons]
  refine Eq.trans ?_ hrun
  rw [hcycle]
  rfl

end Veriforge.Dsl

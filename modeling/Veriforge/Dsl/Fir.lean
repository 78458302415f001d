import Veriforge.Convolution
import Veriforge.Dsl.Module
import Veriforge.Dsl.Nesting

/-! # The FIR filter

`fir_filter` of `dsl/lib/dsp.py`: coefficient registers written by address, and a chain of accumulators in transposed
form, each of which takes the product of the sample and its coefficient and the accumulator after it. -/

namespace Veriforge.Dsl

open Value Exec

/-! ## Names with a number -/

/-- `f"{base}{i}"` -/
def indexed (base : String) (i : Nat) : String := base ++ toString i

/-- The name is the base with decimal digits after it. -/
def isIndexed (base name : String) : Bool :=
  base.toList.isPrefixOf name.toList && (name.toList.drop base.toList.length).all Char.isDigit

theorem toList_indexed (base : String) (i : Nat) : (indexed base i).toList = base.toList ++ Nat.toDigits 10 i := by
  rw [indexed, String.toList_append, Nat.toString_eq_repr, Nat.toList_repr]

theorem isIndexed_indexed (base : String) (i : Nat) : isIndexed base (indexed base i) = true := by
  rw [isIndexed, toList_indexed, List.drop_left, Bool.and_eq_true]
  exact ⟨List.isPrefixOf_iff_prefix.mpr (List.prefix_append _ _), all_isDigit_toDigits i⟩

theorem ne_indexed {base name : String} (h : isIndexed base name = false) (i : Nat) : name ≠ indexed base i := by
  rintro rfl
  rw [isIndexed_indexed] at h
  cases h

theorem indexed_inj {base : String} {i j : Nat} (h : indexed base i = indexed base j) : i = j := by
  have hlist := congrArg String.toList h
  rw [toList_indexed, toList_indexed, List.append_cancel_left_eq] at hlist
  rw [← Nat.ofDigitChars_toDigits (b := 10) (n := i) (by norm_num) le_rfl, hlist,
    Nat.ofDigitChars_toDigits (by norm_num) le_rfl]

/-! ## The module -/

/-- `a <<= b` for each of the assignments. -/
def assignAll (assigns : List Assignment) : Block Expr :=
  .ofList (assigns.map fun a => .assign false a.lhs a.rhs)

/-- `coeffs[i]` -/
def coeff (i : Nat) : Expr := sig (indexed "coeff" i)

/-- `accs[i]` -/
def acc (i : Nat) : Expr := sig (indexed "acc" i)

/-- `with c.when(i): coeffs[i] <<= coeff_in` for each of the taps. -/
def coeffCases (taps : List Nat) : CaseBlock Expr :=
  .ofList (taps.map fun i : Nat => ([int i], .ofList [.assign false (coeff i) (sig "coeff_in")]))

/-- The block that writes the coefficients. -/
def coeffProcess (numTaps : Nat) : Block Expr :=
  .ofList [.if_ (sig "coeff_we") (.ofList [.case_ .case (sig "coeff_addr") (coeffCases (List.range numTaps))])]

/-- The assignments with `rst`. -/
def resetTaps (numTaps : Nat) : List Assignment :=
  (List.range numTaps).map (fun i => ⟨acc i, int 0⟩) ++ [⟨sig "dout", int 0⟩]

/-- The assignments without: the last tap, the chain from its end to its start, and the output. -/
def runTaps (numTaps : Nat) : List Assignment :=
  ⟨acc (numTaps - 1), .binary .mul (sig "din") (coeff (numTaps - 1))⟩ ::
    (List.range (numTaps - 1)).reverse.map
      (fun i => ⟨acc i, .binary .add (.binary .mul (sig "din") (coeff i)) (acc (i + 1))⟩) ++
    [⟨sig "dout", acc 0⟩]

/-- The block of the taps. -/
def tapProcess (numTaps : Nat) : Block Expr :=
  .ofList [.if_ (sig "rst") (assignAll (resetTaps numTaps)), .else_ (assignAll (runTaps numTaps))]

/-- `fir_filter` -/
def firFilter (dataWidth coeffWidth numTaps : Nat) : Except String Module :=
  if dataWidth < 1 then .error s!"data_width must be >= 1, got {dataWidth}"
  else if coeffWidth < 1 then .error s!"coeff_width must be >= 1, got {coeffWidth}"
  else if numTaps < 2 then .error s!"num_taps must be >= 2, got {numTaps}"
  else do
    let productWidth := dataWidth + coeffWidth
    let outWidth := productWidth + Nat.clog 2 numTaps
    let addrWidth := max 1 (Nat.clog 2 numTaps)
    let loads ← always (coeffProcess numTaps)
    let taps ← always (tapProcess numTaps)
    .ok {
      vectors := [("clk", 1), ("rst", 1), ("din", dataWidth), ("dout", outWidth), ("coeff_in", coeffWidth),
          ("coeff_addr", addrWidth), ("coeff_we", 1)] ++
        ((List.range numTaps).map fun i => (indexed "coeff" i, coeffWidth)) ++
        (List.range numTaps).map fun i => (indexed "acc" i, outWidth)
      memories := []
      assigns := []
      processes := (loads.toList ++ taps.toList).map Statement.toStmt }

/-- The arguments that pass the checks. -/
structure FirParams where
  dataWidth : Nat
  coeffWidth : Nat
  numTaps : Nat
  one_le_dataWidth : 1 ≤ dataWidth
  one_le_coeffWidth : 1 ≤ coeffWidth
  two_le_numTaps : 2 ≤ numTaps

namespace FirParams

variable (P : FirParams)

/-- `out_width` -/
def outWidth : Nat := P.dataWidth + P.coeffWidth + Nat.clog 2 P.numTaps

/-- `addr_width` -/
def addrWidth : Nat := max 1 (Nat.clog 2 P.numTaps)

theorem dataWidth_le_outWidth : P.dataWidth ≤ P.outWidth := by
  rw [outWidth]
  omega

theorem coeffWidth_le_outWidth : P.coeffWidth ≤ P.outWidth := by
  rw [outWidth]
  omega

theorem one_le_outWidth : 1 ≤ P.outWidth := P.one_le_dataWidth.trans P.dataWidth_le_outWidth

end FirParams

/-! ## What is built -/

theorem always_of_exec {program : Block Expr} {stmts : List (Statement Expr)} (h : program.exec [[]] = .ok [stmts])
    (hne : stmts ≠ []) : always program = .ok (some (wrapStatements stmts)) := by
  rw [always, pushBlock, h]
  cases stmts with
  | nil => exact absurd rfl hne
  | cons stmt rest => rfl

theorem wrapStatements_of_two_le {stmts : List (Statement Expr)} (h : 2 ≤ stmts.length) :
    wrapStatements stmts = .seqBlock stmts := by
  match stmts with
  | [] => simp at h
  | [_] => simp at h
  | _ :: _ :: _ => rfl

theorem toStmts_eq_map (stmts : List (Statement Expr)) : Statement.toStmts stmts = stmts.map Statement.toStmt := by
  induction stmts with
  | nil => rfl
  | cons stmt rest ih => rw [Statement.toStmts, ih, List.map_cons]

theorem toItems_eq_map (items : List (CaseItem Expr)) : Statement.toItems items = items.map Statement.toItem := by
  induction items with
  | nil => rfl
  | cons item rest ih => rw [Statement.toItems, ih, List.map_cons]

/-- Assignments are put into the block one after another. -/
theorem exec_assignAll (assigns : List Assignment) (top : List (Statement Expr)) (rest : BlockStack Expr) :
    (assignAll assigns).exec (top :: rest) =
      .ok ((top ++ assigns.map fun a => .nonblockingAssign a.lhs a.rhs) :: rest) := by
  induction assigns generalizing top with
  | nil =>
    rw [List.map_nil, List.append_nil]
    rfl
  | cons a as ih =>
    have hexec : (assignAll (a :: as)).exec (top :: rest) =
        (assignAll as).exec ((top ++ [.nonblockingAssign a.lhs a.rhs]) :: rest) := rfl
    rw [hexec, ih, List.map_cons, List.append_assoc, List.singleton_append]

/-- So are the items of a case statement. -/
theorem exec_whens (taps : List Nat) (items : List (CaseItem Expr)) (stack : BlockStack Expr) :
    (coeffCases taps).exec items stack =
      .ok (items ++ taps.map (fun i : Nat => (some [int i], .nonblockingAssign (coeff i) (sig "coeff_in"))),
        stack) := by
  induction taps generalizing items with
  | nil =>
    rw [List.map_nil, List.append_nil]
    rfl
  | cons i is ih =>
    have hexec : (coeffCases (i :: is)).exec items stack =
        (coeffCases is).exec (items ++ [(some [int i], .nonblockingAssign (coeff i) (sig "coeff_in"))]) stack := rfl
    rw [hexec, ih, List.map_cons, List.append_assoc, List.singleton_append]

/-- The item of a coefficient. -/
def coeffItem (i : Nat) : Veriforge.CaseItem :=
  .mk false [int i] (some (.nonblockingAssign ⟨coeff i, sig "coeff_in"⟩))

section

variable (numTaps : Nat)

/-- The statements of the two blocks. -/
def coeffStmt : Stmt :=
  .ifStatement (sig "coeff_we")
    (some (.caseStatement .case (sig "coeff_addr") ((List.range numTaps).map coeffItem))) none

def tapStmt : Stmt :=
  .ifStatement (sig "rst") (some (.seqBlock none ((resetTaps numTaps).map .nonblockingAssign)))
    (some (.seqBlock none ((runTaps numTaps).map .nonblockingAssign)))

variable {numTaps} (htaps : 2 ≤ numTaps)

include htaps

theorem always_coeffProcess :
    ∃ statement, always (coeffProcess numTaps) = .ok (some statement) ∧ statement.toStmt = coeffStmt numTaps := by
  obtain ⟨items, hitems⟩ : ∃ items : List (CaseItem Expr), items = (List.range numTaps).map fun i : Nat =>
    (some [int i], .nonblockingAssign (coeff i) (sig "coeff_in")) := ⟨_, rfl⟩
  have hne : items.isEmpty = false := by
    rw [hitems, List.isEmpty_map, List.isEmpty_eq_false_iff, ← List.length_pos_iff, List.length_range]
    omega
  have hwhens := exec_whens (List.range numTaps) [] (pushBlock ([] :: [[]]))
  rw [List.nil_append, ← hitems] at hwhens
  have hcase := exec_case .case (sig "coeff_addr") hwhens
  rw [hne] at hcase
  have hbody : (Block.ofList [.case_ .case (sig "coeff_addr") (coeffCases (List.range numTaps))]).exec
      (pushBlock [[]]) = .ok [[.caseStatement .case (sig "coeff_addr") items], []] :=
    (exec_cons hcase).trans rfl
  have hprogram : (coeffProcess numTaps).exec [[]] = _ := exec_cons (exec_if hbody)
  refine ⟨_, always_of_exec (hprogram.trans rfl) (by simp), ?_⟩
  show Stmt.ifStatement _ (some (.caseStatement _ _ (Statement.toItems items))) none = _
  rw [toItems_eq_map, hitems, List.map_map]
  rfl

theorem always_tapProcess :
    ∃ statement, always (tapProcess numTaps) = .ok (some statement) ∧ statement.toStmt = tapStmt numTaps := by
  obtain ⟨resets, hresets⟩ : ∃ stmts : List (Statement Expr), stmts = (resetTaps numTaps).map fun a =>
    .nonblockingAssign a.lhs a.rhs := ⟨_, rfl⟩
  obtain ⟨runs, hruns⟩ : ∃ stmts : List (Statement Expr), stmts = (runTaps numTaps).map fun a =>
    .nonblockingAssign a.lhs a.rhs := ⟨_, rfl⟩
  have hresetsLength : 2 ≤ resets.length := by
    rw [hresets, List.length_map, resetTaps, List.length_append, List.length_map, List.length_range]
    simp only [List.length_singleton]
    omega
  have hrunsLength : 2 ≤ runs.length := by
    rw [hruns, List.length_map, runTaps]
    simp only [List.cons_append, List.length_cons, List.length_append]
    omega
  have hreset := exec_assignAll (resetTaps numTaps) [] [[]]
  have hrun := exec_assignAll (runTaps numTaps) []
    [[.ifStatement (sig "rst") (wrapStatements resets) none]]
  rw [List.nil_append, ← hresets] at hreset
  rw [List.nil_append, ← hruns] at hrun
  have hprogram : (tapProcess numTaps).exec [[]] = _ := exec_cons (exec_if hreset)
  refine ⟨_, always_of_exec (hprogram.trans ((exec_cons (exec_else hrun)).trans rfl)) (by simp), ?_⟩
  show Stmt.ifStatement _ (some (wrapStatements resets).toStmt) (some (wrapStatements runs).toStmt) = _
  rw [wrapStatements_of_two_le hresetsLength, wrapStatements_of_two_le hrunsLength]
  show Stmt.ifStatement _ (some (.seqBlock none (Statement.toStmts resets)))
    (some (.seqBlock none (Statement.toStmts runs))) = _
  rw [toStmts_eq_map, toStmts_eq_map, hresets, hruns, List.map_map, List.map_map]
  rfl

end

/-- The module of a filter. -/
def fir (P : FirParams) : Module where
  vectors := [("clk", 1), ("rst", 1), ("din", P.dataWidth), ("dout", P.outWidth), ("coeff_in", P.coeffWidth),
      ("coeff_addr", P.addrWidth), ("coeff_we", 1)] ++
    ((List.range P.numTaps).map fun i => (indexed "coeff" i, P.coeffWidth)) ++
    (List.range P.numTaps).map fun i => (indexed "acc" i, P.outWidth)
  memories := []
  assigns := []
  processes := [coeffStmt P.numTaps, tapStmt P.numTaps]

theorem firFilter_eq (P : FirParams) : firFilter P.dataWidth P.coeffWidth P.numTaps = .ok (fir P) := by
  have hdata := P.one_le_dataWidth
  have hcoeff := P.one_le_coeffWidth
  have htaps := P.two_le_numTaps
  obtain ⟨loads, hloads, hloadStmt⟩ := always_coeffProcess htaps
  obtain ⟨taps, htapProcess, htapStmt⟩ := always_tapProcess htaps
  rw [firFilter, if_neg (by omega), if_neg (by omega), if_neg (by omega)]
  show (always (coeffProcess P.numTaps) >>= _) = _
  rw [hloads]
  show (always (tapProcess P.numTaps) >>= _) = _
  rw [htapProcess]
  show Except.ok _ = _
  rw [Option.toList_some, Option.toList_some, List.singleton_append, List.map_cons, List.map_singleton, hloadStmt,
    htapStmt]
  rfl

/-! ## Declarations -/

theorem lookup_indexed {base : String} {indices : List Nat} {i : Nat} (h : i ∈ indices) (w : Nat) :
    (indices.map fun i => (indexed base i, w)).lookup (indexed base i) = some w := by
  induction indices with
  | nil => simp at h
  | cons j js ih =>
    rw [List.map_cons, List.lookup_cons]
    by_cases hij : i = j
    · rw [hij, beq_self_eq_true]
    · rw [beq_false_of_ne fun heq => hij (indexed_inj heq)]
      exact ih ((List.mem_cons.mp h).resolve_left hij)

theorem lookup_indexed_of_ne {base name : String} (h : isIndexed base name = false) (indices : List Nat) (w : Nat) :
    (indices.map fun i => (indexed base i, w)).lookup name = none := by
  rw [List.lookup_eq_none_iff]
  intro p hp
  obtain ⟨i, -, rfl⟩ := List.mem_map.mp hp
  exact bne_iff_ne.mpr (ne_indexed h i)

/-- The names of accumulators and coefficients are not those of ports, nor each other's. -/
theorem isIndexed_coeff_acc (i : Nat) : isIndexed "coeff" (indexed "acc" i) = false := by
  rw [isIndexed, toList_indexed]
  rfl

/-- The names of the ports. -/
def firPorts : List String := ["clk", "rst", "din", "dout", "coeff_in", "coeff_addr", "coeff_we"]

/-- No port is named like a coefficient or an accumulator. -/
theorem isIndexed_port {base : String} (h : base = "coeff" ∨ base = "acc") :
    ∀ name ∈ firPorts, isIndexed base name = false := by
  rcases h with rfl | rfl
  · decide
  · decide

section

variable {dataWidth coeffWidth addrWidth : Nat} {P : FirParams}

/-- The declarations of coefficients and accumulators come after the ports. -/
theorem width_indexed {base : String} (h : base = "coeff" ∨ base = "acc") (i : Nat) :
    (fir P).table.width (indexed base i) =
      ((((List.range P.numTaps).map fun i => (indexed "coeff" i, P.coeffWidth)).lookup (indexed base i)).or
        (((List.range P.numTaps).map fun i => (indexed "acc" i, P.outWidth)).lookup (indexed base i))).map (max 1) := by
  show Option.map (max 1) ((_ ++ _ ++ _ : List (String × Nat)).lookup (indexed base i)) = _
  rw [List.lookup_append, List.lookup_append, List.lookup_eq_none_iff.mpr, Option.none_or]
  intro p hp
  have hname : p.1 ∈ firPorts := List.mem_map_of_mem (f := Prod.fst) hp
  exact bne_iff_ne.mpr (ne_indexed (isIndexed_port h _ hname) i).symm

theorem width_coeff {i : Nat} (hi : i < P.numTaps) : (fir P).table.width (indexed "coeff" i) = some P.coeffWidth := by
  rw [width_indexed (.inl rfl), lookup_indexed (List.mem_range.mpr hi), Option.some_or, Option.map_some,
    max_eq_right P.one_le_coeffWidth]

theorem width_acc {i : Nat} (hi : i < P.numTaps) : (fir P).table.width (indexed "acc" i) = some P.outWidth := by
  rw [width_indexed (.inr rfl), lookup_indexed_of_ne (isIndexed_coeff_acc i), Option.none_or,
    lookup_indexed (List.mem_range.mpr hi), Option.map_some, max_eq_right P.one_le_outWidth]

/-- A port of a width that is not zero. -/
theorem width_port {name : String} {w : Nat} (h : (fir P).table.width name = some (max 1 w)) (hw : 1 ≤ w) :
    (fir P).table.width name = some w := by
  rw [h, max_eq_right hw]

theorem width_din : (fir P).table.width "din" = some P.dataWidth := width_port rfl P.one_le_dataWidth

theorem width_coeffIn : (fir P).table.width "coeff_in" = some P.coeffWidth := width_port rfl P.one_le_coeffWidth

theorem width_coeffAddr : (fir P).table.width "coeff_addr" = some P.addrWidth := width_port rfl (le_max_left _ _)

theorem width_dout : (fir P).table.width "dout" = some P.outWidth := width_port rfl P.one_le_outWidth

/-! ## A cycle -/

/-- What is driven before a rising edge of the clock. -/
structure FirCycle (dataWidth coeffWidth addrWidth : Nat) where
  rst : Bool
  din : BitVec dataWidth
  coeffIn : BitVec coeffWidth
  coeffAddr : BitVec addrWidth
  coeffWe : Bool

/-- The inputs of the module. -/
def FirCycle.inputs (c : FirCycle dataWidth coeffWidth addrWidth) : List (String × Value) :=
  [("rst", ofBool c.rst), ("din", ofInt c.din.toNat dataWidth), ("coeff_in", ofInt c.coeffIn.toNat coeffWidth),
    ("coeff_addr", ofInt c.coeffAddr.toNat addrWidth), ("coeff_we", ofBool c.coeffWe)]

/-- The coefficient is written. -/
def FirCycle.loads (c : FirCycle dataWidth coeffWidth addrWidth) (i : Nat) : Bool :=
  c.coeffWe && c.coeffAddr.toNat == i

/-- The cycles of a filter. -/
abbrev FirParams.Cycle (P : FirParams) : Type := FirCycle P.dataWidth P.coeffWidth P.addrWidth

variable {s : Store (fir P).table}

theorem gives_coeff {i : Nat} (hi : i < P.numTaps) :
    Gives s (coeff i) P.coeffWidth fun W => (s.signal (indexed "coeff" i)).resize W :=
  gives_ident s (width_coeff hi) rfl

theorem gives_acc {i : Nat} (hi : i < P.numTaps) :
    Gives s (acc i) P.outWidth fun W => (s.signal (indexed "acc" i)).resize W :=
  gives_ident s (width_acc hi) rfl

theorem gives_din : Gives s (sig "din") P.dataWidth fun W => (s.signal "din").resize W :=
  gives_ident s width_din rfl

theorem gives_coeffIn : Gives s (sig "coeff_in") P.coeffWidth fun W => (s.signal "coeff_in").resize W :=
  gives_ident s width_coeffIn rfl

/-- The item of the addressed coefficient is the one that is executed. -/
theorem queues_items {addr value : Nat} (hlt : addr < 2 ^ addrWidth)
    (hvalue : s.signal "coeff_in" = ofInt value P.coeffWidth) {taps : List Nat} (htaps : ∀ i ∈ taps, i < P.numTaps) :
    Queues s ((fir P).circuit.executor.executeItems .case (ofInt addr addrWidth) (taps.map coeffItem))
      (if addr ∈ taps then [.signal (indexed "coeff" addr) (ofInt value P.coeffWidth)] else []) := by
  induction taps with
  | nil =>
    rw [List.map_nil, StatementExecutor.executeItems, if_neg (List.not_mem_nil)]
    exact .nil
  | cons i is ih =>
    refine .executeItems_cons (matchesAny_int _ hlt i) ?_
    by_cases heq : addr = i
    · have hwrite : Queues s ((fir P).circuit.executor.execute
          (.nonblockingAssign ⟨coeff i, sig "coeff_in"⟩)) [.signal (indexed "coeff" i) _] :=
        queues_of_gives _ (width_coeff (htaps i List.mem_cons_self)) rfl gives_coeffIn le_rfl
      rw [hvalue, ofInt_resize _ le_rfl] at hwrite
      rw [decide_eq_true heq, heq, if_pos rfl, if_pos List.mem_cons_self]
      exact .body hwrite
    · have hmem : addr ∈ i :: is ↔ addr ∈ is := by rw [List.mem_cons, or_iff_right heq]
      rw [decide_eq_false heq, if_neg Bool.false_ne_true, if_congr hmem rfl rfl]
      exact ih fun j hj => htaps j (List.mem_cons_of_mem i hj)

/-- The block that writes the coefficients. -/
theorem queues_coeffStmt {addr value : Nat} {we : Bool} (hlt : addr < 2 ^ P.addrWidth)
    (hwe : s.signal "coeff_we" = ofBool we) (haddr : s.signal "coeff_addr" = ofInt addr P.addrWidth)
    (hvalue : s.signal "coeff_in" = ofInt value P.coeffWidth) :
    Queues s ((fir P).circuit.executor.execute (coeffStmt P.numTaps))
      ((if we && decide (addr < P.numTaps) then [(indexed "coeff" addr, ofInt value P.coeffWidth)] else []).map
        fun write => .signal write.1 write.2) := by
  refine .ifStatement (test_sig _ rfl rfl hwe) ?_
  cases we with
  | false => exact .noBody
  | true =>
    have heval : eval s (sig "coeff_addr") 0 none = some (ofInt addr P.addrWidth) := by
      have hown := (gives_ident s width_coeffAddr rfl).own
      rw [haddr, ofInt_resize _ le_rfl] at hown
      exact hown
    have hitems := queues_items (s := s) hlt hvalue fun i (hi : i ∈ List.range P.numTaps) => List.mem_range.mp hi
    refine .body (.caseStatement (eval_of_some _ heval) ?_)
    rw [Bool.true_and]
    by_cases h : addr < P.numTaps
    · rw [if_pos (List.mem_range.mpr h)] at hitems
      rw [decide_eq_true h]
      exact hitems
    · rw [if_neg fun hmem => h (List.mem_range.mp hmem)] at hitems
      rw [decide_eq_false h]
      exact hitems

/-- The product of the sample and the coefficient of a tap. -/
def tapProduct (s : Store (fir P).table) (i : Nat) : Value :=
  ((s.signal "din").resize P.outWidth).mul ((s.signal (indexed "coeff" i)).resize P.outWidth)

/-- What a tap other than the last adds it up to. -/
def tapSum (s : Store (fir P).table) (i : Nat) : Value :=
  (tapProduct s i).add ((s.signal (indexed "acc" (i + 1))).resize P.outWidth)

/-- What the accumulators and the output take, with `rst` and without. -/
def tapWrites (s : Store (fir P).table) (rst : Bool) : List (String × Value) :=
  if rst then
    (List.range P.numTaps).map (fun i => (indexed "acc" i, ofInt 0 P.outWidth)) ++ [("dout", ofInt 0 P.outWidth)]
  else
    (indexed "acc" (P.numTaps - 1), tapProduct s (P.numTaps - 1)) ::
      (List.range (P.numTaps - 1)).reverse.map (fun i => (indexed "acc" i, tapSum s i)) ++
      [("dout", (s.signal (indexed "acc" 0)).resize P.outWidth)]

theorem gives_product {i : Nat} (hi : i < P.numTaps) :
    Gives s (.binary .mul (sig "din") (coeff i)) (max P.dataWidth P.coeffWidth)
      fun W => ((s.signal "din").resize W).mul ((s.signal (indexed "coeff" i)).resize W) :=
  gives_arithmetic gives_din (gives_coeff hi) rfl .mul rfl rfl fun a b h => by rw [mul_width, h, max_self]

theorem gives_sum {i : Nat} (hi : i + 1 < P.numTaps) :
    Gives s (.binary .add (.binary .mul (sig "din") (coeff i)) (acc (i + 1)))
      (max (max P.dataWidth P.coeffWidth) P.outWidth)
      fun W => (((s.signal "din").resize W).mul ((s.signal (indexed "coeff" i)).resize W)).add
        ((s.signal (indexed "acc" (i + 1))).resize W) :=
  gives_arithmetic (gives_product (by omega)) (gives_acc hi) (Bool.and_false _) .add rfl rfl
    fun a b h => by rw [add_width, h, max_self]

/-- The block of the taps. -/
theorem queues_tapStmt {rst : Bool} (hrst : s.signal "rst" = ofBool rst) :
    Queues s ((fir P).circuit.executor.execute (tapStmt P.numTaps))
      ((tapWrites s rst).map fun write => .signal write.1 write.2) := by
  have htaps := P.two_le_numTaps
  have hproduct : max P.dataWidth P.coeffWidth ≤ P.outWidth := max_le P.dataWidth_le_outWidth P.coeffWidth_le_outWidth
  refine .ifStatement (test_sig _ rfl rfl hrst) ?_
  cases rst with
  | true =>
    refine .body (.seqBlock (.assignments ?_))
    refine List.rel_append ?_ (.cons ?_ .nil)
    · rw [List.forall₂_map_left_iff, List.forall₂_map_right_iff]
      exact List.forall₂_same.mpr fun i hi => queues_int _ (width_acc (List.mem_range.mp hi)) rfl 0
    · exact queues_int _ width_dout rfl 0
  | false =>
    refine .body (.seqBlock (.assignments ?_))
    refine List.rel_append (.cons ?_ ?_) (.cons ?_ .nil)
    · exact queues_of_gives _ (width_acc (by omega)) rfl (gives_product (by omega)) hproduct
    · rw [List.forall₂_map_left_iff, List.forall₂_map_right_iff]
      refine List.forall₂_same.mpr fun i hi => ?_
      have hi := List.mem_range.mp (List.mem_reverse.mp hi)
      exact queues_of_gives _ (width_acc (by omega)) rfl (gives_sum (by omega)) (max_le hproduct le_rfl)
    · exact queues_of_gives _ width_dout rfl (gives_acc (by omega)) le_rfl

/-! ## What a cycle does -/

/-- The names of accumulators, each once, and the output's. -/
theorem nodup_taps {taps : List Nat} (h : taps.Nodup) : (taps.map (indexed "acc") ++ ["dout"]).Nodup := by
  apply List.nodup_append'.mpr
  refine ⟨h.map fun _ _ => indexed_inj, List.nodup_singleton _, ?_⟩
  apply List.disjoint_singleton.mpr
  intro hmem
  obtain ⟨i, -, hi⟩ := List.mem_map.mp hmem
  exact ne_indexed (isIndexed_port (.inr rfl) "dout" (by decide)) i hi.symm

theorem map_fst_tapWrites (s : Store (fir P).table) (rst : Bool) :
    ∃ taps : List Nat, taps.Nodup ∧ (tapWrites s rst).map Prod.fst = taps.map (indexed "acc") ++ ["dout"] := by
  cases rst with
  | true =>
    refine ⟨List.range P.numTaps, List.nodup_range, ?_⟩
    rw [tapWrites, if_pos rfl, List.map_append, List.map_map]
    rfl
  | false =>
    refine ⟨(P.numTaps - 1) :: (List.range (P.numTaps - 1)).reverse, ?_, ?_⟩
    · rw [List.nodup_cons, List.mem_reverse, List.mem_range, List.nodup_reverse]
      exact ⟨lt_irrefl _, List.nodup_range⟩
    · rw [tapWrites, if_neg Bool.false_ne_true, List.map_append, List.map_cons, List.map_map]
      rfl

/-- The coefficient that is written, if one is. -/
def FirCycle.coeffWrites (c : FirCycle dataWidth coeffWidth addrWidth) (numTaps : Nat) : List (String × Value) :=
  if c.coeffWe && decide (c.coeffAddr.toNat < numTaps) then
    [(indexed "coeff" c.coeffAddr.toNat, ofInt c.coeffIn.toNat coeffWidth)]
  else []

/-- The store after the edge. -/
def firNext (s : Store (fir P).table) (c : P.Cycle) : Store (fir P).table :=
  (s.setSignals (c.coeffWrites P.numTaps)).setSignals (tapWrites s c.rst)

variable {c : P.Cycle}

/-- A name that no tap writes. -/
theorem firNext_coeff {i : Nat} (hi : i < P.numTaps) : (firNext s c).signal (indexed "coeff" i) =
      if c.loads i then ofInt c.coeffIn.toNat P.coeffWidth else s.signal (indexed "coeff" i) := by
  obtain ⟨taps, -, htaps⟩ := map_fst_tapWrites s c.rst
  have hnotMem : indexed "coeff" i ∉ (tapWrites s c.rst).map Prod.fst := by
    rw [htaps, List.mem_append, List.mem_singleton, not_or]
    refine ⟨fun hmem => ?_, fun heq => ?_⟩
    · obtain ⟨j, -, hj⟩ := List.mem_map.mp hmem
      exact ne_indexed (isIndexed_coeff_acc j) i hj
    · exact ne_indexed (isIndexed_port (.inl rfl) "dout" (by decide)) i heq.symm
  rw [firNext, Store.setSignals_signal_of_notMem _ hnotMem, FirCycle.coeffWrites, FirCycle.loads]
  by_cases haddr : c.coeffAddr.toNat = i
  · rw [haddr, decide_eq_true hi, beq_self_eq_true, Bool.and_true]
    split
    · rw [Store.setSignals_cons, Store.setSignals_nil, Store.setSignal_signal_self, width_coeff hi]
      exact ofInt_resize _ le_rfl
    · rfl
  · rw [beq_eq_false_iff_ne.mpr haddr, Bool.and_false, if_neg Bool.false_ne_true]
    split
    · rw [Store.setSignals_cons, Store.setSignals_nil, Store.setSignal_signal_of_ne]
      exact fun h => haddr (indexed_inj h).symm
    · rfl

theorem firNext_of_mem {name : String} {v : Value} (h : (name, v) ∈ tapWrites s c.rst)
    (hwidth : (fir P).table.width name = some v.width) : (firNext s c).signal name = v := by
  obtain ⟨taps, hnodup, htaps⟩ := map_fst_tapWrites s c.rst
  rw [firNext, Store.setSignals_signal_of_mem _ (htaps ▸ nodup_taps hnodup) h, hwidth, Option.getD_some, resize_self]

theorem firNext_acc {i : Nat} (hi : i < P.numTaps) : (firNext s c).signal (indexed "acc" i) =
      if c.rst then ofInt 0 P.outWidth else if i + 1 < P.numTaps then tapSum s i else tapProduct s i := by
  apply firNext_of_mem
  · rw [tapWrites]
    cases c.rst with
    | true =>
      rw [if_pos rfl, if_pos rfl]
      exact List.mem_append_left _ (List.mem_map_of_mem (List.mem_range.mpr hi))
    | false =>
      rw [if_neg Bool.false_ne_true, if_neg Bool.false_ne_true]
      apply List.mem_append_left
      by_cases hlast : i + 1 < P.numTaps
      · rw [if_pos hlast]
        exact List.mem_cons_of_mem _ (List.mem_map_of_mem (List.mem_reverse.mpr (List.mem_range.mpr (by omega))))
      · obtain rfl : i = P.numTaps - 1 := by omega
        rw [if_neg hlast]
        exact List.mem_cons_self
  · rw [width_acc hi]
    split
    · rfl
    · split
      · rw [tapSum, tapProduct, add_width, mul_width, resize_width, resize_width, resize_width, max_self, max_self]
      · rw [tapProduct, mul_width, resize_width, resize_width, max_self]

theorem firNext_dout :
    (firNext s c).signal "dout" = if c.rst then ofInt 0 P.outWidth else s.signal (indexed "acc" 0) := by
  have hfirst : 0 < P.numTaps := lt_of_lt_of_le Nat.two_pos P.two_le_numTaps
  have hwidth : (s.signal (indexed "acc" 0)).width = P.outWidth := s.signal_width _ _ (width_acc hfirst)
  apply firNext_of_mem
  · rw [tapWrites]
    cases c.rst with
    | true => exact List.mem_append_right _ List.mem_cons_self
    | false =>
      rw [if_neg Bool.false_ne_true, if_neg Bool.false_ne_true, resize_of_width hwidth]
      exact List.mem_append_right _ List.mem_cons_self
  · rw [width_dout]
    split
    · rfl
    · rw [hwidth]

theorem driven_input (st : Store (fir P).table) {name : String} {v : Value} (h : (name, v) ∈ c.inputs) :
    (st.setSignals c.inputs).signal name = v := by
  have hnodup : (c.inputs.map Prod.fst).Nodup :=
    show ["rst", "din", "coeff_in", "coeff_addr", "coeff_we"].Nodup by decide
  have hwidth : (fir P).table.width name = some v.width := by
    simp only [FirCycle.inputs, List.mem_cons, Prod.mk.injEq, List.not_mem_nil, or_false] at h
    rcases h with ⟨rfl, rfl⟩ | ⟨rfl, rfl⟩ | ⟨rfl, rfl⟩ | ⟨rfl, rfl⟩ | ⟨rfl, rfl⟩
    · rfl
    · exact width_din
    · exact width_coeffIn
    · exact width_coeffAddr
    · rfl
  rw [Store.setSignals_signal_of_mem st hnodup h, hwidth, Option.getD_some, resize_self]

theorem driven_indexed {base : String} (hbase : base = "coeff" ∨ base = "acc") (i : Nat) (st : Store (fir P).table) :
    (st.setSignals c.inputs).signal (indexed base i) = st.signal (indexed base i) := by
  apply Store.setSignals_signal_of_notMem
  intro hmem
  have hport : indexed base i ∈ firPorts := by
    have hinputs : indexed base i ∈ ["rst", "din", "coeff_in", "coeff_addr", "coeff_we"] := hmem
    simp only [List.mem_cons, List.not_mem_nil, or_false] at hinputs
    simp only [firPorts, List.mem_cons, List.not_mem_nil, or_false]
    grind
  exact ne_indexed (isIndexed_port hbase _ hport) i rfl

/-- A cycle drives the inputs and takes the edge. -/
theorem cycle_fir (st : Store (fir P).table) (c : P.Cycle) :
    (fir P).circuit.cycle st c.inputs = .ok (firNext (st.setSignals c.inputs) c) := by
  have hsettle : ∀ s : Store (fir P).table,
      (fir P).circuit.executor.settle (fir P).circuit.assigns Circuit.deltaLimit ⟨s, [], ()⟩ =
        (.ok (), ⟨s, [], ()⟩) :=
    fun s => settle_of_drives _ .nil List.nodup_nil (by simp) [] () 9998
  have hinput : ∀ name v, (name, v) ∈ c.inputs → (st.setSignals c.inputs).signal name = v :=
    fun _ _ => driven_input st
  have hcoeffs := queues_coeffStmt (s := st.setSignals c.inputs) c.coeffAddr.isLt
    (hinput "coeff_we" (ofBool c.coeffWe) (by simp [FirCycle.inputs]))
    (hinput "coeff_addr" (ofInt c.coeffAddr.toNat _) (by simp [FirCycle.inputs]))
    (hinput "coeff_in" (ofInt c.coeffIn.toNat _) (by simp [FirCycle.inputs]))
  have htap := queues_tapStmt (s := st.setSignals c.inputs)
    (hinput "rst" (ofBool c.rst) (by simp [FirCycle.inputs]))
  have hqueues := Queues.executeAll_cons hcoeffs (.executeAll_cons htap .executeAll_nil)
  refine (Circuit.cycle_eq _ (hsettle _) hqueues (hsettle _)).trans ?_
  rw [List.append_nil, applyNba_append, applyNba_signals, applyNba_signals]
  rfl

/-! ## Coefficients -/

/-- The word written to an address last. -/
def lastWritten (cycles : List (FirCycle dataWidth coeffWidth addrWidth)) (i : Nat) : Option (BitVec coeffWidth) :=
  cycles.foldl (fun last c => if c.loads i then some c.coeffIn else last) none

theorem lastWritten_concat (cycles : List (FirCycle dataWidth coeffWidth addrWidth))
    (c : FirCycle dataWidth coeffWidth addrWidth) (i : Nat) :
    lastWritten (cycles ++ [c]) i = if c.loads i then some c.coeffIn else lastWritten cycles i := by
  rw [lastWritten, List.foldl_append, List.foldl_cons, List.foldl_nil]
  rfl

/-- Every run goes through, and leaves in each coefficient register the word written to it last. -/
theorem run_coeff (st : Store (fir P).table) (cycles : List P.Cycle) :
    ∃ st' : Store (fir P).table, (fir P).circuit.run st (cycles.map FirCycle.inputs) = .ok st' ∧
      ∀ i < P.numTaps, st'.signal (indexed "coeff" i) =
        (lastWritten cycles i).elim (st.signal (indexed "coeff" i)) fun v => ofInt v.toNat P.coeffWidth := by
  induction cycles using List.reverseRecOn with
  | nil => exact ⟨st, rfl, fun _ _ => rfl⟩
  | append_singleton cycles c ih =>
    obtain ⟨st', hrun, hcoeffs⟩ := ih
    refine ⟨firNext (st'.setSignals c.inputs) c, ?_, fun i hi => ?_⟩
    · rw [List.map_append, List.map_singleton]
      exact (Circuit.run_concat _ hrun _).trans (cycle_fir st' c)
    · rw [firNext_coeff hi, driven_indexed (.inl rfl), hcoeffs i hi, lastWritten_concat]
      split
      · rfl
      · rfl

/-! ## The chain of accumulators -/

/-- The sample at an edge, counted from the reset edge, which is 0 like all before it. -/
def sample (stream : List (FirCycle dataWidth coeffWidth addrWidth)) (j : Int) : Nat :=
  if 1 ≤ j then (stream[(j - 1).toNat]?).elim 0 fun c => c.din.toNat else 0

section

variable (stream : List (FirCycle dataWidth coeffWidth addrWidth))

theorem sample_lt (j : Int) : sample stream j < 2 ^ dataWidth := by
  rw [sample]
  split
  · cases stream[(j - 1).toNat]? with
    | none => exact Nat.two_pow_pos dataWidth
    | some c => exact c.din.isLt
  · exact Nat.two_pow_pos dataWidth

theorem sample_of_nonpos {j : Int} (h : j ≤ 0) : sample stream j = 0 := if_neg (by omega)

theorem sample_concat_of_le (c : FirCycle dataWidth coeffWidth addrWidth) {j : Int} (h : j ≤ stream.length) :
    sample (stream ++ [c]) j = sample stream j := by
  rw [sample, sample]
  split
  · rw [List.getElem?_append_left (by omega)]
  · rfl

theorem sample_concat (c : FirCycle dataWidth coeffWidth addrWidth) :
    sample (stream ++ [c]) (stream.length + 1) = c.din.toNat := by
  rw [sample, if_pos (by omega), show ((stream.length : Int) + 1 - 1).toNat = stream.length by omega,
    List.getElem?_concat_length]
  rfl

end

/-- After an edge, every accumulator holds its part of the convolution at that edge, and the output what the first
held before. -/
structure Convolves (st : Store (fir P).table) (c : Nat → Nat) (x : Int → Nat) (t : Int) : Prop where
  acc : ∀ i < P.numTaps, st.signal (indexed "acc" i) = ofInt (Convolution.tail c x P.numTaps i t : Nat) P.outWidth
  dout : st.signal "dout" = ofInt (Convolution.tail c x P.numTaps 0 (t - 1) : Nat) P.outWidth

/-- The reset edge. -/
theorem convolves_reset (hrst : c.rst = true) (coeffs : Nat → Nat) {x : Int → Nat} (hx : ∀ j ≤ 0, x j = 0) :
    Convolves (firNext s c) coeffs x 0 where
  acc i hi := by
    rw [firNext_acc hi, hrst, if_pos rfl, Convolution.tail_of_silent _ hx]
    rfl
  dout := by
    rw [firNext_dout, hrst, if_pos rfl, Convolution.tail_of_silent _ fun j hj => hx j (by omega)]
    rfl

theorem fits_natCast {n w : Nat} (h : n < 2 ^ w) : Fits false w n :=
  fits_false.mpr ⟨Int.natCast_nonneg n, by exact_mod_cast h⟩

/-- An edge on which the sample is taken. -/
theorem Convolves.step (hrst : c.rst = false) {st : Store (fir P).table} {coeffs : Nat → BitVec P.coeffWidth}
    {x : Int → Nat} {t : Int} (h : Convolves st (fun i => (coeffs i).toNat) x t)
    (hcoeffs : ∀ i < P.numTaps, st.signal (indexed "coeff" i) = ofInt (coeffs i).toNat P.coeffWidth)
    (hx : x (t + 1) = c.din.toNat) :
    Convolves (firNext (st.setSignals c.inputs) c) (fun i => (coeffs i).toNat) x (t + 1) where
  acc i hi := by
    have hdin : (st.setSignals c.inputs).signal "din" = ofInt c.din.toNat P.dataWidth :=
      driven_input st (by simp [FirCycle.inputs])
    have hproduct : tapProduct (st.setSignals c.inputs) i = ofInt (x (t + 1) * (coeffs i).toNat : Nat) P.outWidth := by
      rw [tapProduct, hdin, driven_indexed (.inl rfl), hcoeffs i hi, resize_ofInt (fits_natCast c.din.isLt),
        resize_ofInt (fits_natCast (coeffs i).isLt), mul_ofInt, hx, Nat.cast_mul]
    rw [firNext_acc hi, hrst, if_neg Bool.false_ne_true, Convolution.tail_step _ x t hi]
    split
    · next hlast =>
      rw [tapSum, hproduct, driven_indexed (.inr rfl), h.acc (i + 1) hlast, ofInt_resize _ le_rfl, add_ofInt,
        ← Nat.cast_add]
    · next hlast => rw [hproduct, Convolution.tail_of_le _ (by omega), Nat.add_zero]
  dout := by
    have hfirst : 0 < P.numTaps := lt_of_lt_of_le Nat.two_pos P.two_le_numTaps
    rw [firNext_dout, hrst, if_neg Bool.false_ne_true, driven_indexed (.inr rfl), h.acc 0 hfirst,
      add_sub_cancel_right]

theorem Convolves.congr {st : Store (fir P).table} {coeffs : Nat → Nat} {x y : Int → Nat} {t : Int}
    (h : Convolves st coeffs x t) (hxy : ∀ j ≤ t, x j = y j) : Convolves st coeffs y t where
  acc i hi := by rw [h.acc i hi, Convolution.tail_congr _ hxy]
  dout := by rw [h.dout, Convolution.tail_congr _ fun j hj => hxy j (by omega)]

/-- A run over a reset edge and samples after it. -/
theorem run_convolves (st : Store (fir P).table) (load : List P.Cycle) {reset : P.Cycle} (hreset : reset.rst = true)
    {stream : List P.Cycle} (hstream : ∀ c ∈ stream, c.rst = false) {coeffs : Nat → BitVec P.coeffWidth}
    (hcoeffs : ∀ k < stream.length, ∀ i < P.numTaps,
      lastWritten (load ++ reset :: stream.take k) i = some (coeffs i)) :
    ∃ st' : Store (fir P).table, (fir P).circuit.run st ((load ++ reset :: stream).map FirCycle.inputs) = .ok st' ∧
        Convolves st' (fun i => (coeffs i).toNat) (sample stream) stream.length := by
  induction stream using List.reverseRecOn with
  | nil =>
    obtain ⟨st₁, hrun, -⟩ := run_coeff st load
    refine ⟨firNext (st₁.setSignals reset.inputs) reset, ?_, ?_⟩
    · rw [List.map_append, List.map_singleton]
      exact (Circuit.run_concat _ hrun _).trans (cycle_fir st₁ reset)
    · exact convolves_reset hreset _ fun j hj => sample_of_nonpos [] hj
  | append_singleton stream c ih =>
    have hlength : (stream ++ [c]).length = stream.length + 1 := by rw [List.length_append, List.length_singleton]
    have hbefore : ∀ k ≤ stream.length, ∀ i < P.numTaps,
        lastWritten (load ++ reset :: stream.take k) i = some (coeffs i) := by
      intro k hk
      have h := hcoeffs k (by omega)
      rwa [List.take_append_of_le_length hk] at h
    obtain ⟨st₁, hrun, hconv⟩ := ih (fun d hd => hstream d (List.mem_append_left _ hd))
      fun k hk => hbefore k (by omega)
    -- the coefficients that this edge reads
    obtain ⟨st₂, hrun₂, hcoeffs₂⟩ := run_coeff st (load ++ reset :: stream)
    obtain rfl : st₁ = st₂ := Except.ok.inj (hrun.symm.trans hrun₂)
    have hheld : ∀ i < P.numTaps, st₁.signal (indexed "coeff" i) = ofInt (coeffs i).toNat P.coeffWidth := by
      intro i hi
      have hlast := hbefore stream.length le_rfl i hi
      rw [List.take_length] at hlast
      rw [hcoeffs₂ i hi, hlast]
      rfl
    refine ⟨firNext (st₁.setSignals c.inputs) c, ?_, ?_⟩
    · rw [← List.cons_append, ← List.append_assoc, List.map_append, List.map_singleton]
      exact (Circuit.run_concat _ hrun _).trans (cycle_fir st₁ c)
    · rw [hlength, Nat.cast_succ]
      apply Convolves.step (hstream c (List.mem_append_right _ List.mem_cons_self)) _ hheld
      · exact sample_concat stream c
      · exact hconv.congr fun j hj => (sample_concat_of_le stream c hj).symm

/-- The partial sums fit. -/
theorem tail_lt_outWidth (coeffs : Nat → BitVec P.coeffWidth) (stream : List P.Cycle) (i : Nat) (t : Int) :
    Convolution.tail (fun i => (coeffs i).toNat) (sample stream) P.numTaps i t < 2 ^ P.outWidth :=
  Convolution.tail_lt (fun i _ => (coeffs i).isLt) (sample_lt stream) i t

end

/-- **The filter is the convolution.** A coefficient register holds the word written to its address last. Where the
coefficients are in place and a reset edge is followed by samples, every accumulator holds its partial sum without
overflow after each edge, and after edge `t + 1` the output is the convolution at edge `t`. -/
theorem firFilter_convolution (P : FirParams) :
    ∃ m, firFilter P.dataWidth P.coeffWidth P.numTaps = .ok m ∧
      (∀ (st : Store m.circuit.table) (cycles : List P.Cycle),
        ∃ st', m.circuit.run st (cycles.map FirCycle.inputs) = .ok st' ∧
          ∀ i < P.numTaps, st'.signal (indexed "coeff" i) =
            (lastWritten cycles i).elim (st.signal (indexed "coeff" i)) fun v => ofInt v.toNat P.coeffWidth) ∧
      ∀ (st : Store m.circuit.table) (load : List P.Cycle) (reset : P.Cycle) (stream : List P.Cycle)
          (coeffs : Nat → BitVec P.coeffWidth),
        reset.rst = true → (∀ c ∈ stream, c.rst = false) →
        (∀ k < stream.length, ∀ i < P.numTaps,
          lastWritten (load ++ reset :: stream.take k) i = some (coeffs i)) →
        ∃ st', m.circuit.run st ((load ++ reset :: stream).map FirCycle.inputs) = .ok st' ∧
          (∀ i < P.numTaps, (st'.signal (indexed "acc" i)).isDefined = true ∧
            (st'.signal (indexed "acc" i)).val = ∑ k ∈ Finset.range (P.numTaps - i),
              (coeffs (i + k)).toNat * sample stream ((stream.length : Int) - k)) ∧
          ∀ t : Nat, stream.length = t + 1 → (st'.signal "dout").isDefined = true ∧
            (st'.signal "dout").val =
              ∑ i ∈ Finset.range P.numTaps, (coeffs i).toNat * sample stream ((t : Int) - i) := by
  refine ⟨_, firFilter_eq P, run_coeff, ?_⟩
  intro st load reset stream coeffs hreset hstream hcoeffs
  obtain ⟨st', hrun, hconv⟩ := run_convolves st load hreset hstream hcoeffs
  have hval : ∀ i t, (ofInt (Convolution.tail (fun i => (coeffs i).toNat) (sample stream) P.numTaps i t : Nat)
      P.outWidth).val = Convolution.tail (fun i => (coeffs i).toNat) (sample stream) P.numTaps i t := by
    intro i t
    rw [ofInt_natCast_val, Nat.mod_eq_of_lt (tail_lt_outWidth coeffs stream i t)]
  refine ⟨st', hrun, fun i hi => ?_, fun t ht => ?_⟩
  · rw [hconv.acc i hi, hval]
    exact ⟨by simp [isDefined], rfl⟩
  · have htime : (stream.length : Int) - 1 = t := by omega
    rw [hconv.dout, hval, htime, Convolution.tail_zero]
    exact ⟨by simp [isDefined], rfl⟩

theorem firFilter_convolution_three_taps :
    ∃ m, firFilter 2 2 3 = .ok m ∧ ∀ st : Store m.circuit.table, ∃ st', m.circuit.run st
        (([⟨false, 0, 1, 0, true⟩, ⟨false, 0, 2, 1, true⟩, ⟨false, 0, 3, 2, true⟩] ++ ⟨true, 1, 0, 0, false⟩ ::
          [⟨false, 3, 0, 0, false⟩, ⟨false, 2, 0, 0, false⟩, ⟨false, 0, 0, 0, false⟩] :
            List (FirCycle 2 2 (max 1 (Nat.clog 2 3)))).map FirCycle.inputs) = .ok st' ∧
      (st'.signal "dout").isDefined = true ∧ (st'.signal "dout").val = 8 := by
  obtain ⟨m, hm, -, hconv⟩ := firFilter_convolution ⟨2, 2, 3, by decide, by decide, by decide⟩
  refine ⟨m, hm, fun st => ?_⟩
  obtain ⟨st', hrun, -, hdout⟩ := hconv st [⟨false, 0, 1, 0, true⟩, ⟨false, 0, 2, 1, true⟩, ⟨false, 0, 3, 2, true⟩]
    ⟨true, 1, 0, 0, false⟩ [⟨false, 3, 0, 0, false⟩, ⟨false, 2, 0, 0, false⟩, ⟨false, 0, 0, 0, false⟩]
    (fun i => BitVec.ofNat 2 (i + 1)) rfl (by decide) (by decide)
  exact ⟨st', hrun, hdout 2 rfl⟩

end Veriforge.Dsl

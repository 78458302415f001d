import Veriforge.Vcd.Changes
import Veriforge.Vcd.Scopes

/-! # A dump reads back as what was recorded

The header declares the registered signals, and after every call the reader has, for each of them, changes
that agree with what was recorded. Both hold just if no scope is called `_sig`. -/

namespace Veriforge.Vcd

/-! ## What is recorded -/

/-- The name of a signal in the file. -/
def Sig.fullName (sig : Sig) : Line := sig.scope ++ '.' :: sig.name

/-- The time that later calls record at. -/
def Op.timeAfter (now : Int) : Op → Int
  | .setTime time => time
  | .change _ _ => now
  | .dumpAll time _ => time

/-- What a call records of the signal registered under a key. -/
def Op.records (key : Line) (now : Int) : Op → List (Int × Value)
  | .setTime _ => []
  | .change name value => if name = key then [(now, value)] else []
  | .dumpAll time values => (values key).toList.map fun value => ((time : Int), value)

/-- What calls record of the signal registered under a key, each value with its time. -/
def recordsOf (key : Line) (now : Int) : List Op → List (Int × Value)
  | [] => []
  | op :: ops => op.records key now ++ recordsOf key (op.timeAfter now) ops

/-- The times of calls do not decrease. -/
def NonDecreasing (now : Int) : List Op → Prop
  | [] => True
  | op :: ops => now ≤ op.timeAfter now ∧ NonDecreasing (op.timeAfter now) ops

/-- The values are as wide as their signals. -/
def Op.Fits (signals : List (Line × Sig)) : Op → Prop
  | .setTime _ => True
  | .change name value => ∀ sig, (name, sig) ∈ signals → value.width = sig.width
  | .dumpAll _ values => ∀ e ∈ signals, ∀ value, values e.1 = some value → value.width = e.2.width

/-- A signal whose name and scope are made of identifiers. -/
structure Sig.Named (sig : Sig) : Prop where
  name : IsToken sig.name
  no_dot : '.' ∉ sig.name
  scope : ∀ segment ∈ sig.scope.splitOn '.', IsToken segment
  width : 1 ≤ sig.width

/-- The record that a reader should have of a signal. -/
def Sig.record (sig : Sig) : VcdSignal := ⟨sig.fullName, sig.width, sig.ident, sig.scope⟩

theorem declaration_splitOn (sig : Sig) : Sig.declaration false (sig.scope.splitOn '.', sig) = sig.record := by
  rw [Sig.declaration, declared, if_neg (List.splitOn_ne_nil _ _), List.intercalate_splitOn]
  rfl

/-- Names without a dot make full names distinct. -/
theorem splitOn_fullName {sig : Sig} (h : '.' ∉ sig.name) :
    sig.fullName.splitOn '.' = sig.scope.splitOn '.' ++ [sig.name] := by
  rw [Sig.fullName, List.splitOn_append_cons_self, List.splitOn_eq_singleton h]

theorem fullName_injective {sig sig' : Sig} (h : '.' ∉ sig.name) (h' : '.' ∉ sig'.name)
    (heq : sig.fullName = sig'.fullName) : sig.scope = sig'.scope ∧ sig.name = sig'.name := by
  have hsplit := congrArg (List.splitOn '.') heq
  rw [splitOn_fullName h, splitOn_fullName h'] at hsplit
  obtain ⟨hscope, hname⟩ := List.append_inj' hsplit rfl
  exact ⟨splitOn_dot_injective hscope, (List.cons.inj hname).1⟩

variable {floatRepr : Line → Option Line}

/-! ## Calls -/

/-- The registered signals can be told apart by everything the file knows them by. -/
structure Separate (signals : List (Line × Sig)) : Prop where
  keys : DistinctKeys signals
  ident : ∀ e ∈ signals, ∀ e' ∈ signals, e.2.ident = e'.2.ident → e = e'
  fullName : ∀ e ∈ signals, ∀ e' ∈ signals, e.2.fullName = e'.2.fullName → e = e'
  token : ∀ e ∈ signals, IsToken e.2.ident
  width : ∀ e ∈ signals, 1 ≤ e.2.width

/-- Reader and writer agree on what has been recorded. -/
structure Agrees (signals : List (Line × Sig)) (w : VcdWriter) (st : ParserState)
    (recs : Line → List (Int × Value)) : Prop where
  signals_eq : w.signals = signals
  declared : ∀ e ∈ signals, st.data.signals e.2.ident = some e.2.record
  time : w.timeWritten = true → st.time = w.currentTime.toNat
  start : w.currentTime < 0 → st.time = 0
  agrees : ∀ e ∈ signals, SignalAgrees (w.lastValues e.2.ident) (st.data.changes e.2.fullName)
    (recs e.1) e.2.width w.currentTime

theorem change_of_declared (st : ParserState) {sig : Sig} (text : Line)
    (h : st.data.signals sig.ident = some sig.record) :
    st.change sig.ident text = { st with
      data.changes := Function.update st.data.changes sig.fullName
        (st.data.changes sig.fullName ++ [(st.time, text)]) } := by
  rw [ParserState.change, h]
  rfl

theorem atTime_time {st : ParserState} {time : Int} (h : time < 0 → st.time = 0) :
    st.atTime time = { st with time := time.toNat } := by
  rw [ParserState.atTime]
  split
  · next hneg => rw [Int.toNat_of_nonpos hneg.le, ← h hneg]
  · rfl

/-- The lines of a value: a time unless it is there already, and the change. -/
theorem reads_record {st : ParserState} {sig : Sig} {time : Int} {timeWritten : Bool} (v : Value)
    (hi : IsToken sig.ident) (hw : 1 ≤ sig.width) (hv : v.width = sig.width)
    (ht : timeWritten = true → st.time = time.toNat) (hs : time < 0 → st.time = 0) :
    Reads floatRepr false st
      ((if timeWritten then [] else [timeLine time]) ++ [changeLine sig (valueToVcd v sig.width)])
      (({ st with time := time.toNat } : ParserState).change sig.ident (valueToVcd v sig.width)) := by
  rw [← hv] at hw
  obtain ⟨hbits, hlen, -⟩ := valueToVcd_spec v hw
  rw [← hv]
  refine Reads.append ?_ (reads_changeLine { st with time := time.toNat } hi hbits (hlen.trans hv) (hv ▸ hw))
  cases timeWritten with
  | true =>
    rw [if_pos rfl, ← ht rfl]
    exact Reads.nil st
  | false =>
    rw [if_neg Bool.false_ne_true, ← atTime_time hs]
    exact reads_timeLine st time

section

variable {signals : List (Line × Sig)} {w : VcdWriter} {st : ParserState}
  {recs : Line → List (Int × Value)}

/-- A recorded value of one signal leaves the others as they were. -/
theorem Agrees.record (hsep : Separate signals) (h : Agrees signals w st recs) {name : Line} {sig : Sig}
    (hmem : (name, sig) ∈ signals) {last : Option Line} {changes : List (Nat × Line)} {v : Value}
    (hsig : SignalAgrees last changes (recs name ++ [(w.currentTime, v)]) sig.width w.currentTime)
    {e : Line × Sig} (he : e ∈ signals) :
    SignalAgrees (Function.update w.lastValues sig.ident last e.2.ident)
      (Function.update st.data.changes sig.fullName changes e.2.fullName)
      (recs e.1 ++ if name = e.1 then [(w.currentTime, v)] else []) e.2.width w.currentTime := by
  by_cases heq : e = (name, sig)
  · subst heq
    rw [Function.update_self, Function.update_self, if_pos rfl]
    exact hsig
  · have hident : e.2.ident ≠ sig.ident := fun h => heq (hsep.ident _ he _ hmem h)
    have hfull : e.2.fullName ≠ sig.fullName := fun h => heq (hsep.fullName _ he _ hmem h)
    have hname : name ≠ e.1 := by
      intro h
      have hget := hsep.keys.mem_iff.mp (h ▸ hmem)
      have hget' := hsep.keys.mem_iff.mp (show (e.1, e.2) ∈ signals from he)
      rw [hget'] at hget
      exact heq (Prod.ext h.symm (Option.some.inj hget))
    rw [Function.update_of_ne hident, Function.update_of_ne hfull, if_neg hname, List.append_nil]
    exact h.agrees e he

/-- A new value is written, after the time if it is not there yet. -/
theorem change_of_new {name : Line} {sig : Sig} {v : Value} (hget : dictGet name w.signals = some sig)
    (hnew : w.lastValues sig.ident ≠ some (valueToVcd v sig.width)) :
    w.change name v = { w with
      lastValues := Function.update w.lastValues sig.ident (some (valueToVcd v sig.width))
      timeWritten := true
      file := w.file ++ ((if w.timeWritten then [] else [timeLine w.currentTime]) ++
        [changeLine sig (valueToVcd v sig.width)]) } := by
  rw [VcdWriter.change, hget]
  dsimp only
  rw [if_neg hnew, VcdWriter.ensureTimestamp]
  cases hw : w.timeWritten with
  | true => rw [if_pos rfl, if_pos rfl, List.nil_append]
  | false => exact congrArg (VcdWriter.mk _ _ _ _ _) (List.append_assoc _ _ _)

/-- A value that is the last one written, or that of a signal that is not registered, changes nothing. -/
theorem change_of_same {name : Line} {v : Value}
    (h : ∀ sig, dictGet name w.signals = some sig → w.lastValues sig.ident = some (valueToVcd v sig.width)) :
    w.change name v = w := by
  rw [VcdWriter.change]
  cases hget : dictGet name w.signals with
  | none => rfl
  | some sig =>
    dsimp only
    rw [if_pos (h sig hget)]

theorem Agrees.change (hsep : Separate signals) (h : Agrees signals w st recs) {name : Line} {v : Value}
    (hfit : (Op.change name v).Fits signals) :
    ∃ lines st', (w.change name v).file = w.file ++ lines ∧ Reads floatRepr false st lines st' ∧
      Agrees signals (w.change name v) st' fun key =>
        recs key ++ if name = key then [(w.currentTime, v)] else [] := by
  cases hget : dictGet name signals with
  | none =>
    have hnone : ∀ sig, dictGet name w.signals ≠ some sig := by
      intro sig hsig
      rw [h.signals_eq, hget] at hsig
      cases hsig
    rw [change_of_same fun sig hsig => absurd hsig (hnone sig)]
    refine ⟨[], st, (List.append_nil _).symm, Reads.nil st, h.signals_eq, h.declared, h.time, h.start, fun e he => ?_⟩
    have hne : name ≠ e.1 := by
      rintro rfl
      rw [hsep.keys.mem_iff.mp (show (e.1, e.2) ∈ signals from he)] at hget
      cases hget
    rw [if_neg hne, List.append_nil]
    exact h.agrees e he
  | some sig =>
    have hmem := hsep.keys.mem_iff.mpr hget
    have htoken : IsToken sig.ident := hsep.token _ hmem
    have hwidth : 1 ≤ sig.width := hsep.width _ hmem
    have hdecl : st.data.signals sig.ident = some sig.record := h.declared _ hmem
    have hsig := h.agrees _ hmem
    rw [← h.signals_eq] at hget
    by_cases hsame : w.lastValues sig.ident = some (valueToVcd v sig.width)
    · rw [change_of_same fun sig' hsig' => by rwa [← Option.some.inj (hget.symm.trans hsig')]]
      refine ⟨[], st, (List.append_nil _).symm, Reads.nil st, h.signals_eq, h.declared, h.time, h.start,
        fun e he => ?_⟩
      have hrec := h.record hsep hmem (hsig.skip hsame) he
      rwa [Function.update_eq_self, Function.update_eq_self] at hrec
    · rw [change_of_new hget hsame]
      have hreads : Reads floatRepr false st _ _ :=
        reads_record v htoken hwidth (hfit sig hmem) h.time h.start
      rw [change_of_declared { st with time := w.currentTime.toNat } _ hdecl] at hreads
      refine ⟨_, _, rfl, hreads, h.signals_eq, h.declared, fun _ => rfl, ?_, ?_⟩
      · exact fun hneg => Int.toNat_of_nonpos hneg.le
      · exact fun e he => h.record hsep hmem (hsig.write v) he

/-- What the loop of `dump_all` over entries does to the last values and to the reader: the signals gone
through agree with what the dump records of them, and nothing else is touched. -/
structure Dumps (floatRepr : Line → Option Line) (recs : Line → List (Int × Value))
    (values : Line → Option Value) (now : Int) (entries : List (Line × Sig)) (lines : List Line)
    (last last' : Line → Option Line) (st st' : ParserState) : Prop where
  reads : Reads floatRepr false st lines st'
  frame : st'.time = st.time ∧ st'.data.signals = st.data.signals
  changes : ∀ name, (∀ e ∈ entries, e.2.fullName ≠ name) → st'.data.changes name = st.data.changes name
  idents : ∀ ident, (∀ e ∈ entries, e.2.ident ≠ ident) → last' ident = last ident
  nothing : lines = [] → st' = st
  agrees : ∀ e ∈ entries, SignalAgrees (last' e.2.ident) (st'.data.changes e.2.fullName)
    (recs e.1 ++ (values e.1).toList.map fun v => (now, v)) e.2.width now

section

variable {values : Line → Option Value} {now : Int} {entries : List (Line × Sig)} {lines : List Line}
  {last last' : Line → Option Line} {st' : ParserState} {name : Line} {sig : Sig}

/-- Nothing is written for the first entry. -/
theorem Dumps.skip (h : Dumps floatRepr recs values now entries lines last last' st st')
    (hne : ∀ e ∈ entries, sig.ident ≠ e.2.ident ∧ sig.fullName ≠ e.2.fullName)
    (hsig : SignalAgrees (last sig.ident) (st.data.changes sig.fullName)
      (recs name ++ (values name).toList.map fun v => (now, v)) sig.width now) :
    Dumps floatRepr recs values now ((name, sig) :: entries) lines last last' st st' where
  reads := h.reads
  frame := h.frame
  changes := fun n hn => h.changes n fun e he => hn e (List.mem_cons_of_mem _ he)
  idents := fun i hi => h.idents i fun e he => hi e (List.mem_cons_of_mem _ he)
  nothing := h.nothing
  agrees := by
    intro e he
    rcases List.mem_cons.mp he with rfl | he
    · rw [h.changes _ fun e he h => (hne e he).2 h.symm, h.idents _ fun e he h => (hne e he).1 h.symm]
      exact hsig
    · exact h.agrees e he

/-- A value of the first entry is written. -/
theorem Dumps.write {text : Line} {changes : List (Nat × Line)}
    (h : Dumps floatRepr recs values now entries lines (Function.update last sig.ident (some text)) last'
      { st with data.changes := Function.update st.data.changes sig.fullName changes } st')
    (hline : Reads floatRepr false st [changeLine sig text]
      { st with data.changes := Function.update st.data.changes sig.fullName changes })
    (hne : ∀ e ∈ entries, sig.ident ≠ e.2.ident ∧ sig.fullName ≠ e.2.fullName)
    (hsig : SignalAgrees (some text) changes
      (recs name ++ (values name).toList.map fun v => (now, v)) sig.width now) :
    Dumps floatRepr recs values now ((name, sig) :: entries) (changeLine sig text :: lines) last last'
      st st' where
  reads := hline.cons h.reads
  frame := h.frame
  changes := by
    intro n hn
    rw [h.changes n fun e he => hn e (List.mem_cons_of_mem _ he)]
    exact Function.update_of_ne (hn _ List.mem_cons_self).symm _ _
  idents := by
    intro i hi
    rw [h.idents i fun e he => hi e (List.mem_cons_of_mem _ he)]
    exact Function.update_of_ne (hi _ List.mem_cons_self).symm _ _
  nothing := fun h => absurd h (List.cons_ne_nil _ _)
  agrees := by
    intro e he
    rcases List.mem_cons.mp he with rfl | he
    · rw [h.changes _ fun e he h => (hne e he).2 h.symm, h.idents _ fun e he h => (hne e he).1 h.symm]
      show SignalAgrees (Function.update last sig.ident (some text) sig.ident)
        (Function.update st.data.changes sig.fullName changes sig.fullName) _ sig.width now
      rw [Function.update_self, Function.update_self]
      exact hsig
    · exact h.agrees e he

theorem dumps_dumpParts (floatRepr : Line → Option Line) (values : Line → Option Value) (now : Int) (entries : List (Line × Sig))
    (hsep : entries.Pairwise fun e e' => e.2.ident ≠ e'.2.ident ∧ e.2.fullName ≠ e'.2.fullName)
    (hsig : ∀ e ∈ entries, IsToken e.2.ident ∧ 1 ≤ e.2.width)
    (hfit : ∀ e ∈ entries, ∀ v, values e.1 = some v → v.width = e.2.width)
    {last : Line → Option Line} {st : ParserState} (htime : st.time = now.toNat)
    (hdecl : ∀ e ∈ entries, st.data.signals e.2.ident = some e.2.record)
    (h : ∀ e ∈ entries, SignalAgrees (last e.2.ident) (st.data.changes e.2.fullName) (recs e.1)
      e.2.width now) :
    ∃ st', Dumps floatRepr recs values now entries (dumpParts values entries last).1 last
      (dumpParts values entries last).2 st st' := by
  induction entries generalizing last st with
  | nil =>
    refine ⟨st, Reads.nil st, ⟨rfl, rfl⟩, fun _ _ => rfl, fun _ _ => rfl, fun _ => rfl, ?_⟩
    exact fun e he => absurd he List.not_mem_nil
  | cons e entries ih =>
    obtain ⟨name, sig⟩ := e
    obtain ⟨hne, hsep⟩ := List.pairwise_cons.mp hsep
    obtain ⟨htoken, hwidth⟩ := hsig _ List.mem_cons_self
    have hfirst : SignalAgrees (last sig.ident) (st.data.changes sig.fullName) (recs name) sig.width now :=
      h _ List.mem_cons_self
    have hrest := fun e he => h e (List.mem_cons_of_mem (name, sig) he)
    have hdrest := fun e he => hdecl e (List.mem_cons_of_mem (name, sig) he)
    have ih := @ih hsep (fun e he => hsig e (List.mem_cons_of_mem _ he))
      (fun e he => hfit e (List.mem_cons_of_mem _ he))
    cases hvalue : values name with
    | none =>
      obtain ⟨st', hd⟩ := ih htime hdrest hrest
      have hdump : dumpParts values ((name, sig) :: entries) last = dumpParts values entries last := by
        rw [dumpParts, hvalue]
      rw [hdump]
      refine ⟨st', hd.skip hne ?_⟩
      rw [hvalue, Option.toList_none, List.map_nil, List.append_nil]
      exact hfirst
    | some v =>
      by_cases hsame : last sig.ident = some (valueToVcd v sig.width)
      · obtain ⟨st', hd⟩ := ih htime hdrest hrest
        have hdump : dumpParts values ((name, sig) :: entries) last = dumpParts values entries last := by
          rw [dumpParts, hvalue]
          exact if_pos hsame
        rw [hdump]
        refine ⟨st', hd.skip hne ?_⟩
        rw [hvalue]
        exact hfirst.skip hsame
      · have hv : v.width = sig.width := hfit _ List.mem_cons_self v hvalue
        obtain ⟨hbits, hlen, -⟩ := valueToVcd_spec v (hv ▸ hwidth)
        rw [hv] at hbits hlen
        have hline : Reads floatRepr false st _ _ := reads_changeLine st htoken hbits hlen hwidth
        rw [change_of_declared st _ (hdecl _ List.mem_cons_self)] at hline
        have hdump : dumpParts values ((name, sig) :: entries) last
            = (changeLine sig (valueToVcd v sig.width) ::
                (dumpParts values entries
                  (Function.update last sig.ident (some (valueToVcd v sig.width)))).1,
              (dumpParts values entries
                (Function.update last sig.ident (some (valueToVcd v sig.width)))).2) := by
          rw [dumpParts, hvalue]
          exact if_neg hsame
        obtain ⟨st', hd⟩ := @ih (Function.update last sig.ident (some (valueToVcd v sig.width)))
          { st with data.changes := (Function.update st.data.changes sig.fullName
              (st.data.changes sig.fullName ++ [(st.time, valueToVcd v sig.width)])) }
          htime hdrest (by
            intro e he
            show SignalAgrees (Function.update last sig.ident _ e.2.ident)
              (Function.update st.data.changes sig.fullName _ e.2.fullName) _ _ _
            rw [Function.update_of_ne (hne e he).1.symm, Function.update_of_ne (hne e he).2.symm]
            exact hrest e he)
        rw [hdump]
        refine ⟨st', hd.write hline hne ?_⟩
        rw [hvalue, htime]
        exact hfirst.write v

end

theorem Separate.pairwise (h : Separate signals) :
    signals.Pairwise fun e e' => e.2.ident ≠ e'.2.ident ∧ e.2.fullName ≠ e'.2.fullName := by
  refine (List.Nodup.of_map _ h.keys).pairwise_of_forall_ne ?_
  intro e he e' he' hne
  exact ⟨fun h' => hne (h.ident e he e' he' h'), fun h' => hne (h.fullName e he e' he' h')⟩

theorem Agrees.dumpAll (hsep : Separate signals) (h : Agrees signals w st recs) {time : Nat}
    {values : Line → Option Value} (hle : w.currentTime ≤ time)
    (hfit : (Op.dumpAll time values).Fits signals) :
    ∃ lines st', (w.dumpAll time values).file = w.file ++ lines ∧ Reads floatRepr false st lines st' ∧
      Agrees signals (w.dumpAll time values) st' fun key =>
        recs key ++ (values key).toList.map fun v => ((time : Int), v) := by
  have htime : ({ st with time := time } : ParserState).time = (time : Int).toNat := rfl
  obtain ⟨st', hd⟩ := dumps_dumpParts floatRepr values time signals hsep.pairwise
    (fun e he => ⟨hsep.token e he, hsep.width e he⟩) hfit htime h.declared
    (fun e he => (h.agrees e he).later hle)
  have hstart : (time : Int) < 0 → st'.time = 0 := fun hneg => absurd hneg (by omega)
  have hdecl : ∀ e ∈ signals, st'.data.signals e.2.ident = some e.2.record := by
    rw [hd.frame.2]
    exact h.declared
  rw [VcdWriter.dumpAll, VcdWriter.setTime, h.signals_eq]
  dsimp only
  by_cases hnil : (dumpParts values signals w.lastValues).1 = []
  · -- nothing is new: no time is written
    rw [if_pos hnil]
    refine ⟨[], st, (List.append_nil _).symm, Reads.nil st, rfl, h.declared,
      fun h => absurd h Bool.false_ne_true, fun hneg => absurd hneg (Int.natCast_nonneg time).not_gt, ?_⟩
    have hagrees := hd.agrees
    rw [hd.nothing hnil] at hagrees
    exact hagrees
  · rw [if_neg hnil]
    have htimeLine : Reads floatRepr false st _ _ := reads_timeLine st time
    rw [atTime_time fun hneg => absurd hneg (by omega)] at htimeLine
    exact ⟨_, st', rfl, htimeLine.cons hd.reads, rfl, hdecl, fun _ => hd.frame.1, hstart, hd.agrees⟩

theorem currentTime_change (w : VcdWriter) (name : Line) (v : Value) :
    (w.change name v).currentTime = w.currentTime := by
  rw [VcdWriter.change]
  split
  · rfl
  · dsimp only
    split
    · rfl
    · rw [VcdWriter.ensureTimestamp]
      split <;> rfl

theorem currentTime_dumpAll (w : VcdWriter) (time : Int) (values : Line → Option Value) :
    (w.dumpAll time values).currentTime = time := by
  rw [VcdWriter.dumpAll]
  dsimp only
  split <;> rfl

/-- Every call keeps reader and writer in agreement. -/
theorem Agrees.call (floatRepr : Line → Option Line) (hsep : Separate signals) (h : Agrees signals w st recs) {op : Op}
    (hle : w.currentTime ≤ op.timeAfter w.currentTime) (hfit : op.Fits signals) :
    ∃ lines st', (w.call op).file = w.file ++ lines ∧ Reads floatRepr false st lines st' ∧
      (w.call op).currentTime = op.timeAfter w.currentTime ∧
      Agrees signals (w.call op) st' fun key => recs key ++ op.records key w.currentTime := by
  cases op with
  | setTime time =>
    refine ⟨[], st, (List.append_nil _).symm, Reads.nil st, rfl, h.signals_eq, h.declared,
      fun h => absurd h Bool.false_ne_true, fun hneg => absurd hneg (Int.natCast_nonneg time).not_gt, ?_⟩
    intro e he
    show SignalAgrees _ _ (recs e.1 ++ []) _ _
    rw [List.append_nil]
    exact (h.agrees e he).later hle
  | change name v =>
    obtain ⟨lines, st', hfile, hreads, hagrees⟩ := h.change hsep hfit
    exact ⟨lines, st', hfile, hreads, currentTime_change w name v, hagrees⟩
  | dumpAll time values =>
    obtain ⟨lines, st', hfile, hreads, hagrees⟩ := h.dumpAll hsep hle hfit
    exact ⟨lines, st', hfile, hreads, currentTime_dumpAll w time values, hagrees⟩

/-- A whole run of calls. -/
theorem Agrees.run (floatRepr : Line → Option Line) (hsep : Separate signals) (h : Agrees signals w st recs) {ops : List Op}
    (htimes : NonDecreasing w.currentTime ops) (hfit : ∀ op ∈ ops, op.Fits signals) :
    ∃ lines st', (ops.foldl VcdWriter.call w).file = w.file ++ lines ∧ Reads floatRepr false st lines st' ∧
      Agrees signals (ops.foldl VcdWriter.call w) st' fun key =>
        recs key ++ recordsOf key w.currentTime ops := by
  induction ops generalizing w st recs with
  | nil =>
    refine ⟨[], st, (List.append_nil _).symm, Reads.nil st, ?_⟩
    show Agrees signals w st fun key => recs key ++ []
    simp only [List.append_nil]
    exact h
  | cons op ops ih =>
    obtain ⟨hle, htimes⟩ := htimes
    obtain ⟨lines, st', hfile, hreads, htime, hagrees⟩ :=
      h.call floatRepr hsep hle (hfit op List.mem_cons_self)
    rw [← htime] at htimes
    obtain ⟨lines', st'', hfile', hreads', hagrees'⟩ :=
      ih hagrees htimes fun op' h => hfit op' (List.mem_cons_of_mem _ h)
    refine ⟨lines ++ lines', st'', ?_, hreads.append hreads', ?_⟩
    · rw [List.foldl_cons, hfile', hfile, List.append_assoc]
    · rw [List.foldl_cons]
      simp only [htime, List.append_assoc] at hagrees'
      exact hagrees'

end

/-! ## Lines of the body -/

/-- A line after the header. -/
def IsBodyLine (line : Line) : Prop :=
  (∃ time, line = timeLine time) ∨ ∃ (sig : Sig) (text : Line), IsToken sig.ident ∧ 1 ≤ sig.width ∧ IsVcdBits text ∧
      text.length = sig.width ∧ line = changeLine sig text

theorem isBodyLine_change {sig : Sig} {v : Value} (hi : IsToken sig.ident) (hw : 1 ≤ sig.width)
    (hv : v.width = sig.width) : IsBodyLine (changeLine sig (valueToVcd v sig.width)) := by
  obtain ⟨hbits, hlen, -⟩ := valueToVcd_spec v (hv ▸ hw)
  rw [hv] at hbits hlen
  exact Or.inr ⟨sig, _, hi, hw, hbits, hlen, rfl⟩

theorem IsBodyLine.newline_not_mem {line : Line} (h : IsBodyLine line) : '\n' ∉ line := by
  rcases h with ⟨time, rfl⟩ | ⟨sig, text, hi, hw, hbits, hlen, rfl⟩
  · have htoken : IsToken (timeLine time) := by
      rw [timeLine]
      split
      · exact ((isToken_toDigits _).cons (by decide)).cons (by decide)
      · exact (isToken_toDigits _).cons (by decide)
    exact fun hmem => absurd (htoken.2 _ hmem) (by decide)
  · have hne : text ≠ [] := by
      rintro rfl
      rw [List.length_nil] at hlen
      omega
    have htext := hbits.isToken hne
    rw [changeLine]
    split
    · intro hmem
      rcases List.mem_append.mp hmem with hmem | hmem
      · exact absurd (htext.2 _ hmem) (by decide)
      · exact absurd (hi.2 _ hmem) (by decide)
    · refine newline_not_mem_unwords fun w hw => ?_
      simp only [List.mem_cons, List.not_mem_nil, or_false] at hw
      rcases hw with rfl | rfl
      · exact htext.cons rfl
      · exact hi

/-- The lines after the header declare nothing. -/
theorem reads_body (floatRepr : Line → Option Line) {lines : List Line} (h : ∀ l ∈ lines, IsBodyLine l) (st : ParserState) :
    ∃ st', Reads floatRepr false st lines st' ∧ st'.data.signals = st.data.signals := by
  induction lines generalizing st with
  | nil => exact ⟨st, Reads.nil st, rfl⟩
  | cons l lines ih =>
    have hline : ∃ st', Reads floatRepr false st [l] st' ∧ st'.data.signals = st.data.signals := by
      rcases h l List.mem_cons_self with ⟨time, rfl⟩ | ⟨sig, text, hi, hw, hbits, hlen, rfl⟩
      · refine ⟨_, reads_timeLine st time, ?_⟩
        rw [ParserState.atTime]
        split <;> rfl
      · refine ⟨_, reads_changeLine st hi hbits hlen hw, ?_⟩
        rw [ParserState.change]
        split <;> rfl
    obtain ⟨st', hreads, hsig⟩ := hline
    obtain ⟨st'', hreads', hsig'⟩ := ih (fun l' h' => h l' (List.mem_cons_of_mem _ h')) st'
    exact ⟨st'', hreads.cons hreads', hsig'.trans hsig⟩

section

variable {signals : List (Line × Sig)} {w : VcdWriter}

theorem isBodyLine_dumpParts {values : Line → Option Value} {entries : List (Line × Sig)}
    (hsig : ∀ e ∈ entries, IsToken e.2.ident ∧ 1 ≤ e.2.width)
    (hfit : ∀ e ∈ entries, ∀ v, values e.1 = some v → v.width = e.2.width) (last : Line → Option Line) :
    ∀ l ∈ (dumpParts values entries last).1, IsBodyLine l := by
  induction entries generalizing last with
  | nil => exact fun _ hl => absurd hl List.not_mem_nil
  | cons e entries ih =>
    obtain ⟨name, sig⟩ := e
    have ih := ih (fun e he => hsig e (List.mem_cons_of_mem _ he))
      fun e he => hfit e (List.mem_cons_of_mem _ he)
    rw [dumpParts]
    cases hvalue : values name with
    | none => exact ih last
    | some v =>
      dsimp only
      split
      · exact ih last
      · obtain ⟨hi, hw⟩ := hsig _ List.mem_cons_self
        intro l hl
        rcases List.mem_cons.mp hl with rfl | hl
        · exact isBodyLine_change hi hw (hfit _ List.mem_cons_self v hvalue)
        · exact ih _ l hl

/-- A call writes lines of the body and registers nothing. -/
theorem isBodyLine_call (hw : w.signals = signals) (hkeys : DistinctKeys signals)
    (hsig : ∀ e ∈ signals, IsToken e.2.ident ∧ 1 ≤ e.2.width) {op : Op} (hfit : op.Fits signals) :
    (w.call op).signals = signals ∧ ∃ lines, (w.call op).file = w.file ++ lines ∧ ∀ l ∈ lines, IsBodyLine l := by
  have hnil : ∃ lines, w.file = w.file ++ lines ∧ ∀ l ∈ lines, IsBodyLine l :=
    ⟨[], (List.append_nil _).symm, fun _ hl => absurd hl List.not_mem_nil⟩
  cases op with
  | setTime time => exact ⟨hw, hnil⟩
  | change name v =>
    rw [VcdWriter.call]
    by_cases hsame : ∀ sig, dictGet name w.signals = some sig → w.lastValues sig.ident = some (valueToVcd v sig.width)
    · rw [change_of_same hsame]
      exact ⟨hw, hnil⟩
    · push Not at hsame
      obtain ⟨sig, hget, hnew⟩ := hsame
      have hmem : (name, sig) ∈ signals := hkeys.mem_iff.mpr (hw ▸ hget)
      obtain ⟨hi, hwidth⟩ := hsig _ hmem
      rw [change_of_new hget hnew]
      refine ⟨hw, _, rfl, ?_⟩
      intro l hl
      rcases List.mem_append.mp hl with hl | hl
      · split at hl
        · exact absurd hl List.not_mem_nil
        · exact Or.inl ⟨_, List.mem_singleton.mp hl⟩
      · rw [List.mem_singleton.mp hl]
        exact isBodyLine_change hi hwidth (hfit sig hmem)
  | dumpAll time values =>
    rw [VcdWriter.call, VcdWriter.dumpAll, VcdWriter.setTime]
    dsimp only
    rw [hw]
    split
    · exact ⟨rfl, hnil⟩
    · refine ⟨rfl, _, rfl, ?_⟩
      intro l hl
      rcases List.mem_cons.mp hl with rfl | hl
      · exact Or.inl ⟨_, rfl⟩
      · exact isBodyLine_dumpParts hsig hfit _ l hl

theorem isBodyLine_run (hw : w.signals = signals) (hkeys : DistinctKeys signals)
    (hsig : ∀ e ∈ signals, IsToken e.2.ident ∧ 1 ≤ e.2.width) {ops : List Op}
    (hfit : ∀ op ∈ ops, op.Fits signals) :
    ∃ lines, (ops.foldl VcdWriter.call w).file = w.file ++ lines ∧ ∀ l ∈ lines, IsBodyLine l := by
  induction ops generalizing w with
  | nil => exact ⟨[], (List.append_nil _).symm, fun _ hl => absurd hl List.not_mem_nil⟩
  | cons op ops ih =>
    obtain ⟨hw', lines, hfile, hlines⟩ := isBodyLine_call hw hkeys hsig (hfit op List.mem_cons_self)
    obtain ⟨lines', hfile', hlines'⟩ := ih hw' fun op' h => hfit op' (List.mem_cons_of_mem _ h)
    refine ⟨lines ++ lines', ?_, ?_⟩
    · rw [List.foldl_cons, hfile', hfile, List.append_assoc]
    · intro l hl
      exact (List.mem_append.mp hl).elim (hlines l) (hlines' l)

end

/-! ## The file -/

/-- What the text of a run should read back as: exactly the registered signals, under their full names and
with their widths, and at every time the values last recorded. -/
def ReadsBack (floatRepr : Line → Option Line) (p : Preamble) (rs : List Registration) (ops : List Op) : Prop :=
  ∃ text, record p rs ops = some text ∧
    (∀ name width, (∃ ident s, (parseVcd floatRepr false text).signals ident = some s ∧
        s.name = name ∧ s.width = width) ↔
      ∃ e ∈ (registered rs).signals, e.2.fullName = name ∧ e.2.width = width) ∧
    ∀ e ∈ (registered rs).signals, ∀ time : Nat,
      ((parseVcd floatRepr false text).valuesAt e.2.fullName time).map readBits
        = lastAt time (recordsOf e.1 (-1) ops)

theorem parseVcd_lines {lines : List Line} {st : ParserState} (hline : ∀ l ∈ lines, '\n' ∉ l)
    (h : Reads floatRepr false .init lines st) :
    parseVcd floatRepr false (lines.flatMap fun l => l ++ ['\n']) = st.data := by
  rw [parseVcd, splitOn_newline_lines hline, h]
  rfl

section

variable {signals : List (Line × Sig)} {p : Preamble} {body : List Line}

theorem writable_of_mem_scopesOf (h : ∀ e ∈ signals, e.2.Named ∧ IsToken e.2.ident)
    {e : Line × List Sig} (he : e ∈ scopesOf signals) {sig : Sig} (hs : sig ∈ e.2) :
    sig.IsWritable ∧ '.' ∉ sig.name := by
  obtain ⟨-, name, hmem⟩ := (mem_scopesOf_iff signals e.1 sig).mp ⟨e.2, he, hs⟩
  obtain ⟨hnamed, hident⟩ := h _ hmem
  exact ⟨⟨hident, hnamed.name⟩, hnamed.no_dot⟩

theorem token_of_mem_scopesOf (h : ∀ e ∈ signals, e.2.Named ∧ IsToken e.2.ident)
    {e : Line × List Sig} (he : e ∈ scopesOf signals) : ∀ segment ∈ e.1.splitOn '.', IsToken segment := by
  obtain ⟨e', he', hscope⟩ := exists_of_mem_scopesOf he
  rw [← hscope]
  exact (h e' he').1.scope

theorem not_mem_of_mem_splitOn {s segment : Line} (h : segment ∈ s.splitOn '.') : '.' ∉ segment := by
  induction s generalizing segment with
  | nil =>
    rw [List.splitOn_nil, List.mem_singleton] at h
    rw [h]
    exact List.not_mem_nil
  | cons c s ih =>
    rw [List.splitOn_cons_eq_if_modifyHead] at h
    split at h
    · rcases List.mem_cons.mp h with rfl | h
      · exact List.not_mem_nil
      · exact ih h
    · next hc =>
      obtain ⟨first, rest, hsplit⟩ := List.exists_cons_of_ne_nil (List.splitOn_ne_nil '.' s)
      rw [hsplit, List.modifyHead_cons] at h
      rcases List.mem_cons.mp h with rfl | h
      · rw [List.mem_cons, not_or]
        refine ⟨fun hdot => hc (by rw [← hdot]; rfl), ih ?_⟩
        rw [hsplit]
        exact List.mem_cons_self
      · exact ih (hsplit ▸ List.mem_cons_of_mem _ h)

/-- The header takes the reader to the declarations of the tree's signals. -/
theorem reads_header (floatRepr : Line → Option Line) (p : Preamble) (h : ∀ e ∈ signals, e.2.Named ∧ IsToken e.2.ident)
    (hb : writeScopes (scopesOf signals) = some body) :
    (∀ l ∈ headerLines p body, '\n' ∉ l) ∧
      ∃ root scale vs, scopeTree (scopesOf signals) = some root ∧ vs.Perm (root.vars []) ∧
        Reads floatRepr false .init (headerLines p body)
          (({ ParserState.init with data.timescale := scale } : ParserState).declareAll false vs) := by
  obtain ⟨root, hroot, hemit⟩ := Option.bind_eq_some_iff.mp hb
  have hover : root.Over IsToken Sig.IsWritable :=
    scopeTree_over (by decide) (fun e he => token_of_mem_scopesOf h he)
      (fun e he sig hs => (writable_of_mem_scopesOf h he hs).1) hroot
  constructor
  · intro l hl
    have hblank : '\n' ∉ "$date ".toList ∧ '\n' ∉ "$timescale ".toList ∧ '\n' ∉ " $end".toList := by decide
    rcases List.mem_cons.mp hl with rfl | hl
    · rw [List.mem_append, List.mem_append, not_or, not_or]
      exact ⟨⟨hblank.1, p.now_line⟩, hblank.2.2⟩
    rcases List.mem_cons.mp hl with rfl | hl
    · decide
    rcases List.mem_cons.mp hl with rfl | hl
    · rw [List.mem_append, List.mem_append, not_or, not_or]
      exact ⟨⟨hblank.2.1, p.timescale_line⟩, hblank.2.2⟩
    rcases List.mem_append.mp hl with hl | hl
    · exact root.newline_not_mem_emit hover hemit l hl
    · rw [List.mem_singleton.mp hl]
      decide
  · obtain ⟨vs, hperm, hreads⟩ := root.reads_emit [] hover hemit
    obtain ⟨scale, hscale⟩ := reads_timescaleLine ParserState.init p.timescale
    refine ⟨root, scale, vs, hroot, hperm, ?_⟩
    exact (reads_dateLine _ p.now).cons ((reads_versionLine _).cons (hscale.cons
      ((hreads _ rfl).append (reads_enddefinitions _))))

end

/-- What the registered signals satisfy. -/
theorem separate_registered {rs : List Registration} (hnamed : ∀ e ∈ (registered rs).signals, e.2.Named)
    (hdistinct : ((registered rs).signals.map fun e => (e.2.scope, e.2.name)).Nodup) :
    Separate (registered rs).signals := by
  obtain ⟨-, hkeys, hids, hinj⟩ := registered_inv rs
  refine ⟨hkeys, hinj, ?_, ?_, fun e he => (hnamed e he).width⟩
  · intro e he e' he' h
    obtain ⟨hscope, hname⟩ := fullName_injective (hnamed e he).no_dot (hnamed e' he').no_dot h
    exact List.inj_on_of_nodup_map hdistinct he he' (Prod.ext hscope hname)
  · intro e he
    obtain ⟨n, -, hid⟩ := hids e he
    rw [hid]
    exact isToken_makeId n

theorem width_of_mem_recordsOf {signals : List (Line × Sig)} {e : Line × Sig} (he : e ∈ signals)
    {ops : List Op} (hfit : ∀ op ∈ ops, op.Fits signals) {now : Int} {r : Int × Value}
    (hr : r ∈ recordsOf e.1 now ops) : r.2.width = e.2.width := by
  induction ops generalizing now with
  | nil => exact absurd hr List.not_mem_nil
  | cons op ops ih =>
    rw [recordsOf, List.mem_append] at hr
    rcases hr with hr | hr
    · have hop := hfit op List.mem_cons_self
      cases op with
      | setTime time => exact absurd hr List.not_mem_nil
      | change name v =>
        rw [Op.records] at hr
        split at hr
        · next hname =>
          rw [List.mem_singleton.mp hr]
          exact hop e.2 (hname ▸ he)
        · exact absurd hr List.not_mem_nil
      | dumpAll time values =>
        obtain ⟨v, hv, rfl⟩ := List.mem_map.mp hr
        exact hop e he v (Option.mem_toList.mp hv)
    · exact ih (fun op' h => hfit op' (List.mem_cons_of_mem _ h)) hr

/-- Texts of recorded values are read back as the values. -/
theorem map_readBits_lastAt {recs : List (Int × Value)} {width time : Nat} (hw : 1 ≤ width)
    (hrecs : ∀ r ∈ recs, r.2.width = width) :
    ((lastAt time recs).map (valueToVcd · width)).map readBits = lastAt time recs := by
  cases hlast : lastAt time recs with
  | none => rfl
  | some v =>
    rw [lastAt, Option.map_eq_some_iff] at hlast
    obtain ⟨r, hr, rfl⟩ := hlast
    have hv := hrecs r (List.mem_filter.mp (List.mem_of_getLast? hr)).1
    rw [Option.map_some, Option.map_some, ← hv, readBits_valueToVcd _ (hv ▸ hw)]

section

variable {p : Preamble} {rs : List Registration} {ops : List Op} {body : List Line}

/-- The writer after its header. -/
def headed (p : Preamble) (rs : List Registration) (body : List Line) : VcdWriter :=
  { registered rs with file := headerLines p body }

theorem record_eq (hb : writeScopes (scopesOf (registered rs).signals) = some body) :
    record p rs ops = some ((ops.foldl VcdWriter.call (headed p rs body)).file.flatMap
      fun line => line ++ ['\n']) := by
  obtain ⟨⟨-, -, -, hfile⟩, -⟩ := registered_inv rs
  rw [record, VcdWriter.writeHeader, hb, headed, hfile]
  rfl

/-- The data read from the text of a run: the declarations are those of the tree. -/
theorem parseVcd_record (floatRepr : Line → Option Line)
    (hnamed : ∀ e ∈ (registered rs).signals, e.2.Named)
    (hdistinct : ((registered rs).signals.map fun e => (e.2.scope, e.2.name)).Nodup)
    (hfit : ∀ op ∈ ops, op.Fits (registered rs).signals)
    (hb : writeScopes (scopesOf (registered rs).signals) = some body) {text : Line}
    (htext : record p rs ops = some text) :
    ∃ root scale vs lines, scopeTree (scopesOf (registered rs).signals) = some root ∧ vs.Perm (root.vars []) ∧
      (ops.foldl VcdWriter.call (headed p rs body)).file = headerLines p body ++ lines ∧
      (parseVcd floatRepr false text).signals
        = (({ ParserState.init with data.timescale := scale } : ParserState).declareAll false vs).data.signals ∧
      ∀ st, Reads floatRepr false
          (({ ParserState.init with data.timescale := scale } : ParserState).declareAll false vs) lines st →
        parseVcd floatRepr false text = st.data := by
  have hsep := separate_registered hnamed hdistinct
  have hsigs : ∀ e ∈ (registered rs).signals, e.2.Named ∧ IsToken e.2.ident :=
    fun e he => ⟨hnamed e he, hsep.token e he⟩
  obtain ⟨hline, root, scale, vs, hroot, hperm, hheader⟩ := reads_header floatRepr p hsigs hb
  obtain ⟨lines, hlines, hbody⟩ := isBodyLine_run (w := headed p rs body) rfl hsep.keys
    (fun e he => ⟨hsep.token e he, hsep.width e he⟩) hfit
  have hnewline : ∀ l ∈ headerLines p body ++ lines, '\n' ∉ l := fun l hl =>
    (List.mem_append.mp hl).elim (hline l) fun hl => (hbody l hl).newline_not_mem
  have hparse : ∀ st, Reads floatRepr false
      (({ ParserState.init with data.timescale := scale } : ParserState).declareAll false vs) lines st →
      parseVcd floatRepr false text = st.data := by
    intro st hst
    rw [record_eq hb, hlines] at htext
    rw [← Option.some.inj htext]
    exact parseVcd_lines hnewline (hheader.append hst)
  refine ⟨root, scale, vs, lines, hroot, hperm, hlines, ?_, hparse⟩
  obtain ⟨st, hreads, hsignals⟩ := reads_body floatRepr hbody
    (({ ParserState.init with data.timescale := scale } : ParserState).declareAll false vs)
  rw [hparse st hreads, hsignals]

end

section

variable {p : Preamble} {rs : List Registration} {ops : List Op}

/-- A signal under a scope `_sig` is not declared. -/
theorem not_sig_of_readsBack (hnamed : ∀ e ∈ (registered rs).signals, e.2.Named)
    (hdistinct : ((registered rs).signals.map fun e => (e.2.scope, e.2.name)).Nodup)
    (hfit : ∀ op ∈ ops, op.Fits (registered rs).signals) (h : ReadsBack floatRepr p rs ops) :
    ∀ e ∈ (registered rs).signals, sigKey ∉ e.2.scope.splitOn '.' := by
  intro e he hkey
  obtain ⟨text, htext, hdecl, -⟩ := h
  cases hb : writeScopes (scopesOf (registered rs).signals) with
  | none =>
    rw [record, VcdWriter.writeHeader, hb] at htext
    cases htext
  | some body =>
    have hsep := separate_registered hnamed hdistinct
    obtain ⟨root, scale, vs, lines, hroot, hperm, -, hsignals, -⟩ :=
      parseVcd_record floatRepr hnamed hdistinct hfit hb htext
    obtain ⟨ident, s, hs, hname, -⟩ := (hdecl e.2.fullName e.2.width).mpr ⟨e, he, rfl, rfl⟩
    rw [hsignals] at hs
    obtain ⟨⟨q, sig⟩, hv, rfl⟩ := mem_of_signals_declareAll rfl hs
    -- the signal that has the full name was written in a scope without `_sig`
    have hover : root.Over (fun segment => '.' ∉ segment) (fun sig => '.' ∉ sig.name) :=
      scopeTree_over (by decide) (fun e _ segment hs => not_mem_of_mem_splitOn hs)
        (fun e he sig hs => (writable_of_mem_scopesOf
          (fun e he => ⟨hnamed e he, hsep.token e he⟩) he hs).2) hroot
    obtain ⟨⟨segment, path, hq, hpath⟩, hdot⟩ := hover.mem_vars (hperm.mem_iff.mp hv)
    rw [List.nil_append] at hq
    have hne : q ≠ [] := by
      rw [hq]
      exact List.cons_ne_nil _ _
    have hfull : (Sig.declaration false (q, sig)).name = ['.'].intercalate q ++ '.' :: sig.name := by
      rw [Sig.declaration, declared, if_neg hne]
      rfl
    have hsplit := congrArg (List.splitOn '.') (hfull.symm.trans hname)
    rw [List.splitOn_append_cons_self, List.splitOn_eq_singleton hdot,
      List.splitOn_intercalate '.' (fun s hs => (hpath s (hq ▸ hs)).1) hne,
      splitOn_fullName (hnamed e he).no_dot] at hsplit
    rw [← (List.append_inj' hsplit rfl).1, hq] at hkey
    exact (hpath sigKey hkey).2 rfl

/-- Without such a scope the tree holds every signal in its place, and is written. -/
theorem exists_body (hkey : ∀ e ∈ (registered rs).signals, sigKey ∉ e.2.scope.splitOn '.') :
    ∃ body, writeScopes (scopesOf (registered rs).signals) = some body ∧
      ∀ root, scopeTree (scopesOf (registered rs).signals) = some root → ∀ v,
        v ∈ root.vars [] ↔ v.1 = v.2.scope.splitOn '.' ∧ ∃ name, (name, v.2) ∈ (registered rs).signals := by
  have hscopes : ∀ e ∈ scopesOf (registered rs).signals, sigKey ∉ e.1.splitOn '.' := by
    intro e he
    obtain ⟨e', he', hscope⟩ := exists_of_mem_scopesOf he
    rw [← hscope]
    exact hkey e' he'
  obtain ⟨root, hroot, hwf, hhas⟩ := scopeTree_has (mem_scopesOf _).1 hscopes
  obtain ⟨body, hbody⟩ := hwf.emit
  refine ⟨body, ?_, ?_⟩
  · rw [writeScopes, hroot, Option.bind_some, hbody]
  · intro root' hroot' v
    cases hroot.symm.trans hroot'
    obtain ⟨q, sig⟩ := v
    rw [hwf.mem_vars]
    constructor
    · rintro ⟨segment, path, rfl, h⟩
      obtain ⟨e, he, hsplit, hsig⟩ := (hhas _ _).mp h
      obtain ⟨hscope, hname⟩ := (mem_scopesOf_iff _ e.1 sig).mp ⟨e.2, he, hsig⟩
      refine ⟨?_, hname⟩
      rw [List.nil_append, ← hsplit, hscope]
    · rintro ⟨hq, hname⟩
      change q = sig.scope.splitOn '.' at hq
      subst hq
      obtain ⟨segment, path, hsplit⟩ := List.exists_cons_of_ne_nil (List.splitOn_ne_nil '.' sig.scope)
      refine ⟨segment, path, hsplit, ?_⟩
      rw [← hsplit, hhas]
      obtain ⟨sigs, he, hsig⟩ := (mem_scopesOf_iff _ sig.scope sig).mpr ⟨rfl, hname⟩
      exact ⟨_, he, rfl, hsig⟩

theorem readsBack_of_not_sig (floatRepr : Line → Option Line) (p : Preamble)
    (hnamed : ∀ e ∈ (registered rs).signals, e.2.Named)
    (hdistinct : ((registered rs).signals.map fun e => (e.2.scope, e.2.name)).Nodup)
    (htimes : NonDecreasing (-1) ops) (hfit : ∀ op ∈ ops, op.Fits (registered rs).signals)
    (hkey : ∀ e ∈ (registered rs).signals, sigKey ∉ e.2.scope.splitOn '.') :
    ReadsBack floatRepr p rs ops := by
  obtain ⟨⟨htime, hwritten, hlast, -⟩, -⟩ := registered_inv rs
  have hsep := separate_registered hnamed hdistinct
  obtain ⟨body, hb, hvars⟩ := exists_body hkey
  obtain ⟨text, htext⟩ : ∃ text, record p rs ops = some text := ⟨_, record_eq hb⟩
  obtain ⟨root, scale, vs, lines, hroot, hperm, hlines, hsignals, hparse⟩ :=
    parseVcd_record floatRepr hnamed hdistinct hfit hb htext
  have hmem : ∀ v, v ∈ vs ↔ v.1 = v.2.scope.splitOn '.' ∧ ∃ name, (name, v.2) ∈ (registered rs).signals :=
    fun v => hperm.mem_iff.trans (hvars root hroot v)
  -- each identifier is declared once
  have hinj : ∀ v ∈ vs, ∀ v' ∈ vs, v.2.ident = v'.2.ident → v = v' := by
    intro v hv v' hv' hid
    obtain ⟨hpath, name, hname⟩ := (hmem v).mp hv
    obtain ⟨hpath', name', hname'⟩ := (hmem v').mp hv'
    have hsig : v.2 = v'.2 := (Prod.mk.inj (hsep.ident _ hname _ hname' hid)).2
    exact Prod.ext (by rw [hpath, hpath', hsig]) hsig
  have hdeclared : ∀ ident s, (parseVcd floatRepr false text).signals ident = some s ↔
      ∃ e ∈ (registered rs).signals, e.2.ident = ident ∧ s = e.2.record := by
    intro ident s
    rw [hsignals, signals_declareAll rfl hinj]
    constructor
    · rintro ⟨v, hv, hid, rfl⟩
      obtain ⟨hpath, name, hname⟩ := (hmem v).mp hv
      refine ⟨_, hname, hid, ?_⟩
      rw [← declaration_splitOn, ← hpath]
    · rintro ⟨e, he, hid, rfl⟩
      exact ⟨(e.2.scope.splitOn '.', e.2), (hmem _).mpr ⟨rfl, e.1, he⟩, hid, (declaration_splitOn e.2).symm⟩
  refine ⟨text, htext, ?_, ?_⟩
  · intro name width
    constructor
    · rintro ⟨ident, s, hs, hname, hwidth⟩
      obtain ⟨e, he, -, rfl⟩ := (hdeclared ident s).mp hs
      exact ⟨e, he, hname, hwidth⟩
    · rintro ⟨e, he, hname, hwidth⟩
      exact ⟨e.2.ident, e.2.record, (hdeclared _ _).mpr ⟨e, he, rfl, rfl⟩, hname, hwidth⟩
  · -- at the start nothing is recorded, and the reader has no changes
    have hstart : Agrees (registered rs).signals (headed p rs body)
        (({ ParserState.init with data.timescale := scale } : ParserState).declareAll false vs)
        fun _ => [] := by
      obtain ⟨hframe, hchanges⟩ := frame_declareAll false { ParserState.init with data.timescale := scale } vs
      refine ⟨rfl, ?_, ?_, fun _ => hframe, ?_⟩
      · intro e he
        rw [← hsignals]
        exact (hdeclared _ _).mpr ⟨e, he, rfl, rfl⟩
      · intro h
        exact absurd (hwritten.symm.trans h) Bool.false_ne_true
      · intro e he
        rw [hchanges]
        show SignalAgrees ((registered rs).lastValues e.2.ident) [] [] _ _
        rw [hlast]
        exact SignalAgrees.empty _ _
    rw [← htime] at htimes
    obtain ⟨lines', st', hlines', hreads, hagrees⟩ := hstart.run floatRepr hsep htimes hfit
    rw [hlines] at hlines'
    have hsame := List.append_cancel_left hlines'
    intro e he time
    rw [hparse st' (hsame ▸ hreads), VcdData.valuesAt, (hagrees.agrees e he).value, List.nil_append]
    rw [map_readBits_lastAt (hsep.width e he) fun r hr => width_of_mem_recordsOf he hfit hr]
    show lastAt time (recordsOf e.1 (registered rs).currentTime ops) = _
    rw [htime]

end

/-- A dump reads back as the trace that was recorded just if no segment of a scope is `_sig`, the key under
which `_write_scopes` keeps the signals of a scope. -/
theorem readsBack_iff (floatRepr : Line → Option Line) (p : Preamble) {rs : List Registration} {ops : List Op}
    (hnamed : ∀ e ∈ (registered rs).signals, e.2.Named)
    (hdistinct : ((registered rs).signals.map fun e => (e.2.scope, e.2.name)).Nodup)
    (htimes : NonDecreasing (-1) ops) (hfit : ∀ op ∈ ops, op.Fits (registered rs).signals) :
    ReadsBack floatRepr p rs ops ↔ ∀ e ∈ (registered rs).signals, sigKey ∉ e.2.scope.splitOn '.' :=
  ⟨not_sig_of_readsBack hnamed hdistinct hfit,
    readsBack_of_not_sig floatRepr p hnamed hdistinct htimes hfit⟩

/-! ## A scope called `_sig` -/

/-- A header without texts of its own. -/
def emptyPreamble : Preamble := ⟨[], [], List.not_mem_nil, List.not_mem_nil⟩

/-- A signal `a` of one bit in a scope. -/
def oneBit (scope : Line) : Registration where
  name := "a".toList
  scope := scope

theorem oneBit_named {scope : Line} (h : ∀ segment ∈ scope.splitOn '.', IsToken segment) :
    ∀ e ∈ (registered [oneBit scope]).signals, e.2.Named := by
  intro e he
  have he : e ∈ [("a".toList, Sig.mk "a".toList 1 (makeId 1) scope)] := he
  rw [List.mem_singleton.mp he]
  exact ⟨(by decide : IsToken "a".toList), (by decide : '.' ∉ "a".toList), h, le_rfl⟩

theorem oneBit_nodup (scope : Line) :
    ((registered [oneBit scope]).signals.map fun e => (e.2.scope, e.2.name)).Nodup :=
  List.nodup_singleton _

/-- `write_header` fails on a scope called `_sig`: it goes through the keys of the scope's dictionary as if
they were signals. -/
theorem record_sig_scope :
    let rs := [oneBit "top._sig".toList]
    (∀ e ∈ (registered rs).signals, e.2.Named) ∧
      ((registered rs).signals.map fun e => (e.2.scope, e.2.name)).Nodup ∧
      record emptyPreamble rs [] = none ∧ ¬ ReadsBack (fun _ => none) emptyPreamble rs [] := by
  intro rs
  have hsplit : "top._sig".toList.splitOn '.' = ["top".toList, sigKey] := by decide
  have hscopes : scopesOf (registered rs).signals
      = [("top._sig".toList, [Sig.mk "a".toList 1 (makeId 1) "top._sig".toList])] := rfl
  have hnone : record emptyPreamble rs [] = none := by
    rw [record, VcdWriter.writeHeader, hscopes, writeScopes, scopeTree, List.foldlM_cons, hsplit]
    rfl
  refine ⟨oneBit_named (by decide), oneBit_nodup _, hnone, ?_⟩
  rintro ⟨text, htext, -⟩
  cases hnone.symm.trans htext

/-- In the scope `top` the value set at time 0 is read back. -/
theorem readsBack_top :
    ReadsBack (fun _ => none) emptyPreamble [oneBit "top".toList]
      [.setTime 0, .change "a".toList (Value.ofInt 1 1)] := by
  have htimes : NonDecreasing (-1) [.setTime 0, .change "a".toList (Value.ofInt 1 1)] :=
    ⟨by decide, le_rfl, trivial⟩
  refine (readsBack_iff (fun _ => none) emptyPreamble (oneBit_named (by decide)) (oneBit_nodup _)
    htimes ?_).mpr ?_
  · intro op hop
    simp only [List.mem_cons, List.not_mem_nil, or_false] at hop
    rcases hop with rfl | rfl
    · trivial
    · intro sig hsig
      have hsig : ("a".toList, sig) ∈ [("a".toList, Sig.mk "a".toList 1 (makeId 1) "top".toList)] := hsig
      rw [(Prod.mk.inj (List.mem_singleton.mp hsig)).2]
      rfl
  · intro e he
    have he : e ∈ [("a".toList, Sig.mk "a".toList 1 (makeId 1) "top".toList)] := he
    rw [List.mem_singleton.mp he]
    decide

end Veriforge.Vcd

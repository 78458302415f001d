import Veriforge.Vcd.Parser
import Veriforge.Vcd.Writer

/-! # What the reader makes of the writer's lines

One lemma for each kind of line that the writer writes: the state of the reader after it. -/

namespace Veriforge.Vcd

variable {floatRepr : Line → Option Line} {stripHierarchy : Bool}

/-- Lines that take the reader from one state to another, whatever follows them. -/
def Reads (floatRepr : Line → Option Line) (stripHierarchy : Bool) (st : ParserState) (lines : List Line)
    (st' : ParserState) : Prop :=
  ∀ rest, readLines floatRepr stripHierarchy false st (lines ++ rest)
    = readLines floatRepr stripHierarchy false st' rest

theorem Reads.nil (st : ParserState) : Reads floatRepr stripHierarchy st [] st := fun _ => rfl

theorem Reads.append {st st' st'' : ParserState} {lines lines' : List Line}
    (h : Reads floatRepr stripHierarchy st lines st')
    (h' : Reads floatRepr stripHierarchy st' lines' st'') :
    Reads floatRepr stripHierarchy st (lines ++ lines') st'' := by
  intro rest
  rw [List.append_assoc, h, h']

theorem Reads.line {st st' : ParserState} {line : Line}
    (h : st.read floatRepr stripHierarchy (strip line) = (st', false)) :
    Reads floatRepr stripHierarchy st [line] st' := by
  intro rest
  rw [List.cons_append, List.nil_append, readLines, h]

theorem Reads.cons {st st' st'' : ParserState} {line : Line} {lines : List Line}
    (h : Reads floatRepr stripHierarchy st [line] st')
    (h' : Reads floatRepr stripHierarchy st' lines st'') :
    Reads floatRepr stripHierarchy st (line :: lines) st'' :=
  h.append h'

/-- A line of words is read as it is. -/
theorem Reads.words {st st' : ParserState} {ws : List Line} (hws : ∀ w ∈ ws, IsToken w)
    (h : st.read floatRepr stripHierarchy (unwords ws) = (st', false)) :
    Reads floatRepr stripHierarchy st [unwords ws] st' :=
  Reads.line (by rw [strip_unwords hws, h])

/-! ## Scopes and signals -/

theorem reads_scopeLine (st : ParserState) {segment : Line} (h : IsToken segment) :
    Reads floatRepr stripHierarchy st [scopeLine segment]
      { st with scope := st.scope ++ [segment] } := by
  have hws : ∀ w ∈ ["$scope".toList, "module".toList, segment, "$end".toList], IsToken w := by
    intro w hw
    simp only [List.mem_cons, List.not_mem_nil, or_false] at hw
    rcases hw with rfl | rfl | rfl | rfl
    · decide
    · decide
    · exact h
    · decide
  have hm : matchScope (scopeLine segment) = some segment := by
    rw [matchScope, scopeLine, words_unwords hws]
    rfl
  have hr : st.read floatRepr stripHierarchy (scopeLine segment)
      = (st.enter (matchScope (scopeLine segment)), false) := rfl
  exact Reads.words hws (by rw [← scopeLine, hr, hm]; rfl)

theorem reads_upscopeLine (st : ParserState) :
    Reads floatRepr stripHierarchy st [upscopeLine] { st with scope := st.scope.dropLast } := by
  refine Reads.words ?_ rfl
  intro w hw
  simp only [List.mem_cons, List.not_mem_nil, or_false] at hw
  rcases hw with rfl | rfl <;> decide

theorem reads_varLine (st : ParserState) {sig : Sig} (hi : IsToken sig.ident) (hn : IsToken sig.name) :
    Reads floatRepr stripHierarchy st [varLine sig]
      (st.declare (declared stripHierarchy st.scope sig.width sig.ident sig.name)) := by
  have hws : ∀ w ∈ ["$var".toList, "wire".toList, Nat.toDigits 10 sig.width, sig.ident, sig.name,
      "$end".toList], IsToken w := by
    intro w hw
    simp only [List.mem_cons, List.not_mem_nil, or_false] at hw
    rcases hw with rfl | rfl | rfl | rfl | rfl | rfl
    · decide
    · decide
    · exact isToken_toDigits _
    · exact hi
    · exact hn
    · decide
  have hm : matchVar (varLine sig) = some (sig.width, sig.ident, sig.name) := by
    rw [matchVar, varLine, words_unwords hws]
    dsimp only
    rw [if_pos ⟨rfl, rfl, all_isDigit_toDigits _, rfl⟩, Nat.ofDigitChars_ten_toDigits]
  have hr : st.read floatRepr stripHierarchy (varLine sig)
      = (st.declareVar stripHierarchy (matchVar (varLine sig)), false) := rfl
  exact Reads.words hws (by rw [← varLine, hr, hm]; rfl)

/-! ## The rest of the header -/

theorem hasEnd_append (s : Line) : hasEnd (s ++ "$end".toList) = true := by
  rw [hasEnd, List.any_eq_true]
  exact ⟨"$end".toList, (List.mem_tails _ _).mpr (List.suffix_append _ _), rfl⟩

/-- A line `$… … $end` has no white space to strip off. -/
theorem strip_section (s : Line) : strip ('$' :: (s ++ " $end".toList)) = '$' :: (s ++ " $end".toList) := by
  rw [strip, dropWhile_of_head (by rintro c ⟨⟩; rfl), rstrip, List.rdropWhile_eq_self_iff]
  intro hne
  have hlast : ('$' :: (s ++ " $end".toList)).getLast hne = 'd' := by
    rw [List.getLast_cons (by simp), List.getLast_append_of_ne_nil _ (by simp)]
    rfl
  rw [hlast]
  decide

theorem reads_dateLine (st : ParserState) (now : Line) :
    Reads floatRepr stripHierarchy st ["$date ".toList ++ now ++ " $end".toList] st := by
  refine Reads.line ?_
  have hs : "$date ".toList ++ now ++ " $end".toList = '$' :: (("date ".toList ++ now) ++ " $end".toList) := rfl
  have hend : hasEnd ('$' :: (("date ".toList ++ now) ++ " $end".toList)) = true := by
    rw [← hs, show " $end".toList = " ".toList ++ "$end".toList from rfl, ← List.append_assoc]
    exact hasEnd_append _
  have hr : st.read floatRepr stripHierarchy ('$' :: (("date ".toList ++ now) ++ " $end".toList))
      = (st, !hasEnd ('$' :: (("date ".toList ++ now) ++ " $end".toList))) := rfl
  rw [hs, strip_section, hr, hend]
  rfl

theorem reads_versionLine (st : ParserState) :
    Reads floatRepr stripHierarchy st ["$version veriforge simulation $end".toList] st :=
  Reads.line rfl

/-- Only the time scale of the data changes. -/
theorem reads_timescaleLine (st : ParserState) (timescale : Line) :
    ∃ scale, Reads floatRepr stripHierarchy st ["$timescale ".toList ++ timescale ++ " $end".toList]
      { st with data.timescale := scale } := by
  have hs : "$timescale ".toList ++ timescale ++ " $end".toList
      = '$' :: (("timescale ".toList ++ timescale) ++ " $end".toList) := rfl
  have hend : hasEnd ('$' :: (("timescale ".toList ++ timescale) ++ " $end".toList)) = true := by
    rw [← hs, show " $end".toList = " ".toList ++ "$end".toList from rfl, ← List.append_assoc]
    exact hasEnd_append _
  have hr : st.read floatRepr stripHierarchy ('$' :: (("timescale ".toList ++ timescale) ++ " $end".toList))
      = st.scale ('$' :: (("timescale ".toList ++ timescale) ++ " $end".toList))
          (matchTimescale ('$' :: (("timescale ".toList ++ timescale) ++ " $end".toList))) := rfl
  cases hm : matchTimescale ('$' :: (("timescale ".toList ++ timescale) ++ " $end".toList)) with
  | none =>
    refine ⟨st.data.timescale, Reads.line ?_⟩
    rw [hs, strip_section, hr, hm, ParserState.scale, hend]
    rfl
  | some scale =>
    refine ⟨scale, Reads.line ?_⟩
    rw [hs, strip_section, hr, hm]
    rfl

theorem reads_enddefinitions (st : ParserState) :
    Reads floatRepr stripHierarchy st ["$enddefinitions $end".toList] st :=
  Reads.line rfl

/-! ## Times and changes -/

/-- The state at a time of the writer; one before the start is no time to the reader. -/
def ParserState.atTime (st : ParserState) (time : Int) : ParserState :=
  if time < 0 then st else { st with time := time.toNat }

theorem reads_timeLine (st : ParserState) (time : Int) :
    Reads floatRepr stripHierarchy st [timeLine time] (st.atTime time) := by
  rw [timeLine, ParserState.atTime]
  by_cases hneg : time < 0
  · rw [if_pos hneg, if_pos hneg]
    have htoken : ∀ w ∈ ['#' :: '-' :: Nat.toDigits 10 time.natAbs], IsToken w := by
      intro w hw
      rw [List.mem_singleton.mp hw]
      exact ((isToken_toDigits _).cons (by decide)).cons (by decide)
    exact Reads.words htoken rfl
  · rw [if_neg hneg, if_neg hneg]
    have htoken : ∀ w ∈ ['#' :: Nat.toDigits 10 time.natAbs], IsToken w := by
      intro w hw
      rw [List.mem_singleton.mp hw]
      exact (isToken_toDigits _).cons (by decide)
    have htake : (Nat.toDigits 10 time.natAbs).takeWhile Char.isDigit = Nat.toDigits 10 time.natAbs := by
      have hnil : ∀ c ∈ ([] : Line).head?, c.isDigit = false := by rintro c ⟨⟩
      have ht := takeWhile_append_of_all (all_isDigit_toDigits time.natAbs) hnil
      rwa [List.append_nil] at ht
    have hm : matchTime ('#' :: Nat.toDigits 10 time.natAbs) = some time.toNat := by
      rw [matchTime, List.tail_cons, htake, if_neg Nat.toDigits_ne_nil, Nat.ofDigitChars_ten_toDigits]
      congr 1
      omega
    have hr : st.read floatRepr stripHierarchy ('#' :: Nat.toDigits 10 time.natAbs)
        = (st.goTo (matchTime ('#' :: Nat.toDigits 10 time.natAbs)), false) := rfl
    exact Reads.words htoken (by rw [unwords, hr, hm]; rfl)

/-- The characters of a value change. -/
def IsVcdBits (text : Line) : Prop := ∀ c ∈ text, c = '0' ∨ c = '1' ∨ c = 'x'

theorem IsVcdBits.isBit {text : Line} (h : IsVcdBits text) : text.all isBit = true := by
  rw [List.all_eq_true]
  intro c hc
  rcases h c hc with rfl | rfl | rfl <;> rfl

theorem IsVcdBits.toLower {text : Line} (h : IsVcdBits text) : text.map Char.toLower = text := by
  refine (List.map_congr_left fun c hc => ?_).trans (List.map_id _)
  rcases h c hc with rfl | rfl | rfl <;> rfl

theorem IsVcdBits.isToken {text : Line} (h : IsVcdBits text) (hne : text ≠ []) : IsToken text := by
  refine ⟨hne, fun c hc => ?_⟩
  rcases h c hc with rfl | rfl | rfl <;> rfl

/-- A change line, whatever its signal's identifier looks like. -/
theorem reads_changeLine (st : ParserState) {sig : Sig} {text : Line} (hi : IsToken sig.ident)
    (hb : IsVcdBits text) (hlen : text.length = sig.width) (hw : 1 ≤ sig.width) :
    Reads floatRepr stripHierarchy st [changeLine sig text] (st.change sig.ident text) := by
  rw [changeLine]
  by_cases hone : sig.width = 1
  · rw [if_pos hone]
    obtain ⟨c, rfl⟩ := List.length_eq_one_iff.mp (hlen.trans hone)
    have hc := hb c List.mem_cons_self
    have htoken : ∀ w ∈ [c :: sig.ident], IsToken w := by
      intro w hw
      rw [List.mem_singleton.mp hw]
      exact hi.cons (by rcases hc with rfl | rfl | rfl <;> rfl)
    have hm : matchChange floatRepr (c :: sig.ident) = some (sig.ident, [c]) := by
      rw [matchChange, show words (c :: sig.ident) = [c :: sig.ident] from words_unwords htoken]
      dsimp only
      rw [if_pos ⟨by rcases hc with rfl | rfl | rfl <;> rfl, hi.1⟩]
      rcases hc with rfl | rfl | rfl <;> rfl
    have hr : st.read floatRepr stripHierarchy (c :: sig.ident)
        = (st.changeAny (matchChange floatRepr (c :: sig.ident)), false) := by
      rcases hc with rfl | rfl | rfl <;> rfl
    exact Reads.words htoken (by rw [unwords, hr, hm]; rfl)
  · rw [if_neg hone]
    have hne : text ≠ [] := by
      rintro rfl
      rw [List.length_nil] at hlen
      omega
    have htoken : ∀ w ∈ ['b' :: text, sig.ident], IsToken w := by
      intro w hw
      simp only [List.mem_cons, List.not_mem_nil, or_false] at hw
      rcases hw with rfl | rfl
      · exact (hb.isToken hne).cons rfl
      · exact hi
    have hm : matchChange floatRepr (unwords ['b' :: text, sig.ident]) = some (sig.ident, text) := by
      rw [matchChange, words_unwords htoken]
      dsimp only
      rw [if_pos ⟨Or.inl rfl, hne, hb.isBit⟩, hb.toLower]
    have hr : st.read floatRepr stripHierarchy (unwords ['b' :: text, sig.ident])
        = (st.changeAny (matchChange floatRepr (unwords ['b' :: text, sig.ident])), false) := rfl
    exact Reads.words htoken (by rw [hr, hm]; rfl)

end Veriforge.Vcd

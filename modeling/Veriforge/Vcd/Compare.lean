import Mathlib
import Veriforge.Vcd.Denotation
import Veriforge.Vcd.Parser

/-! # Comparing two dumps

`compare_vcd` of `sim/vcd_compare.py`: the texts of the values are compared at every time at which one of the
dumps records a change. -/

namespace Veriforge.Vcd

/-! ## Timelines -/

/-- `_build_value_timeline` -/
def buildValueTimeline (changes : List (Nat × Line)) : List (Nat × Line) :=
  changes.insertionSort fun a b => a.1 ≤ b.1

/-- `_value_at_time` -/
def valueAtTime (timeline : List (Nat × Line)) (time : Nat) : Option Line := lastUpTo time timeline

/-- A signal has a value at a time: the last one recorded at the latest time of a change up to then. -/
def HasValue (changes : List (Nat × Line)) (time : Nat) (value : Line) : Prop :=
  ∃ t ≤ time, (∀ c ∈ changes, c.1 ≤ time → c.1 ≤ t) ∧ (changes.filter fun c => c.1 == t).getLast? = some (t, value)

theorem HasValue.unique {changes : List (Nat × Line)} {time : Nat} {v v' : Line}
    (h : HasValue changes time v) (h' : HasValue changes time v') : v = v' := by
  obtain ⟨t, ht, hmax, hlast⟩ := h
  obtain ⟨t', ht', hmax', hlast'⟩ := h'
  have hmem : ∀ {t v}, (changes.filter fun c => c.1 == t).getLast? = some (t, v) → (t, v) ∈ changes :=
    fun h => List.mem_of_mem_filter (List.mem_of_getLast? h)
  obtain rfl : t = t' := Nat.le_antisymm (hmax' _ (hmem hlast) ht) (hmax _ (hmem hlast') ht')
  rw [hlast] at hlast'
  cases hlast'
  rfl

theorem lastUpTo_eq_getLast? {time : Nat} {timeline : List (Nat × Line)}
    (h : timeline.Pairwise fun a b => a.1 ≤ b.1) :
    lastUpTo time timeline
      = (timeline.filter fun c => decide (c.1 ≤ time)).getLast?.map Prod.snd := by
  induction timeline with
  | nil => rfl
  | cons c rest ih =>
    obtain ⟨hc, hrest⟩ := List.pairwise_cons.mp h
    obtain ⟨t, v⟩ := c
    rw [lastUpTo, List.filter_cons]
    by_cases ht : t ≤ time
    · rw [if_pos ht, if_pos (decide_eq_true ht), ih hrest, List.getLast?_cons]
      cases (rest.filter fun c => decide (c.1 ≤ time)).getLast? <;> rfl
    · -- the later changes are later still
      have hnone : rest.filter (fun c => decide (c.1 ≤ time)) = [] := by
        rw [List.filter_eq_nil_iff]
        intro d hd hle
        exact ht (le_trans (hc d hd) (of_decide_eq_true hle))
      rw [if_neg ht, if_neg (by simpa using ht), hnone]
      rfl

theorem sorted_buildValueTimeline (changes : List (Nat × Line)) :
    (buildValueTimeline changes).Pairwise fun a b => a.1 ≤ b.1 :=
  haveI : Std.Total fun a b : Nat × Line => a.1 ≤ b.1 := ⟨fun a b => Nat.le_total a.1 b.1⟩
  haveI : IsTrans (Nat × Line) fun a b => a.1 ≤ b.1 := ⟨fun _ _ _ => Nat.le_trans⟩
  List.pairwise_insertionSort _ _

/-- The changes of one time keep their order. -/
theorem filter_buildValueTimeline (changes : List (Nat × Line)) (t : Nat) :
    (buildValueTimeline changes).filter (fun c => c.1 == t) = changes.filter fun c => c.1 == t := by
  have : Std.Total fun a b : Nat × Line => a.1 ≤ b.1 := ⟨fun a b => Nat.le_total a.1 b.1⟩
  have : IsTrans (Nat × Line) fun a b => a.1 ≤ b.1 := ⟨fun _ _ _ => Nat.le_trans⟩
  have hpair : (changes.filter fun c => c.1 == t).Pairwise fun a b => a.1 ≤ b.1 := by
    refine List.pairwise_of_forall_mem_list ?_
    intro a ha b hb
    rw [List.mem_filter, beq_iff_eq] at ha hb
    exact Nat.le_of_eq (ha.2.trans hb.2.symm)
  have hsub : (changes.filter fun c => c.1 == t).Sublist (buildValueTimeline changes) :=
    List.sublist_insertionSort hpair List.filter_sublist
  have hfil := hsub.filter fun c => c.1 == t
  rw [List.filter_filter] at hfil
  simp only [Bool.and_self] at hfil
  refine (hfil.eq_of_length ?_).symm
  exact ((List.perm_insertionSort _ changes).filter _).length_eq.symm

/-- The value that the loop over the timeline finds. -/
theorem valueAtTime_eq_some {changes : List (Nat × Line)} {time : Nat} {value : Line} :
    valueAtTime (buildValueTimeline changes) time = some value ↔ HasValue changes time value := by
  have hmem : ∀ c, c ∈ buildValueTimeline changes ↔ c ∈ changes := fun c => List.mem_insertionSort _
  have hsorted := sorted_buildValueTimeline changes
  have hto : ∀ {v}, valueAtTime (buildValueTimeline changes) time = some v → HasValue changes time v := by
    intro v h
    rw [valueAtTime, lastUpTo_eq_getLast? hsorted, Option.map_eq_some_iff] at h
    obtain ⟨⟨t, _⟩, hlast, rfl⟩ := h
    obtain ⟨init, hinit⟩ := List.getLast?_eq_some_iff.mp hlast
    have hle : t ≤ time := by
      have hm := List.mem_of_getLast? hlast
      rw [List.mem_filter] at hm
      exact of_decide_eq_true hm.2
    refine ⟨t, hle, ?_, ?_⟩
    · -- the last of the sorted changes up to then is the latest
      intro c hc hct
      have hcf : c ∈ (buildValueTimeline changes).filter fun c => decide (c.1 ≤ time) :=
        List.mem_filter.mpr ⟨(hmem c).mpr hc, decide_eq_true hct⟩
      have hpair := hsorted.filter fun c => decide (c.1 ≤ time)
      rw [hinit] at hcf hpair
      rcases List.mem_append.mp hcf with hci | hci
      · exact (List.pairwise_append.mp hpair).2.2 c hci _ List.mem_cons_self
      · rw [List.mem_singleton.mp hci]
    · have hff : (buildValueTimeline changes).filter (fun c => c.1 == t)
          = ((buildValueTimeline changes).filter fun c => decide (c.1 ≤ time)).filter
              fun c => c.1 == t := by
        rw [List.filter_filter]
        refine List.filter_congr ?_
        intro c _
        by_cases hct : c.1 = t
        · rw [hct, decide_eq_true hle, Bool.and_true]
        · rw [beq_false_of_ne hct, Bool.false_and]
      rw [← filter_buildValueTimeline, hff, hinit, List.filter_append, List.filter_cons_of_pos (by simp),
        List.filter_nil, List.getLast?_append_of_ne_nil _ (List.cons_ne_nil _ _)]
      rfl
  refine ⟨hto, ?_⟩
  intro h
  cases hv : valueAtTime (buildValueTimeline changes) time with
  | some v => rw [(hto hv).unique h]
  | none =>
    obtain ⟨t, ht, -, hlast⟩ := h
    rw [valueAtTime, lastUpTo_eq_getLast? hsorted, Option.map_eq_none_iff, List.getLast?_eq_none_iff,
      List.filter_eq_nil_iff] at hv
    exact absurd (decide_eq_true ht)
      (hv _ ((hmem _).mpr (List.mem_of_mem_filter (List.mem_of_getLast? hlast))))

/-! ## The comparison -/

/-- `VcdData` with its `signal_names`, the set in some order. -/
structure NamedVcdData extends VcdData where
  signalNames : List Line
  mem_signalNames : ∀ name, name ∈ signalNames ↔ ∃ ident s, signals ident = some s ∧ s.name = name

/-- `sorted` on a set of names -/
def sortedNames (names : List Line) : List Line := names.dedup.insertionSort (· ≤ ·)

/-- `sorted` on a set of times -/
def sortedTimes (times : List Nat) : List Nat := times.dedup.insertionSort (· ≤ ·)

/-- The signals that are compared. -/
def compareSigs (ref test : NamedVcdData) (signals : Option (List Line)) (ignore : List Line) : List Line :=
  match signals with
  | some signals => signals.filter (· ∉ ignore)
  | none => sortedNames (ref.signalNames.filter fun s => s ∈ test.signalNames ∧ s ∉ ignore)

/-- `max_time`, where there is one. -/
def upTo (maxTime : Option Nat) (times : List Nat) : List Nat :=
  match maxTime with
  | some last => times.filter (· ≤ last)
  | none => times

/-- The times at which one of the sides changes. -/
def sigTimes (refChanges testChanges : List (Nat × Line)) (maxTime : Option Nat) : List Nat :=
  upTo maxTime (sortedTimes (refChanges.map Prod.fst ++ testChanges.map Prod.fst))

/-- The message about two values of a signal. -/
def valueDifference (t : Nat) (sig rv tv : Line) : Line :=
  "@t=".toList ++ Nat.toDigits 10 t ++ " signal '".toList ++ sig ++ "': ref=".toList ++ rv ++ ", test=".toList ++ tv

/-- The difference at one time, when both sides have a value. -/
def differenceAt (sig : Line) (t : Nat) : Option Line → Option Line → Option Line
  | some rv, some tv => if valuesMatch rv tv then none else some (valueDifference t sig rv tv)
  | _, _ => none

/-- The loop over the times of one signal. -/
def compareSignal (refChanges testChanges : List (Nat × Line)) (maxTime : Option Nat) (sig : Line) : List Line :=
  (sigTimes refChanges testChanges maxTime).filterMap fun t =>
    differenceAt sig t (valueAtTime (buildValueTimeline refChanges) t)
      (valueAtTime (buildValueTimeline testChanges) t)

/-- What is said when there is no signal to compare. `listRepr` spells a list of names. -/
def nothingCompared (listRepr : List Line → Line) (ref test : NamedVcdData) (ignore : List Line) : List Line :=
  let refOnly := ref.signalNames.filter fun s => s ∉ test.signalNames ∧ s ∉ ignore
  let testOnly := test.signalNames.filter fun s => s ∉ ref.signalNames ∧ s ∉ ignore
  (if refOnly = [] then [] else
      ["Signals only in reference: ".toList ++ listRepr (sortedNames refOnly)]) ++
    (if testOnly = [] then [] else ["Signals only in test: ".toList ++ listRepr (sortedNames testOnly)]) ++
    (if refOnly = [] ∧ testOnly = [] then ["No common signals to compare".toList] else [])

/-- `compare_vcd` -/
def compareVcd (listRepr : List Line → Line) (ref test : NamedVcdData) (signals : Option (List Line))
    (ignore : List Line) (maxTime : Option Nat) : List Line :=
  if compareSigs ref test signals ignore = [] then nothingCompared listRepr ref test ignore
  else
    (compareSigs ref test signals ignore).flatMap fun sig =>
      compareSignal (ref.changes sig) (test.changes sig) maxTime sig

/-! ## What is compared -/

/-- A width for every name, which the declarations of both sides agree with. -/
structure Widths (ref test : VcdData) where
  width : Line → Nat
  ref_width : ∀ ident s, ref.signals ident = some s → s.width = width s.name
  test_width : ∀ ident s, test.signals ident = some s → s.width = width s.name

/-- Two values of a signal meet: at a time of a change within `max_time` the sides have these values. -/
def Meets (ref test : VcdData) (sigs : List Line) (maxTime : Option Nat) (sig : Line) (t : Nat)
    (rv tv : Line) : Prop :=
  sig ∈ sigs ∧ (∃ c, (c ∈ ref.changes sig ∨ c ∈ test.changes sig) ∧ c.1 = t) ∧ (∀ last ∈ maxTime, t ≤ last) ∧
    HasValue (ref.changes sig) t rv ∧ HasValue (test.changes sig) t tv

theorem mem_sigTimes {refChanges testChanges : List (Nat × Line)} {maxTime : Option Nat} {t : Nat} :
    t ∈ sigTimes refChanges testChanges maxTime ↔
      (∃ c, (c ∈ refChanges ∨ c ∈ testChanges) ∧ c.1 = t) ∧ ∀ last ∈ maxTime, t ≤ last := by
  have hsort : t ∈ sortedTimes (refChanges.map Prod.fst ++ testChanges.map Prod.fst) ↔
      ∃ c, (c ∈ refChanges ∨ c ∈ testChanges) ∧ c.1 = t := by
    rw [sortedTimes, List.mem_insertionSort, List.mem_dedup, ← List.map_append, List.mem_map]
    simp only [List.mem_append]
  rw [← hsort, sigTimes]
  cases maxTime with
  | none => simp [upTo]
  | some last => simp [upTo]

/-- A signal is without differences when all its values that meet match. -/
theorem compareSignal_eq_nil {refChanges testChanges : List (Nat × Line)} {maxTime : Option Nat}
    {sig : Line} :
    compareSignal refChanges testChanges maxTime sig = [] ↔
      ∀ t rv tv, (∃ c, (c ∈ refChanges ∨ c ∈ testChanges) ∧ c.1 = t) → (∀ last ∈ maxTime, t ≤ last) →
        HasValue refChanges t rv → HasValue testChanges t tv → valuesMatch rv tv = true := by
  rw [compareSignal, List.filterMap_eq_nil_iff]
  constructor
  · intro h t rv tv hc hmax hr ht
    have hd := h t (mem_sigTimes.mpr ⟨hc, hmax⟩)
    rw [valueAtTime_eq_some.mpr hr, valueAtTime_eq_some.mpr ht, differenceAt] at hd
    by_contra hm
    rw [if_neg hm] at hd
    cases hd
  · intro h t htime
    obtain ⟨hc, hmax⟩ := mem_sigTimes.mp htime
    cases hr : valueAtTime (buildValueTimeline refChanges) t with
    | none => rfl
    | some rv =>
      cases ht : valueAtTime (buildValueTimeline testChanges) t with
      | none => rfl
      | some tv =>
        exact if_pos (h t rv tv hc hmax (valueAtTime_eq_some.mp hr) (valueAtTime_eq_some.mp ht))

theorem compareVcd_eq_nil (listRepr : List Line → Line) {ref test : NamedVcdData}
    {signals : Option (List Line)} {ignore : List Line} {maxTime : Option Nat}
    (h : compareSigs ref test signals ignore ≠ []) :
    compareVcd listRepr ref test signals ignore maxTime = [] ↔ ∀ sig t rv tv,
        Meets ref.toVcdData test.toVcdData (compareSigs ref test signals ignore) maxTime sig t rv tv →
          valuesMatch rv tv = true := by
  rw [compareVcd, if_neg h, List.flatMap_eq_nil_iff]
  constructor
  · rintro hall sig t rv tv ⟨hsig, hc, hmax, hr, ht⟩
    exact compareSignal_eq_nil.mp (hall sig hsig) t rv tv hc hmax hr ht
  · intro hall sig hsig
    refine compareSignal_eq_nil.mpr ?_
    intro t rv tv hc hmax hr ht
    exact hall sig t rv tv ⟨hsig, hc, hmax, hr, ht⟩

/-- The comparison finds nothing exactly when all values that meet denote the same: if no two that meet are a
false match or a false difference, or two that meet differ in text and in fact, or one error hides behind the
other. -/
theorem compareVcd_iff (listRepr : List Line → Line) (ref test : NamedVcdData)
    (widths : Widths ref.toVcdData test.toVcdData) (signals : Option (List Line)) (ignore : List Line)
    (maxTime : Option Nat) (h : compareSigs ref test signals ignore ≠ []) :
    (compareVcd listRepr ref test signals ignore maxTime = [] ↔
        ∀ sig t rv tv,
          Meets ref.toVcdData test.toVcdData (compareSigs ref test signals ignore) maxTime sig t rv tv →
            SameValue (widths.width sig) rv tv) ↔
      (∀ sig t rv tv,
          Meets ref.toVcdData test.toVcdData (compareSigs ref test signals ignore) maxTime sig t rv tv →
            ¬FalseMatch (widths.width sig) rv tv ∧ ¬FalseDifference (widths.width sig) rv tv) ∨
        (∃ sig t rv tv,
          Meets ref.toVcdData test.toVcdData (compareSigs ref test signals ignore) maxTime sig t rv tv ∧
            valuesMatch rv tv = false ∧ ¬FalseDifference (widths.width sig) rv tv) ∨
        ((∃ sig t rv tv,
            Meets ref.toVcdData test.toVcdData (compareSigs ref test signals ignore) maxTime sig t rv tv ∧
              FalseMatch (widths.width sig) rv tv) ∧
          ∃ sig t rv tv,
            Meets ref.toVcdData test.toVcdData (compareSigs ref test signals ignore) maxTime sig t rv tv ∧
              FalseDifference (widths.width sig) rv tv) := by
  rw [compareVcd_eq_nil listRepr h]
  constructor
  · intro hiff
    by_cases hall : ∀ sig t rv tv,
        Meets ref.toVcdData test.toVcdData (compareSigs ref test signals ignore) maxTime sig t rv tv →
          valuesMatch rv tv = true
    · left
      intro sig t rv tv hm
      refine ⟨fun hf => (falseMatch_iff.mp hf).2 (hiff.mp hall sig t rv tv hm), fun hd => ?_⟩
      exact Bool.noConfusion ((falseDifference_iff.mp hd).1.symm.trans (hall sig t rv tv hm))
    · right
      by_cases htrue : ∃ sig t rv tv,
          Meets ref.toVcdData test.toVcdData (compareSigs ref test signals ignore) maxTime sig t rv tv ∧
            valuesMatch rv tv = false ∧ ¬FalseDifference (widths.width sig) rv tv
      · exact Or.inl htrue
      · -- every reported pair is a false difference, so the pair that denotes different values matches
        right
        have hsame := mt hiff.mpr hall
        push Not at hall hsame
        obtain ⟨sig, t, rv, tv, hm, hv⟩ := hall
        obtain ⟨sig', t', rv', tv', hm', hv'⟩ := hsame
        have hfd : ∀ sig t rv tv,
            Meets ref.toVcdData test.toVcdData (compareSigs ref test signals ignore) maxTime sig t rv tv →
              valuesMatch rv tv = false → FalseDifference (widths.width sig) rv tv := by
          intro sig t rv tv hm hv
          by_contra hd
          exact htrue ⟨sig, t, rv, tv, hm, hv, hd⟩
        refine ⟨⟨sig', t', rv', tv', hm', falseMatch_iff.mpr ⟨?_, hv'⟩⟩,
          sig, t, rv, tv, hm, hfd _ _ _ _ hm (Bool.eq_false_iff.mpr hv)⟩
        by_contra hvm
        exact hv' (falseDifference_iff.mp (hfd _ _ _ _ hm' (Bool.eq_false_iff.mpr hvm))).2
  · rintro (hclean | ⟨sig, t, rv, tv, hm, hv, hd⟩ | ⟨⟨sig, t, rv, tv, hm, hf⟩, sig', t', rv', tv', hm', hd⟩)
    · refine forall₄_congr fun sig t rv tv => forall_congr' fun hm => ?_
      obtain ⟨hf, hd⟩ := hclean sig t rv tv hm
      rw [falseMatch_iff, not_and, not_not] at hf
      rw [falseDifference_iff, not_and] at hd
      refine ⟨hf, fun hs => ?_⟩
      by_contra hv
      exact hd (Bool.eq_false_iff.mpr hv) hs
    · refine iff_of_false (fun hall => ?_) fun hall => ?_
      · exact Bool.noConfusion (hv.symm.trans (hall sig t rv tv hm))
      · exact hd (falseDifference_iff.mpr ⟨hv, hall sig t rv tv hm⟩)
    · refine iff_of_false (fun hall => ?_) fun hall => ?_
      · have hv := (falseDifference_iff.mp hd).1
        exact Bool.noConfusion (hv.symm.trans (hall sig' t' rv' tv' hm'))
      · exact (falseMatch_iff.mp hf).2 (hall sig t rv tv hm)

/-- A dump of the signal `a` with one value at the start. -/
def oneValue (width : Nat) (value : Line) : NamedVcdData where
  signals ident := if ident = ['!'] then some ⟨['a'], width, ['!'], "top".toList⟩ else none
  changes name := if name = ['a'] then [(0, value)] else []
  timescale := "1ns".toList
  signalNames := [['a']]
  mem_signalNames name := by
    rw [List.mem_singleton]
    constructor
    · rintro rfl
      exact ⟨['!'], _, if_pos rfl, rfl⟩
    · rintro ⟨ident, s, hs, rfl⟩
      by_cases hi : ident = ['!']
      · rw [if_pos hi] at hs
        cases hs
        rfl
      · rw [if_neg hi] at hs
        cases hs

/-- The widths of two such dumps. -/
def oneValueWidths (width : Nat) (rv tv : Line) :
    Widths (oneValue width rv).toVcdData (oneValue width tv).toVcdData where
  width _ := width
  ref_width ident s hs := by
    by_cases hi : ident = ['!']
    · cases (if_pos hi).symm.trans hs
      rfl
    · cases (if_neg hi).symm.trans hs
  test_width ident s hs := by
    by_cases hi : ident = ['!']
    · cases (if_pos hi).symm.trans hs
      rfl
    · cases (if_neg hi).symm.trans hs

theorem meets_oneValue (width : Nat) (rv tv : Line) :
    Meets (oneValue width rv).toVcdData (oneValue width tv).toVcdData [['a']] none ['a'] 0 rv tv := by
  have hv : ∀ value, HasValue [(0, value)] 0 value := by
    intro value
    exact ⟨0, le_rfl, fun c hc _ => by rw [List.mem_singleton.mp hc], rfl⟩
  exact ⟨List.mem_cons_self, ⟨(0, rv), Or.inl List.mem_cons_self, rfl⟩, by simp, hv rv, hv tv⟩

/-- `01` and `x` differ in text and in fact. -/
theorem compareVcd_reported :
    (compareVcd (fun _ => []) (oneValue 2 "01".toList) (oneValue 2 "x".toList) none [] none = [] ↔
      ∀ sig t rv tv,
        Meets (oneValue 2 "01".toList).toVcdData (oneValue 2 "x".toList).toVcdData
            (compareSigs (oneValue 2 "01".toList) (oneValue 2 "x".toList) none []) none sig t rv tv →
          SameValue ((oneValueWidths 2 "01".toList "x".toList).width sig) rv tv) :=
  (compareVcd_iff (fun _ => []) _ _ (oneValueWidths 2 "01".toList "x".toList) none [] none (by decide)).mpr
    (Or.inr (Or.inl ⟨['a'], 0, "01".toList, "x".toList, meets_oneValue 2 _ _, by decide, by
      rw [falseDifference_iff]; decide⟩))

/-- A high bit of 0 above an unknown one passes for two unknown bits. -/
theorem compareVcd_zeroX :
    ¬(compareVcd (fun _ => []) (oneValue 2 "0x".toList) (oneValue 2 "x".toList) none [] none = [] ↔
      ∀ sig t rv tv,
        Meets (oneValue 2 "0x".toList).toVcdData (oneValue 2 "x".toList).toVcdData
            (compareSigs (oneValue 2 "0x".toList) (oneValue 2 "x".toList) none []) none sig t rv tv →
          SameValue ((oneValueWidths 2 "0x".toList "x".toList).width sig) rv tv) := by
  intro h
  have hs := h.mp (by decide) ['a'] 0 "0x".toList "x".toList (meets_oneValue 2 _ _)
  revert hs
  decide

end Veriforge.Vcd

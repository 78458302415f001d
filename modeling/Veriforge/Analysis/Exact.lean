import Veriforge.Analysis.Places
import Mathlib.Data.List.Induction

/-! # When the lists of drivers and loads are exact

A signal is missed where every name of it in a source stands in places that the analysis overlooks, and is wrongly
listed where it takes a name for one of another scope. Everywhere else its lists are exact. -/

namespace Veriforge.Analysis

/-! ## The lists of an analysis -/

/-- The list that a name goes on. -/
def Connectivity.lists (c : Connectivity) (mi : Nat) : Visit → List SourceId
  | .driver name => c.drivers (mi, name)
  | .load name => c.loads (mi, name)

/-- The name that was found. -/
def Visit.name : Visit → String
  | .driver name => name
  | .load name => name

theorem mem_addOnce {source source' : SourceId} {sources : List SourceId} :
    source' ∈ addOnce source sources ↔ source' ∈ sources ∨ source' = source := by
  unfold addOnce
  split
  · next h =>
    refine ⟨Or.inl, fun h' => h'.elim id ?_⟩
    rintro rfl
    exact h
  · simp

theorem mem_add (m : Module) (source source' : SourceId) (c : Connectivity) (mi : Nat) (v w : Visit) :
    source' ∈ (c.add m source w).lists mi v ↔
      source' ∈ c.lists mi v ∨ (source' = source ∧ source.1 = mi ∧ v = w ∧ m.signalForName v.name = true) := by
  by_cases hvw : v = w
  · subst hvw
    by_cases hmi : source.1 = mi
    · subst hmi
      cases v with
      | driver name => by_cases hs : m.signalForName name = true <;> simp [Connectivity.add, Connectivity.lists,
          Visit.name, hs, mem_addOnce]
      | load name => by_cases hs : m.signalForName name = true <;> simp [Connectivity.add, Connectivity.lists,
          Visit.name, hs, mem_addOnce]
    · have hne : ∀ name : String, (mi, name) ≠ (source.1, name) := fun name h => hmi (Prod.mk.inj h).1.symm
      cases v with
      | driver name => by_cases hs : m.signalForName name = true <;> simp [Connectivity.add, Connectivity.lists, hs,
          hmi, hne]
      | load name => by_cases hs : m.signalForName name = true <;> simp [Connectivity.add, Connectivity.lists, hs, hmi,
          hne]
  · have hsame : (c.add m source w).lists mi v = c.lists mi v := by
      cases w with
      | driver name =>
        by_cases hs : m.signalForName name = true
        · cases v with
          | driver name' =>
            have hne : (mi, name') ≠ (source.1, name) := fun h => hvw (by rw [(Prod.mk.inj h).2])
            simp [Connectivity.add, Connectivity.lists, hs, Function.update_of_ne hne]
          | load name' => simp [Connectivity.add, Connectivity.lists, hs]
        · simp [Connectivity.add, hs]
      | load name =>
        by_cases hs : m.signalForName name = true
        · cases v with
          | driver name' => simp [Connectivity.add, Connectivity.lists, hs]
          | load name' =>
            have hne : (mi, name') ≠ (source.1, name) := fun h => hvw (by rw [(Prod.mk.inj h).2])
            simp [Connectivity.add, Connectivity.lists, hs, Function.update_of_ne hne]
        · simp [Connectivity.add, hs]
    rw [hsame]
    simp [hvw]

theorem mem_foldl_add (m : Module) (source source' : SourceId) (mi : Nat) (v : Visit) (vs : List Visit)
    (c : Connectivity) :
    source' ∈ (vs.foldl (Connectivity.add m source) c).lists mi v ↔
      source' ∈ c.lists mi v ∨ (source' = source ∧ source.1 = mi ∧ v ∈ vs ∧ m.signalForName v.name = true) := by
  induction vs generalizing c with
  | nil => simp
  | cons w vs ih =>
    rw [List.foldl_cons, ih, mem_add, List.mem_cons]
    constructor
    · rintro ((h | ⟨rfl, hmi, rfl, hs⟩) | ⟨rfl, hmi, hv, hs⟩)
      · exact .inl h
      · exact .inr ⟨rfl, hmi, .inl rfl, hs⟩
      · exact .inr ⟨rfl, hmi, .inr hv, hs⟩
    · rintro (h | ⟨rfl, hmi, rfl | hv, hs⟩)
      · exact .inl (.inl h)
      · exact .inl (.inr ⟨rfl, hmi, rfl, hs⟩)
      · exact .inr ⟨rfl, hmi, hv, hs⟩

/-- The sources of one module. -/
theorem mem_foldl_sources (d : Design) (m : Module) (k mi : Nat) (source : SourceId) (v : Visit)
    (xs : List (Source × Nat)) (c : Connectivity) :
    source ∈ (xs.foldl (fun c x => (x.1.visits d).foldl (Connectivity.add m (k, x.2)) c) c).lists mi v ↔
      source ∈ c.lists mi v ∨
        (source.1 = k ∧ k = mi ∧ m.signalForName v.name = true ∧ ∃ s, (s, source.2) ∈ xs ∧ v ∈ s.visits d) := by
  induction xs generalizing c with
  | nil => simp
  | cons x xs ih =>
    rw [List.foldl_cons, ih, mem_foldl_add]
    constructor
    · rintro ((h | ⟨rfl, hmi, hv, hs⟩) | ⟨hk, hmi, hs, s, hx, hv⟩)
      · exact .inl h
      · exact .inr ⟨rfl, hmi, hs, x.1, List.mem_cons_self, hv⟩
      · exact .inr ⟨hk, hmi, hs, s, List.mem_cons_of_mem x hx, hv⟩
    · rintro (h | ⟨hk, hmi, hs, s, hx, hv⟩)
      · exact .inl (.inl h)
      · rcases List.mem_cons.1 hx with rfl | hx
        · exact .inl (.inr ⟨Prod.ext hk rfl, hmi, hv, hs⟩)
        · exact .inr ⟨hk, hmi, hs, s, hx, hv⟩

/-- What the analysis shows of a source of the module at a position. -/
def Shown (d : Design) (ms : List Module) (mi : Nat) (source : SourceId) (v : Visit) : Prop :=
  source.1 = mi ∧ ∃ m, ms[mi]? = some m ∧ m.signalForName v.name = true ∧
    ∃ s, m.analyzed[source.2]? = some s ∧ v ∈ s.visits d

theorem lists_clear_self (c : Connectivity) (mi : Nat) (v : Visit) : (c.clear mi).lists mi v = [] := by
  cases v <;> simp [Connectivity.lists, Connectivity.clear]

theorem lists_clear_ne (c : Connectivity) {k mi : Nat} (h : mi ≠ k) (v : Visit) :
    (c.clear k).lists mi v = c.lists mi v := by
  cases v <;> simp [Connectivity.lists, Connectivity.clear, h]

theorem mem_analyzeModule_self (d : Design) (c : Connectivity) (m : Module) (mi : Nat) (source : SourceId)
    (v : Visit) :
    source ∈ (analyzeModule d c (m, mi)).lists mi v ↔
      source.1 = mi ∧ m.signalForName v.name = true ∧ ∃ s, m.analyzed[source.2]? = some s ∧ v ∈ s.visits d := by
  rw [analyzeModule, mem_foldl_sources, lists_clear_self]
  simp [List.mem_zipIdx_iff_getElem?]

theorem mem_analyzeModule_ne (d : Design) (c : Connectivity) (m : Module) {k mi : Nat} (h : mi ≠ k)
    (source : SourceId) (v : Visit) :
    source ∈ (analyzeModule d c (m, k)).lists mi v ↔ source ∈ c.lists mi v := by
  rw [analyzeModule, mem_foldl_sources, lists_clear_ne c h]
  simp [h.symm]

/-- The lists of a module hold what its own analysis shows: the modules after it leave them alone. -/
theorem mem_foldl_modules (d : Design) (c : Connectivity) (mi : Nat) (source : SourceId) (v : Visit)
    (ms : List Module) (hmi : mi < ms.length) :
    source ∈ (ms.zipIdx.foldl (analyzeModule d) c).lists mi v ↔ Shown d ms mi source v := by
  induction ms using List.reverseRecOn with
  | nil => simp at hmi
  | append_singleton ms m ih =>
    rw [List.zipIdx_append, List.foldl_append]
    simp only [List.zipIdx_singleton, List.foldl_cons, List.foldl_nil, Nat.zero_add]
    by_cases hlast : mi = ms.length
    · subst hlast
      rw [mem_analyzeModule_self]
      simp [Shown]
    · have hlt : mi < ms.length := by
        rw [List.length_append, List.length_singleton] at hmi
        omega
      rw [mem_analyzeModule_ne d _ m hlast, ih hlt]
      simp [Shown, List.getElem?_append_left hlt]

theorem mem_analyzeConnectivity (d : Design) (c : Connectivity) {mi : Nat} (hmi : mi < d.length)
    (source : SourceId) (v : Visit) :
    source ∈ (analyzeConnectivity d c).lists mi v ↔ Shown d d mi source v :=
  mem_foldl_modules d c mi source v d hmi

/-! ## The names of a source -/

/-- A name that a source evaluates or assigns to, in its own text or in that of a routine. -/
inductive Source.Names (d : Design) (m : Module) (scope : List String) (s : Source) : Use → Bool → Prop
  | itself {u : Use} : u ∈ s.uses d m.tasks scope → Source.Names d m scope s u true
  | called {u : Use} {r : Routine} : Reached m (s.effects d m.tasks scope) r →
      u ∈ r.block.uses m.tasks r.scope → Source.Names d m scope s u false

/-- A name of a source of the module. The analysis follows what stands in the text of the sources that it goes
through. -/
def NameOf (d : Design) (m : Module) (source : SourceId) (u : Use) (followed : Bool) : Prop :=
  ∃ s, m.sources[source.2]? = some s ∧ ∃ own, s.2.Names d m s.1 u own ∧
    followed = (own && decide (source.2 < m.analyzed.length))

section

variable (reach : Nat → List String → String → Option Signal)

/-- The name means the signal. -/
def Use.Means (u : Use) (mi : Nat) (m : Module) (signal : Signal) : Prop :=
  u.hidden = false ∧ locate reach mi m u.path = some signal

/-- The analysis takes the name for the signal. -/
def Use.TakenFor (u : Use) (mi : Nat) (signal : Signal) : Prop := signal = (mi, u.path.2)

/-- What holds of the names of a source where a list is exact: each name in a place that the analysis gets wrong has
another name beside it, which makes up for it. `does` tells what the execution does to a name, `shows` what the
analysis takes it for. -/
structure Judged (does shows : Place → Bool) (d : Design) (m : Module) (source : SourceId) (signal : Signal) :
    Prop where
  missed : ∀ u followed, NameOf d m source u followed → does u.place = true → u.Means reach source.1 m signal →
    shows u.place = false ∨ followed = false ∨ u.path.1 ≠ [] →
    ∃ u', NameOf d m source u' true ∧ shows u'.place = true ∧ u'.TakenFor source.1 signal
  mistaken : ∀ u, NameOf d m source u true → shows u.place = true → u.TakenFor source.1 signal →
    does u.place = false ∨ u.hidden = true ∨ u.path.1 ≠ [] →
    ∃ u' followed, NameOf d m source u' followed ∧ does u'.place = true ∧ u'.Means reach source.1 m signal

/-- Each list of each signal is judged well by each source. -/
def WellJudged (d : Design) : Prop :=
  ∀ signal, IsSignal d signal → ∀ source m, d[source.1]? = some m →
    Judged reach Place.writes Place.driver d m source signal ∧ Judged reach Place.reads Place.load d m source signal

variable {reach} {d : Design} {m : Module}

/-! ## Lists and names -/

theorem getElem?_sources (m : Module) (i : Nat) (hi : i < m.analyzed.length) :
    m.sources[i]? = m.analyzed[i]?.map fun s => ([], s) := by
  rw [Module.sources, List.getElem?_append_left (by simpa using hi), List.getElem?_map]

/-- The analysis shows the names that it follows. -/
theorem shown_iff {source : SourceId} (hm : d[source.1]? = some m) (v : Visit) : Shown d d source.1 source v ↔
      m.signalForName v.name = true ∧ ∃ u, NameOf d m source u true ∧ u.Shows v := by
  constructor
  · rintro ⟨-, m', hm', hs, s, hsource, hv⟩
    obtain rfl : m = m' := Option.some.inj (hm.symm.trans hm')
    have hlt : source.2 < m.analyzed.length := (List.getElem?_eq_some_iff.1 hsource).1
    obtain ⟨u, hu, hshows⟩ := ((s.covers d m.tasks []).show_ v).2 hv
    refine ⟨hs, u, ⟨([], s), ?_, true, .itself hu, by simp [hlt]⟩, hshows⟩
    rw [getElem?_sources m _ hlt, hsource, Option.map_some]
  · rintro ⟨hs, u, ⟨s, hsource, own, hnames, hfollowed⟩, hshows⟩
    obtain ⟨rfl, hlt⟩ : own = true ∧ source.2 < m.analyzed.length := by simpa using hfollowed.symm
    rw [getElem?_sources m _ hlt, Option.map_eq_some_iff] at hsource
    obtain ⟨s, hsource, rfl⟩ := hsource
    refine ⟨rfl, m, hm, hs, s, hsource, ?_⟩
    cases hnames with
    | itself hu => exact ((s.covers d m.tasks []).show_ v).1 ⟨u, hu, hshows⟩

/-- What a source does to signals is what its names do. -/
theorem does_iff {scope : List String} {s : Source} {e : Effect} (he : ∀ r, e ≠ .call r) :
    s.Does d m scope e ↔ ∃ u own, s.Names d m scope u own ∧ u.Has e := by
  constructor
  · rintro (h | ⟨hr, h⟩)
    · obtain ⟨u, hu, hhas⟩ := ((s.covers d m.tasks scope).has he).2 h
      exact ⟨u, true, .itself hu, hhas⟩
    · obtain ⟨u, hu, hhas⟩ := ((Statement.covers m.tasks _ _).has he).2 h
      exact ⟨u, false, .called hr hu, hhas⟩
  · rintro ⟨u, own, hu | ⟨hr, hu⟩, hhas⟩
    · exact .itself (((s.covers d m.tasks scope).has he).1 ⟨u, hu, hhas⟩)
    · exact .called hr (((Statement.covers m.tasks _ _).has he).1 ⟨u, hu, hhas⟩)

theorem writes_iff {source : SourceId} (hm : d[source.1]? = some m) (signal : Signal) : Writes reach d source signal ↔
      ∃ u followed, NameOf d m source u followed ∧ u.place.writes = true ∧ u.Means reach source.1 m signal := by
  constructor
  · rintro ⟨m', hm', s, hsource, p, hdoes, hsignal⟩
    obtain rfl : m = m' := Option.some.inj (hm.symm.trans hm')
    obtain ⟨u, own, hu, hhidden, hwrites | ⟨-, hread⟩⟩ := (does_iff (by simp)).1 hdoes
    · obtain ⟨hplace, hp⟩ := hwrites
      cases hp
      exact ⟨u, _, ⟨s, hsource, own, hu, rfl⟩, hplace, hhidden, hsignal⟩
    · cases hread
  · rintro ⟨u, followed, ⟨s, hsource, own, hu, -⟩, hplace, hhidden, hsignal⟩
    exact ⟨m, hm, s, hsource, u.path, (does_iff (by simp)).2 ⟨u, own, hu, hhidden, .inl ⟨hplace, rfl⟩⟩, hsignal⟩

theorem reads_iff {source : SourceId} (hm : d[source.1]? = some m) (signal : Signal) : Reads reach d source signal ↔
      ∃ u followed, NameOf d m source u followed ∧ u.place.reads = true ∧ u.Means reach source.1 m signal := by
  constructor
  · rintro ⟨m', hm', s, hsource, p, hdoes, hsignal⟩
    obtain rfl : m = m' := Option.some.inj (hm.symm.trans hm')
    obtain ⟨u, own, hu, hhidden, ⟨-, hwrite⟩ | hreads⟩ := (does_iff (by simp)).1 hdoes
    · cases hwrite
    · obtain ⟨hplace, hp⟩ := hreads
      cases hp
      exact ⟨u, _, ⟨s, hsource, own, hu, rfl⟩, hplace, hhidden, hsignal⟩
  · rintro ⟨u, followed, ⟨s, hsource, own, hu, -⟩, hplace, hhidden, hsignal⟩
    exact ⟨m, hm, s, hsource, u.path, (does_iff (by simp)).2 ⟨u, own, hu, hhidden, .inr ⟨hplace, rfl⟩⟩, hsignal⟩

/-- A source is on the list of drivers for the names that are taken for driven. -/
theorem mem_drivers_iff (c : Connectivity) {source : SourceId} (hm : d[source.1]? = some m) {signal : Signal}
    (hsignal : IsSignal d signal) :
    source ∈ (analyzeConnectivity d c).drivers signal ↔
      ∃ u, NameOf d m source u true ∧ u.place.driver = true ∧ u.TakenFor source.1 signal := by
  obtain ⟨mi, name⟩ := signal
  obtain ⟨m', hm', hs⟩ := hsignal
  have hlt : mi < d.length := (List.getElem?_eq_some_iff.1 hm').1
  have hlist := mem_analyzeConnectivity d c hlt source (.driver name)
  rw [Connectivity.lists] at hlist
  rw [hlist]
  constructor
  · intro h
    obtain rfl : source.1 = mi := h.1
    obtain ⟨-, u, hu, ⟨hplace, hname⟩ | ⟨-, hload⟩⟩ := (shown_iff hm _).1 h
    · exact ⟨u, hu, hplace, by cases hname; rfl⟩
    · cases hload
  · rintro ⟨u, hu, hplace, htaken⟩
    cases htaken
    obtain rfl : m = m' := Option.some.inj (hm.symm.trans hm')
    exact (shown_iff hm _).2 ⟨hs, u, hu, .inl ⟨hplace, rfl⟩⟩

theorem mem_loads_iff (c : Connectivity) {source : SourceId} (hm : d[source.1]? = some m) {signal : Signal}
    (hsignal : IsSignal d signal) :
    source ∈ (analyzeConnectivity d c).loads signal ↔
      ∃ u, NameOf d m source u true ∧ u.place.load = true ∧ u.TakenFor source.1 signal := by
  obtain ⟨mi, name⟩ := signal
  obtain ⟨m', hm', hs⟩ := hsignal
  have hlt : mi < d.length := (List.getElem?_eq_some_iff.1 hm').1
  have hlist := mem_analyzeConnectivity d c hlt source (.load name)
  rw [Connectivity.lists] at hlist
  rw [hlist]
  constructor
  · intro h
    obtain rfl : source.1 = mi := h.1
    obtain ⟨-, u, hu, ⟨-, hdriver⟩ | ⟨hplace, hname⟩⟩ := (shown_iff hm _).1 h
    · cases hdriver
    · exact ⟨u, hu, hplace, by cases hname; rfl⟩
  · rintro ⟨u, hu, hplace, htaken⟩
    cases htaken
    obtain rfl : m = m' := Option.some.inj (hm.symm.trans hm')
    exact (shown_iff hm _).2 ⟨hs, u, hu, .inr ⟨hplace, rfl⟩⟩

/-- A plain name that nothing hides means what the analysis takes it for. -/
theorem means_iff_takenFor {u : Use} {mi : Nat} {signal : Signal} (hm : d[mi]? = some m) (hsignal : IsSignal d signal)
    (hhidden : u.hidden = false) (hplain : u.path.1 = []) : u.Means reach mi m signal ↔ u.TakenFor mi signal := by
  rw [Use.Means, Use.TakenFor, locate, if_pos hplain]
  constructor
  · rintro ⟨-, h⟩
    split at h
    · exact (Option.some.inj h).symm
    · cases h
  · rintro rfl
    obtain ⟨m', hm', hs⟩ := hsignal
    obtain rfl : m = m' := Option.some.inj (hm.symm.trans hm')
    exact ⟨hhidden, if_pos hs⟩

/-- What is shown is what is done exactly where the names are judged well. -/
theorem judged_iff (does shows : Place → Bool) {source : SourceId} {signal : Signal} (hm : d[source.1]? = some m)
    (hsignal : IsSignal d signal) :
    ((∃ u, NameOf d m source u true ∧ shows u.place = true ∧ u.TakenFor source.1 signal) ↔
      ∃ u followed, NameOf d m source u followed ∧ does u.place = true ∧ u.Means reach source.1 m signal) ↔
      Judged reach does shows d m source signal := by
  constructor
  · intro h
    exact ⟨fun u followed hu hdoes hmeans _ => h.2 ⟨u, followed, hu, hdoes, hmeans⟩,
      fun u hu hshows htaken _ => h.1 ⟨u, hu, hshows, htaken⟩⟩
  · intro h
    constructor
    · rintro ⟨u, hu, hshows, htaken⟩
      by_cases hwrong : does u.place = false ∨ u.hidden = true ∨ u.path.1 ≠ []
      · exact h.mistaken u hu hshows htaken hwrong
      · push Not at hwrong
        obtain ⟨hdoes, hhidden, hplain⟩ := hwrong
        rw [ne_eq, Bool.not_eq_false] at hdoes
        rw [ne_eq, Bool.not_eq_true] at hhidden
        exact ⟨u, true, hu, hdoes, (means_iff_takenFor hm hsignal hhidden hplain).2 htaken⟩
    · rintro ⟨u, followed, hu, hdoes, hmeans⟩
      by_cases hwrong : shows u.place = false ∨ followed = false ∨ u.path.1 ≠ []
      · exact h.missed u followed hu hdoes hmeans hwrong
      · push Not at hwrong
        obtain ⟨hshows, hfollowed, hplain⟩ := hwrong
        rw [ne_eq, Bool.not_eq_false] at hshows hfollowed
        subst hfollowed
        exact ⟨u, hu, hshows, (means_iff_takenFor hm hsignal hmeans.1 hplain).1 hmeans⟩

/-! ## Exactness -/

/-- A source of no module is on no list and does nothing. -/
theorem connected_of_no_module {c : Connectivity} {source : SourceId} (hm : d[source.1]? = none) {signal : Signal}
    (hsignal : IsSignal d signal) :
    (source ∈ (analyzeConnectivity d c).drivers signal ↔ Writes reach d source signal) ∧
      (source ∈ (analyzeConnectivity d c).loads signal ↔ Reads reach d source signal) := by
  obtain ⟨mi, name⟩ := signal
  obtain ⟨m, hmi, -⟩ := hsignal
  have hlt : mi < d.length := (List.getElem?_eq_some_iff.1 hmi).1
  have hnone : ∀ v, ¬Shown d d mi source v := by
    rintro v ⟨rfl, m', hm', -⟩
    rw [hm] at hm'
    cases hm'
  constructor
  · refine iff_of_false (fun h => hnone _ ((mem_analyzeConnectivity d c hlt source (.driver name)).1 h)) ?_
    rintro ⟨m', hm', -⟩
    rw [hm] at hm'
    cases hm'
  · refine iff_of_false (fun h => hnone _ ((mem_analyzeConnectivity d c hlt source (.load name)).1 h)) ?_
    rintro ⟨m', hm', -⟩
    rw [hm] at hm'
    cases hm'

/-- The lists of drivers and loads are exact just where every name is judged well. -/
theorem connected_iff (reach : Nat → List String → String → Option Signal) (d : Design) (c : Connectivity) :
    Connected reach d (analyzeConnectivity d c) ↔ WellJudged reach d := by
  constructor
  · intro h signal hsignal source m hm
    obtain ⟨hdrivers, hloads⟩ := h signal hsignal source
    rw [mem_drivers_iff c hm hsignal, writes_iff hm] at hdrivers
    rw [mem_loads_iff c hm hsignal, reads_iff hm] at hloads
    exact ⟨(judged_iff _ _ hm hsignal).1 hdrivers, (judged_iff _ _ hm hsignal).1 hloads⟩
  · intro h signal hsignal source
    cases hm : d[source.1]? with
    | none => exact connected_of_no_module hm hsignal
    | some m =>
        obtain ⟨hdrivers, hloads⟩ := h signal hsignal source m hm
        rw [mem_drivers_iff c hm hsignal, writes_iff hm, mem_loads_iff c hm hsignal, reads_iff hm]
        exact ⟨(judged_iff _ _ hm hsignal).2 hdrivers, (judged_iff _ _ hm hsignal).2 hloads⟩

/-- `logic [7:0] y, i, a; always @* y[i +: 4] = a;` -/
def slicedDesign : Design :=
  [{ name := "top", ports := [], parameters := [], nets := [], vars := ["y", "i", "a"], continuousAssigns := [],
     alwaysBlocks := [([], .blockingAssign
       (.partSelect (.identifier [] "y") (.identifier [] "i") (.node [])) (.identifier [] "a"))],
     initialBlocks := [], instances := [], generated := [], tasks := [], functions := [] }]

/-- The block is no driver of `y`, which `lint` reports as undriven. -/
theorem not_connected_partSelect :
    ¬Connected (fun _ _ _ => none) slicedDesign
      (analyzeConnectivity slicedDesign ⟨fun _ => [], fun _ => []⟩) := by
  intro h
  have hy := (h (0, "y") ⟨_, rfl, by decide⟩ (0, 0)).1
  have hwrites : Writes (fun _ _ _ => none) slicedDesign (0, 0) (0, "y") :=
    ⟨_, rfl, _, rfl, ([], "y"),
      .itself (by simp [Source.effects, Statement.effects, Expr.assignEffects, Hidden]), by decide⟩
  have hmem := hy.2 hwrites
  revert hmem
  decide

end

end Veriforge.Analysis

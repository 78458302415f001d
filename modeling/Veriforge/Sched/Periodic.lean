import Mathlib.Data.List.Induction
import Mathlib.Tactic.ByContra
import Veriforge.Runs
import Veriforge.Sched.ClockEvents

/-! # Time and clock edges

As long as nothing is scheduled before the time of the simulator, its time does not run backwards and every
clock makes its edges in order, each once. -/

namespace Veriforge.Sched

variable {σ Proc : Type}

/-! ## The edges of a clock -/

/-- The edges of a clock from time 0 on: rising ones after whole periods and falling ones a high time later. -/
def Clock.edge (c : Clock) (k : Nat) : Nat × Bool :=
  (k / 2 * c.period + if k % 2 = 0 then 0 else c.highTime, k % 2 == 0)

theorem Clock.edge_even (c : Clock) (j : Nat) : c.edge (2 * j) = (j * c.period, true) := by
  unfold edge
  rw [Nat.mul_div_cancel_left j (by decide), Nat.mul_mod_right]
  rfl

theorem Clock.edge_odd (c : Clock) (j : Nat) : c.edge (2 * j + 1) = (j * c.period + c.highTime, false) := by
  unfold edge
  rw [show (2 * j + 1) / 2 = j by omega, show (2 * j + 1) % 2 = 1 by omega]
  rfl

/-- The high time is less than the period. -/
def Clock.Proper (c : Clock) : Prop := c.highTime < c.period

instance (c : Clock) : Decidable c.Proper := Nat.decLt _ _

theorem Clock.Proper.sum {c : Clock} (h : c.Proper) : c.highTime + c.lowTime = c.period := by
  unfold Clock.Proper at h
  unfold Clock.lowTime
  omega

theorem Clock.highTime_pos (c : Clock) : 0 < c.highTime := Nat.lt_of_lt_of_le Nat.one_pos (Nat.le_max_left _ _)

/-- Later edges come later. -/
theorem Clock.Proper.edge_lt {c : Clock} (h : c.Proper) {k l : Nat} (hkl : k < l) : (c.edge k).1 < (c.edge l).1 := by
  have hstep : ∀ k, (c.edge k).1 < (c.edge (k + 1)).1 := by
    intro k
    have hpos := c.highTime_pos
    obtain ⟨j, rfl | rfl⟩ : ∃ j, k = 2 * j ∨ k = 2 * j + 1 := ⟨k / 2, by omega⟩
    · rw [c.edge_even, c.edge_odd]
      exact Nat.lt_add_of_pos_right hpos
    · rw [show 2 * j + 1 + 1 = 2 * (j + 1) by omega, c.edge_even, c.edge_odd, Nat.add_mul, Nat.one_mul]
      exact Nat.add_lt_add_left h _
  induction hkl with
  | refl => exact hstep k
  | step _ ih => exact Nat.lt_trans ih (hstep _)

/-- The edges of a signal. -/
def edgesFor (edges : List (String × Nat × Bool)) (signal : String) : List (Nat × Bool) :=
  edges.filterMap fun e => if e.1 = signal then some e.2 else none

/-- The toggle of a signal that an event is. -/
def Timed.valueFor (signal : String) : Timed Proc → Option Bool
  | .toggle name value => if name = signal then some value else none
  | .process _ => none

/-- The toggles of a signal that wait in a queue. -/
def pendingOf (queue : List (Nat × Timed Proc)) (signal : String) : List (Nat × Bool) :=
  queue.filterMap fun e => (e.2.valueFor signal).map fun value => (e.1, value)

/-- A clock makes each of its edges once, in order and none before it was scheduled; those that have been
scheduled and whose time has passed are made. -/
def Simulator.PeriodicEdges (s : Simulator σ Proc) (c : Clock) : Prop :=
  ∃ t₀ made, (∀ t ∈ s.firstAt c.signal, t ≤ t₀) ∧
    edgesFor s.edges c.signal = (List.range made).map (fun k => (t₀ + (c.edge k).1, (c.edge k).2)) ∧
    ∀ next ∈ s.nextEdge c.signal, ∀ k, t₀ + (c.edge k).1 < next → t₀ + (c.edge k).1 < s.time → k < made

/-! ## Scheduling -/

/-- Nothing is scheduled before the time. -/
structure Simulator.Ordered (s : Simulator σ Proc) : Prop where
  steps : s.steps.Pairwise (· ≤ ·)
  steps_le : ∀ t ∈ s.steps, t ≤ s.time
  queue : ∀ e ∈ s.queue, s.time ≤ e.1

/-- A clock is scheduled from the present on, if it is scheduled at all. -/
def Simulator.InTime (s : Simulator σ Proc) (maxTime : Nat) (c : Clock) : Prop :=
  s.continues c ≤ maxTime → s.time ≤ s.continues c

instance (s : Simulator σ Proc) (maxTime : Nat) (c : Clock) : Decidable (s.InTime maxTime c) :=
  inferInstanceAs (Decidable (_ → _))

theorem togglesUpTo_le (c : Clock) (maxTime turns : Nat) :
    ∀ t, ∀ e ∈ (togglesUpTo c maxTime turns t : List (Nat × Timed Proc) × Nat).1, t ≤ maxTime ∧ t ≤ e.1 := by
  induction turns with
  | zero => exact fun t e he => nomatch he
  | succ turns ih =>
    intro t e he
    rw [togglesUpTo] at he
    split at he
    · next hle =>
      refine ⟨hle, ?_⟩
      rcases List.mem_cons.mp he with rfl | he
      · exact Nat.le_refl _
      · rcases List.mem_cons.mp he with rfl | he
        · exact Nat.le_add_right _ _
        · have := (ih _ e he).2
          omega
    · exact nomatch he

/-- The loop ends past its limit. -/
theorem lt_togglesUpTo (c : Clock) (maxTime turns : Nat) :
    ∀ t, maxTime < t + turns → maxTime < (togglesUpTo c maxTime turns t : List (Nat × Timed Proc) × Nat).2 := by
  induction turns with
  | zero => exact fun t h => h
  | succ turns ih =>
    intro t h
    rw [togglesUpTo]
    split
    · have hpos := c.highTime_pos
      exact ih _ (by omega)
    · next hgt => exact Nat.lt_of_not_le hgt

/-- The toggles of a clock are its edges, from a whole period on to a whole period. -/
theorem togglesUpTo_edges {c : Clock} (hc : c.Proper) (maxTime turns : Nat) : ∀ j, ∃ j', j ≤ j' ∧
      (togglesUpTo c maxTime turns (j * c.period) : List (Nat × Timed Proc) × Nat).2 = j' * c.period ∧
      (List.range (2 * j)).map c.edge ++
          pendingOf (togglesUpTo c maxTime turns (j * c.period) : List (Nat × Timed Proc) × Nat).1 c.signal =
        (List.range (2 * j')).map c.edge := by
  induction turns with
  | zero => exact fun j => ⟨j, Nat.le_refl _, rfl, List.append_nil _⟩
  | succ turns ih =>
    intro j
    rw [togglesUpTo]
    split
    · obtain ⟨j', hle, hnext, hedges⟩ := ih (j + 1)
      have hperiod : j * c.period + c.highTime + c.lowTime = (j + 1) * c.period := by
        rw [Nat.add_assoc, hc.sum, Nat.add_mul, Nat.one_mul]
      rw [hperiod]
      refine ⟨j', Nat.le_of_succ_le hle, hnext, ?_⟩
      rw [← hedges, show 2 * (j + 1) = 2 * j + 1 + 1 by omega, List.range_succ, List.range_succ, List.map_append,
        List.map_append, List.append_assoc, List.append_assoc]
      congr 1
      simp [pendingOf, Timed.valueFor, c.edge_even, c.edge_odd]
    · exact ⟨j, Nat.le_refl _, rfl, List.append_nil _⟩

theorem pendingOf_append (queue queue' : List (Nat × Timed Proc)) (signal : String) :
    pendingOf (queue ++ queue') signal = pendingOf queue signal ++ pendingOf queue' signal := List.filterMap_append

/-- The toggles of another clock. -/
theorem pendingOf_togglesUpTo {c : Clock} {signal : String} (h : c.signal ≠ signal) (maxTime turns : Nat) :
    ∀ t, pendingOf (togglesUpTo c maxTime turns t : List (Nat × Timed Proc) × Nat).1 signal = [] := by
  induction turns with
  | zero => exact fun t => rfl
  | succ turns ih =>
    intro t
    rw [togglesUpTo]
    split
    · have hother : ∀ value, (Timed.toggle c.signal value : Timed Proc).valueFor signal = none := fun _ => if_neg h
      unfold pendingOf
      rw [List.filterMap_cons_none (by rw [hother]; rfl), List.filterMap_cons_none (by rw [hother]; rfl)]
      exact ih _
    · rfl

theorem pendingOf_processes {α : Type} (xs : List α) (f : α → Nat × Proc) (signal : String) :
    pendingOf (xs.map fun x => ((f x).1, Timed.process (f x).2)) signal = [] := by
  unfold pendingOf
  rw [List.filterMap_map]
  exact List.filterMap_eq_nil_iff.mpr fun x _ => rfl

/-- A clock of which `made` edges are made and the edges of `periods` periods are scheduled. -/
structure Simulator.Tracked (s : Simulator σ Proc) (c : Clock) (periods made : Nat) : Prop where
  edges : edgesFor s.edges c.signal = (List.range made).map c.edge
  level : s.level c.signal = decide (made % 2 = 1)
  pending : s.finished = false →
    edgesFor s.edges c.signal ++ pendingOf s.queue c.signal = (List.range (2 * periods)).map c.edge
  next : (s.nextEdge c.signal = none ∧ s.firstAt c.signal = none ∧ periods = 0 ∧ made = 0) ∨
    (s.nextEdge c.signal = some (periods * c.period) ∧ s.firstAt c.signal = some 0)
  complete : ∀ k < 2 * periods, (c.edge k).1 < s.time → k < made

theorem togglesUpTo_late {c : Clock} {maxTime t : Nat} (h : maxTime < t) (turns : Nat) :
    (togglesUpTo c maxTime turns t : List (Nat × Timed Proc) × Nat) = ([], t) := by
  cases turns with
  | zero => rfl
  | succ turns => rw [togglesUpTo, if_neg (Nat.not_le_of_gt h)]

namespace Simulator

variable {s : Simulator σ Proc} {c : Clock} {periods made : Nat}

theorem Ordered.schedule (h : s.Ordered) {maxTime : Nat} {c' : Clock} (hin : s.InTime maxTime c') :
    (s.scheduleClockEvents c' maxTime).Ordered := by
  refine ⟨h.steps, h.steps_le, fun e he => ?_⟩
  rcases List.mem_append.mp he with he | he
  · exact h.queue e he
  · obtain ⟨hle, ht⟩ := togglesUpTo_le c' maxTime _ _ e he
    exact Nat.le_trans (hin hle) ht

/-- Scheduling one clock does not make another late: the next edge of one that has been scheduled is past the
limit. -/
theorem InTime.schedule {maxTime : Nat} {c' c'' : Clock} (h : s.InTime maxTime c'') :
    (s.scheduleClockEvents c' maxTime).InTime maxTime c'' := by
  intro hle
  unfold continues scheduleClockEvents at hle ⊢
  dsimp only at hle ⊢
  by_cases hsame : c''.signal = c'.signal
  · rw [hsame, Function.update_self, Option.getD_some] at hle
    exact absurd hle (Nat.not_le_of_gt (lt_togglesUpTo c' maxTime _ _ (by omega)))
  · rw [Function.update_of_ne hsame] at hle ⊢
    exact h hle

theorem Tracked.schedule (hc : c.Proper) (h : s.Tracked c periods made) {maxTime : Nat} {c' : Clock}
    (hsame : c'.signal = c.signal → c' = c) (hin : s.InTime maxTime c') :
    ∃ periods', (s.scheduleClockEvents c' maxTime).Tracked c periods' made := by
  by_cases hne : c'.signal = c.signal
  · obtain rfl := hsame hne
    have hcontinues : s.continues c' = periods * c'.period := by
      unfold continues
      rcases h.next with ⟨hnext, -, hperiods, -⟩ | ⟨hnext, -⟩
      · rw [hnext, hperiods, Nat.zero_mul]
        rfl
      · rw [hnext]
        rfl
    have hbatch := @togglesUpTo_edges Proc c' hc maxTime (maxTime + 1 - s.continues c') periods
    obtain ⟨periods', hle, hnext', hedges⟩ := hbatch
    rw [← hcontinues] at hnext' hedges
    refine ⟨periods', h.edges, ?_, fun hfinished => ?_, Or.inr ⟨?_, ?_⟩, fun k hk htime => ?_⟩
    · unfold scheduleClockEvents
      dsimp only
      rcases h.next with ⟨hnext, -, -, hmade⟩ | ⟨hnext, -⟩
      · rw [hnext, Option.isNone_none, if_pos rfl, Function.update_self, hmade]
        rfl
      · rw [hnext, Option.isNone_some, if_neg Bool.false_ne_true]
        exact h.level
    · change edgesFor s.edges c'.signal ++ pendingOf (s.queue ++ _) c'.signal = _
      rw [pendingOf_append, ← List.append_assoc, h.pending hfinished]
      exact hedges
    · unfold scheduleClockEvents
      dsimp only
      rw [Function.update_self, hnext']
    · unfold scheduleClockEvents
      dsimp only
      rcases h.next with ⟨hnext, -, hperiods, -⟩ | ⟨hnext, hfirst⟩
      · rw [hperiods, Nat.zero_mul] at hcontinues
        have htime := hin (by rw [hcontinues]; exact Nat.zero_le _)
        rw [hnext, Option.isNone_none, if_pos rfl, Function.update_self]
        exact congrArg some (by omega)
      · rw [hnext, Option.isNone_some, if_neg Bool.false_ne_true]
        exact hfirst
    · change (c'.edge k).1 < s.time at htime
      by_cases hold : k < 2 * periods
      · exact h.complete k hold htime
      · -- the edges that are scheduled now are not before the time
        have hge : periods * c'.period ≤ (c'.edge k).1 := by
          rcases Nat.eq_or_lt_of_le (Nat.le_of_not_lt hold) with rfl | hlt
          · exact Nat.le_of_eq (congrArg Prod.fst (c'.edge_even periods)).symm
          · have := hc.edge_lt hlt
            rw [c'.edge_even] at this
            exact Nat.le_of_lt this
        by_cases hlate : maxTime < s.continues c'
        · rw [togglesUpTo_late hlate, hcontinues] at hnext'
          have hpos : 0 < c'.period := Nat.lt_of_le_of_lt (Nat.zero_le _) hc
          have := Nat.eq_of_mul_eq_mul_right hpos hnext'
          omega
        · have := hin (Nat.le_of_not_lt hlate)
          omega
  · refine ⟨periods, h.edges, ?_, fun hfinished => ?_, ?_, h.complete⟩
    · unfold scheduleClockEvents
      dsimp only
      split
      · rw [Function.update_of_ne (Ne.symm hne)]
        exact h.level
      · exact h.level
    · change edgesFor s.edges c.signal ++ pendingOf (s.queue ++ _) c.signal = _
      rw [pendingOf_append, pendingOf_togglesUpTo hne, List.append_nil]
      exact h.pending hfinished
    · unfold scheduleClockEvents
      dsimp only
      rw [Function.update_of_ne (Ne.symm hne)]
      split
      · rw [Function.update_of_ne (Ne.symm hne)]
        exact h.next
      · exact h.next

/-- Clocks that are scheduled one after another. -/
theorem Ordered.scheduleAll (maxTime : Nat) (clocks : List Clock) :
    ∀ {s : Simulator σ Proc}, s.Ordered → (∀ c ∈ clocks, s.InTime maxTime c) →
      (clocks.foldl (fun s c => s.scheduleClockEvents c maxTime) s).Ordered := by
  induction clocks with
  | nil => exact fun h _ => h
  | cons c clocks ih =>
    intro s h hin
    refine ih (h.schedule (hin c List.mem_cons_self)) fun c' hc' => ?_
    exact (hin c' (List.mem_cons_of_mem _ hc')).schedule

theorem Tracked.scheduleAll (hc : c.Proper) (maxTime : Nat) (clocks : List Clock) :
    ∀ {s : Simulator σ Proc} {periods : Nat}, s.Tracked c periods made →
      (∀ c' ∈ clocks, c'.signal = c.signal → c' = c) → (∀ c' ∈ clocks, s.InTime maxTime c') →
      ∃ periods', (clocks.foldl (fun s c => s.scheduleClockEvents c maxTime) s).Tracked c periods' made := by
  induction clocks with
  | nil => exact fun h _ _ => ⟨_, h⟩
  | cons c' clocks ih =>
    intro s periods h hsame hin
    obtain ⟨periods', hfirst⟩ := h.schedule hc (hsame c' List.mem_cons_self) (hin c' List.mem_cons_self)
    refine ih hfirst (fun c'' hc'' => hsame c'' (List.mem_cons_of_mem _ hc'')) fun c'' hc'' => ?_
    exact (hin c'' (List.mem_cons_of_mem _ hc'')).schedule

/-- Scheduling clocks changes neither the time nor the processes. -/
theorem scheduleAll_frame (maxTime : Nat) (clocks : List Clock) :
    ∀ s : Simulator σ Proc, let s' := clocks.foldl (fun s c => s.scheduleClockEvents c maxTime) s
      s'.time = s.time ∧ s'.idle = s.idle ∧ s'.finished = s.finished ∧ s'.clocks = s.clocks := by
  induction clocks with
  | nil => exact fun s => ⟨rfl, rfl, rfl, rfl⟩
  | cons c clocks ih => exact fun s => ih (s.scheduleClockEvents c maxTime)

variable (P : Processes σ Proc)

theorem Ordered.beforeLoop (h : s.Ordered) {maxTime : Nat} (hin : ∀ c ∈ s.clocks, s.InTime maxTime c)
    (hidle : s.idle ≠ [] → s.time = 0) : (s.beforeLoop P maxTime).Ordered := by
  have hall := h.scheduleAll maxTime s.clocks hin
  obtain ⟨htime, hsame, -, -⟩ := scheduleAll_frame maxTime s.clocks s
  refine ⟨hall.steps, hall.steps_le, fun e he => ?_⟩
  rcases List.mem_append.mp he with he | he
  · rcases List.mem_append.mp he with he | he
    · exact hall.queue e he
    · obtain ⟨p, hp, rfl⟩ := List.mem_map.mp he
      rw [hsame] at hp
      exact Nat.le_of_eq (htime.trans (hidle (List.ne_nil_of_mem hp)))
  · obtain ⟨p, -, rfl⟩ := List.mem_map.mp he
    exact Nat.le_refl _

theorem Tracked.beforeLoop (hc : c.Proper) (h : s.Tracked c periods made) {maxTime : Nat}
    (hsame : ∀ c' ∈ s.clocks, c'.signal = c.signal → c' = c) (hin : ∀ c' ∈ s.clocks, s.InTime maxTime c') :
    ∃ periods', (s.beforeLoop P maxTime).Tracked c periods' made := by
  obtain ⟨periods', hall⟩ := h.scheduleAll hc maxTime s.clocks hsame hin
  refine ⟨periods', hall.edges, hall.level, fun hfinished => ?_, hall.next, hall.complete⟩
  rw [← hall.pending hfinished]
  unfold Simulator.beforeLoop
  dsimp only
  rw [pendingOf_append, pendingOf_append, pendingOf_processes _ fun p => (0, p), pendingOf_processes _ fun p => (_, p),
    List.append_nil, List.append_nil]

/-! ## A time step -/

/-- The toggles of a signal among the events of a time step. -/
theorem pendingOf_filter (queue : List (Nat × Timed Proc)) (signal : String) (p : Nat → Bool) :
    pendingOf (queue.filter fun e => p e.1) signal = (pendingOf queue signal).filter fun e => p e.1 := by
  unfold pendingOf
  rw [List.filter_filterMap, List.filterMap_filter]
  refine List.filterMap_congr fun e _ => ?_
  cases e.2.valueFor signal with
  | none => simp
  | some value =>
    rw [Option.map_some, Option.filter_some]

/-- What the toggles of a step make of one signal is told by its own toggles. -/
theorem foldl_toggleAt (next : Nat) (signal : String) (events : List (Timed Proc)) :
    ∀ p : (String → Bool) × List (String × Nat × Bool),
      ((events.foldl (toggleAt next) p).1 signal, edgesFor (events.foldl (toggleAt next) p).2 signal) =
        (events.filterMap (Timed.valueFor signal)).foldl
          (fun q value => (value, if q.1 = value then q.2 else q.2 ++ [(next, value)]))
          (p.1 signal, edgesFor p.2 signal) := by
  induction events with
  | nil => exact fun p => rfl
  | cons event events ih =>
    intro p
    rw [List.foldl_cons, ih]
    cases event with
    | process proc => rfl
    | toggle name value =>
      by_cases hname : name = signal
      · have hvalue : (Timed.toggle name value : Timed Proc).valueFor signal = some value := if_pos hname
        rw [List.filterMap_cons_some hvalue, List.foldl_cons, ← hname]
        congr 1
        unfold toggleAt
        dsimp only
        rw [Function.update_self]
        split
        · rfl
        · unfold edgesFor
          rw [List.filterMap_append]
          simp
      · have hvalue : (Timed.toggle name value : Timed Proc).valueFor signal = none := if_neg hname
        rw [List.filterMap_cons_none hvalue]
        congr 1
        unfold toggleAt
        dsimp only
        rw [Function.update_of_ne (Ne.symm hname)]
        split
        · rfl
        · unfold edgesFor
          rw [List.filterMap_append]
          simp [hname]

/-- The events of a time step hold the toggles that wait for its time. -/
theorem filterMap_popped (queue : List (Nat × Timed Proc)) (next : Nat) (signal : String) :
    ((queue.filter fun e => e.1 = next).map Prod.snd).filterMap (Timed.valueFor signal) =
      ((pendingOf queue signal).filter fun e => e.1 = next).map Prod.snd := by
  rw [← pendingOf_filter queue signal fun t => decide (t = next)]
  unfold pendingOf
  rw [List.filterMap_map, List.map_filterMap]
  refine List.filterMap_congr fun e _ => ?_
  cases h : e.2.valueFor signal <;> simp [h]

theorem peekTime_eq {s : Simulator σ Proc} {next : Nat} (h : s.peekTime = some next) :
    (∃ e ∈ s.queue, e.1 = next) ∧ ∀ e ∈ s.queue, next ≤ e.1 := by
  obtain ⟨hmem, hle⟩ := List.min?_eq_some_iff.mp h
  exact ⟨List.mem_map.mp hmem, fun e he => hle _ (List.mem_map_of_mem he)⟩

/-- The edges that wait in the queue are those that are scheduled and not made. -/
theorem Tracked.waiting (h : s.Tracked c periods made) (hfinished : s.finished = false) :
    made ≤ 2 * periods ∧ pendingOf s.queue c.signal = (List.range' made (2 * periods - made)).map c.edge := by
  have hall := h.pending hfinished
  rw [h.edges] at hall
  have hlength := congrArg List.length hall
  rw [List.length_append, List.length_map, List.length_map, List.length_range, List.length_range] at hlength
  have hle : made ≤ 2 * periods := by omega
  refine ⟨hle, ?_⟩
  rw [List.range_eq_range', List.range_eq_range', show 2 * periods = made + (2 * periods - made) by omega,
    ← List.range'_append_1, List.map_append, Nat.zero_add] at hall
  exact List.append_cancel_left hall

variable [DecidableEq Proc]

theorem Ordered.singleStep (h : s.Ordered) {next : Nat} (hpeek : s.peekTime = some next) :
    (s.singleStep P next).Ordered := by
  obtain ⟨⟨e, he, rfl⟩, hle⟩ := peekTime_eq hpeek
  have hnext := h.queue e he
  refine ⟨?_, fun t ht => ?_, fun e' he' => ?_⟩
  · refine List.pairwise_append.mpr ⟨h.steps, List.pairwise_singleton _ _, fun t ht t' ht' => ?_⟩
    rw [List.mem_singleton.mp ht']
    exact Nat.le_trans (h.steps_le t ht) hnext
  · rcases List.mem_append.mp ht with ht | ht
    · exact Nat.le_trans (h.steps_le t ht) hnext
    · rw [List.mem_singleton.mp ht]
      exact Nat.le_refl _
  · unfold Simulator.singleStep at he' ⊢
    dsimp only at he' ⊢
    split at he'
    · exact nomatch he'
    · rcases List.mem_append.mp he' with he' | he'
      · exact hle e' (List.mem_of_mem_filter he')
      · obtain ⟨p, -, rfl⟩ := List.mem_map.mp he'
        exact Nat.le_add_right _ _

/-- Edges that are all later are none of a time step. -/
theorem filter_later {next made n : Nat} (hlater : ∀ k, made ≤ k → k < made + n → next < (c.edge k).1) :
    ((List.range' made n).map c.edge).filter (fun e => e.1 = next) = [] ∧
      ((List.range' made n).map c.edge).filter (fun e => e.1 ≠ next) = (List.range' made n).map c.edge := by
  have hne : ∀ e ∈ (List.range' made n).map c.edge, e.1 ≠ next := by
    intro e he
    obtain ⟨k, hk, rfl⟩ := List.mem_map.mp he
    obtain ⟨hle, hlt⟩ := List.mem_range'_1.mp hk
    exact Nat.ne_of_gt (hlater k hle hlt)
  constructor
  · exact List.filter_eq_nil_iff.mpr fun e he => by simpa using hne e he
  · exact List.filter_eq_self.mpr fun e he => by simpa using hne e he

/-- Of the edges that wait, at most the first is one of the next time step. -/
theorem filter_due (hc : c.Proper) {next made n : Nat}
    (hge : ∀ k, made ≤ k → k < made + n → next ≤ (c.edge k).1) :
    (((List.range' made n).map c.edge).filter (fun e => e.1 = next) = [] ∧
      ((List.range' made n).map c.edge).filter (fun e => e.1 ≠ next) = (List.range' made n).map c.edge ∧
      ∀ k, made ≤ k → k < made + n → next < (c.edge k).1) ∨
    (0 < n ∧ (c.edge made).1 = next ∧ ((List.range' made n).map c.edge).filter (fun e => e.1 = next) = [c.edge made] ∧
      ((List.range' made n).map c.edge).filter (fun e => e.1 ≠ next) =
        (List.range' (made + 1) (n - 1)).map c.edge) := by
  by_cases hdue : 0 < n ∧ (c.edge made).1 = next
  · refine Or.inr ⟨hdue.1, hdue.2, ?_⟩
    obtain ⟨n, rfl⟩ : ∃ m, n = m + 1 := ⟨n - 1, by omega⟩
    have hlater : ∀ k, made + 1 ≤ k → k < made + 1 + n → next < (c.edge k).1 := by
      intro k hk _
      rw [← hdue.2]
      exact hc.edge_lt hk
    obtain ⟨hnone, hall⟩ := filter_later hlater
    rw [List.range'_succ, List.map_cons, List.filter_cons_of_pos (by simpa using hdue.2), hnone,
      List.filter_cons_of_neg (by simpa using hdue.2), hall]
    exact ⟨rfl, rfl⟩
  · have hlater : ∀ k, made ≤ k → k < made + n → next < (c.edge k).1 := by
      intro k hk hlt
      rcases Nat.eq_or_lt_of_le hk with rfl | hmade
      · have := hge made (Nat.le_refl _) hlt
        have : (c.edge made).1 ≠ next := fun heq => hdue ⟨by omega, heq⟩
        omega
      · have := hge made (Nat.le_refl _) (by omega)
        have := hc.edge_lt hmade
        omega
    exact Or.inl ⟨(filter_later hlater).1, (filter_later hlater).2, hlater⟩

theorem Tracked.singleStep (hc : c.Proper) (h : s.Tracked c periods made) (hfinished : s.finished = false)
    {next : Nat} (hpeek : s.peekTime = some next) :
    ∃ made', (s.singleStep P next).Tracked c periods made' := by
  obtain ⟨hle, hwaiting⟩ := h.waiting hfinished
  have hge : ∀ k, made ≤ k → k < 2 * periods → next ≤ (c.edge k).1 := by
    intro k hk hlt
    have hmem : c.edge k ∈ pendingOf s.queue c.signal := by
      rw [hwaiting]
      exact List.mem_map_of_mem (List.mem_range'_1.mpr ⟨hk, by omega⟩)
    obtain ⟨e, he, hedge⟩ := List.mem_filterMap.mp hmem
    obtain ⟨value, -, hvalue⟩ := Option.map_eq_some_iff.mp hedge
    rw [← hvalue]
    exact (peekTime_eq hpeek).2 e he
  have htoggled := foldl_toggleAt next c.signal ((s.queue.filter fun e => e.1 = next).map Prod.snd) (s.level, s.edges)
  rw [filterMap_popped, hwaiting] at htoggled
  have hqueue : ∀ reacted : List (Nat × Proc),
      pendingOf ((s.queue.filter fun e => e.1 ≠ next) ++ reacted.map fun p => (next + p.1, .process p.2)) c.signal =
        ((List.range' made (2 * periods - made)).map c.edge).filter fun e => e.1 ≠ next := by
    intro reacted
    rw [pendingOf_append, pendingOf_processes reacted fun p => (next + p.1, p.2), List.append_nil,
      pendingOf_filter s.queue c.signal fun t => decide (t ≠ next), hwaiting]
  have hlast : made + (2 * periods - made) = 2 * periods := by omega
  have hafter : (s.singleStep P next).finished = false →
      (s.singleStep P next).queue = (s.queue.filter fun e => e.1 ≠ next) ++
        (P.react s.state next ((s.queue.filter fun e => e.1 = next).map Prod.snd)).2.1.map
          fun p => (next + p.1, .process p.2) := fun hfin => if_neg (Bool.eq_false_iff.mp hfin)
  rw [← hlast] at hge
  rcases filter_due hc hge with ⟨hnone, hall, hlater⟩ | ⟨hpos, hdue, hone, hrest⟩
  · rw [hnone] at htoggled
    have hedges := (Prod.mk.inj htoggled).2
    refine ⟨made, hedges.trans h.edges, (Prod.mk.inj htoggled).1.trans h.level, fun hfin => ?_, h.next, ?_⟩
    · rw [hafter hfin, hqueue, hall, ← hwaiting]
      exact (congrArg (· ++ _) hedges).trans (h.pending hfinished)
    · intro k hk htime
      by_contra hmade
      have := hlater k (Nat.le_of_not_lt hmade) (by omega)
      exact Nat.lt_asymm this htime
  · rw [hone] at htoggled
    have hchange : s.level c.signal ≠ (c.edge made).2 := by
      rw [h.level]
      unfold Clock.edge
      rcases Nat.mod_two_eq_zero_or_one made with hmod | hmod <;> simp [hmod]
    rw [List.map_singleton, List.foldl_cons, List.foldl_nil, if_neg hchange] at htoggled
    have hedges : edgesFor (s.singleStep P next).edges c.signal = (List.range (made + 1)).map c.edge := by
      refine (Prod.mk.inj htoggled).2.trans ?_
      rw [h.edges, List.range_succ, List.map_append, List.map_singleton, ← hdue]
    refine ⟨made + 1, hedges, ?_, fun hfin => ?_, ?_, ?_⟩
    · refine (Prod.mk.inj htoggled).1.trans ?_
      unfold Clock.edge
      rcases Nat.mod_two_eq_zero_or_one made with hmod | hmod
      · simp [hmod, Nat.add_mod]
      · simp [hmod, Nat.add_mod]
    · rw [hafter hfin, hqueue, hrest, hedges, List.range_eq_range', List.range_eq_range', ← List.map_append]
      have happend := @List.range'_append_1 0 (made + 1) (2 * periods - made - 1)
      rw [Nat.zero_add] at happend
      rw [happend, show made + 1 + (2 * periods - made - 1) = 2 * periods by omega]
    · rcases h.next with ⟨-, -, hperiods, -⟩ | hnext
      · omega
      · exact Or.inr hnext
    · intro k hk htime
      by_contra hmade
      have := hge k (by omega) (by omega)
      exact Nat.not_le_of_gt htime this

theorem Ordered.runTimeStep (maxTime turns : Nat) :
    ∀ {s : Simulator σ Proc}, s.Ordered → (s.runTimeStep P maxTime turns).Ordered := by
  induction turns with
  | zero => exact fun h => h
  | succ turns ih =>
    intro s h
    rw [Simulator.runTimeStep]
    split
    · exact h
    · next next hpeek =>
      split
      · exact h
      · split
        · exact h.singleStep P hpeek
        · exact ih (h.singleStep P hpeek)

theorem Tracked.runTimeStep (hc : c.Proper) (maxTime turns : Nat) :
    ∀ {s : Simulator σ Proc} {made : Nat}, s.Tracked c periods made → s.finished = false →
      ∃ made', (s.runTimeStep P maxTime turns).Tracked c periods made' := by
  induction turns with
  | zero => exact fun h _ => ⟨_, h⟩
  | succ turns ih =>
    intro s made h hfinished
    rw [Simulator.runTimeStep]
    split
    · exact ⟨_, h⟩
    · next next hpeek =>
      split
      · exact ⟨_, h⟩
      · obtain ⟨made', hstep⟩ := h.singleStep P hc hfinished hpeek
        split
        · exact ⟨_, hstep⟩
        · next hgoes => exact ih hstep (Bool.eq_false_iff.mpr hgoes)

/-! ## Calls -/

/-- Nothing is scheduled before the time of the simulator: a clock that gets edges gets them from the present on,
the processes of the design run first at time 0, and the simulation has not been finished. -/
def Timely (s : Simulator σ Proc) : SimCall → Prop
  | .fork _ => True
  | .scheduleClock c maxTime => s.InTime maxTime c
  | .run maxTime _ => s.finished = false ∧ (∀ c ∈ s.clocks, s.InTime maxTime c) ∧ (s.idle ≠ [] → s.time = 0)
  | .runStep => s.finished = false

instance (s : Simulator σ Proc) (i : SimCall) : Decidable (s.Timely i) :=
  match i with
  | .fork _ => inferInstanceAs (Decidable True)
  | .scheduleClock c maxTime => inferInstanceAs (Decidable (s.InTime maxTime c))
  | .run maxTime _ => inferInstanceAs
      (Decidable (s.finished = false ∧ (∀ c ∈ s.clocks, s.InTime maxTime c) ∧ (s.idle ≠ [] → s.time = 0)))
  | .runStep => inferInstanceAs (Decidable (s.finished = false))

end Simulator

/-- A call that drives the signal of a clock is about this clock. -/
def SimCall.Respects (c : Clock) : SimCall → Prop
  | .fork c' => c'.signal = c.signal → c' = c
  | .scheduleClock c' _ => c'.signal = c.signal → c' = c
  | .run _ _ => True
  | .runStep => True

namespace Simulator

variable {s : Simulator σ Proc} {c : Clock} {periods made : Nat}

theorem ordered_start (state : σ) (idle : List Proc) : (start state idle).Ordered :=
  ⟨List.Pairwise.nil, fun _ ht => (List.not_mem_nil ht).elim, fun _ he => (List.not_mem_nil he).elim⟩

theorem tracked_start (state : σ) (idle : List Proc) (c : Clock) : (start state idle).Tracked c 0 0 :=
  ⟨rfl, rfl, fun _ => rfl, Or.inl ⟨rfl, rfl, rfl, rfl⟩, fun _ h => nomatch h⟩

theorem Tracked.periodicEdges (hc : c.Proper) (h : s.Tracked c periods made) : s.PeriodicEdges c := by
  refine ⟨0, made, fun t ht => ?_, ?_, fun next hnext k hlt htime => ?_⟩
  · rcases h.next with ⟨-, hfirst, -, -⟩ | ⟨-, hfirst⟩
    · rw [hfirst] at ht
      exact nomatch ht
    · rw [hfirst] at ht
      exact Nat.le_of_eq (Option.mem_some_iff.mp ht).symm
  · rw [h.edges]
    exact List.map_congr_left fun k _ => by rw [Nat.zero_add]
  · rw [Nat.zero_add] at hlt htime
    refine h.complete k ?_ htime
    rcases h.next with ⟨hnone, -, -, -⟩ | ⟨hsome, -⟩
    · rw [hnone] at hnext
      exact nomatch hnext
    · rw [hsome, Option.mem_some_iff] at hnext
      have hedge : (c.edge (2 * periods)).1 = periods * c.period := congrArg Prod.fst (c.edge_even periods)
      rw [← hnext, ← hedge] at hlt
      by_contra hle
      rcases Nat.eq_or_lt_of_le (Nat.le_of_not_lt hle) with rfl | hlater
      · exact Nat.lt_irrefl _ hlt
      · exact Nat.lt_asymm hlt (hc.edge_lt hlater)

variable [DecidableEq Proc] (P : Processes σ Proc)

theorem Ordered.call (h : s.Ordered) {i : SimCall} (hi : s.Timely i) : (s.call P i).Ordered := by
  cases i with
  | fork c => exact ⟨h.steps, h.steps_le, h.queue⟩
  | scheduleClock c maxTime => exact h.schedule hi
  | run maxTime turns => exact (h.beforeLoop P hi.2.1 hi.2.2).runTimeStep P maxTime turns
  | runStep =>
    change (s.runStep P).Ordered
    unfold runStep
    split
    · exact h
    · next next hpeek => exact h.singleStep P hpeek

theorem Tracked.call (hc : c.Proper) (h : s.Tracked c periods made)
    (hsame : ∀ c' ∈ s.clocks, c'.signal = c.signal → c' = c) {i : SimCall} (hi : s.Timely i)
    (hrespects : i.Respects c) : ∃ periods' made', (s.call P i).Tracked c periods' made' := by
  cases i with
  | fork c' => exact ⟨periods, made, h.edges, h.level, h.pending, h.next, h.complete⟩
  | scheduleClock c' maxTime =>
    obtain ⟨periods', hscheduled⟩ := h.schedule hc hrespects hi
    exact ⟨periods', made, hscheduled⟩
  | run maxTime turns =>
    obtain ⟨periods', hbefore⟩ := h.beforeLoop P hc hsame hi.2.1
    have hfinished : (s.beforeLoop P maxTime).finished = false :=
      (scheduleAll_frame maxTime s.clocks s).2.2.1.trans hi.1
    obtain ⟨made', hafter⟩ := hbefore.runTimeStep P hc maxTime turns hfinished
    exact ⟨periods', made', hafter⟩
  | runStep =>
    change ∃ periods' made', (s.runStep P).Tracked c periods' made'
    unfold runStep
    split
    · exact ⟨periods, made, h⟩
    · next next hpeek =>
      obtain ⟨made', hafter⟩ := h.singleStep P hc hi hpeek
      exact ⟨periods, made', hafter⟩

theorem runTimeStep_clocks (maxTime turns : Nat) :
    ∀ s : Simulator σ Proc, (s.runTimeStep P maxTime turns).clocks = s.clocks := by
  induction turns with
  | zero => exact fun s => rfl
  | succ turns ih =>
    intro s
    rw [runTimeStep]
    split
    · rfl
    · split
      · rfl
      · split
        · rfl
        · exact ih _

/-- The clocks are those that were forked. -/
theorem call_clocks (s : Simulator σ Proc) (i : SimCall) :
    ∀ c' ∈ (s.call P i).clocks, c' ∈ s.clocks ∨ i = .fork c' := by
  intro c' hc'
  cases i with
  | fork c =>
    rcases List.mem_append.mp hc' with hc' | hc'
    · exact Or.inl hc'
    · rw [List.mem_singleton.mp hc']
      exact Or.inr rfl
  | scheduleClock c maxTime => exact Or.inl hc'
  | run maxTime turns =>
    change c' ∈ ((s.beforeLoop P maxTime).runTimeStep P maxTime turns).clocks at hc'
    rw [runTimeStep_clocks] at hc'
    have hclocks : (s.beforeLoop P maxTime).clocks = s.clocks := (scheduleAll_frame maxTime s.clocks s).2.2.2
    rw [hclocks] at hc'
    exact Or.inl hc'
  | runStep =>
    change c' ∈ (s.runStep P).clocks at hc'
    unfold runStep at hc'
    split at hc'
    · exact Or.inl hc'
    · exact Or.inl hc'

/-- The calls keep the order of the queue. -/
theorem ordered_calls (state : σ) (idle : List Proc) (cs : List SimCall) :
    EachStep (fun before i => ((start state idle).calls P before).Timely i) cs →
      ((start state idle).calls P cs).Ordered := by
  induction cs using List.reverseRecOn with
  | nil => exact fun _ => ordered_start state idle
  | append_singleton cs i ih =>
    intro h
    obtain ⟨hbefore, hi⟩ := eachStep_concat.mp h
    unfold calls at ih ⊢
    rw [List.foldl_concat]
    exact (ih hbefore).call P hi

/-- The calls keep track of a clock that drives its signal alone. -/
theorem tracked_calls (state : σ) (idle : List Proc) (hc : c.Proper) (cs : List SimCall) :
    EachStep (fun before i => ((start state idle).calls P before).Timely i) cs → (∀ i ∈ cs, i.Respects c) →
      (∀ c' ∈ ((start state idle).calls P cs).clocks, c'.signal = c.signal → c' = c) ∧
        ∃ periods made, ((start state idle).calls P cs).Tracked c periods made := by
  induction cs using List.reverseRecOn with
  | nil => exact fun _ _ => ⟨fun _ hc' => (List.not_mem_nil hc').elim, 0, 0, tracked_start state idle c⟩
  | append_singleton cs i ih =>
    intro h hrespects
    obtain ⟨hbefore, hi⟩ := eachStep_concat.mp h
    have hlast := hrespects i (List.mem_append_right _ (List.mem_singleton.mpr rfl))
    obtain ⟨hsame, periods, made, htracked⟩ :=
      ih hbefore fun i hi => hrespects i (List.mem_append_left _ hi)
    unfold calls at hsame htracked hi ⊢
    rw [List.foldl_concat]
    refine ⟨fun c' hc' => ?_, htracked.call P hc hsame hi hlast⟩
    rcases call_clocks P _ i c' hc' with hc' | rfl
    · exact hsame c' hc'
    · exact hlast

end Simulator

/-- As long as every call is timely, time does not run backwards, and a clock whose high time is less than its period
and that drives its signal alone makes each of its edges once. -/
theorem periodic_of_timely [DecidableEq Proc] (P : Processes σ Proc) (state : σ) (idle : List Proc)
    (cs : List SimCall)
    (h : EachStep (fun before i => ((Simulator.start state idle).calls P before).Timely i) cs) :
    ((Simulator.start state idle).calls P cs).steps.Pairwise (· ≤ ·) ∧
      ∀ c : Clock, c.Proper → (∀ i ∈ cs, i.Respects c) →
        ((Simulator.start state idle).calls P cs).PeriodicEdges c := by
  refine ⟨(Simulator.ordered_calls P state idle cs h).steps, fun c hc hrespects => ?_⟩
  obtain ⟨-, periods, made, htracked⟩ := Simulator.tracked_calls P state idle hc cs h hrespects
  exact htracked.periodicEdges hc

/-- A design without processes. -/
def clocksOnly : Processes Unit Empty where
  wake _ := ((), [])
  react _ _ _ := ((), [], false)

/-- A clock of period 4, high for a quarter of it, that `run` schedules. -/
theorem periodic_of_timely_fork :
    let cs := [SimCall.fork ⟨"clk", 4, 1⟩, .run 5 9, .runStep, .run 9 9]
    ((Simulator.start () []).calls clocksOnly cs).steps.Pairwise (· ≤ ·) ∧
      ((Simulator.start () []).calls clocksOnly cs).PeriodicEdges ⟨"clk", 4, 1⟩ ∧
      ((Simulator.start () []).calls clocksOnly cs).edges =
        [("clk", 0, true), ("clk", 1, false), ("clk", 4, true), ("clk", 5, false), ("clk", 8, true),
          ("clk", 9, false)] := by
  intro cs
  have hrun : EachStep (fun before i => ((Simulator.start () []).calls clocksOnly before).Timely i) cs := by
    refine eachStep_concat.mpr ⟨eachStep_concat.mpr ⟨eachStep_concat.mpr ⟨eachStep_concat.mpr
      ⟨eachStep_nil, ?_⟩, ?_⟩, ?_⟩, ?_⟩
    · trivial
    · decide
    · decide
    · decide
  obtain ⟨hsteps, hedges⟩ := periodic_of_timely clocksOnly () [] cs hrun
  refine ⟨hsteps, hedges _ (by decide) ?_, by decide⟩
  simp only [cs, List.forall_mem_cons]
  exact ⟨fun _ => rfl, trivial, trivial, trivial, List.forall_mem_nil _⟩

/-- A second clock that is first scheduled at time 2 starts at time 0. -/
theorem late_clock :
    ¬ ((Simulator.start () []).calls clocksOnly [.scheduleClock ⟨"clk", 2, 1⟩ 2, .run 2 9,
      .scheduleClock ⟨"late", 2, 1⟩ 2, .runStep]).steps.Pairwise (· ≤ ·) := by
  decide

end Veriforge.Sched

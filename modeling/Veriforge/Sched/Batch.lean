import Veriforge.Sched.Combinational

/-! # A batch of the reference scheduler

`settle` as delta cycles over what the assigns and the blocks compute (`Cycle`): each region with the
propagations after it, and the commit with its own. When the loop ends, no combinational block has
missed a change (`Outcome`). -/

namespace Veriforge.Sched

open Design

variable {Name : Type} [DecidableEq Name] {β : Type} {D : Design Name} {held : Name → List (Nat × Nat) → β}
  {rank : Name → Nat}

/-- What evaluations of assigns keep, a propagation keeps. -/
theorem propagate_invariant {P : Store Name → Prop} (hP : ∀ a ∈ D.assigns, ∀ σ, P σ → P (a.after σ)) (k : Nat)
    (σ : Store Name) (dirty : Finset Name) (h : P σ) : P (D.propagate k σ dirty).1 := by
  have hpass : ∀ (as : List (Continuous Name)) (w : Wave Name), as ⊆ D.assigns → P w.store →
      P (runAssigns as w).store := by
    intro as
    induction as with
    | nil => exact fun w _ hw => hw
    | cons a as ih =>
      intro w has hw
      rw [runAssigns_cons]
      refine ih _ (fun b hb => has (List.mem_cons_of_mem _ hb)) ?_
      have ha := hP a (has List.mem_cons_self) w.store hw
      rcases a.evaluate_cases w with ⟨-, he⟩ | ⟨-, -, he⟩ | ⟨-, -, he⟩ <;> rw [he]
      · exact hw
      · exact ha
      · exact ha
  induction k generalizing σ dirty with
  | zero => exact h
  | succ k ih =>
    rw [propagate]
    split
    · exact ih _ _ (hpass D.assigns ⟨σ, dirty, false⟩ (List.Subset.refl _) h)
    · exact hpass D.assigns ⟨σ, dirty, false⟩ (List.Subset.refl _) h

theorem byAssigns_propagate (hL : Levelled D held rank) (k : Nat) (σ : Store Name) (dirty : Finset Name) :
    ByAssigns D held σ (D.propagate k σ dirty).1 :=
  propagate_invariant (P := fun σ' => ByAssigns D held σ σ') (fun _ ha _ h => h.after hL ha) k σ dirty
    (ByAssigns.refl σ)

/-- An assign that holds changes nothing on equal values either. -/
theorem Continuous.Covers.after_same {a : Continuous Name} (hcov : a.Covers) {σ σ' : Store Name} (h : a.Holds σ)
    (hs : Same σ' σ) : Same (a.after σ') σ := fun n =>
  ((hcov σ σ' (fun m _ => (hs m).symm) (fun m _ => (hs m).symm) h) n).trans (hs n)

/-- Where all assigns hold a propagation changes nothing. -/
theorem propagate_same (hcov : ∀ a ∈ D.assigns, a.Covers) {σ : Store Name} (h : ∀ a ∈ D.assigns, a.Holds σ)
    (k : Nat) (dirty : Finset Name) : Same (D.propagate k σ dirty).1 σ :=
  propagate_invariant (P := fun σ' => Same σ' σ) (fun a ha _ hs => (hcov a ha).after_same (h a ha) hs) k σ dirty
    (Same.refl σ)

/-- What is asked of the propagations of the reference scheduler: they see what the assigns change, and
end before their limit. -/
structure Design.Propagates (D : Design Name) (limit : Nat) : Prop where
  readable : D.Readable
  converges : ∀ σ dirty, D.Converges limit σ dirty

theorem Regular.stable (hR : Regular D held rank) : ∀ a ∈ D.assigns, a.Stable :=
  fun a ha σ _ => hR.settles a ha σ

/-- A propagation leaves every assign holding. -/
theorem Regular.holds_propagate (hR : Regular D held rank) {limit : Nat} (hP : D.Propagates limit) {σ : Store Name}
    {dirty : Finset Name} (h : Pending D σ dirty) : ∀ a ∈ D.assigns, a.Holds (D.propagate limit σ dirty).1 :=
  Sched.holds_propagate hR.writers hR.covers hR.stable (hP.readable.seen _ _ _) (hP.converges _ _) h

theorem AfterRegion.again (hR : Regular D held rank) {limit : Nat} (hP : D.Propagates limit) {K : Kernel Name}
    (h : AfterRegion D K) : AfterRegion D (D.again limit K) :=
  ⟨h.tracked.again hR.writers (hP.readable.seen _ _ _),
    hR.holds_propagate hP fun a ha => Or.inl (h.assigns a ha), h.queue⟩

/-- After the region of a cycle and the propagations that follow it. -/
theorem BeforeRegion.runTriggered (hR : Regular D held rank) {extra : Bool} {limit : Nat} (hP : D.Propagates limit)
    {K : Kernel Name} {ts : List (Task Name)} (h : BeforeRegion D K ts) :
    AfterRegion D (D.runTriggered extra limit K ts) := by
  have hregion : AfterRegion D (D.runActiveRegion limit K ts) :=
    h.region hR.writers hR.covers hR.stable (hP.readable.seen _ _ _) (hP.converges _ _)
  cases extra with
  | false => exact hregion
  | true => exact hregion.again hR hP

theorem byAssigns_runTriggered (hL : Levelled D held rank) (extra : Bool) (limit : Nat) (K : Kernel Name)
    (ts : List (Task Name)) :
    ByAssigns D held (runTasks K ts).store (D.runTriggered extra limit K ts).store := by
  have hregion : ByAssigns D held (runTasks K ts).store (D.runActiveRegion limit K ts).store := by
    rw [runActiveRegion_store]
    exact byAssigns_propagate hL _ _ _
  cases extra with
  | false => exact hregion
  | true => exact hregion.trans (byAssigns_propagate hL _ _ _)

theorem queue_runTriggered (extra : Bool) (limit : Nat) (K : Kernel Name) (ts : List (Task Name)) :
    (D.runTriggered extra limit K ts).queue = (runTasks K ts).queue := by
  cases extra <;> rfl

/-- An edge-triggered block that is collected has just been fired. -/
theorem fires_collectTriggered {K : Kernel Name} {dirty others : Finset Name} {p : Always Name}
    (hp : p ∈ (D.collectTriggered K dirty others).2) : p ∈ D.combos ∨
      (p.id ∉ K.triggeredSeq ∧ p.id ∈ (D.collectTriggered K dirty others).1.triggeredSeq) := by
  rcases List.mem_append.mp hp with hp | hp
  · exact Or.inl (List.mem_of_mem_filter hp)
  · refine Or.inr ⟨?_, Finset.mem_union_right _ (List.mem_toFinset.mpr (List.mem_map_of_mem hp))⟩
    exact of_decide_eq_true (Bool.and_eq_true_iff.mp (List.mem_filter.mp hp).2).2

/-- One delta cycle: the blocks `ps` run, and their updates are committed. -/
theorem BeforeRegion.cycle (hR : Regular D held rank) (extra : Bool) {limit : Nat} (hP : D.Propagates limit)
    {K : Kernel Name} {ps : List (Always Name)} (h : BeforeRegion D K (ps.map .block)) (hc : Carried D K)
    (hq : K.queue = []) :
    BeforeRegion D (D.commit limit (D.runTriggered extra limit K (ps.map .block))).1
        ((D.commit limit (D.runTriggered extra limit K (ps.map .block))).2.map .block) ∧
      Cycle D held K ps (D.commit limit (D.runTriggered extra limit K (ps.map .block))).1
        (D.commit limit (D.runTriggered extra limit K (ps.map .block))).2 := by
  have hafter : AfterRegion D (D.runTriggered extra limit K (ps.map .block)) := h.runTriggered hR hP
  have hnext := hafter.commit hR.writers hR.covers hR.stable (hP.readable.seen _ _ _) (hP.converges _ _)
  obtain ⟨hsub, hnd⟩ := h.ready.blocks
  have hran := ran_runTasks hq ps
  have hqueue : ∀ u ∈ (runTasks K (ps.map .block)).queue, u.Same u := by
    intro u hu
    obtain ⟨p, hp, ρ, hρ⟩ := hran.mem_queue hu
    exact (hR.congr p (hsub hp)).queued hρ
  refine ⟨hnext, hR.cycle hc hran hsub hnd (byAssigns_runTriggered hR.levelled extra limit K _)
    (show ∀ n, ((applyNba (D.runTriggered extra limit K (ps.map .block)).store
      (D.runTriggered extra limit K (ps.map .block)).queue).1 n).bits = _ from ?updates) ?assigns hnext.assigns ?start ?ended ?triggered ?fires⟩
  case updates =>
    intro n
    rw [queue_runTriggered]
    exact applyNba_bits hqueue _ n
  case assigns =>
    rw [commit_eq]
    exact byAssigns_propagate hR.levelled _ _ _
  case start =>
    rw [commit_eq]
    cases extra <;> rfl
  case ended =>
    rw [commit_eq]
    exact endedAt_runTriggered extra limit K (ps.map .block)
  case triggered =>
    rw [commit_eq]
    cases extra <;> exact Finset.subset_union_left
  case fires =>
    rw [commit_eq]
    intro p hp
    refine (fires_collectTriggered hp).imp_right fun hf => ⟨?_, hf.2⟩
    cases extra <;> exact hf.1

/-! ## The delta loop -/

/-- A kernel that has nothing to do has missed nothing, and a commit would do nothing. -/
theorem AfterRegion.idle (limit : Nat) {K : Kernel Name} (h : AfterRegion D K) (hbusy : busy K = false) :
    (D.commit limit K).1.store = K.store ∧ (D.commit limit K).1.triggeredSeq = K.triggeredSeq ∧
      ∀ c ∈ D.combos, ∀ n ∈ c.sens, ¬ K.Missed c n := by
  rw [busy, Bool.or_eq_false_iff, decide_eq_false_iff_not, Finset.not_nonempty_iff_eq_empty] at hbusy
  obtain ⟨hactive, hqueue⟩ := hbusy
  have hqueue : K.queue = [] := by simpa using hqueue
  have hcommitted : D.committed limit K = (K.store, ∅) := by
    rw [Design.committed, hqueue]
    exact propagate_empty limit K.store
  refine ⟨?_, ?_, ?_⟩
  · rw [commit_eq, hcommitted]
    rfl
  · rw [commit_eq, hcommitted]
    refine Finset.union_eq_left.mpr fun i hi => ?_
    obtain ⟨p, hp, rfl⟩ := List.mem_map.mp (List.mem_toFinset.mp hi)
    obtain ⟨hps, hf⟩ := List.mem_filter.mp hp
    rw [Bool.and_eq_true, fires, List.any_eq_true] at hf
    obtain ⟨⟨e, he, hfired⟩, -⟩ := hf
    rw [Bool.and_eq_true, decide_eq_true_eq, decide_eq_true_eq] at hfired
    refine (h.tracked.fired p hps e he hfired.2).resolve_left fun hin => ?_
    rw [hactive] at hin
    exact Finset.notMem_empty _ hin
  · intro c hc n hn hm
    have hin := (h.tracked.combo c hc n hn hm).1
    rw [hactive] at hin
    exact Finset.notMem_empty _ hin

/-- The delta loop from the first region of a batch on, when it fires nobody. -/
theorem BeforeRegion.outcome (hR : Regular D held rank) {extra : Bool} {limit : Nat} (hP : D.Propagates limit)
    {K₀ : Kernel Name} {ps₀ : List (Always Name)} (h₀ : BeforeRegion D K₀ (ps₀.map .block)) (hc₀ : Carried D K₀)
    (hq₀ : K₀.queue = []) {fuel : Nat} {K : Kernel Name}
    (hloop : D.deltaLoop extra limit fuel (D.runTriggered extra limit K₀ (ps₀.map .block)) = some K)
    (hfired : K.triggeredSeq = K₀.triggeredSeq) : Outcome D held K₀ ps₀ K := by
  obtain ⟨hnext₀, hcycle₀⟩ := h₀.cycle hR extra hP hc₀ hq₀
  obtain ⟨τ, queue, ended, hran, hheld⟩ := hcycle₀.seqs
  -- what is held after the first cycle is held to the end
  have hgoal : ∀ goal : Name → β,
      (∀ n, held n ((D.commit limit (D.runTriggered extra limit K₀ (ps₀.map .block))).1.store n).bits = goal n) →
      Carried D (D.commit limit K).1 ∧ (D.commit limit K).1.start = K₀.start ∧ AfterRegion D K ∧ busy K = false ∧
        Steady D held K₀.triggeredSeq goal (D.commit limit K).1 (D.commit limit K).2 := by
    intro goal hg
    let P : Kernel Name → Prop := fun K' => AfterRegion D K' ∧
      BeforeRegion D (D.commit limit K').1 ((D.commit limit K').2.map .block) ∧ Carried D (D.commit limit K').1 ∧
      (D.commit limit K').1.start = K₀.start ∧
      Steady D held K₀.triggeredSeq goal (D.commit limit K').1 (D.commit limit K').2
    have hstep : ∀ K', P K' → busy K' = true → P (D.deltaCycle extra limit K') := by
      rintro K' ⟨-, hb, hc, hs, hsteady⟩ -
      have hq : (D.commit limit K').1.queue = [] := by rw [commit_eq]; rfl
      obtain ⟨hb', hcycle⟩ := hb.cycle hR extra hP hc hq
      rw [deltaCycle_eq]
      exact ⟨hb.runTriggered hR hP, hb', hcycle.carried, hcycle.start.trans hs, hsteady.next hcycle⟩
    obtain ⟨⟨ha, -, hc, hs, hsteady⟩, hbusy⟩ := deltaLoop_induct (P := P) hstep hloop
      ⟨h₀.runTriggered hR hP, hnext₀, hcycle₀.carried, hcycle₀.start, hcycle₀.steady hg⟩
    exact ⟨hc, hs, ha, hbusy, hsteady⟩
  have hend : ∀ goal : Name → β,
      (∀ n, held n ((D.commit limit (D.runTriggered extra limit K₀ (ps₀.map .block))).1.store n).bits = goal n) →
      ∀ n, held n (K.store n).bits = goal n := by
    intro goal hg
    obtain ⟨-, -, ha, hbusy, hsteady⟩ := hgoal goal hg
    obtain ⟨hstore, hseq, -⟩ := ha.idle limit hbusy
    have hlast := (hsteady.combos (hseq.trans hfired)).2
    rw [hstore] at hlast
    exact hlast
  obtain ⟨hc, hs, ha, hbusy, -⟩ := hgoal _ hheld
  obtain ⟨hstore, -, hmissed⟩ := ha.idle limit hbusy
  constructor
  case carried =>
    obtain ⟨hassigns, hended, hidle⟩ := hc
    rw [hstore] at hassigns hended hidle
    rw [commit_eq] at hended hidle
    exact ⟨hassigns, hended, hidle⟩
  case start =>
    rw [commit_eq] at hs
    exact hs
  case missed => exact hmissed
  case combos => exact fun hps => hend _ (hcycle₀.combos hps)
  case seqs => exact fun _ _ => ⟨τ, queue, ended, hran, hend _ hheld⟩

/-! ## Between calls -/

/-- The store before the pending drives. -/
def Rest.before (S : Rest Name) : Store Name := if S.pending.Nonempty then S.snapshot else S.store

theorem before_driveSignal (S : Rest Name) (w : Name × Slot) : (driveSignal S w).before = S.before := by
  exact if_pos (Finset.insert_nonempty w.1 S.pending)

/-- The edge-triggered blocks with an edge, in order. -/
def Design.due (D : Design Name) (prev σ : Store Name) : List (Always Name) :=
  D.seqs.filter fun p => p.edges.any fun e => decide (D.edgeDirection prev σ e.1 = some e.2)

theorem due_congr {prev prev' σ σ' : Store Name} (hp : Same prev prev') (hs : Same σ σ') :
    D.due prev σ = D.due prev' σ' := by
  have hedge : ∀ n, D.edgeDirection prev σ n = D.edgeDirection prev' σ' n := by
    intro n
    rw [D.edgeDirection_congr (hs n)]
    unfold Design.edgeDirection
    rw [wordsDirection_congr_old _ (hp n)]
  unfold Design.due
  simp only [hedge]

/-- A scheduler between calls, with the blocks `R` run so far: everything was settled before the
pending drives, and they go to signals that no process drives combinationally. -/
structure Rested (D : Design Name) (init : Store Name) (S : Rest Name) (R : Nat → Prop) : Prop where
  current : Current D init S.before R
  undriven : ∀ n ∈ S.pending, (∀ a ∈ D.assigns, ¬ a.Writes n) ∧ ∀ c ∈ D.combos, ¬ c.Writes n
  fresh : S.bootstrapped = false → ∀ i, ¬ R i

/-- Nothing but the pending names differs from the store before the drives. -/
theorem Rest.store_eq (S : Rest Name) {n : Name} (hn : n ∉ S.pending) : S.store n = S.before n := by
  unfold Rest.before
  split
  · by_contra hne
    exact hn (S.driven n hne)
  · rfl

theorem Rested.store_assign {init : Store Name} {S : Rest Name} {R : Nat → Prop} (h : Rested D init S R)
    {a : Continuous Name} (ha : a ∈ D.assigns) {n : Name} (han : a.Writes n) : S.store n = S.before n :=
  S.store_eq fun hn => (h.undriven n hn).1 a ha han

theorem Rested.store_combo {init : Store Name} {S : Rest Name} {R : Nat → Prop} (h : Rested D init S R)
    {c : Always Name} (hc : c ∈ D.combos) {n : Name} (hcn : c.Writes n) : S.store n = S.before n :=
  S.store_eq fun hn => (h.undriven n hn).2 c hc hcn

theorem Rested.pending (hcov : ∀ a ∈ D.assigns, a.Covers) {init : Store Name} {S : Rest Name} {R : Nat → Prop}
    (h : Rested D init S R) : Pending D S.store S.pending := by
  refine pending_of_changed hcov h.current.assigns (fun n hn => ?_) fun a ha n han =>
    congrArg Slot.bits (h.store_assign ha han)
  by_contra hno
  exact hn (congrArg Slot.bits (S.store_eq hno))

theorem Rested.drive {init : Store Name} {S : Rest Name} {R : Nat → Prop} (h : Rested D init S R)
    {w : Name × Slot} (hw : (∀ a ∈ D.assigns, ¬ a.Writes w.1) ∧ ∀ c ∈ D.combos, ¬ c.Writes w.1) :
    Rested D init (driveSignal S w) R := by
  refine ⟨?_, fun n hn => ?_, h.fresh⟩
  · rw [before_driveSignal]
    exact h.current
  · rcases Finset.mem_insert.mp hn with rfl | hn
    · exact hw
    · exact h.undriven n hn

/-- What a call of `settle` does that has something to do: `c` is what it collects from the drives, and
`K` the kernel it ends with, having fired nobody after `c` and nobody at all when it is the first. -/
structure Settling (D : Design Name) (held : Name → List (Nat × Nat) → β) (init : Store Name) (S : Rest Name)
    (R : Nat → Prop) (c : Kernel Name × List (Always Name)) (K : Kernel Name) : Prop where
  current : Current D init K.store fun i => R i ∨ K.endedAt i ≠ none
  combos : (∀ p ∈ c.2, p ∈ D.combos) → ∀ n, held n (K.store n).bits = held n (S.store n).bits
  seqs : c.2 ≠ [] → (∀ p ∈ c.2, p ∈ D.seqs) → ∃ τ queue ended, Ran c.1.store c.2 τ queue ended ∧
    ∀ n, held n (K.store n).bits = held n (afterUpdates τ queue n).bits
  first : S.bootstrapped = false → ∀ p ∈ c.2, p ∈ D.combos
  collected : S.bootstrapped = true → ∃ cs, (∀ p ∈ cs, p ∈ D.combos) ∧ c.2 = cs ++ D.due S.snapshot c.1.store
  assigns : S.bootstrapped = true → ∀ a ∈ D.assigns, a.Holds c.1.store
  outputs : S.bootstrapped = true → ∀ q ∈ D.combos, ∀ n, q.Writes n → (c.1.store n).bits = (S.before n).bits
  held : S.bootstrapped = true → ∀ n, held n (c.1.store n).bits = held n (S.store n).bits

/-- The kernel that starts a batch in `c` and ends in `K`. -/
theorem settling_of_outcome (hR : Regular D held rank) {init : Store Name} {S : Rest Name} {R : Nat → Prop}
    (h : Rested D init S R) {c : Kernel Name × List (Always Name)} {K : Kernel Name}
    (hout : Outcome D held c.1 c.2 K) (hstart : c.1.start = S.before)
    (hheld : ∀ n, held n (c.1.store n).bits = held n (S.store n).bits)
    (hfirst : S.bootstrapped = false → ∀ p ∈ c.2, p ∈ D.combos)
    (hcollected : S.bootstrapped = true → ∃ cs, (∀ p ∈ cs, p ∈ D.combos) ∧ c.2 = cs ++ D.due S.snapshot c.1.store)
    (hassigns : S.bootstrapped = true → ∀ a ∈ D.assigns, a.Holds c.1.store)
    (houtputs : S.bootstrapped = true → ∀ q ∈ D.combos, ∀ n, q.Writes n →
      (c.1.store n).bits = (S.before n).bits) : Settling D held init S R c K where
  current := by
    refine hout.carried.current hR.rerun hR.unmixed ?_ hout.missed
    rw [hout.start, hstart]
    exact h.current
  combos := fun hps n => (hout.combos hps n).trans (hheld n)
  seqs := hout.seqs
  first := hfirst
  collected := hcollected
  assigns := hassigns
  outputs := houtputs
  held := fun _ => hheld

/-- A batch in which nobody is collected. -/
theorem outcome_nil {K : Kernel Name} (hc : Carried D K)
    (hmissed : ∀ c ∈ D.combos, ∀ n ∈ c.sens, ¬ K.Missed c n) : Outcome D held K [] K :=
  ⟨hc, rfl, hmissed, fun _ _ => rfl, fun h => absurd rfl h⟩

/-! ## `settle` -/

namespace Design

/-- `settle`, with what it collects from the drives and the kernel it ends with. -/
def settleBatch (D : Design Name) (limit : Nat) (S : Rest Name) :
    Option ((Kernel Name × List (Always Name)) × Kernel Name) :=
  if S.bootstrapped then
    if S.pending.Nonempty then
      let c := D.driven limit (atSettle S) S.pending
      (D.settleLoop limit c.1 c.2).map fun K => (c, K)
    else some ((atSettle S, []), atSettle S)
  else
    (D.boot limit S).bind fun b =>
      if S.pending.Nonempty then
        let c := D.drivenFirst limit S b.1 b.2
        (D.settleLoop limit c.1 c.2).map fun K => (c, K)
      else some ((b.1, []), b.1)

theorem settle_eq (limit : Nat) (S : Rest Name) : D.settle limit S = (D.settleBatch limit S).map fun r =>
      if S.bootstrapped = true ∧ ¬ S.pending.Nonempty then S else resting r.2 := by
  unfold settle settleBatch
  by_cases hb : S.bootstrapped = true
  · by_cases hp : S.pending.Nonempty
    · simp [hb, hp, Function.comp_def]
    · simp [hb, hp]
  · by_cases hp : S.pending.Nonempty
    · simp [hb, hp, Option.map_bind, Function.comp_def]
    · simp [hb, hp, Option.map_bind]

end Design

/-- The loop of a batch, whether it is entered or not. -/
theorem outcome_settleLoop (hR : Regular D held rank) {limit : Nat} (hP : D.Propagates limit) {K₀ K : Kernel Name}
    {ps : List (Always Name)} (h₀ : BeforeRegion D K₀ (ps.map .block)) (hc₀ : Carried D K₀) (hq₀ : K₀.queue = [])
    (hloop : D.settleLoop limit K₀ ps = some K) (hfired : K.triggeredSeq = K₀.triggeredSeq) :
    Outcome D held K₀ ps K := by
  unfold settleLoop at hloop
  split at hloop
  · exact h₀.outcome hR hP hc₀ hq₀ hloop hfired
  · next hnil =>
    obtain rfl := Option.some.inj hloop
    obtain rfl := not_not.mp hnil
    exact outcome_nil hc₀ fun c hc => h₀.ready.combo c hc List.not_mem_nil

theorem beforeRegion_blocks (hD : D.SoleWriters) {K : Kernel Name} {ps : List (Always Name)}
    (hready : RefReady D K (ps.map .block)) (hassigns : ∀ a ∈ D.assigns, a.Holds K.store) (hq : K.queue = []) :
    BeforeRegion D K (ps.map .block) := by
  refine ⟨hready, hassigns, ?_, fun t ht => ?_⟩
  · rw [hq]
    exact fun u hu => absurd hu List.not_mem_nil
  · obtain ⟨p, hp, rfl⟩ := List.mem_map.mp ht
    exact taskApart_block hD (hready.blocks.1 hp)

/-- Before anybody has fired, all blocks with an edge are collected. -/
theorem collectTriggered_due {K : Kernel Name} {dirty others : Finset Name} {prev : Store Name}
    (hprev : K.prev = some prev) (hseq : K.triggeredSeq = ∅)
    (hedge : ∀ n ∈ D.seqEdgeNames, (K.store n).bits ≠ (prev n).bits →
      n ∈ (D.collectTriggered K dirty others).1.edgeChanged) :
    ∃ cs, (∀ p ∈ cs, p ∈ D.combos) ∧ (D.collectTriggered K dirty others).2 = cs ++ D.due prev K.store := by
  refine ⟨D.combos.filter (wakes (fun n => if n ∈ others then none else K.own n) dirty),
    fun p hp => List.mem_of_mem_filter hp, ?_⟩
  change _ ++ D.seqs.filter (fun p => D.fires (D.collectTriggered K dirty others).1 p
    && decide (p.id ∉ K.triggeredSeq)) = _ ++ _
  refine congrArg (List.append _) (List.filter_congr fun p hp => ?_)
  rw [hseq, decide_eq_true (Finset.notMem_empty p.id), Bool.and_true, fires, Bool.eq_iff_iff, List.any_eq_true,
    List.any_eq_true]
  refine exists_congr fun e => and_congr_right fun he => ?_
  rw [Bool.and_eq_true, decide_eq_true_eq, decide_eq_true_eq, decide_eq_true_eq]
  have hdir : D.edge (D.collectTriggered K dirty others).1 e.1 = D.edgeDirection prev K.store e.1 := by
    change K.prev.bind _ = _
    rw [hprev]
    rfl
  constructor
  · exact fun hf => hdir.symm.trans hf.2
  · intro hd
    refine ⟨hedge e.1 (mem_seqEdgeNames_of_edge hp he) fun hb => ?_, hdir.trans hd⟩
    rw [D.edgeDirection_of_bits hb] at hd
    exact Option.some_ne_none _ hd.symm

/-- A later batch. -/
theorem Rested.settling_batch (hR : Regular D held rank) {limit : Nat} (hP : D.Propagates limit) {init : Store Name}
    {S : Rest Name} {R : Nat → Prop} (h : Rested D init S R) (hboot : S.bootstrapped = true)
    (hpending : S.pending.Nonempty) {K : Kernel Name}
    (hloop : D.settleLoop limit (D.driven limit (atSettle S) S.pending).1 (D.driven limit (atSettle S) S.pending).2
      = some K) (hfired : K.triggeredSeq = (D.driven limit (atSettle S) S.pending).1.triggeredSeq) :
    Settling D held init S R (D.driven limit (atSettle S) S.pending) K := by
  have hbefore : S.before = S.snapshot := if_pos hpending
  have hprop := byAssigns_propagate hR.levelled limit S.store S.pending
  have hassigns := hR.holds_propagate hP (h.pending hR.covers)
  have hready : RefReady D (D.driven limit (atSettle S) S.pending).1
      ((D.driven limit (atSettle S) S.pending).2.map .block) := by
    apply refReady_driven hP.readable
    · intro c _ n _ hm
      exact S.driven n fun he => hm (congrArg Slot.bits he)
    · intro prev hp n hne
      exact S.driven n fun he => hne (by rw [← Option.some.inj hp]; exact congrArg Slot.bits he)
    · exact fun _ _ => rfl
  have houtputs : ∀ q ∈ D.combos, ∀ n, q.Writes n →
      ((D.propagate limit S.store S.pending).1 n).bits = (S.before n).bits := by
    intro q hq n hn
    rw [hprop.other n fun a ha han => hR.writers.across a ha q (List.mem_append_left _ hq) n han hn,
      h.store_combo hq hn]
  have hcarried : Carried D (D.driven limit (atSettle S) S.pending).1 := by
    refine ⟨hassigns, fun _ _ _ hτ => (nomatch hτ), fun q hq _ n hn => ?_⟩
    exact (houtputs q hq n hn).trans (congrArg (fun σ : Store Name => (σ n).bits) hbefore)
  refine settling_of_outcome hR h
    (outcome_settleLoop hR hP (beforeRegion_blocks hR.writers hready hassigns rfl) hcarried rfl hloop hfired)
    hbefore.symm hprop.held (fun hno => ?_) (fun _ => ?_) (fun _ => hassigns) (fun _ => houtputs)
  · rw [hboot] at hno
    exact Bool.noConfusion hno
  · exact collectTriggered_due rfl rfl fun n hn hne => hready.edge S.snapshot rfl n hn hne

/-! ## The first batch -/

/-- What the bootstrap leaves. -/
structure Started (D : Design Name) (held : Name → List (Nat × Nat) → β) (S : Rest Name)
    (b : Kernel Name × Finset Name) : Prop where
  held : ∀ n, held n (b.1.store n).bits = held n (S.store n).bits
  pending : Pending D b.1.store (S.pending ∪ b.2)
  assigns : D.combos ≠ [] → ∀ a ∈ D.assigns, a.Holds b.1.store
  ended : ∀ c ∈ D.combos, ∀ τ, b.1.endedAt c.id = some τ → ∃ σ, Same τ (writeAll σ (c.body σ).writes) ∧
    ∀ n, c.Writes n → (b.1.store n).bits = (c.result σ n).bits
  idle : ∀ c ∈ D.combos, b.1.endedAt c.id = none → ∀ n, c.Writes n → (b.1.store n).bits = (S.before n).bits
  missed : ¬ S.pending.Nonempty → ∀ c ∈ D.combos, ∀ n ∈ c.sens, ¬ b.1.Missed c n
  start : ¬ S.pending.Nonempty → b.1.start = S.before
  triggered : b.1.triggeredSeq = ∅
  queue : b.1.queue = []

theorem Rested.fanOut (hR : Regular D held rank) {limit : Nat} (hP : D.Propagates limit) {init : Store Name}
    {S : Rest Name} {R : Nat → Prop} (h : Rested D init S R) :
    ByAssigns D held S.store (D.fanOut limit S).1 ∧ ∀ a ∈ D.assigns, a.Holds (D.fanOut limit S).1 := by
  unfold Design.fanOut
  split
  · exact ⟨byAssigns_propagate hR.levelled limit S.store S.pending, hR.holds_propagate hP (h.pending hR.covers)⟩
  · next hp =>
    refine ⟨ByAssigns.refl _, ?_⟩
    have hbefore : S.before = S.store := if_neg hp
    exact hbefore ▸ h.current.assigns

theorem Rested.started (hR : Regular D held rank) {limit : Nat} (hP : D.Propagates limit) {init : Store Name}
    {S : Rest Name} {R : Nat → Prop} (h : Rested D init S R) {b : Kernel Name × Finset Name}
    (hb : D.boot limit S = some b) : Started D held S b := by
  unfold boot at hb
  split at hb
  · obtain ⟨K, hK, rfl⟩ := Option.map_eq_some_iff.mp hb
    obtain ⟨hfan, hassigns⟩ := h.fanOut hR hP
    obtain ⟨-, hbusy, hseq⟩ := booted_of_boot hR.writers hP.readable hK
    have hqueue : K.queue = [] := by
      rw [busy, Bool.or_eq_false_iff] at hbusy
      simpa using hbusy.2
    have hcarried : Carried D (unstarted (D.fanOut limit S).1) :=
      ⟨hassigns, fun _ _ _ hτ => absurd hτ.symm (Option.some_ne_none _), fun _ _ _ _ _ => rfl⟩
    have hbefore := beforeRegion_blocks hR.writers (refReady_boot (D := D) (D.fanOut limit S).1) hassigns rfl
    have hloop : D.deltaLoop false limit limit
        (D.runTriggered false limit (unstarted (D.fanOut limit S).1) (D.startProcs.map .block)) = some K := by
      unfold bootstrap at hK
      split at hK
      · exact hK
      · next hnil =>
        rw [not_not.mp hnil]
        exact hK
    have hout := hbefore.outcome hR hP hcarried rfl hloop hseq
    refine ⟨fun n => ?_, fun a ha => Or.inl (hout.carried.assigns a ha), fun _ => hout.carried.assigns,
      hout.carried.ended, fun c hc he n hn => ?_, fun _ => hout.missed, fun hp => ?_, hseq, hqueue⟩
    · rw [hout.combos (fun p hp => List.mem_of_mem_filter hp) n]
      exact hfan.held n
    · rw [hout.carried.idle c hc he n hn, hout.start]
      change ((D.fanOut limit S).1 n).bits = _
      rw [hfan.other n fun a ha han => hR.writers.across a ha c (List.mem_append_left _ hc) n han hn,
        h.store_combo hc hn]
    · rw [hout.start]
      change (D.fanOut limit S).1 = S.before
      unfold Design.fanOut Rest.before
      rw [if_neg hp, if_neg hp]
  · next hcombos =>
    obtain rfl := Option.some.inj hb
    have hnone : D.combos = [] := not_not.mp hcombos
    have hempty : ∀ c, c ∉ D.combos := fun c hc => List.not_mem_nil (hnone ▸ hc)
    refine ⟨fun _ => rfl, ?_, fun hne => absurd hnone hne, fun c hc => absurd hc (hempty c),
      fun c hc => absurd hc (hempty c), fun _ c hc => absurd hc (hempty c), fun hp => ?_, rfl, rfl⟩
    · rw [Finset.union_empty]
      exact h.pending hR.covers
    · exact (if_neg hp).symm

/-- The first call of `settle` without drives. -/
theorem Rested.settling_boot (hR : Regular D held rank) {limit : Nat} (hP : D.Propagates limit) {init : Store Name}
    {S : Rest Name} {R : Nat → Prop} (h : Rested D init S R) (hboot : S.bootstrapped = false)
    (hpending : ¬ S.pending.Nonempty) {b : Kernel Name × Finset Name} (hb : D.boot limit S = some b) :
    Settling D held init S R (b.1, []) b.1 := by
  have hstarted := h.started hR hP hb
  have hbefore : S.before = S.store := if_neg hpending
  have hassigns : ∀ a ∈ D.assigns, a.Holds b.1.store := by
    by_cases hcombos : D.combos = []
    · have hstore : b.1.store = S.store := by
        unfold boot at hb
        rw [if_neg (not_not.mpr hcombos)] at hb
        exact (Option.some.inj hb) ▸ rfl
      rw [hstore, ← hbefore]
      exact h.current.assigns
    · exact hstarted.assigns hcombos
  have hcarried : Carried D b.1 := by
    refine ⟨hassigns, hstarted.ended, fun c hc he n hn => ?_⟩
    rw [hstarted.start hpending]
    exact hstarted.idle c hc he n hn
  have hno : S.bootstrapped ≠ true := hboot ▸ Bool.false_ne_true
  exact settling_of_outcome hR h (outcome_nil hcarried (hstarted.missed hpending)) (hstarted.start hpending)
    hstarted.held (fun _ p hp => absurd hp List.not_mem_nil) (fun hb => absurd hb hno) (fun hb => absurd hb hno)
    fun hb => absurd hb hno

/-- The first call of `settle` with drives. -/
theorem Rested.settling_first (hR : Regular D held rank) {limit : Nat} (hP : D.Propagates limit) {init : Store Name}
    {S : Rest Name} {R : Nat → Prop} (h : Rested D init S R) (hboot : S.bootstrapped = false)
    (hpending : S.pending.Nonempty) {b : Kernel Name × Finset Name} (hb : D.boot limit S = some b) {K : Kernel Name}
    (hloop : D.settleLoop limit (D.drivenFirst limit S b.1 b.2).1 (D.drivenFirst limit S b.1 b.2).2 = some K)
    (hfired : K.triggeredSeq = (D.drivenFirst limit S b.1 b.2).1.triggeredSeq) (hnone : K.triggeredSeq = ∅) :
    Settling D held init S R (D.drivenFirst limit S b.1 b.2) K := by
  have hstarted := h.started hR hP hb
  have hbefore : S.before = S.snapshot := if_pos hpending
  have hprop := byAssigns_propagate hR.levelled limit b.1.store (S.pending ∪ b.2)
  have hassigns := hR.holds_propagate hP hstarted.pending
  have hquiet : D.combos ≠ [] →
      ∀ n, ((D.propagate limit b.1.store (S.pending ∪ b.2)).1 n).bits = (b.1.store n).bits := fun hcombos =>
    propagate_same hR.covers (hstarted.assigns hcombos) limit _
  have hready := refReady_first hR.writers hP.readable hb hquiet
  have hother : ∀ c ∈ D.combos, ∀ n, c.Writes n →
      ((D.propagate limit b.1.store (S.pending ∪ b.2)).1 n).bits = (b.1.store n).bits := fun c hc n hn =>
    hprop.other n fun a ha han => hR.writers.across a ha c (List.mem_append_left _ hc) n han hn
  have hcarried : Carried D (D.drivenFirst limit S b.1 b.2).1 := by
    refine ⟨hassigns, fun c hc τ hτ => ?_, fun c hc he n hn => ?_⟩
    · obtain ⟨σ, hs, hn⟩ := hstarted.ended c hc τ hτ
      exact ⟨σ, hs, fun n hw => (hother c hc n hw).trans (hn n hw)⟩
    · change ((D.propagate limit b.1.store (S.pending ∪ b.2)).1 n).bits = (S.snapshot n).bits
      rw [hother c hc n hn, hstarted.idle c hc he n hn, hbefore]
  have hseqs : ∀ p ∈ (D.drivenFirst limit S b.1 b.2).2, p ∈ D.combos := by
    intro p hp
    have hin : p ∈ (D.driven limit (atFirstSettle S b.1) (S.pending ∪ b.2)).2 := by
      unfold drivenFirst at hp
      dsimp only at hp
      split at hp
      · exact List.mem_of_mem_filter hp
      · exact hp
    refine (fires_collectTriggered hin).resolve_right fun hf => ?_
    have hempty : p.id ∈ (∅ : Finset Nat) := by
      rw [← hnone, hfired]
      exact hf.2
    exact Finset.notMem_empty _ hempty
  have hno : S.bootstrapped ≠ true := hboot ▸ Bool.false_ne_true
  exact settling_of_outcome hR h
    (outcome_settleLoop hR hP (beforeRegion_blocks hR.writers hready hassigns hstarted.queue) hcarried
      hstarted.queue hloop hfired)
    hbefore.symm (fun n => (hprop.held n).trans (hstarted.held n)) (fun _ => hseqs) (fun hb => absurd hb hno)
    (fun hb => absurd hb hno) fun hb => absurd hb hno

/-- What a call of `settle` is asked: the blocks collected first are all edge-triggered or all
combinational, nobody is fired after them, and nobody at all in the first call. -/
structure Orderly (D : Design Name) (S : Rest Name) (r : (Kernel Name × List (Always Name)) × Kernel Name) : Prop where
  apart : (∀ p ∈ r.1.2, p ∈ D.seqs) ∨ ∀ p ∈ r.1.2, p ∈ D.combos
  fired : r.2.triggeredSeq = r.1.1.triggeredSeq
  first : S.bootstrapped = false → r.2.triggeredSeq = ∅

/-- Every call of `settle` that has something to do. -/
theorem Rested.settling (hR : Regular D held rank) {limit : Nat} (hP : D.Propagates limit) {init : Store Name}
    {S : Rest Name} {R : Nat → Prop} (h : Rested D init S R) (hwork : S.bootstrapped = true → S.pending.Nonempty)
    {r : (Kernel Name × List (Always Name)) × Kernel Name} (hr : D.settleBatch limit S = some r)
    (ho : Orderly D S r) : Settling D held init S R r.1 r.2 := by
  unfold settleBatch at hr
  by_cases hboot : S.bootstrapped = true
  · have hp := hwork hboot
    rw [if_pos hboot, if_pos hp] at hr
    obtain ⟨K, hK, rfl⟩ := Option.map_eq_some_iff.mp hr
    exact h.settling_batch hR hP hboot hp hK ho.fired
  · have hfalse : S.bootstrapped = false := Bool.not_eq_true _ ▸ hboot
    rw [if_neg hboot] at hr
    obtain ⟨b, hb, hr⟩ := Option.bind_eq_some_iff.mp hr
    by_cases hp : S.pending.Nonempty
    · rw [if_pos hp] at hr
      obtain ⟨K, hK, rfl⟩ := Option.map_eq_some_iff.mp hr
      exact h.settling_first hR hP hfalse hp hb hK ho.fired (ho.first hfalse)
    · rw [if_neg hp] at hr
      obtain rfl := Option.some.inj hr
      exact h.settling_boot hR hP hfalse hp hb

end Veriforge.Sched

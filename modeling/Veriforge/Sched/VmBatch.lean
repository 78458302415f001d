import Veriforge.Sched.Batch

/-! # A batch of the VM scheduler

`VMScheduler.settle` with its own bootstrap (`_bootstrap_combos` runs when nothing was driven before
the first call; otherwise the blocks to start come with the first batch), described by the same cycles
as the reference scheduler's. -/

namespace Veriforge.Sched

open Design

variable {Name : Type} [DecidableEq Name]

namespace Design

variable (D : Design Name) (o : SetOrder Name)

/-- What `_propagate_continuous` leaves in `interpreter.dirty`: the changes of its last pass. -/
def vmLastWork : Nat → Store Name → Finset Name → Finset Name
  | 0, _, work => work
  | k + 1, σ, work =>
      if work.Nonempty then vmLastWork k (D.vmRunDirty o σ work).1 (D.vmRunDirty o σ work).2 else work

/-- `_collect_triggered` with `combo_only`. -/
def vmCollectCombos (K : Kernel Name) (changed others : Finset Name) : Kernel Name × List (Always Name) :=
  let own := fun n => if n ∈ others then none else K.own n
  ({ K with own := fun _ => none }, firstsBy (·.id) [] ((o.list changed).flatMap fun n =>
    D.combos.filter fun c => decide (n ∈ c.sens) && decide (own n ≠ some c.id)))

/-- The updates of a process list. -/
def vmApplied (K : Kernel Name) : Kernel Name × Finset Name :=
  let p := vmApplyNbas D K.store K.queue
  ({ K with store := p.1, queue := [] }, K.active ∪ p.2)

/-- The loop of `_bootstrap_combos`, with the turns left; the source raises when there are none. -/
def vmBootLoop (limit : Nat) : Nat → Bool → Kernel Name → Finset Name → Option (Kernel Name)
  | 0, _, _, _ => none
  | fuel + 1, first, K, changed =>
      if changed.Nonempty then
        let q := D.vmPropagate o limit K.store changed changed
        let driven := if first then D.vmLastWork o limit K.store changed else ∅
        let c := D.vmCollectCombos o { K with store := q.1 } q.2 driven
        let ps :=
          if first then c.2.filter fun p =>
            decide (p.id ∉ D.startProcs.map (·.id)) || !decide (p.sens ∩ q.2 ⊆ driven)
          else c.2
        if ps = [] then some c.1
        else
          let K' := vmRunProcessList c.1 ps
          let nba := (vmApplyNbas D K'.store K'.queue).2
          let r := D.vmApplied K'
          vmBootLoop limit fuel false { r.1 with own := fun n => if n ∈ nba then none else K'.own n } r.2
      else some K

/-- `_bootstrap_combos` without drives. -/
def vmBootstrap (limit : Nat) (σ : Store Name) : Option (Kernel Name) :=
  let r := D.vmApplied (vmRunProcessList (unstarted σ) D.startProcs)
  D.vmBootLoop o limit limit true r.1 r.2

/-- The delta loop of `settle`: its counter is tested before a list is collected. -/
def vmSettleLoop (limit : Nat) (c : Kernel Name × List (Always Name)) : Option (Kernel Name) :=
  match limit with
  | 0 => none
  | k + 1 => D.vmDeltaLoop o (k + 1) k c

/-- `VMScheduler.settle`, with what it collects from the drives and the kernel it ends with. -/
def vmSettleBatch (limit : Nat) (S : Rest Name) : Option ((Kernel Name × List (Always Name)) × Kernel Name) :=
  if S.pending.Nonempty then
    let c := if S.bootstrapped then D.vmDriven o limit (atSettle S) S.pending else D.vmDrivenFirst o limit S
    (D.vmSettleLoop o limit c).map fun K => (c, K)
  else if S.bootstrapped = false ∧ D.combos ≠ [] then
    (D.vmBootstrap o limit S.store).map fun K => ((K, []), K)
  else some ((unstarted S.store, []), unstarted S.store)

/-- `VMScheduler.settle`. -/
def vmSettle (limit : Nat) (S : Rest Name) : Option (Rest Name) :=
  (D.vmSettleBatch o limit S).map fun r =>
    if S.bootstrapped = true ∧ ¬ S.pending.Nonempty then S else resting r.2

/-- The loop of `_propagate_continuous` ends because a pass changed nothing, not by its limit. -/
def VmConverges : Nat → Store Name → Finset Name → Prop
  | 0, _, work => work = ∅
  | k + 1, σ, work => work.Nonempty → VmConverges k (D.vmRunDirty o σ work).1 (D.vmRunDirty o σ work).2

end Design

variable {β : Type} {D : Design Name} {held : Name → List (Nat × Nat) → β} {rank : Name → Nat} {o : SetOrder Name}

/-! ## The assigns -/

theorem vmExecute_after (p : Store Name × Finset Name) (a : Continuous Name) :
    Same (vmExecute p (a.drive p.1)).1 (a.after p.1) :=
  vmExecute_same _ (Same.refl p.1)

/-- What evaluations of assigns keep on equal values, a propagation keeps. -/
theorem vmPropagate_invariant {P : Store Name → Prop} (hsame : ∀ σ σ', Same σ' σ → P σ → P σ')
    (hP : ∀ a ∈ D.assigns, ∀ σ, P σ → P (a.after σ)) (k : Nat) :
    ∀ (σ : Store Name) (work dirty : Finset Name), P σ → P (D.vmPropagate o k σ work dirty).1 := by
  have hpass : ∀ (as : List (Continuous Name)) (p : Store Name × Finset Name), as ⊆ D.assigns → P p.1 →
      P (as.foldl (fun p a => vmExecute p (a.drive p.1)) p).1 := by
    intro as
    induction as with
    | nil => exact fun p _ hp => hp
    | cons a as ih =>
      intro p has hp
      rw [List.foldl_cons]
      refine ih _ (fun b hb => has (List.mem_cons_of_mem _ hb)) ?_
      exact hsame _ _ (vmExecute_after p a) (hP a (has List.mem_cons_self) p.1 hp)
  induction k with
  | zero => exact fun σ work dirty h => h
  | succ k ih =>
    intro σ work dirty h
    rw [vmPropagate]
    split
    · refine ih _ _ _ (hpass _ (σ, ∅) (fun a ha => ?_) h)
      obtain ⟨n, -, han⟩ := List.mem_flatMap.mp ((firstsBy_spec Continuous.id _ []).1 ha)
      exact List.mem_of_mem_filter han
    · exact h

theorem byAssigns_vmPropagate (hL : Levelled D held rank) (k : Nat) (σ : Store Name) (work dirty : Finset Name) :
    ByAssigns D held σ (D.vmPropagate o k σ work dirty).1 :=
  vmPropagate_invariant (P := fun σ' => ByAssigns D held σ σ') (fun _ _ hs h => h.same hs)
    (fun _ ha _ h => h.after hL ha) k σ work dirty (ByAssigns.refl σ)

/-- An assign that holds does so on equal values. -/
theorem Continuous.Covers.holds_same {a : Continuous Name} (hcov : a.Covers) {σ σ' : Store Name} (hs : Same σ' σ)
    (h : a.Holds σ) : a.Holds σ' :=
  hcov σ σ' (fun n _ => (hs n).symm) (fun n _ => (hs n).symm) h

/-- One pass: afterwards each assign holds or one of its inputs has changed in the pass. -/
theorem pending_vmRunDirty (hR : Regular D held rank) {σ : Store Name} {work : Finset Name}
    (h : Pending D σ work) : Pending D (D.vmRunDirty o σ work).1 (D.vmRunDirty o σ work).2 := by
  have hall : ∀ (as : List (Continuous Name)) (p : Store Name × Finset Name), as ⊆ D.assigns →
      (∀ b ∈ D.assigns, b.Holds p.1 ∨ (b.sens ∩ p.2).Nonempty ∨ b ∈ as) →
      Pending D (as.foldl (fun p a => vmExecute p (a.drive p.1)) p).1
        (as.foldl (fun p a => vmExecute p (a.drive p.1)) p).2 := by
    intro as
    induction as with
    | nil => exact fun p _ hp b hb => (hp b hb).imp_right fun h => h.resolve_right List.not_mem_nil
    | cons a as ih =>
      intro p has hp
      have ha : a ∈ D.assigns := has List.mem_cons_self
      obtain ⟨hsub, -, hch⟩ := vmExecute_spec (a.drive p.1) p
      have hafter : a.Holds (vmExecute p (a.drive p.1)).1 :=
        (hR.covers a ha).holds_same (vmExecute_after p a) (hR.settles a ha p.1)
      rw [List.foldl_cons]
      refine ih _ (fun b hb => has (List.mem_cons_of_mem _ hb)) fun b hb => ?_
      rcases hp b hb with hold | hn | hin
      · by_cases hba : b = a
        · exact Or.inl (hba ▸ hafter)
        · by_cases hnow : (b.sens ∩ (vmExecute p (a.drive p.1)).2).Nonempty
          · exact Or.inr (Or.inl hnow)
          · refine Or.inl (hR.covers b hb p.1 _ (fun n hn => ?_) (fun n hn => ?_) hold)
            · by_contra hne
              have hslot : (vmExecute p (a.drive p.1)).1 n ≠ p.1 n := fun he => hne (congrArg Slot.bits he.symm)
              exact hnow ⟨n, Finset.mem_inter.mpr ⟨hn, (hch n hslot).1⟩⟩
            · by_contra hne
              have hslot : (vmExecute p (a.drive p.1)).1 n ≠ p.1 n := fun he => hne (congrArg Slot.bits he.symm)
              have hid := hR.writers.assigns b hb a ha n hn ⟨p.1, (hch n hslot).2⟩
              exact hba (D.eq_of_assign_id hb ha hid)
      · exact Or.inr (Or.inl (hn.mono (Finset.inter_subset_inter_left hsub)))
      · rcases List.mem_cons.mp hin with rfl | hin
        · exact Or.inl hafter
        · exact Or.inr (Or.inr hin)
  refine hall _ (σ, ∅) (fun a ha => ?_) fun b hb => ?_
  · obtain ⟨n, -, han⟩ := List.mem_flatMap.mp ((firstsBy_spec Continuous.id _ []).1 ha)
    exact List.mem_of_mem_filter han
  · refine (h b hb).imp_right fun hn => Or.inr ?_
    obtain ⟨n, hn⟩ := hn
    obtain ⟨hsens, hwork⟩ := Finset.mem_inter.mp hn
    have hin : b ∈ (o.list work).flatMap fun n => D.assigns.filter fun a => decide (n ∈ a.sens) :=
      List.mem_flatMap.mpr ⟨n, (o.mem_list work n).mpr hwork, List.mem_filter.mpr ⟨hb, decide_eq_true hsens⟩⟩
    obtain ⟨hsub, -, -, hfirst⟩ := firstsBy_spec Continuous.id
      ((o.list work).flatMap fun n => D.assigns.filter fun a => decide (n ∈ a.sens)) []
    obtain ⟨b', hb', hid⟩ := (hfirst b hin).resolve_left List.not_mem_nil
    obtain ⟨m, -, hm⟩ := List.mem_flatMap.mp (hsub hb')
    exact D.eq_of_assign_id (List.mem_of_mem_filter hm) hb hid ▸ hb'

/-- A propagation that ends before its limit leaves every assign holding. -/
theorem holds_vmPropagate (hR : Regular D held rank) {k : Nat} : ∀ {σ : Store Name} {work dirty : Finset Name},
    D.VmConverges o k σ work → Pending D σ work → ∀ a ∈ D.assigns, a.Holds (D.vmPropagate o k σ work dirty).1 := by
  have hdone : ∀ {σ : Store Name} {work : Finset Name}, work = ∅ → Pending D σ work → ∀ a ∈ D.assigns, a.Holds σ := by
    intro σ work hw h a ha
    refine (h a ha).resolve_right fun hn => ?_
    rw [hw, Finset.inter_empty] at hn
    exact Finset.not_nonempty_empty hn
  induction k with
  | zero => exact fun hconv h => hdone hconv h
  | succ k ih =>
    intro σ work dirty hconv h
    rw [vmPropagate]
    split
    · next hw => exact ih (hconv hw) (pending_vmRunDirty hR h)
    · next hw => exact hdone (Finset.not_nonempty_iff_eq_empty.mp hw) h

/-! ## Delta cycles -/

/-- An edge-triggered block that is collected has just been fired. -/
theorem fires_vmCollectTriggered {K : Kernel Name} {changed others : Finset Name} {p : Always Name}
    (hp : p ∈ (D.vmCollectTriggered o K changed others).2) : p ∈ D.combos ∨
      (p.id ∉ K.triggeredSeq ∧ p.id ∈ (D.vmCollectTriggered o K changed others).1.triggeredSeq) := by
  rcases List.mem_append.mp hp with hp | hp
  · obtain ⟨n, -, hpn⟩ := List.mem_flatMap.mp ((firstsBy_spec Always.id _ []).1 hp)
    exact Or.inl (List.mem_of_mem_filter hpn)
  · refine Or.inr ⟨?_, Finset.mem_union_right _ (List.mem_toFinset.mpr (List.mem_map_of_mem hp))⟩
    exact of_decide_eq_true (Bool.and_eq_true_iff.mp (List.mem_filter.mp hp).2).1

theorem vmCommit_eq (limit : Nat) (K : Kernel Name) : D.vmCommit o limit K = D.vmCollectTriggered o
      { (D.vmApplied K).1 with
        store := (D.vmPropagate o limit (D.vmApplied K).1.store (D.vmApplied K).2 (D.vmApplied K).2).1 }
      (D.vmPropagate o limit (D.vmApplied K).1.store (D.vmApplied K).2 (D.vmApplied K).2).2
      (vmApplyNbas D K.store K.queue).2 := by
  rw [← vmPropagate_ite]
  rfl

/-- After a process list and its updates each assign holds or one of its inputs has changed. -/
theorem pending_vmApplied (hR : Regular D held rank) {K : Kernel Name} {ps : List (Always Name)}
    (hps : ps ⊆ D.combos ++ D.seqs) (hnd : (ps.map (·.id)).Nodup) (hassigns : ∀ a ∈ D.assigns, a.Holds K.store)
    (hq : K.queue = []) :
    Pending D (D.vmApplied (vmRunProcessList K ps)).1.store (D.vmApplied (vmRunProcessList K ps)).2 := by
  have hran := ran_vmRunAll hq ps
  have hqueue : ∀ u ∈ (vmRunAll K ps).queue, u.Same u := by
    intro u hu
    obtain ⟨p, hp, ρ, hρ⟩ := hran.mem_queue hu
    exact (hR.congr p (hps hp)).queued hρ
  refine pending_of_changed hR.covers hassigns (fun n hn => ?_) (fun a ha n han => ?_)
  · by_cases hr : (vmRunAll K ps).store n = K.store n
    · refine Finset.mem_union_right _ (mem_vmApplyNbas fun he => hn ?_)
      exact congrArg Slot.bits (he.trans hr)
    · refine Finset.mem_union_left _ ?_
      by_contra hno
      exact hr ((traced_vmRunProcessList hR.writers K hps hnd).unwritten n hno)
  · have hno : ∀ p ∈ ps, ¬ p.Writes n := fun p hp => hR.writers.across a ha p (hps hp) n han
    refine (vmApplyNbas_bits D hqueue (vmRunAll K ps).store n).trans ?_
    rw [afterUpdates_of_notMem fun u hu => hran.name_ne hno hu, hran.bits_of_not_writes hno]

/-- A process list, its updates, and the assigns after them, up to a kernel `K'` with that store. -/
theorem vmCycle (hR : Regular D held rank) {limit : Nat} (hconv : ∀ σ work, D.VmConverges o limit σ work)
    {K : Kernel Name} {ps : List (Always Name)} (hps : ps ⊆ D.combos ++ D.seqs) (hnd : (ps.map (·.id)).Nodup)
    (hc : Carried D K) (hq : K.queue = []) {K' : Kernel Name} {ps' : List (Always Name)}
    (hstore : K'.store = (D.vmPropagate o limit (D.vmApplied (vmRunProcessList K ps)).1.store
      (D.vmApplied (vmRunProcessList K ps)).2 (D.vmApplied (vmRunProcessList K ps)).2).1)
    (hstart : K'.start = K.start) (hended : ∀ i, K'.endedAt i = ((vmRunAll K ps).ended i).or (K.endedAt i))
    (htriggered : K.triggeredSeq ⊆ K'.triggeredSeq)
    (hfires : ∀ p ∈ ps', p ∈ D.combos ∨ (p.id ∉ K.triggeredSeq ∧ p.id ∈ K'.triggeredSeq)) :
    Cycle D held K ps K' ps' := by
  have hran := ran_vmRunAll hq ps
  have hqueue : ∀ u ∈ (vmRunAll K ps).queue, u.Same u := by
    intro u hu
    obtain ⟨p, hp, ρ, hρ⟩ := hran.mem_queue hu
    exact (hR.congr p (hps hp)).queued hρ
  refine hR.cycle hc hran hps hnd (ByAssigns.refl _)
    (show ∀ n, ((D.vmApplied (vmRunProcessList K ps)).1.store n).bits = _ from vmApplyNbas_bits D hqueue _) ?_ ?_ hstart hended htriggered hfires
  · rw [hstore]
    exact byAssigns_vmPropagate hR.levelled _ _ _ _
  · rw [hstore]
    exact holds_vmPropagate hR (hconv _ _) (pending_vmApplied hR hps hnd hc.assigns hq)

/-- One delta cycle of the VM. -/
theorem vmCycle_commit (hR : Regular D held rank) {limit : Nat} (hconv : ∀ σ work, D.VmConverges o limit σ work)
    {K : Kernel Name} {ps : List (Always Name)} (h : Ready D K (ps.map .block)) (hc : Carried D K)
    (hq : K.queue = []) :
    Cycle D held K ps (D.vmCommit o limit (vmRunProcessList K ps)).1
      (D.vmCommit o limit (vmRunProcessList K ps)).2 := by
  obtain ⟨hps, hnd⟩ := h.blocks
  rw [vmCommit_eq]
  refine vmCycle hR hconv hps hnd hc hq rfl rfl (fun _ => rfl) Finset.subset_union_left fun p hp => ?_
  exact fires_vmCollectTriggered hp

/-- An invariant of the cycles holds where the loop ends, with nobody collected. -/
theorem vmDeltaLoop_induct {limit : Nat} {P : Kernel Name × List (Always Name) → Prop}
    (hstep : ∀ c, P c → P (D.vmCommit o limit (vmRunProcessList c.1 c.2))) {fuel : Nat} :
    ∀ {c : Kernel Name × List (Always Name)} {K : Kernel Name}, D.vmDeltaLoop o limit fuel c = some K → P c →
      P (K, []) := by
  induction fuel with
  | zero =>
    intro c K h h0
    rw [vmDeltaLoop] at h
    split at h
    · next hnil =>
      obtain rfl := Option.some.inj h
      rw [← hnil]
      exact h0
    · exact nomatch h
  | succ fuel ih =>
    intro c K h h0
    rw [vmDeltaLoop] at h
    split at h
    · next hnil =>
      obtain rfl := Option.some.inj h
      rw [← hnil]
      exact h0
    · exact ih h (hstep c h0)

/-- A collected list before its cycle, in a batch that has fired nobody since `T` and started in `σ₀`. -/
structure VmPoint (D : Design Name) (held : Name → List (Nat × Nat) → β) (T : Finset Nat) (goal : Name → β)
    (σ₀ : Store Name) (c : Kernel Name × List (Always Name)) : Prop where
  ready : Ready D c.1 (c.2.map .block)
  carried : Carried D c.1
  queue : c.1.queue = []
  start : c.1.start = σ₀
  steady : Steady D held T goal c.1 c.2

theorem VmPoint.next (hR : Regular D held rank) {limit : Nat} (hconv : ∀ σ work, D.VmConverges o limit σ work)
    {T : Finset Nat} {goal : Name → β} {σ₀ : Store Name} {c : Kernel Name × List (Always Name)}
    (h : VmPoint D held T goal σ₀ c) : VmPoint D held T goal σ₀ (D.vmCommit o limit (vmRunProcessList c.1 c.2)) := by
  have hcycle := vmCycle_commit hR hconv h.ready h.carried h.queue
  exact ⟨(h.ready.vmTracked hR.writers).vmCommit hR.writers o, hcycle.carried, rfl, hcycle.start.trans h.start,
    h.steady.next hcycle⟩

/-- The delta loop of a batch, when it fires nobody. -/
theorem outcome_vmDeltaLoop (hR : Regular D held rank) {limit : Nat}
    (hconv : ∀ σ work, D.VmConverges o limit σ work) {K₀ : Kernel Name} {ps₀ : List (Always Name)}
    (h₀ : Ready D K₀ (ps₀.map .block)) (hc₀ : Carried D K₀) (hq₀ : K₀.queue = []) {fuel : Nat} {K : Kernel Name}
    (hloop : D.vmDeltaLoop o limit fuel (K₀, ps₀) = some K) (hfired : K.triggeredSeq = K₀.triggeredSeq) :
    Outcome D held K₀ ps₀ K := by
  by_cases hnil : ps₀ = []
  · subst hnil
    have hK : K₀ = K := by
      unfold vmDeltaLoop at hloop
      cases fuel <;> exact Option.some.inj hloop
    exact hK ▸ outcome_nil hc₀ fun c hc => h₀.combo c hc List.not_mem_nil
  · cases fuel with
    | zero =>
      rw [vmDeltaLoop, if_neg hnil] at hloop
      exact nomatch hloop
    | succ fuel =>
      rw [vmDeltaLoop, if_neg hnil] at hloop
      have hcycle₀ := vmCycle_commit hR hconv h₀ hc₀ hq₀
      have hready : Ready D (D.vmCommit o limit (vmRunProcessList K₀ ps₀)).1
          ((D.vmCommit o limit (vmRunProcessList K₀ ps₀)).2.map .block) :=
        (h₀.vmTracked hR.writers).vmCommit hR.writers o
      obtain ⟨τ, queue, ended, hran, hheld⟩ := hcycle₀.seqs
      have hend : ∀ goal : Name → β,
          (∀ n, held n ((D.vmCommit o limit (vmRunProcessList K₀ ps₀)).1.store n).bits = goal n) →
            VmPoint D held K₀.triggeredSeq goal K₀.start (K, []) := fun goal hg =>
        vmDeltaLoop_induct (fun c hc => hc.next hR hconv) hloop
          ⟨hready, hcycle₀.carried, rfl, hcycle₀.start, hcycle₀.steady hg⟩
      have hpoint := hend _ hheld
      constructor
      case carried => exact hpoint.carried
      case start => exact hpoint.start
      case missed => exact fun c hc => hpoint.ready.combo c hc List.not_mem_nil
      case combos => exact fun hps => ((hend _ (hcycle₀.combos hps)).steady.combos hfired).2
      case seqs => exact fun _ _ => ⟨τ, queue, ended, hran, (hpoint.steady.combos hfired).2⟩

theorem outcome_vmSettleLoop (hR : Regular D held rank) {limit : Nat}
    (hconv : ∀ σ work, D.VmConverges o limit σ work) {c : Kernel Name × List (Always Name)}
    (h₀ : Ready D c.1 (c.2.map .block)) (hc₀ : Carried D c.1) (hq₀ : c.1.queue = []) {K : Kernel Name}
    (hloop : D.vmSettleLoop o limit c = some K) (hfired : K.triggeredSeq = c.1.triggeredSeq) :
    Outcome D held c.1 c.2 K := by
  cases limit with
  | zero => exact nomatch hloop
  | succ k => exact outcome_vmDeltaLoop hR hconv h₀ hc₀ hq₀ hloop hfired

/-! ## Later batches, and a first batch with drives -/

/-- What the drives of a batch come to in the VM. -/
structure VmDriven (D : Design Name) (held : Name → List (Nat × Nat) → β) (S : Rest Name) (K : Kernel Name) :
    Prop where
  carried : Carried D K
  held : ∀ n, held n (K.store n).bits = held n (S.store n).bits
  outputs : ∀ q ∈ D.combos, ∀ n, q.Writes n → (K.store n).bits = (S.before n).bits

theorem Rested.vmDriven (hR : Regular D held rank) {limit : Nat} (hconv : ∀ σ work, D.VmConverges o limit σ work)
    {init : Store Name} {S : Rest Name} {R : Nat → Prop} (h : Rested D init S R) (hpending : S.pending.Nonempty)
    (prev : Option (Store Name)) :
    VmDriven D held S (D.vmDriven o limit { atSettle S with prev := prev } S.pending).1 := by
  have hprop := byAssigns_vmPropagate hR.levelled (o := o) limit S.store S.pending S.pending
  have hassigns : ∀ a ∈ D.assigns, a.Holds (D.vmPropagate o limit S.store S.pending S.pending).1 :=
    holds_vmPropagate hR (hconv S.store S.pending) (h.pending hR.covers)
  have houtputs : ∀ q ∈ D.combos, ∀ n, q.Writes n →
      ((D.vmPropagate o limit S.store S.pending S.pending).1 n).bits = (S.before n).bits := by
    intro q hq n hn
    rw [hprop.other n fun a ha han => hR.writers.across a ha q (List.mem_append_left _ hq) n han hn,
      h.store_combo hq hn]
  refine ⟨⟨hassigns, fun _ _ _ hτ => (nomatch hτ), fun q hq _ n hn => ?_⟩, hprop.held, houtputs⟩
  have hbefore : S.before = S.snapshot := if_pos hpending
  exact (houtputs q hq n hn).trans (congrArg (fun σ : Store Name => (σ n).bits) hbefore)

/-- Before anybody has fired, all blocks with an edge are collected. -/
theorem vmCollectTriggered_due {K : Kernel Name} {changed others : Finset Name} {prev : Store Name}
    (hprev : K.prev = some prev) (hseq : K.triggeredSeq = ∅) :
    ∃ cs, (∀ p ∈ cs, p ∈ D.combos) ∧ (D.vmCollectTriggered o K changed others).2 = cs ++ D.due prev K.store := by
  refine ⟨(D.vmCollectCombos o K changed others).2, fun p hp => ?_, ?_⟩
  · obtain ⟨n, -, hpn⟩ := List.mem_flatMap.mp ((firstsBy_spec Always.id _ []).1 hp)
    exact List.mem_of_mem_filter hpn
  · change _ ++ D.seqs.filter (fun p => decide (p.id ∉ K.triggeredSeq) && p.edges.any fun e => D.edgeFiredAt K e)
      = _ ++ _
    refine congrArg (List.append _) (List.filter_congr fun p hp => ?_)
    rw [hseq, decide_eq_true (Finset.notMem_empty p.id), Bool.true_and]
    refine congrArg p.edges.any (funext fun e => ?_)
    rw [Bool.eq_iff_iff, edgeFiredAt_iff, decide_eq_true_eq, edge, hprev, Option.bind_some]

theorem Rested.vm_settling_batch (hR : Regular D held rank) {limit : Nat}
    (hconv : ∀ σ work, D.VmConverges o limit σ work) {init : Store Name} {S : Rest Name} {R : Nat → Prop}
    (h : Rested D init S R) (hboot : S.bootstrapped = true) (hpending : S.pending.Nonempty) {K : Kernel Name}
    (hloop : D.vmSettleLoop o limit (D.vmDriven o limit (atSettle S) S.pending) = some K)
    (hfired : K.triggeredSeq = (D.vmDriven o limit (atSettle S) S.pending).1.triggeredSeq) :
    Settling D held init S R (D.vmDriven o limit (atSettle S) S.pending) K := by
  have hd : VmDriven D held S (D.vmDriven o limit (atSettle S) S.pending).1 :=
    h.vmDriven hR hconv hpending (some S.snapshot)
  have hready : Ready D (D.vmDriven o limit (atSettle S) S.pending).1
      ((D.vmDriven o limit (atSettle S) S.pending).2.map .block) :=
    ready_vmDriven o (fun c _ n _ hm => S.driven n fun he => hm (congrArg Slot.bits he)) (fun _ => rfl) rfl
  have hbefore : S.before = S.snapshot := if_pos hpending
  refine settling_of_outcome hR h (outcome_vmSettleLoop hR hconv hready hd.carried rfl hloop hfired)
    hbefore.symm hd.held (fun hno => ?_) (fun _ => ?_) (fun _ => hd.carried.assigns) fun _ => hd.outputs
  · rw [hboot] at hno
    exact Bool.noConfusion hno
  · exact vmCollectTriggered_due rfl rfl

theorem Rested.vm_settling_first (hR : Regular D held rank) {limit : Nat}
    (hconv : ∀ σ work, D.VmConverges o limit σ work) {init : Store Name} {S : Rest Name} {R : Nat → Prop}
    (h : Rested D init S R) (hboot : S.bootstrapped = false) (hpending : S.pending.Nonempty) {K : Kernel Name}
    (hloop : D.vmSettleLoop o limit (D.vmDrivenFirst o limit S) = some K)
    (hfired : K.triggeredSeq = (D.vmDrivenFirst o limit S).1.triggeredSeq) (hnone : K.triggeredSeq = ∅) :
    Settling D held init S R (D.vmDrivenFirst o limit S) K := by
  have hd : VmDriven D held S (D.vmDrivenFirst o limit S).1 := h.vmDriven hR hconv hpending (some S.store)
  have hready : Ready D (D.vmDriven o limit { atSettle S with prev := some S.store } S.pending).1
      ((D.vmDriven o limit { atSettle S with prev := some S.store } S.pending).2.map .block) :=
    ready_vmDriven o (fun c _ n _ hm => S.driven n fun he => hm (congrArg Slot.bits he)) (fun _ => rfl) rfl
  have hbefore : S.before = S.snapshot := if_pos hpending
  have hno : S.bootstrapped ≠ true := hboot ▸ Bool.false_ne_true
  refine settling_of_outcome hR h (outcome_vmSettleLoop hR hconv hready.startFirst hd.carried rfl hloop hfired)
    hbefore.symm hd.held (fun _ p hp => ?_) (fun hb => absurd hb hno) (fun hb => absurd hb hno)
    fun hb => absurd hb hno
  rcases List.mem_append.mp hp with hp | hp
  · exact List.mem_of_mem_filter hp
  · refine (fires_vmCollectTriggered (List.mem_of_mem_filter hp)).resolve_right fun hf => ?_
    have hempty : p.id ∈ (∅ : Finset Nat) := by
      rw [← hnone, hfired]
      exact hf.2
    exact Finset.notMem_empty _ hempty

/-! ## The bootstrap without drives -/

theorem vmLastWork_eq_empty {k : Nat} : ∀ {σ : Store Name} {work : Finset Name}, D.VmConverges o k σ work →
    D.vmLastWork o k σ work = ∅ := by
  induction k with
  | zero => exact fun h => h
  | succ k ih =>
    intro σ work h
    rw [vmLastWork]
    split
    · next hw => exact ih (h hw)
    · next hw => exact Finset.not_nonempty_iff_eq_empty.mp hw

/-- Without a snapshot only combinational blocks are collected. -/
theorem vmCollectTriggered_of_prev {K : Kernel Name} (hprev : K.prev = none) (changed others : Finset Name) :
    D.vmCollectTriggered o K changed others = D.vmCollectCombos o K changed others := by
  have hseqs : (D.seqs.filter fun p => decide (p.id ∉ K.triggeredSeq) && p.edges.any fun e => D.edgeFiredAt K e)
      = [] := by
    refine List.filter_eq_nil_iff.mpr fun p _ => ?_
    have hno : (p.edges.any fun e => D.edgeFiredAt K e) = false := by
      rw [List.any_eq_false]
      intro e _
      rw [edgeFiredAt, hprev]
      simp
    rw [hno, Bool.and_false]
    exact Bool.false_ne_true
  unfold vmCollectTriggered vmCollectCombos
  rw [hseqs]
  simp

/-- Who is collected waits for a name that changed. -/
theorem exists_changed_of_vmCollectCombos {K : Kernel Name} {changed others : Finset Name} {p : Always Name}
    (hp : p ∈ (D.vmCollectCombos o K changed others).2) : (p.sens ∩ changed).Nonempty := by
  obtain ⟨n, hn, hpn⟩ := List.mem_flatMap.mp ((firstsBy_spec Always.id _ []).1 hp)
  have hf := (List.mem_filter.mp hpn).2
  rw [Bool.and_eq_true, decide_eq_true_eq] at hf
  exact ⟨n, Finset.mem_inter.mpr ⟨hf.1, (o.mem_list changed n).mp hn⟩⟩

/-- From a name that `_apply_nbas` reports there is an update. -/
theorem exists_update_of_vmApplyNbas {σ : Store Name} {queue : List (Update Name)} {n : Name}
    (h : n ∈ (vmApplyNbas D σ queue).2) : ∃ u ∈ queue, u.name = n := by
  have hall : ∀ (us : List (Update Name)) (p : Store Name × Finset Name), n ∈ (us.foldl (vmApplyUpdate D) p).2 →
      n ∈ p.2 ∨ ∃ u ∈ us, u.name = n := by
    intro us
    induction us with
    | nil => exact fun p hn => Or.inl hn
    | cons u us ih =>
      intro p hn
      rcases ih _ hn with hn | ⟨v, hv, hvn⟩
      · unfold vmApplyUpdate at hn
        split at hn
        · rcases Finset.mem_insert.mp hn with rfl | hn
          · exact Or.inr ⟨u, List.mem_cons_self, rfl⟩
          · exact Or.inl hn
        · exact Or.inl hn
      · exact Or.inr ⟨v, List.mem_cons_of_mem _ hv, hvn⟩
  exact (hall queue (σ, ∅) h).resolve_left (Finset.notMem_empty n)

/-- Who owns a change has assigned the signal with `=`. -/
theorem exists_write_of_own {K : Kernel Name} {ps : List (Always Name)} {n : Name} {i : Nat}
    (h : (vmRunAll K ps).own n = some i) : ∃ p ∈ ps, p.id = i ∧ ∃ ρ, n ∈ (p.body ρ).writes.map (·.1) := by
  have hall : ∀ (ps : List (Always Name)) (r : VmRegion Name), (ps.foldl VmRegion.run r).own n = some i →
      r.own n = some i ∨ ∃ p ∈ ps, p.id = i ∧ ∃ ρ, n ∈ (p.body ρ).writes.map (·.1) := by
    intro ps
    induction ps with
    | nil => exact fun r h => Or.inl h
    | cons p ps ih =>
      intro r h
      rcases ih _ h with h | ⟨q, hq, hqi⟩
      · change (if n ∈ (vmExecute (r.store, ∅) (p.body r.store).writes).2 then
          if n ∈ p.selfSens ∧ n ∉ r.changed then some p.id else none else r.own n) = some i at h
        split at h
        · next hn =>
          split at h
          · have hw := ((vmExecute_spec (p.body r.store).writes (r.store, ∅)).2.1 n hn).resolve_left
              (Finset.notMem_empty n)
            exact Or.inr ⟨p, List.mem_cons_self, Option.some.inj h, r.store, hw⟩
          · exact nomatch h
        · exact Or.inl h
      · exact Or.inr ⟨q, List.mem_cons_of_mem _ hq, hqi⟩
  exact (hall ps _ h).resolve_left fun h => nomatch h

/-- A kernel that ends where the collected list `c` is empty. -/
structure EndsAt (c : Kernel Name × List (Always Name)) (K : Kernel Name) : Prop where
  nil : c.2 = []
  store : K.store = c.1.store
  endedAt : K.endedAt = c.1.endedAt
  start : K.start = c.1.start
  triggered : K.triggeredSeq = c.1.triggeredSeq

/-- When nothing has changed nobody is collected. -/
theorem endsAt_of_empty (limit : Nat) (K : Kernel Name) {work : Finset Name} (hwork : work = ∅)
    (others : Finset Name) :
    EndsAt (D.vmCollectCombos o { K with store := (D.vmPropagate o limit K.store work work).1 }
      (D.vmPropagate o limit K.store work work).2 others) K := by
  subst hwork
  have hprop : D.vmPropagate o limit K.store ∅ ∅ = (K.store, ∅) := by
    cases limit with
    | zero => rfl
    | succ k => rw [vmPropagate, if_neg Finset.not_nonempty_empty]
  rw [hprop]
  refine ⟨List.eq_nil_iff_forall_not_mem.mpr fun p hp => ?_, rfl, rfl, rfl, rfl⟩
  obtain ⟨n, hn⟩ := exists_changed_of_vmCollectCombos hp
  exact Finset.notMem_empty n (Finset.mem_inter.mp hn).2

/-- The turns of the bootstrap after the first are delta cycles. -/
theorem vmBootLoop_later (hR : Regular D held rank) {limit : Nat} (hconv : ∀ σ work, D.VmConverges o limit σ work)
    {T : Finset Nat} {goal : Name → β} {σ₀ : Store Name} {fuel : Nat} : ∀ {K' K : Kernel Name}, K'.prev = none →
      VmPoint D held T goal σ₀ (D.vmCommit o limit K') →
      D.vmBootLoop o limit fuel false { (D.vmApplied K').1 with
        own := fun n => if n ∈ (vmApplyNbas D K'.store K'.queue).2 then none else K'.own n } (D.vmApplied K').2
        = some K → ∃ c, VmPoint D held T goal σ₀ c ∧ EndsAt c K := by
  induction fuel with
  | zero => exact fun _ _ h => nomatch h
  | succ fuel ih =>
    intro K' K hprev hpoint h
    have hcommit : D.vmCommit o limit K' = D.vmCollectCombos o { (D.vmApplied K').1 with
        store := (D.vmPropagate o limit (D.vmApplied K').1.store (D.vmApplied K').2 (D.vmApplied K').2).1
        own := fun n => if n ∈ (vmApplyNbas D K'.store K'.queue).2 then none else K'.own n }
        (D.vmPropagate o limit (D.vmApplied K').1.store (D.vmApplied K').2 (D.vmApplied K').2).2 ∅ := by
      refine (vmCommit_eq limit K').trans ((vmCollectTriggered_of_prev (by exact hprev) _ _).trans ?_)
      unfold vmCollectCombos
      simp only [Finset.notMem_empty, if_false]
      rfl
    rw [vmBootLoop] at h
    split at h
    · dsimp only at h
      simp only [Bool.false_eq_true, if_false] at h
      rw [← hcommit] at h
      split at h
      · next hnil =>
        obtain rfl := Option.some.inj h
        exact ⟨_, hpoint, hnil, rfl, rfl, rfl, rfl⟩
      · refine @ih (vmRunProcessList (D.vmCommit o limit K').1 (D.vmCommit o limit K').2) K ?_ (hpoint.next hR hconv) h
        rw [vmCommit_eq]
        exact hprev
    · next hw =>
      obtain rfl := Option.some.inj h
      have hends := endsAt_of_empty (D := D) (o := o) limit { (D.vmApplied K').1 with
        own := fun n => if n ∈ (vmApplyNbas D K'.store K'.queue).2 then none else K'.own n }
        (Finset.not_nonempty_iff_eq_empty.mp hw) ∅
      exact ⟨_, hpoint, hcommit ▸ hends⟩

/-- A name that a block owns has no update. -/
theorem own_ne_of_update (hR : Regular D held rank) {K : Kernel Name} {ps : List (Always Name)}
    (hps : ps ⊆ D.combos ++ D.seqs) (hq : K.queue = []) {n : Name}
    (hn : n ∈ (vmApplyNbas D (vmRunAll K ps).store (vmRunAll K ps).queue).2) {c : Always Name} (hc : c ∈ D.combos) :
    (vmRunAll K ps).own n ≠ some c.id := by
  intro ho
  obtain ⟨p, hp, hpc, ρ, hw⟩ := exists_write_of_own ho
  obtain ⟨u, hu, rfl⟩ := exists_update_of_vmApplyNbas hn
  obtain ⟨q, hqs, ρ', hρ'⟩ := (ran_vmRunAll hq ps).mem_queue hu
  have hqueued : u.name ∈ (q.body ρ').queued.map (·.name) := List.mem_map_of_mem hρ'
  have hid := hR.writers.blocks p (hps hp) q (hps hqs) u.name ⟨ρ, Or.inl hw⟩ ⟨ρ', Or.inr hqueued⟩
  obtain rfl := D.eq_of_id (hps hp) (hps hqs) hid
  obtain rfl := D.eq_of_id (hps hp) (List.mem_append_left _ hc) hpc
  exact hR.unmixed p hc ρ ρ' u.name hw hqueued

theorem vmBootstrap_ends (hR : Regular D held rank) {limit : Nat} (hconv : ∀ σ work, D.VmConverges o limit σ work)
    {σ : Store Name} (hassigns : ∀ a ∈ D.assigns, a.Holds σ) {K : Kernel Name}
    (hK : D.vmBootstrap o limit σ = some K) :
    ∃ c, VmPoint D held ∅ (fun n => held n (σ n).bits) σ c ∧ EndsAt c K := by
  have hready : Ready D (unstarted σ) (D.startProcs.map .block) := (refReady_boot σ).toReady
  have hcarried : Carried D (unstarted σ) := ⟨hassigns, fun _ _ _ hτ => (nomatch hτ), fun _ _ _ _ _ => rfl⟩
  obtain ⟨hps, hnd⟩ := hready.blocks
  let K₁ := vmRunProcessList (unstarted σ) D.startProcs
  let q := D.vmPropagate o limit (D.vmApplied K₁).1.store (D.vmApplied K₁).2 (D.vmApplied K₁).2
  let c := D.vmCollectCombos o { (D.vmApplied K₁).1 with store := q.1 } q.2 ∅
  have hcollect : D.vmCollectTriggered o { (D.vmApplied K₁).1 with store := q.1 } q.2 ∅ = c :=
    vmCollectTriggered_of_prev (by rfl) _ _
  have hpoint : VmPoint D held ∅ (fun n => held n (σ n).bits) σ c := by
    have hr := (hready.vmTracked hR.writers).vmCollect hR.writers o limit ∅
      (fun n hn c hc => Or.inr (own_ne_of_update hR hps rfl hn hc)) rfl
    have hcycle : Cycle D held (unstarted σ) D.startProcs c.1 c.2 := by
      refine vmCycle hR hconv hps hnd hcarried rfl rfl rfl (fun _ => rfl) (Finset.Subset.refl _) fun p hp => ?_
      obtain ⟨n, -, hpn⟩ := List.mem_flatMap.mp ((firstsBy_spec Always.id _ []).1 hp)
      exact Or.inl (List.mem_of_mem_filter hpn)
    have hcr : Ready D c.1 (c.2.map .block) := hcollect ▸ hr
    exact ⟨hcr, hcycle.carried, rfl, rfl, hcycle.steady (hcycle.combos fun p hp => List.mem_of_mem_filter hp)⟩
  unfold vmBootstrap at hK
  cases limit with
  | zero => exact nomatch hK
  | succ k =>
    dsimp only at hK
    rw [vmBootLoop] at hK
    split at hK
    · have hdriven : D.vmLastWork o (k + 1) (D.vmApplied K₁).1.store (D.vmApplied K₁).2 = ∅ :=
        vmLastWork_eq_empty (hconv _ _)
      have hfilter : (c.2.filter fun p => decide (p.id ∉ D.startProcs.map (·.id)) || !decide (p.sens ∩ q.2 ⊆ ∅))
          = c.2 := by
        refine List.filter_eq_self.mpr fun p hp => ?_
        obtain ⟨n, hn⟩ := exists_changed_of_vmCollectCombos hp
        have hno : ¬ p.sens ∩ q.2 ⊆ ∅ := fun hsub => Finset.notMem_empty n (hsub hn)
        rw [decide_eq_false hno]
        exact Bool.or_true _
      dsimp only at hK
      simp only [if_true] at hK
      rw [hdriven, hfilter] at hK
      split at hK
      · next hnil =>
        obtain rfl := Option.some.inj hK
        exact ⟨c, hpoint, hnil, rfl, rfl, rfl, rfl⟩
      · exact vmBootLoop_later hR hconv (show (vmRunProcessList c.1 c.2).prev = none from rfl) (hpoint.next hR hconv) hK
    · next hw =>
      obtain rfl := Option.some.inj hK
      exact ⟨c, hpoint, endsAt_of_empty (k + 1) (D.vmApplied K₁).1 (Finset.not_nonempty_iff_eq_empty.mp hw) ∅⟩

/-- Every call of the VM's `settle` that has something to do. -/
theorem Rested.vm_settling (hR : Regular D held rank) {limit : Nat} (hconv : ∀ σ work, D.VmConverges o limit σ work)
    {init : Store Name} {S : Rest Name} {R : Nat → Prop} (h : Rested D init S R)
    (hwork : S.bootstrapped = true → S.pending.Nonempty)
    {r : (Kernel Name × List (Always Name)) × Kernel Name} (hr : D.vmSettleBatch o limit S = some r)
    (ho : Orderly D S r) : Settling D held init S R r.1 r.2 := by
  unfold vmSettleBatch at hr
  by_cases hp : S.pending.Nonempty
  · rw [if_pos hp] at hr
    obtain ⟨K, hK, rfl⟩ := Option.map_eq_some_iff.mp hr
    by_cases hboot : S.bootstrapped = true
    · have hfired := ho.fired
      dsimp only at hK hfired ⊢
      rw [if_pos hboot] at hK hfired ⊢
      exact h.vm_settling_batch hR hconv hboot hp hK hfired
    · have hfalse : S.bootstrapped = false := Bool.not_eq_true _ ▸ hboot
      have hfired := ho.fired
      dsimp only at hK hfired ⊢
      rw [if_neg hboot] at hK hfired ⊢
      exact h.vm_settling_first hR hconv hfalse hp hK hfired (ho.first hfalse)
  · have hfalse : S.bootstrapped = false := Bool.not_eq_true _ ▸ fun hb => hp (hwork hb)
    have hno : S.bootstrapped ≠ true := hfalse ▸ Bool.false_ne_true
    have hbefore : S.before = S.store := if_neg hp
    have hassigns : ∀ a ∈ D.assigns, a.Holds S.store := hbefore ▸ h.current.assigns
    rw [if_neg hp] at hr
    split at hr
    · obtain ⟨K, hK, rfl⟩ := Option.map_eq_some_iff.mp hr
      obtain ⟨c, hpoint, hends⟩ := vmBootstrap_ends hR hconv hassigns hK
      have hcarried : Carried D K := by
        obtain ⟨ha, he, hi⟩ := hpoint.carried
        refine ⟨?_, ?_, ?_⟩
        · rw [hends.store]
          exact ha
        · rw [hends.store, hends.endedAt]
          exact he
        · rw [hends.store, hends.endedAt, hends.start]
          exact hi
      have hmissed : ∀ q ∈ D.combos, ∀ n ∈ q.sens, ¬ K.Missed q n := by
        intro q hq n hn hm
        refine hpoint.ready.combo q hq (by rw [hends.nil]; exact List.not_mem_nil) n hn ?_
        unfold Kernel.Missed Kernel.lastEnd at hm ⊢
        rw [← hends.store, ← hends.endedAt, ← hends.start]
        exact hm
      refine settling_of_outcome hR h (outcome_nil hcarried hmissed) ?_ (fun n => ?_)
        (fun _ p hp => absurd hp List.not_mem_nil) (fun hb => absurd hb hno) (fun hb => absurd hb hno)
        fun hb => absurd hb hno
      · rw [hbefore]
        exact hends.start.trans hpoint.start
      · have htrig : c.1.triggeredSeq = ∅ := hends.triggered.symm.trans (ho.first hfalse)
        change held n (K.store n).bits = _
        rw [hends.store]
        exact (hpoint.steady.combos htrig).2 n
    · next hcombos =>
      obtain rfl := Option.some.inj hr
      rw [not_and, not_not] at hcombos
      have hempty : ∀ c, c ∉ D.combos := fun c hc => List.not_mem_nil (hcombos hfalse ▸ hc)
      refine settling_of_outcome hR h (outcome_nil ⟨hassigns, fun c hc => absurd hc (hempty c),
        fun c hc => absurd hc (hempty c)⟩ fun c hc => absurd hc (hempty c)) hbefore.symm (fun _ => rfl)
        (fun _ p hp => absurd hp List.not_mem_nil) (fun hb => absurd hb hno) (fun hb => absurd hb hno)
        fun hb => absurd hb hno

end Veriforge.Sched

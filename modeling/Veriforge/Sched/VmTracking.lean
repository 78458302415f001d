import Veriforge.Sched.VmKernel

/-! # The invariant of the VM's delta loop

The same two halves as for the reference scheduler (`Tracked`, `Ready`): a process list leaves every
change that a block has not seen in `interpreter.dirty`, and after the updates and the assigns
`_collect_triggered` finds everybody who has something to react to. -/

namespace Veriforge.Sched

open Design

variable {Name : Type} [DecidableEq Name] {D : Design Name}

/-! ## A process list -/

theorem traced_vmRunAll (hD : D.SoleWriters) {σ₀ : Store Name} (ps : List (Always Name)) :
    ∀ {done : List (Always Name)} {r : VmRegion Name}, Traced σ₀ done r.store (fun n => n ∈ r.changed) r.own r.ended →
      done ++ ps ⊆ D.combos ++ D.seqs → ((done ++ ps).map (·.id)).Nodup →
      Traced σ₀ (done ++ ps) (ps.foldl VmRegion.run r).store (fun n => n ∈ (ps.foldl VmRegion.run r).changed)
        (ps.foldl VmRegion.run r).own (ps.foldl VmRegion.run r).ended := by
  induction ps with
  | nil =>
    intro done r h _ _
    rw [List.append_nil]
    exact h
  | cons p ps ih =>
    intro done r h hsub hnd
    have hsplit : done ++ p :: ps = (done ++ [p]) ++ ps := by rw [List.append_assoc]; rfl
    rw [hsplit] at hsub hnd ⊢
    refine ih (r := r.run p) ?_ hsub hnd
    obtain ⟨-, hmem, hch⟩ := vmExecute_spec (p.body r.store).writes (r.store, ∅)
    have hnew : ∀ q ∈ done, q.id ≠ p.id := by
      intro q hq hqp
      rw [List.map_append, List.map_append] at hnd
      exact (List.nodup_append.mp (List.nodup_append.mp hnd).1).2.2 q.id (List.mem_map_of_mem hq) p.id
        (by simp) hqp
    apply h.step hD (hsub (by simp)) (fun q hq => hsub (by simp [hq])) hnew
      (W := fun n => n ∈ (vmExecute (r.store, ∅) (p.body r.store).writes).2)
    · intro n hn
      exact ⟨r.store, Or.inl ((hmem n hn).resolve_left (Finset.notMem_empty n))⟩
    · intro n hn
      by_contra hne
      exact hn (hch n hne).1
    · exact fun n => Finset.mem_union
    · intro n i hi
      change (if n ∈ (vmExecute (r.store, ∅) (p.body r.store).writes).2 then
        if n ∈ p.selfSens ∧ n ∉ r.changed then some p.id else none else r.own n) = some i at hi
      split at hi
      · next hn =>
        split at hi
        · exact Or.inr ⟨(Option.some.inj hi).symm, hn⟩
        · exact nomatch hi
      · exact Or.inl hi

theorem traced_vmRunProcessList (hD : D.SoleWriters) (K : Kernel Name) {ps : List (Always Name)}
    (hps : ps ⊆ D.combos ++ D.seqs) (hnd : (ps.map (·.id)).Nodup) :
    Traced K.store ps (vmRunAll K ps).store (fun n => n ∈ (vmRunAll K ps).changed) (vmRunAll K ps).own
      (vmRunAll K ps).ended := by
  have hsub : ([] : List (Always Name)) ++ ps ⊆ D.combos ++ D.seqs := hps
  refine traced_vmRunAll hD ps ?_ hsub hnd
  obtain ⟨hu, -, ho, he, hs⟩ := traced_nil K.store
  exact ⟨fun _ _ => rfl, fun n hn => absurd hn (Finset.notMem_empty n), ho, he, hs⟩

theorem Ready.vmTracked (hD : D.SoleWriters) {K : Kernel Name} {ps : List (Always Name)}
    (h : Ready D K (ps.map .block)) : Tracked D (vmRunProcessList K ps) := by
  obtain ⟨hsub, hnd⟩ := h.blocks
  have ht := traced_vmRunProcessList hD K hsub hnd
  refine h.tracked hD (ht.facts hsub) rfl (fun _ => rfl) rfl (fun _ _ ho => ho) ?_ ?_
  · intro n _ hn
    by_contra hno
    exact hn (congrArg Slot.bits (ht.unwritten n hno))
  · intro n _ hn
    exact absurd rfl hn

/-! ## The assigns -/

/-- What a pass changes it reports, and an assign writes it. -/
theorem mem_vmRunDirty {o : SetOrder Name} {σ : Store Name} {work : Finset Name} {n : Name}
    (h : (D.vmRunDirty o σ work).1 n ≠ σ n) :
    n ∈ (D.vmRunDirty o σ work).2 ∧ ∃ a ∈ D.assigns, a.Writes n := by
  have hall : ∀ (as : List (Continuous Name)) (p : Store Name × Finset Name), as ⊆ D.assigns →
      p.2 ⊆ (as.foldl (fun p a => vmExecute p (a.drive p.1)) p).2 ∧
        ((as.foldl (fun p a => vmExecute p (a.drive p.1)) p).1 n ≠ p.1 n →
          n ∈ (as.foldl (fun p a => vmExecute p (a.drive p.1)) p).2 ∧ ∃ a ∈ D.assigns, a.Writes n) := by
    intro as
    induction as with
    | nil => exact fun p _ => ⟨Finset.Subset.refl _, fun h => absurd rfl h⟩
    | cons a as ih =>
      intro p has
      obtain ⟨hsub, hch⟩ := ih (vmExecute p (a.drive p.1)) fun b hb => has (List.mem_cons_of_mem _ hb)
      obtain ⟨hsub', -, hch'⟩ := vmExecute_spec (a.drive p.1) p
      refine ⟨hsub'.trans hsub, fun hn => ?_⟩
      by_cases ha : (vmExecute p (a.drive p.1)).1 n = p.1 n
      · exact hch (ha ▸ hn)
      · obtain ⟨hin, hw⟩ := hch' n ha
        exact ⟨hsub hin, a, has List.mem_cons_self, p.1, hw⟩
  refine (hall _ (σ, ∅) fun a ha => ?_).2 h
  obtain ⟨n, -, han⟩ := List.mem_flatMap.mp ((firstsBy_spec Continuous.id _ []).1 ha)
  exact List.mem_of_mem_filter han

/-- Whatever propagation changes is dirty after it, and an assign writes it. -/
theorem vmPropagate_spec (o : SetOrder Name) (k : Nat) : ∀ (σ : Store Name) (work dirty : Finset Name),
    dirty ⊆ (D.vmPropagate o k σ work dirty).2 ∧ ∀ n, (D.vmPropagate o k σ work dirty).1 n ≠ σ n →
        n ∈ (D.vmPropagate o k σ work dirty).2 ∧ ∃ a ∈ D.assigns, a.Writes n := by
  induction k with
  | zero => exact fun σ work dirty => ⟨Finset.Subset.refl _, fun n hn => absurd rfl hn⟩
  | succ k ih =>
    intro σ work dirty
    rw [vmPropagate]
    split
    · obtain ⟨hsub, hch⟩ := ih (D.vmRunDirty o σ work).1 (D.vmRunDirty o σ work).2
        (dirty ∪ (D.vmRunDirty o σ work).2)
      refine ⟨Finset.subset_union_left.trans hsub, fun n hn => ?_⟩
      by_cases hp : (D.vmRunDirty o σ work).1 n = σ n
      · exact hch n (hp ▸ hn)
      · obtain ⟨hin, hw⟩ := mem_vmRunDirty hp
        exact ⟨hsub (Finset.mem_union_right _ hin), hw⟩
    · exact ⟨Finset.Subset.refl _, fun n hn => absurd rfl hn⟩

/-! ## Who is triggered -/

theorem edgeFiredAt_iff (K : Kernel Name) (e : Name × Edge) : D.edgeFiredAt K e = true ↔ D.edge K e.1 = some e.2 := by
  unfold edgeFiredAt edge Design.edgeDirection
  rw [Bool.and_eq_true, Bool.not_eq_true']
  cases hp : K.prev with
  | none => simp
  | some prev =>
    rw [Option.any_some, Option.bind_some, wordsFired_iff]
    cases D.memory e.1 <;> simp

/-- `_collect_triggered` finds everybody, when the names that changed are all in `changed` and not
only somebody's own. -/
theorem ready_vmCollectTriggered (o : SetOrder Name) {K : Kernel Name} {changed others : Finset Name}
    (hcombo : ∀ c ∈ D.combos, ∀ n ∈ c.sens, K.Missed c n → n ∈ changed ∧ (n ∈ others ∨ K.own n ≠ some c.id))
    (hran : ∀ p ∈ D.seqs, p.id ∈ K.triggeredSeq ↔ K.endedAt p.id ≠ none) :
    Ready D (D.vmCollectTriggered o K changed others).1
      ((D.vmCollectTriggered o K changed others).2.map .block) := by
  -- the combinational blocks come from the index, first occurrences only
  have hfirsts := firstsBy_spec Always.id ((o.list changed).flatMap fun n => D.combos.filter fun c =>
    decide (n ∈ c.sens) && decide ((if n ∈ others then none else K.own n) ≠ some c.id)) []
  obtain ⟨hsub, hnd, -, hall⟩ := hfirsts
  have hcombos : ∀ p, p ∈ firstsBy Always.id [] ((o.list changed).flatMap fun n => D.combos.filter fun c =>
      decide (n ∈ c.sens) && decide ((if n ∈ others then none else K.own n) ≠ some c.id)) → p ∈ D.combos := by
    intro p hp
    obtain ⟨n, -, hpn⟩ := List.mem_flatMap.mp (hsub hp)
    exact List.mem_of_mem_filter hpn
  have hids := (List.nodup_append.mp D.ids_nodup).2.1
  rw [List.map_append] at hids
  constructor
  case tasks =>
    refine Or.inl ⟨_, rfl, ?_, ?_⟩
    · intro p hp
      rcases List.mem_append.mp hp with hp | hp
      · exact List.mem_append_left _ (hcombos p hp)
      · exact List.mem_append_right _ (List.mem_of_mem_filter hp)
    · unfold vmCollectTriggered
      rw [List.map_append]
      refine List.nodup_append.mpr ⟨hnd, (List.filter_sublist.map _).nodup (List.nodup_append.mp hids).2.1, ?_⟩
      intro i hi j hj
      obtain ⟨p, hp, rfl⟩ := List.mem_map.mp hi
      obtain ⟨q, hq, rfl⟩ := List.mem_map.mp hj
      exact (List.nodup_append.mp hids).2.2 p.id (List.mem_map_of_mem (hcombos p hp)) q.id
        (List.mem_map_of_mem (List.mem_of_mem_filter hq))
  case combo =>
    intro c hc hts n hn hm
    obtain ⟨hch, hown⟩ := hcombo c hc n hn hm
    refine hts (mem_map_block.mpr (List.mem_append_left _ ?_))
    have hcin : c ∈ (o.list changed).flatMap fun n => D.combos.filter fun c =>
        decide (n ∈ c.sens) && decide ((if n ∈ others then none else K.own n) ≠ some c.id) := by
      refine List.mem_flatMap.mpr ⟨n, (o.mem_list changed n).mpr hch, List.mem_filter.mpr ⟨hc, ?_⟩⟩
      rw [Bool.and_eq_true, decide_eq_true_eq, decide_eq_true_eq]
      refine ⟨hn, ?_⟩
      split
      · exact (Option.some_ne_none _).symm
      · next ho => exact hown.resolve_left ho
    obtain ⟨b, hb, hbc⟩ := (hall c hcin).resolve_left List.not_mem_nil
    exact D.eq_of_id (List.mem_append_left _ (hcombos b hb)) (List.mem_append_left _ hc) hbc ▸ hb
  case fired =>
    intro p hp e he hd
    by_cases hin : p.id ∈ K.triggeredSeq
    · exact Finset.mem_union_left _ hin
    · refine Finset.mem_union_right _ (List.mem_toFinset.mpr (List.mem_map_of_mem ?_))
      refine List.mem_filter.mpr ⟨hp, ?_⟩
      rw [Bool.and_eq_true, decide_eq_true_eq]
      exact ⟨hin, List.any_eq_true.mpr ⟨e, he, (edgeFiredAt_iff K e).mpr hd⟩⟩
  case ran =>
    intro p hp
    rw [mem_map_block]
    refine Finset.mem_union.trans (or_congr (hran p hp) ?_)
    rw [List.mem_toFinset, List.mem_map]
    constructor
    · rintro ⟨q, hq, hqp⟩
      rw [← D.eq_of_id (List.mem_append_right _ (List.mem_of_mem_filter hq)) (List.mem_append_right _ hp) hqp]
      exact List.mem_append_right _ hq
    · intro h
      rcases List.mem_append.mp h with h | h
      · exact absurd (hcombos p h) (D.notMem_combos hp)
      · exact ⟨p, h, rfl⟩

/-- The changes of the events or drives make everybody ready who waits for them. -/
theorem ready_vmDriven (o : SetOrder Name) {limit : Nat} {K : Kernel Name} {changed : Finset Name}
    (hcombo : ∀ c ∈ D.combos, ∀ n ∈ c.sens, K.Missed c n → n ∈ changed)
    (hended : ∀ i, K.endedAt i = none) (hseq : K.triggeredSeq = ∅) :
    Ready D (D.vmDriven o limit K changed).1 ((D.vmDriven o limit K changed).2.map .block) := by
  obtain ⟨hsub, hch⟩ := vmPropagate_spec (D := D) o limit K.store changed changed
  apply ready_vmCollectTriggered
  · intro c hc n hn hm
    have hin : n ∈ (D.vmPropagate o limit K.store changed changed).2 := by
      by_cases hk : (D.vmPropagate o limit K.store changed changed).1 n = K.store n
      · refine hsub (hcombo c hc n hn fun he => hm ?_)
        exact (congrArg Slot.bits hk).trans he
      · exact (hch n hk).1
    exact ⟨hin, Or.inl hin⟩
  · intro p _
    change p.id ∈ K.triggeredSeq ↔ K.endedAt p.id ≠ none
    rw [hseq, hended]
    simp

/-- After the updates and the assigns everybody is found who has something to react to, when `others`
has the updated names that a block owns. -/
theorem Tracked.vmCollect (hD : D.SoleWriters) (o : SetOrder Name) (limit : Nat) {K : Kernel Name}
    (h : Tracked D K) (others : Finset Name) (hothers : ∀ n ∈ (vmApplyNbas D K.store K.queue).2, ∀ c ∈ D.combos,
      n ∈ others ∨ K.own n ≠ some c.id) {q : Store Name × Finset Name}
    (hq : q = D.vmPropagate o limit (vmApplyNbas D K.store K.queue).1
      (K.active ∪ (vmApplyNbas D K.store K.queue).2) (K.active ∪ (vmApplyNbas D K.store K.queue).2)) :
    Ready D (D.vmCollectTriggered o { K with store := q.1, queue := [] } q.2 others).1
      ((D.vmCollectTriggered o { K with store := q.1, queue := [] } q.2 others).2.map .block) := by
  obtain ⟨hsub, hch⟩ := vmPropagate_spec (D := D) o limit (vmApplyNbas D K.store K.queue).1
    (K.active ∪ (vmApplyNbas D K.store K.queue).2) (K.active ∪ (vmApplyNbas D K.store K.queue).2)
  rw [← hq] at hsub hch
  apply ready_vmCollectTriggered
  · intro c hc n hn hm
    unfold Kernel.Missed at hm
    by_cases hp : q.1 n = (vmApplyNbas D K.store K.queue).1 n
    · by_cases hu : (vmApplyNbas D K.store K.queue).1 n = K.store n
      · have hold : K.Missed c n := fun he => hm ((congrArg Slot.bits (hp.trans hu)).trans he)
        obtain ⟨ha, ho⟩ := h.combo c hc n hn hold
        exact ⟨hsub (Finset.mem_union_left _ ha), Or.inr ho⟩
      · have hin := mem_vmApplyNbas hu
        exact ⟨hsub (Finset.mem_union_right _ hin), hothers n hin c hc⟩
    · obtain ⟨hin, a, ha, han⟩ := hch n hp
      refine ⟨hin, Or.inr fun ho => ?_⟩
      obtain ⟨q, hq, -, hqn⟩ := h.owner n c.id ho
      exact hD.across a ha q hq n han hqn
  · exact h.ran

/-- The propagation is skipped where it would find nothing to do. -/
theorem vmPropagate_ite (o : SetOrder Name) (limit : Nat) (σ : Store Name) (work : Finset Name) :
    (if work.Nonempty then D.vmPropagate o limit σ work work else (σ, work)) = D.vmPropagate o limit σ work work := by
  split
  · rfl
  · next h =>
    cases limit with
    | zero => rfl
    | succ k => rw [vmPropagate, if_neg h]

/-- A commit makes everybody ready who has something to react to. -/
theorem Tracked.vmCommit (hD : D.SoleWriters) (o : SetOrder Name) {limit : Nat} {K : Kernel Name}
    (h : Tracked D K) : Ready D (D.vmCommit o limit K).1 ((D.vmCommit o limit K).2.map .block) :=
  h.vmCollect hD o limit _ (fun _ hn _ _ => Or.inl hn) (vmPropagate_ite o limit _ _)

/-- Blocks that run at the start may come first. -/
theorem Ready.startFirst {K : Kernel Name} {ps : List (Always Name)} (h : Ready D K (ps.map .block)) :
    Ready D K ((D.startProcs ++ ps.filter fun p => decide (p.id ∉ D.startProcs.map (·.id))).map .block) := by
  obtain ⟨hps, hnd⟩ := h.blocks
  have hstart : D.startProcs ⊆ D.combos := List.filter_sublist.subset
  have hmem : ∀ p, p ∈ ps → p ∈ D.startProcs ++ ps.filter fun p => decide (p.id ∉ D.startProcs.map (·.id)) := by
    intro p hp
    by_cases hin : p.id ∈ D.startProcs.map (·.id)
    · obtain ⟨q, hq, hqp⟩ := List.mem_map.mp hin
      rw [← D.eq_of_id (List.mem_append_left _ (hstart hq)) (hps hp) hqp]
      exact List.mem_append_left _ hq
    · exact List.mem_append_right _ (List.mem_filter.mpr ⟨hp, decide_eq_true hin⟩)
  constructor
  case tasks =>
    refine Or.inl ⟨_, rfl, ?_, ?_⟩
    · intro p hp
      rcases List.mem_append.mp hp with hp | hp
      · exact List.mem_append_left _ (hstart hp)
      · exact hps (List.mem_of_mem_filter hp)
    · rw [List.map_append]
      refine List.nodup_append.mpr ⟨?_, (List.filter_sublist.map _).nodup hnd, ?_⟩
      · have hids := (List.nodup_append.mp D.ids_nodup).2.1
        rw [List.map_append] at hids
        exact (List.filter_sublist.map _).nodup (List.nodup_append.mp hids).1
      · intro i hi j hj hij
        obtain ⟨q, hq, rfl⟩ := List.mem_map.mp hj
        exact of_decide_eq_true (List.mem_filter.mp hq).2 (hij ▸ hi)
  case combo =>
    intro c hc hts
    exact h.combo c hc fun hin => hts (mem_map_block.mpr (hmem c (mem_map_block.mp hin)))
  case fired => exact h.fired
  case ran =>
    intro p hp
    rw [h.ran p hp, mem_map_block, mem_map_block]
    refine or_congr_right ⟨hmem p, fun hin => ?_⟩
    rcases List.mem_append.mp hin with hin | hin
    · exact absurd (hstart hin) (D.notMem_combos hp)
    · exact List.mem_of_mem_filter hin

/-- Whenever a process list is run, everybody who has something to react to is in it. -/
theorem ready_of_vmRuns (hD : D.SoleWriters) (o : SetOrder Name) {limit : Nat} {K : Kernel Name}
    {ps : List (Always Name)} (h : D.VmRuns o limit K ps) : Ready D K (ps.map .block) := by
  induction h with
  | step σ ws =>
    refine ready_vmDriven o (fun c _ n _ hm => ?_) (fun _ => rfl) rfl
    exact ((vmExecute_spec ws (σ, ∅)).2.2 n fun he => hm (congrArg Slot.bits he)).1
  | settle S hS =>
    exact ready_vmDriven o (fun c _ n _ hm => S.driven n fun he => hm (congrArg Slot.bits he))
      (fun _ => rfl) rfl
  | first S hS =>
    have hready : Ready D (D.vmDriven o limit { atSettle S with prev := some S.store } S.pending).1
        ((D.vmDriven o limit { atSettle S with prev := some S.store } S.pending).2.map .block) :=
      ready_vmDriven o (fun c _ n _ hm => S.driven n fun he => hm (congrArg Slot.bits he))
        (fun _ => rfl) rfl
    exact hready.startFirst
  | round h ih => exact (ih.vmTracked hD).vmCommit hD o

theorem Ready.vm_noneDue_iff (hD : D.SoleWriters) {K : Kernel Name} {ps : List (Always Name)}
    (h : Ready D K (ps.map .block)) :
    NoneDue D (vmRunProcessList K ps) ↔ Undisturbed D K (vmRunProcessList K ps) (vmRunAll K ps).ended := by
  obtain ⟨hsub, hnd⟩ := h.blocks
  exact h.noneDue_iff ((traced_vmRunProcessList hD K hsub hnd).facts hsub) rfl (fun _ => rfl) rfl (h.vmTracked hD)

end Veriforge.Sched

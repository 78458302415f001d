import Veriforge.Sched.Settle

/-! # When non-blocking updates are applied

The loop applies the queued updates once per region, before it looks at what the region triggered.
So whether anybody is still due at a commit is decided by the last region alone: everything earlier
has been collected and run (`Ready`). -/

namespace Veriforge.Sched

open Design

variable {Name : Type} [DecidableEq Name]

/-- Every change an assign can make to a watched name is seen: its left-hand side has a shape that
`_read_lhs` reads. -/
def Design.Readable (D : Design Name) : Prop := ∀ a ∈ D.assigns, ∀ σ, D.Sees a σ

/-- In the first batch, propagating the drives again after the bootstrap changes nothing. -/
def Design.StartSettles (D : Design Name) (limit : Nat) : Prop :=
  ∀ S b, D.boot limit S = some b →
    ∀ n, ((D.propagate limit b.1.store (S.pending ∪ b.2)).1 n).bits = (b.1.store n).bits

/-- No process is due: no combinational block one of whose signals changed since it last ran, no
edge-triggered block whose edge has occurred and which has not run. -/
structure NoneDue (D : Design Name) (K : Kernel Name) : Prop where
  combo : ∀ c ∈ D.combos, ∀ n ∈ c.sens, ¬ K.Missed c n
  seq : ∀ p ∈ D.seqs, ∀ e ∈ p.edges, D.edge K e.1 = some e.2 → K.endedAt p.id ≠ none

/-- A region that leads from `K` to `K'`, its blocks leaving the stores `ended`, disturbs nobody: a
signal that a combinational block waits for is in the end as the block left it, or as the region
found it when the block is not part of it, and no edge is there that has not fired its blocks. -/
structure Undisturbed (D : Design Name) (K K' : Kernel Name) (ended : Nat → Option (Store Name)) : Prop where
  combo : ∀ c ∈ D.combos, ∀ n ∈ c.sens, (K'.store n).bits = ((ended c.id).getD K.store n).bits
  seq : ∀ p ∈ D.seqs, ∀ e ∈ p.edges, D.edge K' e.1 = some e.2 → p.id ∈ K.triggeredSeq

variable {D : Design Name}

theorem Design.Readable.seen (h : D.Readable) (k : Nat) (σ : Store Name) (dirty : Finset Name) :
    D.Seen k σ dirty := by
  have hpass : ∀ (as : List (Continuous Name)) (w : Wave Name), as ⊆ D.assigns → D.PassSees as w := by
    intro as
    induction as with
    | nil => exact fun _ _ => trivial
    | cons a as ih =>
      intro w has
      exact ⟨fun _ => h a (has List.mem_cons_self) _, ih _ fun b hb => has (List.mem_cons_of_mem _ hb)⟩
  induction k generalizing σ dirty with
  | zero => trivial
  | succ k ih => exact ⟨hpass _ _ (List.Subset.refl _), fun _ => ih _ _⟩

theorem RefReady.runTriggered (hD : D.SoleWriters) (hR : D.Readable) {extra : Bool} {limit : Nat}
    {K : Kernel Name} {ts : List (Task Name)} (h : RefReady D K ts) :
    RefTracked D (D.runTriggered extra limit K ts) := by
  have hreg : RefTracked D (D.runActiveRegion limit K ts) := h.region hD (hR.seen _ _ _)
  cases extra with
  | false => exact hreg
  | true => exact hreg.again hD (hR.seen _ _ _)

/-! ## The regions a delta loop begins with -/

/-- The drives of a batch make everybody ready who waits for them. -/
theorem refReady_driven (hR : D.Readable) {limit : Nat} {K : Kernel Name} {drives : Finset Name}
    (hcombo : ∀ c ∈ D.combos, ∀ n ∈ c.sens, K.Missed c n → n ∈ drives)
    (hedge : ∀ prev, K.prev = some prev → ∀ n, (K.store n).bits ≠ (prev n).bits → n ∈ drives)
    (hended : ∀ p ∈ D.seqs, K.endedAt p.id = none) :
    RefReady D (D.driven limit K drives).1 ((D.driven limit K drives).2.map .block) := by
  have hsub : drives ⊆ (D.propagate limit K.store drives).2 := dirty_subset_propagate _ _ _
  have hseen := hR.seen limit K.store drives
  apply refReady_collectTriggered
  · intro c hc n hn hm
    have hin : n ∈ (D.propagate limit K.store drives).2 := by
      by_cases hk : ((D.propagate limit K.store drives).1 n).bits = (K.store n).bits
      · exact hsub (hcombo c hc n hn fun he => hm (hk.trans he))
      · exact hseen.dirty_of_changed (Watched.combo hc hn) hk
    exact ⟨hin, Or.inl hin⟩
  · intro prev hp n hn hb
    by_cases hk : ((D.propagate limit K.store drives).1 n).bits = (K.store n).bits
    · exact Or.inl (hsub (hedge prev hp n fun he => hb (hk.trans he)))
    · exact Or.inl (hseen.dirty_of_changed (Watched.edge hn) hk)
  · intro p hp
    change p.id ∈ (∅ : Finset Nat) ↔ K.endedAt p.id ≠ none
    rw [hended p hp]
    simp

/-- A combinational block that has missed nothing need not run. -/
theorem RefReady.filter {K : Kernel Name} {ps : List (Always Name)} (h : RefReady D K (ps.map .block))
    {f : Always Name → Bool}
    (hf : ∀ p ∈ ps, f p = false → p ∈ D.combos ∧ ∀ n ∈ p.sens, ¬ K.Missed p n) :
    RefReady D K ((ps.filter f).map .block) := by
  obtain ⟨hps, hnd⟩ := h.blocks
  have hsub : (ps.filter f).Sublist ps := List.filter_sublist
  refine ⟨⟨?tasks, ?combo, ?fired, ?ran⟩, ?edge⟩
  case tasks =>
    exact Or.inl ⟨_, rfl, fun p hp => hps (hsub.subset hp), (hsub.map _).nodup hnd⟩
  case combo =>
    intro c hc hts n hn
    by_cases hin : c ∈ ps
    · have hfc : f c = false := by
        by_contra hne
        exact hts (mem_map_block.mpr (List.mem_filter.mpr ⟨hin, Bool.not_eq_false _ ▸ hne⟩))
      exact (hf c hin hfc).2 n hn
    · exact h.combo c hc (fun hb => hin (mem_map_block.mp hb)) n hn
  case edge => exact h.edge
  case fired => exact h.fired
  case ran =>
    intro p hp
    rw [h.ran p hp, mem_map_block, mem_map_block, List.mem_filter]
    refine or_congr_right ⟨fun hin => ⟨hin, ?_⟩, And.left⟩
    by_contra hne
    exact D.notMem_combos hp (hf p hin (Bool.not_eq_true _ ▸ hne)).1

theorem refReady_boot (σ : Store Name) : RefReady D (unstarted σ) (D.startProcs.map .block) := by
  refine refReady_of_fresh (Or.inl ⟨_, rfl, List.filter_sublist.subset, ?_⟩) rfl (fun _ h => nomatch h)
    (fun _ => rfl) rfl
  have h := (List.nodup_append.mp D.ids_nodup).2.1
  rw [List.map_append] at h
  exact (List.filter_sublist.map _).nodup (List.nodup_append.mp h).1

/-- What the bootstrap leaves: every block it started has run, and nobody has missed anything since
the fan-out of the drives. -/
structure Booted (D : Design Name) (σ : Store Name) (K : Kernel Name) : Prop where
  tracked : RefTracked D K
  start : K.start = σ
  prev : K.prev = none
  seqs : ∀ p ∈ D.seqs, K.endedAt p.id = none
  ran : ∀ p ∈ D.startProcs, K.endedAt p.id ≠ none

/-- Without a snapshot a commit fires nobody. -/
theorem triggeredSeq_commit {limit : Nat} {K : Kernel Name} (hprev : K.prev = none)
    (hseq : K.triggeredSeq = ∅) : (D.commit limit K).1.triggeredSeq = ∅ := by
  have hno : ∀ (K' : Kernel Name) (p : Always Name), K'.prev = none → D.fires K' p = false := by
    intro K' p hp
    rw [fires, List.any_eq_false]
    intro e _
    rw [edge, hp]
    simp
  rw [commit_eq]
  change K.triggeredSeq ∪ _ = ∅
  rw [hseq, Finset.empty_union, List.toFinset_eq_empty_iff, List.map_eq_nil_iff, List.filter_eq_nil_iff]
  intro p _
  rw [Bool.and_eq_true, not_and]
  intro hf
  rw [hno _ p (by exact hprev)] at hf
  exact absurd hf Bool.false_ne_true

theorem endedAt_runTriggered (extra : Bool) (limit : Nat) (K : Kernel Name) (ts : List (Task Name)) (i : Nat) :
    (D.runTriggered extra limit K ts).endedAt i = ((runTasks K ts).ended i).or (K.endedAt i) := by
  cases extra <;> rfl

theorem Booted.cycle (hD : D.SoleWriters) (hR : D.Readable) {limit : Nat} {σ : Store Name} {K : Kernel Name}
    (h : Booted D σ K) (hseq : K.triggeredSeq = ∅) :
    Booted D σ (D.deltaCycle false limit K) ∧ (D.deltaCycle false limit K).triggeredSeq = ∅ := by
  have hready : RefReady D (D.commit limit K).1 ((D.commit limit K).2.map .block) :=
    h.tracked.commit (hR.seen _ _ _)
  have ht : RefTracked D (D.runTriggered false limit (D.commit limit K).1 ((D.commit limit K).2.map .block)) :=
    hready.runTriggered hD hR
  have hs : (D.commit limit K).1.triggeredSeq = ∅ := triggeredSeq_commit h.prev hseq
  rw [deltaCycle_eq]
  refine ⟨⟨ht, h.start, h.prev, ?_, ?_⟩, hs⟩
  · intro p hp
    by_contra hne
    have hin : p.id ∈ (D.commit limit K).1.triggeredSeq := (ht.ran p hp).mpr hne
    rw [hs] at hin
    exact absurd hin (Finset.notMem_empty _)
  · intro p hp
    rw [endedAt_runTriggered]
    change ((runTasks _ _).ended p.id).or (K.endedAt p.id) ≠ none
    cases (runTasks (D.commit limit K).1 ((D.commit limit K).2.map .block)).ended p.id with
    | none => exact h.ran p hp
    | some τ => exact Option.some_ne_none _

theorem booted_of_boot (hD : D.SoleWriters) (hR : D.Readable) {limit : Nat} {K : Kernel Name}
    {σ : Store Name} (h : D.bootstrap limit (unstarted σ) = some K) :
    Booted D σ K ∧ busy K = false ∧ K.triggeredSeq = ∅ := by
  have hr := refReady_boot (D := D) σ
  have hstart : Booted D σ (D.runActiveRegion limit (unstarted σ) (D.startProcs.map .block)) ∧
      (D.runActiveRegion limit (unstarted σ) (D.startProcs.map .block)).triggeredSeq = ∅ := by
    have ht : RefTracked D (D.runTriggered false limit (unstarted σ) (D.startProcs.map .block)) :=
      hr.runTriggered hD hR
    refine ⟨⟨ht, rfl, rfl, ?_, ?_⟩, rfl⟩
    · intro p hp
      by_contra hne
      exact absurd ((ht.ran p hp).mpr hne) (Finset.notMem_empty _)
    · intro p hp hno
      have hran := ((hr.facts hD).ran p (List.mem_append_left _ (List.mem_of_mem_filter hp))).mpr
        (mem_map_block.mpr hp)
      have hor := endedAt_runTriggered (D := D) false limit (unstarted σ) (D.startProcs.map .block) p.id
      cases he : (runTasks (unstarted σ) (D.startProcs.map .block)).ended p.id with
      | none => exact hran he
      | some τ =>
        rw [he, Option.some_or] at hor
        exact absurd (hor.symm.trans hno) (Option.some_ne_none _)
  have hcycle : ∀ K, (Booted D σ K ∧ K.triggeredSeq = ∅) → busy K = true →
      (Booted D σ (D.deltaCycle false limit K) ∧ (D.deltaCycle false limit K).triggeredSeq = ∅) :=
    fun K hK _ => hK.1.cycle hD hR hK.2
  unfold bootstrap at h
  split at h
  · obtain ⟨hK, hb⟩ := deltaLoop_induct hcycle h hstart
    exact ⟨hK.1, hb, hK.2⟩
  · next hnil =>
    -- without blocks to start the region would have been empty
    rw [not_not.mp hnil, List.map_nil, runActiveRegion_nil] at hstart
    obtain ⟨hK, hb⟩ := deltaLoop_induct hcycle h hstart
    exact ⟨hK.1, hb, hK.2⟩

/-- A name that the drives or their fan-out changed is among the drives of the first batch. -/
theorem mem_fanOut (hR : D.Readable) {limit : Nat} {S : Rest Name} {n : Name} (hw : D.Watched n)
    (hn : ((D.fanOut limit S).1 n).bits ≠ (S.snapshot n).bits) : n ∈ S.pending ∪ (D.fanOut limit S).2 := by
  by_cases hs : ((D.fanOut limit S).1 n).bits = (S.store n).bits
  · refine Finset.mem_union_left _ (S.driven n fun he => hn ?_)
    rw [hs, he]
  · refine Finset.mem_union_right _ ?_
    unfold fanOut at hs ⊢
    split at hs
    · next h =>
      rw [if_pos h]
      exact (hR.seen limit S.store S.pending).dirty_of_changed hw hs
    · exact absurd rfl hs

/-- The first batch, when propagating the drives again after the bootstrap changes nothing. -/
theorem refReady_first (hD : D.SoleWriters) (hR : D.Readable) {limit : Nat} {S : Rest Name}
    {b : Kernel Name × Finset Name} (hb : D.boot limit S = some b)
    (hquiet : D.combos ≠ [] → ∀ n, ((D.propagate limit b.1.store (S.pending ∪ b.2)).1 n).bits = (b.1.store n).bits) :
    RefReady D (D.drivenFirst limit S b.1 b.2).1 ((D.drivenFirst limit S b.1 b.2).2.map .block) := by
  unfold drivenFirst
  dsimp only
  unfold boot at hb
  split at hb
  · next hcombos =>
    rw [if_pos hcombos]
    obtain ⟨K, hK, rfl⟩ := Option.map_eq_some_iff.mp hb
    obtain ⟨hB, hidle, -⟩ := booted_of_boot hD hR hK
    have hactive : K.active = ∅ := by
      unfold busy at hidle
      rw [Bool.or_eq_false_iff, decide_eq_false_iff_not, Finset.not_nonempty_iff_eq_empty] at hidle
      exact hidle.1
    have hsame : ∀ c ∈ D.combos, ∀ n ∈ c.sens, (K.store n).bits = (K.lastEnd c n).bits := by
      intro c hc n hn
      by_contra hm
      have hin := (hB.tracked.combo c hc n hn hm).1
      rw [hactive] at hin
      exact absurd hin (Finset.notMem_empty _)
    have hready : RefReady D (D.driven limit (atFirstSettle S K) (S.pending ∪ (D.fanOut limit S).2)).1
        ((D.driven limit (atFirstSettle S K) (S.pending ∪ (D.fanOut limit S).2)).2.map .block) := by
      apply refReady_driven hR
      · intro c hc n hn hm
        have hk := hsame c hc n hn
        change (K.store n).bits ≠ ((K.endedAt c.id).getD S.snapshot n).bits at hm
        unfold Kernel.lastEnd at hk
        cases he : K.endedAt c.id with
        | some τ =>
          rw [he, Option.getD_some] at hk hm
          exact absurd hk hm
        | none =>
          rw [he, Option.getD_none] at hk hm
          rw [hk, hB.start] at hm
          exact mem_fanOut hR (Watched.combo hc hn) hm
      · intro prev hp n hne
        exact absurd (congrArg (fun σ : Store Name => (σ n).bits) (Option.some.inj hp)) hne
      · exact hB.seqs
    refine hready.filter ?_
    intro p hp hf
    rw [decide_eq_false_iff_not, not_not] at hf
    obtain ⟨q, hq, hqp⟩ := List.mem_map.mp hf
    have hpb : p ∈ D.combos ++ D.seqs := hready.blocks.1 hp
    have hqc : q ∈ D.combos := List.mem_of_mem_filter hq
    obtain rfl := D.eq_of_id (List.mem_append_left _ hqc) hpb hqp
    refine ⟨hqc, fun n hn hm => ?_⟩
    -- it has run, and the second propagation of the drives changed nothing
    have hk := hsame q hqc n hn
    change ((D.propagate limit K.store (S.pending ∪ (D.fanOut limit S).2)).1 n).bits
      ≠ ((K.endedAt q.id).getD S.snapshot n).bits at hm
    rw [hquiet hcombos n] at hm
    unfold Kernel.lastEnd at hk
    cases he : K.endedAt q.id with
    | none => exact hB.ran q hq he
    | some τ =>
      rw [he, Option.getD_some] at hk hm
      exact hm hk
  · next hcombos =>
    rw [if_neg hcombos]
    obtain rfl := Option.some.inj hb
    have hnone : D.combos = [] := not_not.mp hcombos
    apply refReady_driven hR
    · intro c hc
      rw [hnone] at hc
      exact absurd hc List.not_mem_nil
    · intro prev hp n hne
      exact absurd (congrArg (fun σ : Store Name => (σ n).bits) (Option.some.inj hp)) hne
    · exact fun _ _ => rfl

/-! ## Every region -/

/-- Whenever a region is run, everybody who has something to react to is in it. -/
theorem refReady_of_runs (hD : D.SoleWriters) (hR : D.Readable) {limit : Nat} (hstart : D.StartSettles limit)
    {extra : Bool} {K : Kernel Name} {ts : List (Task Name)} (h : D.Runs limit extra K ts) :
    RefReady D K ts := by
  induction h with
  | step σ es =>
    exact refReady_of_fresh (Or.inr ⟨es, rfl⟩) rfl (fun _ h => (Option.some.inj h).symm) (fun _ => rfl) rfl
  | boot S hS => exact refReady_boot _
  | settle S hS =>
    apply refReady_driven hR
    · intro c _ n _ hm
      exact S.driven n fun he => hm (congrArg Slot.bits he)
    · intro prev hp n hne
      exact S.driven n fun he => hne (by rw [← Option.some.inj hp]; exact congrArg Slot.bits he)
    · exact fun _ _ => rfl
  | first S hS b hb => exact refReady_first hD hR hb fun _ => hstart S b hb
  | round h hbusy ih => exact (ih.runTriggered hD hR).commit (hR.seen _ _ _)

/-- Whether anybody is due after a region depends on the region alone. -/
theorem Ready.noneDue_iff {K K' : Kernel Name} {ts : List (Task Name)} (h : Ready D K ts)
    {store : Store Name} {own : Name → Option Nat} {ended : Nat → Option (Store Name)}
    (hf : RegionFacts D K.store ts store own ended) (hstart : K'.start = K.start)
    (hended : ∀ i, K'.endedAt i = (ended i).or (K.endedAt i)) (hseq : K'.triggeredSeq = K.triggeredSeq)
    (ht : Tracked D K') : NoneDue D K' ↔ Undisturbed D K K' ended := by
  have hlast : ∀ c ∈ D.combos, ∀ n ∈ c.sens, (K'.lastEnd c n).bits = ((ended c.id).getD K.store n).bits := by
    intro c hc n hn
    rw [lastEnd_of_endedAt hstart hended]
    cases hτ : ended c.id with
    | none => exact (h.bits_lastEnd hf hc hτ hn).symm
    | some τ => rfl
  have hran : ∀ p ∈ D.seqs, p.id ∈ K.triggeredSeq ↔ K'.endedAt p.id ≠ none := fun p hp =>
    hseq ▸ ht.ran p hp
  constructor
  · intro hN
    constructor
    · intro c hc n hn
      exact (not_not.mp (hN.combo c hc n hn)).trans (hlast c hc n hn)
    · intro p hp e he hd
      exact (hran p hp).mpr (hN.seq p hp e he hd)
  · intro hU
    constructor
    · intro c hc n hn hm
      exact hm ((hU.combo c hc n hn).trans (hlast c hc n hn).symm)
    · intro p hp e he hd
      exact (hran p hp).mp (hU.seq p hp e he hd)

theorem RefReady.noneDue_iff (hD : D.SoleWriters) (hR : D.Readable) {extra : Bool} {limit : Nat}
    {K : Kernel Name} {ts : List (Task Name)} (h : RefReady D K ts) :
    NoneDue D (D.runTriggered extra limit K ts)
      ↔ Undisturbed D K (D.runTriggered extra limit K ts) (runTasks K ts).ended := by
  have ht : RefTracked D (D.runTriggered extra limit K ts) := h.runTriggered hD hR
  refine h.toReady.noneDue_iff (h.facts hD) ?_ (endedAt_runTriggered extra limit K ts) ?_ ht.toTracked
  · cases extra <;> rfl
  · cases extra <;> rfl

end Veriforge.Sched

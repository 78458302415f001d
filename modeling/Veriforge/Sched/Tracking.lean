import Veriforge.Sched.Region

/-! # The invariant of the delta loop

A change that a combinational block has not seen is in `active_dirty` and is not the block's own, and
an edge that has occurred is in `active_dirty` or has fired its blocks (`Tracked`); what
`_collect_triggered` makes of this is that everybody who has something to react to is about to run
(`Ready`). A region leads from the second to the first, a commit back. -/

namespace Veriforge.Sched

variable {Name : Type} [DecidableEq Name]

namespace Kernel

/-- The store when the block last ended, or when the time step began. -/
def lastEnd (K : Kernel Name) (c : Always Name) : Store Name := (K.endedAt c.id).getD K.start

/-- The block has not seen the value the signal has now. -/
def Missed (K : Kernel Name) (c : Always Name) (n : Name) : Prop :=
  (K.store n).bits ≠ (K.lastEnd c n).bits

end Kernel

/-- Everybody who has something to react to is among `ts`. -/
structure Ready (D : Design Name) (K : Kernel Name) (ts : List (Task Name)) : Prop where
  tasks : (∃ ps : List (Always Name), ts = ps.map .block ∧ ps ⊆ D.combos ++ D.seqs ∧ (ps.map (·.id)).Nodup) ∨
    ∃ es : List (Store Name → Effect Name), ts = es.map .event
  combo : ∀ c ∈ D.combos, Task.block c ∉ ts → ∀ n ∈ c.sens, ¬ K.Missed c n
  fired : ∀ p ∈ D.seqs, ∀ e ∈ p.edges, D.edge K e.1 = some e.2 → p.id ∈ K.triggeredSeq
  ran : ∀ p ∈ D.seqs, p.id ∈ K.triggeredSeq ↔ K.endedAt p.id ≠ none ∨ Task.block p ∈ ts

/-- The reference scheduler looks for edges among the names it has once found dirty. -/
structure RefReady (D : Design Name) (K : Kernel Name) (ts : List (Task Name)) : Prop extends Ready D K ts where
  edge : ∀ prev, K.prev = some prev → ∀ n ∈ D.seqEdgeNames, (K.store n).bits ≠ (prev n).bits →
    n ∈ K.edgeChanged

/-- The next `_collect_triggered` will find everybody who has something to react to. -/
structure Tracked (D : Design Name) (K : Kernel Name) : Prop where
  owner : ∀ n i, K.own n = some i → ∃ q ∈ D.combos ++ D.seqs, q.id = i ∧ q.Writes n
  combo : ∀ c ∈ D.combos, ∀ n ∈ c.sens, K.Missed c n → n ∈ K.active ∧ K.own n ≠ some c.id
  ran : ∀ p ∈ D.seqs, p.id ∈ K.triggeredSeq ↔ K.endedAt p.id ≠ none

/-- In the reference scheduler edges, too, are found through dirty names. -/
structure RefTracked (D : Design Name) (K : Kernel Name) : Prop extends Tracked D K where
  edge : ∀ prev, K.prev = some prev → ∀ n ∈ D.seqEdgeNames, (K.store n).bits ≠ (prev n).bits →
    n ∈ K.active ∨ n ∈ K.edgeChanged
  fired : ∀ p ∈ D.seqs, ∀ e ∈ p.edges, D.edge K e.1 = some e.2 → e.1 ∈ K.active ∨ p.id ∈ K.triggeredSeq

namespace Design

variable (D : Design Name)

/-- The scheduler sees the watched changes of the assigns after a region. -/
def RegionSeen (limit : Nat) (K : Kernel Name) (ts : List (Task Name)) : Prop :=
  D.Seen limit (runTasks K ts).store ((runTasks K ts).dirty D)

/-- The scheduler sees the watched changes of the assigns after the updates. -/
def CommitSeen (limit : Nat) (K : Kernel Name) : Prop :=
  D.Seen limit (applyNba K.store K.queue).1 (applyNba K.store K.queue).2

variable {D}

theorem Watched.combo {c : Always Name} (hc : c ∈ D.combos) {n : Name} (hn : n ∈ c.sens) : D.Watched n :=
  Or.inr (Or.inl ⟨c, hc, hn⟩)

theorem Watched.edge {n : Name} (hn : n ∈ D.seqEdgeNames) : D.Watched n :=
  Or.inr (Or.inr (D.mem_seqEdgeNames.mp hn))

theorem mem_seqEdgeNames_of_edge {p : Always Name} (hp : p ∈ D.seqs) {e : Name × Edge} (he : e ∈ p.edges) :
    e.1 ∈ D.seqEdgeNames :=
  D.mem_seqEdgeNames.mpr ⟨p, hp, List.mem_map_of_mem he⟩

/-- Nothing is propagated from an empty dirty set, whether the loop is entered or not. -/
theorem propagate_ite (limit : Nat) (p : Store Name × Finset Name) :
    (if p.2.Nonempty then D.propagate limit p.1 p.2 else p) = D.propagate limit p.1 p.2 := by
  split
  · rfl
  · next h => rw [Finset.not_nonempty_iff_eq_empty.mp h, propagate_empty, ← Finset.not_nonempty_iff_eq_empty.mp h]

/-- A name that propagation changes is a target. -/
theorem exists_writes_of_propagate {limit : Nat} {σ : Store Name} {dirty : Finset Name} {n : Name}
    (h : ((D.propagate limit σ dirty).1 n).bits ≠ (σ n).bits) : ∃ a ∈ D.assigns, a.Writes n := by
  by_contra hno
  push Not at hno
  exact h (congrArg Slot.bits (propagate_of_not_writes hno limit σ dirty))

/-- An edge is a change since the snapshot. -/
theorem bits_of_edge {K : Kernel Name} {n : Name} {e : Edge} (h : D.edge K n = some e) :
    ∃ prev, K.prev = some prev ∧ (K.store n).bits ≠ (prev n).bits := by
  unfold edge at h
  cases hp : K.prev with
  | none =>
    rw [hp] at h
    exact nomatch h
  | some prev =>
    rw [hp, Option.bind_some] at h
    refine ⟨prev, rfl, fun hb => ?_⟩
    rw [D.edgeDirection_of_bits hb] at h
    exact nomatch h

theorem edge_congr {K K' : Kernel Name} {n : Name} (hp : K.prev = K'.prev)
    (h : (K.store n).bits = (K'.store n).bits) : D.edge K n = D.edge K' n := by
  unfold edge
  rw [hp]
  cases K'.prev with
  | none => rfl
  | some prev => exact D.edgeDirection_congr h

/-! ## A region -/

theorem runActiveRegion_store (limit : Nat) (K : Kernel Name) (ts : List (Task Name)) :
    (D.runActiveRegion limit K ts).store
      = (D.propagate limit (runTasks K ts).store ((runTasks K ts).dirty D)).1 :=
  congrArg Prod.fst (propagate_ite limit ((runTasks K ts).store, (runTasks K ts).dirty D))

theorem runActiveRegion_active (limit : Nat) (K : Kernel Name) (ts : List (Task Name)) :
    (D.runActiveRegion limit K ts).active
      = (D.propagate limit (runTasks K ts).store ((runTasks K ts).dirty D)).2 :=
  congrArg Prod.snd (propagate_ite limit ((runTasks K ts).store, (runTasks K ts).dirty D))

theorem runActiveRegion_endedAt (limit : Nat) (K : Kernel Name) (ts : List (Task Name)) (i : Nat) :
    (D.runActiveRegion limit K ts).endedAt i = ((runTasks K ts).ended i).or (K.endedAt i) := rfl

/-- Whatever a region changes, by its processes or by the assigns after them, is dirty. -/
theorem mem_active_of_changed {limit : Nat} {K : Kernel Name} {ts : List (Task Name)}
    (hseen : D.RegionSeen limit K ts) {n : Name} (hw : D.Watched n)
    (hn : ((D.runActiveRegion limit K ts).store n).bits ≠ (K.store n).bits) :
    n ∈ (D.runActiveRegion limit K ts).active := by
  rw [runActiveRegion_active]
  rw [runActiveRegion_store] at hn
  by_cases hr : ((runTasks K ts).store n).bits = (K.store n).bits
  · exact hseen.dirty_of_changed hw (hr ▸ hn)
  · exact dirty_subset_propagate _ _ _ ((sound_runTasks K ts).mem_dirty hr)

theorem owners_of_ownChanges {r : Region Name} {n : Name} {i : Nat} (h : r.ownChanges D n = some i) :
    r.owners n = some i := by
  unfold Region.ownChanges at h
  obtain ⟨o, ho, h⟩ := Option.bind_eq_some_iff.mp h
  split at h
  · exact Option.map_eq_some_iff.mpr ⟨o, ho, Option.some.inj h⟩
  · exact nomatch h

end Design

open Design

variable {D : Design Name}

/-- The processes of a ready list. -/
theorem Ready.facts (hD : D.SoleWriters) {K : Kernel Name} {ts : List (Task Name)} (h : Ready D K ts) :
    RegionFacts D K.store ts (runTasks K ts).store (runTasks K ts).owners (runTasks K ts).ended := by
  rcases h.tasks with ⟨ps, rfl, hps, hnd⟩ | ⟨es, rfl⟩
  · exact regionFacts_blocks hD K hps hnd
  · exact regionFacts_events K es

/-- A ready list of blocks holds blocks of the design, each at most once. -/
theorem Ready.blocks {K : Kernel Name} {ps : List (Always Name)} (h : Ready D K (ps.map .block)) :
    ps ⊆ D.combos ++ D.seqs ∧ (ps.map (·.id)).Nodup := by
  rcases h.tasks with ⟨qs, hqs, hsub, hnd⟩ | ⟨es, hes⟩
  · have heq : ps = qs := List.map_injective_iff.mpr (fun _ _ h => Task.block.inj h) hqs
    exact heq ▸ ⟨hsub, hnd⟩
  · cases ps with
    | nil => exact ⟨List.nil_subset _, List.nodup_nil⟩
    | cons p ps =>
      cases es with
      | nil => exact nomatch hes
      | cons e es => exact nomatch (List.cons.inj hes).1

/-- A block outside a region has seen what the region starts from. -/
theorem Ready.bits_lastEnd {K : Kernel Name} {ts : List (Task Name)} (h : Ready D K ts) {store : Store Name}
    {own : Name → Option Nat} {ended : Nat → Option (Store Name)}
    (hf : RegionFacts D K.store ts store own ended) {c : Always Name} (hc : c ∈ D.combos)
    (hno : ended c.id = none) {n : Name} (hn : n ∈ c.sens) : (K.store n).bits = (K.lastEnd c n).bits := by
  have hts : Task.block c ∉ ts := fun hin => (hf.ran c (List.mem_append_left _ hc)).mpr hin hno
  exact not_not.mp (h.combo c hc hts n hn)

/-- Where a block stands after a region. -/
theorem lastEnd_of_endedAt {K K' : Kernel Name} {ended : Nat → Option (Store Name)}
    (hstart : K'.start = K.start) (hended : ∀ i, K'.endedAt i = (ended i).or (K.endedAt i)) (c : Always Name) :
    K'.lastEnd c = (ended c.id).getD (K.lastEnd c) := by
  unfold Kernel.lastEnd
  rw [hended, hstart]
  cases ended c.id <;> rfl

/-- A region tracks its changes, when all of them are dirty afterwards and what it changes after its
processes is the work of assigns. -/
theorem Ready.tracked (hD : D.SoleWriters) {K K' : Kernel Name} {ts : List (Task Name)} (h : Ready D K ts)
    {store : Store Name} {own : Name → Option Nat} {ended : Nat → Option (Store Name)}
    (hf : RegionFacts D K.store ts store own ended) (hstart : K'.start = K.start)
    (hended : ∀ i, K'.endedAt i = (ended i).or (K.endedAt i)) (hseq : K'.triggeredSeq = K.triggeredSeq)
    (hown : ∀ n i, K'.own n = some i → own n = some i)
    (hact : ∀ n, D.Watched n → (K'.store n).bits ≠ (K.store n).bits → n ∈ K'.active)
    (hassign : ∀ n, D.Watched n → (K'.store n).bits ≠ (store n).bits →
      n ∈ K'.active ∧ ∃ a ∈ D.assigns, a.Writes n) : Tracked D K' := by
  constructor
  case owner =>
    intro n i ho
    obtain ⟨q, hq, hqi, hqn, -⟩ := hf.owner n i (hown n i ho)
    exact ⟨q, hq, hqi, hqn⟩
  case combo =>
    intro c hc n hn hm
    have hw := Watched.combo hc hn
    unfold Kernel.Missed at hm
    rw [lastEnd_of_endedAt hstart hended] at hm
    cases hτ : ended c.id with
    | none =>
      rw [hτ, Option.getD_none, ← h.bits_lastEnd hf hc hτ hn] at hm
      refine ⟨hact n hw hm, fun ho => ?_⟩
      obtain ⟨-, -, -, -, he⟩ := hf.owner n c.id (hown n c.id ho)
      exact he hτ
    | some τ =>
      rw [hτ, Option.getD_some] at hm
      by_cases hca : (K'.store n).bits = (store n).bits
      · -- a later block of the region changed it
        rw [hca] at hm
        obtain ⟨hτn, q, hq, hqc, hqn⟩ := hf.seen c τ n hτ fun he => hm (congrArg Slot.bits he.symm)
        rw [hτn, ← hca] at hm
        refine ⟨hact n hw hm, fun ho => ?_⟩
        obtain ⟨q', hq', hqi', hqn', -⟩ := hf.owner n c.id (hown n c.id ho)
        exact hqc ((hD.blocks q hq q' hq' n hqn hqn').trans hqi')
      · -- an assign changed it
        obtain ⟨hin, a, ha, han⟩ := hassign n hw hca
        refine ⟨hin, fun ho => ?_⟩
        obtain ⟨q, hq, -, hqn, -⟩ := hf.owner n c.id (hown n c.id ho)
        exact hD.across a ha q hq n han hqn
  case ran =>
    intro p hp
    rw [hseq, h.ran p hp, hended, ← hf.ran p (List.mem_append_right _ hp)]
    cases ended p.id <;> simp

/-- An active region of the reference scheduler tracks its changes. -/
theorem RefReady.region (hD : D.SoleWriters) {limit : Nat} {K : Kernel Name} {ts : List (Task Name)}
    (h : RefReady D K ts) (hseen : D.RegionSeen limit K ts) : RefTracked D (D.runActiveRegion limit K ts) := by
  have hact : ∀ n, D.Watched n → ((D.runActiveRegion limit K ts).store n).bits ≠ (K.store n).bits →
      n ∈ (D.runActiveRegion limit K ts).active := fun n => mem_active_of_changed hseen
  refine ⟨?tracked, ?edge, ?fired⟩
  case tracked =>
    refine h.tracked hD (h.facts hD) rfl (runActiveRegion_endedAt limit K ts) rfl
      (fun n i ho => owners_of_ownChanges ho) hact fun n hw hca => ?_
    rw [runActiveRegion_store] at hca
    rw [runActiveRegion_active]
    exact ⟨hseen.dirty_of_changed hw hca, exists_writes_of_propagate hca⟩
  case edge =>
    intro prev hp n hn hb
    by_cases hk : ((D.runActiveRegion limit K ts).store n).bits = (K.store n).bits
    · exact Or.inr (h.edge prev hp n hn (hk ▸ hb))
    · exact Or.inl (hact n (Watched.edge hn) hk)
  case fired =>
    intro p hp e he hd
    by_cases hk : ((D.runActiveRegion limit K ts).store e.1).bits = (K.store e.1).bits
    · have hsame : D.edge K e.1 = D.edge (D.runActiveRegion limit K ts) e.1 := edge_congr rfl hk.symm
      exact Or.inr (h.fired p hp e he (hsame.trans hd))
    · exact Or.inl (hact e.1 (Watched.edge (mem_seqEdgeNames_of_edge hp he)) hk)

/-! ## A commit -/

/-- A signal that an update changed is in the result of `apply_nba`. -/
theorem mem_applyNba {σ : Store Name} {queue : List (Update Name)} {n : Name}
    (h : ((applyNba σ queue).1 n).bits ≠ (σ n).bits) : n ∈ (applyNba σ queue).2 := by
  have hstep : ∀ (us : List (Update Name)) (p : Store Name × Finset Name), p.2 ⊆ (us.foldl applyUpdate p).2 ∧
        (((us.foldl applyUpdate p).1 n).bits ≠ (p.1 n).bits → n ∈ (us.foldl applyUpdate p).2) := by
    intro us
    induction us with
    | nil => exact fun p => ⟨Finset.Subset.refl _, fun h => absurd rfl h⟩
    | cons u us ih =>
      intro p
      obtain ⟨hsub, hch⟩ := ih (applyUpdate p u)
      rw [List.foldl_cons]
      have hone : p.2 ⊆ (applyUpdate p u).2 ∧
          (((applyUpdate p u).1 n).bits ≠ (p.1 n).bits → n ∈ (applyUpdate p u).2) := by
        unfold applyUpdate
        split
        · refine ⟨Finset.subset_insert _ _, fun hb => ?_⟩
          by_cases hn : n = u.name
          · exact hn ▸ Finset.mem_insert_self _ _
          · exact absurd (congrArg Slot.bits (Function.update_of_ne hn _ _)) hb
        · exact ⟨Finset.Subset.refl _, fun hb => absurd rfl hb⟩
      refine ⟨hone.1.trans hsub, fun hb => ?_⟩
      by_cases hu : ((applyUpdate p u).1 n).bits = (p.1 n).bits
      · exact hch (hu ▸ hb)
      · exact hsub (hone.2 hu)
  exact (hstep queue (σ, ∅)).2 h

/-- What the updates and the assigns after them leave. -/
def Design.committed (D : Design Name) (limit : Nat) (K : Kernel Name) : Store Name × Finset Name :=
  D.propagate limit (applyNba K.store K.queue).1 (applyNba K.store K.queue).2

theorem commit_eq (limit : Nat) (K : Kernel Name) :
    D.commit limit K = D.collectTriggered { K with store := (D.committed limit K).1, queue := [] }
      (K.active ∪ (D.committed limit K).2) (D.committed limit K).2 := by
  simp only [Design.commit, propagate_ite]
  rfl

/-- Whatever a commit changes is in its dirty set. -/
theorem mem_committed {limit : Nat} {K : Kernel Name} (hseen : D.CommitSeen limit K) {n : Name}
    (hw : D.Watched n) (hn : ((D.committed limit K).1 n).bits ≠ (K.store n).bits) :
    n ∈ (D.committed limit K).2 := by
  by_cases hu : ((applyNba K.store K.queue).1 n).bits = (K.store n).bits
  · exact hseen.dirty_of_changed hw (hu ▸ hn)
  · exact dirty_subset_propagate _ _ _ (mem_applyNba hu)

/-- `_collect_triggered` finds everybody, when the names that changed are all in `dirty` and not only
somebody's own. -/
theorem refReady_collectTriggered {K : Kernel Name} {dirty others : Finset Name}
    (hcombo : ∀ c ∈ D.combos, ∀ n ∈ c.sens, K.Missed c n → n ∈ dirty ∧ (n ∈ others ∨ K.own n ≠ some c.id))
    (hedge : ∀ prev, K.prev = some prev → ∀ n ∈ D.seqEdgeNames, (K.store n).bits ≠ (prev n).bits →
      n ∈ dirty ∨ n ∈ K.edgeChanged)
    (hran : ∀ p ∈ D.seqs, p.id ∈ K.triggeredSeq ↔ K.endedAt p.id ≠ none) :
    RefReady D (D.collectTriggered K dirty others).1
      ((D.collectTriggered K dirty others).2.map .block) := by
  have hsub : (D.collectTriggered K dirty others).2.Sublist (D.combos ++ D.seqs) :=
    List.filter_sublist.append List.filter_sublist
  refine ⟨⟨?tasks, ?combo, ?fired, ?ran⟩, ?edge⟩
  case tasks =>
    exact Or.inl ⟨_, rfl, hsub.subset, (hsub.map _).nodup (List.nodup_append.mp D.ids_nodup).2.1⟩
  case combo =>
    intro c hc hts n hn hm
    obtain ⟨hdirty, hown⟩ := hcombo c hc n hn hm
    refine hts (mem_map_block.mpr (List.mem_append_left _ (List.mem_filter.mpr ⟨hc, ?_⟩)))
    rw [wakes, decide_eq_true_eq]
    refine ⟨n, Finset.mem_inter.mpr ⟨hn, hdirty⟩, ?_⟩
    split
    · exact (Option.some_ne_none _).symm
    · next ho => exact hown.resolve_left ho
  case edge =>
    intro prev hp n hn hb
    rcases hedge prev hp n hn hb with h | h
    · exact Finset.mem_union_right _ (Finset.mem_inter.mpr ⟨h, hn⟩)
    · exact Finset.mem_union_left _ h
  case fired =>
    intro p hp e he hd
    obtain ⟨prev, hprev, hb⟩ := bits_of_edge hd
    have hch : e.1 ∈ K.edgeChanged ∪ (dirty ∩ D.seqEdgeNames) := by
      rcases hedge prev hprev e.1 (mem_seqEdgeNames_of_edge hp he) hb with h | h
      · exact Finset.mem_union_right _ (Finset.mem_inter.mpr ⟨h, mem_seqEdgeNames_of_edge hp he⟩)
      · exact Finset.mem_union_left _ h
    by_cases hin : p.id ∈ K.triggeredSeq
    · exact Finset.mem_union_left _ hin
    · refine Finset.mem_union_right _ (List.mem_toFinset.mpr (List.mem_map_of_mem ?_))
      refine List.mem_filter.mpr ⟨hp, ?_⟩
      rw [Bool.and_eq_true, decide_eq_true_eq]
      refine ⟨List.any_eq_true.mpr ⟨e, he, ?_⟩, hin⟩
      rw [Bool.and_eq_true, decide_eq_true_eq, decide_eq_true_eq]
      exact ⟨hch, hd⟩
  case ran =>
    intro p hp
    rw [mem_map_block]
    refine Finset.mem_union.trans (or_congr (hran p hp) ?_)
    rw [List.mem_toFinset, List.mem_map]
    constructor
    · rintro ⟨q, hq, hqp⟩
      have hqs : q ∈ D.seqs := List.mem_of_mem_filter hq
      rw [← D.eq_of_id (List.mem_append_right _ hqs) (List.mem_append_right _ hp) hqp]
      exact List.mem_append_right _ hq
    · intro h
      rcases List.mem_append.mp h with h | h
      · exact absurd (List.mem_of_mem_filter h) (D.notMem_combos hp)
      · exact ⟨p, h, rfl⟩

/-- A commit makes everybody ready who has something to react to. -/
theorem RefTracked.commit {limit : Nat} {K : Kernel Name} (h : RefTracked D K) (hseen : D.CommitSeen limit K) :
    RefReady D (D.commit limit K).1 ((D.commit limit K).2.map .block) := by
  rw [commit_eq]
  apply refReady_collectTriggered
  · intro c hc n hn hm
    by_cases hk : ((D.committed limit K).1 n).bits = (K.store n).bits
    · unfold Kernel.Missed at hm
      obtain ⟨ha, ho⟩ := h.combo c hc n hn fun he => hm (hk.trans he)
      exact ⟨Finset.mem_union_left _ ha, Or.inr ho⟩
    · have hin := mem_committed hseen (Watched.combo hc hn) hk
      exact ⟨Finset.mem_union_right _ hin, Or.inl hin⟩
  · intro prev hp n hn hb
    by_cases hk : ((D.committed limit K).1 n).bits = (K.store n).bits
    · exact (h.edge prev hp n hn fun he => hb (hk.trans he)).imp_left (Finset.mem_union_left _)
    · exact Or.inl (Finset.mem_union_right _ (mem_committed hseen (Watched.edge hn) hk))
  · exact h.ran

/-- One more propagation keeps the changes tracked. -/
theorem RefTracked.again (hD : D.SoleWriters) {limit : Nat} {K : Kernel Name} (h : RefTracked D K)
    (hseen : D.Seen limit K.store K.active) : RefTracked D (D.again limit K) := by
  have hact : ∀ {n}, D.Watched n → ((D.again limit K).store n).bits ≠ (K.store n).bits →
      n ∈ (D.again limit K).active := hseen.dirty_of_changed
  have hsub : K.active ⊆ (D.again limit K).active := dirty_subset_propagate _ _ _
  refine ⟨⟨?owner, ?combo, ?ran⟩, ?edge, ?fired⟩
  case owner => exact h.owner
  case combo =>
    intro c hc n hn hm
    by_cases hk : ((D.again limit K).store n).bits = (K.store n).bits
    · obtain ⟨ha, ho⟩ := h.combo c hc n hn fun he => hm (hk.trans he)
      exact ⟨hsub ha, ho⟩
    · refine ⟨hact (Watched.combo hc hn) hk, fun ho => ?_⟩
      obtain ⟨a, ha, han⟩ := exists_writes_of_propagate hk
      obtain ⟨q, hq, -, hqn⟩ := h.owner n c.id ho
      exact hD.across a ha q hq n han hqn
  case edge =>
    intro prev hp n hn hb
    by_cases hk : ((D.again limit K).store n).bits = (K.store n).bits
    · exact (h.edge prev hp n hn (hk ▸ hb)).imp_left fun hin => hsub hin
    · exact Or.inl (hact (Watched.edge hn) hk)
  case fired =>
    intro p hp e he hd
    by_cases hk : ((D.again limit K).store e.1).bits = (K.store e.1).bits
    · have hsame : D.edge K e.1 = D.edge (D.again limit K) e.1 := edge_congr rfl hk.symm
      exact (h.fired p hp e he (hsame.trans hd)).imp_left fun hin => hsub hin
    · exact Or.inl (hact (Watched.edge (mem_seqEdgeNames_of_edge hp he)) hk)
  case ran => exact h.ran

/-- Before anything has changed everybody is ready. -/
theorem refReady_of_fresh {K : Kernel Name} {ts : List (Task Name)}
    (htasks : (∃ ps : List (Always Name), ts = ps.map .block ∧ ps ⊆ D.combos ∧ (ps.map (·.id)).Nodup) ∨
      ∃ es : List (Store Name → Effect Name), ts = es.map .event)
    (hstart : K.start = K.store) (hprev : ∀ prev, K.prev = some prev → prev = K.store)
    (hended : ∀ i, K.endedAt i = none) (hseq : K.triggeredSeq = ∅) : RefReady D K ts := by
  have hno : ∀ p ∈ D.seqs, Task.block p ∉ ts := by
    intro p hp hin
    rcases htasks with ⟨ps, rfl, hps, -⟩ | ⟨es, rfl⟩
    · exact D.notMem_combos hp (hps (mem_map_block.mp hin))
    · obtain ⟨e, -, he⟩ := List.mem_map.mp hin
      exact nomatch he
  refine ⟨⟨?tasks, ?combo, ?fired, ?ran⟩, ?edge⟩
  case tasks =>
    refine htasks.imp_left ?_
    rintro ⟨ps, rfl, hps, hnd⟩
    exact ⟨ps, rfl, fun q hq => List.mem_append_left _ (hps hq), hnd⟩
  case combo =>
    intro c _ _ n _ hm
    unfold Kernel.Missed Kernel.lastEnd at hm
    rw [hended, Option.getD_none, hstart] at hm
    exact hm rfl
  case edge =>
    intro prev hp n _ hb
    rw [hprev prev hp] at hb
    exact absurd rfl hb
  case fired =>
    intro p _ e _ hd
    obtain ⟨prev, hp, hb⟩ := bits_of_edge hd
    rw [hprev prev hp] at hb
    exact absurd rfl hb
  case ran =>
    intro p hp
    rw [hseq, hended]
    constructor
    · exact fun h => absurd h (Finset.notMem_empty _)
    · rintro (h | h)
      · exact absurd rfl h
      · exact absurd h (hno p hp)

end Veriforge.Sched

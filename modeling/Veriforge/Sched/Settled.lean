import Veriforge.Sched.CommitOrder

/-! # What a time step leaves behind

A time step of the reference scheduler that returns has an empty queue and nobody due, because its
last region left nothing dirty (`RefTracked`). Its assigns hold as well, provided that the scheduler
sees what they change and that its passes reach one without a change: the loop around them stops
after `delta_limit` passes in any case. -/

namespace Veriforge.Sched

open Design

variable {Name : Type} [DecidableEq Name]

namespace Continuous

/-- The target equals the right-hand side: evaluating the assign changes nothing. -/
def Holds (a : Continuous Name) (σ : Store Name) : Prop := ∀ n, (a.after σ n).bits = (σ n).bits

/-- Whether the assign holds depends on the names collected from its right-hand side and on its
target. -/
def Covers (a : Continuous Name) : Prop :=
  ∀ σ σ' : Store Name, (∀ n ∈ a.sens, (σ n).bits = (σ' n).bits) →
    (∀ n, a.Writes n → (σ n).bits = (σ' n).bits) → a.Holds σ → a.Holds σ'

/-- After an evaluation without a change that the scheduler sees, the assign holds. -/
def Stable (a : Continuous Name) : Prop := ∀ σ, a.observes σ = false → a.Holds (a.after σ)

end Continuous

/-- Evaluated in `σ`, the events of a step write and queue nothing that an assign drives. -/
def Design.EventsApart (D : Design Name) (es : List (Store Name → Effect Name)) : Prop :=
  ∀ e ∈ es, ∀ σ, ∀ a ∈ D.assigns, ∀ n, a.Writes n → n ∉ (e σ).writes.map (·.1) ∧ n ∉ (e σ).queued.map (·.name)

/-- The regions of one delta loop, from its first one on. -/
inductive Design.Rounds (D : Design Name) (limit : Nat) (K₀ : Kernel Name) (ts₀ : List (Task Name)) :
    Kernel Name → List (Task Name) → Prop where
  | start : Rounds D limit K₀ ts₀ K₀ ts₀
  | round {K : Kernel Name} {ts : List (Task Name)} (h : Rounds D limit K₀ ts₀ K ts)
      (hbusy : busy (D.runActiveRegion limit K ts) = true) :
      Rounds D limit K₀ ts₀ (D.commit limit (D.runActiveRegion limit K ts)).1
        ((D.commit limit (D.runActiveRegion limit K ts)).2.map .block)

/-- In the step every propagation sees what the assigns change and ends before its limit. -/
structure StepPropagates (D : Design Name) (limit : Nat) (σ : Store Name)
    (es : List (Store Name → Effect Name)) : Prop where
  region : ∀ K ts, D.Rounds limit (atStep σ) (es.map .event) K ts →
    D.Seen limit (runTasks K ts).store ((runTasks K ts).dirty D) ∧
      D.Converges limit (runTasks K ts).store ((runTasks K ts).dirty D)
  commit : ∀ K ts, D.Rounds limit (atStep σ) (es.map .event) K ts →
    busy (D.runActiveRegion limit K ts) = true →
    D.Seen limit (applyNba (D.runActiveRegion limit K ts).store (D.runActiveRegion limit K ts).queue).1
        (applyNba (D.runActiveRegion limit K ts).store (D.runActiveRegion limit K ts).queue).2 ∧
      D.Converges limit (applyNba (D.runActiveRegion limit K ts).store (D.runActiveRegion limit K ts).queue).1
        (applyNba (D.runActiveRegion limit K ts).store (D.runActiveRegion limit K ts).queue).2

/-- What the end of a time step is: no update is queued, every assign holds, and no block is due. -/
structure Settled (D : Design Name) (K : Kernel Name) : Prop where
  queue : K.queue = []
  assigns : ∀ a ∈ D.assigns, a.Holds K.store
  noneDue : NoneDue D K

variable {D : Design Name}

/-! ## The assigns after a propagation -/

/-- Each assign holds or is going to be evaluated. -/
def Pending (D : Design Name) (σ : Store Name) (dirty : Finset Name) : Prop :=
  ∀ a ∈ D.assigns, a.Holds σ ∨ (a.sens ∩ dirty).Nonempty

theorem Design.eq_of_assign_id (D : Design Name) {a b : Continuous Name} (ha : a ∈ D.assigns)
    (hb : b ∈ D.assigns) (h : a.id = b.id) : a = b :=
  List.inj_on_of_nodup_map (List.nodup_append.mp D.ids_nodup).1 ha hb h

theorem Design.Watched.assign {a : Continuous Name} (ha : a ∈ D.assigns) {n : Name} (hn : n ∈ a.sens) : D.Watched n :=
  Or.inl ⟨a, ha, hn⟩

/-- An assign that holds keeps holding when another one is evaluated, unless one of its inputs is
seen to change. -/
theorem holds_after_other (hD : D.SoleWriters) {a b : Continuous Name} (ha : a ∈ D.assigns)
    (hb : b ∈ D.assigns) (hne : b ≠ a) (hcov : b.Covers) {σ : Store Name} (hsees : D.Sees a σ)
    (hold : b.Holds σ) (hseen : a.observes σ = true → ∀ n ∈ b.sens, n ∉ a.targets) : b.Holds (a.after σ) := by
  refine hcov σ (a.after σ) (fun n hn => ?_) (fun n hn => ?_) hold
  · by_contra hch
    obtain ⟨hin, hob⟩ := hsees n (Watched.assign hb hn) (Ne.symm hch)
    exact hseen hob n hn hin
  · have hno : ¬ a.Writes n := fun hw => hne (D.eq_of_assign_id hb ha (hD.assigns b hb a ha n hn hw))
    exact (congrArg Slot.bits (Continuous.after_of_not_writes hno σ)).symm

theorem pending_evaluate (hD : D.SoleWriters) (hcov : ∀ a ∈ D.assigns, a.Covers) {a : Continuous Name}
    (ha : a ∈ D.assigns) {w : Wave Name} (hsees : (a.sens ∩ w.dirty).Nonempty → D.Sees a w.store)
    (h : Pending D w.store w.dirty) : Pending D (a.evaluate w).store (a.evaluate w).dirty := by
  intro b hb
  have hsub := a.dirty_subset_evaluate w
  have hgrow : (b.sens ∩ w.dirty).Nonempty → (b.sens ∩ (a.evaluate w).dirty).Nonempty := fun hn =>
    hn.mono (Finset.inter_subset_inter_left hsub)
  rcases h b hb with hold | hn
  · by_cases hnow : (b.sens ∩ (a.evaluate w).dirty).Nonempty
    · exact Or.inr hnow
    · refine Or.inl ?_
      rcases a.evaluate_cases w with ⟨-, he⟩ | ⟨hs, ho, he⟩ | ⟨hs, ho, he⟩
      · rw [he]
        exact hold
      · have hne : b ≠ a := by
          rintro rfl
          exact hnow (hgrow hs)
        rw [he] at hnow ⊢
        refine holds_after_other hD ha hb hne (hcov b hb) (hsees hs) hold fun _ n hn hin => hnow ?_
        exact ⟨n, Finset.mem_inter.mpr ⟨hn, Finset.mem_union_right _ hin⟩⟩
      · have hne : b ≠ a := by
          rintro rfl
          exact hnow (hgrow hs)
        rw [he]
        exact holds_after_other hD ha hb hne (hcov b hb) (hsees hs) hold fun hob =>
          absurd hob (by rw [ho]; exact Bool.false_ne_true)
  · exact Or.inr (hgrow hn)

theorem pending_runAssigns (hD : D.SoleWriters) (hcov : ∀ a ∈ D.assigns, a.Covers) (as : List (Continuous Name)) :
    ∀ w : Wave Name, as ⊆ D.assigns → D.PassSees as w → Pending D w.store w.dirty →
      Pending D (runAssigns as w).store (runAssigns as w).dirty := by
  induction as with
  | nil => exact fun w _ _ h => h
  | cons a as ih =>
    intro w has hsees h
    rw [runAssigns_cons]
    exact ih _ (fun b hb => has (List.mem_cons_of_mem _ hb)) hsees.2
      (pending_evaluate hD hcov (has List.mem_cons_self) hsees.1 h)

/-- `changed` does not go back. -/
theorem changed_runAssigns (as : List (Continuous Name)) :
    ∀ w : Wave Name, w.changed = true → (runAssigns as w).changed = true := by
  induction as with
  | nil => exact fun w h => h
  | cons a as ih =>
    intro w h
    rw [runAssigns_cons]
    apply ih
    rcases a.evaluate_cases w with ⟨-, he⟩ | ⟨-, -, he⟩ | ⟨-, -, he⟩ <;> rw [he]
    · exact h
    · exact h

/-- After a pass without a change every assign holds: the ones before `as` already do. -/
theorem holds_of_unchanged (hD : D.SoleWriters) (hcov : ∀ a ∈ D.assigns, a.Covers)
    (hst : ∀ a ∈ D.assigns, a.Stable) (as : List (Continuous Name)) : ∀ w : Wave Name, as ⊆ D.assigns →
      D.PassSees as w → (runAssigns as w).changed = false →
      (∀ b ∈ D.assigns, b.Holds w.store ∨ (b ∈ as ∧ (b.sens ∩ w.dirty).Nonempty)) →
      ∀ b ∈ D.assigns, b.Holds (runAssigns as w).store := by
  induction as with
  | nil =>
    intro w _ _ _ h b hb
    rcases h b hb with hold | ⟨hin, -⟩
    · exact hold
    · exact absurd hin List.not_mem_nil
  | cons a as ih =>
    intro w has hsees hch h
    rw [runAssigns_cons] at hch ⊢
    have ha : a ∈ D.assigns := has List.mem_cons_self
    refine ih _ (fun b hb => has (List.mem_cons_of_mem _ hb)) hsees.2 hch ?_
    intro b hb
    rcases a.evaluate_cases w with ⟨hs, he⟩ | ⟨hs, ho, he⟩ | ⟨hs, ho, he⟩
    · rw [he]
      rcases h b hb with hold | ⟨hin, hn⟩
      · exact Or.inl hold
      · rcases List.mem_cons.mp hin with rfl | hin
        · exact absurd hn hs
        · exact Or.inr ⟨hin, hn⟩
    · rw [he, changed_runAssigns as _ rfl] at hch
      exact absurd hch.symm Bool.false_ne_true
    · rw [he]
      by_cases hba : b = a
      · subst hba
        exact Or.inl (hst b ha w.store ho)
      · rcases h b hb with hold | ⟨hin, hn⟩
        · refine Or.inl (holds_after_other hD ha hb hba (hcov b hb) (hsees.1 hs) hold fun hob => ?_)
          exact absurd hob (by rw [ho]; exact Bool.false_ne_true)
        · exact Or.inr ⟨(List.mem_cons.mp hin).resolve_left hba, hn⟩

/-- A propagation that ends before its limit leaves every assign holding. -/
theorem holds_propagate (hD : D.SoleWriters) (hcov : ∀ a ∈ D.assigns, a.Covers)
    (hst : ∀ a ∈ D.assigns, a.Stable) {k : Nat} {σ : Store Name} {dirty : Finset Name}
    (hseen : D.Seen k σ dirty) (hconv : D.Converges k σ dirty) (h : Pending D σ dirty) :
    ∀ a ∈ D.assigns, a.Holds (D.propagate k σ dirty).1 := by
  induction k generalizing σ dirty with
  | zero => exact hconv.elim
  | succ k ih =>
    rw [propagate]
    split
    · next hc =>
      exact ih (hseen.2 hc) (hconv hc)
        (pending_runAssigns hD hcov D.assigns ⟨σ, dirty, false⟩ (List.Subset.refl _) hseen.1 h)
    · next hc =>
      refine holds_of_unchanged hD hcov hst D.assigns ⟨σ, dirty, false⟩ (List.Subset.refl _) hseen.1
        (Bool.not_eq_true _ ▸ hc) fun b hb => ?_
      exact (h b hb).imp_right fun hn => ⟨hb, hn⟩

/-! ## Processes and updates leave the targets of assigns alone -/

/-- No queued update is for the target of an assign. -/
def QueueApart (D : Design Name) (queue : List (Update Name)) : Prop :=
  ∀ u ∈ queue, ∀ a ∈ D.assigns, ¬ a.Writes u.name

/-- What a process of a region writes and queues. -/
def Task.effect : Task Name → Store Name → Effect Name
  | .event body => body
  | .block p => p.body

/-- The process writes and queues nothing that an assign drives. -/
def TaskApart (D : Design Name) (t : Task Name) : Prop :=
  ∀ σ, ∀ a ∈ D.assigns, ∀ n, a.Writes n → n ∉ (t.effect σ).writes.map (·.1) ∧ n ∉ (t.effect σ).queued.map (·.name)

theorem taskApart_block (hD : D.SoleWriters) {p : Always Name} (hp : p ∈ D.combos ++ D.seqs) :
    TaskApart D (.block p) := by
  intro σ a ha n han
  constructor
  · exact fun hin => hD.across a ha p hp n han ⟨σ, Or.inl hin⟩
  · exact fun hin => hD.across a ha p hp n han ⟨σ, Or.inr hin⟩

theorem runTasks_apart {ts : List (Task Name)} (hts : ∀ t ∈ ts, TaskApart D t) {K : Kernel Name}
    (hq : QueueApart D K.queue) :
    (∀ a ∈ D.assigns, ∀ n, a.Writes n → (runTasks K ts).store n = K.store n) ∧
      QueueApart D (runTasks K ts).queue := by
  have hrun : ∀ (r : Region Name) (t : Task Name), (r.run t).store = writeAll r.store (t.effect r.store).writes ∧
      (r.run t).queue = r.queue ++ (t.effect r.store).queued := by
    intro r t
    cases t with
    | event body => exact ⟨Region.execute_store r _, rfl⟩
    | block p => exact ⟨Region.execute_store r _, rfl⟩
  have hall : ∀ (ts : List (Task Name)) (r : Region Name), (∀ t ∈ ts, TaskApart D t) → QueueApart D r.queue →
      (∀ a ∈ D.assigns, ∀ n, a.Writes n → (ts.foldl Region.run r).store n = r.store n) ∧
        QueueApart D (ts.foldl Region.run r).queue := by
    intro ts
    induction ts with
    | nil => exact fun r _ hq => ⟨fun _ _ _ _ => rfl, hq⟩
    | cons t ts ih =>
      intro r hts hq
      have ht := hts t List.mem_cons_self
      obtain ⟨hstore, hqueue⟩ := hrun r t
      have hq' : QueueApart D (r.run t).queue := by
        rw [hqueue]
        intro u hu a ha han
        rcases List.mem_append.mp hu with hu | hu
        · exact hq u hu a ha han
        · exact (ht r.store a ha u.name han).2 (List.mem_map_of_mem hu)
      obtain ⟨hs, hqs⟩ := ih (r.run t) (fun t ht => hts t (List.mem_cons_of_mem _ ht)) hq'
      refine ⟨fun a ha n han => ?_, hqs⟩
      rw [List.foldl_cons, hs a ha n han, hstore, writeAll_of_notMem (ht r.store a ha n han).1]
  exact hall ts ⟨K.store, K.queue, [], fun _ => none, fun _ => none⟩ hts hq

theorem applyNba_apart {queue : List (Update Name)} (hq : QueueApart D queue) {a : Continuous Name}
    (ha : a ∈ D.assigns) {n : Name} (han : a.Writes n) (σ : Store Name) : (applyNba σ queue).1 n = σ n := by
  have hall : ∀ (us : List (Update Name)) (p : Store Name × Finset Name), QueueApart D us →
      (us.foldl applyUpdate p).1 n = p.1 n := by
    intro us
    induction us with
    | nil => exact fun p _ => rfl
    | cons u us ih =>
      intro p hus
      have hne : n ≠ u.name := fun he => hus u List.mem_cons_self a ha (he ▸ han)
      rw [List.foldl_cons, ih _ fun v hv => hus v (List.mem_cons_of_mem _ hv)]
      unfold applyUpdate
      split
      · exact Function.update_of_ne hne _ _
      · rfl
  exact hall queue (σ, ∅) hq

/-- Assigns that hold are pending when what changed is dirty and their targets are as they were. -/
theorem pending_of_changed (hcov : ∀ a ∈ D.assigns, a.Covers) {σ σ' : Store Name} {dirty : Finset Name}
    (hold : ∀ a ∈ D.assigns, a.Holds σ) (hch : ∀ n, (σ' n).bits ≠ (σ n).bits → n ∈ dirty)
    (htargets : ∀ a ∈ D.assigns, ∀ n, a.Writes n → (σ' n).bits = (σ n).bits) : Pending D σ' dirty := by
  intro a ha
  by_cases hn : (a.sens ∩ dirty).Nonempty
  · exact Or.inr hn
  · refine Or.inl (hcov a ha σ σ' (fun n hns => ?_) (fun n han => ?_) (hold a ha))
    · by_contra hne
      exact hn ⟨n, Finset.mem_inter.mpr ⟨hns, hch n (Ne.symm hne)⟩⟩
    · exact (htargets a ha n han).symm

/-! ## The time step -/

/-- What holds before each region of the step. -/
structure BeforeRegion (D : Design Name) (K : Kernel Name) (ts : List (Task Name)) : Prop where
  ready : RefReady D K ts
  assigns : ∀ a ∈ D.assigns, a.Holds K.store
  queue : QueueApart D K.queue
  tasks : ∀ t ∈ ts, TaskApart D t

/-- What holds after each region of the step. -/
structure AfterRegion (D : Design Name) (K : Kernel Name) : Prop where
  tracked : RefTracked D K
  assigns : ∀ a ∈ D.assigns, a.Holds K.store
  queue : QueueApart D K.queue

theorem BeforeRegion.region (hD : D.SoleWriters) (hcov : ∀ a ∈ D.assigns, a.Covers)
    (hst : ∀ a ∈ D.assigns, a.Stable) {limit : Nat} {K : Kernel Name} {ts : List (Task Name)}
    (h : BeforeRegion D K ts) (hseen : D.RegionSeen limit K ts)
    (hconv : D.Converges limit (runTasks K ts).store ((runTasks K ts).dirty D)) :
    AfterRegion D (D.runActiveRegion limit K ts) := by
  obtain ⟨hstore, hqueue⟩ := runTasks_apart h.tasks h.queue
  refine ⟨h.ready.region hD hseen, ?_, hqueue⟩
  rw [runActiveRegion_store]
  exact holds_propagate hD hcov hst hseen hconv
    (pending_of_changed hcov h.assigns (fun n hn => (sound_runTasks K ts).mem_dirty hn)
      fun a ha n han => congrArg Slot.bits (hstore a ha n han))

theorem AfterRegion.commit (hD : D.SoleWriters) (hcov : ∀ a ∈ D.assigns, a.Covers)
    (hst : ∀ a ∈ D.assigns, a.Stable) {limit : Nat} {K : Kernel Name} (h : AfterRegion D K)
    (hseen : D.CommitSeen limit K)
    (hconv : D.Converges limit (applyNba K.store K.queue).1 (applyNba K.store K.queue).2) :
    BeforeRegion D (D.commit limit K).1 ((D.commit limit K).2.map .block) := by
  have hready := h.tracked.commit hseen
  refine ⟨hready, ?_, ?_, ?_⟩
  · rw [commit_eq]
    exact holds_propagate hD hcov hst hseen hconv
      (pending_of_changed hcov h.assigns (fun n hn => mem_applyNba hn)
        fun a ha n han => congrArg Slot.bits (applyNba_apart h.queue ha han K.store))
  · rw [commit_eq]
    exact fun u hu => absurd hu List.not_mem_nil
  · intro t ht
    obtain ⟨p, hp, rfl⟩ := List.mem_map.mp ht
    exact taskApart_block hD (hready.blocks.1 hp)

/-- The loop of a step ends after one of its regions. -/
theorem exists_rounds {limit : Nat} {K₀ : Kernel Name} {ts₀ : List (Task Name)} {fuel : Nat} {K : Kernel Name}
    (h : D.deltaLoop false limit fuel (D.runActiveRegion limit K₀ ts₀) = some K) :
    (∃ K₁ ts, D.Rounds limit K₀ ts₀ K₁ ts ∧ K = D.runActiveRegion limit K₁ ts) ∧ busy K = false := by
  refine deltaLoop_induct (P := fun K => ∃ K₁ ts, D.Rounds limit K₀ ts₀ K₁ ts ∧ K = D.runActiveRegion limit K₁ ts)
    ?_ h ⟨K₀, ts₀, Rounds.start, rfl⟩
  rintro K ⟨K₁, ts, hr, rfl⟩ hbusy
  exact ⟨_, _, Rounds.round hr hbusy, deltaCycle_eq false limit _⟩

/-- Every time step that returns ends settled: in a design where each variable has one writer and an
assign depends on what is collected from it, when the step's propagations see what the assigns change
and end before their limit. -/
theorem runSingleStep_settled (D : Design Name) (limit : Nat) (σ : Store Name)
    (es : List (Store Name → Effect Name)) (hD : D.SoleWriters) (hes : D.EventsApart es)
    (hcov : ∀ a ∈ D.assigns, a.Covers) (hst : ∀ a ∈ D.assigns, a.Stable) (hprop : StepPropagates D limit σ es)
    (hold : ∀ a ∈ D.assigns, a.Holds σ) (K : Kernel Name) (h : D.runSingleStep limit σ es = some K) :
    Settled D K := by
  obtain ⟨⟨K₁, ts, hr, rfl⟩, hidle⟩ := exists_rounds h
  have hbefore : ∀ K ts, D.Rounds limit (atStep σ) (es.map .event) K ts → BeforeRegion D K ts := by
    intro K ts hr
    induction hr with
    | start =>
        refine ⟨?_, hold, fun u hu => absurd hu List.not_mem_nil, ?_⟩
        · exact refReady_of_fresh (Or.inr ⟨es, rfl⟩) rfl (fun _ h => (Option.some.inj h).symm) (fun _ => rfl) rfl
        · intro t ht
          obtain ⟨e, he, rfl⟩ := List.mem_map.mp ht
          exact hes e he
    | round hr hbusy ih =>
        obtain ⟨hseen, hconv⟩ := hprop.region _ _ hr
        obtain ⟨hseen', hconv'⟩ := hprop.commit _ _ hr hbusy
        exact (ih.region hD hcov hst hseen hconv).commit hD hcov hst hseen' hconv'
  obtain ⟨hseen, hconv⟩ := hprop.region _ _ hr
  obtain ⟨htracked, hassigns, -⟩ := (hbefore K₁ ts hr).region hD hcov hst hseen hconv
  rw [busy, Bool.or_eq_false_iff, decide_eq_false_iff_not, Finset.not_nonempty_iff_eq_empty] at hidle
  refine ⟨?_, hassigns, ?_, ?_⟩
  · simpa using hidle.2
  · intro c hc n hn hm
    have hin := (htracked.combo c hc n hn hm).1
    rw [hidle.1] at hin
    exact absurd hin (Finset.notMem_empty _)
  · intro p hp e he hd
    rcases htracked.fired p hp e he hd with hin | hin
    · rw [hidle.1] at hin
      exact absurd hin (Finset.notMem_empty _)
    · exact (htracked.ran p hp).mp hin

/-! ## A left-hand side that is not read back -/

/-- A driver and two wires. -/
inductive Net where
  | a
  | v
  | w
  deriving DecidableEq

/-- `assign v = a;` and `assign w = v;`, where `v` may be written as `v[0 +: 1]`: `_read_lhs` knows no
part selects. -/
def chain (whole : Bool) : Design Net where
  memory := fun _ => false
  assigns :=
    [⟨1, {.a}, {.v}, fun σ => if whole then some (σ .v).bits else none, fun σ => [(.v, σ .a)]⟩,
      ⟨2, {.v}, {.w}, fun σ => some (σ .w).bits, fun σ => [(.w, σ .v)]⟩]
  combos := []
  seqs := []
  ids_nodup := by simp

/-- Every net is 0. -/
def netsLow : Store Net := fun _ => bitSlot false

/-- The event that drives `a` to 1. -/
def raiseA : Store Net → Effect Net := fun _ => ⟨[(.a, bitSlot true)], []⟩

theorem chain_writes {whole : Bool} {b : Continuous Net} (hb : b ∈ (chain whole).assigns) {n : Net}
    (h : b.Writes n) : (b.id = 1 ∧ n = .v) ∨ (b.id = 2 ∧ n = .w) := by
  simp only [chain, List.mem_cons, List.not_mem_nil, or_false] at hb
  rcases hb with rfl | rfl <;> obtain ⟨σ, hn⟩ := h <;> simpa using hn

theorem chain_soleWriters (whole : Bool) : (chain whole).SoleWriters := by
  constructor
  case assigns =>
    intro b hb c hc n hn hm
    rcases chain_writes hb hn with ⟨hi, hv⟩ | ⟨hi, hv⟩ <;> rcases chain_writes hc hm with ⟨hj, hw⟩ | ⟨hj, hw⟩ <;>
      rw [hi, hj] <;> rw [hv] at hw <;> exact nomatch hw
  case blocks => exact fun p hp => absurd hp List.not_mem_nil
  case across => exact fun _ _ p hp => absurd hp List.not_mem_nil

theorem chain_eventsApart (whole : Bool) : (chain whole).EventsApart [raiseA] := by
  intro e he σ b hb n hn
  obtain rfl := List.mem_singleton.mp he
  rcases chain_writes hb hn with ⟨-, rfl⟩ | ⟨-, rfl⟩ <;> simp [raiseA]

theorem chain_holds (whole : Bool) : ∀ b ∈ (chain whole).assigns, b.Holds netsLow := by
  intro b hb n
  simp only [chain, List.mem_cons, List.not_mem_nil, or_false] at hb
  rcases hb with rfl | rfl <;> cases n <;> rfl

/-- The step that drives `a` ends with `v` at 1 and `w` at 0. -/
theorem chain_unsettled :
    ¬ ∀ (D : Design Net) (limit : Nat) (σ : Store Net) (es : List (Store Net → Effect Net)) (K : Kernel Net),
        D.SoleWriters → D.EventsApart es → (∀ a ∈ D.assigns, a.Holds σ) → D.runSingleStep limit σ es = some K →
          Settled D K := by
  intro h
  have hret : ((chain false).runSingleStep 100 netsLow [raiseA]).isSome = true := by decide
  obtain ⟨K, hK⟩ := Option.isSome_iff_exists.mp hret
  have hv : ((chain false).runSingleStep 100 netsLow [raiseA]).map (fun K => (K.store .v).bits) = some [(1, 0)] := by
    decide
  have hw : ((chain false).runSingleStep 100 netsLow [raiseA]).map (fun K => (K.store .w).bits) = some [(0, 0)] := by
    decide
  rw [hK] at hv hw
  have hset := h _ _ _ _ K (chain_soleWriters false) (chain_eventsApart false) (chain_holds false) hK
  have hassign := hset.assigns _ (List.mem_cons_of_mem _ List.mem_cons_self) .w
  have hbits : (K.store .v).bits = (K.store .w).bits := hassign
  have hv : (K.store .v).bits = [(1, 0)] := Option.some.inj hv
  have hw : (K.store .w).bits = [(0, 0)] := Option.some.inj hw
  rw [hv, hw] at hbits
  exact absurd hbits (by decide)

theorem chain_readable : (chain true).Readable := by
  intro b hb σ n _ hn
  simp only [chain, List.mem_cons, List.not_mem_nil, or_false] at hb
  rcases hb with rfl | rfl
  · cases n with
    | v => exact ⟨Finset.mem_singleton_self _, decide_eq_true (Ne.symm hn)⟩
    | a => exact absurd rfl hn
    | w => exact absurd rfl hn
  · cases n with
    | w => exact ⟨Finset.mem_singleton_self _, decide_eq_true (Ne.symm hn)⟩
    | a => exact absurd rfl hn
    | v => exact absurd rfl hn

theorem chain_covers : ∀ b ∈ (chain true).assigns, b.Covers := by
  intro b hb σ σ' hin hout hold n
  have hn := hold n
  simp only [chain, List.mem_cons, List.not_mem_nil, or_false] at hb
  rcases hb with rfl | rfl
  · cases n with
    | v => exact ((hin .a (Finset.mem_singleton_self _)).symm.trans hn).trans (hout .v ⟨σ, List.mem_cons_self⟩)
    | a => rfl
    | w => rfl
  · cases n with
    | w => exact ((hin .v (Finset.mem_singleton_self _)).symm.trans hn).trans (hout .w ⟨σ, List.mem_cons_self⟩)
    | a => rfl
    | v => rfl

theorem chain_stable : ∀ b ∈ (chain true).assigns, b.Stable := by
  intro b hb σ _ n
  simp only [chain, List.mem_cons, List.not_mem_nil, or_false] at hb
  rcases hb with rfl | rfl <;> cases n <;> rfl

/-- The regions of the step that drives `a`: the one with the event and an empty one. -/
theorem chain_rounds {K : Kernel Net} {ts : List (Task Net)}
    (h : (chain true).Rounds 100 (atStep netsLow) [.event raiseA] K ts) :
    (K = atStep netsLow ∧ ts = [.event raiseA]) ∨
      (K = ((chain true).commit 100 ((chain true).runActiveRegion 100 (atStep netsLow) [.event raiseA])).1 ∧
        ts = []) := by
  induction h with
  | start => exact Or.inl ⟨rfl, rfl⟩
  | round h hbusy ih =>
    rcases ih with ⟨rfl, rfl⟩ | ⟨rfl, rfl⟩
    · exact Or.inr ⟨rfl, rfl⟩
    · exact absurd hbusy (by decide)

theorem chain_stepPropagates : StepPropagates (chain true) 100 netsLow [raiseA] := by
  constructor
  case region =>
    intro K ts h
    refine ⟨chain_readable.seen _ _ _, ?_⟩
    rcases chain_rounds h with ⟨rfl, rfl⟩ | ⟨rfl, rfl⟩
    · exact fun _ hc => absurd hc (by decide)
    · exact fun hc => absurd hc (by decide)
  case commit =>
    intro K ts h hbusy
    refine ⟨chain_readable.seen _ _ _, ?_⟩
    rcases chain_rounds h with ⟨rfl, rfl⟩ | ⟨rfl, rfl⟩
    · exact fun hc => absurd hc (by decide)
    · exact absurd hbusy (by decide)

theorem runSingleStep_settled_chain :
    ∃ K, (chain true).runSingleStep 100 netsLow [raiseA] = some K ∧ Settled (chain true) K := by
  have hret : ((chain true).runSingleStep 100 netsLow [raiseA]).isSome = true := by decide
  obtain ⟨K, hK⟩ := Option.isSome_iff_exists.mp hret
  exact ⟨K, hK, runSingleStep_settled (chain true) 100 netsLow [raiseA] (chain_soleWriters true)
    (chain_eventsApart true) chain_covers chain_stable chain_stepPropagates (chain_holds true) K hK⟩

end Veriforge.Sched

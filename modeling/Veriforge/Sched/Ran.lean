import Veriforge.Sched.VmTracking

/-! # What a list of blocks computes

The two kernels run the blocks of a list one after the other, each on what the ones before it left.
They store differently (the VM keeps the old object of a signal whose value does not change), so what
they have in common is said of the values: `Ran`. The updates a list queues are committed name by
name, in the order in which they were queued. -/

namespace Veriforge.Sched

variable {Name : Type}

/-- The two stores hold the same values. -/
def Same (σ τ : Store Name) : Prop := ∀ n, (σ n).bits = (τ n).bits

theorem Same.refl (σ : Store Name) : Same σ σ := fun _ => rfl

theorem Same.symm {σ τ : Store Name} (h : Same σ τ) : Same τ σ := fun n => (h n).symm

theorem Same.trans {σ τ ρ : Store Name} (h : Same σ τ) (h' : Same τ ρ) : Same σ ρ := fun n => (h n).trans (h' n)

variable [DecidableEq Name]

theorem Same.update {σ τ : Store Name} (h : Same σ τ) (n : Name) {s s' : Slot} (hs : s.bits = s'.bits) :
    Same (Function.update σ n s) (Function.update τ n s') := by
  intro m
  by_cases hm : m = n
  · subst hm
    rw [Function.update_self, Function.update_self, hs]
  · rw [Function.update_of_ne hm, Function.update_of_ne hm, h m]

/-! ## Updates -/

/-- What becomes of the slot under `n` when the queue is committed. -/
def afterUpdates (σ : Store Name) (queue : List (Update Name)) (n : Name) : Slot :=
  (queue.filter fun u => decide (u.name = n)).foldl (fun s u => u.commit s) (σ n)

/-- Two updates of one name that make the same of equal values. -/
def Update.Same (u v : Update Name) : Prop :=
  u.name = v.name ∧ ∀ s s' : Slot, s.bits = s'.bits → (u.commit s).bits = (v.commit s').bits

/-- Without an update for the name its slot stays. -/
theorem afterUpdates_of_notMem {queue : List (Update Name)} {n : Name} (h : ∀ u ∈ queue, u.name ≠ n)
    (σ : Store Name) : afterUpdates σ queue n = σ n := by
  rw [afterUpdates, List.filter_eq_nil_iff.mpr fun u hu => by simpa using h u hu]
  rfl

theorem foldl_commit_congr {us vs : List (Update Name)} (h : List.Forall₂ Update.Same us vs) :
    ∀ {s s' : Slot}, s.bits = s'.bits →
      (us.foldl (fun s u => u.commit s) s).bits = (vs.foldl (fun s u => u.commit s) s').bits := by
  induction h with
  | nil => exact fun hs => hs
  | cons hu _ ih => exact fun hs => ih (hu.2 _ _ hs)

theorem forall₂_filter_name {us vs : List (Update Name)} (h : List.Forall₂ Update.Same us vs) (n : Name) :
    List.Forall₂ Update.Same (us.filter fun u => decide (u.name = n)) (vs.filter fun u => decide (u.name = n)) := by
  induction h with
  | nil => exact List.Forall₂.nil
  | @cons u v us vs hu _ ih =>
    rw [List.filter_cons, List.filter_cons, hu.1]
    split
    · exact List.Forall₂.cons hu ih
    · exact ih

/-- Equal values and updates that do the same are committed to equal values. -/
theorem afterUpdates_congr {σ τ : Store Name} {us vs : List (Update Name)} (h : List.Forall₂ Update.Same us vs)
    {n : Name} (hn : (σ n).bits = (τ n).bits) : (afterUpdates σ us n).bits = (afterUpdates τ vs n).bits :=
  foldl_commit_congr (forall₂_filter_name h n) hn

/-- A loop over the queue that commits one update after the other, whatever object it keeps where
nothing changes. -/
theorem foldl_eq_afterUpdates {f : Store Name × Finset Name → Update Name → Store Name × Finset Name}
    (hf : ∀ p u n, ((f p u).1 n).bits = if u.name = n then (u.commit (p.1 n)).bits else (p.1 n).bits)
    {queue : List (Update Name)} (hq : ∀ u ∈ queue, u.Same u) (p : Store Name × Finset Name) (n : Name) :
    ((queue.foldl f p).1 n).bits = (afterUpdates p.1 queue n).bits := by
  have hall : ∀ (us : List (Update Name)) (p : Store Name × Finset Name) (s : Slot), (∀ u ∈ us, u.Same u) →
      (p.1 n).bits = s.bits → ((us.foldl f p).1 n).bits
        = ((us.filter fun u => decide (u.name = n)).foldl (fun s u => u.commit s) s).bits := by
    intro us
    induction us with
    | nil => exact fun p s _ hs => hs
    | cons u us ih =>
      intro p s hus hs
      have htail : ∀ v ∈ us, v.Same v := fun v hv => hus v (List.mem_cons_of_mem _ hv)
      rw [List.foldl_cons]
      by_cases hu : u.name = n
      · rw [List.filter_cons_of_pos (by simpa using hu), List.foldl_cons]
        refine ih _ _ htail ?_
        rw [hf, if_pos hu]
        exact (hus u List.mem_cons_self).2 _ _ hs
      · rw [List.filter_cons_of_neg (by simpa using hu)]
        refine ih _ _ htail ?_
        rw [hf, if_neg hu]
        exact hs
  exact hall queue p (p.1 n) hq rfl

/-- A loop that skips the updates that change no bit commits each update to the slot of its name. -/
theorem bits_applyUpdate {p p' : Store Name × Finset Name} {u : Update Name}
    (h : p'.1 = Function.update p.1 u.name (u.commit (p.1 u.name)) ∨
      p' = p ∧ (u.commit (p.1 u.name)).bits = (p.1 u.name).bits) (n : Name) :
    (p'.1 n).bits = if u.name = n then (u.commit (p.1 n)).bits else (p.1 n).bits := by
  by_cases hn : u.name = n
  · subst hn
    rw [if_pos rfl]
    rcases h with h | ⟨rfl, hsame⟩
    · rw [h, Function.update_self]
    · exact hsame.symm
  · rw [if_neg hn]
    rcases h with h | ⟨rfl, -⟩
    · rw [h, Function.update_of_ne (Ne.symm hn)]
    · rfl

theorem applyNba_bits {queue : List (Update Name)} (hq : ∀ u ∈ queue, u.Same u) (σ : Store Name) (n : Name) :
    ((applyNba σ queue).1 n).bits = (afterUpdates σ queue n).bits := by
  refine foldl_eq_afterUpdates (f := applyUpdate) (fun p u n => bits_applyUpdate ?_ n) hq (σ, ∅) n
  unfold applyUpdate
  split
  · exact Or.inl rfl
  · next h => exact Or.inr ⟨rfl, not_not.mp h⟩

theorem vmApplyNbas_bits (D : Design Name) {queue : List (Update Name)} (hq : ∀ u ∈ queue, u.Same u)
    (σ : Store Name) (n : Name) : ((vmApplyNbas D σ queue).1 n).bits = (afterUpdates σ queue n).bits := by
  refine foldl_eq_afterUpdates (f := vmApplyUpdate D) (fun p u n => bits_applyUpdate ?_ n) hq (σ, ∅) n
  unfold vmApplyUpdate
  split
  · exact Or.inl rfl
  · next h => exact Or.inr ⟨rfl, not_not.mp (not_or.mp h).2⟩

/-! ## Effects -/

/-- Two effects that write the same values and queue the same updates. -/
structure Effect.Same (e e' : Effect Name) : Prop where
  writes : List.Forall₂ (fun w w' => w.1 = w'.1 ∧ w.2.bits = w'.2.bits) e.writes e'.writes
  queued : List.Forall₂ Update.Same e.queued e'.queued

/-- The block has equal effects on equal stores. -/
def Always.Congr (p : Always Name) : Prop := ∀ σ τ, Sched.Same σ τ → (p.body σ).Same (p.body τ)

theorem Always.Congr.queued {p : Always Name} (h : p.Congr) {σ : Store Name} {u : Update Name}
    (hu : u ∈ (p.body σ).queued) : u.Same u :=
  (List.forall₂_same.mp (h σ σ (Same.refl σ)).queued) u hu

theorem writeAll_congr {ws ws' : List (Name × Slot)}
    (h : List.Forall₂ (fun w w' => w.1 = w'.1 ∧ w.2.bits = w'.2.bits) ws ws') :
    ∀ {σ τ : Store Name}, Same σ τ → Same (writeAll σ ws) (writeAll τ ws') := by
  induction h with
  | nil => exact fun hs => hs
  | @cons w w' ws ws' hw _ ih =>
    intro σ τ hs
    rw [writeAll_cons, writeAll_cons, hw.1]
    exact ih (hs.update _ hw.2)

/-- The VM's stores leave the same values. -/
theorem vmExecute_same (ws : List (Name × Slot)) :
    ∀ {p : Store Name × Finset Name} {τ : Store Name}, Same p.1 τ → Same (vmExecute p ws).1 (writeAll τ ws) := by
  induction ws with
  | nil => exact fun hs => hs
  | cons w ws ih =>
    intro p τ hs
    change Same (vmExecute (vmWrite p w) ws).1 (writeAll (Function.update τ w.1 w.2) ws)
    refine ih ?_
    unfold vmWrite
    split
    · exact hs.update _ rfl
    · next h =>
      intro m
      by_cases hm : m = w.1
      · subst hm
        rw [Function.update_self, not_not.mp h]
      · rw [Function.update_of_ne hm, hs m]

/-! ## Blocks one after the other -/

/-- The blocks ran one after the other from `σ`; they left the values of `τ` and the queue, and each
ended in the store that `ended` gives. -/
inductive Ran (σ : Store Name) : List (Always Name) → Store Name → List (Update Name) →
    (Nat → Option (Store Name)) → Prop where
  | nil : Ran σ [] σ [] fun _ => none
  | snoc {ps : List (Always Name)} {τ : Store Name} {queue : List (Update Name)} {ended : Nat → Option (Store Name)}
      (h : Ran σ ps τ queue ended) (p : Always Name) {τ' : Store Name}
      (hτ : Same τ' (writeAll τ (p.body τ).writes)) :
      Ran σ (ps ++ [p]) τ' (queue ++ (p.body τ).queued) (Function.update ended p.id (some τ'))

theorem Ran.snoc_inv {σ τ' : Store Name} {ps : List (Always Name)} {p : Always Name} {queue' : List (Update Name)}
    {ended' : Nat → Option (Store Name)} (h : Ran σ (ps ++ [p]) τ' queue' ended') :
    ∃ τ queue ended, Ran σ ps τ queue ended ∧ Same τ' (writeAll τ (p.body τ).writes) ∧
      queue' = queue ++ (p.body τ).queued ∧ ended' = Function.update ended p.id (some τ') := by
  generalize hl : ps ++ [p] = l at h
  cases h with
  | nil => exact absurd hl (by simp)
  | snoc h q hτ =>
    obtain ⟨rfl, hq⟩ := List.append_inj' hl rfl
    obtain rfl : p = q := by simpa using hq
    exact ⟨_, _, _, h, hτ, rfl, rfl⟩

theorem Ran.nil_inv {σ τ : Store Name} {queue : List (Update Name)} {ended : Nat → Option (Store Name)}
    (h : Ran σ [] τ queue ended) : τ = σ ∧ queue = [] := by
  generalize hl : ([] : List (Always Name)) = l at h
  cases h with
  | nil => exact ⟨rfl, rfl⟩
  | snoc h p hτ => exact absurd hl.symm (by simp)

/-- An active region of the reference scheduler. -/
theorem ran_runTasks {K : Kernel Name} (hq : K.queue = []) (ps : List (Always Name)) :
    Ran K.store ps (Design.runTasks K (ps.map .block)).store (Design.runTasks K (ps.map .block)).queue
      (Design.runTasks K (ps.map .block)).ended := by
  induction ps using List.reverseRecOn with
  | nil =>
    change Ran K.store [] K.store K.queue fun _ => none
    rw [hq]
    exact Ran.nil
  | append_singleton ps p ih =>
    have hrun : Design.runTasks K ((ps ++ [p]).map .block)
        = (Design.runTasks K (ps.map .block)).run (.block p) := by
      rw [List.map_append]
      exact List.foldl_append
    rw [hrun]
    refine Ran.snoc ih p fun n => ?_
    exact congrArg (fun σ : Store Name => (σ n).bits) (Region.execute_store _ _)

/-- A process list of the VM. -/
theorem ran_vmRunAll {K : Kernel Name} (hq : K.queue = []) (ps : List (Always Name)) :
    Ran K.store ps (Design.vmRunAll K ps).store (Design.vmRunAll K ps).queue (Design.vmRunAll K ps).ended := by
  induction ps using List.reverseRecOn with
  | nil =>
    change Ran K.store [] K.store K.queue fun _ => none
    rw [hq]
    exact Ran.nil
  | append_singleton ps p ih =>
    have hrun : Design.vmRunAll K (ps ++ [p]) = (Design.vmRunAll K ps).run p := List.foldl_append
    rw [hrun]
    exact Ran.snoc ih p (vmExecute_same _ (Same.refl _))

section

variable {σ τ : Store Name} {ps : List (Always Name)} {queue : List (Update Name)} {ended : Nat → Option (Store Name)}

/-- Every entry of the queue comes from one of the blocks. -/
theorem Ran.mem_queue (h : Ran σ ps τ queue ended) {u : Update Name} (hu : u ∈ queue) :
    ∃ p ∈ ps, ∃ ρ, u ∈ (p.body ρ).queued := by
  induction h with
  | nil => exact absurd hu List.not_mem_nil
  | snoc h p hτ ih =>
    rcases List.mem_append.mp hu with hu | hu
    · obtain ⟨q, hq, hqu⟩ := ih hu
      exact ⟨q, List.mem_append_left _ hq, hqu⟩
    · exact ⟨p, List.mem_append_right _ (List.mem_singleton_self p), _, hu⟩

/-- A name none of the blocks writes is neither stored to nor queued. -/
theorem Ran.name_ne (h : Ran σ ps τ queue ended) {n : Name} (hn : ∀ p ∈ ps, ¬ p.Writes n) {u : Update Name}
    (hu : u ∈ queue) : u.name ≠ n := by
  obtain ⟨p, hp, ρ, hρ⟩ := h.mem_queue hu
  rintro rfl
  exact hn p hp ⟨ρ, Or.inr (List.mem_map_of_mem hρ)⟩

/-- What each block keeps on equal values, the list keeps. -/
theorem Ran.invariant (h : Ran σ ps τ queue ended) {P : Store Name → Prop}
    (hsame : ∀ ρ ρ', Same ρ' ρ → P ρ → P ρ')
    (hstep : ∀ p ∈ ps, ∀ ρ, P ρ → P (writeAll ρ (p.body ρ).writes)) (h0 : P σ) : P τ := by
  induction h with
  | nil => exact h0
  | snoc h p hτ ih =>
    refine hsame _ _ hτ (hstep p (by simp) _ (ih fun q hq => hstep q (List.mem_append_left _ hq)))

theorem Ran.bits_of_not_writes (h : Ran σ ps τ queue ended) {n : Name} (hn : ∀ p ∈ ps, ¬ p.Writes n) :
    (τ n).bits = (σ n).bits := by
  refine h.invariant (P := fun ρ => (ρ n).bits = (σ n).bits) (fun ρ ρ' hs hρ => (hs n).trans hρ) ?_ rfl
  intro p hp ρ hρ
  rw [writeAll_of_notMem fun hin => hn p hp ⟨ρ, Or.inl hin⟩]
  exact hρ

theorem Ran.ended_none (h : Ran σ ps τ queue ended) {i : Nat} (hi : ∀ p ∈ ps, p.id ≠ i) : ended i = none := by
  induction h with
  | nil => rfl
  | snoc h p hτ ih =>
    rw [Function.update_of_ne (hi p (by simp)).symm]
    exact ih fun q hq => hi q (List.mem_append_left _ hq)

/-- What a block left in its region is still there at the end, and so are its updates. -/
theorem Ran.block {D : Design Name} (hD : D.SoleWriters) (h : Ran σ ps τ queue ended)
    (hsub : ps ⊆ D.combos ++ D.seqs) (hnd : (ps.map (·.id)).Nodup) {c : Always Name} (hc : c ∈ ps) :
    ∃ ρ τc, ended c.id = some τc ∧ Same τc (writeAll ρ (c.body ρ).writes) ∧ ∀ n, c.Writes n →
      (τ n).bits = (τc n).bits ∧ (queue.filter fun u => decide (u.name = n))
        = (c.body ρ).queued.filter fun u => decide (u.name = n) := by
  induction h with
  | nil => exact absurd hc List.not_mem_nil
  | @snoc ps τ queue ended h p τ' hτ ih =>
    have hps : ps ⊆ D.combos ++ D.seqs := fun q hq => hsub (List.mem_append_left _ hq)
    have hp : p ∈ D.combos ++ D.seqs := hsub (by simp)
    rw [List.map_append, List.nodup_append] at hnd
    have hnew : ∀ q ∈ ps, q.id ≠ p.id := fun q hq hqp =>
      hnd.2.2 q.id (List.mem_map_of_mem hq) p.id (by simp) hqp
    rcases List.mem_append.mp hc with hc | hc
    · obtain ⟨ρ, τc, he, hτc, hn⟩ := ih hps hnd.1 hc
      refine ⟨ρ, τc, ?_, hτc, fun n hw => ?_⟩
      · rw [Function.update_of_ne (hnew c hc)]
        exact he
      · -- `p` has another id, so it leaves what `c` writes alone
        have hno : ¬ p.Writes n := fun hpw => hnew c hc (hD.blocks c (hps hc) p hp n hw hpw)
        obtain ⟨hbits, hfilter⟩ := hn n hw
        refine ⟨?_, ?_⟩
        · rw [hτ n, writeAll_of_notMem fun hin => hno ⟨τ, Or.inl hin⟩]
          exact hbits
        · have hnone : (p.body τ).queued.filter (fun u => decide (u.name = n)) = [] := by
            refine List.filter_eq_nil_iff.mpr fun u hu => ?_
            rw [decide_eq_true_eq]
            rintro rfl
            exact hno ⟨τ, Or.inr (List.mem_map_of_mem hu)⟩
          rw [List.filter_append, hfilter, hnone, List.append_nil]
    · obtain rfl := List.mem_singleton.mp hc
      refine ⟨τ, τ', Function.update_self _ _ _, hτ, fun n hw => ⟨rfl, ?_⟩⟩
      have hno : ∀ q ∈ ps, ¬ q.Writes n := fun q hq hqw => hnew q hq (hD.blocks q (hps hq) c hp n hqw hw)
      have hnone : queue.filter (fun u => decide (u.name = n)) = [] :=
        List.filter_eq_nil_iff.mpr fun u hu => by simpa using h.name_ne hno hu
      rw [List.filter_append, hnone, List.nil_append]

end

/-- From equal values the same blocks leave equal values and queue the same updates. -/
theorem Ran.congr {ps : List (Always Name)} (hps : ∀ p ∈ ps, p.Congr) :
    ∀ {σ σ' τ τ' : Store Name} {queue queue' : List (Update Name)} {ended ended' : Nat → Option (Store Name)},
      Ran σ ps τ queue ended → Ran σ' ps τ' queue' ended' → Same σ σ' →
        Same τ τ' ∧ List.Forall₂ Update.Same queue queue' := by
  intro σ σ' τ τ' queue queue' ended ended' h
  induction h generalizing τ' queue' ended' with
  | nil =>
    intro h' hs
    obtain ⟨rfl, rfl⟩ := h'.nil_inv
    exact ⟨hs, List.Forall₂.nil⟩
  | snoc h p hτ ih =>
    intro h' hs
    obtain ⟨τ₁, queue₁, ended₁, h₁, hτ₁, rfl, rfl⟩ := h'.snoc_inv
    obtain ⟨hsame, hqueue⟩ := ih (fun q hq => hps q (List.mem_append_left _ hq)) h₁ hs
    obtain ⟨hw, hu⟩ := hps p (by simp) _ _ hsame
    exact ⟨(hτ.trans (writeAll_congr hw hsame)).trans hτ₁.symm, List.rel_append hqueue hu⟩

end Veriforge.Sched

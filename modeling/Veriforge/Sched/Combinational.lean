import Veriforge.Sched.Ran
import Veriforge.Sched.Settled

/-! # Combinational logic that has settled

In a design without combinational loops and latches the values that the assigns and the combinational
blocks drive are determined by the rest of the store, once they all hold (`Levelled.same`). So two
kernels that end with everything holding agree when they agree on the rest. That a kernel ends so is
kept through its delta cycles by `Carried`: a block that has run holds until one of its signals
changes, and then it is run again. -/

namespace Veriforge.Sched

open Design

variable {Name : Type} [DecidableEq Name] {β : Type}

namespace Always

/-- What an execution leaves under `n` once its updates are committed. -/
def result (p : Always Name) (σ : Store Name) (n : Name) : Slot :=
  afterUpdates (writeAll σ (p.body σ).writes) (p.body σ).queued n

/-- Running the block changes nothing. -/
def Holds (p : Always Name) (σ : Store Name) : Prop := ∀ n, (p.result σ n).bits = (σ n).bits

/-- Running the block again on unchanged inputs changes nothing: `σ'` has the signals it waits for as
the execution left them and the signals it writes as its updates left them. -/
def Rerun (p : Always Name) : Prop :=
  ∀ σ σ' : Store Name, (∀ n ∈ p.sens, (σ' n).bits = (writeAll σ (p.body σ).writes n).bits) →
    (∀ n, p.Writes n → (σ' n).bits = (p.result σ n).bits) → p.Holds σ'

/-- No variable is assigned with `=` and with `<=`. -/
def Unmixed (p : Always Name) : Prop :=
  ∀ σ σ' : Store Name, ∀ n ∈ (p.body σ).writes.map (·.1), n ∉ (p.body σ').queued.map (·.name)

/-- A block that holds keeps holding while its inputs and outputs stay. -/
theorem Rerun.keep {p : Always Name} (h : p.Rerun) (hmix : p.Unmixed) {σ σ' : Store Name} (hold : p.Holds σ)
    (hsens : ∀ n ∈ p.sens, (σ' n).bits = (σ n).bits) (hout : ∀ n, p.Writes n → (σ' n).bits = (σ n).bits) :
    p.Holds σ' := by
  refine h σ σ' (fun n hn => ?_) (fun n hn => (hout n hn).trans (hold n).symm)
  rw [hsens n hn]
  by_cases hw : n ∈ (p.body σ).writes.map (·.1)
  · -- what is assigned with `=` has no updates
    have hno : ∀ u ∈ (p.body σ).queued, u.name ≠ n := fun u hu he =>
      hmix σ σ n hw (he ▸ List.mem_map_of_mem hu)
    rw [← hold n, result, afterUpdates_of_notMem hno]
  · rw [writeAll_of_notMem hw]

end Always

/-- The combinational part of a design has levels: `held n` reads what no assign and no combinational
block drives of `n`, all of it for the signals they do not drive, and what they do drive follows from
it and from signals of lower rank. So there is no combinational loop and no latch. -/
structure Levelled (D : Design Name) (held : Name → List (Nat × Nat) → β) (rank : Name → Nat) : Prop where
  assign_keeps : ∀ a ∈ D.assigns, ∀ σ n, held n (a.after σ n).bits = held n (σ n).bits
  block_keeps : ∀ c ∈ D.combos, ∀ σ n, held n (writeAll σ (c.body σ).writes n).bits = held n (σ n).bits
  update_keeps : ∀ c ∈ D.combos, ∀ σ, ∀ u ∈ (c.body σ).queued, ∀ s : Slot,
    held u.name (u.commit s).bits = held u.name s.bits
  assign : ∀ a ∈ D.assigns, ∀ n, a.Writes n → ∀ σ σ', a.Holds σ → a.Holds σ' →
    held n (σ n).bits = held n (σ' n).bits → (∀ m, rank m < rank n → (σ m).bits = (σ' m).bits) →
    (σ n).bits = (σ' n).bits
  block : ∀ c ∈ D.combos, ∀ n, c.Writes n → ∀ σ σ', c.Holds σ → c.Holds σ' →
    held n (σ n).bits = held n (σ' n).bits → (∀ m, rank m < rank n → (σ m).bits = (σ' m).bits) →
    (σ n).bits = (σ' n).bits
  rest : ∀ n, (∀ a ∈ D.assigns, ¬ a.Writes n) → (∀ c ∈ D.combos, ¬ c.Writes n) → Function.Injective (held n)

variable {D : Design Name} {held : Name → List (Nat × Nat) → β} {rank : Name → Nat}

/-- Settled stores that agree on what is held agree: each combinational block holds in both, or has the
same outputs in both. -/
theorem Levelled.same (hL : Levelled D held rank) {σ τ : Store Name} (ha : ∀ a ∈ D.assigns, a.Holds σ)
    (ha' : ∀ a ∈ D.assigns, a.Holds τ)
    (hc : ∀ c ∈ D.combos, (c.Holds σ ∧ c.Holds τ) ∨ ∀ n, c.Writes n → (σ n).bits = (τ n).bits)
    (hheld : ∀ n, held n (σ n).bits = held n (τ n).bits) : Same σ τ := by
  have hall : ∀ k n, rank n < k → (σ n).bits = (τ n).bits := by
    intro k
    induction k with
    | zero => exact fun n hn => absurd hn (Nat.not_lt_zero _)
    | succ k ih =>
      intro n hn
      have hlow : ∀ m, rank m < rank n → (σ m).bits = (τ m).bits := fun m hm => ih m (by omega)
      by_cases hassign : ∃ a ∈ D.assigns, a.Writes n
      · obtain ⟨a, hain, han⟩ := hassign
        exact hL.assign a hain n han σ τ (ha a hain) (ha' a hain) (hheld n) hlow
      · by_cases hblock : ∃ c ∈ D.combos, c.Writes n
        · obtain ⟨c, hcin, hcn⟩ := hblock
          rcases hc c hcin with ⟨h, h'⟩ | h
          · exact hL.block c hcin n hcn σ τ h h' (hheld n) hlow
          · exact h n hcn
        · push Not at hassign hblock
          exact hL.rest n hassign hblock (hheld n)
  exact fun n => hall (rank n + 1) n (Nat.lt_succ_self _)

/-! ## Which blocks have run since elaboration -/

/-- Every assign holds, every combinational block that has run holds, and the others have their inputs
and outputs as elaborated. -/
structure Current (D : Design Name) (init σ : Store Name) (R : Nat → Prop) : Prop where
  assigns : ∀ a ∈ D.assigns, a.Holds σ
  ran : ∀ c ∈ D.combos, R c.id → c.Holds σ
  idle : ∀ c ∈ D.combos, ¬ R c.id → ∀ n, n ∈ c.sens ∨ c.Writes n → (σ n).bits = (init n).bits

/-- A combinational block holds, or has not run and would change something as elaborated. -/
theorem Current.holds {init σ : Store Name} {R : Nat → Prop} (h : Current D init σ R) {c : Always Name}
    (hc : c ∈ D.combos) (hrerun : c.Rerun) (hmix : c.Unmixed) (hR : R c.id ∨ c.Holds init) : c.Holds σ := by
  by_cases hran : R c.id
  · exact h.ran c hc hran
  · exact hrerun.keep hmix (hR.resolve_left hran) (fun n hn => h.idle c hc hran n (Or.inl hn))
      fun n hn => h.idle c hc hran n (Or.inr hn)

/-- Two such stores agree when they agree on what is held and on which blocks have run. -/
theorem Current.same (hL : Levelled D held rank) (hrerun : ∀ c ∈ D.combos, c.Rerun)
    (hmix : ∀ c ∈ D.combos, c.Unmixed) {init σ τ : Store Name} {R Q : Nat → Prop} (h : Current D init σ R)
    (h' : Current D init τ Q) (hRQ : ∀ c ∈ D.combos, ¬ c.Holds init → (R c.id ↔ Q c.id))
    (hheld : ∀ n, held n (σ n).bits = held n (τ n).bits) : Same σ τ := by
  refine hL.same h.assigns h'.assigns (fun c hc => ?_) hheld
  by_cases hinit : c.Holds init
  · exact Or.inl ⟨h.holds hc (hrerun c hc) (hmix c hc) (Or.inr hinit),
      h'.holds hc (hrerun c hc) (hmix c hc) (Or.inr hinit)⟩
  · by_cases hR : R c.id
    · exact Or.inl ⟨h.ran c hc hR, h'.ran c hc ((hRQ c hc hinit).mp hR)⟩
    · refine Or.inr fun n hn => ?_
      have hQ : ¬ Q c.id := fun hq => hR ((hRQ c hc hinit).mpr hq)
      exact (h.idle c hc hR n (Or.inr hn)).trans (h'.idle c hc hQ n (Or.inr hn)).symm

/-! ## Delta cycles -/

/-- The second store comes from the first by evaluations of assigns. -/
structure ByAssigns (D : Design Name) (held : Name → List (Nat × Nat) → β) (σ σ' : Store Name) : Prop where
  other : ∀ n, (∀ a ∈ D.assigns, ¬ a.Writes n) → (σ' n).bits = (σ n).bits
  held : ∀ n, held n (σ' n).bits = held n (σ n).bits

theorem ByAssigns.refl (σ : Store Name) : ByAssigns D held σ σ := ⟨fun _ _ => rfl, fun _ => rfl⟩

theorem ByAssigns.same {σ σ' σ'' : Store Name} (h : ByAssigns D held σ σ') (hs : Same σ'' σ') :
    ByAssigns D held σ σ'' := by
  constructor
  case other =>
    intro n hn
    rw [hs n]
    exact h.other n hn
  case held =>
    intro n
    rw [hs n]
    exact h.held n

theorem ByAssigns.after (hL : Levelled D held rank) {σ σ' : Store Name} (h : ByAssigns D held σ σ')
    {a : Continuous Name} (ha : a ∈ D.assigns) : ByAssigns D held σ (a.after σ') := by
  constructor
  case other =>
    intro n hn
    rw [Continuous.after_of_not_writes (hn a ha)]
    exact h.other n hn
  case held => exact fun n => (hL.assign_keeps a ha σ' n).trans (h.held n)

theorem ByAssigns.trans {σ σ' σ'' : Store Name} (h : ByAssigns D held σ σ') (h' : ByAssigns D held σ' σ'') :
    ByAssigns D held σ σ'' :=
  ⟨fun n hn => (h'.other n hn).trans (h.other n hn), fun n => (h'.held n).trans (h.held n)⟩

/-- What holds of a kernel between the commits and the regions of a batch: the assigns hold, and the
outputs of a combinational block are as its last execution left them. -/
structure Carried (D : Design Name) (K : Kernel Name) : Prop where
  assigns : ∀ a ∈ D.assigns, a.Holds K.store
  ended : ∀ c ∈ D.combos, ∀ τ, K.endedAt c.id = some τ → ∃ σ, Same τ (writeAll σ (c.body σ).writes) ∧
    ∀ n, c.Writes n → (K.store n).bits = (c.result σ n).bits
  idle : ∀ c ∈ D.combos, K.endedAt c.id = none → ∀ n, c.Writes n → (K.store n).bits = (K.start n).bits

/-- A delta cycle: the blocks `ps` run, assigns are evaluated, the queue is committed, and assigns are
evaluated until they hold. -/
theorem Carried.round (hD : D.SoleWriters) (hcongr : ∀ p ∈ D.combos ++ D.seqs, p.Congr) {K K' : Kernel Name}
    (h : Carried D K) {ps : List (Always Name)} {τ σ₁ σ₂ : Store Name} {queue : List (Update Name)}
    {ended : Nat → Option (Store Name)} (hran : Ran K.store ps τ queue ended) (hsub : ps ⊆ D.combos ++ D.seqs)
    (hnd : (ps.map (·.id)).Nodup) (h₁ : ByAssigns D held τ σ₁)
    (h₂ : ∀ n, (σ₂ n).bits = (afterUpdates σ₁ queue n).bits) (h₃ : ByAssigns D held σ₂ K'.store)
    (hassigns : ∀ a ∈ D.assigns, a.Holds K'.store) (hstart : K'.start = K.start)
    (hended : ∀ i, K'.endedAt i = (ended i).or (K.endedAt i)) : Carried D K' := by
  have hout : ∀ c ∈ D.combos, ∀ n, c.Writes n → ∀ a ∈ D.assigns, ¬ a.Writes n := fun c hc n hn a ha han =>
    hD.across a ha c (List.mem_append_left _ hc) n han hn
  -- the outputs of a block that is not in the list stay
  have hkeep : ∀ c ∈ D.combos, c ∉ ps → ∀ n, c.Writes n → (K'.store n).bits = (K.store n).bits := by
    intro c hc hcp n hn
    have hno : ∀ p ∈ ps, ¬ p.Writes n := by
      intro p hp hpn
      have hid := hD.blocks p (hsub hp) c (List.mem_append_left _ hc) n hpn hn
      exact hcp (D.eq_of_id (hsub hp) (List.mem_append_left _ hc) hid ▸ hp)
    rw [h₃.other n (hout c hc n hn), h₂ n, afterUpdates_of_notMem fun u hu => hran.name_ne hno hu,
      h₁.other n (hout c hc n hn), hran.bits_of_not_writes hno]
  have hnone : ∀ c ∈ D.combos, c ∉ ps → ended c.id = none := by
    intro c hc hcp
    refine hran.ended_none fun p hp hid => hcp ?_
    exact D.eq_of_id (hsub hp) (List.mem_append_left _ hc) hid ▸ hp
  constructor
  case assigns => exact hassigns
  case ended =>
    intro c hc τc hτc
    by_cases hcp : c ∈ ps
    · obtain ⟨ρ, τc', he, hs, hn⟩ := hran.block hD hsub hnd hcp
      rw [hended, he, Option.some_or] at hτc
      obtain rfl := Option.some.inj hτc
      refine ⟨ρ, hs, fun n hw => ?_⟩
      obtain ⟨hbits, hqueue⟩ := hn n hw
      have hslot : (σ₁ n).bits = (writeAll ρ (c.body ρ).writes n).bits :=
        ((h₁.other n (hout c hc n hw)).trans hbits).trans (hs n)
      rw [h₃.other n (hout c hc n hw), h₂ n, afterUpdates, hqueue]
      refine foldl_commit_congr (List.forall₂_same.mpr fun u hu => ?_) hslot
      exact (hcongr c (List.mem_append_left _ hc)).queued (List.mem_of_mem_filter hu)
    · rw [hended, hnone c hc hcp, Option.none_or] at hτc
      obtain ⟨ρ, hs, hn⟩ := h.ended c hc τc hτc
      exact ⟨ρ, hs, fun n hw => (hkeep c hc hcp n hw).trans (hn n hw)⟩
  case idle =>
    intro c hc hτ n hn
    have hcp : c ∉ ps := by
      intro hcp
      obtain ⟨ρ, τc, he, -, -⟩ := hran.block hD hsub hnd hcp
      rw [hended, he, Option.some_or] at hτ
      exact Option.some_ne_none _ hτ
    rw [hended, hnone c hc hcp, Option.none_or] at hτ
    rw [hstart, hkeep c hc hcp n hn]
    exact h.idle c hc hτ n hn

/-- Combinational blocks keep what is held. -/
theorem held_of_combos (hL : Levelled D held rank) {σ τ σ₁ σ₂ σ₃ : Store Name} {ps : List (Always Name)}
    {queue : List (Update Name)} {ended : Nat → Option (Store Name)} (hran : Ran σ ps τ queue ended)
    (hps : ∀ p ∈ ps, p ∈ D.combos) (h₁ : ByAssigns D held τ σ₁)
    (h₂ : ∀ n, (σ₂ n).bits = (afterUpdates σ₁ queue n).bits) (h₃ : ByAssigns D held σ₂ σ₃) (n : Name) :
    held n (σ₃ n).bits = held n (σ n).bits := by
  have hτ : held n (τ n).bits = held n (σ n).bits := by
    refine hran.invariant (P := fun ρ => held n (ρ n).bits = held n (σ n).bits)
      (fun ρ ρ' hs hρ => (congrArg (held n) (hs n)).trans hρ) (fun p hp ρ hρ => ?_) rfl
    exact (hL.block_keeps p (hps p hp) ρ n).trans hρ
  have hcommit : ∀ (us : List (Update Name)) (s : Slot), us ⊆ queue → (∀ u ∈ us, u.name = n) →
      held n (us.foldl (fun s u => u.commit s) s).bits = held n s.bits := by
    intro us
    induction us with
    | nil => exact fun s _ _ => rfl
    | cons u us ih =>
      intro s hus hname
      obtain ⟨p, hp, ρ, hρ⟩ := hran.mem_queue (hus List.mem_cons_self)
      rw [List.foldl_cons, ih _ (fun v hv => hus (List.mem_cons_of_mem _ hv))
        fun v hv => hname v (List.mem_cons_of_mem _ hv)]
      have hkeep := hL.update_keeps p (hps p hp) ρ u hρ s
      rw [hname u List.mem_cons_self] at hkeep
      exact hkeep
  rw [h₃.held n, h₂ n, afterUpdates, hcommit _ _ (List.filter_sublist.subset) fun u hu =>
    of_decide_eq_true (List.mem_filter.mp hu).2, h₁.held n, hτ]

/-- What is held after a cycle of edge-triggered blocks is what their updates leave. -/
theorem held_of_seqs (hD : D.SoleWriters) (hcongr : ∀ p ∈ D.combos ++ D.seqs, p.Congr)
    {σ τ σ₁ σ₂ σ₃ : Store Name} {ps : List (Always Name)} {queue : List (Update Name)}
    {ended : Nat → Option (Store Name)} (hran : Ran σ ps τ queue ended) (hsub : ps ⊆ D.combos ++ D.seqs)
    (h₁ : ByAssigns D held τ σ₁) (h₂ : ∀ n, (σ₂ n).bits = (afterUpdates σ₁ queue n).bits)
    (h₃ : ByAssigns D held σ₂ σ₃) (n : Name) : held n (σ₃ n).bits = held n (afterUpdates τ queue n).bits := by
  rw [h₃.held n, h₂ n]
  by_cases hin : ∃ u ∈ queue, u.name = n
  · obtain ⟨u, hu, rfl⟩ := hin
    obtain ⟨p, hp, ρ, hρ⟩ := hran.mem_queue hu
    have hno : ∀ a ∈ D.assigns, ¬ a.Writes u.name := fun a ha han =>
      hD.across a ha p (hsub hp) u.name han ⟨ρ, Or.inr (List.mem_map_of_mem hρ)⟩
    refine congrArg (held u.name) (afterUpdates_congr (List.forall₂_same.mpr fun v hv => ?_) (h₁.other _ hno))
    obtain ⟨q, hq, ρ', hv⟩ := hran.mem_queue hv
    exact (hcongr q (hsub hq)).queued hv
  · push Not at hin
    rw [afterUpdates_of_notMem hin, afterUpdates_of_notMem hin, h₁.held n]

/-- When no combinational block has missed a change, those that have run hold. -/
theorem Carried.current (hrerun : ∀ c ∈ D.combos, c.Rerun) (hmix : ∀ c ∈ D.combos, c.Unmixed) {K : Kernel Name}
    (h : Carried D K) {init : Store Name} {R : Nat → Prop} (hstart : Current D init K.start R)
    (hmissed : ∀ c ∈ D.combos, ∀ n ∈ c.sens, ¬ K.Missed c n) :
    Current D init K.store fun i => R i ∨ K.endedAt i ≠ none := by
  have hsens : ∀ c ∈ D.combos, ∀ n ∈ c.sens, (K.store n).bits = (K.lastEnd c n).bits := fun c hc n hn =>
    not_not.mp (hmissed c hc n hn)
  have hsame : ∀ c ∈ D.combos, K.endedAt c.id = none → ∀ n, n ∈ c.sens ∨ c.Writes n →
      (K.store n).bits = (K.start n).bits := by
    intro c hc he n hn
    rcases hn with hn | hn
    · have hk := hsens c hc n hn
      unfold Kernel.lastEnd at hk
      rw [he] at hk
      exact hk
    · exact h.idle c hc he n hn
  constructor
  case assigns => exact h.assigns
  case ran =>
    intro c hc hr
    cases he : K.endedAt c.id with
    | none =>
      have hold : c.Holds K.start := hstart.ran c hc (hr.resolve_right fun hne => hne he)
      exact (hrerun c hc).keep (hmix c hc) hold (fun n hn => hsame c hc he n (Or.inl hn))
        fun n hn => hsame c hc he n (Or.inr hn)
    | some τ =>
      obtain ⟨σ, hτ, hout⟩ := h.ended c hc τ he
      refine hrerun c hc σ K.store (fun n hn => ?_) hout
      have hk := hsens c hc n hn
      unfold Kernel.lastEnd at hk
      rw [he] at hk
      exact hk.trans (hτ n)
  case idle =>
    intro c hc hr n hn
    rw [not_or, not_not] at hr
    exact (hsame c hc hr.2 n hn).trans (hstart.idle c hc hr.1 n hn)

/-! ## A batch -/

/-- What is asked of a design: one writer for each variable, assigns that depend on what is collected
from them, blocks with equal effects on equal values, combinational blocks that may run again, and
levels. -/
structure Regular (D : Design Name) (held : Name → List (Nat × Nat) → β) (rank : Name → Nat) : Prop where
  writers : D.SoleWriters
  covers : ∀ a ∈ D.assigns, a.Covers
  settles : ∀ a ∈ D.assigns, ∀ σ, a.Holds (a.after σ)
  congr : ∀ p ∈ D.combos ++ D.seqs, p.Congr
  rerun : ∀ c ∈ D.combos, c.Rerun
  unmixed : ∀ c ∈ D.combos, c.Unmixed
  levelled : Levelled D held rank

/-- A delta cycle that runs the blocks `ps` and finds the blocks `ps'` to run next. -/
structure Cycle (D : Design Name) (held : Name → List (Nat × Nat) → β) (K : Kernel Name) (ps : List (Always Name))
    (K' : Kernel Name) (ps' : List (Always Name)) : Prop where
  carried : Carried D K'
  start : K'.start = K.start
  triggered : K.triggeredSeq ⊆ K'.triggeredSeq
  fires : ∀ p ∈ ps', p ∈ D.combos ∨ (p.id ∉ K.triggeredSeq ∧ p.id ∈ K'.triggeredSeq)
  combos : (∀ p ∈ ps, p ∈ D.combos) → ∀ n, held n (K'.store n).bits = held n (K.store n).bits
  seqs : ∃ τ queue ended, Ran K.store ps τ queue ended ∧
    ∀ n, held n (K'.store n).bits = held n (afterUpdates τ queue n).bits

/-- The cycle, from what it does one after the other. -/
theorem Regular.cycle (hR : Regular D held rank) {K K' : Kernel Name} (h : Carried D K) {ps ps' : List (Always Name)}
    {τ σ₁ σ₂ : Store Name} {queue : List (Update Name)} {ended : Nat → Option (Store Name)}
    (hran : Ran K.store ps τ queue ended) (hsub : ps ⊆ D.combos ++ D.seqs) (hnd : (ps.map (·.id)).Nodup)
    (h₁ : ByAssigns D held τ σ₁) (h₂ : ∀ n, (σ₂ n).bits = (afterUpdates σ₁ queue n).bits)
    (h₃ : ByAssigns D held σ₂ K'.store) (hassigns : ∀ a ∈ D.assigns, a.Holds K'.store)
    (hstart : K'.start = K.start) (hended : ∀ i, K'.endedAt i = (ended i).or (K.endedAt i))
    (htriggered : K.triggeredSeq ⊆ K'.triggeredSeq)
    (hfires : ∀ p ∈ ps', p ∈ D.combos ∨ (p.id ∉ K.triggeredSeq ∧ p.id ∈ K'.triggeredSeq)) :
    Cycle D held K ps K' ps' where
  carried := h.round hR.writers hR.congr hran hsub hnd h₁ h₂ h₃ hassigns hstart hended
  start := hstart
  triggered := htriggered
  fires := hfires
  combos := fun hps n => held_of_combos hR.levelled hran hps h₁ h₂ h₃ n
  seqs := ⟨τ, queue, ended, hran, fun n => held_of_seqs hR.writers hR.congr hran hsub h₁ h₂ h₃ n⟩

/-- While no further edge-triggered block is fired, only combinational blocks run, and they leave what
is held at `goal`. -/
structure Steady (D : Design Name) (held : Name → List (Nat × Nat) → β) (T : Finset Nat) (goal : Name → β)
    (K : Kernel Name) (ps : List (Always Name)) : Prop where
  triggered : T ⊆ K.triggeredSeq
  combos : K.triggeredSeq = T → (∀ p ∈ ps, p ∈ D.combos) ∧ ∀ n, held n (K.store n).bits = goal n

theorem Steady.next {T : Finset Nat} {goal : Name → β} {K K' : Kernel Name} {ps ps' : List (Always Name)}
    (h : Steady D held T goal K ps) (hc : Cycle D held K ps K' ps') : Steady D held T goal K' ps' := by
  refine ⟨h.triggered.trans hc.triggered, fun hT => ?_⟩
  have hK : K.triggeredSeq = T := Finset.Subset.antisymm (hT ▸ hc.triggered) h.triggered
  obtain ⟨hps, hgoal⟩ := h.combos hK
  refine ⟨fun p hp => ?_, fun n => (hc.combos hps n).trans (hgoal n)⟩
  rcases hc.fires p hp with hp | ⟨hno, hin⟩
  · exact hp
  · rw [hT, ← hK] at hin
    exact absurd hin hno

/-- After the first cycle of a batch. -/
theorem Cycle.steady {K K' : Kernel Name} {ps ps' : List (Always Name)} (hc : Cycle D held K ps K' ps')
    {goal : Name → β} (hgoal : ∀ n, held n (K'.store n).bits = goal n) :
    Steady D held K.triggeredSeq goal K' ps' := by
  refine ⟨hc.triggered, fun hT => ⟨fun p hp => ?_, hgoal⟩⟩
  rcases hc.fires p hp with hp | ⟨hno, hin⟩
  · exact hp
  · rw [hT] at hin
    exact absurd hin hno

/-- What a delta loop that starts with the blocks `ps` in `K` leaves in `K'`, when it fires nobody. -/
structure Outcome (D : Design Name) (held : Name → List (Nat × Nat) → β) (K : Kernel Name) (ps : List (Always Name))
    (K' : Kernel Name) : Prop where
  carried : Carried D K'
  start : K'.start = K.start
  missed : ∀ c ∈ D.combos, ∀ n ∈ c.sens, ¬ K'.Missed c n
  combos : (∀ p ∈ ps, p ∈ D.combos) → ∀ n, held n (K'.store n).bits = held n (K.store n).bits
  seqs : ps ≠ [] → (∀ p ∈ ps, p ∈ D.seqs) → ∃ τ queue ended, Ran K.store ps τ queue ended ∧
    ∀ n, held n (K'.store n).bits = held n (afterUpdates τ queue n).bits

end Veriforge.Sched

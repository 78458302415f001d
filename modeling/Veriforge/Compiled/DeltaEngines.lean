import Veriforge.Compiled.DeltaLoop

/-! # The two delta engines

The queue engine leaves out calls of continuous assignments that the scan engine makes. A call left out would do
nothing as long as nothing else changes what the assignment drives; under that condition the two loops go through
the same contexts. -/

namespace Veriforge.Compiled

variable {Sid Cell World : Type} [DecidableEq Sid] [DecidableEq Cell]

/-! ## What a call changes -/

section Effects

variable {owner : Cell → Sid}

theorem mem_markDirty {c : SimCtx Sid Cell World} {s t : Sid} : t ∈ (c.markDirty s).dlist ↔ t ∈ c.dlist ∨ s = t := by
  unfold SimCtx.markDirty
  split
  case isTrue h =>
    refine ⟨Or.inl, fun ht => ?_⟩
    rcases ht with ht | rfl
    · exact ht
    · exact h
  case isFalse _ => rw [List.mem_append, List.mem_singleton, eq_comm]

@[simp] theorem markDirty_value (c : SimCtx Sid Cell World) (s : Sid) : (c.markDirty s).value = c.value := by
  unfold SimCtx.markDirty
  split <;> rfl

@[simp] theorem markDirty_errorCode (c : SimCtx Sid Cell World) (s : Sid) :
    (c.markDirty s).errorCode = c.errorCode := by
  unfold SimCtx.markDirty
  split <;> rfl

theorem mem_exec_dlist {c : SimCtx Sid Cell World} {e : Effect Cell World} {s : Sid} :
    s ∈ (e.exec owner c).dlist ↔ s ∈ c.dlist ∨ e.marks owner c = some s := by
  cases e with
  | write cell v =>
    rw [Effect.exec, Effect.marks]
    by_cases h : c.value cell = v
    · simp [h]
    · rw [if_neg h, if_neg h, mem_markDirty, Option.some_inj]
  | writeMem cell v => rw [Effect.exec, Effect.marks, mem_markDirty, Option.some_inj]
  | stage nba => simp [Effect.exec, Effect.marks]
  | world w => simp [Effect.exec, Effect.marks]
  | error code => simp [Effect.exec, Effect.marks]

/-- A bit that changes is marked. -/
theorem exec_value {c : SimCtx Sid Cell World} {e : Effect Cell World} {cell : Cell}
    (h : e.marks owner c ≠ some (owner cell)) : (e.exec owner c).value cell = c.value cell := by
  cases e with
  | write cell' v =>
    rw [Effect.marks] at h
    rw [Effect.exec]
    by_cases hv : c.value cell' = v
    · rw [if_pos hv]
    · rw [if_neg hv] at h ⊢
      rw [markDirty_value]
      exact Function.update_of_ne (fun hc => h (by rw [hc])) _ _
  | writeMem cell' v =>
    rw [Effect.exec, markDirty_value]
    exact Function.update_of_ne (fun hc => h (by rw [hc]; rfl)) _ _
  | stage nba => rfl
  | world w => rfl
  | error code => rfl

theorem mem_run_dlist {es : List (Effect Cell World)} {c : SimCtx Sid Cell World} {s : Sid} :
    s ∈ (run owner c es).1.dlist ↔ s ∈ c.dlist ∨ s ∈ (run owner c es).2 := by
  induction es generalizing c with
  | nil => simp [run]
  | cons e es ih =>
    rw [run, ih, mem_exec_dlist, List.mem_append, Option.mem_toList, or_assoc]

theorem run_value {es : List (Effect Cell World)} {c : SimCtx Sid Cell World} {cell : Cell}
    (h : owner cell ∉ (run owner c es).2) : (run owner c es).1.value cell = c.value cell := by
  induction es generalizing c with
  | nil => rfl
  | cons e es ih =>
    rw [run, List.mem_append, not_or, Option.mem_toList] at h
    rw [run, ih h.2, exec_value h.1]

/-- A body that writes signals changes no others. -/
theorem run_writes_value {cvs : List (Cell × Bit)} {c : SimCtx Sid Cell World} {cell : Cell}
    (h : ∀ v, (cell, v) ∉ cvs) :
    (run owner c (cvs.map fun cv => .write cv.1 cv.2)).1.value cell = c.value cell := by
  induction cvs generalizing c with
  | nil => rfl
  | cons cv cvs ih =>
    rw [List.map_cons, run, ih fun v hv => h v (List.mem_cons_of_mem _ hv), Effect.exec]
    have hne : cell ≠ cv.1 := fun hc => h cv.2 (by rw [hc]; exact List.mem_cons_self)
    by_cases hv : c.value cv.1 = cv.2
    · rw [if_pos hv]
    · rw [if_neg hv, markDirty_value]
      exact Function.update_of_ne hne _ _

/-- Writing what is there does nothing. -/
theorem run_writes_settled {cvs : List (Cell × Bit)} {c : SimCtx Sid Cell World}
    (h : ∀ cv ∈ cvs, c.value cv.1 = cv.2) : run owner c (cvs.map fun cv => .write cv.1 cv.2) = (c, []) := by
  induction cvs with
  | nil => rfl
  | cons cv cvs ih =>
    have hcv := h cv List.mem_cons_self
    rw [List.map_cons, run, Effect.exec, Effect.marks, if_pos hcv, if_pos hcv,
      ih fun cv' hcv' => h cv' (List.mem_cons_of_mem _ hcv')]
    rfl

end Effects

/-! ## Reads -/

section Reads

variable {owner : Cell → Sid} {p : Ranked Sid Cell World owner} {sids sids' : List Sid}

theorem Ranked.reads_iff : p.reads sids = true ↔ ∃ s ∈ p.sens, s ∈ sids := by
  rw [Ranked.reads, List.any_eq_true]
  simp only [decide_eq_true_eq]

/-- After a call the process reads what was dirty, or what the call logged. -/
theorem Ranked.reads_call {w : Ranked Sid Cell World owner} {c : SimCtx Sid Cell World} :
    p.reads (w.call c).1.dlist = true ↔ p.reads c.dlist = true ∨ p.reads (w.call c).2 = true := by
  simp only [Ranked.reads_iff, Ranked.call, mem_run_dlist, and_or_left, exists_or]

/-- What the process is sensitive to stays as it is. -/
theorem Ranked.call_value_of_not_reads {w : Ranked Sid Cell World owner} {c : SimCtx Sid Cell World}
    (h : ¬p.reads (w.call c).2 = true) {cell : Cell} (hcell : owner cell ∈ p.sens) :
    (w.call c).1.value cell = c.value cell :=
  run_value fun hmem => h (Ranked.reads_iff.mpr ⟨_, hcell, hmem⟩)

end Reads

/-! ## Drivers -/

/-- The assignment can write the bit. -/
def ContAssign.Drives {owner : Cell → Sid} (a : ContAssign Sid Cell owner) (cell : Cell) : Prop :=
  ∃ s v, (cell, v) ∈ a.drive s

/-- No bit is driven by two continuous assignments. -/
def SingleDriver (k : Circuit Sid Cell World) : Prop :=
  k.conts.Pairwise fun a b => ∀ cell, a.Drives cell → ¬b.Drives cell

/-- No bit that a continuous assignment drives has changed. -/
def Undisturbed (k : Circuit Sid Cell World) (c c' : SimCtx Sid Cell World) : Prop :=
  ∀ a ∈ k.conts, ∀ cell, a.Drives cell → c'.value cell = c.value cell

/-- The call of the process leaves the bits alone that others drive, and those of its own at what it drives them to. -/
def Respects (k : Circuit Sid Cell World) (c : SimCtx Sid Cell World) : Ranked Sid Cell World k.owner → Prop
  | .cont a => ∀ cv ∈ a.drive c.value, ((Ranked.cont a : Ranked Sid Cell World k.owner).call c).1.value cv.1 = cv.2
  | .combo p => Undisturbed k c ((Ranked.combo p : Ranked Sid Cell World k.owner).call c).1

/-- The calls of the fired blocks do. -/
def SeqsRespect (k : Circuit Sid Cell World) (snap : Cell → Bit) :
    List (Seq Sid Cell World × Nat) → SimCtx Sid Cell World → Prop
  | [], _ => True
  | q :: qs, c =>
      let c' := (run k.owner c (q.1.body snap c)).1
      Undisturbed k c c' ∧ (c'.errorCode = .none → SeqsRespect k snap qs c')

/-- The calls of the pass of the scan do. -/
def PassRespects (k : Circuit Sid Cell World) (boot : Bool) (trigger : List Sid) :
    List (Ranked Sid Cell World k.owner) → SimCtx Sid Cell World → Prop
  | [], _ => True
  | p :: ps, c =>
      if scanFires k boot trigger c p then
        Respects k c p ∧ ((p.call c).1.errorCode = .none → PassRespects k boot trigger ps (p.call c).1)
      else PassRespects k boot trigger ps c

/-- The calls and the commit of an iteration of the scan do. -/
def IterationRespects (k : Circuit Sid Cell World) (snap : Cell → Bit) (it : Nat) (done : List Nat)
    (c : SimCtx Sid Cell World) : Prop :=
  SeqsRespect k snap (k.fired snap c.dlist done (taken it c)) (taken it c) ∧
    ∀ c' done', runSeqs k snap (k.fired snap c.dlist done (taken it c)) (taken it c) done = .ok (c', done') →
      Undisturbed k c' (k.nbaApply c') ∧ PassRespects k (bootIt it c) c.dlist k.ranked (k.nbaApply c')

/-- The iterations of the scan: the number, the blocks that are done, and the context in which it begins. -/
inductive ScanReaches (k : Circuit Sid Cell World) (snap : Cell → Bit) (c₀ : SimCtx Sid Cell World) :
    Nat → List Nat → SimCtx Sid Cell World → Prop
  | start : ScanReaches k snap c₀ 0 [] c₀
  | next {it done c c' done' pnext} : ScanReaches k snap c₀ it done c →
      k.iteration k.scan snap it done (fun _ => false) c = .next c' done' pnext →
      ScanReaches k snap c₀ (it + 1) done' c'

/-- In the run of the scan no process and no commit changes a bit that a continuous assignment drives, the
assignment itself apart. -/
def DriversRespected (k : Circuit Sid Cell World) (snap : Cell → Bit) (c₀ : SimCtx Sid Cell World) : Prop :=
  ∀ it done c, it < k.deltaLimit → ScanReaches k snap c₀ it done c → (c.dlist.isEmpty && !bootIt it c) = false →
    IterationRespects k snap it done c

variable {k : Circuit Sid Cell World}

theorem Circuit.mem_conts_of_ranked {q : Nat} {a : ContAssign Sid Cell k.owner}
    (h : k.ranked[q]? = some (.cont a)) : a ∈ k.conts := by
  have hmem := List.mem_of_getElem? h
  rcases List.mem_append.mp hmem with hmem | hmem
  · obtain ⟨b, hb, heq⟩ := List.mem_map.mp hmem
    cases heq
    exact hb
  · obtain ⟨p, _, heq⟩ := List.mem_map.mp hmem
    cases heq

/-- Two ranks do not drive the same bit. -/
theorem SingleDriver.not_drives (h : SingleDriver k) {q r : Nat} {a b : ContAssign Sid Cell k.owner}
    (ha : k.ranked[q]? = some (.cont a)) (hb : k.ranked[r]? = some (.cont b)) (hne : q ≠ r) {cell : Cell}
    (hcell : a.Drives cell) : ¬b.Drives cell := by
  have hranked : k.ranked.Pairwise fun p p' => ∀ a b, p = .cont a → p' = .cont b →
      ∀ cell, a.Drives cell → ¬b.Drives cell := by
    rw [Circuit.ranked, List.pairwise_append]
    refine ⟨List.pairwise_map.mpr (h.imp fun hab a b ha hb => ?_), List.pairwise_map.mpr ?_, ?_⟩
    · cases ha
      cases hb
      exact hab
    · refine List.pairwise_of_forall fun p p' a b ha => ?_
      cases ha
    · intro p _ p' hp' a b _ hb
      obtain ⟨c, _, rfl⟩ := List.mem_map.mp hp'
      cases hb
  obtain ⟨hq, hqa⟩ := List.getElem?_eq_some_iff.mp ha
  obtain ⟨hr, hrb⟩ := List.getElem?_eq_some_iff.mp hb
  rcases Nat.lt_or_gt_of_ne hne with hlt | hlt
  · exact List.pairwise_iff_getElem.mp hranked q r hq hr hlt a b hqa hrb cell hcell
  · exact fun hcell' => List.pairwise_iff_getElem.mp hranked r q hr hq hlt b a hrb hqa cell hcell' hcell

/-- A call that respects the drivers leaves alone what an assignment of another rank drives. -/
theorem Respects.value (hdriver : SingleDriver k) {c : SimCtx Sid Cell World} {q r : Nat}
    {p : Ranked Sid Cell World k.owner} {a : ContAssign Sid Cell k.owner} (h : Respects k c p)
    (hp : k.ranked[r]? = some p) (ha : k.ranked[q]? = some (.cont a)) (hne : q ≠ r) {cell : Cell}
    (hcell : a.Drives cell) : (p.call c).1.value cell = c.value cell := by
  cases p with
  | combo p =>
    rw [Respects] at h
    exact h a (Circuit.mem_conts_of_ranked ha) cell hcell
  | cont b =>
    refine run_writes_value fun v hv => ?_
    exact hdriver.not_drives ha hp hne hcell ⟨c.value, v, hv⟩

/-! ## Idle assignments -/

/-- A call of the assignment would do nothing. -/
structure Idle {owner : Cell → Sid} (a : ContAssign Sid Cell owner) (c : SimCtx Sid Cell World) : Prop where
  settled : ∀ cv ∈ a.drive c.value, c.value cv.1 = cv.2
  noError : c.errorCode = .none

section Idle

variable {owner : Cell → Sid} {a : ContAssign Sid Cell owner} {c c' : SimCtx Sid Cell World}

theorem Idle.call (h : Idle a c) : (Ranked.cont a : Ranked Sid Cell World owner).call c = (c, []) :=
  run_writes_settled h.settled

theorem Idle.keep (h : Idle a c) (hsens : ∀ cell, owner cell ∈ a.sens → c'.value cell = c.value cell)
    (hdrives : ∀ cell, a.Drives cell → c'.value cell = c.value cell) (herror : c'.errorCode = .none) :
    Idle a c' := by
  have hdrive : a.drive c'.value = a.drive c.value := a.drive_eq _ _ hsens
  refine ⟨fun cv hcv => ?_, herror⟩
  rw [hdrive] at hcv
  rw [hdrives cv.1 ⟨c.value, cv.2, hcv⟩]
  exact h.settled cv hcv

/-- An assignment that has just run is idle, unless it has written what it reads. -/
theorem idle_of_call {w : Ranked Sid Cell World owner} (hw : w = .cont a)
    (hsettles : ∀ cv ∈ a.drive c.value, (w.call c).1.value cv.1 = cv.2)
    (hreads : ¬w.reads (w.call c).2 = true) (herror : (w.call c).1.errorCode = .none) : Idle a (w.call c).1 := by
  have hdrive : a.drive (w.call c).1.value = a.drive c.value :=
    a.drive_eq _ _ fun cell hcell => Ranked.call_value_of_not_reads hreads (by rw [hw]; exact hcell)
  refine ⟨fun cv hcv => ?_, herror⟩
  rw [hdrive] at hcv
  exact hsettles cv hcv

end Idle

/-! ## One pass -/

/-- The assignments that read what is dirty are owed a run or idle, and those that are owed one read it. -/
structure Owed (k : Circuit Sid Cell World) (c : SimCtx Sid Cell World) (pnext : Nat → Bool) : Prop where
  idle : ∀ q a, k.ranked[q]? = some (.cont a) → (Ranked.cont a : Ranked Sid Cell World k.owner).reads c.dlist = true →
    pnext q = true ∨ Idle a c
  reads : ∀ q, pnext q = true → ∃ a, k.ranked[q]? = some (.cont a) ∧
    (Ranked.cont a : Ranked Sid Cell World k.owner).reads c.dlist = true

/-- Before rank `r`: a rank from `r` on that is pending fires, and one that fires is pending or an idle assignment;
an assignment before `r` that reads what is dirty is owed a run or idle. -/
structure PassInv (k : Circuit Sid Cell World) (boot : Bool) (trigger : List Sid) (r : Nat)
    (c : SimCtx Sid Cell World) (pend pnext : Nat → Bool) : Prop where
  fires : ∀ q p, r ≤ q → k.ranked[q]? = some p → pend q = true → scanFires k boot trigger c p = true
  pending : ∀ q p, r ≤ q → k.ranked[q]? = some p → scanFires k boot trigger c p = true →
    pend q = true ∨ ∃ a, p = .cont a ∧ Idle a c
  past : ∀ q a, q < r → k.ranked[q]? = some (.cont a) →
    (Ranked.cont a : Ranked Sid Cell World k.owner).reads c.dlist = true → pnext q = true ∨ Idle a c
  next : ∀ q, pnext q = true → q < r ∧ ∃ a, k.ranked[q]? = some (.cont a) ∧
    (Ranked.cont a : Ranked Sid Cell World k.owner).reads c.dlist = true

section Pass

variable {boot : Bool} {trigger : List Sid} {r : Nat} {c : SimCtx Sid Cell World} {pend pnext : Nat → Bool}
  {p : Ranked Sid Cell World k.owner}

/-- After a call a process fires that fired before, and one that reads what the call logged. -/
theorem scanFires_call {w : Ranked Sid Cell World k.owner} : scanFires k boot trigger (w.call c).1 p = true ↔
      scanFires k boot trigger c p = true ∨ p.reads (w.call c).2 = true := by
  simp only [scanFires, Bool.or_eq_true, Ranked.reads_call, or_assoc]

theorem pendAfter_iff {wlog : List Sid} {q : Nat} (hq : k.ranked[q]? = some p) :
    pendAfter k r wlog pend q = true ↔ pend q = true ∨ r < q ∧ p.reads wlog = true := by
  rw [pendAfter, hq]
  simp

theorem pnextAfter_cont {wlog : List Sid} {q : Nat} {a : ContAssign Sid Cell k.owner}
    (hq : k.ranked[q]? = some (.cont a)) :
    pnextAfter k r wlog pnext q = true ↔
      pnext q = true ∨ q ≤ r ∧ (Ranked.cont a : Ranked Sid Cell World k.owner).reads wlog = true := by
  rw [pnextAfter, hq]
  simp [Ranked.pure]

/-- The process at rank `r` is called by both engines. -/
theorem PassInv.call (hdriver : SingleDriver k) (h : PassInv k boot trigger r c pend pnext)
    (hp : k.ranked[r]? = some p) (hrespects : Respects k c p) (herror : (p.call c).1.errorCode = .none) :
    PassInv k boot trigger (r + 1) (p.call c).1 (pendAfter k r (p.call c).2 pend) (pnextAfter k r (p.call c).2 pnext) := by
  -- an idle assignment of another rank that does not read what the call wrote stays idle
  have hkeep : ∀ q a, k.ranked[q]? = some (.cont a) → q ≠ r →
      ¬(Ranked.cont a : Ranked Sid Cell World k.owner).reads (p.call c).2 = true → Idle a c → Idle a (p.call c).1 := by
    intro q a ha hne hreads hidle
    refine hidle.keep (fun cell hcell => ?_) (fun cell hcell => ?_) herror
    · exact Ranked.call_value_of_not_reads (p := .cont a) hreads hcell
    · exact hrespects.value hdriver hp ha hne hcell
  constructor
  case fires =>
    intro q p' hq hp' hpend
    rcases (pendAfter_iff hp').mp hpend with hpend | ⟨_, hreads⟩
    · exact scanFires_call.mpr (.inl (h.fires q p' (Nat.le_of_succ_le hq) hp' hpend))
    · exact scanFires_call.mpr (.inr hreads)
  case pending =>
    intro q p' hq hp' hfires
    rw [pendAfter_iff hp']
    by_cases hreads : p'.reads (p.call c).2 = true
    · exact .inl (.inr ⟨hq, hreads⟩)
    · have hfires' := (scanFires_call.mp hfires).resolve_right hreads
      rcases h.pending q p' (Nat.le_of_succ_le hq) hp' hfires' with hpend | ⟨a, rfl, hidle⟩
      · exact .inl (.inl hpend)
      · exact .inr ⟨a, rfl, hkeep q a hp' (Nat.ne_of_gt hq) hreads hidle⟩
  case past =>
    intro q a hq ha hdirty
    rw [pnextAfter_cont ha]
    by_cases hreads : (Ranked.cont a : Ranked Sid Cell World k.owner).reads (p.call c).2 = true
    · exact .inl (.inr ⟨Nat.le_of_lt_succ hq, hreads⟩)
    · rcases Nat.lt_succ_iff_lt_or_eq.mp hq with hlt | rfl
      · have hdirty' := (Ranked.reads_call.mp hdirty).resolve_right hreads
        rcases h.past q a hlt ha hdirty' with hnext | hidle
        · exact .inl (.inl hnext)
        · exact .inr (hkeep q a ha (Nat.ne_of_lt hlt) hreads hidle)
      · -- the process itself has just run
        obtain rfl : p = .cont a := Option.some.inj (hp.symm.trans ha)
        exact .inr (idle_of_call rfl hrespects hreads herror)
  case next =>
    intro q hnext
    rw [pnextAfter, Bool.or_eq_true, Bool.and_eq_true, decide_eq_true_eq, Option.any_eq_true] at hnext
    rcases hnext with hnext | ⟨hq, p', hp', hpure⟩
    · obtain ⟨hlt, a, ha, hreads⟩ := h.next q hnext
      exact ⟨Nat.lt_succ_of_lt hlt, a, ha, Ranked.reads_call.mpr (.inl hreads)⟩
    · rw [Bool.and_eq_true] at hpure
      cases p' with
      | combo p' => exact absurd hpure.1 Bool.false_ne_true
      | cont a => exact ⟨Nat.lt_succ_of_le hq, a, hp', Ranked.reads_call.mpr (.inr hpure.2)⟩

/-- The process at rank `r` is not pending: it does not fire, or the call of the scan does nothing. -/
theorem PassInv.skip (h : PassInv k boot trigger r c pend pnext) (hp : k.ranked[r]? = some p) (hpend : pend r = false) :
    PassInv k boot trigger (r + 1) c pend pnext := by
  constructor
  case fires => exact fun q p' hq => h.fires q p' (Nat.le_of_succ_le hq)
  case pending => exact fun q p' hq => h.pending q p' (Nat.le_of_succ_le hq)
  case past =>
    intro q a hq ha hdirty
    rcases Nat.lt_succ_iff_lt_or_eq.mp hq with hlt | rfl
    · exact h.past q a hlt ha hdirty
    · have hfires : scanFires k boot trigger c (.cont a) = true := by
        rw [scanFires, hdirty, Bool.or_true]
      rcases h.pending q _ (Nat.le_refl q) ha hfires with hpend' | ⟨b, hb, hidle⟩
      · exact absurd (hpend.symm.trans hpend') Bool.false_ne_true
      · cases hb
        exact .inr hidle
  case next =>
    intro q hnext
    obtain ⟨hlt, hrest⟩ := h.next q hnext
    exact ⟨Nat.lt_succ_of_lt hlt, hrest⟩

end Pass

/-- The passes of the two engines end in the same context, or return in the same one. -/
theorem queuePass_eq (hdriver : SingleDriver k) {boot : Bool} {trigger : List Sid}
    {ps : List (Ranked Sid Cell World k.owner)} {r : Nat} {c : SimCtx Sid Cell World} {pend pnext : Nat → Bool}
    (hps : k.ranked.drop r = ps) (h : PassInv k boot trigger r c pend pnext)
    (hrespects : PassRespects k boot trigger ps c) :
    (∃ c', scanPass k boot trigger ps c = .error c' ∧ queuePass k ps r pend pnext c = .error c') ∨
      ∃ c' pnext', scanPass k boot trigger ps c = .ok c' ∧ queuePass k ps r pend pnext c = .ok (c', pnext') ∧
        Owed k c' pnext' := by
  induction ps generalizing r c pend pnext with
  | nil =>
    have hr : k.ranked.length ≤ r := List.drop_eq_nil_iff.mp hps
    refine .inr ⟨c, pnext, rfl, rfl, fun q a ha hdirty => ?_, fun q hnext => (h.next q hnext).2⟩
    exact h.past q a (Nat.lt_of_lt_of_le (List.getElem?_eq_some_iff.mp ha).1 hr) ha hdirty
  | cons p ps ih =>
    have hp : k.ranked[r]? = some p := by rw [← List.head?_drop, hps, List.head?_cons]
    have hdrop : k.ranked.drop (r + 1) = ps := by rw [← List.tail_drop, hps, List.tail_cons]
    rw [PassRespects] at hrespects
    rw [scanPass, queuePass]
    cases hpend : pend r with
    | true =>
      have hfires := h.fires r p (Nat.le_refl r) hp hpend
      rw [if_pos hfires] at hrespects
      rw [if_pos hfires, if_pos rfl]
      by_cases herror : (p.call c).1.errorCode = .none
      · rw [if_pos herror, if_pos herror]
        exact ih hdrop (h.call hdriver hp hrespects.1 herror) (hrespects.2 herror)
      · rw [if_neg herror, if_neg herror]
        exact .inl ⟨_, rfl, rfl⟩
    | false =>
      rw [if_neg Bool.false_ne_true]
      have hskip := h.skip hp hpend
      by_cases hfires : scanFires k boot trigger c p = true
      · rw [if_pos hfires] at hrespects ⊢
        rcases h.pending r p (Nat.le_refl r) hp hfires with hpend' | ⟨a, rfl, hidle⟩
        · exact absurd (hpend.symm.trans hpend') Bool.false_ne_true
        · rw [hidle.call] at hrespects ⊢
          rw [if_pos hidle.noError]
          exact ih hdrop hskip (hrespects.2 hidle.noError)
      · rw [if_neg hfires] at hrespects ⊢
        exact ih hdrop hskip hrespects

/-! ## One iteration -/

/-- From `c` to `c'` only bits whose owner is dirty have changed, and none that an assignment drives. -/
structure Quiet (k : Circuit Sid Cell World) (c c' : SimCtx Sid Cell World) : Prop where
  value : ∀ cell, k.owner cell ∉ c'.dlist → c'.value cell = c.value cell
  dirty : ∀ s ∈ c.dlist, s ∈ c'.dlist
  undisturbed : Undisturbed k c c'
  noError : c.errorCode = .none → c'.errorCode = .none

theorem Quiet.trans {c c' c'' : SimCtx Sid Cell World} (h : Quiet k c c') (h' : Quiet k c' c'') : Quiet k c c'' where
  value cell hcell := (h'.value cell hcell).trans (h.value cell fun hc => hcell (h'.dirty _ hc))
  dirty s hs := h'.dirty s (h.dirty s hs)
  undisturbed a ha cell hcell := (h'.undisturbed a ha cell hcell).trans (h.undisturbed a ha cell hcell)
  noError hc := h'.noError (h.noError hc)

theorem run_quiet {es : List (Effect Cell World)} {c : SimCtx Sid Cell World}
    (h : Undisturbed k c (run k.owner c es).1)
    (herror : c.errorCode = .none → (run k.owner c es).1.errorCode = .none) : Quiet k c (run k.owner c es).1 where
  value cell hcell := run_value fun hlog => hcell (mem_run_dlist.mpr (.inr hlog))
  dirty _ hs := mem_run_dlist.mpr (.inl hs)
  undisturbed := h
  noError := herror

theorem runSeqs_quiet {snap : Cell → Bit} {qs : List (Seq Sid Cell World × Nat)} {c c' : SimCtx Sid Cell World}
    {done done' : List Nat} (h : runSeqs k snap qs c done = .ok (c', done')) (hrespects : SeqsRespect k snap qs c) :
    Quiet k c c' := by
  induction qs generalizing c done with
  | nil =>
    cases h
    exact ⟨fun _ _ => rfl, fun _ hs => hs, fun _ _ _ _ => rfl, id⟩
  | cons q qs ih =>
    rw [runSeqs] at h
    by_cases herror : (run k.owner c (q.1.body snap c)).1.errorCode = .none
    · rw [if_pos herror] at h
      exact (run_quiet hrespects.1 fun _ => herror).trans (ih h (hrespects.2 herror))
    · rw [if_neg herror] at h
      cases h

/-- Writes raise no error. -/
theorem run_errorCode {owner : Cell → Sid} {es : List (Effect Cell World)} {c : SimCtx Sid Cell World}
    (h : ∀ e ∈ es, ∀ code, e ≠ .error code) : (run owner c es).1.errorCode = c.errorCode := by
  induction es generalizing c with
  | nil => rfl
  | cons e es ih =>
    rw [run, ih fun e' he' => h e' (List.mem_cons_of_mem _ he')]
    cases e with
    | write cell v =>
      rw [Effect.exec]
      split
      · rfl
      · rw [markDirty_errorCode]
    | writeMem cell v => rw [Effect.exec, markDirty_errorCode]
    | stage nba => rfl
    | world w => rfl
    | error code => exact absurd rfl (h _ List.mem_cons_self code)

theorem nbaApply_quiet {c : SimCtx Sid Cell World} (h : Undisturbed k c (k.nbaApply c)) :
    Quiet k c (k.nbaApply c) := by
  unfold Circuit.nbaApply at h ⊢
  split
  case isTrue _ => exact ⟨fun _ _ => rfl, fun _ hs => hs, fun _ _ _ _ => rfl, id⟩
  case isFalse hpending =>
    rw [if_neg hpending] at h
    have herror : ∀ e ∈ c.nba.signals.flatten.map (fun cv => (.write cv.1 cv.2 : Effect Cell World)) ++
        c.nba.memRange.flatten.map (fun cv => .writeMem cv.1 cv.2), ∀ code, e ≠ .error code := by
      intro e he code hcode
      rcases List.mem_append.mp he with he | he
      · obtain ⟨cv, _, rfl⟩ := List.mem_map.mp he
        cases hcode
      · obtain ⟨cv, _, rfl⟩ := List.mem_map.mp he
        cases hcode
    obtain ⟨hvalue, hdirty, hundisturbed, hnoError⟩ := run_quiet h fun hc => (run_errorCode herror).trans hc
    exact ⟨hvalue, hdirty, hundisturbed, hnoError⟩

section Iteration

variable {snap : Cell → Bit} {it : Nat} {done : List Nat} {c : SimCtx Sid Cell World} {pnext : Nat → Bool}

theorem bootIt_eq_false (h : it ≠ 0) : bootIt it c = false := by
  rw [bootIt, beq_eq_false_iff_ne.mpr h, Bool.false_and]

theorem seeds_of_ranked {boot : Bool} {trigger : List Sid} {c' : SimCtx Sid Cell World} {q : Nat}
    {p : Ranked Sid Cell World k.owner} (hp : k.ranked[q]? = some p) :
    seeds k it boot trigger pnext c' q =
      ((if it = 0 then (boot && p.start) || p.reads trigger else (!p.pure && p.reads trigger) || pnext q) ||
        p.always || p.reads c'.dlist) := by
  rw [seeds, hp]

/-- With the seeds of an iteration the pass begins as it should. -/
theorem passInv_seeds (hstart : it = 0 ∨ Owed k c pnext) {c' : SimCtx Sid Cell World}
    (hquiet : Quiet k (taken it c) c') :
    PassInv k (bootIt it c) c.dlist 0 c' (seeds k it (bootIt it c) c.dlist pnext c') (fun _ => false) := by
  constructor
  case fires =>
    intro q p _ hp hseed
    rw [seeds_of_ranked hp] at hseed
    rw [scanFires]
    by_cases hit : it = 0
    · rw [if_pos hit] at hseed
      grind
    · rw [if_neg hit] at hseed
      simp only [Bool.or_eq_true, Bool.and_eq_true] at hseed ⊢
      rcases hseed with ((⟨_, hreads⟩ | hnext) | halways) | hreads
      · exact .inl (.inr hreads)
      · -- what is owed a run reads what was dirty
        obtain ⟨a, ha, hreads⟩ := (hstart.resolve_left hit).reads q hnext
        obtain rfl : p = .cont a := Option.some.inj (hp.symm.trans ha)
        exact .inl (.inr hreads)
      · exact .inl (.inl (.inl halways))
      · exact .inr hreads
  case pending =>
    intro q p _ hp hfires
    rw [seeds_of_ranked hp]
    rw [scanFires] at hfires
    by_cases hit : it = 0
    · rw [if_pos hit]
      grind
    · rw [if_neg hit]
      rw [bootIt_eq_false hit] at hfires
      simp only [Bool.or_eq_true, Bool.and_eq_true, Bool.false_and, Bool.false_eq_true, or_false] at hfires ⊢
      rcases hfires with (halways | hreads) | hreads
      · exact .inl (.inl (.inr halways))
      · cases p with
        | combo p => exact .inl (.inl (.inl (.inl ⟨rfl, hreads⟩)))
        | cont a =>
          rcases (hstart.resolve_left hit).idle q a hp hreads with hnext | hidle
          · exact .inl (.inl (.inl (.inr hnext)))
          · by_cases hdirty : (Ranked.cont a : Ranked Sid Cell World k.owner).reads c'.dlist = true
            · exact .inl (.inr hdirty)
            · refine .inr ⟨a, rfl, hidle.keep (fun cell hcell => ?_) (fun cell hcell => ?_) ?_⟩
              · exact hquiet.value cell fun hc => hdirty (Ranked.reads_iff.mpr ⟨_, hcell, hc⟩)
              · exact hquiet.undisturbed a (Circuit.mem_conts_of_ranked hp) cell hcell
              · exact hquiet.noError hidle.noError
      · exact .inl (.inr hreads)
  case past => exact fun q _ hq => absurd hq (Nat.not_lt_zero q)
  case next => exact fun _ hnext => absurd hnext Bool.false_ne_true

/-- The end of an iteration does not look at what is owed. -/
theorem conclude_cases (k : Circuit Sid Cell World) (it : Nat) (before : Cell → Bit) (c : SimCtx Sid Cell World)
    (done : List Nat) :
    (∀ pnext, k.conclude it before c done pnext = .stop c) ∨
      ∀ pnext, k.conclude it before c done pnext = .next c done pnext := by
  simp only [Circuit.conclude]
  split
  · split
    · exact .inl fun _ => rfl
    · exact .inr fun _ => rfl
  · exact .inl fun _ => rfl

/-- An iteration of the one engine and of the other. -/
theorem iteration_eq (hdriver : SingleDriver k) (hstart : it = 0 ∨ Owed k c pnext)
    (hrespects : (c.dlist.isEmpty && !bootIt it c) = false → IterationRespects k snap it done c) :
    (∃ c', k.iteration k.scan snap it done (fun _ => false) c = .ret c' ∧
        k.iteration k.queue snap it done pnext c = .ret c') ∨
      (∃ c', k.iteration k.scan snap it done (fun _ => false) c = .stop c' ∧
        k.iteration k.queue snap it done pnext c = .stop c') ∨
      ∃ c' done' pnext', k.iteration k.scan snap it done (fun _ => false) c = .next c' done' (fun _ => false) ∧
        k.iteration k.queue snap it done pnext c = .next c' done' pnext' ∧ Owed k c' pnext' := by
  rw [Circuit.iteration, Circuit.iteration]
  cases hidle : c.dlist.isEmpty && !bootIt it c with
  | true => exact .inr (.inl ⟨c, rfl, rfl⟩)
  | false =>
    rw [if_neg Bool.false_ne_true, if_neg Bool.false_ne_true]
    obtain ⟨hseqs, hpass⟩ := hrespects hidle
    cases hrun : runSeqs k snap (k.fired snap c.dlist done (taken it c)) (taken it c) done with
    | error c' => exact .inl ⟨c', rfl, rfl⟩
    | ok r =>
      obtain ⟨c', done'⟩ := r
      obtain ⟨hundisturbed, hranked⟩ := hpass c' done' hrun
      have hquiet := (runSeqs_quiet hrun hseqs).trans (nbaApply_quiet hundisturbed)
      have hinv := passInv_seeds hstart hquiet
      simp only [Circuit.scan, Circuit.queue]
      rcases queuePass_eq hdriver List.drop_zero hinv hranked with
        ⟨c'', hscan, hqueue⟩ | ⟨c'', pnext', hscan, hqueue, howed⟩
      · rw [hscan, hqueue]
        exact .inl ⟨c'', rfl, rfl⟩
      · rw [hscan, hqueue]
        rcases conclude_cases k it c.value c'' done' with hstop | hnext
        · exact .inr (.inl ⟨c'', hstop _, hstop _⟩)
        · exact .inr (.inr ⟨c'', done', pnext', hnext _, hnext _, howed⟩)

end Iteration

/-! ## The loop -/

theorem deltaLoop_eq (hdriver : SingleDriver k) {snap : Cell → Bit} {c₀ : SimCtx Sid Cell World}
    (hrespects : DriversRespected k snap c₀) {n it : Nat} {done : List Nat} {c : SimCtx Sid Cell World}
    {pnext : Nat → Bool} (hn : it + n = k.deltaLimit) (hreach : ScanReaches k snap c₀ it done c)
    (hstart : it = 0 ∨ Owed k c pnext) :
    k.deltaLoop k.queue snap n it done pnext c = k.deltaLoop k.scan snap n it done (fun _ => false) c := by
  induction n generalizing it done c pnext with
  | zero => rfl
  | succ n ih =>
    have hlt : it < k.deltaLimit := by omega
    rw [Circuit.deltaLoop, Circuit.deltaLoop]
    rcases iteration_eq hdriver hstart (hrespects it done c hlt hreach) with
      ⟨c', hscan, hqueue⟩ | ⟨c', hscan, hqueue⟩ | ⟨c', done', pnext', hscan, hqueue, howed⟩
    · rw [hscan, hqueue]
    · rw [hscan, hqueue]
    · rw [hscan, hqueue]
      exact ih (by omega) (.next hreach hscan) (.inr howed)

/-- Where no process and no commit changes a bit that a continuous assignment drives, the two engines return the
same count and leave the same context. -/
theorem queueLoop_eq_scanLoop {snap : Cell → Bit} {c : SimCtx Sid Cell World} (hdriver : SingleDriver k)
    (h : DriversRespected k snap c) : k.queueLoop snap c = k.scanLoop snap c :=
  deltaLoop_eq hdriver h (Nat.zero_add _) .start (.inl rfl)

theorem passRespects_of_forall {boot : Bool} {trigger : List Sid} {ps : List (Ranked Sid Cell World k.owner)}
    {c : SimCtx Sid Cell World} (h : ∀ p ∈ ps, ∀ c, Respects k c p) : PassRespects k boot trigger ps c := by
  induction ps generalizing c with
  | nil => trivial
  | cons p ps ih =>
    have ih' := fun c => ih (c := c) fun p' hp' => h p' (List.mem_cons_of_mem _ hp')
    rw [PassRespects]
    split
    · exact ⟨h p List.mem_cons_self c, fun _ => ih' _⟩
    · exact ih' c

/-! ## A small design -/

/-- The signals of a small design. -/
inductive Wire
  | d | a | clk | y | q
  deriving DecidableEq

/-- `assign out = source;` -/
def wireAssign (out source : Wire) : ContAssign Wire Wire id where
  sens := [source]
  drive s := [(out, s source)]
  sens_ne_nil := List.cons_ne_nil _ _
  drive_eq s s' h := by rw [h source List.mem_cons_self]

/-- `assign a = d; assign clk = d; assign y = a;` with a block that clears one signal at a rising edge of `clk`. -/
def clockedDesign (target : Wire) : Circuit Wire Wire Unit where
  owner := id
  bit0 := id
  signals := [.d, .a, .clk, .y, .q]
  conts := [wireAssign .a .d, wireAssign .clk .d, wireAssign .y .a]
  combos := []
  seqs := [⟨[(.clk, true)], fun _ _ => [.write target ⟨false, false⟩]⟩]
  deltaLimit := 1000

/-- `d` rises. -/
def risen : SimCtx Wire Wire Unit where
  value w := if w = .d ∨ w = .q then ⟨true, false⟩ else ⟨false, false⟩
  dlist := [.d]
  boot := false
  nba := ⟨[], [], false⟩
  world := ()
  errorCode := .none

theorem singleDriver_clockedDesign (target : Wire) : SingleDriver (clockedDesign target) := by
  have hdrives : ∀ out source cell, (wireAssign out source).Drives cell → cell = out := by
    intro out source cell ⟨s, v, hv⟩
    exact (Prod.mk.inj (List.mem_singleton.mp hv)).1
  have hne : ∀ out out' source source', out ≠ out' → ∀ cell, (wireAssign out source).Drives cell →
      ¬(wireAssign out' source').Drives cell := fun out out' source source' hout cell h h' =>
    hout ((hdrives out source cell h).symm.trans (hdrives out' source' cell h'))
  refine List.pairwise_cons.mpr ⟨fun b hb => ?_, List.pairwise_pair.mpr (hne _ _ _ _ (by decide))⟩
  rcases List.mem_cons.mp hb with rfl | hb
  · exact hne _ _ _ _ (by decide)
  · cases List.mem_singleton.mp hb
    exact hne _ _ _ _ (by decide)

/-- The context in which its second iteration begins. -/
def propagated : SimCtx Wire Wire Unit :=
  { risen with
    value := Function.update (Function.update (Function.update risen.value .a ⟨true, false⟩) .clk ⟨true, false⟩) .y
      ⟨true, false⟩
    dlist := [.a, .clk, .y] }

theorem scanReaches_clockedDesign {it : Nat} {done : List Nat} {c : SimCtx Wire Wire Unit}
    (h : ScanReaches (clockedDesign .q) (fun _ => ⟨false, false⟩) risen it done c) :
    it = 0 ∧ done = [] ∧ c = risen ∨ it = 1 ∧ done = [] ∧ c = propagated := by
  induction h with
  | start => exact .inl ⟨rfl, rfl, rfl⟩
  | next _ hstep ih =>
    rcases ih with ⟨rfl, rfl, rfl⟩ | ⟨rfl, rfl, rfl⟩
    · have hpropagated : (clockedDesign .q).iteration (clockedDesign .q).scan (fun _ => ⟨false, false⟩) 0 []
          (fun _ => false) risen = .next propagated [] (fun _ => false) := rfl
      cases hpropagated.symm.trans hstep
      exact .inr ⟨rfl, rfl, rfl⟩
    · cases hstep

theorem respects_clockedDesign {c : SimCtx Wire Wire Unit} {p : Ranked Wire Wire Unit id}
    (hp : p ∈ (clockedDesign .q).ranked) : Respects (clockedDesign .q) c p := by
  have hwire : ∀ out source, Respects (clockedDesign .q) c (.cont (wireAssign out source)) := by
    intro out source cv hcv
    rw [List.mem_singleton.mp hcv]
    change (Effect.exec id c (.write out (c.value source))).value out = c.value source
    rw [Effect.exec]
    split
    case isTrue h => exact h
    case isFalse _ =>
      rw [markDirty_value]
      exact Function.update_self _ _ _
  have hmem : p ∈ [Ranked.cont (wireAssign .a .d), .cont (wireAssign .clk .d), .cont (wireAssign .y .a)] := hp
  simp only [List.mem_cons, List.not_mem_nil, or_false] at hmem
  rcases hmem with rfl | rfl | rfl <;> exact hwire _ _

theorem undisturbed_clockedDesign {c c' : SimCtx Wire Wire Unit} (h : ∀ w, w ≠ .q → c'.value w = c.value w) :
    Undisturbed (clockedDesign .q) c c' := by
  intro a ha cell ⟨s, v, hv⟩
  apply h
  rcases List.mem_cons.mp ha with rfl | ha
  · rw [(Prod.mk.inj (List.mem_singleton.mp hv)).1]
    decide
  · rcases List.mem_cons.mp ha with rfl | ha
    · rw [(Prod.mk.inj (List.mem_singleton.mp hv)).1]
      decide
    · cases List.mem_singleton.mp ha
      rw [(Prod.mk.inj (List.mem_singleton.mp hv)).1]
      decide

theorem driversRespected_clockedDesign : DriversRespected (clockedDesign .q) (fun _ => ⟨false, false⟩) risen := by
  intro it done c _ hreach _
  rcases scanReaches_clockedDesign hreach with ⟨rfl, rfl, rfl⟩ | ⟨rfl, rfl, rfl⟩
  · refine ⟨trivial, fun c' done' hrun => ?_⟩
    cases hrun
    exact ⟨undisturbed_clockedDesign fun _ _ => rfl, passRespects_of_forall fun _ hp _ => respects_clockedDesign hp⟩
  · -- the block fires
    refine ⟨⟨undisturbed_clockedDesign fun w hw => ?_, fun _ => trivial⟩, fun c' done' hrun => ?_⟩
    · cases w with
      | q => exact absurd rfl hw
      | _ => rfl
    · cases hrun
      exact ⟨undisturbed_clockedDesign fun _ _ => rfl, passRespects_of_forall fun _ hp _ => respects_clockedDesign hp⟩

theorem queueLoop_eq_scanLoop_clockedDesign :
    (clockedDesign .q).queueLoop (fun _ => ⟨false, false⟩) risen =
      (clockedDesign .q).scanLoop (fun _ => ⟨false, false⟩) risen :=
  queueLoop_eq_scanLoop (singleDriver_clockedDesign .q) driversRespected_clockedDesign

/-- The block clears `y` in the second iteration, in which only the scan runs `assign y = a;` again. -/
theorem queueLoop_ne_scanLoop : SingleDriver (clockedDesign .y) ∧
    ((clockedDesign .y).queueLoop (fun _ => ⟨false, false⟩) risen).1.value .y ≠
      ((clockedDesign .y).scanLoop (fun _ => ⟨false, false⟩) risen).1.value .y :=
  ⟨singleDriver_clockedDesign .y, by decide⟩

end Veriforge.Compiled

import Veriforge.Sched.VmBatch

/-! # The reference scheduler and the VM scheduler agree

Both kernels end a batch with the combinational logic settled, so they agree when they agree on the
rest: on the drives, and on what the edge-triggered blocks of the batch computed. They run these
blocks in the same order from the same store, provided that no combinational block runs together with
them: combinational blocks run in process order in the one and in the order of a set in the other, and
an edge-triggered block in the same list reads what they have computed so far. -/

namespace Veriforge.Sched

open Design

variable {Name : Type} [DecidableEq Name] {β : Type}

/-- A scheduler after elaboration. -/
def elaborated (init : Store Name) : Rest Name where
  store := init
  own := fun _ => none
  bootstrapped := false
  pending := ∅
  snapshot := init
  driven := fun _ h => absurd rfl h

namespace Design

variable (D : Design Name) (o : SetOrder Name)

/-- The call of `settle` runs the block. -/
def RanIn (limit : Nat) (S : Rest Name) (i : Nat) : Prop :=
  ∃ r, D.settleBatch limit S = some r ∧ r.2.endedAt i ≠ none

/-- The call of the VM's `settle` runs the block. -/
def VmRanIn (limit : Nat) (S : Rest Name) (i : Nat) : Prop :=
  ∃ r, D.vmSettleBatch o limit S = some r ∧ r.2.endedAt i ≠ none

/-- The two schedulers after the same calls from elaboration on, `R` and `Q` being the blocks that they
have run: drives of signals that nobody drives combinationally, and orderly calls of `settle` in which
a block that would change something as elaborated is run for the first time by both or by neither. -/
inductive Calls (limit : Nat) (init : Store Name) :
    Rest Name → Rest Name → (Nat → Prop) → (Nat → Prop) → Prop where
  | elaborated : Calls limit init (elaborated init) (elaborated init) (fun _ => False) fun _ => False
  | drive {S V : Rest Name} {R Q : Nat → Prop} (h : Calls limit init S V R Q) (w : Name × Slot)
      (hw : (∀ a ∈ D.assigns, ¬ a.Writes w.1) ∧ ∀ c ∈ D.combos, ¬ c.Writes w.1) :
      Calls limit init (driveSignal S w) (driveSignal V w) R Q
  | settle {S V S' V' : Rest Name} {R Q : Nat → Prop} (h : Calls limit init S V R Q)
      (hS : D.settle limit S = some S') (hV : D.vmSettle o limit V = some V')
      (horder : ∀ r, D.settleBatch limit S = some r → Orderly D S r)
      (hvorder : ∀ r, D.vmSettleBatch o limit V = some r → Orderly D V r)
      (hfirst : ∀ c ∈ D.combos, ¬ c.Holds init →
        ((R c.id ∨ D.RanIn limit S c.id) ↔ (Q c.id ∨ D.VmRanIn o limit V c.id))) :
      Calls limit init S' V' (fun i => R i ∨ D.RanIn limit S i) fun i => Q i ∨ D.VmRanIn o limit V i

end Design

variable {D : Design Name} {held : Name → List (Nat × Nat) → β} {rank : Name → Nat} {o : SetOrder Name}

/-- What the two schedulers have in common between calls. -/
structure Alike (D : Design Name) (init : Store Name) (S V : Rest Name) (R Q : Nat → Prop) : Prop where
  rested : Rested D init S R
  vmRested : Rested D init V Q
  bootstrapped : S.bootstrapped = V.bootstrapped
  pending : S.pending = V.pending
  store : Same S.store V.store
  before : Same S.before V.before
  ran : ∀ c ∈ D.combos, ¬ c.Holds init → (R c.id ↔ Q c.id)

theorem alike_elaborated {init : Store Name} (hinit : ∀ a ∈ D.assigns, a.Holds init) :
    Alike D init (elaborated init) (elaborated init) (fun _ => False) fun _ => False := by
  have hbefore : (elaborated init).before = init := if_neg Finset.not_nonempty_empty
  have hrested : Rested D init (elaborated init) fun _ => False := by
    refine ⟨?_, fun n hn => absurd hn (Finset.notMem_empty n), fun _ _ h => h⟩
    rw [hbefore]
    exact ⟨hinit, fun _ _ h => h.elim, fun _ _ _ _ _ => rfl⟩
  exact ⟨hrested, hrested, rfl, rfl, Same.refl _, Same.refl _, fun _ _ _ => Iff.rfl⟩

theorem Alike.drive {init : Store Name} {S V : Rest Name} {R Q : Nat → Prop} (h : Alike D init S V R Q)
    {w : Name × Slot} (hw : (∀ a ∈ D.assigns, ¬ a.Writes w.1) ∧ ∀ c ∈ D.combos, ¬ c.Writes w.1) :
    Alike D init (driveSignal S w) (driveSignal V w) R Q := by
  refine ⟨h.rested.drive hw, h.vmRested.drive hw, h.bootstrapped, congrArg (insert w.1) h.pending,
    h.store.update w.1 rfl, ?_, h.ran⟩
  rw [before_driveSignal, before_driveSignal]
  exact h.before

/-- A call that has something to do leaves both kernels with the same values. -/
theorem Alike.same (hR : Regular D held rank) {init : Store Name} {S V : Rest Name} {R Q : Nat → Prop}
    (h : Alike D init S V R Q) (hwork : S.bootstrapped = true → S.pending.Nonempty)
    {r t : (Kernel Name × List (Always Name)) × Kernel Name} (hr : Settling D held init S R r.1 r.2)
    (ht : Settling D held init V Q t.1 t.2) (ho : Orderly D S r) (hvo : Orderly D V t)
    (hfirst : ∀ c ∈ D.combos, ¬ c.Holds init →
      ((R c.id ∨ r.2.endedAt c.id ≠ none) ↔ (Q c.id ∨ t.2.endedAt c.id ≠ none))) :
    Same r.2.store t.2.store := by
  refine hr.current.same hR.levelled hR.rerun hR.unmixed ht.current hfirst ?_
  have hstore : ∀ n, held n (S.store n).bits = held n (V.store n).bits := fun n => congrArg (held n) (h.store n)
  have hquiet : (∀ p ∈ r.1.2, p ∈ D.combos) → (∀ p ∈ t.1.2, p ∈ D.combos) →
      ∀ n, held n (r.2.store n).bits = held n (t.2.store n).bits := fun hp hq n =>
    ((hr.combos hp n).trans (hstore n)).trans (ht.combos hq n).symm
  by_cases hboot : S.bootstrapped = true
  · have hvboot : V.bootstrapped = true := h.bootstrapped ▸ hboot
    have hpending := hwork hboot
    have hsnapshot : Same S.snapshot V.snapshot := by
      have hs := h.before
      unfold Rest.before at hs
      rw [if_pos hpending, if_pos (h.pending ▸ hpending)] at hs
      exact hs
    -- the drives and their fan-out are the same, because no combinational block has run yet
    have hcollected : Same r.1.1.store t.1.1.store := by
      refine hR.levelled.same (hr.assigns hboot) (ht.assigns hvboot) (fun c hc => Or.inr fun n hn => ?_) fun n => ?_
      · rw [hr.outputs hboot c hc n hn, ht.outputs hvboot c hc n hn]
        exact h.before n
      · rw [hr.held hboot, ht.held hvboot]
        exact hstore n
    obtain ⟨cs, hcs, hrs⟩ := hr.collected hboot
    obtain ⟨vs, hvs, hts⟩ := ht.collected hvboot
    rw [← due_congr hsnapshot hcollected] at hts
    by_cases hdue : D.due S.snapshot r.1.1.store = []
    · rw [hdue, List.append_nil] at hrs hts
      refine hquiet (fun p hp => hcs p (hrs ▸ hp)) fun p hp => hvs p (hts ▸ hp)
    · -- somebody is fired, so nobody else is collected
      obtain ⟨p, hp⟩ := List.exists_mem_of_ne_nil _ hdue
      have hseq : p ∈ D.seqs := List.mem_of_mem_filter hp
      have halone : ∀ {ps cs : List (Always Name)}, (∀ q ∈ cs, q ∈ D.combos) →
          ps = cs ++ D.due S.snapshot r.1.1.store → ((∀ q ∈ ps, q ∈ D.seqs) ∨ ∀ q ∈ ps, q ∈ D.combos) →
          ps = D.due S.snapshot r.1.1.store ∧ ∀ q ∈ ps, q ∈ D.seqs := by
        intro ps cs hcs hps hapart
        have hin : p ∈ ps := hps ▸ List.mem_append_right _ hp
        have hall : ∀ q ∈ ps, q ∈ D.seqs :=
          hapart.resolve_right fun hc => D.notMem_combos hseq (hc p hin)
        have hnil : cs = [] := by
          refine List.eq_nil_iff_forall_not_mem.mpr fun q hq => ?_
          exact D.notMem_combos (hall q (hps ▸ List.mem_append_left _ hq)) (hcs q hq)
        rw [hnil, List.nil_append] at hps
        exact ⟨hps, hall⟩
      obtain ⟨hrd, hrall⟩ := halone hcs hrs ho.apart
      obtain ⟨htd, htall⟩ := halone hvs hts hvo.apart
      obtain ⟨τ, queue, ended, hran, hheld⟩ := hr.seqs (hrd ▸ hdue) hrall
      obtain ⟨τ', queue', ended', hran', hheld'⟩ := ht.seqs (htd ▸ hdue) htall
      rw [htd, ← hrd] at hran'
      obtain ⟨hτ, hqueue⟩ := Ran.congr (fun q hq => hR.congr q (List.mem_append_right _ (hrall q hq))) hran hran'
        hcollected
      intro n
      rw [hheld n, hheld' n]
      exact congrArg (held n) (afterUpdates_congr hqueue (hτ n))
  · have hfalse : S.bootstrapped = false := Bool.not_eq_true _ ▸ hboot
    exact hquiet (hr.first hfalse) (ht.first (h.bootstrapped ▸ hfalse))

theorem rested_resting {init : Store Name} {K : Kernel Name} {R : Nat → Prop} (h : Current D init K.store R) :
    Rested D init (resting K) R := by
  refine ⟨?_, fun n hn => absurd hn (Finset.notMem_empty n), fun hb => (nomatch hb)⟩
  have hbefore : (resting K).before = K.store := if_neg Finset.not_nonempty_empty
  rw [hbefore]
  exact h

theorem Alike.settle (hR : Regular D held rank) {limit : Nat} (hP : D.Propagates limit)
    (hconv : ∀ σ work, D.VmConverges o limit σ work) {init : Store Name} {S V S' V' : Rest Name} {R Q : Nat → Prop}
    (h : Alike D init S V R Q) (hS : D.settle limit S = some S') (hV : D.vmSettle o limit V = some V')
    (horder : ∀ r, D.settleBatch limit S = some r → Orderly D S r)
    (hvorder : ∀ r, D.vmSettleBatch o limit V = some r → Orderly D V r)
    (hfirst : ∀ c ∈ D.combos, ¬ c.Holds init →
      ((R c.id ∨ D.RanIn limit S c.id) ↔ (Q c.id ∨ D.VmRanIn o limit V c.id))) :
    Alike D init S' V' (fun i => R i ∨ D.RanIn limit S i) fun i => Q i ∨ D.VmRanIn o limit V i := by
  rw [settle_eq] at hS
  obtain ⟨r, hr, rfl⟩ := Option.map_eq_some_iff.mp hS
  obtain ⟨t, ht, rfl⟩ := Option.map_eq_some_iff.mp hV
  have hran : ∀ i, D.RanIn limit S i ↔ r.2.endedAt i ≠ none := by
    intro i
    constructor
    · rintro ⟨r', hr', hi⟩
      rw [hr] at hr'
      exact Option.some.inj hr' ▸ hi
    · exact fun hi => ⟨r, hr, hi⟩
  have hvran : ∀ i, D.VmRanIn o limit V i ↔ t.2.endedAt i ≠ none := by
    intro i
    constructor
    · rintro ⟨t', ht', hi⟩
      rw [ht] at ht'
      exact Option.some.inj ht' ▸ hi
    · exact fun hi => ⟨t, ht, hi⟩
  simp only [hran, hvran] at hfirst ⊢
  by_cases hidle : S.bootstrapped = true ∧ ¬ S.pending.Nonempty
  · -- nothing happens
    have hvidle : V.bootstrapped = true ∧ ¬ V.pending.Nonempty := h.bootstrapped ▸ h.pending ▸ hidle
    have hnone : ∀ i, r.2.endedAt i = none := by
      unfold settleBatch at hr
      rw [if_pos hidle.1, if_neg hidle.2] at hr
      exact fun i => Option.some.inj hr ▸ rfl
    have hvnone : ∀ i, t.2.endedAt i = none := by
      unfold vmSettleBatch at ht
      rw [if_neg hvidle.2, if_neg fun hb => Bool.false_ne_true (hb.1.symm.trans hvidle.1)] at ht
      exact fun i => Option.some.inj ht ▸ rfl
    rw [if_pos hidle, if_pos hvidle]
    simpa only [hnone, hvnone, ne_eq, not_true_eq_false, or_false] using h
  · have hvidle : ¬ (V.bootstrapped = true ∧ ¬ V.pending.Nonempty) := h.bootstrapped ▸ h.pending ▸ hidle
    have hwork : S.bootstrapped = true → S.pending.Nonempty := fun hb => by
      by_contra hp
      exact hidle ⟨hb, hp⟩
    have hvwork : V.bootstrapped = true → V.pending.Nonempty := fun hb => by
      by_contra hp
      exact hvidle ⟨hb, hp⟩
    have hsr := h.rested.settling hR hP hwork hr (horder r hr)
    have hst := h.vmRested.vm_settling hR hconv hvwork ht (hvorder t ht)
    have hsame : Same r.2.store t.2.store := h.same hR hwork hsr hst (horder r hr) (hvorder t ht) hfirst
    rw [if_neg hidle, if_neg hvidle]
    exact ⟨rested_resting hsr.current, rested_resting hst.current, rfl, rfl, hsame, hsame, hfirst⟩

/-- Inputs, two levels of logic and a register. -/
inductive Pin where
  | a
  | b
  | clk
  | x
  | g
  | q
  deriving DecidableEq

/-- The bit that a signal holds. -/
def slotBit (s : Slot) : Bool := decide (s.bits = [(1, 0)])

/-- `always_comb x = b;`, `always_comb g = a & ~x;` and `always @(posedge clk) q <= g;`. -/
def sampled : Design Pin where
  memory := fun _ => false
  assigns := []
  combos :=
    [⟨1, {.b}, ∅, [], true, fun σ => ⟨[(.x, bitSlot (slotBit (σ .b)))], []⟩⟩,
      ⟨2, {.a, .x}, ∅, [], true, fun σ => ⟨[(.g, bitSlot (slotBit (σ .a) && !slotBit (σ .x)))], []⟩⟩]
  seqs := [⟨3, {.clk}, ∅, [(.clk, .posedge)], false, fun σ => ⟨[], [⟨.q, fun _ => bitSlot (slotBit (σ .g))⟩]⟩⟩]
  ids_nodup := by decide

/-- A set of small signal ids is iterated over in ascending order. -/
def ascending : SetOrder Pin where
  list := fun s => [Pin.a, .b, .clk, .x, .g, .q].filter (· ∈ s)
  mem_list := by
    intro s n
    cases n <;> simp

/-- Every signal is 0. -/
def pinsLow : Store Pin := fun _ => bitSlot false

/-- What the logic does not drive. -/
def pinHeld (n : Pin) (bits : List (Nat × Nat)) : List (Nat × Nat) := if n = .x ∨ n = .g then [] else bits

/-- The level of a signal. -/
def pinRank : Pin → Nat
  | .x => 1
  | .g => 2
  | _ => 0

theorem sampled_writes {p : Always Pin} (hp : p ∈ sampled.combos ++ sampled.seqs) {n : Pin} (h : p.Writes n) :
    (p.id = 1 ∧ n = .x) ∨ (p.id = 2 ∧ n = .g) ∨ (p.id = 3 ∧ n = .q) := by
  simp only [sampled, List.cons_append, List.nil_append, List.mem_cons, List.not_mem_nil, or_false] at hp
  rcases hp with rfl | rfl | rfl <;> obtain ⟨σ, hn⟩ := h <;> simpa using hn

theorem sampled_soleWriters : sampled.SoleWriters := by
  constructor
  case assigns => exact fun a ha => absurd ha List.not_mem_nil
  case blocks =>
    intro p hp r hr n hpn hrn
    rcases sampled_writes hp hpn with ⟨hi, hn⟩ | ⟨hi, hn⟩ | ⟨hi, hn⟩ <;>
      rcases sampled_writes hr hrn with ⟨hj, hm⟩ | ⟨hj, hm⟩ | ⟨hj, hm⟩ <;>
      rw [hi, hj] <;> rw [hn] at hm <;> exact nomatch hm
  case across => exact fun a ha => absurd ha List.not_mem_nil

theorem slotBit_congr {s s' : Slot} (h : s.bits = s'.bits) : slotBit s = slotBit s' := by
  unfold slotBit
  rw [h]

theorem sampled_congr : ∀ p ∈ sampled.combos ++ sampled.seqs, p.Congr := by
  intro p hp σ τ hs
  simp only [sampled, List.cons_append, List.nil_append, List.mem_cons, List.not_mem_nil, or_false] at hp
  rcases hp with rfl | rfl | rfl
  · refine ⟨List.Forall₂.cons ⟨rfl, ?_⟩ List.Forall₂.nil, List.Forall₂.nil⟩
    rw [slotBit_congr (hs .b)]
  · refine ⟨List.Forall₂.cons ⟨rfl, ?_⟩ List.Forall₂.nil, List.Forall₂.nil⟩
    rw [slotBit_congr (hs .a), slotBit_congr (hs .x)]
  · refine ⟨List.Forall₂.nil, List.Forall₂.cons ⟨rfl, fun _ _ _ => ?_⟩ List.Forall₂.nil⟩
    change (bitSlot _).bits = (bitSlot _).bits
    rw [slotBit_congr (hs .g)]

/-- A block that assigns `f` to one signal holds where the signal is `f`. -/
theorem holds_single {p : Always Name} {t : Name} {f : Store Name → Slot} (hbody : ∀ σ, p.body σ = ⟨[(t, f σ)], []⟩)
    (σ : Store Name) : p.Holds σ ↔ (f σ).bits = (σ t).bits := by
  have hresult : ∀ n, p.result σ n = Function.update σ t (f σ) n := by
    intro n
    rw [Always.result, hbody]
    rfl
  constructor
  · intro h
    have ht := h t
    rw [hresult, Function.update_self] at ht
    exact ht
  · intro h n
    rw [hresult]
    by_cases hn : n = t
    · subst hn
      rw [Function.update_self, h]
    · rw [Function.update_of_ne hn]

/-- Such a block may run again, when `f` depends on the signals it waits for and not on its own. -/
theorem rerun_single {p : Always Name} {t : Name} {f : Store Name → Slot} (hbody : ∀ σ, p.body σ = ⟨[(t, f σ)], []⟩)
    (ht : t ∉ p.sens) (hf : ∀ σ σ' : Store Name, (∀ n ∈ p.sens, (σ n).bits = (σ' n).bits) → f σ = f σ') :
    p.Rerun := by
  intro σ σ' hsens hout
  rw [holds_single hbody]
  have hwrites : p.Writes t := ⟨σ, Or.inl (by rw [hbody]; exact List.mem_cons_self)⟩
  have hft : f σ' = f σ := by
    refine hf σ' σ fun n hn => ?_
    have hne : n ≠ t := fun he => ht (he ▸ hn)
    rw [hsens n hn, hbody]
    exact congrArg Slot.bits (Function.update_of_ne hne _ _)
  rw [hout t hwrites, hft, Always.result, hbody]
  exact congrArg Slot.bits (Function.update_self t (f σ) σ).symm

theorem sampled_rerun : ∀ c ∈ sampled.combos, c.Rerun := by
  intro c hc
  simp only [sampled, List.mem_cons, List.not_mem_nil, or_false] at hc
  rcases hc with rfl | rfl
  · refine rerun_single (fun _ => rfl) (by decide) fun σ σ' h => ?_
    rw [slotBit_congr (h .b (by decide))]
  · refine rerun_single (fun _ => rfl) (by decide) fun σ σ' h => ?_
    rw [slotBit_congr (h .a (by decide)), slotBit_congr (h .x (by decide))]

theorem sampled_levelled : Levelled sampled pinHeld pinRank := by
  constructor
  case assign_keeps => exact fun a ha => absurd ha List.not_mem_nil
  case assign => exact fun a ha => absurd ha List.not_mem_nil
  case block_keeps =>
    intro c hc σ n
    simp only [sampled, List.mem_cons, List.not_mem_nil, or_false] at hc
    rcases hc with rfl | rfl <;> cases n <;> rfl
  case update_keeps =>
    intro c hc σ u hu
    simp only [sampled, List.mem_cons, List.not_mem_nil, or_false] at hc
    rcases hc with rfl | rfl <;> exact absurd hu List.not_mem_nil
  case block =>
    intro c hc n hn σ σ' h h' _ hlow
    rcases sampled_writes (List.mem_append_left _ hc) hn with ⟨hi, rfl⟩ | ⟨hi, rfl⟩ | ⟨hi, -⟩ <;>
      simp only [sampled, List.mem_cons, List.not_mem_nil, or_false] at hc <;>
      rcases hc with rfl | rfl <;> try exact absurd hi (by decide)
    · rw [← (holds_single (t := .x) (fun _ => rfl) σ).mp h, ← (holds_single (t := .x) (fun _ => rfl) σ').mp h']
      rw [slotBit_congr (hlow .b (by decide))]
    · rw [← (holds_single (t := .g) (fun _ => rfl) σ).mp h, ← (holds_single (t := .g) (fun _ => rfl) σ').mp h']
      rw [slotBit_congr (hlow .a (by decide)), slotBit_congr (hlow .x (by decide))]
  case rest =>
    intro n _ hn b b' hb
    have hx : n ≠ .x := by
      rintro rfl
      exact hn _ List.mem_cons_self ⟨pinsLow, Or.inl List.mem_cons_self⟩
    have hg : n ≠ .g := by
      rintro rfl
      exact hn _ (List.mem_cons_of_mem _ List.mem_cons_self) ⟨pinsLow, Or.inl List.mem_cons_self⟩
    unfold pinHeld at hb
    rw [if_neg (not_or.mpr ⟨hx, hg⟩), if_neg (not_or.mpr ⟨hx, hg⟩)] at hb
    exact hb

theorem sampled_regular : Regular sampled pinHeld pinRank where
  writers := sampled_soleWriters
  covers := fun a ha => absurd ha List.not_mem_nil
  settles := fun a ha => absurd ha List.not_mem_nil
  congr := sampled_congr
  rerun := sampled_rerun
  unmixed := by
    intro c hc σ σ' n _ hn
    simp only [sampled, List.mem_cons, List.not_mem_nil, or_false] at hc
    rcases hc with rfl | rfl <;> exact absurd hn List.not_mem_nil
  levelled := sampled_levelled

theorem sampled_propagates : sampled.Propagates 100 where
  readable := fun _ ha => absurd ha List.not_mem_nil
  converges := fun _ _ hc => absurd hc Bool.false_ne_true

theorem sampled_vmConverges (σ : Store Pin) (work : Finset Pin) : sampled.VmConverges ascending 100 σ work := by
  have hpass : sampled.vmRunDirty ascending σ work = (σ, ∅) := by
    have hnone : ((ascending.list work).flatMap fun n => sampled.assigns.filter fun a => decide (n ∈ a.sens)) = [] :=
      List.flatMap_eq_nil_iff.mpr fun _ _ => rfl
    rw [vmRunDirty, hnone]
    rfl
  intro _
  rw [hpass]
  exact fun h => absurd h Finset.not_nonempty_empty

/-- A batch that fires nobody is orderly. -/
theorem orderly_of_unfired {limit : Nat} {S : Rest Name}
    (hnone : (D.settleBatch limit S).map (fun r => (r.1.1.triggeredSeq, r.2.triggeredSeq)) = some (∅, ∅)) :
    ∀ r, D.settleBatch limit S = some r → Orderly D S r := by
  intro r hr
  rw [hr] at hnone
  obtain ⟨hfirst, hlast⟩ := Prod.mk.inj (Option.some.inj hnone)
  refine ⟨Or.inr fun p hp => ?_, hlast.trans hfirst.symm, fun _ => hlast⟩
  have hfires : p ∈ D.combos ∨ p.id ∈ r.1.1.triggeredSeq := by
    unfold settleBatch at hr
    split at hr
    · split at hr
      · obtain ⟨K, -, rfl⟩ := Option.map_eq_some_iff.mp hr
        exact (fires_collectTriggered hp).imp_right And.right
      · exact absurd (Option.some.inj hr ▸ hp) List.not_mem_nil
    · obtain ⟨b, -, hr⟩ := Option.bind_eq_some_iff.mp hr
      split at hr
      · obtain ⟨K, -, rfl⟩ := Option.map_eq_some_iff.mp hr
        have hin : p ∈ (D.driven limit (atFirstSettle S b.1) (S.pending ∪ b.2)).2 := by
          change p ∈ (D.drivenFirst limit S b.1 b.2).2 at hp
          unfold drivenFirst at hp
          dsimp only at hp
          split at hp
          · exact List.mem_of_mem_filter hp
          · exact hp
        exact (fires_collectTriggered hin).imp_right And.right
      · exact absurd (Option.some.inj hr ▸ hp) List.not_mem_nil
  rw [hfirst] at hfires
  exact hfires.resolve_right (Finset.notMem_empty _)

/-- And in the VM. -/
theorem vm_orderly_of_unfired {limit : Nat} {S : Rest Name}
    (hnone : (D.vmSettleBatch o limit S).map (fun r => (r.1.1.triggeredSeq, r.2.triggeredSeq)) = some (∅, ∅)) :
    ∀ r, D.vmSettleBatch o limit S = some r → Orderly D S r := by
  intro r hr
  rw [hr] at hnone
  obtain ⟨hfirst, hlast⟩ := Prod.mk.inj (Option.some.inj hnone)
  refine ⟨Or.inr fun p hp => ?_, hlast.trans hfirst.symm, fun _ => hlast⟩
  have hfires : p ∈ D.combos ∨ p.id ∈ r.1.1.triggeredSeq := by
    unfold vmSettleBatch at hr
    split at hr
    · dsimp only at hr
      split at hr
      · obtain ⟨K, -, rfl⟩ := Option.map_eq_some_iff.mp hr
        exact (fires_vmCollectTriggered hp).imp_right And.right
      · obtain ⟨K, -, rfl⟩ := Option.map_eq_some_iff.mp hr
        rcases List.mem_append.mp hp with hp | hp
        · exact Or.inl (List.mem_of_mem_filter hp)
        · exact (fires_vmCollectTriggered (List.mem_of_mem_filter hp)).imp_right And.right
    · split at hr
      · obtain ⟨K, -, rfl⟩ := Option.map_eq_some_iff.mp hr
        exact absurd hp List.not_mem_nil
      · exact absurd (Option.some.inj hr ▸ hp) List.not_mem_nil
  rw [hfirst] at hfires
  exact hfires.resolve_right (Finset.notMem_empty _)

theorem sampled_holds_low : ∀ c ∈ sampled.combos, c.Holds pinsLow := by
  intro c hc
  simp only [sampled, List.mem_cons, List.not_mem_nil, or_false] at hc
  rcases hc with rfl | rfl
  · exact (holds_single (t := .x) (fun _ => rfl) pinsLow).mpr (by decide)
  · exact (holds_single (t := .g) (fun _ => rfl) pinsLow).mpr (by decide)

/-- `a` and `b` are driven before the first call. -/
def sampledDriven : Rest Pin := driveSignal (driveSignal (elaborated pinsLow) (.a, bitSlot true)) (.b, bitSlot true)

theorem sampledDriven_calls :
    sampled.Calls ascending 100 pinsLow sampledDriven sampledDriven (fun _ => False) fun _ => False := by
  have hpin : ∀ n : Pin, n ≠ .x → n ≠ .g →
      (∀ a ∈ sampled.assigns, ¬ a.Writes n) ∧ ∀ c ∈ sampled.combos, ¬ c.Writes n := by
    intro n hnx hng
    refine ⟨fun a ha => absurd ha List.not_mem_nil, fun c hc hn => ?_⟩
    rcases sampled_writes (List.mem_append_left _ hc) hn with ⟨-, h⟩ | ⟨-, h⟩ | ⟨hi, -⟩
    · exact hnx h
    · exact hng h
    · simp only [sampled, List.mem_cons, List.not_mem_nil, or_false] at hc
      rcases hc with rfl | rfl <;> exact absurd hi (by decide)
  exact (Calls.elaborated.drive (Pin.a, bitSlot true) (hpin .a (by decide) (by decide))).drive
    (Pin.b, bitSlot true) (hpin .b (by decide) (by decide))

end Veriforge.Sched

import Mathlib.Order.Defs.LinearOrder
import Mathlib.Tactic.Common
import Veriforge.Runs

/-! # Generators as endpoints

`GeneratorEndpoint` (`sim/endpoints/_generator.py`) runs a generator as an endpoint: it is resumed to its first `yield`
to drive and to its second to commit. `MultiDomainRunner.step` asks every endpoint to drive and only those of the
domains that rose to commit, so a drive phase that no commit follows is driven anew, by a fresh generator. The fresh one
starts from the beginning, whatever cycle the last one had reached (`unaffected_iff`). -/

namespace Veriforge.Stream

/-! ## The adapter -/

/-- A generator function: where a fresh generator starts, and what resuming one does with what it reads of the
simulation, the values that it drives and where it is paused next, nowhere once it has returned. -/
structure GenFactory (ι δ : Type) where
  Local : Type
  start : Local
  next : ι → Local → List δ × Option Local

variable {ι δ : Type}

/-- A fresh generator has a `yield`. -/
def GenFactory.Yields (G : GenFactory ι δ) : Prop := ∀ i, (G.next i G.start).2.isSome

/-- `GeneratorEndpoint`. -/
structure GeneratorEndpoint (G : GenFactory ι δ) where
  gen : Option G.Local
  postCalled : Bool

namespace GeneratorEndpoint

variable {G : GenFactory ι δ}

/-- `__init__`. -/
def init : GeneratorEndpoint G := ⟨none, true⟩

/-- `tick_pre`. A fresh generator without a `yield` raises. -/
def tickPre (i : ι) (e : GeneratorEndpoint G) : Option (List δ × GeneratorEndpoint G) :=
  -- where `tick_post` was not called, another domain rose: the generator is discarded
  let gen := if e.postCalled then e.gen else none
  match G.next i (gen.getD G.start) with
  | (ds, some l) => some (ds, ⟨some l, false⟩)
  | (ds, none) =>
      match G.next i G.start with
      | (ds', some l) => some (ds ++ ds', ⟨some l, false⟩)
      | (_, none) => none

/-- `tick_post`. -/
def tickPost (i : ι) (e : GeneratorEndpoint G) : List δ × GeneratorEndpoint G :=
  match e.gen with
  | none => ([], e)
  | some l =>
      match G.next i l with
      | (ds, some l') => (ds, ⟨some l', true⟩)
      | (ds, none) => (ds, ⟨none, true⟩)

/-- The endpoint as `tick_pre` takes it up. -/
def ready (e : GeneratorEndpoint G) : GeneratorEndpoint G := if e.postCalled then e else init

@[simp] theorem tickPre_ready (i : ι) (e : GeneratorEndpoint G) : tickPre i e.ready = tickPre i e := by
  rw [ready]
  split
  · rfl
  · rename_i h
    simp [tickPre, init, h]

theorem ready_tickPre {i : ι} {e e' : GeneratorEndpoint G} {ds : List δ} (h : tickPre i e = some (ds, e')) :
    e'.ready = init := by
  simp only [tickPre] at h
  split at h
  · cases h; rfl
  · split at h
    · cases h; rfl
    · cases h

/-- A generator that yields can always drive. -/
theorem exists_tickPre (hG : G.Yields) (i : ι) (e : GeneratorEndpoint G) : ∃ p, tickPre i e = some p := by
  obtain ⟨l, hl⟩ := Option.isSome_iff_exists.mp (hG i)
  simp only [tickPre]
  split
  · exact ⟨_, rfl⟩
  · split
    · exact ⟨_, rfl⟩
    · rename_i hn
      rw [hn] at hl
      cases hl

end GeneratorEndpoint

/-! ## Steps of the runner -/

/-- What an endpoint does in one step: what it drives, and what it commits where its domain rose. -/
structure Entry (δ : Type) where
  drives : List δ
  commits : Option (List δ)
  deriving DecidableEq

/-- What an entry of its own domain's cycle comes to in a step in which the domain rises, or does not. -/
def Entry.seen (own : Bool) (en : Entry δ) : Entry δ := if own then en else ⟨en.drives, none⟩

/-- What the phases of each cycle of the endpoint's own domain read. -/
structure Reads (ι : Type) where
  pre : Nat → ι
  post : Nat → ι

/-- An endpoint in its runner: how often its own domain has risen, and what it has done. -/
structure Bench (G : GenFactory ι δ) where
  cycle : Nat
  endpoint : GeneratorEndpoint G
  log : List (Entry δ)

namespace Bench

variable {G : GenFactory ι δ} (reads : Reads ι)

/-- An endpoint registered in this cycle. -/
def start (cycle : Nat) : Bench G := ⟨cycle, .init, []⟩

/-- What `MultiDomainRunner.step` asks of the endpoint, whose domain rises in it or does not. -/
def step (b : Bench G) (own : Bool) : Option (Bench G) := do
  let (ds, ep) ← b.endpoint.tickPre (reads.pre b.cycle)
  if own then
    let (cs, ep) := ep.tickPost (reads.post b.cycle)
    return ⟨b.cycle + 1, ep, b.log ++ [⟨ds, some cs⟩]⟩
  else return ⟨b.cycle, ep, b.log ++ [⟨ds, none⟩]⟩

/-- The steps of a schedule, which tells whether the endpoint's domain rises. -/
def run (b : Bench G) (sched : List Bool) : Option (Bench G) := sched.foldlM (step reads) b

/-- What the endpoint does in its cycle of this number, registered in cycle `first`, where only its domain rises. -/
def alone (G : GenFactory ι δ) (first n : Nat) : Option (Entry δ) :=
  (run reads (start (G := G) first) (List.replicate (n + 1) true)).bind fun b => b.log[n]?

end Bench

/-! ## Schedules -/

/-- How often the own domain rises before a step. -/
def risesBefore (sched : List Bool) (t : Nat) : Nat := (sched.take t).count true

/-- How often the own domain has risen before a step since a step of another domain only. -/
def risesSinceForeign (sched : List Bool) (t : Nat) : Nat := ((sched.take t).reverse.takeWhile id).length

/-- The endpoint does in every step what it does in that cycle where only its domain rises: it drives the same values,
also again in a cycle that is repeated, and commits the same. -/
def Unaffected (G : GenFactory ι δ) (reads : Reads ι) (sched : List Bool) : Prop :=
  ∃ b, Bench.run reads (Bench.start (G := G) 0) sched = some b ∧ b.log.length = sched.length ∧
    ∀ t own, sched[t]? = some own → b.log[t]? = (Bench.alone reads G 0 (risesBefore sched t)).map (Entry.seen own)

/-! ## What a step does -/

namespace Bench

variable {G : GenFactory ι δ} (reads : Reads ι)

@[simp] theorem run_nil (b : Bench G) : run reads b [] = some b := rfl

theorem run_concat (b : Bench G) (xs : List Bool) (x : Bool) :
    run reads b (xs ++ [x]) = (run reads b xs).bind fun b => step reads b x := by
  rw [run, foldlM_concat]
  rfl

theorem exists_step (hG : G.Yields) (b : Bench G) (own : Bool) : ∃ b', step reads b own = some b' := by
  obtain ⟨p, hp⟩ := GeneratorEndpoint.exists_tickPre hG (reads.pre b.cycle) b.endpoint
  rw [step, hp]
  cases own <;> exact ⟨_, rfl⟩

theorem exists_run (hG : G.Yields) (b : Bench G) (sched : List Bool) : ∃ b', run reads b sched = some b' := by
  induction sched using List.reverseRecOn with
  | nil => exact ⟨b, rfl⟩
  | append_singleton xs x ih =>
    obtain ⟨b', hb'⟩ := ih
    rw [run_concat, hb']
    exact exists_step reads hG b' x

/-- Endpoints that `tick_pre` takes up alike, in the same cycle, do the same, as far as their domain rises; one whose
domain does not rise is taken up as a fresh one. -/
theorem step_spec {b c b' c' : Bench G} {own : Bool} (hc : b.cycle = c.cycle)
    (he : b.endpoint.ready = c.endpoint.ready) (hb : step reads b own = some b') (hc' : step reads c true = some c') :
    ∃ en, c'.log = c.log ++ [en] ∧ b'.log = b.log ++ [en.seen own] ∧ c'.cycle = c.cycle + 1 ∧
      (own = true → b'.cycle = b.cycle + 1 ∧ b'.endpoint = c'.endpoint) ∧
      (own = false → b'.cycle = b.cycle ∧ b'.endpoint.ready = .init) := by
  have hpre : b.endpoint.tickPre (reads.pre b.cycle) = c.endpoint.tickPre (reads.pre c.cycle) := by
    rw [← GeneratorEndpoint.tickPre_ready, he, GeneratorEndpoint.tickPre_ready, hc]
  rw [step, hpre] at hb
  rw [step] at hc'
  cases hp : c.endpoint.tickPre (reads.pre c.cycle) with
  | none =>
    rw [hp] at hb
    cases hb
  | some p =>
    obtain ⟨ds, ep⟩ := p
    rw [hp] at hb hc'
    cases hc'
    refine ⟨_, rfl, ?_⟩
    cases own with
    | false =>
      cases hb
      exact ⟨rfl, rfl, fun h => absurd h Bool.false_ne_true, fun _ => ⟨rfl, GeneratorEndpoint.ready_tickPre hp⟩⟩
    | true =>
      cases hb
      rw [hc]
      exact ⟨rfl, rfl, fun _ => ⟨rfl, rfl⟩, fun h => absurd h.symm Bool.false_ne_true⟩

/-! ## What a run does -/

/-- A run in which only the own domain rises has one entry for each cycle. -/
theorem run_alone {first n : Nat} {c : Bench G} (h : run reads (start first) (List.replicate n true) = some c) :
    c.cycle = first + n ∧ c.log.length = n := by
  induction n generalizing c with
  | zero => cases h; exact ⟨rfl, rfl⟩
  | succ n ih =>
    rw [List.replicate_succ', run_concat, Option.bind_eq_some_iff] at h
    obtain ⟨d, hd, hstep⟩ := h
    obtain ⟨hcycle, hlog⟩ := ih hd
    obtain ⟨en, hlog', -, hcycle', -⟩ := step_spec reads rfl rfl hstep hstep
    rw [hlog', hcycle', hcycle, List.length_append, hlog]
    exact ⟨rfl, rfl⟩

/-- The last entry of such a run. -/
theorem alone_eq {first n : Nat} {c c' : Bench G} {en : Entry δ}
    (h : run reads (start first) (List.replicate n true) = some c) (hs : step reads c true = some c')
    (hlog : c'.log = c.log ++ [en]) : alone reads G first n = some en := by
  have hl := (run_alone reads h).2
  rw [alone, List.replicate_succ', run_concat, h, Option.bind_some, hs, Option.bind_some, hlog, ← hl]
  exact List.getElem?_concat_length

end Bench

theorem risesBefore_concat {sched : List Bool} {t : Nat} (own : Bool) (h : t ≤ sched.length) :
    risesBefore (sched ++ [own]) t = risesBefore sched t := by
  rw [risesBefore, risesBefore, List.take_append_of_le_length h]

theorem risesSinceForeign_concat {sched : List Bool} {t : Nat} (own : Bool) (h : t ≤ sched.length) :
    risesSinceForeign (sched ++ [own]) t = risesSinceForeign sched t := by
  rw [risesSinceForeign, risesSinceForeign, List.take_append_of_le_length h]

theorem risesBefore_length (sched : List Bool) (own : Bool) : risesBefore (sched ++ [own]) (sched ++ [own]).length =
      if own then risesBefore sched sched.length + 1 else risesBefore sched sched.length := by
  rw [risesBefore, risesBefore, List.take_length, List.take_length]
  cases own <;> simp

theorem risesSinceForeign_length (sched : List Bool) (own : Bool) :
    risesSinceForeign (sched ++ [own]) (sched ++ [own]).length =
      if own then risesSinceForeign sched sched.length + 1 else 0 := by
  rw [risesSinceForeign, risesSinceForeign, List.take_length, List.take_length]
  cases own <;> simp

section

variable {G : GenFactory ι δ} (reads : Reads ι)

/-- What a run leaves: the endpoint is where one is that was registered after the last step of another domain only. -/
structure Follows (sched : List Bool) (b : Bench G) : Prop where
  cycle : b.cycle = risesBefore sched sched.length
  since_le : risesSinceForeign sched sched.length ≤ risesBefore sched sched.length
  length : b.log.length = sched.length
  endpoint : ∃ c, Bench.run reads (Bench.start (risesBefore sched sched.length -
      risesSinceForeign sched sched.length)) (List.replicate (risesSinceForeign sched sched.length) true) = some c ∧
    c.endpoint.ready = b.endpoint.ready
  log : ∀ t own, sched[t]? = some own → b.log[t]? =
    (Bench.alone reads G (risesBefore sched t - risesSinceForeign sched t) (risesSinceForeign sched t)).map
      (Entry.seen own)

theorem Follows.start : Follows reads [] (Bench.start (G := G) 0) :=
  ⟨rfl, Nat.le_refl _, rfl, ⟨_, rfl, rfl⟩, fun _ _ h => by cases h⟩

/-- One more step keeps the run's endpoint where a fresh one is. -/
theorem Follows.step (hG : G.Yields) {sched : List Bool} {own : Bool} {b b' : Bench G} (h : Follows reads sched b)
    (hs : Bench.step reads b own = some b') : Follows reads (sched ++ [own]) b' := by
  obtain ⟨c, hrun, hready⟩ := h.endpoint
  obtain ⟨c', hc'⟩ := Bench.exists_step reads hG c true
  have hcycle : b.cycle = c.cycle := by
    rw [h.cycle, (Bench.run_alone reads hrun).1, Nat.sub_add_cancel h.since_le]
  obtain ⟨en, hlogc, hlogb, -, hown, hforeign⟩ := Bench.step_spec reads hcycle hready.symm hs hc'
  have hlen : b'.log.length = (sched ++ [own]).length := by
    rw [hlogb, List.length_append, List.length_append, h.length]
    rfl
  have hlog : ∀ t o, (sched ++ [own])[t]? = some o → b'.log[t]? = (Bench.alone reads G
      (risesBefore (sched ++ [own]) t - risesSinceForeign (sched ++ [own]) t)
      (risesSinceForeign (sched ++ [own]) t)).map (Entry.seen o) := by
    intro t o ho
    rcases Nat.lt_trichotomy t sched.length with ht | rfl | ht
    · rw [List.getElem?_append_left ht] at ho
      rw [risesBefore_concat own (Nat.le_of_lt ht), risesSinceForeign_concat own (Nat.le_of_lt ht), hlogb,
        List.getElem?_append_left (h.length ▸ ht)]
      exact h.log t o ho
    · rw [List.getElem?_concat_length, Option.some.injEq] at ho
      subst ho
      rw [risesBefore_concat own (Nat.le_refl _), risesSinceForeign_concat own (Nat.le_refl _),
        Bench.alone_eq reads hrun hc' hlogc, hlogb, ← h.length]
      exact List.getElem?_concat_length
    · rw [List.getElem?_eq_none (by rw [List.length_append, List.length_singleton]; omega)] at ho
      cases ho
  cases own with
  | false =>
    have hf := hforeign rfl
    refine ⟨?_, ?_, hlen, ?_, hlog⟩ <;> rw [risesBefore_length] <;> try rw [risesSinceForeign_length]
    · exact hf.1.trans h.cycle
    · exact Nat.zero_le _
    · exact ⟨_, rfl, hf.2.symm⟩
  | true =>
    have ho := hown rfl
    refine ⟨?_, ?_, hlen, ?_, hlog⟩ <;> rw [risesBefore_length] <;> try rw [risesSinceForeign_length]
    · rw [ho.1, h.cycle]
      rfl
    · exact Nat.succ_le_succ h.since_le
    · refine ⟨c', ?_, by rw [ho.2]⟩
      rw [if_pos rfl, if_pos rfl, Nat.add_sub_add_right, List.replicate_succ', Bench.run_concat, hrun]
      exact hc'

theorem Follows.run (hG : G.Yields) {sched : List Bool} {b : Bench G}
    (h : Bench.run reads (Bench.start 0) sched = some b) : Follows reads sched b := by
  induction sched using List.reverseRecOn generalizing b with
  | nil => cases h; exact Follows.start reads
  | append_singleton xs x ih =>
    rw [Bench.run_concat, Option.bind_eq_some_iff] at h
    obtain ⟨c, hc, hs⟩ := h
    exact (ih hc).step reads hG hs

/-- The endpoint is unaffected by the other domains exactly when the generator, registered after the last step of
another domain only, does in each cycle what it does there when registered at the start. -/
theorem unaffected_iff (hG : G.Yields) (sched : List Bool) :
    Unaffected G reads sched ↔ ∀ t own, sched[t]? = some own →
      (Bench.alone reads G (risesBefore sched t - risesSinceForeign sched t) (risesSinceForeign sched t)).map
          (Entry.seen own) =
        (Bench.alone reads G 0 (risesBefore sched t)).map (Entry.seen own) := by
  constructor
  · rintro ⟨b, hb, -, hlog⟩ t own ht
    rw [← (Follows.run reads hG hb).log t own ht, hlog t own ht]
  · intro h
    obtain ⟨b, hb⟩ := Bench.exists_run reads hG (Bench.start 0) sched
    have hf := Follows.run reads hG hb
    refine ⟨b, hb, hf.length, fun t own ht => ?_⟩
    rw [hf.log t own ht, h t own ht]

end

/-- The generator of the class's docstring: it counts its cycles. -/
def counter : GenFactory Unit Nat where
  Local := Nat × Bool
  start := (0, false)
  next _ l := if l.2 then ([], some ((l.1 + 1) % 256, false)) else ([l.1], some (l.1, true))

def noReads : Reads Unit := ⟨fun _ => (), fun _ => ()⟩

theorem counter_yields : counter.Yields := fun _ => rfl

theorem counter_unaffected : Unaffected counter noReads [false, true, true] := by
  apply (unaffected_iff noReads counter_yields _).mpr
  intro t own ht
  match t with
  | 0 | 1 | 2 => cases ht; decide
  | t + 3 => cases ht

/-- Another domain rises after the first cycle: the counter counts from zero again. -/
theorem counter_restarted : ¬ Unaffected counter noReads [true, false, true] := by
  rintro ⟨b, hb, -, hlog⟩
  have hrun : Bench.run noReads (Bench.start (G := counter) 0) [true, false, true] =
      some ⟨2, ⟨some (1, false), true⟩, [⟨[0], some []⟩, ⟨[1], none⟩, ⟨[0], some []⟩]⟩ := rfl
  rw [hrun, Option.some.injEq] at hb
  subst hb
  exact absurd (hlog 2 true rfl) (by decide)

end Veriforge.Stream

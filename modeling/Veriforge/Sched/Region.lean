import Veriforge.Sched.Kernel

/-! # What an active region leaves behind

The facts about one region that the invariants of the delta loops need: a block that has ended saw
what the store holds now or what it held at the start, and only a block that writes a signal is
recorded as its owner (`Traced`, for both kernels); the reference scheduler's originals are the slots
the region started from (`Region.Sound`). -/

namespace Veriforge.Sched

variable {Name : Type} [DecidableEq Name]

/-- Each variable is written by at most one process. -/
structure Design.SoleWriters (D : Design Name) : Prop where
  assigns : ∀ a ∈ D.assigns, ∀ b ∈ D.assigns, ∀ n, a.Writes n → b.Writes n → a.id = b.id
  blocks : ∀ p ∈ D.combos ++ D.seqs, ∀ q ∈ D.combos ++ D.seqs, ∀ n, p.Writes n → q.Writes n → p.id = q.id
  across : ∀ a ∈ D.assigns, ∀ p ∈ D.combos ++ D.seqs, ∀ n, a.Writes n → ¬ p.Writes n

/-! ## Blocks that run one after the other -/

/-- What holds after the blocks `done` have run, each once, from the store `σ₀`: `touched` are the
names written so far, `own` the recorded owners and `ended` the stores the blocks left. -/
structure Traced (σ₀ : Store Name) (done : List (Always Name)) (store : Store Name) (touched : Name → Prop)
    (own : Name → Option Nat) (ended : Nat → Option (Store Name)) : Prop where
  unwritten : ∀ n, ¬ touched n → store n = σ₀ n
  writer : ∀ n, touched n → ∃ q ∈ done, q.Writes n
  owner : ∀ n i, own n = some i → ∃ q ∈ done, q.id = i ∧ q.Writes n
  ran : ∀ i, ended i ≠ none ↔ ∃ q ∈ done, q.id = i
  /-- What a block left is still there, or was there at the start and another block wrote it. -/
  seen : ∀ i τ n, ended i = some τ → τ n = store n ∨ (τ n = σ₀ n ∧ ∃ q ∈ done, q.id ≠ i ∧ q.Writes n)

theorem traced_nil (σ₀ : Store Name) : Traced σ₀ [] σ₀ (fun _ => False) (fun _ => none) (fun _ => none) where
  unwritten := fun _ _ => rfl
  writer := fun _ h => h.elim
  owner := fun _ _ h => nomatch h
  ran := fun _ => ⟨fun h => absurd rfl h, fun ⟨_, hq, _⟩ => absurd hq List.not_mem_nil⟩
  seen := fun _ _ _ h => nomatch h

/-- One more block, which wrote the names `W`. -/
theorem Traced.step {D : Design Name} (hD : D.SoleWriters) {σ₀ : Store Name} {done : List (Always Name)}
    {store store' : Store Name} {touched touched' : Name → Prop} {own own' : Name → Option Nat}
    {ended : Nat → Option (Store Name)} (h : Traced σ₀ done store touched own ended) {p : Always Name}
    (hp : p ∈ D.combos ++ D.seqs) (hdone : done ⊆ D.combos ++ D.seqs) (hnew : ∀ q ∈ done, q.id ≠ p.id)
    {W : Name → Prop} (hW : ∀ n, W n → p.Writes n) (hstore : ∀ n, ¬ W n → store' n = store n)
    (htouched : ∀ n, touched' n ↔ touched n ∨ W n)
    (hown : ∀ n i, own' n = some i → own n = some i ∨ (i = p.id ∧ W n)) :
    Traced σ₀ (done ++ [p]) store' touched' own' (Function.update ended p.id (some store')) := by
  have hlast : p ∈ done ++ [p] := List.mem_append_right _ (List.mem_singleton_self p)
  have hprev : ∀ {q}, q ∈ done → q ∈ done ++ [p] := fun hq => List.mem_append_left _ hq
  constructor
  case unwritten =>
    intro n hn
    rw [htouched, not_or] at hn
    rw [hstore n hn.2, h.unwritten n hn.1]
  case writer =>
    intro n hn
    rcases (htouched n).mp hn with hn | hn
    · obtain ⟨q, hq, hqn⟩ := h.writer n hn
      exact ⟨q, hprev hq, hqn⟩
    · exact ⟨p, hlast, hW n hn⟩
  case owner =>
    intro n i ho
    rcases hown n i ho with ho | ⟨rfl, hn⟩
    · obtain ⟨q, hq, hqi⟩ := h.owner n i ho
      exact ⟨q, hprev hq, hqi⟩
    · exact ⟨p, hlast, rfl, hW n hn⟩
  case ran =>
    intro i
    by_cases hi : i = p.id
    · subst hi
      rw [Function.update_self]
      exact ⟨fun _ => ⟨p, hlast, rfl⟩, fun _ => Option.some_ne_none _⟩
    · rw [Function.update_of_ne hi, h.ran]
      constructor
      · rintro ⟨q, hq, hqi⟩
        exact ⟨q, hprev hq, hqi⟩
      · rintro ⟨q, hq, hqi⟩
        rcases List.mem_append.mp hq with hq | hq
        · exact ⟨q, hq, hqi⟩
        · exact absurd (List.mem_singleton.mp hq ▸ hqi.symm) hi
  case seen =>
    intro i τ n hτ
    by_cases hi : i = p.id
    · subst hi
      rw [Function.update_self] at hτ
      exact Or.inl (congrFun (Option.some.inj hτ).symm n)
    · rw [Function.update_of_ne hi] at hτ
      by_cases hw : W n
      · -- `p` is the only writer of `n`, so nobody wrote it before
        refine Or.inr ⟨?_, p, hlast, Ne.symm hi, hW n hw⟩
        rcases h.seen i τ n hτ with hs | ⟨hs, -⟩
        · rw [hs]
          refine h.unwritten n fun ho => ?_
          obtain ⟨q, hq, hqn⟩ := h.writer n ho
          exact hnew q hq (hD.blocks q (hdone hq) p hp n hqn (hW n hw))
        · exact hs
      · rw [hstore n hw]
        rcases h.seen i τ n hτ with hs | ⟨hs, q, hq, hqi⟩
        · exact Or.inl hs
        · exact Or.inr ⟨hs, q, hprev hq, hqi⟩

/-- What the delta loops need to know of the processes of a region that started from `σ₀`. -/
structure RegionFacts (D : Design Name) (σ₀ : Store Name) (ts : List (Task Name)) (store : Store Name)
    (own : Name → Option Nat) (ended : Nat → Option (Store Name)) : Prop where
  owner : ∀ n i, own n = some i → ∃ q ∈ D.combos ++ D.seqs, q.id = i ∧ q.Writes n ∧ ended i ≠ none
  ran : ∀ p ∈ D.combos ++ D.seqs, ended p.id ≠ none ↔ Task.block p ∈ ts
  /-- A signal that a block left otherwise than it is now was written by another block, later. -/
  seen : ∀ (p : Always Name) (τ : Store Name) (n : Name), ended p.id = some τ → τ n ≠ store n →
    τ n = σ₀ n ∧ ∃ q ∈ D.combos ++ D.seqs, q.id ≠ p.id ∧ q.Writes n

theorem mem_map_block {c : Always Name} {ps : List (Always Name)} : Task.block c ∈ ps.map .block ↔ c ∈ ps := by
  rw [List.mem_map]
  constructor
  · rintro ⟨q, hq, h⟩
    exact Task.block.inj h ▸ hq
  · exact fun h => ⟨c, h, rfl⟩

theorem Traced.facts {D : Design Name} {σ₀ : Store Name} {ps : List (Always Name)} {store : Store Name}
    {touched : Name → Prop} {own : Name → Option Nat} {ended : Nat → Option (Store Name)}
    (h : Traced σ₀ ps store touched own ended) (hps : ps ⊆ D.combos ++ D.seqs) :
    RegionFacts D σ₀ (ps.map .block) store own ended := by
  constructor
  case owner =>
    intro n i ho
    obtain ⟨q, hq, hqi, hqn⟩ := h.owner n i ho
    exact ⟨q, hps hq, hqi, hqn, (h.ran i).mpr ⟨q, hq, hqi⟩⟩
  case ran =>
    intro p hp
    rw [h.ran, mem_map_block]
    constructor
    · rintro ⟨q, hq, hqp⟩
      exact D.eq_of_id (hps hq) hp hqp ▸ hq
    · exact fun hq => ⟨p, hq, rfl⟩
  case seen =>
    intro p τ n hτ hne
    rcases h.seen p.id τ n hτ with hs | ⟨hs, q, hq, hqi⟩
    · exact absurd hs hne
    · exact ⟨hs, q, hps hq, hqi⟩

/-! ## Active regions of the reference scheduler -/

namespace Region

/-! ## One execution -/

theorem execute_store (r : Region Name) (e : Effect Name) : (r.execute e).store = writeAll r.store e.writes := by
  have h : ∀ (ws : List (Name × Slot)) (r : Region Name), (ws.foldl write r).store = writeAll r.store ws := by
    intro ws
    induction ws with
    | nil => exact fun r => rfl
    | cons w ws ih => exact fun r => ih (r.write w)
  exact h e.writes r

theorem dictGet_write (r : Region Name) (w : Name × Slot) (n : Name) : dictGet n (r.write w).originals
      = if w.1 = n ∧ dictGet n r.originals = none then some (r.store n) else dictGet n r.originals := by
  unfold write
  by_cases hw : (dictGet w.1 r.originals).isSome = true
  · rw [if_pos hw]
    split
    · next h =>
      obtain ⟨rfl, h⟩ := h
      rw [h] at hw
      exact absurd hw Bool.false_ne_true
    · rfl
  · rw [if_neg hw]
    change dictGet n (dictSet w.1 (r.store w.1) r.originals) = _
    rw [dictGet_dictSet]
    by_cases hn : w.1 = n
    · subst hn
      rw [if_pos rfl, if_pos ⟨rfl, by simpa using hw⟩]
    · rw [if_neg hn, if_neg fun h => hn h.1]

/-- A name gets an original when it is written for the first time. -/
theorem dictGet_execute (r : Region Name) (e : Effect Name) (n : Name) : dictGet n (r.execute e).originals = none
      ↔ n ∉ e.writes.map (·.1) ∧ dictGet n r.originals = none := by
  have h : ∀ (ws : List (Name × Slot)) (r : Region Name), dictGet n (ws.foldl write r).originals = none
      ↔ n ∉ ws.map (·.1) ∧ dictGet n r.originals = none := by
    intro ws
    induction ws with
    | nil => simp
    | cons w ws ih =>
      intro r
      rw [List.foldl_cons, ih, dictGet_write, List.map_cons, List.mem_cons, not_or]
      by_cases hw : w.1 = n
      · subst hw
        by_cases ho : dictGet w.1 r.originals = none <;> simp [ho]
      · have hn : n ≠ w.1 := fun h => hw h.symm
        simp [hw, hn]
  exact h e.writes r

/-- The originals are the slots the region started from. -/
structure Sound (σ₀ : Store Name) (r : Region Name) : Prop where
  keys : DistinctKeys r.originals
  original : ∀ n o, dictGet n r.originals = some o → o = σ₀ n
  unwritten : ∀ n, dictGet n r.originals = none → r.store n = σ₀ n

/-- A region starts without originals. -/
theorem sound_start (K : Kernel Name) : Sound K.store ⟨K.store, K.queue, [], fun _ => none, fun _ => none⟩ where
  keys := List.nodup_nil
  original := fun _ _ ho => nomatch ho
  unwritten := fun _ _ => rfl

theorem Sound.write {σ₀ : Store Name} {r : Region Name} (h : Sound σ₀ r) (w : Name × Slot) :
    Sound σ₀ (r.write w) where
  keys := by
    unfold Region.write
    dsimp only
    split
    · exact h.keys
    · exact h.keys.set _ _
  original := by
    intro n o ho
    rw [dictGet_write] at ho
    split at ho
    · next hw => exact (Option.some.inj ho).symm.trans (h.unwritten n hw.2)
    · exact h.original n o ho
  unwritten := by
    intro n hn
    rw [dictGet_write] at hn
    split at hn
    · exact absurd hn (Option.some_ne_none _)
    · next hw =>
      have hne : n ≠ w.1 := fun he => hw ⟨he.symm, hn⟩
      exact (Function.update_of_ne hne _ _).trans (h.unwritten n hn)

theorem Sound.execute {σ₀ : Store Name} {r : Region Name} (h : Sound σ₀ r) (e : Effect Name) :
    Sound σ₀ (r.execute e) := by
  have hall : ∀ (ws : List (Name × Slot)) (r : Region Name), Sound σ₀ r → Sound σ₀ (ws.foldl Region.write r) := by
    intro ws
    induction ws with
    | nil => exact fun r hr => hr
    | cons w ws ih => exact fun r hr => ih _ (hr.write w)
  obtain ⟨hk, ho, hu⟩ := hall e.writes r h
  exact ⟨hk, ho, hu⟩

theorem Sound.run {σ₀ : Store Name} {r : Region Name} (h : Sound σ₀ r) (t : Task Name) : Sound σ₀ (r.run t) := by
  cases t with
  | event body => exact h.execute _
  | block p =>
    obtain ⟨hk, ho, hu⟩ := h.execute (p.body r.store)
    exact ⟨hk, ho, hu⟩

/-- A signal that ends the region with other bits is dirty. -/
theorem Sound.mem_dirty {D : Design Name} {σ₀ : Store Name} {r : Region Name} (h : Sound σ₀ r) {n : Name}
    (hn : (r.store n).bits ≠ (σ₀ n).bits) : n ∈ r.dirty D := by
  rw [dirty, List.mem_toFinset, List.mem_map]
  cases ho : dictGet n r.originals with
  | none => exact absurd (congrArg Slot.bits (h.unwritten n ho)) hn
  | some o =>
    refine ⟨(n, o), List.mem_filter.mpr ⟨h.keys.mem_iff.mpr ho, ?_⟩, rfl⟩
    rw [h.original n o ho, Bool.or_eq_true, decide_eq_true_eq]
    exact Or.inr (Ne.symm hn)

/-- Who is recorded as having written a signal first. -/
def owners (r : Region Name) (n : Name) : Option Nat := (r.own n).map (·.1)

/-- After a list of blocks. -/
theorem traced_runAll {D : Design Name} (hD : D.SoleWriters) {σ₀ : Store Name} (ps : List (Always Name)) :
    ∀ {done : List (Always Name)} {r : Region Name},
      Traced σ₀ done r.store (fun n => dictGet n r.originals ≠ none) r.owners r.ended →
      done ++ ps ⊆ D.combos ++ D.seqs → ((done ++ ps).map (·.id)).Nodup →
      Traced σ₀ (done ++ ps) ((ps.map Task.block).foldl run r).store
        (fun n => dictGet n ((ps.map Task.block).foldl run r).originals ≠ none)
        ((ps.map Task.block).foldl run r).owners ((ps.map Task.block).foldl run r).ended := by
  induction ps with
  | nil =>
    intro done r h _ _
    rw [List.append_nil]
    exact h
  | cons p ps ih =>
    intro done r h hsub hnd
    have hsplit : done ++ p :: ps = (done ++ [p]) ++ ps := by rw [List.append_assoc]; rfl
    rw [hsplit] at hsub hnd ⊢
    refine ih (r := r.run (.block p)) ?_ hsub hnd
    have hnew : ∀ q ∈ done, q.id ≠ p.id := by
      intro q hq hqp
      rw [List.map_append, List.map_append] at hnd
      exact (List.nodup_append.mp (List.nodup_append.mp hnd).1).2.2 q.id (List.mem_map_of_mem hq) p.id
        (by simp) hqp
    apply h.step hD (hsub (by simp)) (fun q hq => hsub (by simp [hq])) hnew
      (W := fun n => n ∈ (p.body r.store).writes.map (·.1))
    · exact fun n hn => ⟨r.store, Or.inl hn⟩
    · intro n hn
      change (r.execute (p.body r.store)).store n = r.store n
      rw [execute_store, writeAll_of_notMem hn]
    · intro n
      change dictGet n (r.execute (p.body r.store)).originals ≠ none ↔ _
      rw [ne_eq, dictGet_execute, not_and_or, not_not, or_comm]
    · intro n i hi
      obtain ⟨o, ho, rfl⟩ := Option.map_eq_some_iff.mp hi
      change (if n ∈ p.selfSens ∧ dictGet n r.originals = none
        ∧ (dictGet n (r.execute (p.body r.store)).originals).isSome
        then some (p.id, (r.execute (p.body r.store)).store n) else r.own n) = some o at ho
      split at ho
      · next hc =>
        obtain ⟨-, hnone, hsome⟩ := hc
        refine Or.inr ⟨congrArg Prod.fst (Option.some.inj ho).symm, ?_⟩
        by_contra hw
        rw [(dictGet_execute r (p.body r.store) n).mpr ⟨hw, hnone⟩] at hsome
        exact Bool.false_ne_true hsome
      · exact Or.inl (Option.map_eq_some_iff.mpr ⟨o, ho, rfl⟩)

end Region

/-- A region of blocks, each at most once. -/
theorem regionFacts_blocks {D : Design Name} (hD : D.SoleWriters) (K : Kernel Name)
    {ps : List (Always Name)} (hps : ps ⊆ D.combos ++ D.seqs) (hnd : (ps.map (·.id)).Nodup) :
    RegionFacts D K.store (ps.map .block) (Design.runTasks K (ps.map .block)).store
      (Design.runTasks K (ps.map .block)).owners (Design.runTasks K (ps.map .block)).ended := by
  have hsub : ([] : List (Always Name)) ++ ps ⊆ D.combos ++ D.seqs := hps
  refine Traced.facts (Region.traced_runAll hD ps ?_ hsub hnd) hps
  obtain ⟨hu, -, ho, he, hs⟩ := traced_nil K.store
  exact ⟨fun _ _ => rfl, fun n hn => absurd rfl hn, ho, he, hs⟩

/-- A region of events: nobody owns a change and no block ends. -/
theorem regionFacts_events {D : Design Name} (K : Kernel Name) (es : List (Store Name → Effect Name)) :
    RegionFacts D K.store (es.map .event) (Design.runTasks K (es.map .event)).store
      (Design.runTasks K (es.map .event)).owners (Design.runTasks K (es.map .event)).ended := by
  have hwrite : ∀ (ws : List (Name × Slot)) (r : Region Name),
      (ws.foldl Region.write r).own = r.own ∧ (ws.foldl Region.write r).ended = r.ended := by
    intro ws
    induction ws with
    | nil => exact fun r => ⟨rfl, rfl⟩
    | cons w ws ih => exact fun r => ih (r.write w)
  have hall : ∀ (es : List (Store Name → Effect Name)) (r : Region Name),
      ((es.map Task.event).foldl Region.run r).own = r.own ∧
        ((es.map Task.event).foldl Region.run r).ended = r.ended := by
    intro es
    induction es with
    | nil => exact fun r => ⟨rfl, rfl⟩
    | cons e es ih =>
      intro r
      obtain ⟨ho, he⟩ := ih (r.run (.event e))
      exact ⟨ho.trans (hwrite _ r).1, he.trans (hwrite _ r).2⟩
  obtain ⟨ho, he⟩ := hall es ⟨K.store, K.queue, [], fun _ => none, fun _ => none⟩
  have hended : ∀ i, (Design.runTasks K (es.map .event)).ended i = none := congrFun he
  constructor
  case owner =>
    intro n i h
    obtain ⟨o, h, -⟩ := Option.map_eq_some_iff.mp h
    exact nomatch (congrFun ho n).symm.trans h
  case ran =>
    intro p _
    constructor
    · exact fun h => absurd (hended p.id) h
    · intro h
      obtain ⟨e, -, he⟩ := List.mem_map.mp h
      exact nomatch he
  case seen => exact fun p τ n h => nomatch (hended p.id).symm.trans h

/-- The originals of a region are sound. -/
theorem sound_runTasks (K : Kernel Name) (ts : List (Task Name)) : (Design.runTasks K ts).Sound K.store := by
  have h : ∀ (ts : List (Task Name)) (r : Region Name), r.Sound K.store → (ts.foldl Region.run r).Sound K.store := by
    intro ts
    induction ts with
    | nil => exact fun r hr => hr
    | cons t ts ih => exact fun r hr => ih _ (hr.run t)
  exact h ts _ (Region.sound_start K)

end Veriforge.Sched

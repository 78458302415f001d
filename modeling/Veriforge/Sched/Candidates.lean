import Mathlib.Data.Finset.Sort
import Mathlib.Data.Finset.Union
import Veriforge.Sched.Continuous

/-! # The candidate heap of a continuous-assign pass

`_run_dirty_continuous_assigns` finds its positions in one of two ways: a scan in declaration order, or a heap of
the positions an index gives for the dirty names. The heap grows while it is consumed, by the later assigns that
read a name an evaluation has just changed. -/

namespace Veriforge.Sched

variable {Name : Type} [DecidableEq Name]

/-- A continuous assign with the shape of its left-hand side. -/
structure Assign (Name : Type) extends Continuous Name where
  /-- The name, where the left-hand side is an identifier without hierarchy that the store holds as a signal. -/
  plain : Store Name → Option Name
  /-- `_lhs_base_names` has the name itself, and its dotted prefixes. -/
  plain_mem : ∀ σ n, plain σ = some n → n ∈ targets
  /-- The order a loop over `_lhs_base_names` takes. -/
  outputs : List Name
  mem_outputs : ∀ n, n ∈ outputs ↔ n ∈ targets

/-- A call of `_run_dirty_continuous_assigns` in progress: `dirty`, `changed` and the positions evaluated so far. -/
structure Scan (Name : Type) where
  store : Store Name
  dirty : Finset Name
  changed : Bool
  executed : List Nat

namespace Assign

variable (a : Assign Name)

/-- The names the scan adds for a change of the left-hand side: of a plain identifier, only the name. -/
def marks (σ : Store Name) : Finset Name := (a.plain σ).elim a.targets fun n => {n}

theorem marks_subset (σ : Store Name) : a.marks σ ⊆ a.targets := by
  rw [marks]
  cases h : a.plain σ with
  | none => exact Finset.Subset.refl _
  | some n => exact Finset.singleton_subset_iff.mpr (a.plain_mem σ n h)

/-- `proc.sensitivity.intersection(dirty)`. -/
def Hit (dirty : Finset Name) : Prop := (a.sens ∩ dirty).Nonempty

instance (dirty : Finset Name) : Decidable (a.Hit dirty) := inferInstanceAs (Decidable (Finset.Nonempty _))

/-- An evaluation at position `i` that adds `names` for a change it sees. -/
def fire (names : Finset Name) (i : Nat) (w : Scan Name) : Scan Name :=
  if a.observes w.store then ⟨a.after w.store, w.dirty ∪ names, true, w.executed ++ [i]⟩
  else ⟨a.after w.store, w.dirty, w.changed, w.executed ++ [i]⟩

end Assign

/-- `_sig_to_continuous`: the positions that read a name, in declaration order. -/
def sigToContinuous (as : List (Assign Name)) (name : Name) : List Nat :=
  (List.range as.length).filter fun i => as[i]?.any fun a => name ∈ a.sens

/-- One position of the scan in declaration order. -/
def scanAt (as : List (Assign Name)) (w : Scan Name) (i : Nat) : Scan Name :=
  match as[i]? with
  | some a => if a.Hit w.dirty then a.fire (a.marks w.store) i w else w
  | none => w

/-- The scan: every position in declaration order. -/
def scan (as : List (Assign Name)) (σ : Store Name) (dirty : Finset Name) : Scan Name :=
  (List.range as.length).foldl (scanAt as) ⟨σ, dirty, false, []⟩

/-- `candidates` and `pending`: the positions seen so far, and the heap of those not popped, smallest first. -/
structure Queue where
  candidates : Finset Nat
  pending : List Nat

/-- The inner loop of `mark_outputs`: a position behind the current one that was never a candidate is pushed. -/
def Queue.push (current : Nat) (q : Queue) (position : Nat) : Queue :=
  if current < position ∧ position ∉ q.candidates then
    ⟨insert position q.candidates, q.pending.orderedInsert (· ≤ ·) position⟩
  else q

/-- `mark_outputs`, one name after the other. -/
def markOutputs (as : List (Assign Name)) (current : Nat) : List Name → Finset Name × Queue → Finset Name × Queue
  | [], s => s
  | name :: names, s =>
      if name ∈ s.1 then markOutputs as current names s
      else markOutputs as current names
        (insert name s.1, (sigToContinuous as name).foldl (Queue.push current) s.2)

/-- The loop over the heap, with the pops left; `none` where they do not do. -/
def walkFrom (as : List (Assign Name)) : Nat → Scan Name → Queue → Option (Scan Name)
  | _, w, ⟨_, []⟩ => some w
  | 0, _, ⟨_, _ :: _⟩ => none
  | k + 1, w, ⟨candidates, i :: pending⟩ =>
      match as[i]? with
      | none => none
      | some a =>
          if a.Hit w.dirty then
            if a.observes w.store then
              let s := markOutputs as i a.outputs (w.dirty, ⟨candidates, pending⟩)
              walkFrom as k ⟨a.after w.store, s.1, true, w.executed ++ [i]⟩ s.2
            else walkFrom as k ⟨a.after w.store, w.dirty, w.changed, w.executed ++ [i]⟩ ⟨candidates, pending⟩
          else walkFrom as k w ⟨candidates, pending⟩

/-- The candidates of the dirty names, heapified. -/
def indexed (as : List (Assign Name)) (dirty : List Name) : Queue :=
  let candidates := (dirty.flatMap (sigToContinuous as)).toFinset
  ⟨candidates, candidates.sort (· ≤ ·)⟩

/-- The call that walks the heap; `dirty` in the order a loop over it takes. -/
def walk (as : List (Assign Name)) (σ : Store Name) (dirty : List Name) : Option (Scan Name) :=
  walkFrom as as.length ⟨σ, dirty.toFinset, false, []⟩ (indexed as dirty)

/-- The loop that collects the candidates; `none` where it decides for the scan (`dense`). -/
def collect (as : List (Assign Name)) : List Name → Finset Nat → Option (Finset Nat)
  | [], candidates => some candidates
  | name :: names, candidates =>
      let threshold := max 1 ((as.length + 3) / 4)
      let affected := sigToContinuous as name
      if threshold ≤ affected.length then none
      else if threshold ≤ (candidates ∪ affected.toFinset).card then none
      else collect as names (candidates ∪ affected.toFinset)

/-- `_run_dirty_continuous_assigns`. -/
def runDirtyContinuousAssigns (as : List (Assign Name)) (σ : Store Name) (dirty : List Name) : Option (Scan Name) :=
  if as.length ≤ 8 then some (scan as σ dirty.toFinset)
  else match collect as dirty ∅ with
    | none => some (scan as σ dirty.toFinset)
    | some candidates =>
        walkFrom as as.length ⟨σ, dirty.toFinset, false, []⟩ ⟨candidates, candidates.sort (· ≤ ·)⟩

/-! ## The scan that adds every base name -/

/-- One position of a scan that adds all base names of a changed left-hand side. -/
def scanAllAt (as : List (Assign Name)) (w : Scan Name) (i : Nat) : Scan Name :=
  match as[i]? with
  | some a => if a.Hit w.dirty then a.fire a.targets i w else w
  | none => w

variable {as : List (Assign Name)}

theorem mem_sigToContinuous {name : Name} {i : Nat} :
    i ∈ sigToContinuous as name ↔ ∃ a, as[i]? = some a ∧ name ∈ a.sens := by
  rw [sigToContinuous, List.mem_filter, List.mem_range, Option.any_eq_true]
  constructor
  · rintro ⟨-, a, ha, hm⟩
    exact ⟨a, ha, of_decide_eq_true hm⟩
  · rintro ⟨a, ha, hm⟩
    exact ⟨(List.getElem?_eq_some_iff.mp ha).1, a, ha, decide_eq_true hm⟩

theorem Assign.hit_insert {a : Assign Name} {name : Name} {dirty : Finset Name} :
    a.Hit (insert name dirty) ↔ name ∈ a.sens ∨ a.Hit dirty := by
  constructor
  · rintro ⟨n, hn⟩
    rw [Finset.mem_inter, Finset.mem_insert] at hn
    obtain ⟨hs, rfl | hd⟩ := hn
    · exact Or.inl hs
    · exact Or.inr ⟨n, Finset.mem_inter.mpr ⟨hs, hd⟩⟩
  · rintro (hs | ⟨n, hn⟩)
    · exact ⟨name, Finset.mem_inter.mpr ⟨hs, Finset.mem_insert_self _ _⟩⟩
    · rw [Finset.mem_inter] at hn
      exact ⟨n, Finset.mem_inter.mpr ⟨hn.1, Finset.mem_insert_of_mem hn.2⟩⟩

theorem Assign.hit_union {a : Assign Name} {dirty out : Finset Name} :
    a.Hit (dirty ∪ out) ↔ a.Hit dirty ∨ a.Hit out := by
  rw [Hit, Finset.inter_union_distrib_left, Finset.union_nonempty]
  rfl

variable (as) in
/-- Before position `i`: the heap holds the candidates from `i` on, and these are the assigns a dirty name hits. -/
structure Queue.Tracks (i : Nat) (dirty : Finset Name) (q : Queue) : Prop where
  sorted : q.pending.Pairwise (· < ·)
  mem_pending : ∀ p, p ∈ q.pending ↔ p ∈ q.candidates ∧ i ≤ p
  candidate : ∀ p, i ≤ p → (p ∈ q.candidates ↔ ∃ a, as[p]? = some a ∧ a.Hit dirty)

namespace Queue

variable {q : Queue} {i : Nat} {dirty : Finset Name}

theorem mem_push {current position p : Nat} :
    p ∈ (q.push current position).candidates ↔ p ∈ q.candidates ∨ (p = position ∧ current < position) := by
  rw [push]
  split
  · next h => rw [Finset.mem_insert, or_comm, and_iff_left h.1]
  · next h =>
    constructor
    · exact Or.inl
    · rintro (hp | ⟨rfl, hc⟩)
      · exact hp
      · by_contra hn
        exact h ⟨hc, hn⟩

theorem mem_foldl_push {current p : Nat} (ps : List Nat) (q : Queue) :
    p ∈ (ps.foldl (push current) q).candidates ↔ p ∈ q.candidates ∨ (p ∈ ps ∧ current < p) := by
  induction ps generalizing q with
  | nil => simp
  | cons x ps ih =>
    rw [List.foldl_cons, ih, mem_push, List.mem_cons]
    constructor
    · rintro ((h | ⟨rfl, hc⟩) | ⟨h, hc⟩)
      · exact Or.inl h
      · exact Or.inr ⟨Or.inl rfl, hc⟩
      · exact Or.inr ⟨Or.inr h, hc⟩
    · rintro (h | ⟨rfl | h, hc⟩)
      · exact Or.inl (Or.inl h)
      · exact Or.inl (Or.inr ⟨rfl, hc⟩)
      · exact Or.inr ⟨h, hc⟩

/-- The heap holds the candidates behind the current position, each once. -/
def Heaped (current : Nat) (q : Queue) : Prop :=
  q.pending.Pairwise (· < ·) ∧ ∀ p, p ∈ q.pending ↔ p ∈ q.candidates ∧ current < p

theorem Heaped.push {current : Nat} (h : q.Heaped current) (position : Nat) :
    (q.push current position).Heaped current := by
  rw [Queue.push]
  split
  · next hp =>
    have hnot : position ∉ q.pending := fun hm => hp.2 ((h.2 position).mp hm).1
    refine ⟨?_, fun p => ?_⟩
    · have hsorted : (q.pending.orderedInsert (· ≤ ·) position).Pairwise (· ≤ ·) :=
        List.Pairwise.orderedInsert _ _ (h.1.imp le_of_lt)
      have hnodup : (q.pending.orderedInsert (· ≤ ·) position).Nodup :=
        (List.perm_orderedInsert _ _ _).nodup_iff.mpr
          (List.nodup_cons.mpr ⟨hnot, h.1.imp fun hlt => ne_of_lt hlt⟩)
      exact hsorted.imp₂ (fun _ _ hle hne => lt_of_le_of_ne hle hne) hnodup
    · rw [List.mem_orderedInsert, h.2 p, Finset.mem_insert]
      constructor
      · rintro (rfl | ⟨hc, hlt⟩)
        · exact ⟨Or.inl rfl, hp.1⟩
        · exact ⟨Or.inr hc, hlt⟩
      · rintro ⟨rfl | hc, hlt⟩
        · exact Or.inl rfl
        · exact Or.inr ⟨hc, hlt⟩
  · exact h

theorem Heaped.foldl_push {current : Nat} (ps : List Nat) {q : Queue} (h : q.Heaped current) :
    (ps.foldl (Queue.push current) q).Heaped current := by
  induction ps generalizing q with
  | nil => exact h
  | cons x ps ih => exact ih (h.push x)

theorem tracks_succ_iff : q.Tracks as (i + 1) dirty ↔ q.Heaped i ∧
      ∀ p, i < p → (p ∈ q.candidates ↔ ∃ a, as[p]? = some a ∧ a.Hit dirty) :=
  ⟨fun h => ⟨⟨h.sorted, h.mem_pending⟩, h.candidate⟩, fun h => ⟨h.1.1, h.1.2, h.2⟩⟩

end Queue

/-- `mark_outputs` makes the names dirty, and keeps the heap in step with them. -/
theorem markOutputs_tracks {i : Nat} (names : List Name) {s : Finset Name × Queue}
    (h : s.2.Tracks as (i + 1) s.1) :
    (markOutputs as i names s).1 = s.1 ∪ names.toFinset ∧
      (markOutputs as i names s).2.Tracks as (i + 1) (markOutputs as i names s).1 := by
  induction names generalizing s with
  | nil => exact ⟨by simp [markOutputs], h⟩
  | cons name names ih =>
    rw [markOutputs]
    split
    · next hmem =>
      refine ⟨?_, (ih h).2⟩
      rw [(ih h).1, List.toFinset_cons, Finset.union_insert, Finset.insert_eq_of_mem]
      exact Finset.mem_union_left _ hmem
    · have hstep : ((sigToContinuous as name).foldl (Queue.push i) s.2).Tracks as (i + 1) (insert name s.1) := by
        obtain ⟨hheap, hcand⟩ := Queue.tracks_succ_iff.mp h
        refine Queue.tracks_succ_iff.mpr ⟨hheap.foldl_push _, fun p hp => ?_⟩
        rw [Queue.mem_foldl_push, hcand p hp, mem_sigToContinuous, and_iff_left hp]
        constructor
        · rintro (⟨a, ha, hhit⟩ | ⟨a, ha, hread⟩)
          · exact ⟨a, ha, Assign.hit_insert.mpr (Or.inr hhit)⟩
          · exact ⟨a, ha, Assign.hit_insert.mpr (Or.inl hread)⟩
        · rintro ⟨a, ha, hhit⟩
          rcases Assign.hit_insert.mp hhit with hread | hhit
          · exact Or.inr ⟨a, ha, hread⟩
          · exact Or.inl ⟨a, ha, hhit⟩
      obtain ⟨hdirty, htracks⟩ := ih (s := (insert name s.1, (sigToContinuous as name).foldl (Queue.push i) s.2)) hstep
      refine ⟨?_, htracks⟩
      rw [hdirty, List.toFinset_cons, Finset.union_insert, Finset.insert_union]

namespace Queue.Tracks

variable {i : Nat} {dirty : Finset Name} {q : Queue}

/-- A position that is no candidate is not hit, and the heap is in step behind it. -/
theorem skip (h : q.Tracks as i dirty) (hi : i ∉ q.pending) :
    q.Tracks as (i + 1) dirty ∧ ∀ a, as[i]? = some a → ¬ a.Hit dirty := by
  have hnot : i ∉ q.candidates := fun hc => hi ((h.mem_pending i).mpr ⟨hc, le_refl i⟩)
  refine ⟨⟨h.sorted, fun p => ?_, fun p hp => h.candidate p (by omega)⟩, fun a ha hhit => ?_⟩
  · rw [h.mem_pending]
    apply and_congr_right
    intro hc
    have hne : p ≠ i := by
      rintro rfl
      exact hnot hc
    omega
  · exact hnot ((h.candidate i (le_refl i)).mpr ⟨a, ha, hhit⟩)

/-- A candidate position is the top of the heap. -/
theorem head_eq (h : q.Tracks as i dirty) (hi : i ∈ q.pending) : ∃ rest, q.pending = i :: rest := by
  cases hq : q.pending with
  | nil =>
    rw [hq] at hi
    exact absurd hi List.not_mem_nil
  | cons p rest =>
    have hle : i ≤ p := ((h.mem_pending p).mp (hq ▸ List.mem_cons_self)).2
    have hsorted := h.sorted
    rw [hq, List.pairwise_cons] at hsorted
    rw [hq, List.mem_cons] at hi
    rcases hi with rfl | hi
    · exact ⟨rest, rfl⟩
    · have := hsorted.1 i hi
      omega

theorem pop {candidates : Finset Nat} {rest : List Nat} (h : Queue.Tracks as i dirty ⟨candidates, i :: rest⟩) :
    Queue.Tracks as (i + 1) dirty ⟨candidates, rest⟩ := by
  have hsorted := List.pairwise_cons.mp h.sorted
  refine ⟨hsorted.2, fun p => ?_, fun p hp => h.candidate p (by omega)⟩
  have hmem := h.mem_pending p
  rw [List.mem_cons] at hmem
  constructor
  · intro hp
    exact ⟨(hmem.mp (Or.inr hp)).1, hsorted.1 p hp⟩
  · rintro ⟨hc, hlt⟩
    rcases hmem.mpr ⟨hc, by omega⟩ with rfl | hp
    · exact absurd hlt (by simp)
    · exact hp

theorem pending_eq_nil (h : q.Tracks as as.length dirty) : q.pending = [] := by
  refine List.eq_nil_iff_forall_not_mem.mpr fun p hp => ?_
  obtain ⟨hc, hle⟩ := (h.mem_pending p).mp hp
  obtain ⟨a, ha, -⟩ := (h.candidate p hle).mp hc
  have := (List.getElem?_eq_some_iff.mp ha).1
  omega

end Queue.Tracks

/-- Walking the heap is scanning with all base names, and needs a pop for each position at most. -/
theorem walkFrom_eq_scanAll (k : Nat) {i fuel : Nat} {w : Scan Name} {q : Queue} (h : q.Tracks as i w.dirty)
    (hik : i + k = as.length) (hfuel : k ≤ fuel) :
    walkFrom as fuel w q = some ((List.range' i k).foldl (scanAllAt as) w) := by
  induction k generalizing i fuel w q with
  | zero =>
    obtain rfl : i = as.length := hik
    obtain ⟨candidates, pending⟩ := q
    obtain rfl : pending = [] := h.pending_eq_nil
    rw [walkFrom]
    rfl
  | succ k ih =>
    rw [List.range'_succ, List.foldl_cons]
    by_cases hi : i ∈ q.pending
    · obtain ⟨candidates, pending⟩ := q
      obtain ⟨rest, rfl⟩ : ∃ rest, pending = i :: rest := h.head_eq hi
      obtain ⟨a, ha, hhit⟩ := (h.candidate i (le_refl i)).mp ((h.mem_pending i).mp hi).1
      obtain ⟨fuel, rfl⟩ : ∃ f, fuel = f + 1 := ⟨fuel - 1, by omega⟩
      have hpop := h.pop
      simp only [walkFrom, scanAllAt, ha, if_pos hhit, Assign.fire]
      by_cases ho : a.observes w.store = true
      · obtain ⟨hdirty, htracks⟩ := markOutputs_tracks a.outputs (s := (w.dirty, ⟨candidates, rest⟩)) hpop
        have htargets : a.outputs.toFinset = a.targets := by
          ext n
          rw [List.mem_toFinset, a.mem_outputs]
        rw [if_pos ho, if_pos ho, ← htargets, ← hdirty]
        exact ih htracks (by omega) (by omega)
      · rw [if_neg ho, if_neg ho]
        exact ih hpop (by omega) (by omega)
    · obtain ⟨htracks, hnot⟩ := h.skip hi
      have hsame : scanAllAt as w i = w := by
        rw [scanAllAt]
        cases ha : as[i]? with
        | none => rfl
        | some a => exact if_neg (hnot a ha)
      rw [hsame]
      exact ih htracks (by omega) (by omega)

theorem indexed_tracks (as : List (Assign Name)) (dirty : List Name) :
    (indexed as dirty).Tracks as 0 dirty.toFinset := by
  refine ⟨(Finset.sortedLT_sort (dirty.flatMap (sigToContinuous as)).toFinset).pairwise, fun p => ?_, fun p _ => ?_⟩
  · rw [indexed, Finset.mem_sort, and_iff_left (Nat.zero_le p)]
  · rw [indexed, List.mem_toFinset, List.mem_flatMap]
    constructor
    · rintro ⟨name, hname, hp⟩
      obtain ⟨a, ha, hread⟩ := mem_sigToContinuous.mp hp
      exact ⟨a, ha, name, Finset.mem_inter.mpr ⟨hread, List.mem_toFinset.mpr hname⟩⟩
    · rintro ⟨a, ha, name, hname⟩
      rw [Finset.mem_inter, List.mem_toFinset] at hname
      exact ⟨name, hname.2, mem_sigToContinuous.mpr ⟨a, ha, hname.1⟩⟩

/-- The call that walks the heap is a scan that adds all base names. -/
theorem walk_eq_scanAll (as : List (Assign Name)) (σ : Store Name) (dirty : List Name) :
    walk as σ dirty = some ((List.range as.length).foldl (scanAllAt as) ⟨σ, dirty.toFinset, false, []⟩) := by
  rw [walk, walkFrom_eq_scanAll as.length (indexed_tracks as dirty) (Nat.zero_add _) (le_refl _),
    List.range_eq_range']

/-- The pass a scan is at. -/
def Scan.wave (w : Scan Name) : Wave Name := ⟨w.store, w.dirty, w.changed⟩

theorem Assign.wave_fire (a : Assign Name) (i : Nat) (w : Scan Name) :
    (if a.Hit w.dirty then a.fire a.targets i w else w).wave = a.evaluate w.wave := by
  rw [Continuous.evaluate, apply_ite Scan.wave]
  refine if_congr Iff.rfl ?_ rfl
  rw [fire, apply_ite Scan.wave]
  rfl

/-- The scan that adds all base names goes through the assigns one after the other. -/
theorem wave_foldl_scanAllAt (earlier later : List (Assign Name)) (w : Scan Name) :
    ((List.range' earlier.length later.length).foldl (scanAllAt (earlier ++ later)) w).wave =
      runAssigns (later.map Assign.toContinuous) w.wave := by
  induction later generalizing earlier w with
  | nil => rfl
  | cons a later ih =>
    have hhere : (earlier ++ a :: later)[earlier.length]? = some a := by simp
    have hstep : scanAllAt (earlier ++ a :: later) w earlier.length =
        if a.Hit w.dirty then a.fire a.targets earlier.length w else w := by
      rw [scanAllAt, hhere]
    rw [List.length_cons, List.range'_succ, List.foldl_cons, hstep, List.map_cons, runAssigns_cons,
      ← a.wave_fire earlier.length w, ← ih (earlier ++ [a]), List.append_assoc, List.singleton_append,
      List.length_append, List.length_singleton]

/-- The call that walks the heap is the pass over all assigns in declaration order. -/
theorem walk_wave (as : List (Assign Name)) (σ : Store Name) (dirty : List Name) : (walk as σ dirty).map Scan.wave =
      some (runAssigns (as.map Assign.toContinuous) ⟨σ, dirty.toFinset, false⟩) := by
  rw [walk_eq_scanAll, Option.map_some, List.range_eq_range']
  exact congrArg some (wave_foldl_scanAllAt [] as ⟨σ, dirty.toFinset, false, []⟩)

/-- The heap the loop over `dirty` ends with, where it does not decide for the scan. -/
theorem collect_eq_some {dirty : List Name} {start candidates : Finset Nat}
    (h : collect as dirty start = some candidates) :
    candidates = start ∪ (dirty.flatMap (sigToContinuous as)).toFinset := by
  induction dirty generalizing start with
  | nil =>
    obtain rfl : start = candidates := Option.some_inj.mp h
    simp
  | cons name names ih =>
    simp only [collect, Option.ite_none_left_eq_some] at h
    rw [ih h.2.2, List.flatMap_cons, List.toFinset_append, Finset.union_assoc]

/-- The function walks the heap, or scans. -/
theorem runDirtyContinuousAssigns_cases (as : List (Assign Name)) (σ : Store Name) (dirty : List Name) :
    runDirtyContinuousAssigns as σ dirty = some (scan as σ dirty.toFinset) ∨
      runDirtyContinuousAssigns as σ dirty = walk as σ dirty := by
  rw [runDirtyContinuousAssigns]
  split
  · exact Or.inl rfl
  · cases hc : collect as dirty ∅ with
    | none => exact Or.inl rfl
    | some candidates =>
      right
      obtain rfl := collect_eq_some hc
      rw [Finset.empty_union]
      rfl

/-! ## The two scans -/

/-- The base names of the left-hand side that position `i` of the scan changes. -/
def changedNames (as : List (Assign Name)) (w : Scan Name) (i : Nat) : Finset Name :=
  match as[i]? with
  | some a => if a.Hit w.dirty ∧ a.observes w.store = true then a.targets else ∅
  | none => ∅

/-- Nothing hangs on the base names `out` that the scan has not added: no assign is evaluated for one of them alone,
and in the end they are dirty. -/
def Covered (as : List (Assign Name)) : List Nat → Scan Name → Finset Name → Prop
  | [], w, out => out ⊆ w.dirty
  | i :: is, w, out =>
      (∀ a, as[i]? = some a → a.Hit out → a.Hit w.dirty) ∧ Covered as is (scanAt as w i) (out ∪ changedNames as w i)

/-- The scan with more dirty names. -/
def Scan.withNames (w : Scan Name) (out : Finset Name) : Scan Name := { w with dirty := w.dirty ∪ out }

variable (as) in
theorem scanAt_executed (w : Scan Name) (i : Nat) :
    (scanAt as w i).executed = w.executed ∨ (scanAt as w i).executed = w.executed ++ [i] := by
  rw [scanAt]
  cases as[i]? with
  | none => exact Or.inl rfl
  | some a =>
    dsimp only
    split
    · right
      rw [Assign.fire]
      split <;> rfl
    · exact Or.inl rfl

variable (as) in
/-- A scan extends the list of evaluated positions by some it goes through. -/
theorem foldl_scanAt_executed (is : List Nat) (w : Scan Name) :
    ∃ l, (is.foldl (scanAt as) w).executed = w.executed ++ l ∧ l ⊆ is := by
  induction is generalizing w with
  | nil => exact ⟨[], by simp, List.Subset.refl _⟩
  | cons i is ih =>
    obtain ⟨l, hl, hsub⟩ := ih (scanAt as w i)
    rw [List.foldl_cons, hl]
    rcases scanAt_executed as w i with he | he
    · exact ⟨l, by rw [he], fun x hx => List.mem_cons_of_mem _ (hsub hx)⟩
    · refine ⟨i :: l, by rw [he, List.append_assoc, List.singleton_append], fun x hx => ?_⟩
      rcases List.mem_cons.mp hx with rfl | hx
      · exact List.mem_cons_self
      · exact List.mem_cons_of_mem _ (hsub hx)

variable (as) in
theorem scanAllAt_executed (w : Scan Name) (i : Nat) : w.executed <+: (scanAllAt as w i).executed := by
  rw [scanAllAt]
  cases as[i]? with
  | none => exact List.prefix_refl _
  | some a =>
    dsimp only
    split
    · rw [Assign.fire]
      split <;> exact List.prefix_append _ _
    · exact List.prefix_refl _

variable (as) in
theorem foldl_scanAllAt_executed (is : List Nat) (w : Scan Name) :
    w.executed <+: (is.foldl (scanAllAt as) w).executed := by
  induction is generalizing w with
  | nil => exact List.prefix_refl _
  | cons i is ih => exact (scanAllAt_executed as w i).trans (ih _)

/-- Both scans evaluate an assign that a dirty name hits. -/
theorem scanAllAt_withNames {w : Scan Name} {out : Finset Name} {i : Nat}
    (h : ∀ a, as[i]? = some a → a.Hit out → a.Hit w.dirty) :
    scanAllAt as (w.withNames out) i = (scanAt as w i).withNames (out ∪ changedNames as w i) := by
  rw [scanAllAt, scanAt, changedNames]
  cases ha : as[i]? with
  | none => simp
  | some a =>
    dsimp only
    by_cases hhit : a.Hit w.dirty
    · have hout : a.Hit (w.withNames out).dirty := Assign.hit_union.mpr (Or.inl hhit)
      rw [if_pos hhit, if_pos hout, Assign.fire, Assign.fire]
      by_cases ho : a.observes w.store = true
      · rw [if_pos (show a.observes (w.withNames out).store = true from ho), if_pos ho, if_pos ⟨hhit, ho⟩]
        simp only [Scan.withNames, Scan.mk.injEq, true_and, and_true]
        have hsub := a.marks_subset w.store
        grind
      · rw [if_neg (show ¬ a.observes (w.withNames out).store = true from ho), if_neg ho,
          if_neg fun hc => ho hc.2, Finset.union_empty]
        rfl
    · have hout : ¬ a.Hit (w.withNames out).dirty := fun hc =>
        (Assign.hit_union.mp hc).elim hhit fun ho => hhit (h a ha ho)
      rw [if_neg hhit, if_neg hout, if_neg fun hc => hhit hc.1, Finset.union_empty]

/-- The scans agree exactly when nothing hangs on the names one of them leaves out. -/
theorem foldl_scanAllAt_eq_iff (is : List Nat) (hnodup : is.Nodup) (w : Scan Name) (out : Finset Name) :
    is.foldl (scanAllAt as) (w.withNames out) = is.foldl (scanAt as) w ↔ Covered as is w out := by
  induction is generalizing w out with
  | nil =>
    rw [List.foldl_nil, List.foldl_nil, Covered]
    constructor
    · intro h
      have hdirty : w.dirty ∪ out = w.dirty := congrArg Scan.dirty h
      exact Finset.union_eq_left.mp hdirty
    · intro h
      rw [Scan.withNames, Finset.union_eq_left.mpr h]
  | cons i is ih =>
    obtain ⟨hi, his⟩ := List.nodup_cons.mp hnodup
    rw [List.foldl_cons, List.foldl_cons, Covered]
    by_cases h : ∀ a, as[i]? = some a → a.Hit out → a.Hit w.dirty
    · rw [scanAllAt_withNames h, ih his, and_iff_right h]
    · -- the scan with all names evaluates the assign here, the other one never does
      refine iff_of_false (fun heq => h ?_) fun hc => h hc.1
      intro a ha hout
      by_contra hdirty
      have hskip : scanAt as w i = w := by
        rw [scanAt, ha]
        exact if_neg hdirty
      have hfire : (scanAllAt as (w.withNames out) i).executed = w.executed ++ [i] := by
        rw [scanAllAt, ha]
        dsimp only
        rw [if_pos (show a.Hit (w.withNames out).dirty from Assign.hit_union.mpr (Or.inr hout)), Assign.fire]
        split <;> rfl
      obtain ⟨l, hl, hsub⟩ := foldl_scanAt_executed as is w
      have hpre := foldl_scanAllAt_executed as is (scanAllAt as (w.withNames out) i)
      rw [heq, hskip, hl, hfire, List.prefix_append_right_inj] at hpre
      exact hi (hsub (hpre.subset List.mem_cons_self))

/-- The call that walks the heap evaluates the same assigns in the same order as the scan, and ends with the same
store, dirty names and answer, exactly when nothing hangs on the base names the scan leaves out. -/
theorem walk_eq_scan_iff (as : List (Assign Name)) (σ : Store Name) (dirty : List Name) :
    walk as σ dirty = some (scan as σ dirty.toFinset) ↔
      Covered as (List.range as.length) ⟨σ, dirty.toFinset, false, []⟩ ∅ := by
  have h : _ ↔ Covered as _ ⟨σ, dirty.toFinset, false, []⟩ ∅ :=
    foldl_scanAllAt_eq_iff (List.range as.length) List.nodup_range _ ∅
  rw [walk_eq_scanAll, Option.some_inj, scan, ← h, Scan.withNames, Finset.union_empty]

/-! ## A network inside an instance -/

/-- `assign u.<lhs> = u.<rhs>`, as elaboration names the two signals of an instance `u`. -/
def Assign.inInstance (id : Nat) (lhs rhs : String) : Assign String where
  id := id
  sens := {"u." ++ rhs, "u"}
  targets := {"u." ++ lhs, "u"}
  readLhs σ := some (σ ("u." ++ lhs)).bits
  drive σ := [("u." ++ lhs, σ ("u." ++ rhs))]
  plain _ := some ("u." ++ lhs)
  plain_mem σ n h := by
    cases h
    exact Finset.mem_insert_self _ _
  outputs := ["u." ++ lhs, "u"]
  mem_outputs n := by simp

/-- `assign u.x = u.a`, and eight assigns that read another signal of the instance. -/
def instanceNetwork : List (Assign String) :=
  Assign.inInstance 0 "x" "a" :: (List.range 8).map fun i => Assign.inInstance (i + 1) "y" "b"

/-- The signal `u.a` is 1, the others are 0. -/
def instanceStore : Store String := fun n => ⟨0, [Value.ofInt (if n = "u.a" then 1 else 0) 1]⟩

/-- The change of `u.x` makes the instance name `u` dirty in the call, which then evaluates every other assign; the
scan evaluates one. -/
theorem runDirtyContinuousAssigns_instance :
    (runDirtyContinuousAssigns instanceNetwork instanceStore ["u.a"]).map Scan.executed = some (List.range 9) ∧
      (scan instanceNetwork instanceStore ["u.a"].toFinset).executed = [0] ∧
      runDirtyContinuousAssigns instanceNetwork instanceStore ["u.a"] =
        walk instanceNetwork instanceStore ["u.a"] ∧
      walk instanceNetwork instanceStore ["u.a"] ≠ some (scan instanceNetwork instanceStore ["u.a"].toFinset) := by
  have hrun : (runDirtyContinuousAssigns instanceNetwork instanceStore ["u.a"]).map Scan.executed =
      some (List.range 9) := by decide +kernel
  have hscan : (scan instanceNetwork instanceStore ["u.a"].toFinset).executed = [0] := by decide +kernel
  have hne : runDirtyContinuousAssigns instanceNetwork instanceStore ["u.a"] ≠
      some (scan instanceNetwork instanceStore ["u.a"].toFinset) := by
    intro heq
    rw [heq, Option.map_some, hscan] at hrun
    exact absurd hrun (by decide)
  have hwalk := (runDirtyContinuousAssigns_cases instanceNetwork instanceStore ["u.a"]).resolve_left hne
  exact ⟨hrun, hscan, hwalk, hwalk ▸ hne⟩

end Veriforge.Sched

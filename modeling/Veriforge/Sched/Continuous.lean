import Veriforge.Sched.Design

/-! # Continuous assigns in the reference scheduler

`_run_dirty_continuous_assigns` is one pass in declaration order: an assign is evaluated when one of
its inputs is dirty, and a change the scheduler sees under its left-hand side makes its targets
dirty, for the later assigns of the same pass too. (With many assigns the positions come from an
index and a heap instead of a scan; `Sched.Candidates` compares the two.) Every caller repeats
the pass up to `delta_limit` times and goes on without a word when that was not enough. -/

namespace Veriforge.Sched

variable {Name : Type} [DecidableEq Name]

/-- Whether `old` and `new` are both there and differ. -/
def differs : Option (List (Nat × Nat)) → Option (List (Nat × Nat)) → Bool
  | some old, some new => decide (old ≠ new)
  | _, _ => false

/-- A pass: the store, `dirty` and `changed`. -/
structure Wave (Name : Type) where
  store : Store Name
  dirty : Finset Name
  changed : Bool

namespace Continuous

/-- The store after an evaluation. -/
def after (a : Continuous Name) (σ : Store Name) : Store Name := writeAll σ (a.drive σ)

/-- The scheduler sees that the evaluation changed what is under the left-hand side. -/
def observes (a : Continuous Name) (σ : Store Name) : Bool :=
  differs (a.readLhs σ) (a.readLhs (a.after σ))

/-- An assign in the pass. -/
def evaluate (a : Continuous Name) (w : Wave Name) : Wave Name :=
  if (a.sens ∩ w.dirty).Nonempty then
    if a.observes w.store then ⟨a.after w.store, w.dirty ∪ a.targets, true⟩
    else ⟨a.after w.store, w.dirty, w.changed⟩
  else w

theorem after_of_not_writes {a : Continuous Name} {n : Name} (h : ¬ a.Writes n) (σ : Store Name) :
    a.after σ n = σ n :=
  writeAll_of_notMem (fun hn => h ⟨σ, hn⟩) σ

/-- What an assign in the pass can do: nothing, a change that is seen, or one that is not. -/
theorem evaluate_cases (a : Continuous Name) (w : Wave Name) : (¬ (a.sens ∩ w.dirty).Nonempty ∧ a.evaluate w = w) ∨
    ((a.sens ∩ w.dirty).Nonempty ∧ a.observes w.store = true ∧
      a.evaluate w = ⟨a.after w.store, w.dirty ∪ a.targets, true⟩) ∨
    ((a.sens ∩ w.dirty).Nonempty ∧ a.observes w.store = false ∧
      a.evaluate w = ⟨a.after w.store, w.dirty, w.changed⟩) := by
  unfold evaluate
  by_cases hs : (a.sens ∩ w.dirty).Nonempty
  · rw [if_pos hs]
    by_cases ho : a.observes w.store = true
    · rw [if_pos ho]
      exact Or.inr (Or.inl ⟨hs, ho, rfl⟩)
    · rw [if_neg ho]
      exact Or.inr (Or.inr ⟨hs, Bool.not_eq_true _ ▸ ho, rfl⟩)
  · rw [if_neg hs]
    exact Or.inl ⟨hs, rfl⟩

theorem dirty_subset_evaluate (a : Continuous Name) (w : Wave Name) : w.dirty ⊆ (a.evaluate w).dirty := by
  rcases a.evaluate_cases w with ⟨-, h⟩ | ⟨-, -, h⟩ | ⟨-, -, h⟩ <;> rw [h]
  exact Finset.subset_union_left

theorem evaluate_of_not_writes {a : Continuous Name} {n : Name} (h : ¬ a.Writes n) (w : Wave Name) :
    (a.evaluate w).store n = w.store n := by
  rcases a.evaluate_cases w with ⟨-, he⟩ | ⟨-, -, he⟩ | ⟨-, -, he⟩ <;> rw [he]
  · exact after_of_not_writes h w.store
  · exact after_of_not_writes h w.store

end Continuous

/-- The assigns of a pass, from one of its positions on. -/
def runAssigns (as : List (Continuous Name)) (w : Wave Name) : Wave Name :=
  as.foldl (fun w a => a.evaluate w) w

@[simp] theorem runAssigns_nil (w : Wave Name) : runAssigns [] w = w := rfl

@[simp] theorem runAssigns_cons (a : Continuous Name) (as : List (Continuous Name)) (w : Wave Name) :
    runAssigns (a :: as) w = runAssigns as (a.evaluate w) := rfl

namespace Design

variable (D : Design Name)

/-- `_run_dirty_continuous_assigns`. -/
def runDirty (σ : Store Name) (dirty : Finset Name) : Wave Name := runAssigns D.assigns ⟨σ, dirty, false⟩

/-- The loop around it, with the passes left: the store, and `dirty` with the outputs. -/
def propagate : Nat → Store Name → Finset Name → Store Name × Finset Name
  | 0, σ, dirty => (σ, dirty)
  | k + 1, σ, dirty =>
      let w := D.runDirty σ dirty
      if w.changed then propagate k w.store w.dirty else (w.store, w.dirty)

/-- Some process waits for changes of `n`. -/
def Watched (n : Name) : Prop :=
  (∃ a ∈ D.assigns, n ∈ a.sens) ∨ (∃ c ∈ D.combos, n ∈ c.sens) ∨ ∃ p ∈ D.seqs, n ∈ p.edges.map (·.1)

/-- The scheduler sees a change the evaluation makes to a watched name, and knows the name. -/
def Sees (a : Continuous Name) (σ : Store Name) : Prop :=
  ∀ n, D.Watched n → (a.after σ n).bits ≠ (σ n).bits → n ∈ a.targets ∧ a.observes σ = true

/-- So it is for every evaluation of a pass. -/
def PassSees : List (Continuous Name) → Wave Name → Prop
  | [], _ => True
  | a :: as, w => ((a.sens ∩ w.dirty).Nonempty → D.Sees a w.store) ∧ PassSees as (a.evaluate w)

/-- So it is for every pass of the loop. -/
def Seen : Nat → Store Name → Finset Name → Prop
  | 0, _, _ => True
  | k + 1, σ, dirty =>
      D.PassSees D.assigns ⟨σ, dirty, false⟩ ∧ ((D.runDirty σ dirty).changed = true →
          Seen k (D.runDirty σ dirty).store (D.runDirty σ dirty).dirty)

/-- The loop ends with a pass that changes nothing, not by its limit. -/
def Converges : Nat → Store Name → Finset Name → Prop
  | 0, _, _ => False
  | k + 1, σ, dirty =>
      (D.runDirty σ dirty).changed = true → Converges k (D.runDirty σ dirty).store (D.runDirty σ dirty).dirty

variable {D}

/-! ## Every change of a watched name becomes dirty -/

/-- What a pass keeps: dirty names stay dirty, and the changed ones are among them. -/
theorem PassSees.dirty_of_changed {as : List (Continuous Name)} {w : Wave Name} (h : D.PassSees as w) :
    w.dirty ⊆ (runAssigns as w).dirty ∧ ∀ n, D.Watched n →
      ((runAssigns as w).store n).bits ≠ (w.store n).bits → n ∈ (runAssigns as w).dirty := by
  induction as generalizing w with
  | nil => exact ⟨Finset.Subset.refl _, fun n _ hn => absurd rfl hn⟩
  | cons a as ih =>
    obtain ⟨ha, has⟩ := h
    obtain ⟨hsub, hch⟩ := ih has
    rw [runAssigns_cons]
    refine ⟨(a.dirty_subset_evaluate w).trans hsub, fun n hw hn => ?_⟩
    -- either a later assign changed it, or this one did
    by_cases hlater : ((runAssigns as (a.evaluate w)).store n).bits = ((a.evaluate w).store n).bits
    · rw [hlater] at hn
      refine hsub ?_
      rcases a.evaluate_cases w with ⟨-, he⟩ | ⟨hs, -, he⟩ | ⟨hs, ho, he⟩ <;> rw [he] at hn ⊢
      · exact absurd rfl hn
      · exact Finset.mem_union_right _ (ha hs n hw hn).1
      · exact absurd (ha hs n hw hn).2 (by rw [ho]; exact Bool.false_ne_true)
    · exact hch n hw hlater

theorem dirty_subset_propagate (k : Nat) (σ : Store Name) (dirty : Finset Name) :
    dirty ⊆ (D.propagate k σ dirty).2 := by
  have hpass : ∀ (as : List (Continuous Name)) (w : Wave Name), w.dirty ⊆ (runAssigns as w).dirty := by
    intro as
    induction as with
    | nil => exact fun w => Finset.Subset.refl _
    | cons a as ih => exact fun w => (a.dirty_subset_evaluate w).trans (ih _)
  induction k generalizing σ dirty with
  | zero => exact Finset.Subset.refl _
  | succ k ih =>
    rw [propagate]
    have h := hpass D.assigns ⟨σ, dirty, false⟩
    split
    · exact h.trans (ih _ _)
    · exact h

/-- A watched name that the loop changed is dirty after it. -/
theorem Seen.dirty_of_changed {k : Nat} {σ : Store Name} {dirty : Finset Name} (h : D.Seen k σ dirty)
    {n : Name} (hw : D.Watched n) (hn : ((D.propagate k σ dirty).1 n).bits ≠ (σ n).bits) :
    n ∈ (D.propagate k σ dirty).2 := by
  induction k generalizing σ dirty with
  | zero => exact absurd rfl hn
  | succ k ih =>
    obtain ⟨hpass, hnext⟩ := h
    have hd := hpass.dirty_of_changed.2 n hw
    rw [propagate] at hn ⊢
    split
    · next hc =>
      rw [if_pos hc] at hn
      by_cases hfirst : ((D.runDirty σ dirty).store n).bits = (σ n).bits
      · exact ih (hnext hc) (hfirst ▸ hn)
      · exact dirty_subset_propagate _ _ _ (hd hfirst)
    · next hc =>
      rw [if_neg hc] at hn
      exact hd hn

/-- A name that no assign writes keeps its slot. -/
theorem propagate_of_not_writes {n : Name} (h : ∀ a ∈ D.assigns, ¬ a.Writes n) (k : Nat)
    (σ : Store Name) (dirty : Finset Name) : (D.propagate k σ dirty).1 n = σ n := by
  have hpass : ∀ (as : List (Continuous Name)) (w : Wave Name), (∀ a ∈ as, ¬ a.Writes n) →
      (runAssigns as w).store n = w.store n := by
    intro as
    induction as with
    | nil => exact fun w _ => rfl
    | cons a as ih =>
      intro w has
      rw [runAssigns_cons, ih _ fun b hb => has b (List.mem_cons_of_mem _ hb),
        Continuous.evaluate_of_not_writes (has a List.mem_cons_self)]
  induction k generalizing σ dirty with
  | zero => rfl
  | succ k ih =>
    have hp := hpass D.assigns ⟨σ, dirty, false⟩ h
    rw [propagate]
    split
    · rw [ih]
      exact hp
    · exact hp

/-- Without dirty names there is nothing to do. -/
theorem propagate_empty (k : Nat) (σ : Store Name) : D.propagate k σ ∅ = (σ, ∅) := by
  have hpass : ∀ as : List (Continuous Name), runAssigns as ⟨σ, ∅, false⟩ = ⟨σ, ∅, false⟩ := by
    intro as
    induction as with
    | nil => rfl
    | cons a as ih =>
      rw [runAssigns_cons, Continuous.evaluate, if_neg (by simp)]
      exact ih
  cases k with
  | zero => rfl
  | succ k =>
    rw [propagate, runDirty, hpass]
    rfl

end Design

end Veriforge.Sched

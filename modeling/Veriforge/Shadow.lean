import Mathlib.Logic.Function.Basic

/-! # Copies that are brought up to date

A store with a copy of it. A journal names places that were written since the copy was last brought up to date, and a
flag says that any place may have been. The copy is brought up to date from the journal alone while the flag is not
set. -/

namespace Veriforge

/-- A store, its copy, and what is known about where they differ. -/
structure Shadow (ι α : Type) where
  live : ι → α
  copy : ι → α
  /-- Any place may differ. -/
  stale : Bool
  journal : List ι

namespace Shadow

variable {ι α : Type} [DecidableEq ι]

/-- A write of one place. -/
def store (s : Shadow ι α) (i : ι) (a : α) : Shadow ι α := { s with live := Function.update s.live i a }

/-- Any place may differ from now on. -/
def invalidate (s : Shadow ι α) : Shadow ι α := { s with stale := true }

/-- A place goes into the journal. A journal that is full is given up. -/
def note (cap : Nat) (s : Shadow ι α) (i : ι) : Shadow ι α :=
  if s.stale then s
  else if s.journal.length < cap then { s with journal := s.journal ++ [i] }
  else s.invalidate

/-- The copy is brought up to date, on the places that are kept or on those of the journal. -/
def sync (kept : ι → Prop) [DecidablePred kept] (s : Shadow ι α) : Shadow ι α :=
  if s.stale then
    { s with copy := fun i => if kept i then s.live i else s.copy i, stale := false, journal := [] }
  else { s with copy := fun i => if i ∈ s.journal then s.live i else s.copy i, journal := [] }

/-- Where the two differ is known: each place that is kept and differs is in the journal, unless any place may. -/
def Covered (kept : ι → Prop) (s : Shadow ι α) : Prop :=
  s.stale = false → ∀ i, kept i → s.copy i ≠ s.live i → i ∈ s.journal

variable {kept : ι → Prop}

omit [DecidableEq ι] in
theorem covered_of_stale {s : Shadow ι α} (h : s.stale = true) : s.Covered kept := fun hfalse => by
  rw [h] at hfalse
  cases hfalse

omit [DecidableEq ι] in
theorem covered_invalidate (s : Shadow ι α) : s.invalidate.Covered kept := covered_of_stale rfl

/-- A place that is written and noted. -/
theorem Covered.note_store {s : Shadow ι α} (h : s.Covered kept) (cap : Nat) (i : ι) (a : α) :
    ((s.store i a).note cap i).Covered kept := by
  unfold note
  split
  · next hstale => exact covered_of_stale hstale
  · next hstale =>
    split
    · intro _ j hj hne
      by_cases hji : j = i
      · exact List.mem_append_right _ (List.mem_singleton.mpr hji)
      · -- at the other places nothing changed
        have hlive : (s.store i a).live j = s.live j := Function.update_of_ne hji _ _
        have hmem : j ∈ s.journal := h (Bool.eq_false_iff.mpr hstale) j hj (by rwa [← hlive])
        exact List.mem_append_left _ hmem
    · exact covered_invalidate _

variable [DecidablePred kept]

/-- What the copy is for: once it is brought up to date, it agrees with the store. -/
theorem Covered.sync_exact {s : Shadow ι α} (h : s.Covered kept) {i : ι} (hi : kept i) :
    (s.sync kept).copy i = (s.sync kept).live i := by
  unfold sync
  split
  · exact if_pos hi
  · next hstale =>
    by_cases hmem : i ∈ s.journal
    · exact if_pos hmem
    · have heq : s.copy i = s.live i := by
        by_contra hne
        exact hmem (h (Bool.eq_false_iff.mpr hstale) i hi hne)
      exact (if_neg hmem).trans heq

theorem Covered.sync {s : Shadow ι α} (h : s.Covered kept) : (s.sync kept).Covered kept :=
  fun _ _ hi hne => absurd (h.sync_exact hi) hne

@[simp] theorem sync_live (s : Shadow ι α) : (s.sync kept).live = s.live := by
  unfold Shadow.sync
  split <;> rfl

end Shadow

end Veriforge

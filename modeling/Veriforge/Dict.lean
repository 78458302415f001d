import Mathlib.Data.List.Basic
import Mathlib.Data.List.Nodup

/-! # Ordered dictionaries

A dictionary that keeps the order in which its keys were first set: a list of entries with distinct keys. -/

namespace Veriforge

variable {κ α : Type} [DecidableEq κ]

/-- `d[k] = v`: the entry keeps its place if there is one. -/
def dictSet (k : κ) (v : α) : List (κ × α) → List (κ × α)
  | [] => [(k, v)]
  | e :: es => if e.1 = k then (k, v) :: es else e :: dictSet k v es

/-- `d.get(k)` -/
def dictGet (k : κ) : List (κ × α) → Option α
  | [] => none
  | e :: es => if e.1 = k then some e.2 else dictGet k es

section

-- derived here once, not by every proof
attribute [local simp] dictSet dictGet

end

/-- The keys are distinct. -/
def DistinctKeys (d : List (κ × α)) : Prop := (d.map (·.1)).Nodup

theorem dictGet_dictSet (k k' : κ) (v : α) (d : List (κ × α)) :
    dictGet k' (dictSet k v d) = if k = k' then some v else dictGet k' d := by
  induction d with
  | nil => rfl
  | cons e es ih =>
    rw [dictSet]
    by_cases he : e.1 = k
    · rw [if_pos he, dictGet, dictGet, he]
      split <;> rfl
    · rw [if_neg he, dictGet, dictGet, ih]
      by_cases hk : e.1 = k'
      · rw [if_pos hk, if_pos hk, if_neg fun h => he (hk.trans h.symm)]
      · rw [if_neg hk, if_neg hk]

theorem keys_dictSet (k : κ) (v : α) (d : List (κ × α)) :
    ∀ k', k' ∈ (dictSet k v d).map (·.1) ↔ k' = k ∨ k' ∈ d.map (·.1) := by
  intro k'
  induction d with
  | nil => simp [dictSet]
  | cons e es ih =>
    rw [dictSet]
    split
    · next h => simp [h]
    · rw [List.map_cons, List.mem_cons, ih, List.map_cons, List.mem_cons]
      tauto

theorem mem_dictSet {k : κ} {v : α} {d : List (κ × α)} {e : κ × α} (h : e ∈ dictSet k v d) : e = (k, v) ∨ e ∈ d := by
  induction d with
  | nil => exact Or.inl (List.mem_singleton.mp h)
  | cons e' es ih =>
    rw [dictSet] at h
    split at h
    · exact (List.mem_cons.mp h).imp_right (List.mem_cons_of_mem _)
    · rcases List.mem_cons.mp h with rfl | h
      · exact Or.inr List.mem_cons_self
      · exact (ih h).imp_right (List.mem_cons_of_mem _)

theorem DistinctKeys.set {d : List (κ × α)} (h : DistinctKeys d) (k : κ) (v : α) : DistinctKeys (dictSet k v d) := by
  induction d with
  | nil => exact List.nodup_singleton k
  | cons e es ih =>
    obtain ⟨hne, hes⟩ := List.nodup_cons.mp h
    rw [dictSet]
    split
    · next he => exact List.nodup_cons.mpr ⟨he ▸ hne, hes⟩
    · next he =>
      refine List.nodup_cons.mpr ⟨?_, ih hes⟩
      rw [keys_dictSet]
      rintro (h | h)
      · exact he h
      · exact hne h

/-- An entry is what its key is looked up as. -/
theorem DistinctKeys.mem_iff {d : List (κ × α)} (h : DistinctKeys d) {k : κ} {v : α} :
    (k, v) ∈ d ↔ dictGet k d = some v := by
  induction d with
  | nil => simp [dictGet]
  | cons e es ih =>
    obtain ⟨hne, hes⟩ := List.nodup_cons.mp h
    obtain ⟨k', v'⟩ := e
    rw [dictGet, List.mem_cons, ih hes]
    split
    · next he =>
      change k' = k at he
      subst he
      constructor
      · rintro (h | h)
        · rw [(Prod.mk.inj h).2]
        · exact absurd (List.mem_map_of_mem ((ih hes).mpr h)) hne
      · intro h
        exact Or.inl (Prod.ext rfl (Option.some.inj h).symm)
    · next he =>
      constructor
      · rintro (h | h)
        · exact absurd (Prod.mk.inj h).1.symm he
        · exact h
      · exact Or.inr

end Veriforge

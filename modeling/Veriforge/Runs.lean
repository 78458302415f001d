import Mathlib.Data.List.Basic
import Mathlib.Data.List.Induction

/-! # Runs, one step at the end

A run is a fold of a step over the list of its inputs. What holds of every step of a run, given the inputs before it,
is told by the shorter run and its last step. -/

namespace Veriforge

variable {α σ : Type} {m : Type → Type}

/-- The last step of a run. -/
theorem foldlM_concat [Monad m] [LawfulMonad m] (step : σ → α → m σ) (s : σ) (xs : List α) (x : α) :
    (xs ++ [x]).foldlM step s = xs.foldlM step s >>= fun s => step s x := by
  rw [List.foldlM_append]
  simp only [List.foldlM_cons, List.foldlM_nil, bind_pure]

/-- What holds of every step, given the inputs before it. -/
def EachStep (P : List α → α → Prop) (xs : List α) : Prop := ∀ k x, xs[k]? = some x → P (xs.take k) x

variable {P : List α → α → Prop}

@[simp] theorem eachStep_nil : EachStep P [] := fun k x h => by simp at h

theorem eachStep_concat {xs : List α} {x : α} : EachStep P (xs ++ [x]) ↔ EachStep P xs ∧ P xs x := by
  constructor
  · intro h
    refine ⟨fun k y hy => ?_, ?_⟩
    · have hk := (List.getElem?_eq_some_iff.mp hy).1
      have hP := h k y (by rw [List.getElem?_append_left hk]; exact hy)
      rwa [List.take_append_of_le_length (Nat.le_of_lt hk)] at hP
    · have hP := h xs.length x List.getElem?_concat_length
      rwa [List.take_left] at hP
  · rintro ⟨h, hx⟩ k y hy
    have hk := (List.getElem?_eq_some_iff.mp hy).1
    rw [List.length_append, List.length_singleton] at hk
    rcases Nat.lt_succ_iff_lt_or_eq.mp hk with hk | rfl
    · rw [List.getElem?_append_left hk] at hy
      rw [List.take_append_of_le_length (Nat.le_of_lt hk)]
      exact h k y hy
    · rw [List.getElem?_concat_length, Option.some.injEq] at hy
      rw [List.take_left, ← hy]
      exact hx

end Veriforge

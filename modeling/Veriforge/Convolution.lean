import Mathlib.Algebra.BigOperators.Intervals
import Mathlib.Algebra.Order.BigOperators.Group.Finset
import Mathlib.Data.Nat.Log
import Mathlib.Tactic.Positivity
import Mathlib.Tactic.Ring

/-! # Convolutions by partial sums

A sum of products of coefficients with the samples before a time, kept as a chain of partial sums: the sum from one
coefficient on, a step later, is the product of that coefficient with the new sample and the sum from the next
coefficient on. -/

namespace Veriforge.Convolution

variable {α : Type} [CommSemiring α]

/-- The part of the convolution that the coefficients from `i` on contribute, as many as there are below `n`. -/
def tail (c : Nat → α) (x : Int → α) (n i : Nat) (t : Int) : α := ∑ k ∈ Finset.range (n - i), c (i + k) * x (t - k)

variable (c : Nat → α) {x : Int → α} {n i : Nat} {t : Int}

/-- One step of the chain. -/
theorem tail_step (x : Int → α) (t : Int) (h : i < n) :
    tail c x n i (t + 1) = x (t + 1) * c i + tail c x n (i + 1) t := by
  obtain ⟨m, hm⟩ : ∃ m, n - i = m + 1 := ⟨n - i - 1, by omega⟩
  have hrest : n - (i + 1) = m := by omega
  rw [tail, tail, hm, hrest, Finset.sum_range_succ', add_comm, Nat.add_zero, Nat.cast_zero, sub_zero,
    mul_comm (x (t + 1))]
  congr 1
  apply Finset.sum_congr rfl
  intro k _
  rw [show i + (k + 1) = i + 1 + k by omega, show t + 1 - ((k + 1 : Nat) : Int) = t - k by push_cast; ring]

/-- After the last coefficient. -/
theorem tail_of_le (h : n ≤ i) : tail c x n i t = 0 := by
  rw [tail, Nat.sub_eq_zero_of_le h, Finset.sum_range_zero]

/-- The samples up to the time are all that matters. -/
theorem tail_congr {y : Int → α} (h : ∀ s ≤ t, x s = y s) : tail c x n i t = tail c y n i t := by
  apply Finset.sum_congr rfl
  intro k _
  rw [h _ (by omega)]

/-- Before the first sample. -/
theorem tail_of_silent (h : ∀ s ≤ t, x s = 0) : tail c x n i t = 0 := by
  apply Finset.sum_eq_zero
  intro k _
  rw [h _ (by omega), mul_zero]

/-- The first sum of the chain is the convolution. -/
theorem tail_zero (x : Int → α) (t : Int) : tail c x n 0 t = ∑ k ∈ Finset.range n, c k * x (t - k) := by
  rw [tail, Nat.sub_zero]
  apply Finset.sum_congr rfl
  intro k _
  rw [Nat.zero_add]

/-- As many bits as the terms have, and those that count them, hold every partial sum. -/
theorem tail_lt {c : Nat → Nat} {x : Int → Nat} {p q : Nat} (hc : ∀ i < n, c i < 2 ^ p) (hx : ∀ s, x s < 2 ^ q)
    (i : Nat) (t : Int) : tail c x n i t < 2 ^ (q + p + Nat.clog 2 n) := by
  have hterm : ∀ k ∈ Finset.range (n - i), c (i + k) * x (t - k) ≤ 2 ^ (q + p) - 1 := by
    intro k hk
    rw [Finset.mem_range] at hk
    have hlt : c (i + k) * x (t - k) < 2 ^ p * 2 ^ q := Nat.mul_lt_mul'' (hc _ (by omega)) (hx _)
    rw [← pow_add, Nat.add_comm p q] at hlt
    omega
  have hsum : tail c x n i t ≤ (n - i) * (2 ^ (q + p) - 1) := by
    have h := Finset.sum_le_card_nsmul _ _ _ hterm
    rwa [Finset.card_range, nsmul_eq_mul, Nat.cast_id] at h
  have hcount : n - i ≤ 2 ^ Nat.clog 2 n := (Nat.sub_le _ _).trans (Nat.le_pow_clog Nat.one_lt_two n)
  have hpos : 0 < 2 ^ (q + p) := by positivity
  calc tail c x n i t ≤ (n - i) * (2 ^ (q + p) - 1) := hsum
    _ ≤ 2 ^ Nat.clog 2 n * (2 ^ (q + p) - 1) := Nat.mul_le_mul_right _ hcount
    _ < 2 ^ Nat.clog 2 n * 2 ^ (q + p) := Nat.mul_lt_mul_of_pos_left (by omega) (by positivity)
    _ = 2 ^ (q + p + Nat.clog 2 n) := by rw [← pow_add, Nat.add_comm]

end Veriforge.Convolution

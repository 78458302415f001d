import Mathlib.Data.Nat.Log
import Mathlib.Tactic.Linarith
import Mathlib.Tactic.Positivity
import Mathlib.Tactic.Ring

/-! # `int(a / b)`

Signed division truncates with Python's `int(a / b)`: the quotient of two integers is first rounded to
a double (53 significant bits, ties to even) and then truncated. It raises when the divisor is zero and
when the rounded quotient is past the largest double. -/

namespace Veriforge.TrueDiv

/-- The integer nearest `n / d`, a tie going to the even one. -/
def roundHalfEven (n d : Nat) : Nat :=
  let q := n / d
  let r := n % d
  if 2 * r < d ∨ (2 * r = d ∧ q % 2 = 0) then q else q + 1

/-- The double nearest `n / d`, truncated; `none` where it is `2 ^ 1024` or more. A quotient in
`[2 ^ l, 2 ^ (l + 1))` keeps its 53 leading bits; one below 1 can only round to 0 or up to 1. -/
def truncQuotient (n d : Nat) : Option Nat :=
  let q := n / d
  let t :=
    if q = 0 then roundHalfEven (n * 2 ^ 53) d / 2 ^ 53
    else
      let l := Nat.log2 q
      if l ≤ 52 then roundHalfEven (n * 2 ^ (52 - l)) d / 2 ^ (52 - l)
      else roundHalfEven n (d * 2 ^ (l - 52)) * 2 ^ (l - 52)
  if t < 2 ^ 1024 then some t else none

/-- `int(a / b)`. -/
def intTrueDiv (a b : Int) : Option Int :=
  if b = 0 then none
  else
    (truncQuotient a.natAbs b.natAbs).map fun t =>
      if (a < 0) = (b < 0) then (t : Int) else -(t : Int)

theorem roundHalfEven_le_succ (n d : Nat) : roundHalfEven n d ≤ n / d + 1 := by
  unfold roundHalfEven
  dsimp only
  split <;> omega

/-- A double is never past a power of two that the exact quotient does not exceed. -/
theorem roundHalfEven_le {n d m : Nat} (hd : 0 < d) (h : n ≤ m * d) : roundHalfEven n d ≤ m := by
  unfold roundHalfEven
  dsimp only
  have hq : n / d ≤ m := Nat.div_le_of_le_mul (by rwa [Nat.mul_comm] at h)
  split
  · exact hq
  next hr =>
  rcases Nat.lt_or_ge (n / d) m with hlt | hge
  · exact hlt
  · -- the quotient is exactly `m`, so nothing is left to round
    have hqm : n / d = m := le_antisymm hq hge
    have hmod : d * (n / d) + n % d = n := Nat.div_add_mod n d
    rw [hqm] at hmod
    have hr0 : n % d = 0 := by
      rw [Nat.mul_comm] at hmod
      omega
    exact absurd (Or.inl (by rw [hr0]; simpa using hd)) hr

theorem le_roundHalfEven {n d m : Nat} (hd : 0 < d) (h : m * d ≤ n) : m ≤ roundHalfEven n d := by
  have hle : m ≤ n / d := (Nat.le_div_iff_mul_le hd).mpr h
  unfold roundHalfEven
  dsimp only
  split <;> omega

/-- The rounded quotient is at most a power of two that the dividend does not exceed. -/
theorem truncated_le {n d m : Nat} (hd : 0 < d) (hn : n ≤ 2 ^ m) :
    (if n / d = 0 then roundHalfEven (n * 2 ^ 53) d / 2 ^ 53
      else if Nat.log2 (n / d) ≤ 52 then
        roundHalfEven (n * 2 ^ (52 - Nat.log2 (n / d))) d / 2 ^ (52 - Nat.log2 (n / d))
      else roundHalfEven n (d * 2 ^ (Nat.log2 (n / d) - 52)) * 2 ^ (Nat.log2 (n / d) - 52)) ≤ 2 ^ m := by
  have hq : n / d ≤ 2 ^ m := le_trans (Nat.div_le_self n d) hn
  split
  · next h0 =>
    have hnd : n < d := Nat.lt_of_div_eq_zero hd h0
    have hr : roundHalfEven (n * 2 ^ 53) d ≤ 2 ^ 53 :=
      roundHalfEven_le hd (by rw [Nat.mul_comm]; exact Nat.mul_le_mul_left _ hnd.le)
    have h1 : roundHalfEven (n * 2 ^ 53) d / 2 ^ 53 ≤ 1 := Nat.div_le_of_le_mul (by simpa using hr)
    exact le_trans h1 Nat.one_le_two_pow
  next h0 =>
  have hn' : n ≤ 2 ^ m * d := le_trans hn (Nat.le_mul_of_pos_right _ hd)
  split
  · next hl =>
    have hr : roundHalfEven (n * 2 ^ (52 - (n / d).log2)) d ≤ 2 ^ m * 2 ^ (52 - (n / d).log2) :=
      roundHalfEven_le hd (by
        calc n * 2 ^ (52 - (n / d).log2) ≤ 2 ^ m * d * 2 ^ (52 - (n / d).log2) :=
              Nat.mul_le_mul_right _ hn'
          _ = 2 ^ m * 2 ^ (52 - (n / d).log2) * d := by ring)
    exact Nat.div_le_of_le_mul (le_trans hr (Nat.mul_comm _ _).le)
  · next hl =>
    have hlog : (n / d).log2 ≤ m := by
      have h1 : 2 ^ (n / d).log2 ≤ n / d := Nat.log2_self_le h0
      exact (Nat.pow_le_pow_iff_right (by norm_num)).mp (le_trans h1 hq)
    have hsplit : 2 ^ m = 2 ^ (m - ((n / d).log2 - 52)) * 2 ^ ((n / d).log2 - 52) := by
      rw [← Nat.pow_add]
      congr 1
      omega
    have hr : roundHalfEven n (d * 2 ^ ((n / d).log2 - 52)) ≤ 2 ^ (m - ((n / d).log2 - 52)) :=
      roundHalfEven_le (by positivity) (by
        calc n ≤ 2 ^ m * d := hn'
          _ = 2 ^ (m - ((n / d).log2 - 52)) * (d * 2 ^ ((n / d).log2 - 52)) := by
              rw [hsplit]; ring)
    calc roundHalfEven n (d * 2 ^ ((n / d).log2 - 52)) * 2 ^ ((n / d).log2 - 52)
        ≤ 2 ^ (m - ((n / d).log2 - 52)) * 2 ^ ((n / d).log2 - 52) := Nat.mul_le_mul_right _ hr
      _ = 2 ^ m := hsplit.symm

theorem lt_two_pow_of_le {a m k : Nat} (h : a ≤ 2 ^ m) (hmk : m < k) : a < 2 ^ k :=
  lt_of_le_of_lt h (Nat.pow_lt_pow_right Nat.one_lt_two hmk)

/-- The rounded quotient times the divisor is off by at most the dividend or the divisor. -/
theorem truncQuotient_near {n d t : Nat} (hd : 0 < d) (h : truncQuotient n d = some t) :
    d * t ≤ d * (n / d) + max n d ∧ d * (n / d) ≤ d * t + max n d := by
  unfold truncQuotient at h
  dsimp only at h
  rw [Option.ite_none_right_eq_some, Option.some_inj] at h
  have hmul : d * (n / d) ≤ n := Nat.mul_div_le n d
  -- it is enough to be as near as the divisor, or as the last of 53 bits of a long quotient
  have hnear : ∀ {g : Nat}, d * g ≤ max n d → t ≤ n / d + g → n / d ≤ t + g →
      d * t ≤ d * (n / d) + max n d ∧ d * (n / d) ≤ d * t + max n d := by
    intro g hg hup hdown
    have hup' := Nat.mul_le_mul_left d hup
    have hdown' := Nat.mul_le_mul_left d hdown
    rw [Nat.mul_add] at hup' hdown'
    omega
  have hone : d * 1 ≤ max n d := by omega
  have hscaled : ∀ k, roundHalfEven (n * 2 ^ k) d / 2 ^ k ≤ n / d + 1 ∧
      n / d ≤ roundHalfEven (n * 2 ^ k) d / 2 ^ k := by
    intro k
    have hk : 0 < 2 ^ k := Nat.two_pow_pos k
    have hlt : n < (n / d + 1) * d := by
      rw [Nat.mul_comm]
      exact Nat.lt_mul_div_succ n hd
    constructor
    · refine Nat.div_le_of_le_mul (roundHalfEven_le hd ?_)
      calc n * 2 ^ k ≤ (n / d + 1) * d * 2 ^ k := Nat.mul_le_mul_right _ hlt.le
        _ = 2 ^ k * (n / d + 1) * d := by ring
    · refine (Nat.le_div_iff_mul_le hk).mpr (le_roundHalfEven hd ?_)
      calc n / d * 2 ^ k * d = d * (n / d) * 2 ^ k := by ring
        _ ≤ n * 2 ^ k := Nat.mul_le_mul_right _ hmul
  by_cases h0 : n / d = 0
  · rw [if_pos h0] at h
    obtain ⟨hup, hdown⟩ := hscaled 53
    exact hnear hone (by omega) (by omega)
  rw [if_neg h0] at h
  by_cases hl : Nat.log2 (n / d) ≤ 52
  · rw [if_pos hl] at h
    obtain ⟨hup, hdown⟩ := hscaled (52 - Nat.log2 (n / d))
    exact hnear hone (by omega) (by omega)
  · rw [if_neg hl] at h
    set g := 2 ^ (Nat.log2 (n / d) - 52) with hg
    have hgpos : 0 < g := Nat.two_pow_pos _
    have hgle : g ≤ n / d := le_trans (Nat.pow_le_pow_right (by norm_num) (by omega)) (Nat.log2_self_le h0)
    have hle := roundHalfEven_le_succ n (d * g)
    have hge : n / (d * g) ≤ roundHalfEven n (d * g) := le_roundHalfEven (by positivity) (Nat.div_mul_le_self _ _)
    rw [← Nat.div_div_eq_div_mul] at hle hge
    have hcut := Nat.div_add_mod (n / d) g
    have hrest := Nat.mod_lt (n / d) hgpos
    have hup := Nat.mul_le_mul_right g hle
    have hdown := Nat.mul_le_mul_right g hge
    rw [Nat.add_mul, Nat.one_mul] at hup
    rw [Nat.mul_comm g] at hcut
    refine hnear (le_trans (Nat.mul_le_mul_left d hgle) (by omega)) (by omega) (by omega)

/-- No overflow while the dividend is at most `2 ^ 1023`. -/
theorem exists_truncQuotient {n d : Nat} (hd : 0 < d) (hn : n ≤ 2 ^ 1023) : ∃ t, truncQuotient n d = some t := by
  unfold truncQuotient
  dsimp only
  exact ⟨_, if_pos (lt_two_pow_of_le (truncated_le hd hn) (by norm_num))⟩

/-- The same for signed operands. -/
theorem exists_intTrueDiv {a b : Int} (hb : b ≠ 0) (ha : a.natAbs ≤ 2 ^ 1023) : ∃ q, intTrueDiv a b = some q := by
  obtain ⟨t, ht⟩ := exists_truncQuotient (Int.natAbs_pos.mpr hb) ha
  rw [intTrueDiv, if_neg hb, ht]
  exact ⟨_, rfl⟩

/-! ## Exact quotients -/

/-- Rounding does not take the quotient to another integer: one with at most 53 bits is not so close to the
next integer that it is rounded up to it, and a longer one has zeros past its 53 leading bits and is no
larger than the doubles. -/
def Exact (n d : Nat) : Prop :=
  let q := n / d
  let r := n % d
  if q = 0 then d < (d - r) * 2 ^ 54
  else
    let l := Nat.log2 q
    if l ≤ 52 then d < (d - r) * 2 ^ (53 - l) ∨ (l = 52 ∧ (d - r) * 2 = d ∧ q % 2 = 0)
    else 2 ^ (l - 52) ∣ q ∧ q < 2 ^ 1024

instance (n d : Nat) : Decidable (Exact n d) := by
  unfold Exact
  infer_instance

/-- Rounding stays below `m + 1` up to half the way from `m`, where the tie goes to the even one. -/
theorem roundHalfEven_le_iff {n d m : Nat} (hd : 0 < d) :
    roundHalfEven n d ≤ m ↔ 2 * n < (2 * m + 1) * d ∨ (2 * n = (2 * m + 1) * d ∧ m % 2 = 0) := by
  have hmod : d * (n / d) + n % d = n := Nat.div_add_mod n d
  have hr : n % d < d := Nat.mod_lt n hd
  unfold roundHalfEven
  dsimp only
  generalize n / d = q at *
  generalize n % d = r at *
  subst hmod
  have hm : (2 * m + 1) * d = 2 * (d * m) + d := by ring
  have hn : 2 * (d * q + r) = 2 * (d * q) + 2 * r := by ring
  rw [hm, hn]
  rcases Nat.lt_trichotomy q m with hlt | rfl | hgt
  · -- below `m` either choice is at most `m`
    have hup : d * q + d ≤ d * m := Nat.mul_le_mul_left d hlt
    refine iff_of_true ?_ (Or.inl (by omega))
    split <;> omega
  · split <;> omega
  · have hge : d * m + d ≤ d * q := Nat.mul_le_mul_left d hgt
    refine iff_of_false ?_ (by omega)
    split <;> omega

/-- A quotient scaled by `2 ^ k` and rounded truncates to the exact one unless it is rounded up to the next
integer. -/
theorem scaled_div_eq_iff {n d k : Nat} (hd : 0 < d) : roundHalfEven (n * 2 ^ k) d / 2 ^ k = n / d ↔
      d < (d - n % d) * 2 ^ (k + 1) ∨ (k = 0 ∧ (d - n % d) * 2 = d ∧ n / d % 2 = 0) := by
  have hmod : d * (n / d) + n % d = n := Nat.div_add_mod n d
  have hr : n % d < d := Nat.mod_lt n hd
  have hk : 0 < 2 ^ k := Nat.two_pow_pos k
  generalize n / d = q at *
  generalize n % d = r at *
  -- the rounded quotient is between those of `q` and `q + 1`
  have hfloor : q * 2 ^ k ≤ roundHalfEven (n * 2 ^ k) d :=
    le_roundHalfEven hd (by rw [← hmod]; nlinarith)
  have hdiv : roundHalfEven (n * 2 ^ k) d / 2 ^ k = q ↔ roundHalfEven (n * 2 ^ k) d ≤ q * 2 ^ k + (2 ^ k - 1) := by
    rw [Nat.div_eq_iff hk]
    omega
  rw [hdiv, roundHalfEven_le_iff hd]
  obtain ⟨g, rfl⟩ : ∃ g, d = r + g := ⟨d - r, by omega⟩
  have hleft : 2 * (n * 2 ^ k) = 2 * q * 2 ^ k * (r + g) + 2 * r * 2 ^ k := by
    rw [← hmod]
    ring
  have hright : (2 * (q * 2 ^ k + (2 ^ k - 1)) + 1) * (r + g) + (r + g)
      = 2 * q * 2 ^ k * (r + g) + 2 * r * 2 ^ k + g * 2 ^ (k + 1) := by
    obtain ⟨j, hj⟩ : ∃ j, 2 ^ k = j + 1 := ⟨2 ^ k - 1, by omega⟩
    rw [Nat.pow_succ, hj, Nat.add_sub_cancel]
    ring
  -- a tie goes down only where nothing was scaled
  have hparity : (q * 2 ^ k + (2 ^ k - 1)) % 2 = 0 ↔ k = 0 ∧ q % 2 = 0 := by
    cases k with
    | zero => simp
    | succ k =>
      have heven : q * 2 ^ (k + 1) = 2 * (q * 2 ^ k) := by ring
      rw [heven, Nat.pow_succ]
      have hpos : 0 < 2 ^ k := Nat.two_pow_pos k
      omega
  rw [hleft, Nat.add_sub_cancel_left, hparity]
  generalize 2 * q * 2 ^ k * (r + g) + 2 * r * 2 ^ k = A at *
  generalize (2 * (q * 2 ^ k + (2 ^ k - 1)) + 1) * (r + g) = B at *
  constructor
  · rintro (hlt | ⟨heq, rfl, hq⟩)
    · exact Or.inl (by omega)
    · exact Or.inr ⟨rfl, by omega, hq⟩
  · rintro (hlt | ⟨rfl, heq, hq⟩)
    · exact Or.inl (by omega)
    · exact Or.inr ⟨by omega, rfl, hq⟩

/-- A quotient with more than 53 bits keeps the leading ones. -/
theorem kept_eq_iff {n d j : Nat} (hd : 0 < d) (hj : 0 < j) :
    roundHalfEven n (d * 2 ^ j) * 2 ^ j = n / d ↔ 2 ^ j ∣ n / d := by
  constructor
  · intro h
    rw [← h]
    exact Nat.dvd_mul_left _ _
  · rintro ⟨c, hc⟩
    have hmod : d * (n / d) + n % d = n := Nat.div_add_mod n d
    have hr : n % d < d := Nat.mod_lt n hd
    have hpow : 2 ≤ 2 ^ j := by
      calc 2 = 2 ^ 1 := rfl
        _ ≤ 2 ^ j := Nat.pow_le_pow_right (by norm_num) hj
    rw [hc] at hmod ⊢
    have hround : roundHalfEven n (d * 2 ^ j) = c := by
      -- what is left is less than `d`, at most half of the divisor
      have hle : roundHalfEven n (d * 2 ^ j) ≤ c := by
        rw [roundHalfEven_le_iff (by positivity)]
        refine Or.inl ?_
        have hexp : (2 * c + 1) * (d * 2 ^ j) = 2 * (d * (2 ^ j * c)) + d * 2 ^ j := by ring
        have htwo : d * 2 ≤ d * 2 ^ j := Nat.mul_le_mul_left d hpow
        rw [hexp]
        omega
      have hge : c ≤ roundHalfEven n (d * 2 ^ j) :=
        le_roundHalfEven (by positivity) (by
          calc c * (d * 2 ^ j) = d * (2 ^ j * c) := by ring
            _ ≤ n := by omega)
      exact le_antisymm hle hge
    rw [hround, Nat.mul_comm]

/-- `int(a / b)` is exact on exactly these dividends and divisors. -/
theorem truncQuotient_eq_iff {n d : Nat} (hd : 0 < d) : truncQuotient n d = some (n / d) ↔ Exact n d := by
  unfold truncQuotient Exact
  dsimp only
  rw [Option.ite_none_right_eq_some, Option.some_inj]
  have hrange : n / d < 2 ^ 53 → n / d < 2 ^ 1024 := fun h => lt_two_pow_of_le h.le (by norm_num)
  by_cases h0 : n / d = 0
  · rw [if_pos h0, if_pos h0, and_iff_right_of_imp fun h => by rw [h, h0]; positivity, scaled_div_eq_iff hd]
    simp
  rw [if_neg h0, if_neg h0]
  by_cases hl : Nat.log2 (n / d) ≤ 52
  · have hq : n / d < 2 ^ 53 := (Nat.log2_lt h0).mp (by omega)
    rw [if_pos hl, if_pos hl, and_iff_right_of_imp fun h => by rw [h]; exact hrange hq, scaled_div_eq_iff hd]
    have hk : 52 - Nat.log2 (n / d) + 1 = 53 - Nat.log2 (n / d) := by omega
    have hz : 52 - Nat.log2 (n / d) = 0 ↔ Nat.log2 (n / d) = 52 := by omega
    rw [hk, hz]
  · rw [if_neg hl, if_neg hl, and_comm]
    constructor
    · rintro ⟨heq, hlt⟩
      exact ⟨(kept_eq_iff hd (by omega)).mp heq, by rwa [heq] at hlt⟩
    · rintro ⟨hdvd, hlt⟩
      have heq := (kept_eq_iff hd (by omega)).mpr hdvd
      exact ⟨heq, by rwa [heq]⟩

/-- A dividend of at most 53 bits is divided exactly. -/
theorem exact_of_lt {n d : Nat} (hd : 0 < d) (hn : n < 2 ^ 53) : Exact n d := by
  unfold Exact
  dsimp only
  have hmod : n % d < d := Nat.mod_lt n hd
  by_cases h0 : n / d = 0
  · rw [if_pos h0]
    have hnd : n < d := (Nat.div_eq_zero_iff_lt hd).mp h0
    rw [Nat.mod_eq_of_lt hnd]
    omega
  · rw [if_neg h0]
    have hlog : 2 ^ Nat.log2 (n / d) ≤ n / d := Nat.log2_self_le h0
    have hl : Nat.log2 (n / d) ≤ 52 := by
      have := (Nat.log2_lt h0).mpr (lt_of_le_of_lt (Nat.div_le_self n d) hn)
      omega
    rw [if_pos hl]
    refine .inl (lt_of_lt_of_le ?_ (Nat.le_mul_of_pos_left _ (by omega)))
    -- d times the quotient stays below the 53 bits
    have hle : 2 ^ Nat.log2 (n / d) * d < 2 ^ Nat.log2 (n / d) * 2 ^ (53 - Nat.log2 (n / d)) := by
      rw [← Nat.pow_add, Nat.add_sub_cancel' (by omega)]
      exact lt_of_le_of_lt ((Nat.mul_le_mul_right d hlog).trans (Nat.div_mul_le_self n d)) hn
    exact Nat.lt_of_mul_lt_mul_left hle

end Veriforge.TrueDiv

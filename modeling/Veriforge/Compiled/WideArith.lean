import Mathlib.Data.Nat.Digits.Defs
import Mathlib.Tactic.LinearCombination
import Veriforge.Compiled.SelectRule
import Veriforge.Value.Encode

/-! # Arithmetic in many words

`wide_add`, `wide_sub` and `wide_neg` of the compiled engine (`_gen_wide_section.py`): sums, differences and negations
of vectors that take several words, from the lowest word on with a carry or a borrow, each word cut to what is left of
the result's width. -/

namespace Veriforge.Compiled

open Words Select Value

/-! ## The functions -/

/-- `_word_mask64(dst_width - i * 64)`, for each of the words. -/
def wideMasks : Nat → Int → List Word
  | 0, _ => []
  | n + 1, remaining => wordMask64 remaining :: wideMasks n (remaining - 64)

/-- The loop over the words, `digit` giving a word of the result and whether it carries. -/
def wideLoop (digit : Word → Word → Word → Word × Bool) : List Word → List Word → Word → Int → List Word
  | lv :: av, rv :: bv, carry, remaining =>
      let d := digit lv rv carry
      (d.1 &&& wordMask64 remaining) :: wideLoop digit av bv (if d.2 then 1 else 0) (remaining - 64)
  | _, _, _, _ => []

/-- `dv` and `dm`: an unknown bit of an operand makes all of the result unknown. -/
def wideOp (digit : Word → Word → Word → Word × Bool) (carry : Word) (hasX : Bool) (av bv : List Word) (n : Nat)
    (dstWidth : Int) : List Word × List Word :=
  if hasX then (List.replicate n 0, wideMasks n dstWidth)
  else (wideLoop digit av bv carry dstWidth, List.replicate n 0)

def addDigit (lv rv carry : Word) : Word × Bool :=
  let s1 := lv + rv
  let s2 := s1 + carry
  (s2, s1 < lv ∨ s2 < s1)

/-- `wide_add` -/
def wideAdd (av am bv bm : List Word) : Nat → Int → List Word × List Word :=
  wideOp addDigit 0 (am.any (· ≠ 0) || bm.any (· ≠ 0)) av bv

def subDigit (lv rv borrow : Word) : Word × Bool :=
  let tmp := rv + borrow
  (lv - tmp, tmp < rv ∨ lv < tmp)

/-- `wide_sub` -/
def wideSub (av am bv bm : List Word) : Nat → Int → List Word × List Word :=
  wideOp subDigit 0 (am.any (· ≠ 0) || bm.any (· ≠ 0)) av bv

def negDigit (lv _ carry : Word) : Word × Bool :=
  let nw := ~~~lv
  let s := nw + carry
  (s, s < nw)

/-- `wide_neg` -/
def wideNeg (av am : List Word) : Nat → Int → List Word × List Word := wideOp negDigit 1 (am.any (· ≠ 0)) av av

/-! ## Words as digits -/

/-- The number that the words hold. -/
def number (ws : List Word) : Nat := Nat.ofDigits (2 ^ 64) (ws.map BitVec.toNat)

theorem number_cons (w : Word) (ws : List Word) : number (w :: ws) = w.toNat + 2 ^ 64 * number ws := by
  simp [number, Nat.ofDigits_cons]

theorem number_replicate (n : Nat) : number (List.replicate n 0) = 0 := by
  rw [number, List.map_replicate]
  exact Nat.ofDigits_replicate_zero

theorem any_ne_zero (ws : List Word) : ws.any (· ≠ 0) = decide (number ws ≠ 0) := by
  induction ws with
  | nil => rfl
  | cons w ws ih =>
    have hw : w = 0 ↔ w.toNat = 0 := BitVec.toNat_inj.symm
    rw [List.any_cons, ih, number_cons, ← Bool.decide_or, decide_eq_decide, ne_eq, hw]
    omega

theorem toNat_and_wordMask64 (w : Word) (r : Int) : (w &&& wordMask64 r).toNat = w.toNat % 2 ^ r.toNat := by
  apply Nat.eq_of_testBit_eq
  intro k
  rw [Nat.testBit_mod_two_pow, BitVec.testBit_toNat, BitVec.testBit_toNat, BitVec.getLsbD_and]
  by_cases hk : k < 64
  · rw [getLsbD_wordMask64 r hk, Bool.and_comm]
    congr 1
    exact decide_eq_decide.mpr (by omega)
  · simp [BitVec.getLsbD_of_ge _ _ (not_lt.mp hk)]

/-- A number is cut to so many bits word by word. -/
theorem emod_word (w : Word) (t r : Int) :
    ((w &&& wordMask64 r).toNat : Int) + 2 ^ 64 * (t % 2 ^ (r - 64).toNat) = (w.toNat + 2 ^ 64 * t) % 2 ^ r.toNat := by
  have hcut : ((w &&& wordMask64 r).toNat : Int) = w.toNat % 2 ^ r.toNat := by exact_mod_cast toNat_and_wordMask64 w r
  rw [hcut]
  by_cases h : 64 ≤ r
  · have hlt := w.isLt
    have hsplit : (2 : Int) ^ r.toNat = 2 ^ 64 * 2 ^ (r - 64).toNat := by
      rw [← pow_add]
      congr 1
      omega
    have hpos : (0 : Int) < 2 ^ (r - 64).toNat := by positivity
    rw [hsplit]
    generalize (2 : Int) ^ (r - 64).toNat = p at hpos
    have hnonneg := Int.emod_nonneg t hpos.ne'
    have hbound := Int.emod_lt_of_pos t hpos
    -- the words above the first are divided by what is left of the range
    have hdiv : (w.toNat : Int) + 2 ^ 64 * t = w.toNat + 2 ^ 64 * (t % p) + 2 ^ 64 * p * (t / p) := by
      rw [mul_assoc, add_assoc, ← mul_add, Int.emod_add_mul_ediv]
    have hword : (w.toNat : Int) % (2 ^ 64 * p) = w.toNat := Int.emod_eq_of_lt (by omega) (by omega)
    rw [hword, hdiv, Int.add_mul_emod_self_left]
    exact (Int.emod_eq_of_lt (by omega) (by omega)).symm
  · have hdvd : (2 ^ r.toNat : Int) ∣ 2 ^ 64 * t := Dvd.dvd.mul_right (pow_dvd_pow 2 (by omega)) t
    rw [show (r - 64).toNat = 0 by omega, pow_zero, Int.emod_one, mul_zero, add_zero, Int.add_emod,
      Int.emod_eq_zero_of_dvd hdvd, add_zero, Int.emod_emod_of_dvd _ (dvd_refl _)]

/-! ## The loops -/

/-- A loop whose every word and carry make up the digit of a number. -/
theorem number_word {w : Word} {ws : List Word} {t z r : Int} (h : (number ws : Int) = t % 2 ^ (r - 64).toNat)
    (hz : z = w.toNat + 2 ^ 64 * t) : (number ((w &&& wordMask64 r) :: ws) : Int) = z % 2 ^ r.toNat := by
  rw [number_cons, hz, ← emod_word, ← h]
  push_cast
  rfl

theorem number_wideMasks {n : Nat} {r : Int} (h : r ≤ 64 * n) : (number (wideMasks n r) : Int) = -1 % 2 ^ r.toNat := by
  induction n generalizing r with
  | zero => rw [show r.toNat = 0 by omega]; rfl
  | succ n ih =>
    have hword := number_word (w := BitVec.allOnes 64) (z := -1) (ih (r := r - 64) (by omega)) (by decide)
    rwa [BitVec.allOnes_and] at hword

/-- A word and its carry make up a linear form of the operands' words and the carry that comes in. -/
def Linear (digit : Word → Word → Word → Word × Bool) (α β γ κ : Int) : Prop :=
  ∀ lv rv carry, carry.toNat ≤ 1 → α * lv.toNat + β * rv.toNat + γ * carry.toNat + κ =
      (digit lv rv carry).1.toNat + 2 ^ 64 * (γ * (if (digit lv rv carry).2 then 1 else 0 : Word).toNat + κ)

/-- Then the whole result is the form of the operands. -/
theorem number_wideLoop {digit : Word → Word → Word → Word × Bool} {α β γ κ : Int} (h : Linear digit α β γ κ)
    {av bv : List Word} {carry : Word} {r : Int} (hlen : av.length = bv.length) (hr : r ≤ 64 * av.length)
    (hcarry : carry.toNat ≤ 1) :
    (number (wideLoop digit av bv carry r) : Int) =
      (α * number av + β * number bv + γ * carry.toNat + κ) % 2 ^ r.toNat := by
  induction av generalizing bv carry r with
  | nil =>
    rw [List.length_nil] at hr
    rw [show r.toNat = 0 by omega, pow_zero, Int.emod_one]
    rfl
  | cons lv av ih =>
    cases bv with
    | nil => cases hlen
    | cons rv bv =>
      rw [List.length_cons] at hr
      refine number_word (ih (Nat.succ.inj hlen) (by omega) ?_) ?_
      · split <;> decide
      · have hdigit := h lv rv carry hcarry
        rw [number_cons, number_cons]
        push_cast at hdigit ⊢
        linear_combination hdigit

theorem linear_addDigit : Linear addDigit 1 1 1 0 := fun lv rv carry hcarry => by
  simp only [addDigit, BitVec.lt_def, BitVec.toNat_add, decide_eq_true_eq]
  split
  · simp; omega
  · simp; omega

theorem linear_subDigit : Linear subDigit 1 (-1) (-1) 0 := fun lv rv borrow hborrow => by
  simp only [subDigit, BitVec.lt_def, BitVec.toNat_sub, BitVec.toNat_add, decide_eq_true_eq]
  split
  · simp; omega
  · simp; omega

theorem linear_negDigit : Linear negDigit (-1) 0 1 (-1) := fun lv rv carry hcarry => by
  simp only [negDigit, BitVec.lt_def, BitVec.toNat_add, BitVec.toNat_not, decide_eq_true_eq]
  split
  · simp; omega
  · simp; omega

/-! ## Vectors -/

/-- A vector of `w` bits in `n` words, whose mask has no bit outside of it. -/
structure Wide (n w : Nat) where
  val : List Word
  mask : List Word
  length_val : val.length = n
  length_mask : mask.length = n
  fits : w ≤ 64 * n
  mask_lt : number mask < 2 ^ w

/-- The vector that words and mask words hold. -/
def denote (w : Nat) (d : List Word × List Word) : Value := init (number d.1) w (number d.2)

section

variable {n w : Nat} (a b : Wide n w)

/-- The vector. -/
def Wide.value : Value := denote w (a.val, a.mask)

theorem Wide.value_mask : a.value.mask = number a.mask := Nat.mod_eq_of_lt a.mask_lt

theorem Wide.value_of_known (h : ¬number a.mask ≠ 0) : a.value = ofInt (number a.val) w := by
  rw [Wide.value, denote, not_not.mp h]

theorem denote_wideOp {digit : Word → Word → Word → Word × Bool} {α β γ κ : Int} (h : Linear digit α β γ κ)
    {carry : Word} (hcarry : carry.toNat ≤ 1) (hasX : Bool) :
    denote w (wideOp digit carry hasX a.val b.val n w) =
      if hasX then x w else ofInt (α * number a.val + β * number b.val + γ * carry.toNat + κ) w := by
  have hfits := a.fits
  cases hasX with
  | true =>
    have hmask : (number (wideMasks n w) : Int) = -1 % 2 ^ w := number_wideMasks (by omega)
    have hones : (-1 : Int) % 2 ^ w = (2 ^ w - 1 : Nat) := by
      have hpos := Nat.two_pow_pos w
      rw [← Int.add_emod_right, Int.emod_eq_of_lt]
      all_goals push_cast [Nat.cast_sub hpos]; omega
    rw [hones, Nat.cast_inj] at hmask
    show init (number (List.replicate n 0)) w (number (wideMasks n w)) = x w
    rw [number_replicate, hmask]
    rfl
  | false =>
    have hloop := number_wideLoop h (r := w) (a.length_val.trans b.length_val.symm) (by rw [a.length_val]; omega) hcarry
    show init (number (wideLoop digit a.val b.val carry w)) w (number (List.replicate n 0)) = ofInt _ w
    rw [number_replicate, hloop]
    exact ofInt_congr (Int.emod_emod_of_dvd _ (dvd_refl _))

end

end Veriforge.Compiled

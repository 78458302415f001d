import Mathlib.Data.List.GetD
import Mathlib.Data.Nat.Bitwise
import Mathlib.Tactic.Ring

/-! # Numbers in 64-bit words

A vector of bits kept in words, the lowest first. Positions are integers, so that one in front of the vector can be
asked for. -/

namespace Veriforge.Words

/-- `unsigned long long` -/
abbrev Word := BitVec 64

/-- Bit `p` of the bits that the words hold. -/
def bitOf (word : Int → Word) (p : Int) : Bool := (word (p / 64)).getLsbD (p % 64).toNat

/-- A bit by its word and its place there. -/
theorem bitOf_add (word : Int → Word) (i : Int) {k : Nat} (hk : k < 64) :
    bitOf word (64 * i + k) = (word i).getLsbD k := by
  have hdiv : (64 * i + k) / 64 = i := by omega
  have hmod : ((64 * i + k) % 64).toNat = k := by omega
  rw [bitOf, hdiv, hmod]

/-- The 64 bits from `lsb` on, from two neighbouring words. -/
def window (word : Int → Word) (lsb : Int) : Word :=
  if lsb % 64 = 0 then word (lsb / 64)
  else word (lsb / 64) >>> (lsb % 64).toNat ||| word (lsb / 64 + 1) <<< (64 - (lsb % 64).toNat)

theorem getLsbD_window (word : Int → Word) (lsb : Int) {k : Nat} (hk : k < 64) :
    (window word lsb).getLsbD k = bitOf word (lsb + k) := by
  unfold window
  split
  · next haligned =>
    rw [← bitOf_add word (lsb / 64) hk]
    congr 1
    omega
  · next hshift =>
    rw [BitVec.getLsbD_or, BitVec.getLsbD_ushiftRight, BitVec.getLsbD_shiftLeft]
    by_cases hlow : (lsb % 64).toNat + k < 64
    · -- the bit comes from the lower word
      have hp : lsb + k = 64 * (lsb / 64) + ((lsb % 64).toNat + k : Nat) := by omega
      have hk' : k < 64 - (lsb % 64).toNat := by omega
      rw [hp, bitOf_add word _ hlow]
      simp [hk']
    · have hp : lsb + k = 64 * (lsb / 64 + 1) + (k - (64 - (lsb % 64).toNat) : Nat) := by omega
      have hk' : ¬k < 64 - (lsb % 64).toNat := by omega
      rw [hp, bitOf_add word _ (by omega), BitVec.getLsbD_of_ge _ _ (by omega)]
      simp [hk, hk']

/-! ## Arrays of words -/

/-- Word `i` of an array, zero outside of it. -/
def wordAt (ws : List Word) (i : Int) : Word := if 0 ≤ i then ws.getD i.toNat 0 else 0

/-- Bit `p` of an array. -/
def bitAt (ws : List Word) (p : Int) : Bool := bitOf (wordAt ws) p

theorem wordAt_ofNat (ws : List Word) (i : Nat) : wordAt ws i = ws.getD i 0 := by simp [wordAt]

theorem wordAt_of_neg (ws : List Word) {i : Int} (h : i < 0) : wordAt ws i = 0 := if_neg (by omega)

theorem wordAt_of_length_le {ws : List Word} {i : Int} (h : ws.length ≤ i) : wordAt ws i = 0 := by
  unfold wordAt
  split
  · exact List.getD_eq_default _ _ (by omega)
  · rfl

theorem bitAt_of_neg (ws : List Word) {p : Int} (h : p < 0) : bitAt ws p = false := by
  rw [bitAt, bitOf, wordAt_of_neg ws (by omega)]
  exact BitVec.getLsbD_zero

theorem bitAt_of_length_le {ws : List Word} {p : Int} (h : 64 * ws.length ≤ p) : bitAt ws p = false := by
  rw [bitAt, bitOf, wordAt_of_length_le (by omega)]
  exact BitVec.getLsbD_zero

/-- Bits of an array that is made word by word. -/
theorem bitAt_map_range (f : Nat → Word) (n k : Nat) :
    bitAt ((List.range n).map f) k = (decide (k < 64 * n) && (f (k / 64)).getLsbD (k % 64)) := by
  have hdiv : (k : Int) / 64 = (k / 64 : Nat) := by omega
  have hmod : ((k : Int) % 64).toNat = k % 64 := by omega
  rw [bitAt, bitOf, hdiv, hmod, wordAt_ofNat]
  by_cases hk : k < 64 * n
  · have hlt : k / 64 < n := by omega
    rw [List.getD_eq_getElem _ _ (by simpa using hlt)]
    simp [hk]
  · rw [List.getD_eq_default _ _ (by simp; omega)]
    simp [hk]

end Veriforge.Words

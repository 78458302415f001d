import Mathlib.Tactic.IntervalCases
import Veriforge.Value.Bits
import Veriforge.Vcd.Reads

/-! # The changes of a signal

The text of a value stands for it. The list of changes that the reader keeps for a signal, with the values
that have not changed left out, gives at every time the value last recorded. -/

namespace Veriforge.Vcd

/-! ## Texts of values -/

/-- The number whose bits are ones where a text has the character. -/
def bitsOf (c : Char) (text : Line) : Nat := text.foldl (fun n d => 2 * n + if d = c then 1 else 0) 0

/-- The value that a text of bits stands for. -/
def readBits (text : Line) : Value := Value.init (bitsOf '1' text) text.length (bitsOf 'x' text)

theorem foldl_testBit (n : Nat) (width acc : Nat) :
    (List.range width).reverse.foldl (fun acc i => 2 * acc + if n.testBit i = true then 1 else 0) acc
      = acc * 2 ^ width + n % 2 ^ width := by
  induction width generalizing acc with
  | zero => simp [Nat.mod_one]
  | succ w ih =>
    rw [List.range_succ, List.reverse_append, List.reverse_singleton, List.singleton_append,
      List.foldl_cons, ih, Nat.mod_pow_succ, Nat.testBit_eq_decide_div_mod_eq]
    rcases Nat.mod_two_eq_zero_or_one (n / 2 ^ w) with h | h
    · rw [h]
      simp only [zero_ne_one, decide_false, Bool.false_eq_true, if_false]
      ring
    · rw [h]
      simp only [decide_true, if_true]
      ring

/-- The number that bits written from the highest one on stand for. -/
theorem bitsOf_map {c : Char} {f : Nat → Char} {n width : Nat} (hn : n < 2 ^ width)
    (hf : ∀ i, f i = c ↔ n.testBit i = true) :
    bitsOf c ((List.range width).reverse.map f) = n := by
  rw [bitsOf, List.foldl_map]
  have hstep : (fun acc i => 2 * acc + if f i = c then 1 else 0)
      = fun acc i => 2 * acc + if n.testBit i = true then 1 else 0 := by
    funext acc i
    simp only [hf i]
  rw [hstep, foldl_testBit, Nat.zero_mul, Nat.zero_add, Nat.mod_eq_of_lt hn]

/-- A binary numeral has only zeros and ones. -/
theorem mem_toDigits_two {n : Nat} {c : Char} (h : c ∈ Nat.toDigits 2 n) : c = '0' ∨ c = '1' := by
  induction n using Nat.strongRecOn with
  | ind n ih =>
    by_cases hn : n < 2
    · rw [Nat.toDigits_of_lt_base hn, List.mem_singleton] at h
      interval_cases n
      · exact Or.inl h
      · exact Or.inr h
    · rw [Nat.toDigits_of_base_le (by decide) (by omega), List.mem_append, List.mem_singleton] at h
      rcases h with h | h
      · exact ih (n / 2) (by omega) h
      · have hm : n % 2 < 2 := Nat.mod_lt n (by decide)
        generalize n % 2 = m at h hm
        interval_cases m
        · exact Or.inl h
        · exact Or.inr h

theorem bitsOf_eq_ofDigitChars {text : Line} (h : ∀ c ∈ text, c = '0' ∨ c = '1') :
    bitsOf '1' text = Nat.ofDigitChars 2 text 0 := by
  rw [bitsOf, Nat.ofDigitChars_eq_foldl]
  refine List.foldl_ext _ _ _ fun acc c hc => ?_
  rcases h c hc with rfl | rfl <;> rfl

theorem bitsOf_x_eq_zero {text : Line} (h : ∀ c ∈ text, c = '0' ∨ c = '1') : bitsOf 'x' text = 0 := by
  rw [bitsOf]
  induction text with
  | nil => rfl
  | cons c text ih =>
    rw [List.foldl_cons]
    have hc : c ≠ 'x' := by rcases h c List.mem_cons_self with rfl | rfl <;> decide
    rw [if_neg hc]
    exact ih fun d hd => h d (List.mem_cons_of_mem _ hd)

/-- What the text of a value of several bits is. -/
theorem rawToVcd_spec (v : Value) (hw : 1 ≤ v.width) :
    IsVcdBits (rawToVcd v v.width) ∧ (rawToVcd v v.width).length = v.width ∧
      bitsOf '1' (rawToVcd v v.width) = v.val ∧ bitsOf 'x' (rawToVcd v v.width) = v.mask := by
  rw [rawToVcd]
  by_cases hm : v.mask = 0
  · rw [if_pos hm]
    have hbits : ∀ c ∈ (Nat.toDigits 2 v.val).leftpad v.width '0', c = '0' ∨ c = '1' := by
      intro c hc
      rw [List.leftpad, List.mem_append] at hc
      rcases hc with hc | hc
      · exact Or.inl (List.eq_of_mem_replicate hc)
      · exact mem_toDigits_two hc
    refine ⟨fun c hc => (hbits c hc).imp_right Or.inl, ?_, ?_, ?_⟩
    · have hle := (Nat.length_toDigits_le_iff (n := v.val) (by decide : 1 < 2) hw).mpr v.val_lt
      rw [List.length_leftpad]
      omega
    · rw [bitsOf_eq_ofDigitChars hbits, List.leftpad, Nat.ofDigitChars_append,
        Nat.ofDigitChars_replicate_zero, Nat.mul_zero, Nat.ofDigitChars_toDigits (by decide) (by decide)]
    · rw [bitsOf_x_eq_zero hbits, hm]
  · rw [if_neg hm]
    refine ⟨?_, ?_, bitsOf_map v.val_lt ?_, bitsOf_map v.mask_lt ?_⟩
    · intro c hc
      obtain ⟨i, -, rfl⟩ := List.mem_map.mp hc
      split
      · exact Or.inr (Or.inr rfl)
      · split
        · exact Or.inr (Or.inl rfl)
        · exact Or.inl rfl
    · rw [List.length_map, List.length_reverse, List.length_range]
    · intro i
      by_cases hmi : v.mask.testBit i = true
      · rw [if_pos hmi, Value.val_testBit_of_mask hmi]
        decide
      · rw [if_neg hmi]
        cases v.val.testBit i <;> decide
    · intro i
      by_cases hmi : v.mask.testBit i = true
      · rw [if_pos hmi]
        exact iff_of_true rfl hmi
      · rw [if_neg hmi]
        cases v.val.testBit i <;> simpa using hmi

theorem valueToVcd_spec (v : Value) (hw : 1 ≤ v.width) :
    IsVcdBits (valueToVcd v v.width) ∧ (valueToVcd v v.width).length = v.width ∧
      bitsOf '1' (valueToVcd v v.width) = v.val ∧ bitsOf 'x' (valueToVcd v v.width) = v.mask := by
  rw [valueToVcd]
  by_cases hone : v.width = 1
  · rw [if_pos hone]
    have hval := v.val_lt
    have hmask := v.mask_lt
    have hdis := v.disjoint
    rw [hone] at hval hmask ⊢
    -- one bit: the three values it can have
    generalize v.val = n at hval hdis ⊢
    generalize v.mask = m at hmask hdis ⊢
    interval_cases n <;> interval_cases m
    · exact ⟨fun c hc => by rw [List.mem_singleton.mp hc]; decide, rfl, rfl, rfl⟩
    · exact ⟨fun c hc => by rw [List.mem_singleton.mp hc]; decide, rfl, rfl, rfl⟩
    · exact ⟨fun c hc => by rw [List.mem_singleton.mp hc]; decide, rfl, rfl, rfl⟩
    · exact absurd hdis (by decide)
  · rw [if_neg hone]
    exact rawToVcd_spec v hw

/-- A value is read back from its text. -/
theorem readBits_valueToVcd (v : Value) (hw : 1 ≤ v.width) : readBits (valueToVcd v v.width) = v := by
  obtain ⟨-, hlen, hval, hmask⟩ := valueToVcd_spec v hw
  rw [readBits, hlen, hval, hmask]
  exact v.resize_self

/-! ## The list of changes -/

/-- The last value recorded at or before a time. -/
def lastAt (time : Nat) (recs : List (Int × Value)) : Option Value :=
  ((recs.filter fun r => r.1 ≤ (time : Int)).getLast?).map (·.2)

theorem lastAt_concat (time : Nat) (recs : List (Int × Value)) (now : Int) (v : Value) :
    lastAt time (recs ++ [(now, v)]) = if now ≤ (time : Int) then some v else lastAt time recs := by
  rw [lastAt, List.filter_append]
  by_cases h : now ≤ (time : Int)
  · rw [if_pos h, List.filter_cons_of_pos (by simpa using h), List.filter_nil, List.getLast?_concat]
    rfl
  · rw [if_neg h, List.filter_cons_of_neg (by simpa using h), List.filter_nil, List.append_nil, lastAt]

/-- A change that is no earlier than those before it. -/
theorem lastUpTo_concat (time : Nat) {changes : List (Nat × Line)} {now : Nat} (text : Line)
    (h : ∀ c ∈ changes, c.1 ≤ now) :
    lastUpTo time (changes ++ [(now, text)]) = if now ≤ time then some text else lastUpTo time changes := by
  induction changes with
  | nil => rfl
  | cons c changes ih =>
    have hc := h c List.mem_cons_self
    rw [List.cons_append, lastUpTo, lastUpTo, ih fun c' hc' => h c' (List.mem_cons_of_mem _ hc')]
    by_cases hnow : now ≤ time
    · rw [if_pos hnow, if_pos hnow, if_pos (hc.trans hnow)]
      rfl
    · rw [if_neg hnow, if_neg hnow]

/-- At a time no change is later than, the last change counts. -/
theorem lastUpTo_of_le (time : Nat) {changes : List (Nat × Line)} (h : ∀ c ∈ changes, c.1 ≤ time) :
    lastUpTo time changes = changes.getLast?.map (·.2) := by
  induction changes with
  | nil => rfl
  | cons c changes ih =>
    rw [lastUpTo, if_pos (h c List.mem_cons_self), ih fun c' hc => h c' (List.mem_cons_of_mem _ hc)]
    cases changes with
    | nil => rfl
    | cons c' changes =>
      rw [List.getLast?_cons_cons, List.getLast?_cons]
      rfl

/-- The changes of one signal against what was recorded of it up to a time. -/
structure SignalAgrees (last : Option Line) (changes : List (Nat × Line)) (recs : List (Int × Value))
    (width : Nat) (now : Int) : Prop where
  last_eq : last = changes.getLast?.map (·.2)
  recs_le : ∀ r ∈ recs, r.1 ≤ now
  changes_le : ∀ c ∈ changes, c.1 ≤ now.toNat
  value : ∀ time : Nat, lastUpTo time changes = (lastAt time recs).map (valueToVcd · width)

namespace SignalAgrees

variable {last : Option Line} {changes : List (Nat × Line)} {recs : List (Int × Value)} {width : Nat}
  {now : Int}

theorem empty (width : Nat) (now : Int) : SignalAgrees none [] [] width now where
  last_eq := rfl
  recs_le := fun _ h => absurd h List.not_mem_nil
  changes_le := fun _ h => absurd h List.not_mem_nil
  value := fun _ => rfl

theorem later (h : SignalAgrees last changes recs width now) {now' : Int} (hle : now ≤ now') :
    SignalAgrees last changes recs width now' where
  last_eq := h.last_eq
  recs_le := fun r hr => (h.recs_le r hr).trans hle
  changes_le := fun c hc => (h.changes_le c hc).trans (Int.toNat_le_toNat hle)
  value := h.value

/-- A value that is written. -/
theorem write (h : SignalAgrees last changes recs width now) (v : Value) :
    SignalAgrees (some (valueToVcd v width)) (changes ++ [(now.toNat, valueToVcd v width)])
      (recs ++ [(now, v)]) width now where
  last_eq := by rw [List.getLast?_concat, Option.map_some]
  recs_le := by
    intro r hr
    rcases List.mem_append.mp hr with hr | hr
    · exact h.recs_le r hr
    · rw [List.mem_singleton.mp hr]
  changes_le := by
    intro c hc
    rcases List.mem_append.mp hc with hc | hc
    · exact h.changes_le c hc
    · rw [List.mem_singleton.mp hc]
  value := by
    intro time
    rw [lastUpTo_concat time _ h.changes_le, lastAt_concat, h.value]
    by_cases hle : now ≤ (time : Int)
    · rw [if_pos hle, if_pos (Int.toNat_le.mpr hle), Option.map_some]
    · rw [if_neg hle, if_neg fun h => hle (Int.toNat_le.mp h)]

/-- A value that is left out, as it is the last one written. -/
theorem skip (h : SignalAgrees last changes recs width now) {v : Value}
    (hsame : last = some (valueToVcd v width)) :
    SignalAgrees last changes (recs ++ [(now, v)]) width now where
  last_eq := h.last_eq
  recs_le := by
    intro r hr
    rcases List.mem_append.mp hr with hr | hr
    · exact h.recs_le r hr
    · rw [List.mem_singleton.mp hr]
  changes_le := h.changes_le
  value := by
    intro time
    rw [lastAt_concat]
    by_cases hle : now ≤ (time : Int)
    · -- every change lies before this time, and the last of them is the value
      have hchanges : ∀ c ∈ changes, c.1 ≤ time := fun c hc =>
        (h.changes_le c hc).trans (Int.toNat_le.mpr hle)
      rw [if_pos hle, lastUpTo_of_le time hchanges, ← h.last_eq, hsame, Option.map_some]
    · rw [if_neg hle, h.value]

end SignalAgrees

end Veriforge.Vcd

import Mathlib
import Veriforge.Digits
import Veriforge.Text

/-! # What the values of a dump denote

`_values_match` and `_normalize_vcd_value` of `sim/vcd_compare.py` compare texts. Beside them stands the reading
of a text at the width of its signal: the digits of every position, with those left out on the left. -/

namespace Veriforge.Vcd

/-! ## The comparison of texts -/

/-- `lower` and `strip` -/
def tidy (v : Line) : Line := strip (v.map Char.toLower)

/-- `c in "01xz"` -/
def isFourState (c : Char) : Bool := c ∈ ['0', '1', 'x', 'z']

/-- `_normalize_vcd_value` -/
def normalizeVcdValue (v : Line) : Line :=
  if tidy v ≠ [] ∧ (tidy v).all (· == 'x') = true then ['x']
  else if tidy v ≠ [] ∧ (tidy v).all (· == 'z') = true then ['z']
  else if 1 < (tidy v).length ∧ (tidy v).all isFourState = true then
    if (tidy v).dropWhile (· == '0') = [] then ['0'] else (tidy v).dropWhile (· == '0')
  else tidy v

/-- `_values_match` -/
def valuesMatch (a b : Line) : Bool :=
  tidy a == tidy b || normalizeVcdValue (tidy a) == normalizeVcdValue (tidy b)

theorem toLower_toLower (c : Char) : c.toLower.toLower = c.toLower := by
  by_cases h : c.val ≥ 'A'.val ∧ c.val ≤ 'Z'.val
  · have hl : ¬(c.toLower.val ≥ 'A'.val ∧ c.toLower.val ≤ 'Z'.val) := by
      have hv : c.toLower.val = c.val + ('a'.val - 'A'.val) := by rw [Char.toLower, dif_pos h]
      rw [hv]
      simp only [ge_iff_le, UInt32.le_iff_toNat_le, UInt32.toNat_add, seval] at h ⊢
      omega
    conv_lhs => rw [Char.toLower, dif_neg hl]
  · have hc : c.toLower = c := by rw [Char.toLower, dif_neg h]
    rw [hc, hc]

theorem strip_strip (s : Line) : strip (strip s) = strip s := by
  have hpre : strip s <+: s.dropWhile isSpace := List.rdropWhile_prefix _ _
  have hhead : ∀ c ∈ (strip s).head?, isSpace c = false := by
    obtain ⟨t, ht⟩ := hpre
    intro c hc
    cases hs : strip s with
    | nil => rw [hs] at hc; cases hc
    | cons d rest =>
      rw [hs] at hc ht
      obtain rfl : d = c := by simpa using hc
      have hd := List.head?_dropWhile_not isSpace s
      rw [← ht] at hd
      simpa using hd
  rw [strip, dropWhile_of_head hhead, strip, rstrip, rstrip, List.rdropWhile_idempotent]

theorem tidy_tidy (v : Line) : tidy (tidy v) = tidy v := by
  have hmem : ∀ c ∈ tidy v, c.toLower = c := by
    intro c hc
    have hm : c ∈ v.map Char.toLower :=
      (List.dropWhile_sublist _).subset ((List.rdropWhile_prefix _ _).subset hc)
    obtain ⟨d, -, rfl⟩ := List.mem_map.mp hm
    exact toLower_toLower d
  have hmap : (tidy v).map Char.toLower = tidy v := by
    conv_rhs => rw [← List.map_id (tidy v)]
    exact List.map_congr_left hmem
  rw [tidy, hmap]
  exact strip_strip _

/-! ## The reading at a width -/

/-- A string of four-state digits. -/
def IsFourState (s : Line) : Prop := s ≠ [] ∧ s.all isFourState = true

instance (s : Line) : Decidable (IsFourState s) := inferInstanceAs (Decidable (_ ∧ _))

/-- The digit that a string is extended with on the left: `0` before `0` and `1`, else its leading digit. -/
def fillDigit : Line → Char
  | [] => '0'
  | c :: _ => if c = '1' then '0' else c

/-- Two values denote the same at a width: strings of digits have the same digits at all its positions, and
other texts are the same. -/
def SameValue (w : Nat) (a b : Line) : Prop :=
  if IsFourState (tidy a) ∧ IsFourState (tidy b) then
    ∀ i < w, digitAt (fillDigit (tidy a)) (tidy a) i = digitAt (fillDigit (tidy b)) (tidy b) i
  else tidy a = tidy b

instance (w : Nat) (a b : Line) : Decidable (SameValue w a b) :=
  inferInstanceAs (Decidable (if IsFourState (tidy a) ∧ IsFourState (tidy b) then
    ∀ i < w, digitAt (fillDigit (tidy a)) (tidy a) i = digitAt (fillDigit (tidy b)) (tidy b) i
  else tidy a = tidy b))

/-- The last digits of a string, those of its positions below the width. -/
def lastDigits (w : Nat) (s : Line) : Line := s.drop (s.length - w)

/-- A string without the leading digits that it would be extended with again. -/
def shortest (s : Line) : Line := s.dropWhile (· == fillDigit s)

/-! ## Normal forms -/

theorem fillDigit_eq {s : Line} (hs : s.all isFourState = true) :
    fillDigit s = '0' ∨ (∃ rest, s = 'x' :: rest) ∨ ∃ rest, s = 'z' :: rest := by
  cases s with
  | nil => exact Or.inl rfl
  | cons c rest =>
    have hc : isFourState c = true := (Bool.and_eq_true _ _ ▸ hs : _ ∧ _).1
    simp only [isFourState, List.mem_cons, List.not_mem_nil, or_false, decide_eq_true_eq] at hc
    rcases hc with rfl | rfl | rfl | rfl
    · exact Or.inl rfl
    · exact Or.inl rfl
    · exact Or.inr (Or.inl ⟨rest, rfl⟩)
    · exact Or.inr (Or.inr ⟨rest, rfl⟩)

/-- Digits that zeros extend lose the zeros in front. -/
theorem normalizeVcdValue_zero {v : Line} (hs : IsFourState (tidy v)) (h : fillDigit (tidy v) = '0') :
    normalizeVcdValue v = if (tidy v).dropWhile (· == '0') = [] then ['0'] else (tidy v).dropWhile (· == '0') := by
  obtain ⟨hne, hall⟩ := hs
  have hx : ∀ {c}, c = 'x' ∨ c = 'z' → (tidy v).all (· == c) ≠ true := by
    intro c hc hac
    cases ht : tidy v with
    | nil => exact hne ht
    | cons d rest =>
      rw [ht, List.all_cons, Bool.and_eq_true] at hac
      rw [ht, eq_of_beq hac.1] at h
      rcases hc with rfl | rfl <;> cases h
  rw [normalizeVcdValue, if_neg fun hc => hx (Or.inl rfl) hc.2, if_neg fun hc => hx (Or.inr rfl) hc.2]
  by_cases hlen : 1 < (tidy v).length
  · rw [if_pos ⟨hlen, hall⟩]
  · -- a single digit is 0 or 1 and stays
    rw [if_neg fun hc => hlen hc.1]
    obtain ⟨c, hc⟩ : ∃ c, tidy v = [c] :=
      List.length_eq_one_iff.mp
        (Nat.le_antisymm (Nat.le_of_not_lt hlen) (List.length_pos_iff.mpr hne))
    rw [hc] at h hall ⊢
    simp only [List.all_cons, List.all_nil, Bool.and_true, isFourState, List.mem_cons, List.not_mem_nil,
      or_false, decide_eq_true_eq] at hall
    rcases hall with rfl | rfl | rfl | rfl
    · rfl
    · rfl
    · cases h
    · cases h

/-- Digits that their leading `x` or `z` extends stay, unless there is no other digit. -/
theorem normalizeVcdValue_fill {v : Line} {c : Char} (hc : c = 'x' ∨ c = 'z')
    (h : (tidy v).head? = some c) :
    normalizeVcdValue v = if (tidy v).all (· == c) = true then [c] else tidy v := by
  obtain ⟨rest, ht⟩ := List.head?_eq_some_iff.mp h
  have hdrop : (tidy v).dropWhile (· == '0') = tidy v := by
    rw [ht, List.dropWhile_cons, if_neg (by rcases hc with rfl | rfl <;> decide)]
  have hne : tidy v ≠ [] := by rw [ht]; exact List.cons_ne_nil _ _
  have hother : ∀ {d}, d ≠ c → ¬(tidy v ≠ [] ∧ (tidy v).all (· == d) = true) := by
    rintro d hd ⟨-, hac⟩
    rw [ht, List.all_cons, Bool.and_eq_true] at hac
    exact hd (eq_of_beq hac.1).symm
  rw [normalizeVcdValue, hdrop, if_neg hne, ite_self]
  rcases hc with rfl | rfl
  · rw [if_neg (hother (d := 'z') (by decide))]
    by_cases hx : (tidy v).all (· == 'x') = true
    · rw [if_pos ⟨hne, hx⟩, if_pos hx]
    · rw [if_neg fun hc => hx hc.2, if_neg hx]
  · rw [if_neg (hother (d := 'x') (by decide))]
    by_cases hz : (tidy v).all (· == 'z') = true
    · rw [if_pos ⟨hne, hz⟩, if_pos hz]
    · rw [if_neg fun hc => hz hc.2, if_neg hz]

/-- The normal form has the digits of the text, extended as the text is. -/
theorem digitAt_normalizeVcdValue {v : Line} (hs : IsFourState (tidy v)) (i : Nat) :
    digitAt (fillDigit (tidy v)) (normalizeVcdValue v) i
      = digitAt (fillDigit (tidy v)) (tidy v) i := by
  have hfill : ∀ {c rest}, c = 'x' ∨ c = 'z' → tidy v = c :: rest →
      digitAt c (normalizeVcdValue v) i = digitAt c (tidy v) i := by
    intro c rest hc ht
    rw [normalizeVcdValue_fill hc (by rw [ht]; rfl)]
    by_cases hac : (tidy v).all (· == c) = true
    · rw [if_pos hac, digitAt_of_all (s := tidy v) fun d hd => eq_of_beq (List.all_eq_true.mp hac d hd),
        digitAt_of_all fun d hd => List.mem_singleton.mp hd]
    · rw [if_neg hac]
  rcases fillDigit_eq hs.2 with h0 | ⟨rest, ht⟩ | ⟨rest, ht⟩
  · rw [normalizeVcdValue_zero hs h0, h0]
    by_cases hd : (tidy v).dropWhile (· == '0') = []
    · rw [if_pos hd, ← digitAt_dropWhile '0' (tidy v), hd, digitAt_fill_cons]
    · rw [if_neg hd, digitAt_dropWhile]
  · have hx := hfill (Or.inl rfl) ht
    have hf : fillDigit (tidy v) = 'x' := by rw [ht]; rfl
    rw [hf, hx]
  · have hz := hfill (Or.inr rfl) ht
    have hf : fillDigit (tidy v) = 'z' := by rw [ht]; rfl
    rw [hf, hz]

/-- Texts of other forms are compared as they are. -/
theorem normalizeVcdValue_of_not {v : Line} (h : ¬IsFourState (tidy v)) : normalizeVcdValue v = tidy v := by
  have hall : ∀ {c}, isFourState c = true → ¬(tidy v ≠ [] ∧ (tidy v).all (· == c) = true) := by
    rintro c hc ⟨hne, hac⟩
    refine h ⟨hne, List.all_eq_true.mpr ?_⟩
    intro d hd
    rw [eq_of_beq (List.all_eq_true.mp hac d hd)]
    exact hc
  rw [normalizeVcdValue, if_neg (hall (c := 'x') (by decide)), if_neg (hall (c := 'z') (by decide)), if_neg]
  rintro ⟨hlen, hac⟩
  exact h ⟨List.length_pos_iff.mp (by omega), hac⟩

theorem isFourState_normalizeVcdValue {v : Line} : IsFourState (normalizeVcdValue v) ↔ IsFourState (tidy v) := by
  by_cases hs : IsFourState (tidy v)
  · refine iff_of_true ?_ hs
    rcases fillDigit_eq hs.2 with h0 | ⟨rest, ht⟩ | ⟨rest, ht⟩
    · rw [normalizeVcdValue_zero hs h0]
      by_cases hd : (tidy v).dropWhile (· == '0') = []
      · rw [if_pos hd]; decide
      · rw [if_neg hd]
        refine ⟨hd, List.all_eq_true.mpr ?_⟩
        intro c hc
        exact List.all_eq_true.mp hs.2 c ((List.dropWhile_sublist _).subset hc)
    · rw [normalizeVcdValue_fill (Or.inl rfl) (by rw [ht]; rfl)]
      by_cases hx : (tidy v).all (· == 'x') = true
      · rw [if_pos hx]; decide
      · rwa [if_neg hx]
    · rw [normalizeVcdValue_fill (Or.inr rfl) (by rw [ht]; rfl)]
      by_cases hz : (tidy v).all (· == 'z') = true
      · rw [if_pos hz]; decide
      · rwa [if_neg hz]
  · rw [normalizeVcdValue_of_not hs]

theorem valuesMatch_iff {a b : Line} : valuesMatch a b = true ↔ normalizeVcdValue a = normalizeVcdValue b := by
  have hn : ∀ v, normalizeVcdValue (tidy v) = normalizeVcdValue v := by
    intro v
    rw [normalizeVcdValue, tidy_tidy]
    rfl
  rw [valuesMatch, Bool.or_eq_true, beq_iff_eq, beq_iff_eq, hn, hn]
  refine ⟨?_, Or.inr⟩
  rintro (h | h)
  · rw [← hn a, h, hn]
  · exact h

/-! ## Where text and reading part -/

/-- Texts that match although one is extended by zeros and the other by its leading `x` or `z`, and the width
has positions left to extend. -/
def FalseMatch (w : Nat) (a b : Line) : Prop :=
  IsFourState (tidy a) ∧ IsFourState (tidy b) ∧ valuesMatch a b = true ∧
    fillDigit (tidy a) ≠ fillDigit (tidy b) ∧ (normalizeVcdValue a).length < w

/-- Texts that do not match although their digits within the width are extended alike and are the same
without the digits that the extension puts back. -/
def FalseDifference (w : Nat) (a b : Line) : Prop :=
  IsFourState (tidy a) ∧ IsFourState (tidy b) ∧ valuesMatch a b = false ∧
    fillDigit (lastDigits w (tidy a)) = fillDigit (lastDigits w (tidy b)) ∧
    shortest (lastDigits w (tidy a)) = shortest (lastDigits w (tidy b))

theorem sameValue_iff_of_not {a b : Line} (w : Nat) (h : ¬(IsFourState (tidy a) ∧ IsFourState (tidy b))) :
    SameValue w a b ↔ valuesMatch a b = true := by
  rw [SameValue, if_neg h, valuesMatch_iff]
  by_cases ha : IsFourState (tidy a)
  · have hb : ¬IsFourState (tidy b) := fun hb => h ⟨ha, hb⟩
    refine iff_of_false (fun he => hb (he ▸ ha)) ?_
    intro he
    exact hb (isFourState_normalizeVcdValue.mp (he ▸ isFourState_normalizeVcdValue.mpr ha))
  · rw [normalizeVcdValue_of_not ha]
    by_cases hb : IsFourState (tidy b)
    · refine iff_of_false (fun he => ha (he ▸ hb)) ?_
      intro he
      exact ha (he ▸ isFourState_normalizeVcdValue.mpr hb)
    · rw [normalizeVcdValue_of_not hb]

/-- Texts that match denote the same when they are extended alike or not at all. -/
theorem sameValue_iff_of_match {a b : Line} {w : Nat} (ha : IsFourState (tidy a)) (hb : IsFourState (tidy b))
    (hm : valuesMatch a b = true) :
    SameValue w a b ↔ fillDigit (tidy a) = fillDigit (tidy b) ∨ w ≤ (normalizeVcdValue a).length := by
  have hn := valuesMatch_iff.mp hm
  have hread : SameValue w a b ↔ ∀ i < w, digitAt (fillDigit (tidy a)) (normalizeVcdValue a) i
      = digitAt (fillDigit (tidy b)) (normalizeVcdValue a) i := by
    rw [SameValue, if_pos ⟨ha, hb⟩]
    refine forall₂_congr fun i _ => ?_
    rw [← digitAt_normalizeVcdValue ha, ← digitAt_normalizeVcdValue hb, ← hn]
  rw [hread]
  constructor
  · intro h
    by_contra hcon
    rw [not_or, not_le] at hcon
    have hi := h _ hcon.2
    rw [digitAt_of_length_le le_rfl, digitAt_of_length_le le_rfl] at hi
    exact hcon.1 hi
  · rintro (h | h) i hi
    · rw [h]
    · exact digitAt_of_lt _ _ (by omega)

theorem falseMatch_iff {w : Nat} {a b : Line} : FalseMatch w a b ↔ valuesMatch a b = true ∧ ¬SameValue w a b := by
  by_cases h : IsFourState (tidy a) ∧ IsFourState (tidy b)
  · by_cases hm : valuesMatch a b = true
    · rw [sameValue_iff_of_match h.1 h.2 hm, not_or, not_le, FalseMatch]
      exact ⟨fun hf => ⟨hm, hf.2.2.2⟩, fun hf => ⟨h.1, h.2, hm, hf.2⟩⟩
    · exact iff_of_false (fun hf => hm hf.2.2.1) fun hf => hm hf.1
  · rw [sameValue_iff_of_not w h]
    exact iff_of_false (fun hf => h ⟨hf.1, hf.2.1⟩) fun hf => hf.2 hf.1

theorem fillDigit_fillDigit (s : Line) : fillDigit [fillDigit s] = fillDigit s := by
  cases s with
  | nil => rfl
  | cons c s =>
    by_cases h : c = '1'
    · rw [h]; rfl
    · have hc : fillDigit (c :: s) = c := if_neg h
      rw [hc]
      exact if_neg h

theorem length_lastDigits_le (w : Nat) (s : Line) : (lastDigits w s).length ≤ w := by
  rw [lastDigits, List.length_drop]
  omega

theorem digitAt_lastDigits {w i : Nat} (s : Line) (h : i < w) :
    digitAt (fillDigit (lastDigits w s)) (lastDigits w s) i = digitAt (fillDigit s) s i := by
  rcases Nat.lt_or_ge w s.length with hlt | hle
  · rw [lastDigits, digitAt_of_lt _ (fillDigit s) (by rw [List.length_drop]; omega), digitAt_drop h]
  · rw [lastDigits, Nat.sub_eq_zero_of_le hle, List.drop_zero]

/-- The digit at the last position says what the string is extended with. -/
theorem fillDigit_digitAt {w : Nat} {s : Line} (hs : s ≠ []) (h : s.length ≤ w) :
    fillDigit [digitAt (fillDigit s) s (w - 1)] = fillDigit s := by
  obtain ⟨c, rest, rfl⟩ := List.exists_cons_of_ne_nil hs
  rcases Nat.eq_or_lt_of_le h with rfl | hlt
  · rw [List.length_cons, Nat.add_sub_cancel, digitAt_length]
    rfl
  · rw [digitAt_of_length_le (by omega), fillDigit_fillDigit]

theorem digitAt_shortest (s : Line) (i : Nat) :
    digitAt (fillDigit s) (shortest s) i = digitAt (fillDigit s) s i := digitAt_dropWhile _ _ _

/-- Digits denote the same at a width when their last digits have one shortest form. -/
theorem sameValue_iff_shortest {w : Nat} {a b : Line} (ha : IsFourState (tidy a))
    (hb : IsFourState (tidy b)) :
    SameValue w a b ↔ fillDigit (lastDigits w (tidy a)) = fillDigit (lastDigits w (tidy b)) ∧
        shortest (lastDigits w (tidy a)) = shortest (lastDigits w (tidy b)) := by
  have hne : ∀ {s : Line}, 0 < w → s ≠ [] → lastDigits w s ≠ [] := by
    intro s hw hs hnil
    have hl := congrArg List.length hnil
    rw [lastDigits, List.length_drop, List.length_nil] at hl
    have := List.length_pos_iff.mpr hs
    omega
  have hhead : ∀ s : Line, ∀ d ∈ (shortest s).head?, d ≠ fillDigit s := by
    intro s d hd hc
    have hnot := List.head?_dropWhile_not (· == fillDigit s) s
    rw [← shortest, Option.mem_def.mp hd, hc] at hnot
    simp at hnot
  have hlen : ∀ s : Line, s.length ≤ w → (shortest s).length ≤ w := fun s hs =>
    le_trans (List.dropWhile_sublist _).length_le hs
  rw [SameValue, if_pos ⟨ha, hb⟩]
  constructor
  · intro h
    have hl : ∀ i < w, digitAt (fillDigit (lastDigits w (tidy a))) (lastDigits w (tidy a)) i
          = digitAt (fillDigit (lastDigits w (tidy b))) (lastDigits w (tidy b)) i := by
      intro i hi
      rw [digitAt_lastDigits _ hi, digitAt_lastDigits _ hi, h i hi]
    have hf : fillDigit (lastDigits w (tidy a)) = fillDigit (lastDigits w (tidy b)) := by
      rcases Nat.eq_zero_or_pos w with rfl | hw
      · rw [List.length_eq_zero_iff.mp (Nat.le_zero.mp (length_lastDigits_le 0 (tidy a))),
          List.length_eq_zero_iff.mp (Nat.le_zero.mp (length_lastDigits_le 0 (tidy b)))]
      · rw [← fillDigit_digitAt (hne hw ha.1) (length_lastDigits_le w _),
          hl _ (Nat.sub_lt hw Nat.one_pos), fillDigit_digitAt (hne hw hb.1) (length_lastDigits_le w _)]
    refine ⟨hf, eq_of_digitAt (hhead _) (hf ▸ hhead _) (hlen _ (length_lastDigits_le w _))
      (hlen _ (length_lastDigits_le w _)) ?_⟩
    intro i hi
    rw [digitAt_shortest, hf, digitAt_shortest, ← hl i hi, hf]
  · rintro ⟨hf, hs⟩ i hi
    rw [← digitAt_lastDigits (tidy a) hi, ← digitAt_lastDigits (tidy b) hi, ← digitAt_shortest, hs, hf,
      digitAt_shortest]

theorem falseDifference_iff {w : Nat} {a b : Line} :
    FalseDifference w a b ↔ valuesMatch a b = false ∧ SameValue w a b := by
  by_cases h : IsFourState (tidy a) ∧ IsFourState (tidy b)
  · rw [sameValue_iff_shortest h.1 h.2, FalseDifference]
    exact ⟨fun hd => hd.2.2, fun hd => ⟨h.1, h.2, hd⟩⟩
  · rw [sameValue_iff_of_not w h]
    refine iff_of_false (fun hd => h ⟨hd.1, hd.2.1⟩) ?_
    rintro ⟨hf, ht⟩
    exact Bool.noConfusion (hf.symm.trans ht)

end Veriforge.Vcd

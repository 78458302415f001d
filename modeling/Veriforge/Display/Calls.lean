import Veriforge.Display.Scanned

/-! # What a canonical call prints

A display call is a sequence of values and of format strings with the data they take. Its canonical form prints
what the parts print on their own. -/

namespace Veriforge

/-- A part of a call: a value that no format string takes, or a format string with the data it takes. -/
inductive CallPart (E : Type)
  | value (e : E)
  | string (items : List FormatItem) (data : List (DisplayArg E)) (length_data : data.length = consumed items)
      (not_real : ∀ a ∈ data, a.isReal = false)

/-- Nothing, a lone backslash, or a `%` with nothing but flags, digits, points and signs behind it. -/
def IsCut (tail : Line) : Prop :=
  tail = [] ∨ tail = ['\\'] ∨ ∃ s, tail = '%' :: s ∧ (takeFlag signedFlag s).2.all isSizing = true

/-- The last string of a call. It may end inside a specifier, and there may be fewer data than it takes. -/
structure CallEnd (E : Type) where
  items : List FormatItem
  tail : Line
  data : List (DisplayArg E)
  length_data : data.length ≤ consumed items
  not_real : ∀ a ∈ data, a.isReal = false
  tail_cut : IsCut tail

/-- The arguments of a display call without reals. -/
structure DisplayCall (E : Type) where
  parts : List (CallPart E)
  last : Option (CallEnd E)

namespace CallPart

variable {E : Type}

/-- The arguments of a part. -/
def args : CallPart E → List (DisplayArg E)
  | value e => [.expr e]
  | string items data _ _ => .string (formatText items) :: data

/-- The arguments that are printed. -/
def data : CallPart E → List (DisplayArg E)
  | value e => [.expr e]
  | string _ data _ _ => data

end CallPart

namespace CallEnd

variable {E : Type}

def args (last : CallEnd E) : List (DisplayArg E) :=
  .string (formatText last.items ++ last.tail) :: last.data

end CallEnd

namespace DisplayCall

variable {E : Type}

/-- The arguments of a call. -/
def args (call : DisplayCall E) : List (DisplayArg E) :=
  call.parts.flatMap CallPart.args ++ call.last.elim [] CallEnd.args

/-- The arguments that are printed: all but the format strings. -/
def data (call : DisplayCall E) : List (DisplayArg E) :=
  call.parts.flatMap CallPart.data ++ call.last.elim [] CallEnd.data

end DisplayCall

section

variable {E : Type} (formatReal : Value → Char → Nat → Option Nat → Bool → Bool → Nat → Line) (time : Nat)
  (rounded : E → E) (signedOf : DisplayArg E → Bool) (eval : DisplayArg E → Value)

/-- What a part prints on its own: a value as by `%d`, with its sign; a format string with its data, the specifiers
of signed data flagged. -/
def CallPart.printed : CallPart E → Line
  | .value e => formatValue (eval (.expr e)) 'd' 0 false (signedOf (.expr e))
  | .string items data _ _ =>
      applyFormat formatReal time (formatText (flagItems items (data.map signedOf))) (data.map eval)

def CallEnd.printed (last : CallEnd E) : Line :=
  applyFormat formatReal time (formatText (flagItems last.items (last.data.map signedOf)) ++ last.tail)
    (last.data.map eval)

/-- What the parts of a call print. -/
def DisplayCall.printed (call : DisplayCall E) : Line :=
  call.parts.flatMap (CallPart.printed formatReal time signedOf eval) ++
    call.last.elim [] (CallEnd.printed formatReal time signedOf eval)

/-! ## Parts -/

/-- The specifier of a value that no format string takes. -/
def decimalItem (signed : Bool) : FormatItem :=
  .specifier ⟨signed, false, [], none, 'd', rfl, by rintro p ⟨⟩, rfl, by decide⟩

/-- The items of a part in the canonical form. -/
def CallPart.items : CallPart E → List FormatItem
  | .value e => [decimalItem (signedOf (.expr e))]
  | .string items data _ _ => flagItems items (data.map signedOf)

theorem CallPart.consumed_items (part : CallPart E) : consumed (part.items signedOf) = part.data.length := by
  cases part with
  | value e => cases signedOf (.expr e) <;> rfl
  | string items data hl hr => rw [CallPart.items, consumed_flagItems, CallPart.data, hl]

/-- A part prints its items. -/
theorem CallPart.printed_eq (part : CallPart E) : part.printed formatReal time signedOf eval
      = (printItems formatReal time (part.items signedOf) (part.data.map eval)).1 := by
  cases part with
  | value e =>
    rw [CallPart.printed, CallPart.items]
    cases signedOf (.expr e) <;> exact (List.append_nil _).symm
  | string items data hl hr =>
    have h := formatAll_items formatReal time (flagItems items (data.map signedOf)) [] (data.map eval)
    rw [List.append_nil] at h
    rw [CallPart.printed, applyFormat, ← formatAll, h]
    exact List.append_nil _

theorem CallPart.not_real (part : CallPart E) : ∀ a ∈ part.args, a.isReal = false := by
  intro a ha
  cases part with
  | value e => rw [List.mem_singleton.mp ha]; rfl
  | string items data hl hr =>
    rcases List.mem_cons.mp ha with rfl | ha
    · rfl
    · exact hr a ha

theorem canonicalString_nil (n : Nat) (args : List (DisplayArg E)) :
    canonicalString rounded signedOf n [] args = ([], [], args) := by
  cases n <;> rfl

/-- The canonical form of the arguments of a part, with what follows. -/
theorem canonicalLoop_part (part : CallPart E) {rest : List (DisplayArg E)} {n : Nat}
    (hrest : ∀ a ∈ rest, a.isReal = false) (hn : (part.args ++ rest).length ≤ n) :
    ∃ m, rest.length ≤ m ∧ canonicalLoop rounded signedOf 'd' n (part.args ++ rest) =
      (formatText (part.items signedOf) ++ (canonicalLoop rounded signedOf 'd' m rest).1,
        part.data ++ (canonicalLoop rounded signedOf 'd' m rest).2) := by
  obtain ⟨n, rfl⟩ : ∃ m, n = m + 1 := by
    refine Nat.exists_eq_succ_of_ne_zero ?_
    rintro rfl
    cases part <;> cases hn
  refine ⟨n, ?_, ?_⟩
  · rw [List.length_append] at hn
    cases part with
    | value e => rw [CallPart.args, List.length_singleton] at hn; omega
    | string items data hl hr => rw [CallPart.args, List.length_cons] at hn; omega
  · cases part with
    | value e =>
      rw [CallPart.args, List.singleton_append, canonicalLoop, CallPart.items]
      cases h : signedOf (.expr e) <;> rfl
    | string items data hl hr =>
      have hreal : ∀ a ∈ data ++ rest, a.isReal = false := fun a ha =>
        (List.mem_append.mp ha).elim (hr a) (hrest a)
      have hcan := @canonicalString_items _ rounded signedOf items [] _ _ hreal
        (Nat.le_of_eq (congrArg List.length (List.append_nil (formatText items))))
      have hone : canonicalString rounded signedOf (formatText items).length (formatText items) (data ++ rest)
          = (formatText (flagItems items (data.map signedOf)), data, rest) := by
        rw [List.append_nil] at hcan
        rw [hcan, ← hl, List.take_left, List.drop_left, List.map_append,
          flagItems_append _ (by rw [List.length_map, hl]), canonicalString_nil]
        simp
      rw [CallPart.args, List.cons_append, canonicalLoop, hone]
      rfl

theorem canonicalLoop_parts (parts : List (CallPart E)) {rest : List (DisplayArg E)} {n : Nat}
    (hrest : ∀ a ∈ rest, a.isReal = false) (hn : (parts.flatMap CallPart.args ++ rest).length ≤ n) :
    ∃ m, rest.length ≤ m ∧ canonicalLoop rounded signedOf 'd' n (parts.flatMap CallPart.args ++ rest) =
      (formatText (parts.flatMap (CallPart.items signedOf)) ++ (canonicalLoop rounded signedOf 'd' m rest).1,
        parts.flatMap CallPart.data ++ (canonicalLoop rounded signedOf 'd' m rest).2) := by
  induction parts generalizing n with
  | nil => exact ⟨n, hn, rfl⟩
  | cons part parts ih =>
    rw [List.flatMap_cons, List.append_assoc] at hn ⊢
    have hreal : ∀ a ∈ parts.flatMap CallPart.args ++ rest, a.isReal = false := by
      intro a ha
      rcases List.mem_append.mp ha with ha | ha
      · obtain ⟨p, -, hp⟩ := List.mem_flatMap.mp ha
        exact p.not_real a hp
      · exact hrest a ha
    obtain ⟨m, hm, hpart⟩ := canonicalLoop_part rounded signedOf part hreal hn
    obtain ⟨k, hk, hparts⟩ := ih hm
    refine ⟨k, hk, ?_⟩
    rw [hpart, hparts]
    simp only [List.flatMap_cons, formatText, List.flatMap_append, List.append_assoc]

/-- Parts print one after the other, each with its own data. -/
theorem formatAll_parts (parts : List (CallPart E)) (rest : Line) (args : List Value) :
    formatAll formatReal time (formatText (parts.flatMap (CallPart.items signedOf)) ++ rest)
        ((parts.flatMap CallPart.data).map eval ++ args) =
      (parts.flatMap (CallPart.printed formatReal time signedOf eval) ++ (formatAll formatReal time rest args).1,
        (formatAll formatReal time rest args).2) := by
  induction parts with
  | nil => rfl
  | cons part parts ih =>
    have hlen : (part.data.map eval).length = consumed (part.items signedOf) := by
      rw [List.length_map, part.consumed_items]
    have htext : formatText ((part :: parts).flatMap (CallPart.items signedOf))
        = formatText (part.items signedOf) ++ formatText (parts.flatMap (CallPart.items signedOf)) := by
      rw [List.flatMap_cons, formatText, List.flatMap_append]
      rfl
    rw [htext, List.append_assoc, List.flatMap_cons, List.map_append, List.append_assoc, formatAll_items,
      printItems_append formatReal time _ hlen]
    simp only [ih, List.flatMap_cons, List.append_assoc, CallPart.printed_eq formatReal time signedOf eval part]

/-! ## The end of a call -/

theorem canonicalString_cut {tail : Line} (h : IsCut tail) {n : Nat} (hn : tail.length ≤ n) :
    canonicalString rounded signedOf n tail [] = (tail, [], []) := by
  rcases h with rfl | rfl | ⟨s, rfl, hs⟩
  · exact canonicalString_nil rounded signedOf n []
  · obtain ⟨n, rfl⟩ : ∃ m, n = m + 1 := Nat.exists_eq_succ_of_ne_zero (by rintro rfl; cases hn)
    rw [canonicalString, if_neg fun hc => hc.2 rfl, if_pos (by decide), canonicalString_nil]
  · obtain ⟨n, rfl⟩ : ∃ m, n = m + 1 := Nat.exists_eq_succ_of_ne_zero (by rintro rfl; cases hn)
    have hscan : scanSpecifier s = none := by
      have hdrop : (takeFlag signedFlag s).2.dropWhile isSizing = [] :=
        List.dropWhile_eq_nil_iff.mpr (List.all_eq_true.mp hs)
      simp only [scanSpecifier, hdrop]
    rw [canonicalString, if_neg fun hc => absurd hc.1 (by decide), if_neg (by decide), hscan]

theorem canonicalLoop_end (last : CallEnd E) {n : Nat} (hn : last.args.length ≤ n) :
    canonicalLoop rounded signedOf 'd' n last.args =
      (formatText (flagItems last.items (last.data.map signedOf)) ++ last.tail, last.data) := by
  obtain ⟨n, rfl⟩ : ∃ m, n = m + 1 := Nat.exists_eq_succ_of_ne_zero (by rintro rfl; cases hn)
  have htake : last.data.take (consumed last.items) = last.data := List.take_of_length_le last.length_data
  have hdrop : last.data.drop (consumed last.items) = [] := List.drop_eq_nil_iff.mpr last.length_data
  have hone : canonicalString rounded signedOf (formatText last.items ++ last.tail).length
      (formatText last.items ++ last.tail) last.data
      = (formatText (flagItems last.items (last.data.map signedOf)) ++ last.tail, last.data, []) := by
    rw [canonicalString_items rounded signedOf last.items last.not_real le_rfl, htake, hdrop,
      canonicalString_cut rounded signedOf last.tail_cut (by rw [List.length_append]; omega)]
    simp
  have hnil : canonicalLoop rounded signedOf 'd' n [] = ([], []) := by cases n <;> rfl
  rw [CallEnd.args, canonicalLoop, hone]
  simp only [hnil, List.append_nil]

theorem formatAll_end (last : CallEnd E) :
    formatAll formatReal time (formatText (flagItems last.items (last.data.map signedOf)) ++ last.tail)
        (last.data.map eval) = (last.printed formatReal time signedOf eval, []) := by
  refine Prod.ext rfl ?_
  have hleft : (last.data.map eval).drop (consumed (flagItems last.items (last.data.map signedOf))) = [] := by
    rw [consumed_flagItems]
    exact List.drop_eq_nil_iff.mpr (by rw [List.length_map]; exact last.length_data)
  rw [formatAll_items, printItems_left, hleft]
  exact formatLoop_nil_left formatReal time _ _

/-! ## The canonical call -/

/-- The canonical form of a call, and what the formatter makes of it. -/
theorem exists_canonical (call : DisplayCall E) : ∃ fmt, canonical rounded signedOf call.args 'd' = (fmt, call.data) ∧
      formatAll formatReal time fmt (call.data.map eval) = (call.printed formatReal time signedOf eval, []) := by
  obtain ⟨parts, last⟩ := call
  cases last with
  | none =>
    obtain ⟨m, -, hcan⟩ := @canonicalLoop_parts _ rounded signedOf parts [] _ (by rintro a ⟨⟩) le_rfl
    have hnil : canonicalLoop rounded signedOf 'd' m [] = ([], []) := by cases m <;> rfl
    rw [hnil] at hcan
    refine ⟨_, hcan, ?_⟩
    have hdata : DisplayCall.data ⟨parts, none⟩ = parts.flatMap CallPart.data ++ [] := rfl
    rw [hdata, List.map_append, List.map_nil, formatAll_parts]
    rfl
  | some last =>
    have hreal : ∀ a ∈ last.args, a.isReal = false := by
      intro a ha
      rcases List.mem_cons.mp ha with rfl | ha
      · rfl
      · exact last.not_real a ha
    obtain ⟨m, hm, hcan⟩ := canonicalLoop_parts rounded signedOf parts hreal le_rfl
    rw [canonicalLoop_end rounded signedOf last hm] at hcan
    refine ⟨_, hcan, ?_⟩
    have hdata : DisplayCall.data ⟨parts, some last⟩ = parts.flatMap CallPart.data ++ last.data := rfl
    rw [hdata, List.map_append, formatAll_parts, formatAll_end]
    rfl

end

end Veriforge

import Mathlib.Data.List.GetD
import Veriforge.Refactor.TextEdit

/-! # Edits applied to a text

What it means that edits are applied: they can be put in the order of the text so that none reaches into the
next, each stands on its original text, and only that is replaced. The loop of `applyEditPlans`, which looks
every range up in the text the later edits have changed, does this if the ranges lie in the text and apart. -/

namespace Veriforge.Refactor

/-! ## Line endings -/

theorem notMem_normalizeFrom (text : Line) (b : Bool) : '\r' ∉ normalizeFrom b text := by
  induction text generalizing b with
  | nil => exact List.not_mem_nil
  | cons c cs ih =>
    rw [normalizeFrom]
    split
    · simpa using ih true
    · next h =>
      split
      · exact ih false
      · simpa [Ne.symm h] using ih false

theorem notMem_normalize (text : Line) : '\r' ∉ normalize text := notMem_normalizeFrom text false

theorem normalize_of_notMem {text : Line} (h : '\r' ∉ text) : normalize text = text := by
  rw [normalize]
  induction text with
  | nil => rfl
  | cons c cs ih =>
    rw [List.mem_cons, not_or] at h
    rw [normalizeFrom, if_neg (Ne.symm h.1), if_neg fun h => Bool.false_ne_true h.2, ih h.2]

theorem normalize_readText (contents : List Piece) : normalize (readText contents) = readText contents :=
  normalize_of_notMem (notMem_normalize _)

/-- A text that is written is read again up to line endings. -/
theorem readText_map_char (text : Line) : readText (text.map .char) = normalize text := by
  rw [readText, List.map_map]
  congr 1
  exact List.map_id text

/-! ## Offsets of positions -/

theorem newlineEnds_append (s t : Line) (i : Nat) :
    newlineEnds i (s ++ t) = newlineEnds i s ++ newlineEnds (i + s.length) t := by
  induction s generalizing i with
  | nil => rfl
  | cons c s ih =>
    rw [List.cons_append, newlineEnds, newlineEnds, ih, List.length_cons, Nat.add_right_comm, Nat.add_assoc]
    split <;> rfl

theorem lt_newlineEnds {i j : Nat} {s : Line} (h : j ∈ newlineEnds i s) : i < j := by
  induction s generalizing i with
  | nil => exact absurd h List.not_mem_nil
  | cons c s ih =>
    rw [newlineEnds] at h
    split at h
    · rcases List.mem_cons.mp h with rfl | h
      · exact Nat.lt_succ_self i
      · exact Nat.lt_of_succ_lt (ih h)
    · exact Nat.lt_of_succ_lt (ih h)

/-- The last line of a text starts as many characters before its end as its last line has. -/
theorem lineOffsets_last (s : Line) : (lineOffsets s).length = (endOf s).line + 1 ∧ (endOf s).character ≤ s.length ∧
      (lineOffsets s).getD (endOf s).line 0 = s.length - (endOf s).character := by
  induction s using List.reverseRecOn with
  | nil => exact ⟨rfl, Nat.le_refl _, rfl⟩
  | append_singleton s c ih =>
    obtain ⟨hlen, hle, hlast⟩ := ih
    rw [endOf_append_singleton, Position.advance, List.length_append, lineOffsets, newlineEnds_append,
      ← List.cons_append]
    change (lineOffsets s ++ newlineEnds (0 + s.length) [c]).length = _ ∧ _ ∧
      (lineOffsets s ++ newlineEnds (0 + s.length) [c]).getD _ 0 = _
    rw [newlineEnds, Nat.zero_add]
    by_cases hc : c = '\n'
    · rw [if_pos hc, if_pos hc]
      refine ⟨by simp [hlen, newlineEnds], by simp, ?_⟩
      rw [List.getD_append_right _ _ _ _ (Nat.le_of_eq hlen), hlen]
      simp
    · rw [if_neg hc, if_neg hc]
      refine ⟨by simp [hlen, newlineEnds], by simp; omega, ?_⟩
      rw [List.getD_append _ _ _ _ (Nat.lt_of_lt_of_eq (Nat.lt_succ_self _) hlen.symm), hlast]
      simp

/-- The source finds the offset of every position of the text. -/
theorem lspPositionToOffset_of_denotes {text : Line} {p : Position} {i : Nat} (h : Denotes text p i) :
    lspPositionToOffset text p = i := by
  obtain ⟨hi, hp⟩ := h
  obtain ⟨hlen, hle, hlast⟩ := lineOffsets_last (text.take i)
  rw [hp, List.length_take, Nat.min_eq_left hi] at hle hlast
  rw [hp] at hlen
  have hsplit : lineOffsets text = lineOffsets (text.take i) ++ newlineEnds i (text.drop i) := by
    conv_lhs => rw [← List.take_append_drop i text]
    rw [lineOffsets, newlineEnds_append, List.length_take, Nat.min_eq_left hi, Nat.zero_add, lineOffsets,
      List.cons_append]
  have hline : min p.line ((lineOffsets text).length - 1) = p.line := by
    rw [hsplit, List.length_append, hlen]
    omega
  have hstart : (lineOffsets text).getD p.line 0 = i - p.character := by
    rw [hsplit, List.getD_append _ _ _ _ (by omega), hlast]
  rw [lspPositionToOffset]
  simp only [hline, hstart]
  -- the line does not end before the position
  have hend : i ≤ if p.line + 1 < (lineOffsets text).length then
      max (i - p.character) ((lineOffsets text).getD (p.line + 1) 0 - 1) else text.length := by
    split
    · next hlt =>
      have hmem : (lineOffsets text).getD (p.line + 1) 0 ∈ newlineEnds i (text.drop i) := by
        rw [hsplit, List.length_append, hlen] at hlt
        rw [hsplit, List.getD_append_right _ _ _ _ (by omega), hlen, Nat.sub_self,
          List.getD_eq_getElem _ _ (by omega)]
        exact List.getElem_mem _
      have := lt_newlineEnds hmem
      omega
    · exact hi
  omega

/-! ## Applied edits -/

/-- The text from an offset on with the edits applied, which are in the order of the text. -/
def Spliced (text : Line) : Nat → List TextEditPlan → Line → Prop
  | o, [], out => out = text.drop o
  | o, e :: es, out => ∃ i j rest, Denotes text e.start i ∧ Denotes text e.stop j ∧ o ≤ i ∧ i ≤ j ∧
      slice text i j = normalize e.original ∧ Spliced text j es rest ∧ out = slice text o i ++ e.replacement ++ rest

/-- The text with all the edits applied. -/
def Edited (text : Line) (edits : List TextEditPlan) (out : Line) : Prop :=
  ∃ es, es.Perm edits ∧ Spliced text 0 es out

/-- One range ends where or before the other starts. -/
def Apart (a b : TextEditPlan) : Prop := a.stop ≤ b.start ∨ b.stop ≤ a.start

instance (a b : TextEditPlan) : Decidable (Apart a b) := inferInstanceAs (Decidable (_ ∨ _))

theorem Apart.symm {a b : TextEditPlan} (h : Apart a b) : Apart b a := Or.symm h

/-- The ranges lie in the text, and no two of them overlap. -/
structure Fits (text : Line) (edits : List TextEditPlan) : Prop where
  start : ∀ e ∈ edits, ∃ i, Denotes text e.start i
  stop : ∀ e ∈ edits, ∃ j, Denotes text e.stop j
  forward : ∀ e ∈ edits, e.start ≤ e.stop
  apart : edits.Pairwise Apart

theorem Fits.perm {text : Line} {edits es : List TextEditPlan} (h : Fits text edits) (hp : es.Perm edits) :
    Fits text es where
  start e he := h.start e (hp.mem_iff.mp he)
  stop e he := h.stop e (hp.mem_iff.mp he)
  forward e he := h.forward e (hp.mem_iff.mp he)
  apart := (hp.pairwise_iff Apart.symm).mpr h.apart

/-- What comes later in the order of the text starts later. -/
theorem Spliced.le {text : Line} {o : Nat} {es : List TextEditPlan} {out : Line} (h : Spliced text o es out)
    {e : TextEditPlan} (he : e ∈ es) : ∃ i j, Denotes text e.start i ∧ Denotes text e.stop j ∧ o ≤ i ∧ i ≤ j := by
  induction es generalizing o out with
  | nil => exact absurd he List.not_mem_nil
  | cons e' es ih =>
    obtain ⟨i, j, rest, hi, hj, hoi, hij, -, hrest, -⟩ := h
    rcases List.mem_cons.mp he with rfl | he
    · exact ⟨i, j, hi, hj, hoi, hij⟩
    · obtain ⟨i', j', hi', hj', hji', hij'⟩ := ih hrest he
      exact ⟨i', j', hi', hj', by omega, hij'⟩

/-- Edits that can be applied fit. -/
theorem Spliced.fits {text : Line} {o : Nat} {es : List TextEditPlan} {out : Line} (h : Spliced text o es out) :
    Fits text es := by
  induction es generalizing o out with
  | nil =>
    exact ⟨fun _ he => absurd he List.not_mem_nil, fun _ he => absurd he List.not_mem_nil,
      fun _ he => absurd he List.not_mem_nil, List.Pairwise.nil⟩
  | cons e es ih =>
    have hall := fun e' (he' : e' ∈ e :: es) => h.le he'
    obtain ⟨i, j, rest, hi, hj, -, hij, -, hrest, -⟩ := h
    refine ⟨?_, ?_, ?_, List.pairwise_cons.mpr ⟨?_, (ih hrest).apart⟩⟩
    · intro e' he'
      obtain ⟨i', -, hi', -⟩ := hall e' he'
      exact ⟨i', hi'⟩
    · intro e' he'
      obtain ⟨-, j', -, hj', -⟩ := hall e' he'
      exact ⟨j', hj'⟩
    · intro e' he'
      obtain ⟨i', j', hi', hj', -, hij'⟩ := hall e' he'
      exact (hi'.le_iff hj').mpr hij'
    · intro e' he'
      obtain ⟨i', -, hi', -, hji', -⟩ := hrest.le he'
      exact Or.inl ((hj.le_iff hi').mpr hji')

theorem Edited.fits {text out : Line} {edits : List TextEditPlan} (h : Edited text edits out) : Fits text edits := by
  obtain ⟨es, hp, h⟩ := h
  exact h.fits.perm hp.symm

/-! ## The loop -/

/-- The edits from the last to the first, by recursion from the first. -/
theorem foldl_applyEdit_reverse (text : Line) (es : List TextEditPlan) :
    es.reverse.foldl applyEdit text = es.foldr (fun e t => applyEdit t e) text := List.foldl_reverse

/-- Edits in the order of the text, none of which reaches into the next. -/
def Ordered (es : List TextEditPlan) : Prop := es.Pairwise fun a b => a.stop ≤ b.start

/-- The later edits leave what is before them, and the ranges that lie there. -/
theorem spliced_foldr {text : Line} {es : List TextEditPlan} (hfits : Fits text es) (hord : Ordered es)
    (hcurrent : ∀ e ∈ es, ∀ i j, Denotes text e.start i → Denotes text e.stop j →
      slice text i j = normalize e.original)
    {o : Nat} (ho : o ≤ text.length) (hbefore : ∀ e ∈ es, ∀ i, Denotes text e.start i → o ≤ i) :
    ∃ out, Spliced text o es out ∧ es.foldr (fun e t => applyEdit t e) text = text.take o ++ out := by
  induction es generalizing o with
  | nil => exact ⟨text.drop o, rfl, (List.take_append_drop o text).symm⟩
  | cons e es ih =>
    have hmem : e ∈ e :: es := List.mem_cons_self
    obtain ⟨i, hi⟩ := hfits.start e hmem
    obtain ⟨j, hj⟩ := hfits.stop e hmem
    have hij : i ≤ j := (hi.le_iff hj).mp (hfits.forward e hmem)
    have hoi : o ≤ i := hbefore e hmem i hi
    obtain ⟨hhead, htail⟩ := List.pairwise_cons.mp hord
    obtain ⟨rest, hrest, hfold⟩ :=
      ih ⟨fun e' he' => hfits.start e' (List.mem_cons_of_mem _ he'),
          fun e' he' => hfits.stop e' (List.mem_cons_of_mem _ he'),
          fun e' he' => hfits.forward e' (List.mem_cons_of_mem _ he'),
          (List.pairwise_cons.mp hfits.apart).2⟩ htail
        (fun e' he' => hcurrent e' (List.mem_cons_of_mem _ he')) hj.1
        (fun e' he' i' hi' => (hj.le_iff hi').mp (hhead e' he'))
    refine ⟨slice text o i ++ e.replacement ++ rest,
      ⟨i, j, rest, hi, hj, hoi, hij, hcurrent e hmem i j hi hj, hrest, rfl⟩, ?_⟩
    rw [List.foldr_cons, hfold]
    -- both ends are found where they were
    have htake : (text.take j ++ rest).take j = text.take j := by
      rw [List.take_append_of_le_length (by rw [List.length_take, Nat.min_eq_left hj.1]), List.take_take,
        Nat.min_self]
    have hstart := lspPositionToOffset_of_denotes (hi.of_take hij htake)
    have hstop := lspPositionToOffset_of_denotes (hj.of_take (Nat.le_refl j) htake)
    have hdrop : (text.take j ++ rest).drop j = rest := by
      have hlen : (text.take j).length = j := by rw [List.length_take, Nat.min_eq_left hj.1]
      rw [List.drop_append, hlen, Nat.sub_self, List.drop_zero, List.drop_of_length_le (by omega), List.nil_append]
    have hpre : (text.take j ++ rest).take i = text.take i := by
      rw [← Nat.min_eq_left hij, ← List.take_take, htake, List.take_take]
    rw [applyEdit, hstart, hstop, hdrop, hpre, ← take_append_slice text hoi, List.append_assoc, List.append_assoc,
      List.append_assoc]

theorem keyLe_total (a b : TextEditPlan) : keyLe a b ∨ keyLe b a := by
  unfold keyLe
  by_cases h : a.start = b.start
  · rw [if_pos h, if_pos h.symm]
    exact Position.le_total _ _
  · rw [if_neg h, if_neg (Ne.symm h)]
    exact Position.le_total _ _

theorem keyLe_trans {a b c : TextEditPlan} (h : keyLe a b) (h' : keyLe b c) : keyLe a c := by
  unfold keyLe at *
  by_cases hab : a.start = b.start
  · rw [if_pos hab] at h
    by_cases hbc : b.start = c.start
    · rw [if_pos hbc] at h'
      rw [if_pos (hab.trans hbc)]
      exact Position.le_trans h h'
    · rw [if_neg hbc] at h'
      rw [hab, if_neg hbc]
      exact h'
  · rw [if_neg hab] at h
    by_cases hbc : b.start = c.start
    · rw [← hbc, if_neg hab]
      exact h
    · rw [if_neg hbc] at h'
      have hac : a.start ≠ c.start := fun hac => hab (Position.le_antisymm h (hac ▸ h'))
      rw [if_neg hac]
      exact Position.le_trans h h'

theorem keyLe.start_le {a b : TextEditPlan} (h : keyLe a b) : a.start ≤ b.start := by
  unfold keyLe at h
  split at h
  · next heq =>
    rw [heq]
    exact Position.le_refl _
  · exact h

/-- Ranges that lie apart are ordered by the key. -/
theorem Apart.of_keyLe {a b : TextEditPlan} (h : Apart a b) (hb : b.start ≤ b.stop)
    (hab : keyLe a b) : a.stop ≤ b.start := by
  rcases h with h | h
  · exact h
  · -- both start where the second one is empty
    have hstart : a.start = b.start := Position.le_antisymm hab.start_le (Position.le_trans hb h)
    unfold keyLe at hab
    rw [if_pos hstart] at hab
    rw [← hstart]
    exact Position.le_trans hab h

/-- The loop applies the edits, if they fit. -/
theorem edited_applyEditPlans {text : Line} {edits : List TextEditPlan} (hnorm : normalize text = text)
    (hfits : Fits text edits)
    (hcurrent : ∀ e ∈ edits, currentTextForEdit text e = normalize e.original) :
    Edited text edits (applyEditPlans text edits) := by
  have htotal : Std.Total (fun a b : TextEditPlan => keyLe b a) := ⟨fun a b => keyLe_total b a⟩
  have htrans : IsTrans TextEditPlan (fun a b => keyLe b a) := ⟨fun _ _ _ h h' => keyLe_trans h' h⟩
  have hsorted := List.pairwise_insertionSort (fun a b : TextEditPlan => keyLe b a) edits
  have hperm : (edits.insertionSort fun a b => keyLe b a).reverse.Perm edits :=
    (List.reverse_perm _).trans (List.perm_insertionSort _ _)
  set es := (edits.insertionSort fun a b => keyLe b a).reverse with hes
  have hfits' : Fits text es := hfits.perm hperm
  have hord : Ordered es := by
    have hkeys : es.Pairwise keyLe := List.pairwise_reverse.mpr hsorted
    refine (List.pairwise_iff_forall_sublist.mpr fun {a b} hab => ?_)
    have hb : b ∈ es := hab.subset (List.mem_cons_of_mem _ List.mem_cons_self)
    exact (List.pairwise_iff_forall_sublist.mp hfits'.apart hab).of_keyLe (hfits'.forward b hb)
      (List.pairwise_iff_forall_sublist.mp hkeys hab)
  have hslices : ∀ e ∈ es, ∀ i j, Denotes text e.start i → Denotes text e.stop j →
      slice text i j = normalize e.original := by
    intro e he i j hi hj
    rw [← hcurrent e (hperm.mem_iff.mp he), currentTextForEdit]
    simp only [hnorm, lspPositionToOffset_of_denotes hi, lspPositionToOffset_of_denotes hj]
  obtain ⟨out, hout, hfold⟩ :=
    spliced_foldr hfits' hord hslices (Nat.zero_le _) fun _ _ _ _ => Nat.zero_le _
  refine ⟨es, hperm, ?_⟩
  have hloop : applyEditPlans text edits = out := by
    rw [applyEditPlans, hnorm, ← List.reverse_reverse (edits.insertionSort fun a b => keyLe b a), ← hes,
      foldl_applyEdit_reverse, hfold, List.take_zero, List.nil_append]
  rw [hloop]
  exact hout

end Veriforge.Refactor

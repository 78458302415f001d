import Mathlib.Data.Nat.Find
import Veriforge.Refactor.Lines
import Veriforge.Refactor.Splice

/-! # Edits that are made at once

What the edits of a list are to do: every range, read in the text that they were written for, is replaced, and
insertions at one position stand in the order of the list. The loop of `applyEditPlans` reads the ranges in the text
that the edits after them have changed, and puts of two insertions at one position the later one first. -/

namespace Veriforge.Refactor

/-! ## Positions that are clamped -/

/-- The last offset that is not past the position: on its line as far as it goes, and at the end of the text where the
line does not exist. -/
def clampedOffset (text : Line) (p : Position) : Nat :=
  Nat.findGreatest (fun i => endOf (text.take i) ≤ p) text.length

section Clamped

variable {text : Line} {p q : Position} {i : Nat}

theorem clampedOffset_le (text : Line) (p : Position) : clampedOffset text p ≤ text.length := Nat.findGreatest_le _

theorem endOf_clampedOffset (text : Line) (p : Position) : endOf (text.take (clampedOffset text p)) ≤ p := by
  have hzero : endOf (text.take 0) ≤ p := by
    rw [List.take_zero, endOf_nil, Position.le_def]
    change 0 < p.line ∨ 0 = p.line ∧ 0 ≤ p.character
    omega
  exact Nat.findGreatest_spec (P := fun i => endOf (text.take i) ≤ p) (Nat.zero_le _) hzero

theorem le_clampedOffset (hi : i ≤ text.length) (h : endOf (text.take i) ≤ p) : i ≤ clampedOffset text p :=
  Nat.le_findGreatest hi h

theorem clampedOffset_mono (h : p ≤ q) : clampedOffset text p ≤ clampedOffset text q :=
  le_clampedOffset (clampedOffset_le text p) (Position.le_trans (endOf_clampedOffset text p) h)

theorem clampedOffset_of_denotes (h : Denotes text p i) : clampedOffset text p = i := by
  have hle : i ≤ clampedOffset text p := le_clampedOffset h.1 (h.2 ▸ Position.le_refl _)
  have hself : Denotes text (endOf (text.take (clampedOffset text p))) (clampedOffset text p) :=
    ⟨clampedOffset_le text p, rfl⟩
  exact Nat.le_antisymm ((hself.le_iff h).mp (endOf_clampedOffset text p)) hle

/-- A position that a text does not have is past the end of its line, or past the text. -/
theorem overhangs (h : ¬ Denotes text p (clampedOffset text p)) :
    (endOf (text.take (clampedOffset text p))).line = p.line ∧
        (endOf (text.take (clampedOffset text p))).character < p.character ∧
        (clampedOffset text p = text.length ∨ text[clampedOffset text p]? = some '\n') ∨
      clampedOffset text p = text.length := by
  set o := clampedOffset text p with ho
  by_cases hend : o = text.length
  · exact Or.inr hend
  · have hlt : o < text.length := Nat.lt_of_le_of_ne (clampedOffset_le text p) hend
    obtain ⟨c, hc⟩ : ∃ c, text[o]? = some c := ⟨_, List.getElem?_eq_getElem hlt⟩
    -- one character more is past the position
    have hnext : ¬ (endOf (text.take o)).advance c ≤ p := by
      intro hle
      have htake : text.take (o + 1) = text.take o ++ [c] := by
        rw [List.take_add_one, hc]
        rfl
      have := le_clampedOffset hlt (p := p) (by rw [htake, endOf_append_singleton]; exact hle)
      omega
    have hle := endOf_clampedOffset text p
    rw [← ho] at hle
    have hne : endOf (text.take o) ≠ p := fun heq => h ⟨clampedOffset_le text p, heq⟩
    have hcases : (endOf (text.take o)).line = p.line ∧ (endOf (text.take o)).character ≤ p.character ∧
        (c = '\n' ∨ (endOf (text.take o)).character = p.character) := by
      rw [Position.advance] at hnext
      by_cases hc' : c = '\n'
      · rw [if_pos hc', Position.le_def] at hnext
        rw [Position.le_def] at hle
        dsimp only at hnext
        exact ⟨by omega, by omega, Or.inl hc'⟩
      · rw [if_neg hc', Position.le_def] at hnext
        rw [Position.le_def] at hle
        dsimp only at hnext
        exact ⟨by omega, by omega, Or.inr (by omega)⟩
    obtain ⟨hline, hchar, hlast⟩ := hcases
    have hchar' : (endOf (text.take o)).character ≠ p.character := fun heq => hne (by
      obtain ⟨l, k⟩ := p
      exact congrArg₂ Position.mk hline heq)
    refine Or.inl ⟨hline, Nat.lt_of_le_of_ne hchar hchar', Or.inr ?_⟩
    rw [hc, hlast.resolve_right hchar']

/-- A position past the end of its line is read at the end of the line. -/
theorem lspPositionToOffset_of_overhangs {o : Nat} (ho : o ≤ text.length) (hline : (endOf (text.take o)).line = p.line)
    (hchar : (endOf (text.take o)).character < p.character) (hend : o = text.length ∨ text[o]? = some '\n') :
    lspPositionToOffset text p = o := by
  obtain ⟨hlen, hle, hlast⟩ := lineOffsets_last (text.take o)
  rw [List.length_take, Nat.min_eq_left ho] at hle hlast
  rw [hline] at hlen hlast
  have hsplit : lineOffsets text = lineOffsets (text.take o) ++ newlineEnds o (text.drop o) := by
    conv_lhs => rw [← List.take_append_drop o text]
    rw [lineOffsets, newlineEnds_append, List.length_take, Nat.min_eq_left ho, Nat.zero_add, lineOffsets,
      List.cons_append]
  have hclamped : min p.line ((lineOffsets text).length - 1) = p.line := by
    rw [hsplit, List.length_append, hlen]
    omega
  have hstart : (lineOffsets text).getD p.line 0 = o - (endOf (text.take o)).character := by
    rw [hsplit, List.getD_append _ _ _ _ (by omega), hlast]
  -- the line ends where the position is read
  have hlineEnd : (if p.line + 1 < (lineOffsets text).length then
      max (o - (endOf (text.take o)).character) ((lineOffsets text).getD (p.line + 1) 0 - 1) else text.length) = o := by
    rcases hend with hend | hend
    · have hnil : newlineEnds o (text.drop o) = [] := by
        rw [hend, List.drop_length]
        rfl
      rw [hsplit, hnil, List.append_nil, hlen, if_neg (Nat.lt_irrefl _), hend]
    · have hlt := (List.getElem?_eq_some_iff.mp hend).1
      have hdrop : text.drop o = '\n' :: text.drop (o + 1) := by
        rw [List.drop_eq_getElem_cons hlt, (List.getElem?_eq_some_iff.mp hend).2]
      rw [hsplit, hdrop, newlineEnds, if_pos rfl, List.length_append, hlen, List.length_cons,
        if_pos (by omega), List.getD_append_right _ _ _ _ (by omega), hlen, Nat.sub_self, List.getD_cons_zero]
      omega
  rw [lspPositionToOffset]
  simp only [hclamped, hstart, hlineEnd]
  omega

/-- Where the text is changed only after the offset at which a position is read, and not there if the position does not
lie in the text, it is read at the same offset. -/
theorem lspPositionToOffset_of_take {text' : Line} {n : Nat} (hp : lspPositionToOffset text p = clampedOffset text p)
    (hn : clampedOffset text p ≤ n) (htake : text'.take n = text.take n)
    (hsteady : Denotes text p (clampedOffset text p) ∨ clampedOffset text p < n ∧ n ≤ text.length ∨ text' = text) :
    lspPositionToOffset text' p = clampedOffset text p := by
  set o := clampedOffset text p with ho
  rcases hsteady with hdenotes | ⟨hlt, hlength⟩ | rfl
  · exact lspPositionToOffset_of_denotes (hdenotes.of_take hn htake)
  · by_cases hdenotes : Denotes text p o
    · exact lspPositionToOffset_of_denotes (hdenotes.of_take hn htake)
    · have hsame : text'.take o = text.take o := by
        rw [← Nat.min_eq_left hn, ← List.take_take, htake, List.take_take]
      rcases overhangs hdenotes with ⟨hline, hchar, hend⟩ | hend
      · have hnewline : text[o]? = some '\n' := hend.resolve_left (by omega)
        have hget : text'[o]? = text[o]? := by
          rw [← List.getElem?_take_of_lt hlt, htake, List.getElem?_take_of_lt hlt]
        have hlength' : o < text'.length := (List.getElem?_eq_some_iff.mp (hget.trans hnewline)).1
        rw [← ho, ← hsame] at hline hchar
        exact lspPositionToOffset_of_overhangs (Nat.le_of_lt hlength') hline hchar (Or.inr (hget.trans hnewline))
      · omega
  · exact hp

end Clamped

/-! ## What the edits are to do -/

/-- The range of an edit, as offsets. -/
def TextEditPlan.span (text : Line) (e : TextEditPlan) : Nat × Nat :=
  (clampedOffset text e.start, clampedOffset text e.stop)

/-- Spans in the order of the text: an insertion at the start of a range comes before it. -/
def spanLe (text : Line) (a b : TextEditPlan) : Prop :=
  (a.span text).1 < (b.span text).1 ∨ (a.span text).1 = (b.span text).1 ∧ (a.span text).2 ≤ (b.span text).2

instance (text : Line) (a b : TextEditPlan) : Decidable (spanLe text a b) := inferInstanceAs (Decidable (_ ∨ _))

/-- The text from an offset on, with the spans of the edits replaced, which are in order. -/
def replaceFrom (text : Line) : Nat → List TextEditPlan → Line
  | o, [] => text.drop o
  | o, e :: es => slice text o (e.span text).1 ++ e.replacement ++ replaceFrom text (e.span text).2 es

/-- The text with every span replaced, insertions at one position in the order of the list. -/
def replaced (text : Line) (edits : List TextEditPlan) : Line :=
  replaceFrom text 0 (edits.insertionSort (spanLe text))

/-- The spans run forward, and no two overlap. -/
structure ApartSpans (text : Line) (edits : List TextEditPlan) : Prop where
  forward : ∀ e ∈ edits, (e.span text).1 ≤ (e.span text).2
  apart : edits.Pairwise fun a b => (a.span text).2 ≤ (b.span text).1 ∨ (b.span text).2 ≤ (a.span text).1

/-- The ends of an edit lie in the text, or another one starts elsewhere. -/
def Clear (text : Line) (a b : TextEditPlan) : Prop :=
  ∀ p ∈ [a.start, a.stop], Denotes text p (clampedOffset text p) ∨ clampedOffset text p ≠ (b.span text).1

instance (text : Line) (a b : TextEditPlan) : Decidable (Clear text a b) := inferInstanceAs (Decidable (∀ p ∈ _, _))

/-- The loop reads the ends of every edit where they are in the text, and no edit with an end past its line or past the
text has that end where another edit starts. -/
structure Steady (text : Line) (edits : List TextEditPlan) : Prop where
  reads : ∀ e ∈ edits, ∀ p ∈ [e.start, e.stop], lspPositionToOffset text p = clampedOffset text p
  clear : edits.Pairwise fun a b => Clear text a b ∧ Clear text b a

/-! ## The loop -/

section Loop

variable {text : Line}

/-- The loop on edits in the order of the text. -/
theorem foldr_applyEdit {es : List TextEditPlan} (hforward : ∀ e ∈ es, (e.span text).1 ≤ (e.span text).2)
    (hord : es.Pairwise fun a b => (a.span text).2 ≤ (b.span text).1)
    (hreads : ∀ e ∈ es, ∀ p ∈ [e.start, e.stop], lspPositionToOffset text p = clampedOffset text p)
    (hclear : es.Pairwise (Clear text)) :
    ∀ o ≤ text.length, (∀ e ∈ es, o ≤ (e.span text).1) →
      es.foldr (fun e t => applyEdit t e) text = text.take o ++ replaceFrom text o es := by
  induction es with
  | nil => exact fun o _ _ => (List.take_append_drop o text).symm
  | cons e es ih =>
    intro o ho hbefore
    obtain ⟨hhead, htail⟩ := List.pairwise_cons.mp hord
    obtain ⟨hheadClear, htailClear⟩ := List.pairwise_cons.mp hclear
    have hoi := hbefore e List.mem_cons_self
    have hij := hforward e List.mem_cons_self
    have hj : (e.span text).2 ≤ text.length := clampedOffset_le text e.stop
    have hfold := ih (fun e' he' => hforward e' (List.mem_cons_of_mem _ he')) htail
      (fun e' he' => hreads e' (List.mem_cons_of_mem _ he')) htailClear (e.span text).2 hj hhead
    set t := es.foldr (fun e t => applyEdit t e) text with ht
    -- both ends are read where they were
    have hread : ∀ p ∈ [e.start, e.stop], clampedOffset text p ≤ (e.span text).2 →
        lspPositionToOffset t p = clampedOffset text p := by
      intro p hp hle
      have hself := hreads e List.mem_cons_self p hp
      cases es with
      | nil =>
        exact lspPositionToOffset_of_take hself (clampedOffset_le text p) (by rw [ht]; rfl) (Or.inr (Or.inr rfl))
      | cons e' es =>
        have hnext := hhead e' List.mem_cons_self
        have hn : (e'.span text).1 ≤ text.length := clampedOffset_le text e'.start
        have htake : t.take (e'.span text).1 = text.take (e'.span text).1 := by
          rw [hfold, replaceFrom, List.append_assoc, ← List.append_assoc, take_append_slice text hnext,
            List.take_append_of_le_length (by rw [List.length_take, Nat.min_eq_left hn]), List.take_take,
            Nat.min_self]
        refine lspPositionToOffset_of_take hself (Nat.le_trans hle hnext) htake ?_
        rcases hheadClear e' List.mem_cons_self p hp with hdenotes | hne
        · exact Or.inl hdenotes
        · exact Or.inr (Or.inl ⟨Nat.lt_of_le_of_ne (Nat.le_trans hle hnext) hne, hn⟩)
    have hstart := hread e.start List.mem_cons_self hij
    have hstop := hread e.stop (List.mem_cons_of_mem _ (List.mem_singleton.mpr rfl)) (Nat.le_refl _)
    have hlength : (text.take (e.span text).2).length = (e.span text).2 := by
      rw [List.length_take, Nat.min_eq_left hj]
    have hdrop : t.drop (e.span text).2 = replaceFrom text (e.span text).2 es := by
      rw [hfold, List.drop_append, hlength, Nat.sub_self, List.drop_zero,
        List.drop_of_length_le (Nat.le_of_eq hlength), List.nil_append]
    have hpre : t.take (e.span text).1 = text.take (e.span text).1 := by
      rw [hfold, List.take_append_of_le_length (by rw [hlength]; exact hij), List.take_take, Nat.min_eq_left hij]
    rw [List.foldr_cons, ← ht, applyEdit, hstart, hstop]
    change t.take (e.span text).1 ++ e.replacement ++ t.drop (e.span text).2 = _
    rw [hdrop, hpre, ← take_append_slice text hoi, replaceFrom, List.append_assoc, List.append_assoc,
      List.append_assoc]

/-- Where no end is unsteady, the order of the keys is that of the spans. -/
theorem span_of_keyLe {a b : TextEditPlan} (hb : (b.span text).1 ≤ (b.span text).2)
    (hapart : (a.span text).2 ≤ (b.span text).1 ∨ (b.span text).2 ≤ (a.span text).1) (hab : Clear text a b)
    (hba : Clear text b a) (hkey : keyLe a b) : (a.span text).2 ≤ (b.span text).1 := by
  rcases hapart with h | h
  · exact h
  · -- both start where the second one is empty
    have hstart : (a.span text).1 = (b.span text).1 :=
      Nat.le_antisymm (clampedOffset_mono hkey.start_le) (Nat.le_trans hb h)
    have hdenotes : ∀ {p : Position} {c d : TextEditPlan}, Clear text c d → p ∈ [c.start, c.stop] →
        clampedOffset text p = (d.span text).1 → Denotes text p (clampedOffset text p) :=
      fun hclear hp heq => (hclear _ hp).resolve_right fun hne => hne heq
    have ha := hdenotes hab List.mem_cons_self hstart
    have hb' := hdenotes hba List.mem_cons_self hstart.symm
    have heq : a.start = b.start := by
      rw [← ha.2, ← hb'.2]
      exact congrArg (fun i => endOf (text.take i)) hstart
    unfold keyLe at hkey
    rw [if_pos heq] at hkey
    exact Nat.le_trans (clampedOffset_mono hkey) (Nat.le_trans h (Nat.le_of_eq hstart))

end Loop

/-! ## Edits of one span -/

/-- Sorting keeps the order of elements that are already in order among themselves. -/
theorem filter_insertionSort {α : Type} (r : α → α → Prop) [DecidableRel r] [Std.Total r] [IsTrans α r] (xs : List α)
    (p : α → Bool) (h : (xs.filter p).Pairwise r) : (xs.insertionSort r).filter p = xs.filter p := by
  have hsub : ((xs.filter p).filter p).Sublist ((xs.insertionSort r).filter p) :=
    (List.sublist_insertionSort h List.filter_sublist).filter p
  rw [List.filter_filter] at hsub
  simp only [Bool.and_self] at hsub
  exact (hsub.eq_of_length ((List.perm_insertionSort r xs).filter p).length_eq.symm).symm

section Spans

variable {text : Line}

/-- The edits of one span. -/
def ofSpan (text : Line) (es : List TextEditPlan) (k : Nat × Nat) : List TextEditPlan :=
  es.filter fun e => e.span text = k

/-- The replacements of the edits, one after another. -/
def joined (es : List TextEditPlan) : Line := (es.map (·.replacement)).flatten

/-- Edits of one span: their replacements stand there one after another. -/
theorem replaceFrom_ofSpan {k : Nat × Nat} (hk : k.1 ≤ k.2) (es : List TextEditPlan) :
    ∀ (g : List TextEditPlan) (o : Nat), g ≠ [] → (∀ e ∈ g, e.span text = k) →
      replaceFrom text o (g ++ es) = slice text o k.1 ++ (joined g ++ replaceFrom text k.2 es)
  | [], _, h, _ => absurd rfl h
  | e :: g, o, _, hspan => by
    have he := hspan e List.mem_cons_self
    rw [List.cons_append, replaceFrom, he]
    by_cases hg : g = []
    · rw [hg, List.nil_append, List.append_assoc]
      simp [joined]
    · have hnil : slice text k.2 k.1 = [] := by
        rw [slice, List.drop_eq_nil_iff, List.length_take]
        omega
      rw [replaceFrom_ofSpan hk es g k.2 hg fun e' he' => hspan e' (List.mem_cons_of_mem _ he'), hnil,
        List.nil_append, List.append_assoc]
      simp [joined]

/-- In sorted edits those of the first span come first. -/
theorem ofSpan_append {k : Nat × Nat} {es : List TextEditPlan} (hsorted : es.Pairwise (spanLe text))
    (hfirst : ∀ e ∈ es, k.1 < (e.span text).1 ∨ k.1 = (e.span text).1 ∧ k.2 ≤ (e.span text).2) :
    es = ofSpan text es k ++ es.filter fun e => e.span text ≠ k := by
  induction es with
  | nil => rfl
  | cons e es ih =>
    obtain ⟨hhead, htail⟩ := List.pairwise_cons.mp hsorted
    unfold ofSpan
    by_cases he : e.span text = k
    · rw [List.filter_cons_of_pos (by simpa using he), List.filter_cons_of_neg (by simpa using he), List.cons_append]
      exact congrArg (e :: ·) (ih htail fun e' he' => hfirst e' (List.mem_cons_of_mem _ he'))
    · -- the rest is after `e`, which is after `k`
      have hrest : ∀ e' ∈ es, e'.span text ≠ k := by
        intro e' he' heq
        have hle := hhead e' he'
        have hk := hfirst e List.mem_cons_self
        unfold spanLe at hle
        rw [heq] at hle
        exact he (Prod.ext (by omega) (by omega))
      have hnone : es.filter (fun e => e.span text = k) = [] :=
        List.filter_eq_nil_iff.mpr fun e' he' => by simpa using hrest e' he'
      have hall : es.filter (fun e => e.span text ≠ k) = es :=
        List.filter_eq_self.mpr fun e' he' => by simpa using hrest e' he'
      rw [List.filter_cons_of_neg (by simpa using he), List.filter_cons_of_pos (by simpa using he), hnone, hall,
        List.nil_append]

theorem joined_length {es es' : List TextEditPlan} (h : es.Perm es') : (joined es).length = (joined es').length := by
  exact (h.map _).flatten.length_eq

/-- Two sorted lists of the same edits make the same text exactly if at every span they put the same text. -/
theorem replaceFrom_eq_iff (n : Nat) :
    ∀ (es es' : List TextEditPlan) (o : Nat), es.length = n → es.Perm es' → es.Pairwise (spanLe text) →
      es'.Pairwise (spanLe text) → (∀ e ∈ es, (e.span text).1 ≤ (e.span text).2) →
      (replaceFrom text o es = replaceFrom text o es' ↔
        ∀ k, joined (ofSpan text es k) = joined (ofSpan text es' k)) := by
  induction n using Nat.strong_induction_on with
  | _ n ih =>
    intro es es' o hn hperm hsorted hsorted' hforward
    cases es with
    | nil =>
      rw [List.nil_perm.mp hperm]
      exact iff_of_true rfl fun _ => rfl
    | cons e es =>
      set k := e.span text with hk
      set all := e :: es with hall
      have hfirst : ∀ e' ∈ all, k.1 < (e'.span text).1 ∨ k.1 = (e'.span text).1 ∧ k.2 ≤ (e'.span text).2 := by
        intro e' he'
        rcases List.mem_cons.mp he' with rfl | he'
        · exact Or.inr ⟨rfl, Nat.le_refl _⟩
        · exact (List.pairwise_cons.mp hsorted).1 e' he'
      have hsplit := ofSpan_append hsorted hfirst
      have hsplit' := ofSpan_append hsorted' fun e' he' => hfirst e' (hperm.mem_iff.mpr he')
      have hgroup : (ofSpan text all k).Perm (ofSpan text es' k) := hperm.filter _
      have hmem : e ∈ ofSpan text all k := List.mem_filter.mpr ⟨List.mem_cons_self, by simp [hk]⟩
      have hone : ∀ {fs : List TextEditPlan}, ∀ e' ∈ ofSpan text fs k, e'.span text = k := fun e' he' => by
        simpa using (List.mem_filter.mp he').2
      have hforwardk : k.1 ≤ k.2 := hforward e List.mem_cons_self
      set rest := all.filter (fun e => e.span text ≠ k) with hrest
      set rest' := es'.filter (fun e => e.span text ≠ k) with hrest'
      have hshorter : rest.length < n := by
        have hlength := congrArg List.length hsplit
        have hpos := List.length_pos_of_mem hmem
        rw [List.length_append] at hlength
        omega
      have hrests := ih _ hshorter rest rest' k.2 rfl (hperm.filter _) (hsorted.filter _) (hsorted'.filter _)
        fun e' he' => hforward e' (List.mem_of_mem_filter he')
      have hother : ∀ (fs : List TextEditPlan) {k' : Nat × Nat}, k' ≠ k →
          ofSpan text (fs.filter fun e => e.span text ≠ k) k' = ofSpan text fs k' := by
        intro fs k' hne
        unfold ofSpan
        rw [List.filter_filter]
        refine List.filter_congr fun e' _ => ?_
        by_cases he' : e'.span text = k' <;> simp [he', hne]
      have hsame : ∀ fs : List TextEditPlan, ofSpan text (fs.filter fun e => e.span text ≠ k) k = [] := by
        intro fs
        unfold ofSpan
        rw [List.filter_filter]
        exact List.filter_eq_nil_iff.mpr fun e' _ => by simp
      have hmake := replaceFrom_ofSpan hforwardk rest (ofSpan text all k) o (List.ne_nil_of_mem hmem) hone
      have hmake' := replaceFrom_ofSpan hforwardk rest' (ofSpan text es' k) o
        (List.ne_nil_of_mem (hgroup.mem_iff.mp hmem)) hone
      rw [← hsplit] at hmake
      rw [← hsplit'] at hmake'
      rw [hmake, hmake', List.append_cancel_left_eq]
      constructor
      · intro h k'
        obtain ⟨hhere, hthere⟩ := List.append_inj h (joined_length hgroup)
        by_cases hne : k' = k
        · rw [hne]
          exact hhere
        · rw [← hother all hne, ← hother es' hne]
          exact hrests.mp hthere k'
      · intro h
        rw [h k, hrests.mpr]
        intro k'
        by_cases hne : k' = k
        · rw [hne, hsame all, hsame es']
        · rw [hother all hne, hother es' hne]
          exact h k'

/-- Edits that keep apart and are steady: of two with one span, both are insertions at a position of the text. -/
theorem keyLe_of_span {edits : List TextEditPlan} (hapart : ApartSpans text edits) (hsteady : Steady text edits)
    (k : Nat × Nat) : (ofSpan text edits k).Pairwise fun a b => keyLe b a := by
  have hboth : edits.Pairwise fun a b => a.span text = k → b.span text = k → keyLe b a := by
    refine (hapart.apart.and hsteady.clear).imp_of_mem fun {a b} ha _ h hak hbk => ?_
    obtain ⟨hspans, hab, hba⟩ := h
    have hforward := hapart.forward a ha
    rw [hak] at hforward
    rw [hak, hbk] at hspans
    have hpoint : k.1 = k.2 := by omega
    have hdenotes : ∀ {c d : TextEditPlan}, Clear text c d → c.span text = k → d.span text = k →
        ∀ p ∈ [c.start, c.stop], clampedOffset text p = k.1 → endOf (text.take k.1) = p := by
      intro c d hclear _ hd p hp heq
      have := (hclear p hp).resolve_right fun hne => hne (heq.trans (congrArg Prod.fst hd).symm)
      rw [← heq]
      exact this.2
    have hstop : ∀ {c : TextEditPlan}, c.span text = k → clampedOffset text c.stop = k.1 := fun hc =>
      (congrArg Prod.snd hc).trans hpoint.symm
    have hstart : ∀ {c : TextEditPlan}, c.span text = k → clampedOffset text c.start = k.1 := fun hc =>
      congrArg Prod.fst hc
    have hlast : ∀ {c : TextEditPlan}, c.stop ∈ [c.start, c.stop] := List.mem_cons_of_mem _ List.mem_cons_self
    have hstarts := (hdenotes hba hbk hak _ List.mem_cons_self (hstart hbk)).symm.trans
      (hdenotes hab hak hbk _ List.mem_cons_self (hstart hak))
    have hstops := (hdenotes hba hbk hak _ hlast (hstop hbk)).symm.trans (hdenotes hab hak hbk _ hlast (hstop hak))
    unfold keyLe
    rw [if_pos hstarts, hstops]
    exact Position.le_refl _
  refine (List.Pairwise.filter _ hboth).imp_of_mem fun ha hb h => ?_
  exact h (by simpa using (List.mem_filter.mp ha).2) (by simpa using (List.mem_filter.mp hb).2)

/-- The replacements of the insertions at an offset, in the order of the list. -/
def insertionsAt (text : Line) (edits : List TextEditPlan) (i : Nat) : List Line :=
  (ofSpan text edits (i, i)).map (·.replacement)

/-- The loop makes the edits at once exactly if the insertions at every position make the same text in either order. -/
theorem applyEditPlans_eq_iff {text : Line} {edits : List TextEditPlan} (hapart : ApartSpans (normalize text) edits)
    (hsteady : Steady (normalize text) edits) :
    applyEditPlans text edits = replaced (normalize text) edits ↔
      ∀ i, (insertionsAt (normalize text) edits i).reverse.flatten =
        (insertionsAt (normalize text) edits i).flatten := by
  have hkeyTotal : Std.Total (fun a b : TextEditPlan => keyLe b a) := ⟨fun a b => keyLe_total b a⟩
  have hkeyTrans : IsTrans TextEditPlan (fun a b => keyLe b a) := ⟨fun _ _ _ h h' => keyLe_trans h' h⟩
  have hspanTotal : Std.Total (spanLe (normalize text)) := ⟨fun a b => by
    unfold spanLe
    omega⟩
  have hspanTrans : IsTrans TextEditPlan (spanLe (normalize text)) := ⟨fun a b c => by
    unfold spanLe
    omega⟩
  have hperm : (edits.insertionSort fun a b => keyLe b a).reverse.Perm edits :=
    (List.reverse_perm _).trans (List.perm_insertionSort _ _)
  have hkeys : (edits.insertionSort fun a b => keyLe b a).reverse.Pairwise keyLe :=
    List.pairwise_reverse.mpr (List.pairwise_insertionSort _ edits)
  set es := (edits.insertionSort fun a b => keyLe b a).reverse with hes
  have hforward : ∀ e ∈ es, (e.span (normalize text)).1 ≤ (e.span (normalize text)).2 :=
    fun e he => hapart.forward e (hperm.mem_iff.mp he)
  have hspans := (hperm.pairwise_iff fun h => Or.symm h).mpr hapart.apart
  have hclear := (hperm.pairwise_iff fun h => And.symm h).mpr hsteady.clear
  have hord : es.Pairwise fun a b => (a.span (normalize text)).2 ≤ (b.span (normalize text)).1 :=
    ((hspans.and hclear).and hkeys).imp_of_mem fun _ hb h =>
      span_of_keyLe (hforward _ hb) h.1.1 h.1.2.1 h.1.2.2 h.2
  have hloop : applyEditPlans text edits = replaceFrom (normalize text) 0 es := by
    have hfold := foldr_applyEdit hforward hord (fun e he => hsteady.reads e (hperm.mem_iff.mp he))
      (hclear.imp fun h => h.1) 0 (Nat.zero_le _) fun _ _ => Nat.zero_le _
    rw [List.take_zero, List.nil_append] at hfold
    rw [applyEditPlans, ← List.reverse_reverse (edits.insertionSort fun a b => keyLe b a), ← hes,
      foldl_applyEdit_reverse, hfold]
  have hsorted : es.Pairwise (spanLe (normalize text)) := hord.imp_of_mem fun {a b} ha hb h => by
    have := hforward a ha
    have := hforward b hb
    unfold spanLe
    omega
  have hsorted' := List.pairwise_insertionSort (spanLe (normalize text)) edits
  have hiff := replaceFrom_eq_iff _ es (edits.insertionSort (spanLe (normalize text))) 0 rfl
    (hperm.trans (List.perm_insertionSort _ _).symm) hsorted hsorted' hforward
  rw [hloop, replaced, hiff]
  have hspec : ∀ k, ofSpan (normalize text) (edits.insertionSort (spanLe (normalize text))) k =
      ofSpan (normalize text) edits k := by
    intro k
    refine filter_insertionSort _ edits _ (List.pairwise_of_forall_mem_list fun a ha b hb => ?_)
    have hak : a.span (normalize text) = k := by simpa using (List.mem_filter.mp ha).2
    have hbk : b.span (normalize text) = k := by simpa using (List.mem_filter.mp hb).2
    unfold spanLe
    rw [hak, hbk]
    exact Or.inr ⟨rfl, Nat.le_refl _⟩
  have hcode : ∀ k, ofSpan (normalize text) es k = (ofSpan (normalize text) edits k).reverse := by
    intro k
    have hstable := filter_insertionSort _ edits _ (keyLe_of_span hapart hsteady k)
    unfold ofSpan
    rw [hes, List.filter_reverse, hstable]
  have hjoined : ∀ i, joined (ofSpan (normalize text) edits (i, i)).reverse =
      (insertionsAt (normalize text) edits i).reverse.flatten := by
    intro i
    unfold joined insertionsAt
    rw [List.map_reverse]
  constructor
  · intro h i
    have := h (i, i)
    rw [hcode, hspec, hjoined] at this
    exact this
  · intro h k
    rw [hcode, hspec]
    by_cases hpoint : k.1 = k.2
    · obtain ⟨i, j⟩ := k
      obtain rfl : i = j := hpoint
      rw [hjoined, h]
      rfl
    · -- a range that is not empty is replaced once
      have hnone : (ofSpan (normalize text) edits k).Pairwise fun _ _ => False := by
        have hboth : edits.Pairwise fun a b => a.span (normalize text) = k → b.span (normalize text) = k → False :=
          hapart.apart.imp_of_mem fun {a b} ha _ h hak hbk => by
            have hforward := hapart.forward a ha
            rw [hak] at hforward
            rw [hak, hbk] at h
            omega
        refine (List.Pairwise.filter _ hboth).imp_of_mem fun ha hb h => ?_
        exact h (by simpa using (List.mem_filter.mp ha).2) (by simpa using (List.mem_filter.mp hb).2)
      rcases hgroup : ofSpan (normalize text) edits k with _ | ⟨e, _ | ⟨e', rest⟩⟩
      · rfl
      · rfl
      · rw [hgroup] at hnone
        exact ((List.pairwise_cons.mp hnone).1 e' List.mem_cons_self).elim

end Spans

/-! ## Ranges of whole lines -/

/-- The lines of a `SourceLocation`, from 1; 0 is what is not known. -/
structure SourceLines where
  line : Nat
  endLine : Nat
  deriving DecidableEq

/-- The first line of the range, from 0. -/
def SourceLines.first (loc : SourceLines) (startLineOverride : Option Nat) : Nat :=
  startLineOverride.getD ((if loc.line = 0 then 1 else loc.line) - 1)

/-- `end_line_1based` -/
def SourceLines.last (loc : SourceLines) (endLineOverride : Option Nat) : Nat :=
  endLineOverride.getD (if loc.endLine ≠ 0 then loc.endLine else if loc.line ≠ 0 then loc.line else 1)

/-- `_source_line_range`: the two ends, with the lines of the file. -/
def sourceLineRange (lines : List Line) (loc : SourceLines) (startLineOverride endLineOverride : Option Nat) :
    Position × Position :=
  let startLine := loc.first startLineOverride
  let endLine := max startLine (min (loc.last endLineOverride) lines.length)
  (⟨startLine, 0⟩, ⟨endLine, 0⟩)

/-- The text of an item lies on its lines. -/
structure OnLines (text : Line) (first last i j : Nat) : Prop where
  forward : i ≤ j
  inside : j ≤ text.length
  first : first ≤ (endOf (text.take i)).line
  last : (endOf (text.take j)).line + 1 = last

instance (text : Line) (first last i j : Nat) : Decidable (OnLines text first last i j) :=
  decidable_of_iff (i ≤ j ∧ j ≤ text.length ∧ first ≤ (endOf (text.take i)).line ∧
    (endOf (text.take j)).line + 1 = last)
    ⟨fun h => ⟨h.1, h.2.1, h.2.2.1, h.2.2.2⟩, fun h => ⟨h.forward, h.inside, h.first, h.last⟩⟩

/-- The range, as the edits read it, holds the text between the offsets. -/
def Covers (text : Line) (range : Position × Position) (i j : Nat) : Prop :=
  lspPositionToOffset text range.1 ≤ i ∧ j ≤ lspPositionToOffset text range.2

theorem character_eq_zero (s : Line) : (endOf s).character = 0 ↔ s = [] ∨ s.getLast? = some '\n' := by
  induction s using List.reverseRecOn with
  | nil => exact iff_of_true rfl (Or.inl rfl)
  | append_singleton s c _ =>
    rw [endOf_append_singleton, Position.advance, List.getLast?_concat]
    by_cases hc : c = '\n' <;> simp [hc]

/-- A text has as many lines as a part of it has, and one more if the part ends inside one. -/
theorem lines_of_append (s t : Line) (h : '\r' ∉ s) :
    s.count '\n' + (if s = [] ∨ s.getLast? = some '\n' then 0 else 1) ≤ (splitlines (s ++ t)).length := by
  induction s with
  | nil => exact Nat.zero_le _
  | cons c s ih =>
    have hrest := ih fun hmem => h (List.mem_cons_of_mem _ hmem)
    have hcr : (c == '\r') = false := by
      rw [beq_eq_false_iff_ne]
      exact fun heq => h (heq ▸ List.mem_cons_self)
    have hlast : (if c :: s = [] ∨ (c :: s).getLast? = some '\n' then 0 else 1) =
        if s = [] then (if c = '\n' then 0 else 1) else if s = [] ∨ s.getLast? = some '\n' then 0 else 1 := by
      by_cases hs : s = []
      · simp [hs]
      · rw [List.getLast?_cons_of_ne_nil hs]
        simp [hs]
    rw [hlast, List.cons_append, splitlines, hcr, Bool.false_and, Bool.not_false, Bool.and_true]
    by_cases hbreak : isLineBreak c = true
    · rw [if_pos hbreak, List.length_cons]
      by_cases hc : c = '\n'
      · rw [hc, List.count_cons_self]
        by_cases hs : s = []
        · simp [hs]
        · rw [if_neg hs]
          omega
      · rw [List.count_cons_of_ne hc]
        by_cases hs : s = []
        · simp [hs, hc]
        · rw [if_neg hs]
          omega
    · have hc : c ≠ '\n' := fun heq => hbreak (heq ▸ rfl)
      rw [if_neg hbreak, List.count_cons_of_ne hc]
      cases hlines : splitlines (s ++ t) with
      | nil =>
        have hempty := flatten_splitlines (s ++ t)
        rw [hlines] at hempty
        rw [(List.append_eq_nil_iff.mp hempty.symm).1]
        simp [hc]
      | cons l ls =>
        rw [hlines, List.length_cons] at hrest
        by_cases hs : s = []
        · simp [hs, hc]
        · rw [if_neg hs, List.length_cons]
          exact hrest

theorem lines_of_take {text : Line} (h : '\r' ∉ text) (j : Nat) :
    (endOf (text.take j)).line + (if (endOf (text.take j)).character = 0 then 0 else 1) ≤ (splitlines text).length := by
  have hlines := lines_of_append (text.take j) (text.drop j) fun hmem => h (List.mem_of_mem_take hmem)
  rw [List.take_append_drop, ← endOf_line] at hlines
  simp only [character_eq_zero]
  exact hlines

/-- Where the line exists the loop reads a position where it is clamped. -/
theorem lspPositionToOffset_eq {text : Line} {p : Position} (h : p.line ≤ (endOf text).line) :
    lspPositionToOffset text p = clampedOffset text p := by
  by_cases hdenotes : Denotes text p (clampedOffset text p)
  · exact lspPositionToOffset_of_denotes hdenotes
  · rcases overhangs hdenotes with ⟨hline, hchar, hend⟩ | hend
    · exact lspPositionToOffset_of_overhangs (clampedOffset_le text p) hline hchar hend
    · have hle := endOf_clampedOffset text p
      rw [hend, List.take_length, Position.le_def] at hle
      have hne : endOf text ≠ p := fun heq => hdenotes ⟨clampedOffset_le text p, by rw [hend, List.take_length, heq]⟩
      have hline : (endOf text).line = p.line := by omega
      have hchar : (endOf text).character ≠ p.character := fun heq => hne (by
        obtain ⟨l, k⟩ := p
        exact congrArg₂ Position.mk hline heq)
      rw [hend]
      exact lspPositionToOffset_of_overhangs (Nat.le_refl _) (by rw [List.take_length, hline])
        (by rw [List.take_length]; omega) (Or.inl rfl)

/-- The start of a line past the text is read as the start of the last line. -/
theorem lspPositionToOffset_past {text : Line} {l : Nat} (h : (endOf text).line < l) :
    lspPositionToOffset text ⟨l, 0⟩ = lspPositionToOffset text ⟨(endOf text).line, 0⟩ := by
  obtain ⟨hlen, -, -⟩ := lineOffsets_last text
  unfold lspPositionToOffset
  dsimp only
  rw [show min l ((lineOffsets text).length - 1) = min (endOf text).line ((lineOffsets text).length - 1) by omega]

/-- A range of whole lines holds the text of the item exactly if this does not end inside the last line of the text. -/
theorem covers_iff {text : Line} (h : '\r' ∉ text) {loc : SourceLines} {startLineOverride endLineOverride : Option Nat}
    {i j : Nat} (hitem : OnLines text (loc.first startLineOverride) (loc.last endLineOverride) i j) :
    Covers text (sourceLineRange (splitlines text) loc startLineOverride endLineOverride) i j ↔
      (endOf (text.take j)).line < (endOf text).line ∨ (endOf (text.take j)).character = 0 := by
  obtain ⟨hij, hj, hfirst, hlast⟩ := hitem
  have hdi : Denotes text (endOf (text.take i)) i := ⟨by omega, rfl⟩
  have hdj : Denotes text (endOf (text.take j)) j := ⟨hj, rfl⟩
  have hde : Denotes text (endOf text) text.length := ⟨Nat.le_refl _, by rw [List.take_length]⟩
  have hpos := (hdi.le_iff hdj).mpr hij
  have hend := (hdj.le_iff hde).mpr hj
  have hlines := lines_of_take h j
  rw [Position.le_def] at hpos hend
  unfold Covers sourceLineRange
  dsimp only
  set first := loc.first startLineOverride with hfirstLine
  set last := loc.last endLineOverride with hlastLine
  have hstart : lspPositionToOffset text ⟨first, 0⟩ ≤ i := by
    rw [lspPositionToOffset_eq (by dsimp only; omega), ← clampedOffset_of_denotes hdi]
    apply clampedOffset_mono
    rw [Position.le_def]
    dsimp only
    omega
  rw [and_iff_right hstart]
  set stop := max first (min last (splitlines text).length) with hstop
  have hreach : ∀ l, l ≤ (endOf text).line → endOf (text.take j) ≤ ⟨l, 0⟩ → j ≤ lspPositionToOffset text ⟨l, 0⟩ := by
    intro l hl hle
    rw [lspPositionToOffset_eq hl, ← clampedOffset_of_denotes hdj]
    exact clampedOffset_mono hle
  by_cases hinner : (endOf (text.take j)).line < (endOf text).line
  · refine iff_of_true (hreach stop (by omega) ?_) (Or.inl hinner)
    rw [Position.le_def]
    dsimp only
    split at hlines <;> omega
  · rw [or_iff_right hinner]
    have hpast : lspPositionToOffset text ⟨stop, 0⟩ = lspPositionToOffset text ⟨(endOf text).line, 0⟩ := by
      by_cases hle : stop ≤ (endOf text).line
      · have heq : stop = (endOf text).line := by split at hlines <;> omega
        rw [heq]
      · exact lspPositionToOffset_past (Nat.lt_of_not_le hle)
    rw [hpast]
    constructor
    · intro hle
      have hself : lspPositionToOffset text ⟨(endOf text).line, 0⟩ = clampedOffset text ⟨(endOf text).line, 0⟩ :=
        lspPositionToOffset_eq (Nat.le_refl _)
      rw [hself, ← clampedOffset_of_denotes hdj] at hle
      by_contra hne
      -- the item ends after the start of the last line
      have hlt : (⟨(endOf text).line, 0⟩ : Position) ≤ endOf (text.take j) := by
        rw [Position.le_def]
        dsimp only
        omega
      have heq := Nat.le_antisymm hle (clampedOffset_mono hlt)
      have hback := endOf_clampedOffset text ⟨(endOf text).line, 0⟩
      rw [← heq, clampedOffset_of_denotes hdj, Position.le_def] at hback
      dsimp only at hback
      omega
    · intro hzero
      refine hreach _ (Nat.le_refl _) ?_
      rw [Position.le_def]
      dsimp only
      omega

instance (text : Line) (edits : List TextEditPlan) : Decidable (ApartSpans text edits) :=
  decidable_of_iff ((∀ e ∈ edits, (e.span text).1 ≤ (e.span text).2) ∧
    edits.Pairwise fun a b => (a.span text).2 ≤ (b.span text).1 ∨ (b.span text).2 ≤ (a.span text).1)
    ⟨fun h => ⟨h.1, h.2⟩, fun h => ⟨h.forward, h.apart⟩⟩

instance (text : Line) (edits : List TextEditPlan) : Decidable (Steady text edits) :=
  decidable_of_iff ((∀ e ∈ edits, ∀ p ∈ [e.start, e.stop], lspPositionToOffset text p = clampedOffset text p) ∧
    edits.Pairwise fun a b => Clear text a b ∧ Clear text b a)
    ⟨fun h => ⟨h.1, h.2⟩, fun h => ⟨h.reads, h.clear⟩⟩

/-- A replacement, with an insertion at its start and one past the end of the next line. -/
def letterEdits : List TextEditPlan :=
  [⟨"t.v", ⟨0, 1⟩, ⟨0, 2⟩, ['X'], []⟩, ⟨"t.v", ⟨1, 9⟩, ⟨1, 9⟩, ['Z'], []⟩, ⟨"t.v", ⟨0, 1⟩, ⟨0, 1⟩, ['Y'], []⟩]

end Veriforge.Refactor

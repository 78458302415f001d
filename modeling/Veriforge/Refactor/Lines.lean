import Veriforge.Refactor.TextEdit

/-! # Lines and positions

`str.splitlines` has more line breaks than the positions of an edit. In a text without the others both count the
same lines. -/

namespace Veriforge.Refactor

theorem flatten_splitlines (text : Line) : (splitlines text).flatten = text := by
  induction text with
  | nil => rfl
  | cons c cs ih =>
    rw [splitlines]
    split
    · rw [List.flatten_cons, ih]
      rfl
    · split
      · next h =>
        rw [h] at ih
        rw [← ih]
        rfl
      · next l ls h =>
        rw [h] at ih
        rw [← ih]
        rfl

/-- The offset where the first `k` lines end. -/
def linesLength (text : Line) (k : Nat) : Nat := ((splitlines text).take k).flatten.length

theorem take_linesLength (text : Line) (k : Nat) :
    ((splitlines text).take k).flatten = text.take (linesLength text k) ∧
      ((splitlines text).drop k).flatten = text.drop (linesLength text k) := by
  have hsplit : text = ((splitlines text).take k).flatten ++ ((splitlines text).drop k).flatten := by
    rw [← List.flatten_append, List.take_append_drop, flatten_splitlines]
  have htake := congrArg (List.take (linesLength text k)) hsplit
  have hdrop := congrArg (List.drop (linesLength text k)) hsplit
  rw [linesLength, List.take_left] at htake
  rw [linesLength, List.drop_left] at hdrop
  exact ⟨htake.symm, hdrop.symm⟩

theorem linesLength_mono (text : Line) {a b : Nat} (h : a ≤ b) : linesLength text a ≤ linesLength text b := by
  have hcut : (splitlines text).take b = (splitlines text).take a ++ ((splitlines text).take b).drop a := by
    conv_lhs => rw [← List.take_append_drop a ((splitlines text).take b), List.take_take, Nat.min_eq_left h]
  rw [linesLength, linesLength, hcut, List.flatten_append, List.length_append]
  omega

theorem linesLength_le (text : Line) (k : Nat) : linesLength text k ≤ text.length := by
  have h := congrArg List.length (take_linesLength text k).1
  rw [List.length_take] at h
  change linesLength text k = _ at h
  omega

/-- The lines from one to another are the text between their offsets. -/
theorem slice_linesLength (text : Line) {a b : Nat} (h : a ≤ b) :
    (((splitlines text).take b).drop a).flatten = slice text (linesLength text a) (linesLength text b) := by
  have hcut : ((splitlines text).take b).flatten =
      ((splitlines text).take a).flatten ++ (((splitlines text).take b).drop a).flatten := by
    rw [← List.flatten_append]
    congr 1
    conv_lhs => rw [← List.take_append_drop a ((splitlines text).take b), List.take_take, Nat.min_eq_left h]
  rw [slice, ← (take_linesLength text b).1, hcut]
  exact List.drop_left.symm

/-- The edit's range starts where its first line starts and ends where its last line ends. -/
structure WholeLines (text : Line) (edit : TextEditPlan) : Prop where
  start : Denotes text edit.start (linesLength text edit.start.line)
  stop : Denotes text edit.stop (linesLength text (edit.stop.line + 1))
  forward : edit.start ≤ edit.stop

/-- `\n` is the only line break of the text. -/
def Plain (text : Line) : Prop := ∀ c ∈ text, isLineBreak c = true → c = '\n'

/-- What a text without other line breaks is split into, character by character. -/
theorem linesLength_cons {c : Char} {cs : Line} (h : isLineBreak c = true → c = '\n') (k : Nat) :
    linesLength (c :: cs) (k + 1) =
      if c = '\n' then 1 + linesLength cs k else if splitlines cs = [] then 1 else 1 + linesLength cs (k + 1) := by
  rw [linesLength, splitlines]
  by_cases hc : c = '\n'
  · subst hc
    have hbreak : (isLineBreak '\n' && !('\n' == '\r' && cs.head? == some '\n')) = true := rfl
    rw [if_pos rfl, if_pos hbreak, List.take_succ_cons, List.flatten_cons, List.length_append]
    rfl
  · have hbreak : isLineBreak c = false := Bool.eq_false_iff.mpr fun hb => hc (h hb)
    rw [if_neg hc, hbreak, Bool.false_and, if_neg Bool.false_ne_true]
    cases hls : splitlines cs with
    | nil => simp
    | cons l ls =>
      rw [if_neg (List.cons_ne_nil _ _), linesLength, hls]
      simp only [List.take_succ_cons, List.flatten_cons, List.length_append, List.length_cons]
      omega

/-- The end of a part of the text lies in the line it is said to be in. -/
theorem linesLength_count {s t : Line} (h : Plain (s ++ t)) :
    linesLength (s ++ t) (s.count '\n') ≤ s.length ∧ s.length ≤ linesLength (s ++ t) (s.count '\n' + 1) := by
  induction s with
  | nil => exact ⟨Nat.le_refl 0, Nat.zero_le _⟩
  | cons c s ih =>
    have hplain : Plain (s ++ t) := fun c' hc' => h c' (List.mem_cons_of_mem _ hc')
    have hc := h c List.mem_cons_self
    obtain ⟨hlow, hhigh⟩ := ih hplain
    have hempty : splitlines (s ++ t) = [] → s.length = 0 := by
      intro hnil
      have := flatten_splitlines (s ++ t)
      rw [hnil] at this
      rw [(List.append_eq_nil_iff.mp this.symm).1, List.length_nil]
    rw [List.cons_append, List.length_cons, linesLength_cons hc]
    by_cases hcn : c = '\n'
    · subst hcn
      rw [List.count_cons_self, if_pos rfl, linesLength_cons hc, if_pos rfl]
      omega
    · rw [List.count_cons_of_ne hcn, if_neg hcn]
      constructor
      · cases hk : s.count '\n' with
        | zero => exact Nat.zero_le _
        | succ k =>
          rw [linesLength_cons hc, if_neg hcn]
          rw [hk] at hlow
          split <;> omega
      · split
        · next hnil => rw [hempty hnil]
        · omega

theorem linesLength_of_denotes {text : Line} (h : Plain text) {p : Position} {i : Nat} (hp : Denotes text p i) :
    linesLength text p.line ≤ i ∧ i ≤ linesLength text (p.line + 1) := by
  have hcount := linesLength_count (s := text.take i) (t := text.drop i) (by rwa [List.take_append_drop])
  rwa [List.take_append_drop, ← endOf_line, hp.2, List.length_take, Nat.min_eq_left hp.1] at hcount

end Veriforge.Refactor

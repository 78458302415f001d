import Mathlib.Data.List.SplitBy
import Veriforge.Preprocessor.Expand

/-! # Replacing texts and substituting identifiers

Parameters are replaced one after the other wherever their text is found. Where that text is found at identifiers of
the body only, the result is the simultaneous substitution. -/

namespace Veriforge

/-! ## Replacement in a text of tokens -/

/-- The text is found among tokens, each put through a function, at such tokens only that are the text itself and
are not changed by the function. -/
def FoundAtTokens (f : Line → Line) (tokens : List Line) (p : Line) : Prop :=
  ∀ k < (tokens.flatMap f).length, p <+: (tokens.flatMap f).drop k →
    f p = p ∧ ∃ j < tokens.length, tokens[j]? = some p ∧ ((tokens.take j).flatMap f).length = k

instance (f : Line → Line) (tokens : List Line) (p : Line) : Decidable (FoundAtTokens f tokens p) :=
  inferInstanceAs (Decidable (∀ k < (tokens.flatMap f).length, p <+: (tokens.flatMap f).drop k →
    f p = p ∧ ∃ j < tokens.length, tokens[j]? = some p ∧ ((tokens.take j).flatMap f).length = k))

theorem FoundAtTokens.tail {f : Line → Line} {t : Line} {tokens : List Line} {p : Line}
    (h : FoundAtTokens f (t :: tokens) p) (hp : p ≠ []) : FoundAtTokens f tokens p := by
  intro k hk hpre
  have hdrop : ((t :: tokens).flatMap f).drop ((f t).length + k) = (tokens.flatMap f).drop k := by
    rw [List.flatMap_cons, ← List.drop_drop, List.drop_left]
  obtain ⟨hfp, j, hj, htok, hlen⟩ := h ((f t).length + k)
    (by rw [List.flatMap_cons, List.length_append]; omega) (by rw [hdrop]; exact hpre)
  refine ⟨hfp, ?_⟩
  cases j with
  | zero =>
    -- the first token would be the text, and nothing of it would be left
    rw [List.take_zero, List.flatMap_nil, List.length_nil] at hlen
    rw [List.getElem?_cons_zero, Option.some.injEq] at htok
    rw [← htok, List.length_eq_zero_iff.mp (show (f t).length = 0 by omega)] at hfp
    exact absurd (htok.symm.trans hfp.symm) hp
  | succ j =>
    rw [List.take_succ_cons, List.flatMap_cons, List.length_append] at hlen
    rw [List.length_cons] at hj
    exact ⟨j, by omega, by rwa [List.getElem?_cons_succ] at htok, by omega⟩

/-- A text that is found at tokens only is replaced there. -/
theorem replaceAll_tokens {f : Line → Line} {tokens : List Line} {p : Line} (a : Line) (hp : p ≠ [])
    (h : FoundAtTokens f tokens p) :
    replaceAll p a (tokens.flatMap f) = tokens.flatMap fun t => if t = p ∧ f p = p then a else f t := by
  rw [replaceAll, dif_neg hp]
  induction tokens with
  | nil => rfl
  | cons t tokens ih =>
    rw [List.flatMap_cons, List.flatMap_cons, Pattern.sub]
    by_cases ht : t = p ∧ f p = p
    · -- the token is a match
      obtain ⟨rfl, hf⟩ := ht
      have hfind : (Pattern.literal t hp).find (t ++ tokens.flatMap f) = some t :=
        if_pos (List.isPrefixOf_iff_prefix.mpr (List.prefix_append _ _))
      have hrest := ih (h.tail hp)
      rw [hf] at hrest
      rw [if_pos ⟨rfl, hf⟩, hf, Pattern.cut_found hfind, List.flatMap_cons, ← hrest]
      rfl
    · -- no match starts in what stands for the token
      have hnone : ∀ u v, f t = u ++ v → v ≠ [] → (Pattern.literal p hp).find (v ++ tokens.flatMap f) = none := by
        intro u v huv hv
        refine if_neg ?_
        rw [List.isPrefixOf_iff_prefix]
        intro hpre
        have hvpos := List.length_pos_iff.mpr hv
        have hdrop : ((t :: tokens).flatMap f).drop u.length = v ++ tokens.flatMap f := by
          rw [List.flatMap_cons, huv, List.append_assoc, List.drop_left]
        have hk : u.length < ((t :: tokens).flatMap f).length := by
          rw [List.flatMap_cons, huv, List.length_append, List.length_append]
          omega
        obtain ⟨hfp, j, -, htok, hlen⟩ := h u.length hk (by rw [hdrop]; exact hpre)
        cases j with
        | zero =>
          rw [List.getElem?_cons_zero, Option.some.injEq] at htok
          exact ht ⟨htok, hfp⟩
        | succ j =>
          rw [List.take_succ_cons, List.flatMap_cons, List.length_append, huv, List.length_append] at hlen
          omega
      rw [if_neg ht, Pattern.cut_chars hnone, replace_map_char, ← ih (h.tail hp)]
      rfl

namespace Preprocessor

/-! ## Simultaneous substitution -/

/-- The identifiers of a text, and the characters between them. -/
def identifiers (s : Line) : List Line := s.splitBy fun a b => isWord a && isWord b

/-- The argument for an identifier, if it is a parameter. -/
def substIdent (pairs : List (Line × Line)) (t : Line) : Line :=
  if t.all isWord then (pairs.lookup t).getD t else t

/-- Every whole identifier that is a parameter becomes its argument, all at once. -/
def substitute (params args : List Line) (body : Line) : Line :=
  (identifiers body).flatMap (substIdent (params.zip args))

theorem flatten_identifiers (s : Line) : (identifiers s).flatten = s := List.flatten_splitBy _ _

/-- Each parameter, when its turn comes, is found at identifiers of the body only, and one that is there twice is not
found again. -/
def CaptureFree (tokens : List Line) : List (Line × Line) → List (Line × Line) → Prop
  | _, [] => True
  | earlier, (p, a) :: rest =>
      p ≠ [] ∧ (p ∈ tokens → p.all isWord = true) ∧ (p ∈ earlier.map Prod.fst → substIdent earlier p ≠ p) ∧
        FoundAtTokens (substIdent earlier) tokens p ∧ CaptureFree tokens (earlier ++ [(p, a)]) rest

theorem lookup_append_singleton (pairs : List (Line × Line)) (p a t : Line) :
    (pairs ++ [(p, a)]).lookup t = (pairs.lookup t).or (if t = p then some a else none) := by
  induction pairs with
  | nil =>
    rw [List.nil_append, List.lookup_cons]
    by_cases h : t = p
    · rw [beq_iff_eq.mpr h, if_pos h]
      rfl
    · rw [beq_false_of_ne h, if_neg h]
      rfl
  | cons q pairs ih =>
    rw [List.cons_append, List.lookup_cons, List.lookup_cons, ih]
    cases t == q.1 <;> rfl

theorem mem_of_lookup {pairs : List (Line × Line)} {t b : Line} (h : pairs.lookup t = some b) :
    t ∈ pairs.map Prod.fst := by
  induction pairs with
  | nil => cases h
  | cons q pairs ih =>
    rw [List.lookup_cons] at h
    by_cases hq : t = q.1
    · rw [hq]
      exact List.mem_cons_self
    · rw [beq_false_of_ne hq] at h
      exact List.mem_cons_of_mem _ (ih h)

/-- One more parameter substituted at an identifier of the body. -/
theorem substIdent_append {earlier : List (Line × Line)} {p t : Line} (a : Line)
    (hword : t = p → p.all isWord = true) (htwice : p ∈ earlier.map Prod.fst → substIdent earlier p ≠ p) :
    substIdent (earlier ++ [(p, a)]) t
      = if t = p ∧ substIdent earlier p = p then a else substIdent earlier t := by
  by_cases ht : t = p
  · subst ht
    have hw := hword rfl
    rw [substIdent, substIdent, if_pos hw, if_pos hw, lookup_append_singleton, if_pos rfl]
    cases hl : earlier.lookup t with
    | none => exact (if_pos ⟨rfl, rfl⟩).symm
    | some b =>
      have hne := htwice (mem_of_lookup hl)
      rw [substIdent, if_pos hw, hl] at hne
      exact (if_neg fun h => hne h.2).symm
  · rw [if_neg fun h => ht h.1, substIdent, substIdent, lookup_append_singleton, if_neg ht, Option.or_none]

theorem foldl_replaceAll {tokens : List Line} {earlier rest : List (Line × Line)}
    (h : CaptureFree tokens earlier rest) :
    rest.foldl (fun text pa => replaceAll pa.1 pa.2 text) (tokens.flatMap (substIdent earlier))
      = tokens.flatMap (substIdent (earlier ++ rest)) := by
  induction rest generalizing earlier with
  | nil => rw [List.append_nil]; rfl
  | cons pa rest ih =>
    obtain ⟨p, a⟩ := pa
    obtain ⟨hp, hword, htwice, hfound, hrest⟩ := h
    have hstep : (tokens.flatMap fun t => if t = p ∧ substIdent earlier p = p then a else substIdent earlier t)
        = tokens.flatMap (substIdent (earlier ++ [(p, a)])) := by
      refine List.flatMap_congr fun t ht => ?_
      rw [substIdent_append a (fun he => hword (he ▸ ht)) htwice]
    rw [List.foldl_cons, replaceAll_tokens a hp hfound, hstep, ih hrest, List.append_assoc, List.singleton_append]

/-- Without capture the replacements are the simultaneous substitution. -/
theorem replaceParams_eq {params args : List Line} {body : Line}
    (h : CaptureFree (identifiers body) [] (params.zip args)) :
    replaceParams params args body = substitute params args body := by
  have hbody : (identifiers body).flatMap (substIdent []) = body := by
    conv_rhs => rw [← flatten_identifiers body]
    rw [List.flatMap_def]
    refine congrArg List.flatten ?_
    conv_rhs => rw [← List.map_id (identifiers body)]
    refine List.map_congr_left fun t _ => ?_
    exact ite_self _
  have hfold := foldl_replaceAll h
  rw [hbody, List.nil_append] at hfold
  exact hfold

end Preprocessor

end Veriforge

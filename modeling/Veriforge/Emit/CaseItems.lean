import Veriforge.Emit.Respell
import Veriforge.Exec.Executor

/-! # Case items written in another way

`_respell_case_items` (`codegen/verilog_emitter.py`): neighbours with one text are merged, and a value of an earlier
item is put among those of a later one, where it never matches first. -/

namespace Veriforge

/-- `CaseItem.body`. -/
def CaseItem.body : CaseItem → Option Stmt
  | .mk _ _ body => body

namespace Emit

open Exec

/-! ## The items that a selection takes -/

/-- The item is not the default, and one of its values matches. -/
def isHit (hits : Expr → Bool) (item : CaseItem) : Bool := !item.isDefault && item.values.any hits

/-- First-match selection: the first item with a value that matches, and the default where no item has one. -/
def selected (hits : Expr → Bool) (items : List CaseItem) : Option CaseItem :=
  (items.find? (isHit hits)).or (items.find? CaseItem.isDefault)

section

variable {ρ : Type} (rng : Rng ρ) (text : Option Stmt → String)

/-- The loop's variables: `out`, `earlier` and `prev_body`, and the state of the generator. -/
structure Respelled (ρ : Type) where
  out : List CaseItem
  earlier : List Expr
  prevBody : Option String
  s : ρ

/-- `values.insert(rng.randint(0, len(values)), rng.choice(earlier))` -/
def insertEarlier (earlier values : List Expr) (s : ρ) : List Expr × ρ :=
  if earlier = [] then (values, s)
  else
    let (dead, s) := rng.below 40 s
    if dead then
      let (i, s) := rng.randrange (values.length + 1) s
      let (j, s) := rng.randrange earlier.length s
      ((earlier[j]?).elim values fun e => values.insertIdx i e, s)
    else (values, s)

/-- Whether the item is merged with the one written last. -/
def merges (prevBody : Option String) (body : String) (s : ρ) : Bool × ρ :=
  if prevBody = some body then rng.below 80 s else (false, s)

/-- `out[-1] = CaseItem(out[-1].values + values, body)` -/
def mergeLast (out : List CaseItem) (values : List Expr) (body : Option Stmt) : List CaseItem :=
  match out.getLast? with
  | some last => out.dropLast ++ [.mk false (last.values ++ values) body]
  | none => []

/-- One item of the loop; `text` is what a body is written as, of no body the empty text. -/
def respellCaseItem (st : Respelled ρ) (item : CaseItem) : Respelled ρ :=
  if item.isDefault then { st with out := st.out ++ [item], prevBody := none }
  else
    let (values, s) := insertEarlier rng st.earlier item.values st.s
    let (merge, s) := merges rng st.prevBody (text item.body) s
    { out := if merge then mergeLast st.out values item.body else st.out ++ [.mk false values item.body]
      earlier := st.earlier ++ item.values
      prevBody := some (text item.body)
      s := s }

/-- `_respell_case_items` -/
def respellCaseItems (items : List CaseItem) (s : ρ) : List CaseItem × ρ :=
  let st := items.foldl (respellCaseItem rng text) ⟨[], [], none, s⟩
  (st.out, st.s)

end

/-! ## The invariant of the loop -/

section

variable {ρ : Type} {rng : Rng ρ} {text : Option Stmt → String} {hits : Expr → Bool}

/-- What holds of the loop's variables after the items `done`: the same text is selected, an earlier value that
matches has been met, and what was written last can be merged with. -/
structure Keeps (text : Option Stmt → String) (hits : Expr → Bool) (done : List CaseItem) (st : Respelled ρ) :
    Prop where
  hit : (st.out.find? (isHit hits)).map (text ∘ CaseItem.body) =
    (done.find? (isHit hits)).map (text ∘ CaseItem.body)
  default : st.out.find? CaseItem.isDefault = done.find? CaseItem.isDefault
  earlier : done.find? (isHit hits) = none → ∀ e ∈ st.earlier, hits e = false
  last : ∀ body, st.prevBody = some body →
    ∃ before last, st.out = before ++ [last] ∧ last.isDefault = false ∧ text last.body = body

theorem any_insertIdx {e : Expr} (h : hits e = false) (values : List Expr) (i : Nat) :
    (values.insertIdx i e).any hits = values.any hits := by
  rw [Bool.eq_iff_iff, List.any_eq_true, List.any_eq_true]
  constructor
  · rintro ⟨e', hmem, hhit⟩
    rcases List.eq_or_mem_of_mem_insertIdx hmem with rfl | hmem
    · rw [h] at hhit
      cases hhit
    · exact ⟨e', hmem, hhit⟩
  · rintro ⟨e', hmem, hhit⟩
    exact ⟨e', List.subset_insertIdx values i e hmem, hhit⟩

/-- A value that does not match may be put anywhere. -/
theorem any_insertEarlier {earlier : List Expr} (h : ∀ e ∈ earlier, hits e = false) (values : List Expr) (s : ρ) :
    (insertEarlier rng earlier values s).1.any hits = values.any hits := by
  rw [insertEarlier]
  split
  · rfl
  dsimp only
  split
  · generalize (rng.randrange (values.length + 1) _).1 = i
    generalize (rng.randrange earlier.length _).1 = j
    cases hj : earlier[j]? with
    | none => rfl
    | some e => exact any_insertIdx (h e (List.mem_of_getElem? hj)) values i
  · rfl

theorem find?_append_singleton (p : CaseItem → Bool) (items : List CaseItem) (item : CaseItem) :
    (items ++ [item]).find? p = (items.find? p).or (if p item = true then some item else none) := by
  rw [List.find?_append, List.find?_singleton]

theorem isHit_mk (values : List Expr) (body : Option Stmt) : isHit hits (.mk false values body) = values.any hits := rfl

theorem isHit_of_isDefault {item : CaseItem} (h : item.isDefault = true) : isHit hits item = false := by
  rw [isHit, h]
  rfl

theorem isHit_of_not_default {item : CaseItem} (h : item.isDefault = false) :
    isHit hits item = item.values.any hits := by
  rw [isHit, h]
  rfl

theorem merges_eq_true {prevBody : Option String} {body : String} {s : ρ} (h : (merges rng prevBody body s).1 = true) :
    prevBody = some body := by
  rw [merges] at h
  split at h
  · assumption
  · cases h

/-- A default is written as it stands. -/
theorem Keeps.default_item {done : List CaseItem} {st : Respelled ρ} (h : Keeps text hits done st) {item : CaseItem}
    (hitem : item.isDefault = true) :
    Keeps text hits (done ++ [item]) { st with out := st.out ++ [item], prevBody := none } where
  hit := by
    show ((st.out ++ [item]).find? _).map _ = _
    rw [find?_append_singleton, find?_append_singleton, isHit_of_isDefault hitem, if_neg Bool.false_ne_true,
      Option.or_none, Option.or_none]
    exact h.hit
  default := by
    show (st.out ++ [item]).find? _ = _
    rw [find?_append_singleton, find?_append_singleton, h.default]
  earlier hdone := by
    rw [find?_append_singleton, Option.or_eq_none_iff] at hdone
    exact h.earlier hdone.1
  last body hbody := by cases hbody

/-- The item that a new one becomes, behind the items written before, selects the text that the new one does. -/
theorem hit_append {done before : List CaseItem} {item item' : CaseItem} (last : Option CaseItem)
    (hdone : ((before ++ last.toList).find? (isHit hits)).map (text ∘ CaseItem.body) =
      (done.find? (isHit hits)).map (text ∘ CaseItem.body))
    (hbody : text item'.body = text item.body) (hlast : ∀ l ∈ last, text l.body = text item.body)
    (hhit : ∀ l ∈ last, isHit hits l = true → isHit hits item' = true)
    (hnew : done.find? (isHit hits) = none → isHit hits item' = isHit hits item) :
    ((before ++ [item']).find? (isHit hits)).map (text ∘ CaseItem.body) =
      ((done ++ [item]).find? (isHit hits)).map (text ∘ CaseItem.body) := by
  rw [find?_append_singleton, find?_append_singleton]
  rw [List.find?_append] at hdone
  cases hbefore : before.find? (isHit hits) with
  | some i =>
    -- an item written before the last is selected
    rw [hbefore, Option.some_or, Option.map_some] at hdone
    obtain ⟨j, hj, hij⟩ := Option.map_eq_some_iff.mp hdone.symm
    rw [hj, Option.some_or, Option.some_or, Option.map_some, Option.map_some, hij]
  | none =>
    rw [hbefore, Option.none_or] at hdone
    rw [Option.none_or]
    cases hd : done.find? (isHit hits) with
    | some j =>
      -- the last item is
      rw [hd, Option.map_some] at hdone
      obtain ⟨l, hl, hlj⟩ := Option.map_eq_some_iff.mp hdone
      have hmem : l ∈ last := by
        have := List.mem_of_find?_eq_some hl
        rwa [Option.mem_toList] at this
      rw [if_pos (hhit l hmem (List.find?_some hl)), Option.some_or, Option.map_some, Option.map_some, ← hlj]
      exact congrArg some (hbody.trans (hlast l hmem).symm)
    | none =>
      rw [hnew hd, Option.none_or]
      split
      · exact congrArg some hbody
      · rfl

/-- One item keeps the invariant. -/
theorem Keeps.step {done : List CaseItem} {st : Respelled ρ} (h : Keeps text hits done st) (item : CaseItem) :
    Keeps text hits (done ++ [item]) (respellCaseItem rng text st item) := by
  rw [respellCaseItem]
  split
  · exact h.default_item ‹_›
  next hitem =>
  rw [Bool.not_eq_true] at hitem
  dsimp only
  have hvalues : done.find? (isHit hits) = none →
      (insertEarlier rng st.earlier item.values st.s).1.any hits = item.values.any hits :=
    fun hdone => any_insertEarlier (h.earlier hdone) item.values st.s
  generalize (insertEarlier rng st.earlier item.values st.s) = inserted at hvalues ⊢
  obtain ⟨values, s⟩ := inserted
  dsimp only at hvalues ⊢
  have hearlier : (done ++ [item]).find? (isHit hits) = none → ∀ e ∈ st.earlier ++ item.values, hits e = false := by
    intro hnone e he
    rw [find?_append_singleton, Option.or_eq_none_iff, isHit_of_not_default hitem] at hnone
    rcases List.mem_append.mp he with he | he
    · exact h.earlier hnone.1 e he
    · cases hhit : hits e with
      | false => rfl
      | true =>
        have hany : item.values.any hits = true := List.any_eq_true.mpr ⟨e, he, hhit⟩
        rw [if_pos hany] at hnone
        cases hnone.2
  have hdefault : ∀ (items : List CaseItem) (i : CaseItem), i.isDefault = false →
      (items ++ [i]).find? CaseItem.isDefault = items.find? CaseItem.isDefault := by
    intro items i hi
    rw [find?_append_singleton, hi, if_neg Bool.false_ne_true, Option.or_none]
  by_cases hmerge : (merges rng st.prevBody (text item.body) s).1 = true
  · -- merged with the item written last, which has the same text
    obtain ⟨before, last, hout, hlast, hbody⟩ := h.last _ (merges_eq_true hmerge)
    have hmerged : mergeLast st.out values item.body = before ++ [.mk false (last.values ++ values) item.body] := by
      rw [mergeLast, hout, List.getLast?_concat, List.dropLast_concat]
    rw [if_pos hmerge, hmerged]
    refine ⟨?_, ?_, hearlier, ?_⟩
    · have hhit := h.hit
      rw [hout] at hhit
      refine hit_append (some last) hhit rfl ?_ ?_ ?_
      · rintro l ⟨⟩
        exact hbody
      · rintro l ⟨⟩ hl
        rw [isHit_of_not_default hlast] at hl
        rw [isHit_mk, List.any_append, hl, Bool.true_or]
      · intro hdone
        have hnone := h.hit
        rw [hdone, Option.map_none, Option.map_eq_none_iff, hout, find?_append_singleton, Option.or_eq_none_iff,
          isHit_of_not_default hlast] at hnone
        have hmiss : last.values.any hits = false := by
          by_contra hl
          rw [Bool.not_eq_false] at hl
          rw [if_pos hl] at hnone
          cases hnone.2
        rw [isHit_mk, List.any_append, hmiss, Bool.false_or, hvalues hdone, isHit_of_not_default hitem]
    · have hold := h.default
      rw [hout, hdefault _ _ hlast] at hold
      rw [hdefault _ _ rfl, hdefault _ _ hitem]
      exact hold
    · rintro body ⟨⟩
      exact ⟨before, _, rfl, rfl, rfl⟩
  · rw [if_neg hmerge]
    refine ⟨?_, ?_, hearlier, ?_⟩
    · refine hit_append none (by rw [Option.toList_none, List.append_nil]; exact h.hit) rfl ?_ ?_ ?_
      · rintro l ⟨⟩
      · rintro l ⟨⟩
      · intro hdone
        rw [isHit_mk, hvalues hdone, isHit_of_not_default hitem]
    · show (st.out ++ [_]).find? _ = _
      rw [hdefault _ _ rfl, hdefault _ _ hitem]
      exact h.default
    · rintro body ⟨⟩
      exact ⟨st.out, _, rfl, rfl, rfl⟩

theorem Keeps.foldl {items done : List CaseItem} {st : Respelled ρ} (h : Keeps text hits done st) :
    Keeps text hits (done ++ items) (items.foldl (respellCaseItem rng text) st) := by
  induction items generalizing done st with
  | nil => rwa [List.append_nil]
  | cons item items ih =>
    rw [List.append_cons]
    exact ih (h.step item)

/-- The items written select a body with the text of the body that the items given select. -/
theorem selected_respellCaseItems (items : List CaseItem) (s : ρ) :
    (selected hits (respellCaseItems rng text items s).1).map (text ∘ CaseItem.body) =
      (selected hits items).map (text ∘ CaseItem.body) := by
  have hstart : Keeps text hits [] (⟨[], [], none, s⟩ : Respelled ρ) :=
    ⟨rfl, rfl, fun _ e he => absurd he List.not_mem_nil, fun body hbody => by cases hbody⟩
  have hkeeps : Keeps text hits items (items.foldl (respellCaseItem rng text) ⟨[], [], none, s⟩) := hstart.foldl
  rw [selected, selected, Option.map_or, Option.map_or, respellCaseItems]
  dsimp only
  rw [hkeeps.hit, hkeeps.default]

end

/-- What is drawn changes no meaning: a literal is read as the same value with the same sign, and literals with digits
of their base are all written; case items select the same text for every selector, whatever their values are. -/
theorem respell_keeps {ρ : Type} (rng : Rng ρ) (s : ρ) :
    (∀ text : Line,
      (∀ text' s', respellLiteral rng text s = some (text', s') →
        Value.fromVerilog text' = Value.fromVerilog text ∧ signMarker text' = signMarker text) ∧
      ((∀ m, matchSizedLiteral text = some m → m.Proper) → (respellLiteral rng text s).isSome = true)) ∧
    ∀ (text : Option Stmt → String) (items : List CaseItem) (caseType : CaseType) (value : Expr → Value)
      (selector : Value),
      (selected (fun e => caseMatch caseType selector (value e)) (respellCaseItems rng text items s).1).map
          (text ∘ CaseItem.body) =
        (selected (fun e => caseMatch caseType selector (value e)) items).map (text ∘ CaseItem.body) :=
  ⟨fun _ => ⟨fun _ _ h => respellLiteral_reads h, fun h => respellLiteral_isSome rng h s⟩,
    fun _ items _ _ _ => selected_respellCaseItems items s⟩

/-- A generator that always spells anew and draws the first choice. -/
def firstChoice : Rng Unit where
  below _ s := (true, s)
  randrange _ s := (0, s)
  randrange_lt _ h := h

/-- `8'hff` is written as `8'B1_1111111`; of two items without a body the first is merged with the second, and its
value put before that one's. -/
theorem respell_keeps_first :
    (respellLiteral firstChoice "8'hff".toList () = some ("8'B1_1111111".toList, ()) ∧
      Value.fromVerilog "8'B1_1111111".toList = Value.fromVerilog "8'hff".toList ∧
      signMarker "8'B1_1111111".toList = signMarker "8'hff".toList) ∧
    ((respellCaseItems firstChoice (fun _ => "")
        [.mk false [.ident [] "a"] none, .mk false [.ident [] "b"] none] ()).1.map CaseItem.values =
          [[.ident [] "a", .ident [] "a", .ident [] "b"]] ∧
      (selected (fun _ => caseMatch .case (Value.ofInt 1 2) (Value.ofInt 1 2))
        (respellCaseItems firstChoice (fun _ => "")
          [.mk false [.ident [] "a"] none, .mk false [.ident [] "b"] none] ()).1).map
            ((fun _ : Option Stmt => "") ∘ CaseItem.body) = some "") :=
  ⟨⟨by decide, (respell_keeps firstChoice ()).1 "8'hff".toList |>.1 _ () (by decide)⟩,
    by rfl, ((respell_keeps firstChoice ()).2 (fun _ => "") _ .case _ _).trans (by rfl)⟩

end Emit

end Veriforge

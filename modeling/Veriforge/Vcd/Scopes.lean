import Mathlib.Data.List.Forall2
import Veriforge.Vcd.Reads

/-! # The scope tree

What the tree built from a list of scopes holds, and what the reader makes of the lines written for it. A
tree in which `_sig` is the name of a scope as well cannot be written, or loses that scope. -/

namespace Veriforge.Vcd

/-! ## Dictionaries -/

theorem Entries.get_set (k k' : Line) (c : Node) (es : Entries) :
    (es.set k c).get k' = if k = k' then some c else es.get k' := by
  match es with
  | .nil => rfl
  | .cons key child rest =>
    rw [Entries.set]
    by_cases hk : key = k
    · subst hk
      rw [if_pos rfl, Entries.get, Entries.get]
      split <;> rfl
    · rw [if_neg hk, Entries.get, Entries.get, Entries.get_set k k' c rest]
      by_cases hk' : key = k'
      · rw [if_pos hk', if_pos hk', if_neg fun h => hk (hk'.trans h.symm)]
      · rw [if_neg hk', if_neg hk']

/-- `node.get(key)` -/
def Node.get (key : Line) : Node → Option Node
  | .sigs _ => none
  | .dict es => es.get key

/-! ## Keys and signals of a tree -/

mutual

/-- Every key and every signal of a tree is of a kind. -/
def Node.Over (K : Line → Prop) (S : Sig → Prop) : Node → Prop
  | .sigs sigs => ∀ sig ∈ sigs, S sig
  | .dict es => es.Over K S

/-- The same for entries. -/
def Entries.Over (K : Line → Prop) (S : Sig → Prop) : Entries → Prop
  | .nil => True
  | .cons key child rest => K key ∧ child.Over K S ∧ rest.Over K S

end

section

variable {K : Line → Prop} {S : Sig → Prop}

theorem Entries.Over.get {es : Entries} (h : es.Over K S) {key : Line} {child : Node}
    (hg : es.get key = some child) : child.Over K S := by
  match es with
  | .nil => cases hg
  | .cons k c rest =>
    rw [Entries.Over] at h
    rw [Entries.get] at hg
    split at hg
    · cases hg
      exact h.2.1
    · exact Entries.Over.get h.2.2 hg

theorem Entries.Over.set {es : Entries} (h : es.Over K S) {key : Line} {child : Node} (hk : K key)
    (hc : child.Over K S) : (es.set key child).Over K S := by
  match es with
  | .nil =>
    rw [Entries.set, Entries.Over]
    exact ⟨hk, hc, h⟩
  | .cons k c rest =>
    rw [Entries.Over] at h
    rw [Entries.set]
    split
    · rw [Entries.Over]
      exact ⟨h.1, hc, h.2.2⟩
    · rw [Entries.Over]
      exact ⟨h.1, h.2.1, Entries.Over.set h.2.2 hk hc⟩

theorem Node.Over.insert {sigs : List Sig} {path : List Line} {node node' : Node} (hkey : K sigKey)
    (hp : ∀ segment ∈ path, K segment) (hs : ∀ sig ∈ sigs, S sig) (h : node.Over K S)
    (hi : node.insert sigs path = some node') : node'.Over K S := by
  induction path generalizing node node' with
  | nil =>
    cases node with
    | sigs l => cases hi
    | dict es =>
      cases hi
      rw [Node.Over] at h ⊢
      exact h.set hkey (by rw [Node.Over]; exact hs)
  | cons segment path ih =>
    cases node with
    | sigs l => cases hi
    | dict es =>
      rw [Node.Over] at h
      rw [Node.insert, Option.map_eq_some_iff] at hi
      obtain ⟨child, hc, rfl⟩ := hi
      rw [Node.Over]
      refine h.set (hp _ List.mem_cons_self) ?_
      refine ih (fun s hs => hp s (List.mem_cons_of_mem _ hs)) ?_ hc
      cases hg : es.get segment with
      | none =>
        rw [Option.getD_none, Node.Over, Entries.Over]
        trivial
      | some c => exact h.get hg

theorem Node.Over.own {node : Node} (h : node.Over K S) {sigs : List Sig} (ho : node.own = some sigs) :
    ∀ sig ∈ sigs, S sig := by
  cases node with
  | sigs _ => cases ho
  | dict es =>
    rw [Node.Over] at h
    rw [Node.own] at ho
    cases hg : es.get sigKey with
    | none =>
      rw [hg] at ho
      cases ho
      exact fun _ hs => absurd hs List.not_mem_nil
    | some child =>
      rw [hg] at ho
      cases child with
      | sigs l =>
        cases ho
        have hl := h.get hg
        rwa [Node.Over] at hl
      | dict es' =>
        cases es' with
        | nil =>
          cases ho
          exact fun _ hs => absurd hs List.not_mem_nil
        | cons k c rest => cases ho

end

/-! ## Reading a tree back -/

mutual

/-- The signals that are written for a tree in the scope of a path, each with its own path. -/
def Node.vars (path : List Line) : Node → List (List Line × Sig)
  | .sigs _ => []
  | .dict es => es.vars path

/-- The same for entries. -/
def Entries.vars (path : List Line) : Entries → List (List Line × Sig)
  | .nil => []
  | .cons key child rest =>
      if key = sigKey then rest.vars path
      else
        ((child.own.getD []).map fun sig => (path ++ [key], sig)) ++ (child.vars (path ++ [key]) ++ rest.vars path)

end

/-- The identifier and the name are words. -/
def Sig.IsWritable (sig : Sig) : Prop := IsToken sig.ident ∧ IsToken sig.name

/-- The record of a signal in a scope. -/
def Sig.declaration (stripHierarchy : Bool) (v : List Line × Sig) : VcdSignal :=
  declared stripHierarchy v.1 v.2.width v.2.ident v.2.name

/-- The declarations of several signals. -/
def ParserState.declareAll (stripHierarchy : Bool) (st : ParserState) (vs : List (List Line × Sig)) : ParserState :=
  vs.foldl (fun st v => st.declare (Sig.declaration stripHierarchy v)) st

section

variable {floatRepr : Line → Option Line} {stripHierarchy : Bool}

theorem declareAll_append (st : ParserState) (vs vs' : List (List Line × Sig)) :
    st.declareAll stripHierarchy (vs ++ vs')
      = (st.declareAll stripHierarchy vs).declareAll stripHierarchy vs' :=
  List.foldl_append

/-- Declarations leave the scope alone and do not depend on it. -/
theorem declareAll_scope (st : ParserState) (vs : List (List Line × Sig)) (path : List Line) :
    ({ st with scope := path } : ParserState).declareAll stripHierarchy vs
      = { st.declareAll stripHierarchy vs with scope := path } := by
  induction vs generalizing st with
  | nil => rfl
  | cons v vs ih => exact ih (st.declare (Sig.declaration stripHierarchy v))

theorem scope_declareAll (st : ParserState) (vs : List (List Line × Sig)) :
    (st.declareAll stripHierarchy vs).scope = st.scope := by
  rw [← congrArg ParserState.scope (declareAll_scope st vs st.scope)]

/-- Declarations leave the time and the changes alone. -/
theorem frame_declareAll (stripHierarchy : Bool) (st : ParserState) (vs : List (List Line × Sig)) :
    (st.declareAll stripHierarchy vs).time = st.time ∧
      (st.declareAll stripHierarchy vs).data.changes = st.data.changes := by
  induction vs generalizing st with
  | nil => exact ⟨rfl, rfl⟩
  | cons v vs ih => exact ih (st.declare (Sig.declaration stripHierarchy v))

theorem reads_vars (st : ParserState) {sigs : List Sig} (h : ∀ sig ∈ sigs, sig.IsWritable) :
    Reads floatRepr stripHierarchy st (sigs.map varLine)
      (st.declareAll stripHierarchy (sigs.map fun sig => (st.scope, sig))) := by
  induction sigs generalizing st with
  | nil => exact Reads.nil st
  | cons sig sigs ih =>
    obtain ⟨hi, hn⟩ := h sig List.mem_cons_self
    have hrest := ih (st.declare (Sig.declaration stripHierarchy (st.scope, sig)))
      fun s hs => h s (List.mem_cons_of_mem _ hs)
    exact (reads_varLine st hi hn).cons hrest

/-- The lines of a block, read in the scope of a path, declare signals. -/
def BlockReads (floatRepr : Line → Option Line) (stripHierarchy : Bool) (path : List Line)
    (lines : List Line) (vs : List (List Line × Sig)) : Prop :=
  ∀ st : ParserState, st.scope = path → Reads floatRepr stripHierarchy st lines (st.declareAll stripHierarchy vs)

theorem BlockReads.append {path lines lines' : List Line} {vs vs' : List (List Line × Sig)}
    (h : BlockReads floatRepr stripHierarchy path lines vs)
    (h' : BlockReads floatRepr stripHierarchy path lines' vs') :
    BlockReads floatRepr stripHierarchy path (lines ++ lines') (vs ++ vs') := by
  intro st hst
  rw [declareAll_append]
  exact (h st hst).append (h' _ ((scope_declareAll st vs).trans hst))

theorem BlockReads.flatMap {path : List Line} {bs : List (Line × List Line)}
    {vss : List (List (List Line × Sig))}
    (h : List.Forall₂ (fun b vs => BlockReads floatRepr stripHierarchy path b.2 vs) bs vss) :
    BlockReads floatRepr stripHierarchy path (bs.flatMap (·.2)) vss.flatten := by
  induction h with
  | nil => exact fun st _ => Reads.nil st
  | cons hb _ ih => exact hb.append ih

/-- A scope around a block. -/
theorem BlockReads.inScope {path lines : List Line} {key : Line} {vs : List (List Line × Sig)}
    (hkey : IsToken key) (h : BlockReads floatRepr stripHierarchy (path ++ [key]) lines vs) :
    BlockReads floatRepr stripHierarchy path (scopeLine key :: (lines ++ [upscopeLine])) vs := by
  intro st hst
  have hin := h { st with scope := st.scope ++ [key] } (by rw [hst])
  rw [declareAll_scope] at hin
  have hout : Reads floatRepr stripHierarchy
      { st.declareAll stripHierarchy vs with scope := st.scope ++ [key] } [upscopeLine]
      { st.declareAll stripHierarchy vs with scope := (st.scope ++ [key]).dropLast } :=
    reads_upscopeLine _
  rw [List.dropLast_concat] at hout
  have hback : st.declareAll stripHierarchy vs = { st.declareAll stripHierarchy vs with scope := st.scope } := by
    rw [← scope_declareAll st vs]
  rw [hback]
  exact (reads_scopeLine st hkey).cons (hin.append hout)

mutual

/-- The lines written for a tree declare its signals, in some order. -/
theorem Node.reads_emit (node : Node) (path : List Line) {lines : List Line} (ho : node.Over IsToken Sig.IsWritable)
    (h : node.emit = some lines) :
    ∃ vs, vs.Perm (node.vars path) ∧ BlockReads floatRepr stripHierarchy path lines vs := by
  match node with
  | .sigs _ =>
    rw [Node.emit] at h
    cases h
  | .dict es =>
    rw [Node.Over] at ho
    rw [Node.emit, Option.map_eq_some_iff] at h
    obtain ⟨bs, hbs, rfl⟩ := h
    obtain ⟨vss, hperm, hreads⟩ := Entries.reads_blocks es path ho hbs
    have hsort : (bs.insertionSort fun b b' => lineLe b.1 b'.1 = true).Perm bs := List.perm_insertionSort _ bs
    -- the blocks are put in another order, and their signals with them
    obtain ⟨vss', hreads', hperm'⟩ := List.perm_comp_forall₂ hsort hreads
    refine ⟨vss'.flatten, ?_, BlockReads.flatMap hreads'⟩
    rw [Node.vars]
    exact hperm'.flatten.trans hperm

/-- The blocks of a dictionary, each with the signals it declares. -/
theorem Entries.reads_blocks (es : Entries) (path : List Line) {bs : List (Line × List Line)}
    (ho : es.Over IsToken Sig.IsWritable) (h : es.blocks = some bs) :
    ∃ vss, vss.flatten.Perm (es.vars path) ∧
      List.Forall₂ (fun b vs => BlockReads floatRepr stripHierarchy path b.2 vs) bs vss := by
  match es with
  | .nil =>
    rw [Entries.blocks] at h
    cases h
    refine ⟨[], ?_, .nil⟩
    rw [Entries.vars]
    exact List.Perm.nil
  | .cons key child rest =>
    rw [Entries.Over] at ho
    rw [Entries.blocks] at h
    rw [Entries.vars]
    split at h
    · next hk =>
      rw [if_pos hk]
      exact Entries.reads_blocks rest path ho.2.2 h
    · next hk =>
      rw [if_neg hk]
      obtain ⟨own, hown, h⟩ := Option.bind_eq_some_iff.mp h
      obtain ⟨inner, hinner, h⟩ := Option.bind_eq_some_iff.mp h
      obtain ⟨more, hmore, rfl⟩ := Option.map_eq_some_iff.mp h
      obtain ⟨vs, hvs, hchild⟩ := Node.reads_emit child (path ++ [key]) ho.2.1 hinner
      obtain ⟨vss, hvss, hrest⟩ := Entries.reads_blocks rest path ho.2.2 hmore
      have hvars : BlockReads floatRepr stripHierarchy (path ++ [key]) (own.map varLine)
          (own.map fun sig => (path ++ [key], sig)) := by
        intro st hst
        rw [← hst]
        exact reads_vars st (ho.2.1.own hown)
      have hblock := (hvars.append hchild).inScope ho.1
      rw [List.append_assoc] at hblock
      refine ⟨(own.map (fun sig => (path ++ [key], sig)) ++ vs) :: vss, ?_, .cons hblock hrest⟩
      rw [hown, Option.getD_some, List.flatten_cons, List.append_assoc]
      exact (hvs.append hvss).append_left _

end

end

/-! ## Lines of a tree -/

theorem newline_not_mem_varLine {sig : Sig} (h : sig.IsWritable) : '\n' ∉ varLine sig := by
  refine newline_not_mem_unwords fun w hw => ?_
  simp only [List.mem_cons, List.not_mem_nil, or_false] at hw
  rcases hw with rfl | rfl | rfl | rfl | rfl | rfl
  · decide
  · decide
  · exact isToken_toDigits _
  · exact h.1
  · exact h.2
  · decide

theorem newline_not_mem_scopeLine {segment : Line} (h : IsToken segment) : '\n' ∉ scopeLine segment := by
  refine newline_not_mem_unwords fun w hw => ?_
  simp only [List.mem_cons, List.not_mem_nil, or_false] at hw
  rcases hw with rfl | rfl | rfl | rfl
  · decide
  · decide
  · exact h
  · decide

mutual

theorem Node.newline_not_mem_emit (node : Node) {lines : List Line}
    (ho : node.Over IsToken Sig.IsWritable) (h : node.emit = some lines) : ∀ l ∈ lines, '\n' ∉ l := by
  match node with
  | .sigs _ =>
    rw [Node.emit] at h
    cases h
  | .dict es =>
    rw [Node.Over] at ho
    rw [Node.emit, Option.map_eq_some_iff] at h
    obtain ⟨bs, hbs, rfl⟩ := h
    intro l hl
    obtain ⟨b, hb, hl⟩ := List.mem_flatMap.mp hl
    exact Entries.newline_not_mem_blocks es ho hbs b ((List.perm_insertionSort _ bs).mem_iff.mp hb) l hl

theorem Entries.newline_not_mem_blocks (es : Entries) {bs : List (Line × List Line)}
    (ho : es.Over IsToken Sig.IsWritable) (h : es.blocks = some bs) : ∀ b ∈ bs, ∀ l ∈ b.2, '\n' ∉ l := by
  match es with
  | .nil =>
    rw [Entries.blocks] at h
    cases h
    exact fun _ hb => absurd hb List.not_mem_nil
  | .cons key child rest =>
    rw [Entries.Over] at ho
    rw [Entries.blocks] at h
    split at h
    · exact Entries.newline_not_mem_blocks rest ho.2.2 h
    · obtain ⟨own, hown, h⟩ := Option.bind_eq_some_iff.mp h
      obtain ⟨inner, hinner, h⟩ := Option.bind_eq_some_iff.mp h
      obtain ⟨more, hmore, rfl⟩ := Option.map_eq_some_iff.mp h
      intro b hb l hl
      rcases List.mem_cons.mp hb with rfl | hb
      · rcases List.mem_cons.mp hl with rfl | hl
        · exact newline_not_mem_scopeLine ho.1
        · rcases List.mem_append.mp hl with hl | hl
          · obtain ⟨sig, hsig, rfl⟩ := List.mem_map.mp hl
            exact newline_not_mem_varLine (ho.2.1.own hown sig hsig)
          · rcases List.mem_append.mp hl with hl | hl
            · exact Node.newline_not_mem_emit child ho.2.1 hinner l hl
            · rw [List.mem_singleton.mp hl]
              decide
      · exact Entries.newline_not_mem_blocks rest ho.2.2 hmore b hb l hl

end

/-! ## Where signals are declared -/

mutual

/-- The scopes in which signals are written are made of the tree's keys other than `_sig`. -/
theorem Node.Over.mem_vars {K : Line → Prop} {S : Sig → Prop} {node : Node} (h : node.Over K S)
    {path q : List Line} {sig : Sig} (hmem : (q, sig) ∈ node.vars path) :
    (∃ segment p, q = path ++ segment :: p ∧ ∀ s ∈ segment :: p, K s ∧ s ≠ sigKey) ∧ S sig := by
  match node with
  | .sigs _ =>
    rw [Node.vars] at hmem
    exact absurd hmem List.not_mem_nil
  | .dict es =>
    rw [Node.Over] at h
    rw [Node.vars] at hmem
    exact Entries.Over.mem_vars h hmem

theorem Entries.Over.mem_vars {K : Line → Prop} {S : Sig → Prop} {es : Entries} (h : es.Over K S)
    {path q : List Line} {sig : Sig} (hmem : (q, sig) ∈ es.vars path) :
    (∃ segment p, q = path ++ segment :: p ∧ ∀ s ∈ segment :: p, K s ∧ s ≠ sigKey) ∧ S sig := by
  match es with
  | .nil =>
    rw [Entries.vars] at hmem
    exact absurd hmem List.not_mem_nil
  | .cons key child rest =>
    rw [Entries.Over] at h
    rw [Entries.vars] at hmem
    split at hmem
    · exact Entries.Over.mem_vars h.2.2 hmem
    · next hk =>
      rcases List.mem_append.mp hmem with hmem | hmem
      · obtain ⟨s, hs, heq⟩ := List.mem_map.mp hmem
        cases heq
        refine ⟨⟨key, [], rfl, fun k hk' => ?_⟩, ?_⟩
        · rw [List.mem_singleton.mp hk']
          exact ⟨h.1, hk⟩
        · cases hown : child.own with
          | none =>
            rw [hown] at hs
            exact absurd hs List.not_mem_nil
          | some own =>
            rw [hown] at hs
            exact h.2.1.own hown sig hs
      · rcases List.mem_append.mp hmem with hmem | hmem
        · obtain ⟨⟨segment, p, rfl, hp⟩, hS⟩ := Node.Over.mem_vars h.2.1 hmem
          refine ⟨⟨key, segment :: p, List.append_assoc _ _ _, fun k hk' => ?_⟩, hS⟩
          rcases List.mem_cons.mp hk' with rfl | hk'
          · exact ⟨h.1, hk⟩
          · exact hp k hk'
        · exact Entries.Over.mem_vars h.2.2 hmem

end

/-! ## Trees without a scope of the name `_sig` -/

mutual

/-- Under `_sig` lies a list, under any other key a dictionary, and no key occurs twice. -/
def Node.WF : Node → Prop
  | .sigs _ => False
  | .dict es => es.WF

/-- The same for entries. -/
def Entries.WF : Entries → Prop
  | .nil => True
  | .cons key child rest =>
      rest.get key = none ∧ (if key = sigKey then ∃ l, child = .sigs l else child.WF) ∧ rest.WF

end

theorem Entries.WF.get {es : Entries} (h : es.WF) {key : Line} {child : Node}
    (hg : es.get key = some child) : if key = sigKey then ∃ l, child = .sigs l else child.WF := by
  match es with
  | .nil => cases hg
  | .cons k c rest =>
    rw [Entries.WF] at h
    rw [Entries.get] at hg
    split at hg
    · next hk =>
      cases hg
      rw [← hk]
      exact h.2.1
    · exact Entries.WF.get h.2.2 hg

theorem Entries.WF.set {es : Entries} (h : es.WF) {key : Line} {child : Node}
    (hc : if key = sigKey then ∃ l, child = .sigs l else child.WF) : (es.set key child).WF := by
  match es with
  | .nil =>
    rw [Entries.set, Entries.WF]
    exact ⟨rfl, hc, h⟩
  | .cons k c rest =>
    rw [Entries.WF] at h
    rw [Entries.set]
    split
    · next hk =>
      rw [Entries.WF]
      exact ⟨h.1, hk ▸ hc, h.2.2⟩
    · next hk =>
      rw [Entries.WF, Entries.get_set, if_neg fun h => hk h.symm]
      exact ⟨h.1, h.2.1, Entries.WF.set h.2.2 hc⟩

theorem Node.WF.own {node : Node} (h : node.WF) : ∃ l, node.own = some l := by
  cases node with
  | sigs l => exact absurd h (by rw [Node.WF]; exact id)
  | dict es =>
    rw [Node.WF] at h
    rw [Node.own]
    cases hg : es.get sigKey with
    | none => exact ⟨[], rfl⟩
    | some c =>
      have hc := h.get hg
      rw [if_pos rfl] at hc
      obtain ⟨l, rfl⟩ := hc
      exact ⟨l, rfl⟩

mutual

theorem Node.WF.emit {node : Node} (h : node.WF) : ∃ lines, node.emit = some lines := by
  match node with
  | .sigs l => exact absurd h (by rw [Node.WF]; exact id)
  | .dict es =>
    rw [Node.WF] at h
    obtain ⟨bs, hbs⟩ := Entries.WF.blocks h
    rw [Node.emit, hbs]
    exact ⟨_, rfl⟩

theorem Entries.WF.blocks {es : Entries} (h : es.WF) : ∃ bs, es.blocks = some bs := by
  match es with
  | .nil => exact ⟨[], by rw [Entries.blocks]⟩
  | .cons key child rest =>
    rw [Entries.WF] at h
    obtain ⟨more, hmore⟩ := Entries.WF.blocks h.2.2
    rw [Entries.blocks]
    by_cases hk : key = sigKey
    · rw [if_pos hk]
      exact ⟨more, hmore⟩
    · have hchild := h.2.1
      rw [if_neg hk] at hchild
      obtain ⟨own, hown⟩ := hchild.own
      obtain ⟨inner, hinner⟩ := Node.WF.emit hchild
      rw [if_neg hk, hown, hinner, hmore]
      exact ⟨_, rfl⟩

end

/-- A signal is held by a tree in the scope of a path. -/
def Node.Has (sig : Sig) : List Line → Node → Prop
  | [], node => ∃ l, node.own = some l ∧ sig ∈ l
  | segment :: path, node =>
      segment ≠ sigKey ∧ ∃ child, node.get segment = some child ∧ Node.Has sig path child

theorem not_has_nil (sig : Sig) (path : List Line) : ¬ Node.Has sig path (.dict .nil) := by
  intro h
  cases path with
  | nil =>
    obtain ⟨l, hl, hmem⟩ := h
    cases hl
    exact absurd hmem List.not_mem_nil
  | cons segment path =>
    obtain ⟨-, child, hc, -⟩ := h
    cases hc

mutual

/-- The signals written for a tree are those it holds. -/
theorem Node.WF.mem_vars {node : Node} (h : node.WF) {path q : List Line} {sig : Sig} :
    (q, sig) ∈ node.vars path ↔ ∃ segment p, q = path ++ segment :: p ∧ node.Has sig (segment :: p) := by
  match node with
  | .sigs l => exact absurd h (by rw [Node.WF]; exact id)
  | .dict es =>
    rw [Node.WF] at h
    rw [Node.vars, Entries.WF.mem_vars h]
    rfl

theorem Entries.WF.mem_vars {es : Entries} (h : es.WF) {path q : List Line} {sig : Sig} :
    (q, sig) ∈ es.vars path ↔ ∃ segment p, q = path ++ segment :: p ∧ segment ≠ sigKey ∧
      ∃ child, es.get segment = some child ∧ Node.Has sig p child := by
  match es with
  | .nil =>
    rw [Entries.vars]
    constructor
    · exact fun h => absurd h List.not_mem_nil
    · rintro ⟨_, _, -, -, child, hc, -⟩
      cases hc
  | .cons key child rest =>
    rw [Entries.WF] at h
    obtain ⟨hnone, hchild, hrest⟩ := h
    rw [Entries.vars]
    by_cases hk : key = sigKey
    · rw [if_pos hk, Entries.WF.mem_vars hrest]
      have hsame : ∀ segment, segment ≠ sigKey → (Entries.cons key child rest).get segment = rest.get segment := by
        intro segment hs
        rw [Entries.get, if_neg fun h => hs (h.symm.trans hk)]
      constructor
      · rintro ⟨segment, p, rfl, hs, c, hc, hhas⟩
        exact ⟨segment, p, rfl, hs, c, (hsame _ hs).trans hc, hhas⟩
      · rintro ⟨segment, p, rfl, hs, c, hc, hhas⟩
        exact ⟨segment, p, rfl, hs, c, (hsame _ hs).symm.trans hc, hhas⟩
    · rw [if_neg hk] at hchild
      rw [if_neg hk, List.mem_append, List.mem_append, List.mem_map, Node.WF.mem_vars hchild,
        Entries.WF.mem_vars hrest]
      obtain ⟨own, hown⟩ := hchild.own
      rw [hown, Option.getD_some]
      constructor
      · rintro (⟨s, hs, heq⟩ | ⟨segment, p, rfl, hhas⟩ | ⟨segment, p, rfl, hs, c, hc, hhas⟩)
        · cases heq
          exact ⟨key, [], rfl, hk, child, if_pos rfl, own, hown, hs⟩
        · exact ⟨key, segment :: p, List.append_assoc _ _ _, hk, child, if_pos rfl, hhas⟩
        · refine ⟨segment, p, rfl, hs, c, ?_, hhas⟩
          rw [Entries.get, if_neg, hc]
          rintro rfl
          rw [hnone] at hc
          cases hc
      · rintro ⟨segment, p, rfl, hs, c, hc, hhas⟩
        rw [Entries.get] at hc
        split at hc
        · next hkey =>
          subst hkey
          cases hc
          cases p with
          | nil =>
            obtain ⟨l, hl, hmem⟩ := hhas
            cases hown.symm.trans hl
            exact Or.inl ⟨sig, hmem, rfl⟩
          | cons segment p =>
            exact Or.inr (Or.inl ⟨segment, p, List.append_cons _ _ _, hhas⟩)
        · exact Or.inr (Or.inr ⟨segment, p, rfl, hs, c, hc, hhas⟩)

end

/-- Signals put into a tree at a path are what it holds there, and it holds what it did elsewhere. -/
theorem Node.WF.insert {path : List Line} {node : Node} (sigs : List Sig) (h : node.WF)
    (hp : ∀ segment ∈ path, segment ≠ sigKey) :
    ∃ node', node.insert sigs path = some node' ∧ node'.WF ∧
      ∀ sig p, Node.Has sig p node' ↔ if p = path then sig ∈ sigs else Node.Has sig p node := by
  induction path generalizing node with
  | nil =>
    cases node with
    | sigs l => exact absurd h (by rw [Node.WF]; exact id)
    | dict es =>
      rw [Node.WF] at h
      refine ⟨_, rfl, ?_, ?_⟩
      · rw [Node.WF]
        exact h.set (by rw [if_pos rfl]; exact ⟨sigs, rfl⟩)
      · intro sig p
        cases p with
        | nil =>
          rw [if_pos rfl, Node.Has, Node.own, Entries.get_set, if_pos rfl]
          constructor
          · rintro ⟨l, hl, hmem⟩
            cases hl
            exact hmem
          · exact fun hmem => ⟨sigs, rfl, hmem⟩
        | cons segment p =>
          rw [if_neg (List.cons_ne_nil _ _), Node.Has, Node.Has]
          refine and_congr_right fun hs => ?_
          rw [Node.get, Node.get, Entries.get_set, if_neg fun h => hs h.symm]
  | cons segment path ih =>
    cases node with
    | sigs l => exact absurd h (by rw [Node.WF]; exact id)
    | dict es =>
      rw [Node.WF] at h
      have hseg := hp segment List.mem_cons_self
      have hbelow : ((es.get segment).getD (.dict .nil)).WF := by
        cases hg : es.get segment with
        | none =>
          rw [Option.getD_none, Node.WF, Entries.WF]
          trivial
        | some c =>
          have hc := h.get hg
          rwa [if_neg hseg] at hc
      obtain ⟨child, hchild, hwf, hhas⟩ :=
        ih hbelow fun s hs => hp s (List.mem_cons_of_mem _ hs)
      refine ⟨.dict (es.set segment child), ?_, ?_, ?_⟩
      · rw [Node.insert, hchild]
        rfl
      · rw [Node.WF]
        exact h.set (by rw [if_neg hseg]; exact hwf)
      · intro sig p
        cases p with
        | nil =>
          rw [if_neg (List.cons_ne_nil _ _).symm, Node.Has, Node.Has, Node.own, Node.own,
            Entries.get_set, if_neg hseg]
        | cons s p =>
          rw [Node.Has, Node.get, Entries.get_set]
          by_cases hs : segment = s
          · subst hs
            rw [if_pos rfl]
            have hsome : (∃ c, some child = some c ∧ Node.Has sig p c) ↔ Node.Has sig p child := by
              constructor
              · rintro ⟨c, hc, hhas⟩
                cases hc
                exact hhas
              · exact fun hhas => ⟨child, rfl, hhas⟩
            rw [hsome, hhas, Node.Has, Node.get]
            by_cases hpath : p = path
            · rw [if_pos hpath, if_pos (by rw [hpath])]
              exact and_iff_right hseg
            · rw [if_neg hpath, if_neg fun h => hpath (List.cons.inj h).2]
              refine and_congr_right fun _ => ?_
              cases hg : es.get segment with
              | none =>
                rw [Option.getD_none]
                constructor
                · exact fun h => absurd h (not_has_nil sig p)
                · rintro ⟨c, hc, -⟩
                  cases hc
              | some c =>
                rw [Option.getD_some]
                constructor
                · exact fun hhas => ⟨c, rfl, hhas⟩
                · rintro ⟨c', hc, hhas⟩
                  cases hc
                  exact hhas
          · rw [if_neg hs, if_neg fun h => hs (List.cons.inj h).1.symm]
            rfl

/-! ## The tree of all scopes -/

theorem mem_scopesOf (signals : List (Line × Sig)) : DistinctKeys (scopesOf signals) ∧
      ∀ scope sig, sig ∈ (dictGet scope (scopesOf signals)).getD [] ↔
        sig.scope = scope ∧ ∃ name, (name, sig) ∈ signals := by
  induction signals using List.reverseRecOn with
  | nil =>
    refine ⟨List.nodup_nil, fun scope sig => ?_⟩
    constructor
    · exact fun h => absurd h List.not_mem_nil
    · rintro ⟨-, name, h⟩
      exact absurd h List.not_mem_nil
  | append_singleton signals e ih =>
    obtain ⟨hkeys, hmem⟩ := ih
    have hsnoc : scopesOf (signals ++ [e]) = dictSet e.2.scope
        ((dictGet e.2.scope (scopesOf signals)).getD [] ++ [e.2]) (scopesOf signals) := by
      rw [scopesOf, List.foldl_append]
      rfl
    rw [hsnoc]
    refine ⟨hkeys.set _ _, fun scope sig => ?_⟩
    have hlast : (∃ name, (name, sig) ∈ signals ++ [e]) ↔ (∃ name, (name, sig) ∈ signals) ∨ sig = e.2 := by
      constructor
      · rintro ⟨name, h⟩
        rw [List.mem_append, List.mem_singleton] at h
        exact h.imp (fun h => ⟨name, h⟩) (congrArg Prod.snd)
      · rintro (⟨name, h⟩ | rfl)
        · exact ⟨name, List.mem_append_left _ h⟩
        · exact ⟨e.1, List.mem_append_right _ List.mem_cons_self⟩
    rw [dictGet_dictSet, hlast]
    by_cases hscope : e.2.scope = scope
    · rw [if_pos hscope, Option.getD_some, List.mem_append, List.mem_singleton, hmem, hscope]
      constructor
      · rintro (⟨hs, h⟩ | rfl)
        · exact ⟨hs, Or.inl h⟩
        · exact ⟨hscope, Or.inr rfl⟩
      · rintro ⟨hs, h | h⟩
        · exact Or.inl ⟨hs, h⟩
        · exact Or.inr h
    · rw [if_neg hscope, hmem]
      constructor
      · exact fun h => ⟨h.1, Or.inl h.2⟩
      · rintro ⟨hs, h | rfl⟩
        · exact ⟨hs, h⟩
        · exact absurd hs hscope

/-- Grouped by scope, the signals are those there were. -/
theorem mem_scopesOf_iff (signals : List (Line × Sig)) (scope : Line) (sig : Sig) :
    (∃ sigs, (scope, sigs) ∈ scopesOf signals ∧ sig ∈ sigs) ↔ sig.scope = scope ∧ ∃ name, (name, sig) ∈ signals := by
  obtain ⟨hkeys, hmem⟩ := mem_scopesOf signals
  rw [← hmem]
  constructor
  · rintro ⟨sigs, hs, h⟩
    rwa [hkeys.mem_iff.mp hs]
  · intro h
    cases hg : dictGet scope (scopesOf signals) with
    | none =>
      rw [hg] at h
      exact absurd h List.not_mem_nil
    | some sigs =>
      rw [hg] at h
      exact ⟨sigs, hkeys.mem_iff.mpr hg, h⟩

/-- Every scope has a signal. -/
theorem exists_of_mem_scopesOf {signals : List (Line × Sig)} {e : Line × List Sig}
    (he : e ∈ scopesOf signals) : ∃ e' ∈ signals, e'.2.scope = e.1 := by
  induction signals using List.reverseRecOn with
  | nil => exact absurd he List.not_mem_nil
  | append_singleton signals e' ih =>
    rw [scopesOf, List.foldl_append] at he
    rcases mem_dictSet he with rfl | he
    · exact ⟨e', List.mem_append_right _ List.mem_cons_self, rfl⟩
    · obtain ⟨e'', he'', h⟩ := ih he
      exact ⟨e'', List.mem_append_left _ he'', h⟩

theorem splitOn_dot_injective {s s' : Line} (h : s.splitOn '.' = s'.splitOn '.') : s = s' := by
  have h' := congrArg (List.intercalate ['.']) h
  rwa [List.intercalate_splitOn, List.intercalate_splitOn] at h'

/-- The tree of scopes without a segment `_sig` holds the signals of each in its place. -/
theorem scopeTree_has {scopes : List (Line × List Sig)} (hkeys : DistinctKeys scopes)
    (hseg : ∀ e ∈ scopes, sigKey ∉ e.1.splitOn '.') :
    ∃ root, scopeTree scopes = some root ∧ root.WF ∧
      ∀ sig p, Node.Has sig p root ↔ ∃ e ∈ scopes, e.1.splitOn '.' = p ∧ sig ∈ e.2 := by
  induction scopes using List.reverseRecOn with
  | nil =>
    refine ⟨.dict .nil, rfl, ?_, fun sig p => ?_⟩
    · rw [Node.WF, Entries.WF]
      trivial
    · constructor
      · exact fun h => absurd h (not_has_nil sig p)
      · rintro ⟨e, he, -⟩
        exact absurd he List.not_mem_nil
  | append_singleton scopes e ih =>
    rw [DistinctKeys, List.map_append, List.nodup_append] at hkeys
    obtain ⟨hkeys, -, hnew⟩ := hkeys
    obtain ⟨root, hroot, hwf, hhas⟩ := ih hkeys fun e' he => hseg e' (List.mem_append_left _ he)
    have he := hseg e (List.mem_append_right _ List.mem_cons_self)
    obtain ⟨root', hroot', hwf', hhas'⟩ :=
      hwf.insert e.2 fun s hs h => he (h ▸ hs)
    refine ⟨root', ?_, hwf', fun sig p => ?_⟩
    · rw [scopeTree, List.foldlM_append]
      rw [scopeTree] at hroot
      rw [hroot]
      show (root.insert e.2 (e.1.splitOn '.')).bind some = some root'
      rw [hroot']
      rfl
    · rw [hhas', hhas]
      by_cases hp : p = e.1.splitOn '.'
      · rw [if_pos hp]
        constructor
        · exact fun h => ⟨e, List.mem_append_right _ List.mem_cons_self, hp.symm, h⟩
        · rintro ⟨e', he', hp', hsig⟩
          rcases List.mem_append.mp he' with he' | he'
          · have hsame : e'.1 = e.1 := splitOn_dot_injective (hp'.trans hp)
            exact absurd hsame (hnew _ (List.mem_map_of_mem he') _ List.mem_cons_self)
          · rw [← List.mem_singleton.mp he']
            exact hsig
      · rw [if_neg hp]
        constructor
        · rintro ⟨e', he', h⟩
          exact ⟨e', List.mem_append_left _ he', h⟩
        · rintro ⟨e', he', hp', hsig⟩
          rcases List.mem_append.mp he' with he' | he'
          · exact ⟨e', he', hp', hsig⟩
          · exact absurd (List.mem_singleton.mp he' ▸ hp'.symm) hp

theorem scopeTree_over {K : Line → Prop} {S : Sig → Prop} {scopes : List (Line × List Sig)} {root : Node}
    (hkey : K sigKey) (hseg : ∀ e ∈ scopes, ∀ segment ∈ e.1.splitOn '.', K segment)
    (hsig : ∀ e ∈ scopes, ∀ sig ∈ e.2, S sig) (h : scopeTree scopes = some root) : root.Over K S := by
  induction scopes using List.reverseRecOn generalizing root with
  | nil =>
    cases h
    rw [Node.Over, Entries.Over]
    trivial
  | append_singleton scopes e ih =>
    rw [scopeTree, List.foldlM_append] at h
    obtain ⟨root', hroot', h⟩ := Option.bind_eq_some_iff.mp h
    have hinsert : root'.insert e.2 (e.1.splitOn '.') = some root := by
      obtain ⟨root'', hroot'', h⟩ := Option.bind_eq_some_iff.mp h
      cases h
      exact hroot''
    have hlast : e ∈ scopes ++ [e] := List.mem_append_right _ List.mem_cons_self
    have hinit := ih (fun e he => hseg e (List.mem_append_left _ he))
      (fun e he => hsig e (List.mem_append_left _ he)) hroot'
    exact hinit.insert hkey (hseg e hlast) (hsig e hlast) hinsert

/-- The signals after declarations: those declared, if no identifier is declared twice. -/
theorem signals_declareAll {stripHierarchy : Bool} {st : ParserState} {vs : List (List Line × Sig)}
    (hst : st.data.signals = fun _ => none)
    (hinj : ∀ v ∈ vs, ∀ v' ∈ vs, v.2.ident = v'.2.ident → v = v') (ident : Line) (s : VcdSignal) :
    (st.declareAll stripHierarchy vs).data.signals ident = some s ↔
      ∃ v ∈ vs, v.2.ident = ident ∧ s = Sig.declaration stripHierarchy v := by
  induction vs using List.reverseRecOn with
  | nil =>
    show st.data.signals ident = some s ↔ _
    rw [hst]
    constructor
    · exact fun h => absurd h (by simp)
    · rintro ⟨v, hv, -⟩
      exact absurd hv List.not_mem_nil
  | append_singleton vs v ih =>
    have hlast : v ∈ vs ++ [v] := List.mem_append_right _ List.mem_cons_self
    rw [declareAll_append]
    show Function.update (st.declareAll stripHierarchy vs).data.signals v.2.ident
      (some (Sig.declaration stripHierarchy v)) ident = some s ↔ _
    by_cases hid : v.2.ident = ident
    · rw [← hid, Function.update_self]
      constructor
      · exact fun h => ⟨v, hlast, rfl, (Option.some.inj h).symm⟩
      · rintro ⟨v', hv', hid', rfl⟩
        rw [hinj v' hv' v hlast hid']
    · rw [Function.update_of_ne fun h => hid h.symm,
        ih fun v hv v' hv' => hinj v (List.mem_append_left _ hv) v' (List.mem_append_left _ hv')]
      constructor
      · rintro ⟨v', hv', h⟩
        exact ⟨v', List.mem_append_left _ hv', h⟩
      · rintro ⟨v', hv', hid', h⟩
        rcases List.mem_append.mp hv' with hv' | hv'
        · exact ⟨v', hv', hid', h⟩
        · exact absurd (List.mem_singleton.mp hv' ▸ hid') hid

/-- Every signal after declarations is one of them. -/
theorem mem_of_signals_declareAll {stripHierarchy : Bool} {st : ParserState} {vs : List (List Line × Sig)}
    (hst : st.data.signals = fun _ => none) {ident : Line} {s : VcdSignal}
    (h : (st.declareAll stripHierarchy vs).data.signals ident = some s) :
    ∃ v ∈ vs, s = Sig.declaration stripHierarchy v := by
  induction vs using List.reverseRecOn with
  | nil =>
    change st.data.signals ident = some s at h
    rw [hst] at h
    cases h
  | append_singleton vs v ih =>
    rw [declareAll_append] at h
    change Function.update (st.declareAll stripHierarchy vs).data.signals v.2.ident
      (some (Sig.declaration stripHierarchy v)) ident = some s at h
    by_cases hid : ident = v.2.ident
    · rw [hid, Function.update_self] at h
      exact ⟨v, List.mem_append_right _ List.mem_cons_self, (Option.some.inj h).symm⟩
    · rw [Function.update_of_ne hid] at h
      obtain ⟨v', hv', hs⟩ := ih h
      exact ⟨v', List.mem_append_left _ hv', hs⟩

end Veriforge.Vcd

import Veriforge.Parse.ConstExpr

/-! # Reading constant expressions

Every derivation's tokens have a reading. The builder finds it for the derivations in which a conditional stands where
the builder expects one, and for no others. -/

namespace Veriforge

open ParseTree ConstExpr

variable {α Loc : Type}

/-! ## A reading exists -/

/-- Operands and operators have a grouped chain. -/
theorem exists_grouped {A : Type} {as : List A} {ops : List BinaryOp} (h : as.length = ops.length + 1) :
    ∃ c : Chain A BinaryOp, c.Grouped precedence ∧ c.operands = as ∧ c.operators = ops := by
  have hlen : as.length = (ops.map fun op => (op, ())).length + 1 := by rw [List.length_map, h]
  obtain ⟨c, -, hc, hands, hops⟩ :=
    @rebuildWithPrecedence_spec Unit Unit A (fun _ _ _ _ => ()) (fun _ => ()) _ _ hlen
  refine ⟨c.mapOp Prod.fst, Chain.grouped_mapOp Prod.fst hc, by rw [Chain.operands_mapOp, hands], ?_⟩
  rw [Chain.operators_mapOp, hops, List.map_map]
  exact List.map_id ops

/-- Two chains with an operator between them. -/
theorem exists_chain (c : Chain (ConstOperand α) BinaryOp) (op : BinaryOp) (c' : Chain (ConstOperand α) BinaryOp) :
    ∃ c'' : Chain (ConstOperand α) BinaryOp, c''.Grouped precedence ∧
      (ofChain c'').tokens = (ofChain c).tokens ++ .operator op :: (ofChain c').tokens := by
  obtain ⟨c'', hc, hands, hops⟩ := exists_grouped (Chain.binary op c c').length_operands
  refine ⟨c'', hc, ?_⟩
  rw [tokens_ofChain, Chain.spell_congr _ _ hands hops, ← tokens_ofChain]
  rfl

/-- Two readings with an operator between them. -/
theorem exists_binary {e e' : ConstExpr α} (h : Canonical e) (op : BinaryOp) (h' : Canonical e') :
    ∃ e'' : ConstExpr α, Canonical e'' ∧ e''.tokens = e.tokens ++ .operator op :: e'.tokens := by
  induction h with
  | chain c hc he =>
    subst he
    cases h' with
    | chain c' hc' he' =>
      subst he'
      obtain ⟨c'', hc'', htokens⟩ := exists_chain c op c'
      exact ⟨ofChain c'', .chain c'' hc'' rfl, htokens⟩
    | @ternary _ t f c' hc' he' ht hf =>
      subst he'
      obtain ⟨c'', hc'', htokens⟩ := exists_chain c op c'
      refine ⟨.ternary (ofChain c'') t f, .ternary c'' hc'' rfl ht hf, ?_⟩
      rw [tokens, tokens, htokens, List.append_assoc, List.cons_append]
  | @ternary e t f c hc he ht hf iht ihf =>
    obtain ⟨f', hf', htokens⟩ := ihf
    refine ⟨.ternary e t f', .ternary c hc he ht hf', ?_⟩
    rw [tokens, tokens, htokens]
    simp only [List.append_assoc, List.cons_append]

/-- Three readings as a conditional. -/
theorem exists_ternary {e t f : ConstExpr α} (h : Canonical e) (ht : Canonical t) (hf : Canonical f) :
    ∃ e' : ConstExpr α, Canonical e' ∧ e'.tokens = e.tokens ++ .question :: (t.tokens ++ .colon :: f.tokens) := by
  induction h with
  | @chain e c hc he => exact ⟨.ternary e t f, .ternary c hc he ht hf, rfl⟩
  | @ternary e t₁ f₁ c hc he ht₁ hf₁ iht ihf =>
    obtain ⟨f', hf', htokens⟩ := ihf
    refine ⟨.ternary e t₁ f', .ternary c hc he ht₁ hf', ?_⟩
    rw [tokens, tokens, htokens]
    simp only [List.append_assoc, List.cons_append]

namespace ConstDerivation

theorem exists_reading (d : ConstDerivation α Loc) : ∃ e, Reading d.tokens e := by
  induction d with
  | primary a loc => exact ⟨.operand (.primary a), .chain (.operand _) (.operand _) rfl, rfl⟩
  | unary op a loc => exact ⟨.operand (.unary op a), .chain (.operand _) (.operand _) rfl, rfl⟩
  | binary l op r loc ihl ihr =>
    obtain ⟨el, hl, hltokens⟩ := ihl
    obtain ⟨er, hr, hrtokens⟩ := ihr
    obtain ⟨e, he, htokens⟩ := exists_binary hl op hr
    exact ⟨e, he, by rw [htokens, hltokens, hrtokens, tokens]⟩
  | ternary c t f loc ihc iht ihf =>
    obtain ⟨ec, hc, hctokens⟩ := ihc
    obtain ⟨et, ht, httokens⟩ := iht
    obtain ⟨ef, hf, hftokens⟩ := ihf
    obtain ⟨e, he, htokens⟩ := exists_ternary hc ht hf
    exact ⟨e, he, by rw [htokens, hctokens, httokens, hftokens, tokens]⟩

/-- Whatever the ambiguous rule derives is read in exactly one way. -/
theorem existsUnique_reading (d : ConstDerivation α Loc) : ∃! e, Reading d.tokens e := by
  obtain ⟨e, he⟩ := d.exists_reading
  exact ⟨e, he, fun e' he' => he'.unique he⟩

/-! ## Derivations as chains -/

/-- The chain of a derivation's binary nodes, with the trees of its leaves. -/
def treeChain : ConstDerivation α Loc → Chain (ParseTree α Loc) (BinaryOp × Loc)
  | binary l op r loc => .binary (op, loc) l.treeChain r.treeChain
  | d => .operand d.toTree

def isBinary : ConstDerivation α Loc → Bool
  | binary _ _ _ _ => true
  | _ => false

@[simp] theorem isRule_toTree (d : ConstDerivation α Loc) : isRule d.toTree = true := by
  cases d <;> rfl

@[simp] theorem extractOperator_toTree (d : ConstDerivation α Loc) : d.toTree.extractOperator = none := by
  cases d <;> rfl

theorem ternaryParts_ternary (c t f : ConstDerivation α Loc) (loc : Loc) :
    ternaryParts (ternary c t f loc).toTree = some (c.toTree, t.toTree, f.toTree) := by
  rw [toTree, ternaryParts, isRule_toTree, isRule_toTree, isRule_toTree]
  rfl

theorem ternaryParts_binary (l : ParseTree α Loc) (op : BinaryOp) (r : ParseTree α Loc) (loc : Loc) :
    ternaryParts (.rule [l, .binaryOperator op, r] loc) = none := by
  cases l <;> rfl

/-- A node with the three parts of a conditional is one. -/
theorem ternary_of_parts {d : ConstDerivation α Loc} {p : ParseTree α Loc × ParseTree α Loc × ParseTree α Loc}
    (h : ternaryParts d.toTree = some p) : ∃ c t f loc, d = ternary c t f loc := by
  cases d with
  | primary a loc => cases h
  | unary op a loc => cases h
  | binary l op r loc => rw [toTree, ternaryParts_binary] at h; cases h
  | ternary c t f loc => exact ⟨c, t, f, loc, rfl⟩

theorem readRight_binary {l r : ConstDerivation α Loc} {op : BinaryOp} {loc : Loc}
    (h : ternaryParts r.toTree = none) : (binary l op r loc).ReadRight ↔ (binary l op r loc).Plain := by
  cases r with
  | ternary c t f loc' => rw [ternaryParts_ternary] at h; cases h
  | primary a loc' => exact Iff.rfl
  | unary op a loc' => exact Iff.rfl
  | binary l' op' r' loc' => exact Iff.rfl

theorem size_pos (d : ConstDerivation α Loc) : 0 < d.size := by
  cases d <;> exact Nat.succ_pos _

theorem spells (d : ConstDerivation α Loc) : d.toTree.Spells d.treeChain.operands d.treeChain.operators := by
  induction d with
  | binary l op r loc ihl ihr => exact .binary op loc ihl ihr
  | primary a loc => exact .operand rfl
  | unary op a loc => exact .operand rfl
  | ternary c t f loc => exact .operand t.extractOperator_toTree

/-- The leaves are trees of smaller derivations. -/
theorem leaf_of_mem {d : ConstDerivation α Loc} {t : ParseTree α Loc} (h : t ∈ d.treeChain.operands) :
    ∃ d' : ConstDerivation α Loc, t = d'.toTree ∧ d'.isBinary = false ∧ d'.size ≤ d.size ∧
      (d.isBinary = true → d'.size < d.size) ∧ (d.Plain → d'.Plain) := by
  induction d with
  | binary l op r loc ihl ihr =>
    rcases List.mem_append.mp h with h | h
    · obtain ⟨d', ht, hb, hs, -, hp⟩ := ihl h
      refine ⟨d', ht, hb, ?_, fun _ => ?_, fun hplain => hp hplain.1⟩ <;> rw [size] <;> omega
    · obtain ⟨d', ht, hb, hs, -, hp⟩ := ihr h
      refine ⟨d', ht, hb, ?_, fun _ => ?_, fun hplain => hp hplain.2⟩ <;> rw [size] <;> omega
  | primary a loc => exact ⟨_, List.mem_singleton.mp h, rfl, le_rfl, fun hb => (nomatch hb), id⟩
  | unary op a loc => exact ⟨_, List.mem_singleton.mp h, rfl, le_rfl, fun hb => (nomatch hb), id⟩
  | ternary c t f loc => exact ⟨_, List.mem_singleton.mp h, rfl, le_rfl, fun hb => (nomatch hb), id⟩

/-- The tokens of a derivation are those of its chain. -/
theorem spell_treeChain {r : ParseTree α Loc → ConstExpr α} {d : ConstDerivation α Loc}
    (h : ∀ d' : ConstDerivation α Loc, d'.isBinary = false → d'.size ≤ d.size → (r d'.toTree).tokens = d'.tokens) :
    d.treeChain.spell (fun t => (r t).tokens) (fun o => .operator o.1) = d.tokens := by
  induction d with
  | binary l op r' loc ihl ihr =>
    rw [size] at h
    have hl := ihl fun d' hb hs => h d' hb (by omega)
    have hr := ihr fun d' hb hs => h d' hb (by omega)
    rw [tokens, ← hl, ← hr]
    rfl
  | primary a loc => exact h _ rfl le_rfl
  | unary op a loc => exact h _ rfl le_rfl
  | ternary c t f loc => exact h _ rfl le_rfl

theorem operators_treeChain {d : ConstDerivation α Loc} : d.treeChain.operators.map Prod.fst = d.operators := by
  induction d with
  | binary l op r loc ihl ihr =>
    rw [operators, ← ihl, ← ihr, treeChain, Chain.operators_binary, List.map_append, List.map_cons]
  | primary a loc => rfl
  | unary op a loc => rfl
  | ternary c t f loc => rfl

/-- A derivation is plain when it derives no `?`. -/
theorem plain_iff {d : ConstDerivation α Loc} : d.Plain ↔ .question ∉ d.tokens := by
  induction d with
  | primary a loc => exact iff_of_true trivial fun h => nomatch List.mem_singleton.mp h
  | unary op a loc => exact iff_of_true trivial fun h => nomatch List.mem_singleton.mp h
  | binary l op r loc ihl ihr =>
    rw [Plain, ihl, ihr, tokens, List.mem_append, List.mem_cons]
    simp
  | ternary c t f loc =>
    exact iff_of_false id fun h => h (List.mem_append_right _ List.mem_cons_self)

/-! ## What is built -/

/-- A chain of built operands is built. -/
theorem chainExpr_some {A : Type} {b : A → Option (ConstExpr α)} {r : A → ConstExpr α} {c : Chain A (BinaryOp × Loc)}
    (h : ∀ a ∈ c.operands, b a = some (r a)) :
    chainExpr (@ConstExpr.binaryOp α Loc) b c = some (c.fold r fun o => .binary o.1) := by
  induction c with
  | operand a => exact h a List.mem_cons_self
  | binary op l r' ihl ihr =>
    have hl := ihl fun a ha => h a (List.mem_append_left _ ha)
    have hr := ihr fun a ha => h a (List.mem_append_right _ ha)
    show ConstExpr.binaryOp op.1 (chainExpr _ _ l) (chainExpr _ _ r') op.2 = _
    rw [hl, hr]
    rfl

theorem tokens_fold {A : Type} (r : A → ConstExpr α) (c : Chain A (BinaryOp × Loc)) :
    (c.fold r fun o => .binary o.1).tokens = c.spell (fun a => (r a).tokens) fun o => .operator o.1 := by
  induction c with
  | operand a => rfl
  | binary op l r' ihl ihr =>
    show (l.fold r _).tokens ++ _ :: (r'.fold r _).tokens = _
    rw [ihl, ihr]
    rfl

/-- A grouped chain of operands is canonical. -/
theorem exists_ofChain {A : Type} {r : A → ConstExpr α} {c : Chain A (BinaryOp × Loc)}
    (h : c.Grouped located) (hr : ∀ a ∈ c.operands, ∃ o, r a = .operand o) :
    ∃ c', Chain.Grouped precedence c' ∧ c'.operators = c.operators.map Prod.fst ∧
      (c.fold r fun o => .binary o.1) = ofChain c' := by
  induction h with
  | operand a =>
    obtain ⟨o, ho⟩ := hr a List.mem_cons_self
    exact ⟨.operand o, .operand o, rfl, ho⟩
  | @binary op l r' left right hleft hright ihl ihr =>
    obtain ⟨cl, hcl, hlops, hl⟩ := ihl fun a ha => hr a (List.mem_append_left _ ha)
    obtain ⟨cr, hcr, hrops, hr⟩ := ihr fun a ha => hr a (List.mem_append_right _ ha)
    refine ⟨.binary op.1 cl cr, .binary hcl hcr ?_ ?_, ?_, ?_⟩
    · rw [hlops]
      exact List.forall_mem_map.mpr hleft
    · rw [hrops]
      exact List.forall_mem_map.mpr hright
    · rw [Chain.operators_binary, hlops, hrops, Chain.operators_binary, List.map_append, List.map_cons]
    · show ConstExpr.binary op.1 (l.fold r _) (r'.fold r _) = _
      rw [hl, hr]
      rfl

/-- What the builder returns for a derivation: an expression of its tokens, canonical where the derivation is read
right. -/
structure Built (n : Nat) (d : ConstDerivation α Loc) (e : ConstExpr α) : Prop where
  build_eq : build n d.toTree = some e
  tokens_eq : e.tokens = d.tokens
  canonical_iff : Canonical e ↔ d.ReadRight
  operand : d.isBinary = false → d.Plain → ∃ o, e = .operand o
  grouped : d.Plain → ∃ c, Chain.Grouped precedence c ∧ c.operators = d.operators ∧ e = ofChain c

theorem plain_of_ofChain {d : ConstDerivation α Loc} {c : Chain (ConstOperand α) BinaryOp}
    (h : (ofChain c).tokens = d.tokens) : d.Plain :=
  plain_iff.mpr (h ▸ question_not_mem_ofChain c)

/-- A conditional is built from its three parts. -/
theorem built_ternary {n : Nat} {c t f : ConstDerivation α Loc} {ec et ef : ConstExpr α} (loc : Loc)
    (hc : Built n c ec) (ht : Built n t et) (hf : Built n f ef) :
    Built (n + 1) (ternary c t f loc) (.ternary ec et ef) where
  build_eq := by
    have hparts := ternaryParts_ternary c t f loc
    rw [toTree] at hparts ⊢
    rw [build, hparts]
    show (build n c.toTree).bind _ = _
    rw [hc.build_eq, ht.build_eq, hf.build_eq]
    rfl
  tokens_eq := by rw [ConstExpr.tokens, hc.tokens_eq, ht.tokens_eq, hf.tokens_eq, tokens]
  canonical_iff := by
    constructor
    · intro h
      cases h with
      | chain c' _ he => cases c' <;> cases he
      | ternary c' _ he hct hcf =>
        exact ⟨plain_of_ofChain (he ▸ hc.tokens_eq), ht.canonical_iff.mp hct, hf.canonical_iff.mp hcf⟩
    · rintro ⟨hplain, hrt, hrf⟩
      obtain ⟨c', hc', -, he⟩ := hc.grouped hplain
      exact .ternary c' hc' he (ht.canonical_iff.mpr hrt) (hf.canonical_iff.mpr hrf)
  operand := fun _ h => h.elim
  grouped := fun h => h.elim

/-- A binary node on a conditional is built as a conditional. -/
theorem built_binary_ternary {n : Nat} {l c t f : ConstDerivation α Loc} {el ec et ef : ConstExpr α} (op : BinaryOp)
    (loc loc' : Loc) (hl : Built n l el) (hc : Built n c ec) (ht : Built n t et) (hf : Built n f ef) :
    Built (n + 1) (binary l op (ternary c t f loc') loc) (.ternary (.binary op el ec) et ef) where
  build_eq := by
    rw [toTree, build, ternaryParts_binary, ternaryParts_ternary]
    show (ConstExpr.binaryOp op (build n l.toTree) (build n c.toTree) loc).bind _ = _
    rw [hl.build_eq, hc.build_eq, ht.build_eq, hf.build_eq]
    rfl
  tokens_eq := by
    rw [ConstExpr.tokens, ConstExpr.tokens, hl.tokens_eq, hc.tokens_eq, ht.tokens_eq, hf.tokens_eq, tokens, tokens]
    simp only [List.append_assoc, List.cons_append]
  canonical_iff := by
    constructor
    · intro h
      cases h with
      | chain c' _ he => cases c' <;> cases he
      | ternary c' hc' he hct hcf =>
        cases hc' with
        | operand o => cases he
        | @binary _ cl cr left right hleft hright =>
          obtain ⟨rfl, rfl, rfl⟩ := ConstExpr.binary.inj he
          have hlp := plain_of_ofChain hl.tokens_eq
          have hcp := plain_of_ofChain hc.tokens_eq
          obtain ⟨cl', -, hlops, hle⟩ := hl.grouped hlp
          obtain ⟨cr', -, hcops, hce⟩ := hc.grouped hcp
          rw [(chain_of_tokens (congrArg ConstExpr.tokens hle)).2, hlops] at hleft
          rw [(chain_of_tokens (congrArg ConstExpr.tokens hce)).2, hcops] at hright
          exact ⟨hlp, hcp, hleft, hright, ht.canonical_iff.mp hct, hf.canonical_iff.mp hcf⟩
    · rintro ⟨hlp, hcp, hleft, hright, hrt, hrf⟩
      obtain ⟨cl, hcl, hlops, hle⟩ := hl.grouped hlp
      obtain ⟨cr, hcr, hcops, hce⟩ := hc.grouped hcp
      rw [← hlops] at hleft
      rw [← hcops] at hright
      refine .ternary (.binary op cl cr) (.binary hcl hcr hleft hright) ?_ (ht.canonical_iff.mpr hrt)
        (hf.canonical_iff.mpr hrf)
      rw [hle, hce]
      rfl
  operand := fun hb => nomatch hb
  grouped := fun h => h.2.elim

/-- A binary node on anything else is built as a chain. -/
theorem built_binary {n : Nat} {l r : ConstDerivation α Loc} (op : BinaryOp) (loc : Loc)
    (hr : ternaryParts r.toTree = none)
    (ih : ∀ d : ConstDerivation α Loc, d.size < (binary l op r loc).size → ∃ e, Built n d e) :
    ∃ e, Built (n + 1) (binary l op r loc) e := by
  have hspells := (binary l op r loc).spells
  obtain ⟨c, hbuild, hgrouped, hands, hops⟩ := buildBinaryChain_spec ConstExpr.binaryOp (build n) hspells
    (List.append_ne_nil_of_right_ne_nil _ (List.cons_ne_nil _ _))
  obtain ⟨e₀, -⟩ := ih l (by rw [size]; omega)
  obtain ⟨r', hr'⟩ : ∃ r' : ParseTree α Loc → ConstExpr α, ∀ t e, build n t = some e → r' t = e :=
    ⟨fun t => (build n t).getD e₀, fun t e he => congrArg (Option.getD · e₀) he⟩
  -- every leaf is a smaller derivation, so it is built
  have hleaf : ∀ t ∈ c.operands, ∃ d : ConstDerivation α Loc, t = d.toTree ∧ d.isBinary = false ∧
      Built n d (r' t) ∧ ((binary l op r loc).Plain → d.Plain) := by
    intro t ht
    rw [hands] at ht
    obtain ⟨d, rfl, hd, -, hlt, hplain⟩ := leaf_of_mem ht
    obtain ⟨e, he⟩ := ih d (hlt rfl)
    rw [← hr' _ _ he.build_eq] at he
    exact ⟨d, rfl, hd, he, hplain⟩
  have hbuilt : ∀ t ∈ c.operands, build n t = some (r' t) := by
    intro t ht
    obtain ⟨d, rfl, -, he, -⟩ := hleaf t ht
    exact he.build_eq
  have htokens : (c.fold r' fun o => ConstExpr.binary o.1).tokens = (binary l op r loc).tokens := by
    have hspell : ∀ d : ConstDerivation α Loc, d.size < (binary l op r loc).size →
        (r' d.toTree).tokens = d.tokens := by
      intro d hd
      obtain ⟨e, he⟩ := ih d hd
      rw [hr' _ _ he.build_eq, he.tokens_eq]
    rw [size] at hspell
    rw [tokens_fold, Chain.spell_congr _ _ hands hops, tokens,
      ← spell_treeChain (r := r') fun d _ hd => hspell d (by omega),
      ← spell_treeChain (r := r') fun d _ hd => hspell d (by omega)]
    rfl
  have hplain : (binary l op r loc).Plain → ∃ c', Chain.Grouped precedence c' ∧
      c'.operators = (binary l op r loc).operators ∧ (c.fold r' fun o => ConstExpr.binary o.1) = ofChain c' := by
    intro h
    obtain ⟨c', hc', hops', he⟩ := exists_ofChain hgrouped fun t ht => by
      obtain ⟨d, rfl, hd, hb, hp⟩ := hleaf t ht
      exact hb.operand hd (hp h)
    exact ⟨c', hc', by rw [hops', hops, operators_treeChain], he⟩
  refine ⟨c.fold r' fun o => .binary o.1, ?_, htokens, ?_, fun h => (nomatch h), hplain⟩
  · rw [toTree, build, ternaryParts_binary, hr]
    show (buildBinaryChain ConstExpr.binaryOp (build n) (binary l op r loc).toTree).join = _
    rw [hbuild, chainExpr_some hbuilt]
    rfl
  · rw [readRight_binary hr]
    constructor
    · intro h
      cases c with
      | operand a => exact absurd hops.symm (List.append_ne_nil_of_right_ne_nil _ (List.cons_ne_nil _ _))
      | binary o cl cr =>
        cases h with
        | chain c' _ he => exact plain_of_ofChain (he ▸ htokens)
    · intro h
      obtain ⟨c', hc', -, he⟩ := hplain h
      exact .chain c' hc' he

/-- Enough fuel builds every derivation. -/
theorem exists_built (d : ConstDerivation α Loc) {n : Nat} (h : d.size ≤ n) : ∃ e, Built n d e := by
  induction n generalizing d with
  | zero => exact absurd d.size_pos (by omega)
  | succ n ih =>
    cases d with
    | primary a loc =>
      rw [size] at h
      obtain ⟨m, rfl⟩ : ∃ m, n = m + 1 := ⟨n - 1, by omega⟩
      exact ⟨.operand (.primary a), rfl, rfl, iff_of_true (.chain (.operand _) (.operand _) rfl) trivial,
        fun _ _ => ⟨_, rfl⟩, fun _ => ⟨.operand _, .operand _, rfl, rfl⟩⟩
    | unary op a loc =>
      exact ⟨.operand (.unary op a), rfl, rfl, iff_of_true (.chain (.operand _) (.operand _) rfl) trivial,
        fun _ _ => ⟨_, rfl⟩, fun _ => ⟨.operand _, .operand _, rfl, rfl⟩⟩
    | ternary c t f loc =>
      rw [size] at h
      obtain ⟨ec, hc⟩ := ih c (by omega)
      obtain ⟨et, ht⟩ := ih t (by omega)
      obtain ⟨ef, hf⟩ := ih f (by omega)
      exact ⟨_, built_ternary loc hc ht hf⟩
    | binary l op r loc =>
      cases hr : ternaryParts r.toTree with
      | none => exact built_binary op loc hr fun d hd => ih d (by omega)
      | some parts =>
        obtain ⟨c, t, f, loc', rfl⟩ := ternary_of_parts hr
        rw [size, size] at h
        obtain ⟨el, hl⟩ := ih l (by omega)
        obtain ⟨ec, hc⟩ := ih c (by omega)
        obtain ⟨et, ht⟩ := ih t (by omega)
        obtain ⟨ef, hf⟩ := ih f (by omega)
        exact ⟨_, built_binary_ternary op loc loc' hl hc ht hf⟩

/-- The builder returns the reading of exactly the derivations that are read right. -/
theorem build_reading_iff (d : ConstDerivation α Loc) {fuel : Nat} (h : d.size ≤ fuel) :
    (∃ e, build fuel d.toTree = some e ∧ Reading d.tokens e) ↔ d.ReadRight := by
  obtain ⟨e, he⟩ := d.exists_built h
  rw [← he.canonical_iff]
  constructor
  · rintro ⟨e', he', hread⟩
    rw [he.build_eq, Option.some.injEq] at he'
    rw [he']
    exact hread.1
  · exact fun hc => ⟨e, he.build_eq, hc, he.tokens_eq⟩

/-- `a + b ? c : d`, the sum derived as the condition. -/
def conditionSum : ConstDerivation Nat Unit :=
  .ternary (.binary (.primary 0 ()) .add (.primary 1 ()) ()) (.primary 2 ()) (.primary 3 ()) ()

theorem build_conditionSum : ∃ e, build 10 conditionSum.toTree = some e ∧ Reading conditionSum.tokens e :=
  (conditionSum.build_reading_iff (by decide)).mpr ⟨⟨trivial, trivial⟩, trivial, trivial⟩

/-- `a + b * c ? d : e`, the conditional derived as the right operand of the product. -/
def buriedConditional : ConstDerivation Nat Unit :=
  .binary (.primary 0 ()) .add
    (.binary (.primary 1 ()) .mul (.ternary (.primary 2 ()) (.primary 3 ()) (.primary 4 ()) ()) ()) ()

/-- It is built as `a + b * (c ? d : e)`. -/
theorem build_buriedConditional :
    build 13 buriedConditional.toTree = some (.binary .add (.operand (.primary 0)) (.binary .mul (.operand (.primary 1))
        (.ternary (.operand (.primary 2)) (.operand (.primary 3)) (.operand (.primary 4))))) ∧
      ¬ ∃ e, build 13 buriedConditional.toTree = some e ∧ Reading buriedConditional.tokens e := by
  refine ⟨rfl, ?_⟩
  rintro ⟨e, he, hread⟩
  obtain rfl := Option.some.inj he
  cases hread.1 with
  | chain c hc hec => exact question_not_mem_ofChain c (hec ▸ (by decide))

end ConstDerivation

end Veriforge
